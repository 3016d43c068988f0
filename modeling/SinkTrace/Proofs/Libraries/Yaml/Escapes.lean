import Mathlib.Algebra.Ring.Nat
import SinkTrace.Proofs.Libraries.Yaml.Gaps

/-!
Escapes in double quotes stand for the characters that they are written for: by one letter, or by
a code in base 16 of a fixed width.
-/

namespace SinkTrace.Yaml

/-- A letter, a digit or another mark of those that every document may hold. -/
def isGraphic (c : Char) : Bool := 0x21 ≤ c.toNat && c.toNat ≤ 0x7e

/-! Codes. -/

/-- The digit for a number below 16. -/
def hexDigit (d : Nat) : Char :=
  if d < 10 then Char.ofNat ('0'.toNat + d) else Char.ofNat ('A'.toNat + d - 10)

theorem digit?_hexDigit : ∀ d < 16, digit? (hexDigit d) = some d := by decide

theorem isGraphic_hexDigit : ∀ d < 16, isGraphic (hexDigit d) = true := by decide

theorem hexDigits_succ (width code : Nat) :
    hexDigits (width + 1) code = hexDigit (code / 16 ^ width % 16) :: hexDigits width code := by
  rw [hexDigits, List.range_succ, List.reverse_append]
  rfl

theorem length_hexDigits (width code : Nat) : (hexDigits width code).length = width := by
  rw [hexDigits, List.length_map, List.length_reverse, List.length_range]

theorem isGraphic_of_mem_hexDigits {width code : Nat} {c : Char} (hc : c ∈ hexDigits width code) :
    isGraphic c = true := by
  obtain ⟨i, -, rfl⟩ := List.mem_map.mp hc
  exact isGraphic_hexDigit _ (Nat.mod_lt _ (by decide))

theorem foldlM_hexDigits (width code n : Nat) :
    (hexDigits width code).foldlM (addDigit? 16) n = some (n * 16 ^ width + code % 16 ^ width) := by
  induction width generalizing n with
  | zero => simp [hexDigits, Nat.mod_one]
  | succ width ih =>
    have hd : code / 16 ^ width % 16 < 16 := Nat.mod_lt _ (by decide)
    rw [hexDigits_succ, List.foldlM_cons, addDigit?, digit?_hexDigit _ hd]
    simp only [Option.bind_eq_bind, Option.bind_some, hd, ↓reduceIte, ih, Nat.mod_pow_succ,
      Option.some.injEq]
    grind

theorem charOfHex?_hexDigits {width : Nat} {c : Char} (hw : 0 < width)
    (hc : c.toNat < 16 ^ width) : charOfHex? (hexDigits width c.toNat) = some c := by
  have hne : (hexDigits width c.toNat).isEmpty = false := by
    rw [List.isEmpty_eq_false_iff, ← List.length_pos_iff, length_hexDigits]
    exact hw
  have hvalid : c.toNat.isValidChar := c.valid
  simp [charOfHex?, digits?, hne, foldlM_hexDigits, Nat.mod_eq_of_lt hc, hvalid]

/-! Escapes. -/

/-- An escape is read as the letter and the character that it was found with. -/
theorem unescape?_of_mem {p : Char × Char} (hp : p ∈ escapes) (rest : List Char) :
    unescape? (p.1 :: rest) = some (p.2, 1) := by
  have hall : ∀ p ∈ escapes, codeWidth? p.1 = none ∧
      (escapes ++ readOnlyEscapes).find? (·.1 == p.1) = some p := by decide
  obtain ⟨hwidth, hfind⟩ := hall p hp
  simp only [unescape?, hwidth, hfind, Option.map_some]

theorem unescape?_hexDigits {letter : Char} {width : Nat} {c : Char}
    (hl : codeWidth? letter = some width) (hw : 0 < width) (hc : c.toNat < 16 ^ width)
    (rest : List Char) :
    unescape? (letter :: hexDigits width c.toNat ++ rest) =
      some (c, (hexDigits width c.toNat).length + 1) := by
  have hlen := length_hexDigits width c.toNat
  have htake : (hexDigits width c.toNat ++ rest).take width = hexDigits width c.toNat := by
    rw [List.take_append_of_le_length (Nat.le_of_eq hlen.symm), List.take_of_length_le
      (Nat.le_of_eq hlen)]
  simp only [List.cons_append, unescape?, hl, List.length_append, hlen, htake,
    charOfHex?_hexDigits hw hc, Option.map_some]
  rw [if_neg (by omega)]

/-- Either the character is written as it is, or behind a backslash what stands for it. -/
inductive Escaped (c : Char) : List Char → Prop where
  | asIs (hprintable : isPrintable c = true) (hbreak : isBreak c = false) (hquote : c ≠ '"')
      (hslash : c ≠ '\\') : Escaped c [c]
  | code {letter : Char} {digits : List Char}
      (hread : ∀ rest, unescape? (letter :: digits ++ rest) = some (c, digits.length + 1))
      (hgraphic : ∀ a ∈ letter :: digits, isGraphic a = true) :
      Escaped c ('\\' :: letter :: digits)

theorem escaped_hexDigits {letter : Char} {width : Nat} {c : Char}
    (hl : codeWidth? letter = some width) (hg : isGraphic letter = true) (hw : 0 < width)
    (hc : c.toNat < 16 ^ width) : Escaped c ('\\' :: letter :: hexDigits width c.toNat) :=
  .code (unescape?_hexDigits hl hw hc) fun a ha => by
    rcases List.mem_cons.mp ha with rfl | ha
    · exact hg
    · exact isGraphic_of_mem_hexDigits ha

theorem escaped_escape (c : Char) : Escaped c (escape c) := by
  unfold escape
  split
  · rename_i letter d hfind
    have hmem := List.mem_of_find?_eq_some hfind
    obtain rfl : d = c := by simpa using List.find?_some hfind
    have hgraphic : ∀ p ∈ escapes, isGraphic p.1 = true := by decide
    refine .code (unescape?_of_mem hmem) fun a ha => ?_
    rw [List.mem_singleton.mp ha]
    exact hgraphic _ hmem
  · rename_i hfind
    have hnot : ∀ p ∈ escapes, p.2 ≠ c := fun p hp he =>
      List.find?_eq_none.mp hfind p hp (by simp [he])
    split
    · rename_i hp
      refine .asIs hp ?_ (Ne.symm (hnot ('"', '"') (by decide)))
        (Ne.symm (hnot ('\\', '\\') (by decide)))
      rw [Bool.eq_false_iff, Ne, isBreak_iff]
      rintro (rfl | rfl | rfl | rfl | rfl)
      · exact hnot ('n', '\n') (by decide) rfl
      · exact hnot ('r', '\r') (by decide) rfl
      · exact hnot ('N', '\x85') (by decide) rfl
      · exact hnot ('L', '\u2028') (by decide) rfl
      · exact hnot ('P', '\u2029') (by decide) rfl
    · split
      · exact escaped_hexDigits rfl (by decide) (by decide) (by omega)
      · split
        · exact escaped_hexDigits rfl (by decide) (by decide) (by omega)
        · exact escaped_hexDigits rfl (by decide) (by decide)
            (Nat.lt_of_lt_of_le c.val.toNat_lt (by decide))

end SinkTrace.Yaml
