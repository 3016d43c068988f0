import SinkTrace.Libraries.Yaml.Cursor

/-!
What cursors and gaps do on texts whose shape is known: characters within one line, blanks between
two words, and line breaks with the indentation of the next line behind them.
-/

namespace SinkTrace.Yaml

theorem isBreak_iff {c : Char} : isBreak c = true ↔
    c = '\n' ∨ c = '\r' ∨ c = '\x85' ∨ c = '\u2028' ∨ c = '\u2029' := by
  simp [isBreak]

/-- Nothing, or neither a blank nor a line break first: a gap ends here. -/
def Solid (text : List Char) : Prop := ∀ c ∈ text.head?, gapFirst [c] = false

theorem solid_cons {c : Char} {text : List Char} (hc : gapFirst [c] = false) :
    Solid (c :: text) := by
  rintro d ⟨⟩
  exact hc

/-- What needs no escape is no tab. -/
theorem gapFirst_of_isPrintable {c : Char} (hp : isPrintable c = true) (hb : isBreak c = false)
    (hs : c ≠ ' ') : gapFirst [c] = false := by
  have ht : c ≠ '\t' := by
    rintro rfl
    exact absurd hp (by decide)
  simp [gapFirst, isBlank, hb, hs, ht]

/-- The longest row of such characters at the beginning. -/
theorem exists_run (p : Char → Bool) (text : List Char) :
    ∃ w t, text = w ++ t ∧ (∀ a ∈ w, p a = true) ∧ ∀ a ∈ t.head?, p a = false := by
  induction text with
  | nil => exact ⟨[], [], rfl, by simp, by simp⟩
  | cons a text ih =>
    cases ha : p a with
    | true =>
      obtain ⟨w, t, rfl, hw, ht⟩ := ih
      exact ⟨a :: w, t, rfl, List.forall_mem_cons.mpr ⟨ha, hw⟩, ht⟩
    | false => exact ⟨[], a :: text, rfl, by simp, by simpa using ha⟩

theorem exists_spaces (text : List Char) :
    ∃ n t, text = List.replicate n ' ' ++ t ∧ t.head? ≠ some ' ' := by
  obtain ⟨w, t, rfl, hw, ht⟩ := exists_run (· == ' ') text
  have hrow : w = List.replicate w.length ' ' :=
    List.eq_replicate_of_mem fun a ha => by simpa using hw a ha
  exact ⟨w.length, t, congrArg (· ++ t) hrow, fun h => absurd (ht ' ' h) (by decide)⟩

namespace Cursor

variable {rest : List Char} {l col i n fuel tabs : Nat} {g : Gap}

theorem next_of_inline {a : Char} (ha : isBreak a = false) :
    (⟨a :: rest, l, col, i⟩ : Cursor).next = ⟨rest, l, col + 1, i + 1⟩ := by
  unfold next
  split
  · rename_i h
    cases h
  · rename_i h
    cases h
    exact absurd ha (by decide)
  · rename_i h
    cases h
    rw [if_neg (by simp [ha])]

theorem next_of_isBreak {a : Char} (ha : isBreak a = true) (hr : a ≠ '\r') :
    (⟨a :: rest, l, col, i⟩ : Cursor).next = ⟨rest, l + 1, 0, i + 1⟩ := by
  unfold next
  split
  · rename_i h
    cases h
  · rename_i h
    cases h
    exact absurd rfl hr
  · rename_i h
    cases h
    rw [if_pos ha]

theorem skip_append {w : List Char} (hw : ∀ a ∈ w, isBreak a = false) :
    (⟨w ++ rest, l, col, i⟩ : Cursor).skip w.length =
      ⟨rest, l, col + w.length, i + w.length⟩ := by
  induction w generalizing col i with
  | nil => rfl
  | cons a w ih =>
    rw [List.cons_append, List.length_cons, skip, next_of_inline (hw a (List.mem_cons_self ..)),
      ih fun b hb => hw b (List.mem_cons_of_mem a hb)]
    simp only [Nat.add_assoc, Nat.add_comm 1]

/-! Gaps. -/

theorem gap?_cons (a : Char) (indented : Bool) :
    gap? tabs indented (fuel + 1) g ⟨a :: rest, l, col, i⟩ =
      if isBreak a then
        gap? tabs true fuel ⟨[], g.breaks ++ [lineBreak a]⟩ (⟨a :: rest, l, col, i⟩ : Cursor).next
      else if !isBlank a then some (g, ⟨a :: rest, l, col, i⟩)
      else if !indented then
        gap? tabs false fuel ⟨g.blanks ++ [a], g.breaks⟩ (⟨a :: rest, l, col, i⟩ : Cursor).next
      else if a == '\t' && decide (col < tabs) then none
      else gap? tabs true fuel g (⟨a :: rest, l, col, i⟩ : Cursor).next :=
  rfl

theorem gap?_solid (hs : Solid rest) (indented : Bool) :
    gap? tabs indented fuel g ⟨rest, l, col, i⟩ = some (g, ⟨rest, l, col, i⟩) := by
  cases fuel with
  | zero => rfl
  | succ fuel =>
    cases rest with
    | nil => rfl
    | cons a rest =>
      have ha := hs a rfl
      simp only [gapFirst, Bool.or_eq_false_iff] at ha
      rw [gap?_cons, if_neg (by simp [ha.2]), if_pos (by simp [ha.1])]

/-- Blanks on one line. -/
theorem gap?_spaces (hs : Solid rest) (hf : n ≤ fuel) :
    gap? tabs false fuel g ⟨List.replicate n ' ' ++ rest, l, col, i⟩ =
      some (⟨g.blanks ++ List.replicate n ' ', g.breaks⟩, ⟨rest, l, col + n, i + n⟩) := by
  induction n generalizing fuel g col i with
  | zero => rw [List.replicate_zero, List.nil_append, List.append_nil]; exact gap?_solid hs false
  | succ n ih =>
    obtain ⟨fuel, rfl⟩ : ∃ m, fuel = m + 1 := ⟨fuel - 1, by omega⟩
    rw [List.replicate_succ, List.cons_append, gap?_cons, if_neg (by decide), if_neg (by decide),
      if_pos (by decide), next_of_inline (by decide), ih (by omega)]
    simp only [List.append_assoc, List.singleton_append, Nat.add_assoc, Nat.add_comm 1]

/-- Indentation. -/
theorem gap?_indentation (hs : Solid rest) (hf : n ≤ fuel) :
    gap? tabs true fuel g ⟨List.replicate n ' ' ++ rest, l, col, i⟩ =
      some (g, ⟨rest, l, col + n, i + n⟩) := by
  induction n generalizing fuel col i with
  | zero => exact gap?_solid hs true
  | succ n ih =>
    obtain ⟨fuel, rfl⟩ : ∃ m, fuel = m + 1 := ⟨fuel - 1, by omega⟩
    rw [List.replicate_succ, List.cons_append, gap?_cons, if_neg (by decide), if_neg (by decide),
      if_neg (by decide), if_neg (by simp), next_of_inline (by decide), ih (by omega)]
    simp only [Nat.add_assoc, Nat.add_comm 1]

/-- Line breaks and the indentation of the line behind them. -/
theorem gap?_breaks {b : Char} {bs : List Char}
    (hb : ∀ a ∈ b :: bs, isBreak a = true ∧ a ≠ '\r') (hs : Solid rest)
    (hf : bs.length + 1 + n ≤ fuel) (indented : Bool) :
    gap? tabs indented fuel g ⟨b :: bs ++ (List.replicate n ' ' ++ rest), l, col, i⟩ =
      some (⟨[], g.breaks ++ (b :: bs).map lineBreak⟩,
        ⟨rest, l + (bs.length + 1), n, i + (bs.length + 1 + n)⟩) := by
  induction bs generalizing b fuel g l col i indented with
  | nil =>
    obtain ⟨fuel, rfl⟩ : ∃ m, fuel = m + 1 := ⟨fuel - 1, by omega⟩
    obtain ⟨hbreak, hr⟩ := hb b (List.mem_cons_self ..)
    rw [List.cons_append, gap?_cons, if_pos hbreak, next_of_isBreak hbreak hr, List.nil_append,
      gap?_indentation hs (by rw [List.length_nil] at hf; omega)]
    simp [Nat.add_assoc]
  | cons b' bs ih =>
    obtain ⟨fuel, rfl⟩ : ∃ m, fuel = m + 1 := ⟨fuel - 1, by omega⟩
    obtain ⟨hbreak, hr⟩ := hb b (List.mem_cons_self ..)
    rw [List.cons_append, gap?_cons, if_pos hbreak, next_of_isBreak hbreak hr,
      ih (fun a ha => hb a (List.mem_cons_of_mem b ha)) (by rw [List.length_cons] at hf; omega)]
    simp only [List.append_assoc, List.singleton_append, List.map_cons, List.length_cons,
      Option.some.injEq, Prod.mk.injEq, Cursor.mk.injEq, true_and]
    omega

theorem gap_spaces (hs : Solid rest) :
    gap false ⟨List.replicate n ' ' ++ rest, l, col, i⟩ =
      (⟨List.replicate n ' ', []⟩, ⟨rest, l, col + n, i + n⟩) := by
  rw [gap, gap?_spaces hs (by simp)]
  rfl

theorem gap_breaks {b : Char} {bs : List Char}
    (hb : ∀ a ∈ b :: bs, isBreak a = true ∧ a ≠ '\r') (hs : Solid rest) :
    gap false ⟨b :: bs ++ (List.replicate n ' ' ++ rest), l, col, i⟩ =
      (⟨[], (b :: bs).map lineBreak⟩,
        ⟨rest, l + (bs.length + 1), n, i + (bs.length + 1 + n)⟩) := by
  rw [gap, gap?_breaks hb hs (by simp; omega)]
  rfl

theorem atMark_of_column_pos {c : Cursor} (hc : 0 < c.column) (mark : String) :
    c.atMark mark = false := by
  simp [atMark, Nat.ne_of_gt hc]

theorem atMarker_of_column_pos {c : Cursor} (hc : 0 < c.column) : c.atMarker = false := by
  simp [atMarker, atMark_of_column_pos hc]

end Cursor

end SinkTrace.Yaml
