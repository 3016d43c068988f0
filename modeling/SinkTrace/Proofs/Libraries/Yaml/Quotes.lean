import SinkTrace.Proofs.Libraries.Yaml.Escapes
import SinkTrace.Libraries.Yaml.Printer

/-!
A text in quotes is read as the text that was written: in single quotes if it holds no line feed
and needs no escape, and in double quotes always. Blanks and line breaks are read as gaps, so both
proofs go along the text run by run.
-/

namespace SinkTrace.Yaml

variable {text rest : List Char} {a c : Char} {l col i n fuel indent : Nat}

/-! Pairs of characters. -/

theorem hasPair_cons_cons (p : Char → Char → Bool) (a b : Char) (text : List Char) :
    hasPair p (a :: b :: text) = (p a b || hasPair p (b :: text)) := by
  simp [hasPair]

theorem not_hasPair_of_append {p : Char → Char → Bool} {w : List Char}
    (h : hasPair p (w ++ text) = false) : hasPair p text = false := by
  induction w with
  | nil => exact h
  | cons a w ih =>
    refine ih ?_
    cases hw : w ++ text with
    | nil => rfl
    | cons b t =>
      rw [List.cons_append, hw, hasPair_cons_cons, Bool.or_eq_false_iff] at h
      exact h.2

theorem fitsSingle_iff : fitsSingle text = true ↔ (∀ c ∈ text, isPrintable c = true) ∧
    hasPair (fun a b => a == ' ' && isBreak b) text = false ∧
      hasPair (fun a b => isBreak a && b == ' ') text = false := by
  simp [fitsSingle, isEven, and_assoc]

theorem fitsSingle_of_append {w : List Char} (h : fitsSingle (w ++ text) = true) :
    fitsSingle text = true := by
  obtain ⟨hp, hblank, hbreak⟩ := fitsSingle_iff.mp h
  exact fitsSingle_iff.mpr ⟨fun c hc => hp c (List.mem_append_right w hc),
    not_hasPair_of_append hblank, not_hasPair_of_append hbreak⟩

/-- Neither a blank in front of a line break nor one behind it. -/
theorem pair_of_fitsSingle {w : List Char} {a b : Char}
    (h : fitsSingle (w ++ a :: b :: text) = true) :
    ¬(a = ' ' ∧ isBreak b = true) ∧ ¬(isBreak a = true ∧ b = ' ') := by
  obtain ⟨-, hblank, hbreak⟩ := fitsSingle_iff.mp (fitsSingle_of_append h)
  rw [hasPair_cons_cons, Bool.or_eq_false_iff] at hblank hbreak
  refine ⟨fun h => ?_, fun h => ?_⟩
  · simp [h.1, h.2] at hblank
  · simp [h.1, h.2] at hbreak

/-- A line break that is written as it is, other than a line feed. -/
theorem separator_of_isPrintable (hp : isPrintable c = true) (hb : isBreak c = true)
    (hn : c ≠ '\n') : c ≠ '\r' ∧ lineBreak c = c := by
  rcases isBreak_iff.mp hb with rfl | rfl | rfl | rfl | rfl
  · exact absurd rfl hn
  · exact absurd hp (by decide)
  · exact absurd hp (by decide)
  · exact ⟨by decide, rfl⟩
  · exact ⟨by decide, rfl⟩

/-! Single quotes. -/

/-- What stands between the quotes. -/
def singleBody (indent : Nat) (text : List Char) : List Char :=
  indented indent false (escapeSingle text) ++
    if text.getLast?.any isBreak then List.replicate indent ' ' else []

theorem single_eq : single indent text = '\'' :: (singleBody indent text ++ ['\'']) := rfl

/-- A character as it is written between single quotes. -/
def escapeQuote (c : Char) : List Char := if c == '\'' then ['\'', '\''] else [c]

theorem indented_inline {fresh : Bool} (hc : isBreak c = false) :
    indented indent fresh (escapeQuote c ++ rest) =
      List.replicate (if fresh then indent else 0) ' ' ++
        (escapeQuote c ++ indented indent false rest) := by
  unfold escapeQuote
  split
  · simp [indented, isBreak]
  · simp [indented, hc]

theorem singleBody_cons (hc : isBreak c = false) :
    singleBody indent (c :: text) = escapeQuote c ++ singleBody indent text := by
  have hlast : (c :: text).getLast?.any isBreak = text.getLast?.any isBreak := by
    cases text with
    | nil => simp [hc]
    | cons d text => rw [List.getLast?_cons_cons]
  have hescape : escapeSingle (c :: text) = escapeQuote c ++ escapeSingle text := rfl
  rw [singleBody, hlast, hescape, indented_inline hc]
  simp [singleBody]

theorem indented_breaks {bs : List Char} {b : Char} {fresh : Bool}
    (hb : ∀ a ∈ b :: bs, isBreak a = true) :
    indented indent fresh (b :: bs ++ rest) = b :: bs ++ indented indent true rest := by
  induction bs generalizing b fresh with
  | nil => simp [indented, hb b]
  | cons b' bs ih =>
    rw [List.cons_append, indented, if_pos (hb b (List.mem_cons_self ..)),
      ih fun a ha => hb a (List.mem_cons_of_mem b ha)]
    rfl

theorem escapeSingle_breaks {bs : List Char} (hb : ∀ a ∈ bs, isBreak a = true) :
    escapeSingle (bs ++ text) = bs ++ escapeSingle text := by
  induction bs with
  | nil => rfl
  | cons b bs ih =>
    have hq : b ≠ '\'' := by
      rintro rfl
      exact absurd (hb _ (List.mem_cons_self ..)) (by decide)
    rw [List.cons_append, escapeSingle, List.flatMap_cons, if_neg (by simpa using hq)]
    exact congrArg (b :: ·) (ih fun a ha => hb a (List.mem_cons_of_mem b ha))

/-- Behind line breaks the next line is indented, even if nothing but the quote is on it. -/
theorem singleBody_breaks {bs : List Char} {b : Char} (hb : ∀ a ∈ b :: bs, isBreak a = true)
    (ht : ∀ c ∈ text.head?, isBreak c = false) : singleBody indent (b :: bs ++ text) =
      b :: bs ++ (List.replicate indent ' ' ++ singleBody indent text) := by
  rw [singleBody, escapeSingle_breaks hb, indented_breaks hb]
  cases text with
  | nil =>
    have hlast : (b :: bs).getLast?.any isBreak = true := by
      rw [List.getLast?_eq_some_getLast (List.cons_ne_nil b bs)]
      exact hb _ (List.getLast_mem _)
    rw [List.append_nil, hlast]
    simp [singleBody, escapeSingle, indented]
  | cons c text =>
    have hc := ht c rfl
    have hescape : escapeSingle (c :: text) = escapeQuote c ++ escapeSingle text := rfl
    have hlast : (b :: bs ++ c :: text).getLast? = (c :: text).getLast? := by
      rw [List.getLast?_append, List.getLast?_cons, Option.some_or]
    rw [hlast, hescape, indented_inline hc, singleBody, hescape, indented_inline hc]
    simp

theorem singleBody_spaces (n : Nat) : singleBody indent (List.replicate n ' ' ++ text) =
    List.replicate n ' ' ++ singleBody indent text := by
  induction n with
  | zero => rfl
  | succ n ih =>
    rw [List.replicate_succ, List.cons_append, singleBody_cons (by decide), ih]
    rfl

/-- Nothing, or neither a blank nor a line break first, nor anything else that cannot be written as
it is. -/
def Printed (text : List Char) : Prop :=
  ∀ c ∈ text.head?, isPrintable c = true ∧ isBreak c = false ∧ c ≠ ' '

theorem solid_singleBody (indent : Nat) (rest : List Char) (hhead : Printed text) :
    Solid (singleBody indent text ++ '\'' :: rest) := by
  cases text with
  | nil => exact solid_cons (by decide)
  | cons c text =>
    obtain ⟨hp, hb, hs⟩ := hhead c rfl
    rw [singleBody_cons hb, escapeQuote]
    split
    · exact solid_cons (by decide)
    · exact solid_cons (gapFirst_of_isPrintable hp hb hs)

section Single

variable (hpos : 0 < col)

include hpos

theorem singleQuoted?_end (hrest : rest.head? ≠ some '\'') :
    singleQuoted? (fuel + 1) ⟨'\'' :: rest, l, col, i⟩ = some ([], ⟨rest, l, col + 1, i + 1⟩) := by
  rw [singleQuoted?, if_neg (by simp [Cursor.atMarker_of_column_pos, hpos])]
  split
  · rename_i h
    cases h
  · rename_i h
    cases h
    exact absurd rfl hrest
  · rw [Cursor.next_of_inline (by decide)]
  · rename_i h h'
    cases h'
    exact absurd rfl h

theorem singleQuoted?_quote : singleQuoted? (fuel + 1) ⟨'\'' :: '\'' :: rest, l, col, i⟩ =
    (singleQuoted? fuel ⟨rest, l, col + 2, i + 2⟩).map fun p => ('\'' :: p.1, p.2) := by
  rw [singleQuoted?, if_neg (by simp [Cursor.atMarker_of_column_pos, hpos])]
  rfl

theorem singleQuoted?_cons (hq : a ≠ '\'') :
    singleQuoted? (fuel + 1) ⟨a :: rest, l, col, i⟩ =
      if gapFirst [a] then
        (singleQuoted? fuel (Cursor.gap false ⟨a :: rest, l, col, i⟩).2).map fun p =>
          ((Cursor.gap false ⟨a :: rest, l, col, i⟩).1.text ++ p.1, p.2)
      else
        (singleQuoted? fuel (⟨a :: rest, l, col, i⟩ : Cursor).next).map fun p =>
          (a :: p.1, p.2) := by
  rw [singleQuoted?, if_neg (by simp [Cursor.atMarker_of_column_pos, hpos])]
  split
  · rename_i h
    cases h
  · rename_i h
    cases h
    exact absurd rfl hq
  · rename_i h
    cases h
    exact absurd rfl hq
  · rename_i h
    cases h
    rfl

/-- A row of blanks, with another character on the same line behind it. -/
theorem singleQuoted?_spaces (hhead : Printed text) :
    singleQuoted? (fuel + 1)
        ⟨singleBody indent (List.replicate (n + 1) ' ' ++ text) ++ '\'' :: rest, l, col, i⟩ =
      (singleQuoted? fuel ⟨singleBody indent text ++ '\'' :: rest, l, col + (n + 1),
        i + (n + 1)⟩).map fun p => (List.replicate (n + 1) ' ' ++ p.1, p.2) := by
  have hgap := @Cursor.gap_spaces _ l col i (n + 1) (solid_singleBody indent rest hhead)
  rw [singleBody_spaces, List.append_assoc]
  rw [List.replicate_succ, List.cons_append] at hgap ⊢
  rw [singleQuoted?_cons hpos (by decide), if_pos (by decide), hgap]
  rfl

/-- A row of line breaks, which the next line begins behind. -/
theorem singleQuoted?_breaks {b : Char} {bs : List Char}
    (hb : ∀ a ∈ b :: bs, isPrintable a = true ∧ isBreak a = true ∧ a ≠ '\n')
    (hhead : Printed text) :
    singleQuoted? (fuel + 1)
        ⟨singleBody indent (b :: bs ++ text) ++ '\'' :: rest, l, col, i⟩ =
      (singleQuoted? fuel ⟨singleBody indent text ++ '\'' :: rest, l + (bs.length + 1), indent,
        i + (bs.length + 1 + indent)⟩).map fun p => (b :: bs ++ p.1, p.2) := by
  have hseparator := fun a ha =>
    separator_of_isPrintable (hb a ha).1 (hb a ha).2.1 (hb a ha).2.2
  have hgap := @Cursor.gap_breaks _ l col i indent b bs
    (fun a ha => ⟨(hb a ha).2.1, (hseparator a ha).1⟩) (solid_singleBody indent rest hhead)
  rw [List.map_congr_left fun a ha => (hseparator a ha).2, List.map_id'] at hgap
  have htext : Gap.text ⟨[], b :: bs⟩ = b :: bs := by
    have hn := (hb b (List.mem_cons_self ..)).2.2
    unfold Gap.text
    split
    · rename_i h
      cases h
    · rename_i h
      cases h
      exact absurd rfl hn
    · rename_i h
      cases h
      exact absurd rfl hn
    · rfl
  rw [singleBody_breaks (fun a ha => (hb a ha).2.1) fun c hc => (hhead c hc).2.1,
    List.append_assoc, List.append_assoc, List.cons_append]
  rw [List.cons_append] at hgap
  have hq : b ≠ '\'' := by
    rintro rfl
    exact absurd (hb _ (List.mem_cons_self ..)).2.1 (by decide)
  rw [singleQuoted?_cons hpos hq, if_pos (by simp [gapFirst, hb b]), hgap, htext]

theorem singleQuoted?_inline (hp : isPrintable c = true) (hb : isBreak c = false) (hs : c ≠ ' ') :
    ∃ col' i', 0 < col' ∧ singleQuoted? (fuel + 1)
        ⟨singleBody indent (c :: text) ++ '\'' :: rest, l, col, i⟩ =
      (singleQuoted? fuel ⟨singleBody indent text ++ '\'' :: rest, l, col', i'⟩).map fun p =>
        (c :: p.1, p.2) := by
  rw [singleBody_cons hb, escapeQuote]
  by_cases hq : c = '\''
  · subst hq
    exact ⟨_, _, Nat.add_pos_left hpos 2, singleQuoted?_quote hpos⟩
  · rw [if_neg (by simpa using hq)]
    refine ⟨col + 1, i + 1, Nat.add_pos_left hpos 1, ?_⟩
    rw [List.singleton_append, List.cons_append, singleQuoted?_cons hpos hq,
      if_neg (by simp [gapFirst_of_isPrintable hp hb hs]), Cursor.next_of_inline hb]

end Single

/-- What follows the last character of a row. -/
theorem pair_of_row {b : Char} {bs : List Char} (hfits : fitsSingle (b :: bs ++ text) = true) :
    ∀ c ∈ text.head?, isPrintable c = true ∧ ∃ a ∈ b :: bs, ¬(a = ' ' ∧ isBreak c = true) ∧
      ¬(isBreak a = true ∧ c = ' ') := by
  cases text with
  | nil => simp
  | cons c text =>
    rintro _ ⟨⟩
    refine ⟨(fitsSingle_iff.mp hfits).1 c (by simp), ?_⟩
    rw [← List.dropLast_concat_getLast (List.cons_ne_nil b bs), List.append_assoc] at hfits
    exact ⟨_, List.getLast_mem _, pair_of_fitsSingle hfits⟩

theorem printed_behind_spaces (hfits : fitsSingle (List.replicate (n + 1) ' ' ++ text) = true)
    (hhead : text.head? ≠ some ' ') : Printed text := by
  intro c hc
  rw [List.replicate_succ] at hfits
  obtain ⟨hp, a, ha, hpair, -⟩ := pair_of_row hfits c hc
  have hspace : a = ' ' := List.eq_of_mem_replicate (n := n + 1) ha
  exact ⟨hp, Bool.eq_false_iff.mpr fun h => hpair ⟨hspace, h⟩, fun h => hhead (h ▸ hc)⟩

theorem printed_behind_breaks {b : Char} {bs : List Char}
    (hfits : fitsSingle (b :: bs ++ text) = true) (hb : ∀ a ∈ b :: bs, isBreak a = true)
    (hhead : ∀ c ∈ text.head?, isBreak c = false) : Printed text := by
  intro c hc
  obtain ⟨hp, a, ha, -, hpair⟩ := pair_of_row hfits c hc
  exact ⟨hp, hhead c hc, fun h => hpair ⟨hb a ha, h⟩⟩

/-- The text in single quotes is read back. -/
theorem singleQuoted?_body (hind : 0 < indent) (hpos : 0 < col) (hrest : rest.head? ≠ some '\'')
    (hfits : fitsSingle text = true) (hlf : '\n' ∉ text) (hf : text.length < fuel) :
    ∃ l' col' i', l ≤ l' ∧
      singleQuoted? fuel ⟨singleBody indent text ++ '\'' :: rest, l, col, i⟩ =
        some (text, ⟨rest, l', col', i'⟩) := by
  induction fuel generalizing text l col i with
  | zero => exact absurd hf (Nat.not_lt_zero _)
  | succ fuel ih =>
    cases text with
    | nil => exact ⟨l, col + 1, i + 1, Nat.le_refl l, singleQuoted?_end hpos hrest⟩
    | cons c text =>
      have hprintable := (fitsSingle_iff.mp hfits).1
      have hc := hprintable c (List.mem_cons_self ..)
      rw [List.length_cons] at hf
      cases hb : isBreak c with
      | true =>
        obtain ⟨bs, t, rfl, hbs, hhead⟩ := exists_run isBreak text
        rw [List.length_append] at hf
        have hbreaks : ∀ a ∈ c :: bs, isBreak a = true := List.forall_mem_cons.mpr ⟨hb, hbs⟩
        have hrow : ∀ a ∈ c :: bs, isPrintable a = true ∧ isBreak a = true ∧ a ≠ '\n' := by
          intro a ha
          have hmem : a ∈ c :: (bs ++ t) := List.mem_append_left t ha
          exact ⟨hprintable a hmem, hbreaks a ha, fun h => hlf (h ▸ hmem)⟩
        obtain ⟨l', col', i', hl, hread⟩ := ih (l := l + (bs.length + 1))
          (i := i + (bs.length + 1 + indent)) hind (fitsSingle_of_append (w := c :: bs) hfits)
          (fun h => hlf (List.mem_append_right (c :: bs) h)) (by omega)
        refine ⟨l', col', i', by omega, ?_⟩
        rw [← List.cons_append, singleQuoted?_breaks hpos hrow
          (printed_behind_breaks hfits hbreaks hhead), hread]
        rfl
      | false =>
        by_cases hs : c = ' '
        · subst hs
          obtain ⟨n, t, rfl, hhead⟩ := exists_spaces text
          have hrow : fitsSingle (List.replicate (n + 1) ' ' ++ t) = true := hfits
          rw [List.length_append, List.length_replicate] at hf
          obtain ⟨l', col', i', hl, hread⟩ := ih (l := l) (i := i + (n + 1))
            (Nat.add_pos_left hpos (n + 1)) (fitsSingle_of_append hrow)
            (fun h => hlf (List.mem_append_right (List.replicate (n + 1) ' ') h)) (by omega)
          refine ⟨l', col', i', hl, ?_⟩
          rw [← List.cons_append, ← List.replicate_succ,
            singleQuoted?_spaces hpos (printed_behind_spaces hrow hhead), hread]
          rfl
        · obtain ⟨col', i', hcol, hstep⟩ :=
            @singleQuoted?_inline text rest c l col i fuel indent hpos hc hb hs
          obtain ⟨l', col', i', hl, hread⟩ := ih (l := l) (i := i') hcol
            (fitsSingle_of_append (w := [c]) hfits) (fun h => hlf (List.mem_cons_of_mem c h))
            (by omega)
          exact ⟨l', col', i', hl, by rw [hstep, hread]; rfl⟩

/-! Double quotes. -/

theorem isBreak_of_isGraphic (h : isGraphic c = true) : isBreak c = false := by
  rw [Bool.eq_false_iff, Ne, isBreak_iff]
  rintro (rfl | rfl | rfl | rfl | rfl) <;> exact absurd h (by decide)

theorem solid_double (rest : List Char) (hhead : text.head? ≠ some ' ') :
    Solid (text.flatMap escape ++ '"' :: rest) := by
  cases text with
  | nil => exact solid_cons (by decide)
  | cons c text =>
    have hc := escaped_escape c
    rw [List.flatMap_cons]
    generalize escape c = written at hc
    cases hc with
    | asIs hp hb =>
      exact solid_cons (gapFirst_of_isPrintable hp hb fun h => hhead (congrArg some h))
    | code => exact solid_cons (by decide)

theorem flatMap_escape_spaces (n : Nat) : (List.replicate n ' ' ++ text).flatMap escape =
    List.replicate n ' ' ++ text.flatMap escape := by
  induction n with
  | zero => rfl
  | succ n ih =>
    rw [List.replicate_succ, List.cons_append, List.flatMap_cons, ih]
    rfl

section Double

variable (hpos : 0 < col)

include hpos

theorem doubleQuoted?_end :
    doubleQuoted? (fuel + 1) ⟨'"' :: rest, l, col, i⟩ = some ([], ⟨rest, l, col + 1, i + 1⟩) := by
  rw [doubleQuoted?, if_neg (by simp [Cursor.atMarker_of_column_pos, hpos])]
  rfl

theorem doubleQuoted?_cons (hq : a ≠ '"') (hs : a ≠ '\\') :
    doubleQuoted? (fuel + 1) ⟨a :: rest, l, col, i⟩ =
      if gapFirst [a] then
        (doubleQuoted? fuel (Cursor.gap false ⟨a :: rest, l, col, i⟩).2).map fun p =>
          ((Cursor.gap false ⟨a :: rest, l, col, i⟩).1.text ++ p.1, p.2)
      else
        (doubleQuoted? fuel (⟨a :: rest, l, col, i⟩ : Cursor).next).map fun p =>
          (a :: p.1, p.2) := by
  rw [doubleQuoted?, if_neg (by simp [Cursor.atMarker_of_column_pos, hpos])]
  split
  · rename_i h
    cases h
  · rename_i h
    cases h
    exact absurd rfl hq
  · rename_i h
    cases h
    exact absurd rfl hs
  · rename_i h
    cases h
    rfl

/-- A row of blanks, with another character on the same line behind it. -/
theorem doubleQuoted?_spaces (hhead : text.head? ≠ some ' ') : doubleQuoted? (fuel + 1)
      ⟨(List.replicate (n + 1) ' ' ++ text).flatMap escape ++ '"' :: rest, l, col, i⟩ =
    (doubleQuoted? fuel ⟨text.flatMap escape ++ '"' :: rest, l, col + (n + 1),
      i + (n + 1)⟩).map fun p => (List.replicate (n + 1) ' ' ++ p.1, p.2) := by
  have hgap := @Cursor.gap_spaces _ l col i (n + 1) (solid_double rest hhead)
  rw [flatMap_escape_spaces, List.append_assoc]
  rw [List.replicate_succ, List.cons_append] at hgap ⊢
  rw [doubleQuoted?_cons hpos (by decide) (by decide), if_pos (by decide), hgap]
  rfl

/-- A character behind a backslash. -/
theorem doubleQuoted?_code {letter : Char} {digits : List Char}
    (hread : unescape? (letter :: digits ++ rest) = some (c, digits.length + 1))
    (hb : ∀ a ∈ letter :: digits, isBreak a = false) :
    doubleQuoted? (fuel + 1) ⟨'\\' :: letter :: digits ++ rest, l, col, i⟩ =
      (doubleQuoted? fuel ⟨rest, l, col + (digits.length + 2), i + (digits.length + 2)⟩).map
        fun p => (c :: p.1, p.2) := by
  have hskip : (⟨'\\' :: letter :: digits ++ rest, l, col, i⟩ : Cursor).skip
      (digits.length + 1 + 1) = ⟨rest, l, col + (digits.length + 2), i + (digits.length + 2)⟩ :=
    Cursor.skip_append (List.forall_mem_cons.mpr ⟨by decide, hb⟩)
  have hnext : (⟨'\\' :: letter :: digits ++ rest, l, col, i⟩ : Cursor).next.atBreak = false :=
    hb letter (List.mem_cons_self ..)
  rw [doubleQuoted?, if_neg (by simp [Cursor.atMarker_of_column_pos, hpos])]
  split
  · rename_i h
    cases h
  · rename_i h
    cases h
  · rename_i h
    cases h
    rw [if_neg (ne_true_of_eq_false hnext), List.append_eq, hread]
    simp only [Option.bind_eq_bind, Option.bind_some, hskip, Option.map_eq_bind]
    rfl
  · rename_i h h'
    cases h'
    exact absurd rfl h

end Double

/-- The text in double quotes is read back. -/
theorem doubleQuoted?_body (hpos : 0 < col) (hf : text.length < fuel) :
    ∃ col' i', doubleQuoted? fuel ⟨text.flatMap escape ++ '"' :: rest, l, col, i⟩ =
      some (text, ⟨rest, l, col', i'⟩) := by
  induction fuel generalizing text col i with
  | zero => exact absurd hf (Nat.not_lt_zero _)
  | succ fuel ih =>
    cases text with
    | nil => exact ⟨col + 1, i + 1, doubleQuoted?_end hpos⟩
    | cons c text =>
      rw [List.length_cons] at hf
      by_cases hs : c = ' '
      · subst hs
        obtain ⟨n, t, rfl, hhead⟩ := exists_spaces text
        rw [List.length_append, List.length_replicate] at hf
        obtain ⟨col', i', hread⟩ := ih (i := i + (n + 1)) (Nat.add_pos_left hpos (n + 1))
          (show t.length < fuel by omega)
        refine ⟨col', i', ?_⟩
        rw [← List.cons_append, ← List.replicate_succ, doubleQuoted?_spaces hpos hhead, hread]
        rfl
      · have hc := escaped_escape c
        rw [List.flatMap_cons]
        generalize escape c = written at hc
        cases hc with
        | asIs hp hb hquote hslash =>
          obtain ⟨col', i', hread⟩ := ih (i := i + 1)
            (Nat.add_pos_left hpos 1) (show text.length < fuel by omega)
          refine ⟨col', i', ?_⟩
          rw [List.singleton_append, List.cons_append, doubleQuoted?_cons hpos hquote hslash,
            if_neg (by simp [gapFirst_of_isPrintable hp hb hs]), Cursor.next_of_inline hb, hread]
          rfl
        | @code letter digits hcode hgraphic =>
          obtain ⟨col', i', hread⟩ := ih (i := i + (digits.length + 2))
            (Nat.add_pos_left hpos (digits.length + 2)) (show text.length < fuel by omega)
          refine ⟨col', i', ?_⟩
          rw [List.append_assoc, doubleQuoted?_code hpos (hcode _)
            fun a ha => isBreak_of_isGraphic (hgraphic a ha), hread]
          rfl

end SinkTrace.Yaml
