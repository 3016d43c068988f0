import SinkTrace.Proofs.Libraries.Yaml.Gaps
import SinkTrace.Libraries.Yaml.Printer

/-!
Scalars are read as the texts that they were written for: without quotes if the text allows it, in
single quotes if it holds no line feed and needs no escape, and in double quotes always.
-/

namespace SinkTrace.Yaml

variable {before : Char} {text after rest : List Char} {l col i n indent : Nat}

/-! Without quotes. -/

theorem continuesPlain_cons {c : Char} : continuesPlain before (c :: text) = true ↔
    isPrintable c = true ∧ isBreak c = false ∧ ¬(c = ':' ∧ gapFirst text = true) ∧
      ¬(c = '#' ∧ before = ' ') ∧ continuesPlain c text = true := by
  simp only [continuesPlain, Bool.and_eq_true, Bool.not_eq_true', Bool.and_eq_false_iff,
    beq_eq_false_iff_ne, and_assoc, Decidable.not_and_iff_or_not, Bool.not_eq_true]

theorem ne_nil_of_continues (hc : continuesPlain ' ' text = true) : text ≠ [] := by
  rintro rfl
  exact absurd hc (by decide)

theorem isPlain_iff : isPlain text = true ↔ isTyped text = false ∧ startsMarker text = false ∧
    startsPlain false text = true ∧ continuesPlain ' ' text = true := by
  simp [isPlain, and_assoc]

theorem startsPlain_ne_space {c : Char} (hs : startsPlain false (c :: text) = true) : c ≠ ' ' := by
  rintro rfl
  exact absurd hs (by simp [startsPlain, gapFirst, isBlank])

/-- Inside of a text without quotes only blanks end a word. -/
theorem endsPlain_of_continues {c : Char} (hc : continuesPlain before (c :: text) = true)
    (hs : c ≠ ' ') (after : List Char) : endsPlain false c (text ++ after) = false := by
  obtain ⟨hp, hb, hcolon, -, -⟩ := continuesPlain_cons.mp hc
  have hcolon' : ¬(c = ':' ∧ gapFirst (text ++ after) = true) := by
    cases text with
    | nil => exact fun h => hcolon ⟨h.1, rfl⟩
    | cons d text => exact hcolon
  rw [endsPlain, gapFirst_of_isPrintable hp hb hs]
  simpa using hcolon'

theorem takeWord?_cons (c : Char) (rest : List Char) : takeWord? false (c :: rest) =
    if endsPlain false c rest then some [] else (takeWord? false rest).map (c :: ·) := by
  rw [takeWord?, if_neg (by simp [isDoubtful])]

theorem takeWord?_word {w : List Char} (hc : continuesPlain before (w ++ text) = true)
    (hw : ∀ a ∈ w, a ≠ ' ') (hend : takeWord? false (text ++ after) = some []) :
    takeWord? false (w ++ text ++ after) = some w := by
  induction w generalizing before with
  | nil => exact hend
  | cons c w ih =>
    have hends : endsPlain false c (w ++ text ++ after) = false :=
      endsPlain_of_continues hc (hw c (List.mem_cons_self ..)) after
    rw [List.cons_append, List.cons_append, takeWord?_cons, if_neg (ne_true_of_eq_false hends),
      ih (continuesPlain_cons.mp hc).2.2.2.2 fun a ha => hw a (List.mem_cons_of_mem c ha),
      Option.map_some]

theorem continues_of_spaces (hc : continuesPlain ' ' (List.replicate n ' ' ++ text) = true) :
    continuesPlain ' ' text = true := by
  induction n with
  | zero => exact hc
  | succ n ih => exact ih (continuesPlain_cons.mp hc).2.2.2.2

/-- A text without quotes is one word, or a word, blanks and such a text again. -/
theorem exists_words (hc : continuesPlain before text = true) :
    ∃ w tail, text = w ++ tail ∧ (∀ a ∈ w, a ≠ ' ') ∧ (tail = [] ∨
      ∃ n t, tail = List.replicate (n + 1) ' ' ++ t ∧ continuesPlain ' ' t = true ∧
        t.head? ≠ some ' ') := by
  induction text generalizing before with
  | nil => exact ⟨[], [], rfl, by simp, .inl rfl⟩
  | cons c text ih =>
    have hrest := (continuesPlain_cons.mp hc).2.2.2.2
    by_cases hs : c = ' '
    · subst hs
      obtain ⟨n, t, rfl, hhead⟩ := exists_spaces text
      exact ⟨[], _, rfl, by simp, .inr ⟨n, t, rfl, continues_of_spaces hrest, hhead⟩⟩
    · obtain ⟨w, tail, rfl, hw, htail⟩ := ih hrest
      exact ⟨c :: w, tail, rfl, List.forall_mem_cons.mpr ⟨hs, hw⟩, htail⟩

theorem inline_of_continues (hc : continuesPlain before text = true) :
    ∀ a ∈ text, isPrintable a = true ∧ isBreak a = false := by
  induction text generalizing before with
  | nil => simp
  | cons c text ih =>
    obtain ⟨hp, hb, -, -, hrest⟩ := continuesPlain_cons.mp hc
    exact List.forall_mem_cons.mpr ⟨⟨hp, hb⟩, ih hrest⟩

/-- Behind a scalar without quotes no word follows that would be part of it. It is left at `stop`,
and `ended` says whether that is on a new line. -/
structure PlainEnd (indent l : Nat) (after : List Char) (ended : Bool)
    (stop : Nat → Nat → Cursor) : Prop where
  word : takeWord? false after = some []
  gap : ∀ {col i fuel}, after.length ≤ fuel → ∃ g,
    Cursor.gap? indent false fuel {} ⟨after, l, col, i⟩ = some (g, stop col i) ∧
      (!g.breaks.isEmpty) = ended
  done : ∀ {col i fuel gap}, plainWords? false indent (fuel + 1) gap (stop col i) =
    some ([], !gap.breaks.isEmpty, stop col i)

variable {ended : Bool} {stop : Nat → Nat → Cursor}

/-- The colon of a key. -/
theorem plainEnd_colon (hrest : gapFirst rest = true) :
    PlainEnd indent l (':' :: rest) false fun col i => ⟨':' :: rest, l, col, i⟩ where
  word := by rw [takeWord?_cons, if_pos (by simp [endsPlain, hrest])]
  gap _ := ⟨{}, Cursor.gap?_solid (solid_cons (by decide)) false, rfl⟩
  done {_ _ _ _} := by
    unfold plainWords?
    simp only
    split
    · rfl
    · rw [takeWord?_cons, if_pos (by simp [endsPlain, hrest])]
      rfl

/-- The end of the line, with a line behind it that is not indented further than the surroundings
of the scalar. -/
theorem plainEnd_line (hn : n < indent) (hs : Solid rest) :
    PlainEnd indent l ('\n' :: (List.replicate n ' ' ++ rest)) true
      fun _ i => ⟨rest, l + 1, n, i + (1 + n)⟩ where
  word := by rw [takeWord?_cons, if_pos (by simp [endsPlain, gapFirst, isBreak])]
  gap hf := ⟨_, Cursor.gap?_breaks
    (List.forall_mem_singleton.mpr (show isBreak '\n' = true ∧ '\n' ≠ '\r' by decide)) hs
    (by simp at hf ⊢; omega) false, rfl⟩
  done {_ _ _ _} := by
    unfold plainWords?
    exact if_pos (by simp [hn])

/-- The first word of a text without quotes, and what follows it. -/
theorem exists_takeWord? (col i : Nat) (he : PlainEnd indent l after ended stop)
    (hc : continuesPlain before text = true) (hne : text ≠ []) (hhead : text.head? ≠ some ' ') :
    ∃ w, w ≠ [] ∧ takeWord? false (text ++ after) = some w ∧ ∀ fuel,
      (text ++ after).length ≤ fuel → ∃ g c,
        Cursor.gap? indent false fuel {}
          ((⟨text ++ after, l, col, i⟩ : Cursor).skip w.length) = some (g, c) ∧
        (w = text ∧ c = stop (col + text.length) (i + text.length) ∧ (!g.breaks.isEmpty) = ended ∨
          ∃ n t, text = w ++ (List.replicate (n + 1) ' ' ++ t) ∧ continuesPlain ' ' t = true ∧
            t.head? ≠ some ' ' ∧ g = ⟨List.replicate (n + 1) ' ', []⟩ ∧
            c = ⟨t ++ after, l, col + w.length + (n + 1), i + w.length + (n + 1)⟩) := by
  obtain ⟨w, tail, rfl, hw, htail⟩ := exists_words hc
  have hskip : (⟨w ++ tail ++ after, l, col, i⟩ : Cursor).skip w.length =
      ⟨tail ++ after, l, col + w.length, i + w.length⟩ := by
    rw [List.append_assoc, Cursor.skip_append fun a ha =>
      (inline_of_continues hc a (List.mem_append_left tail ha)).2]
  have hwne : w ≠ [] := by
    rintro rfl
    rcases htail with rfl | ⟨n, t, rfl, -, -⟩
    · exact hne rfl
    · exact hhead rfl
  rcases htail with rfl | ⟨n, t, rfl, ht, hthead⟩
  · refine ⟨w, hwne, takeWord?_word hc hw he.word, fun fuel hf => ?_⟩
    obtain ⟨g, hg, hended⟩ := he.gap (Nat.le_trans (by simp) hf)
    refine ⟨g, _, ?_, .inl ⟨(List.append_nil w).symm, rfl, hended⟩⟩
    rw [hskip, List.nil_append, List.append_nil]
    exact hg
  · refine ⟨w, hwne, takeWord?_word hc hw ?_, fun fuel hf => ?_⟩
    · rw [List.replicate_succ, List.cons_append, List.cons_append, takeWord?_cons,
        if_pos (by simp [endsPlain, gapFirst, isBlank])]
    · refine ⟨_, _, ?_, .inr ⟨n, t, rfl, ht, hthead, rfl, rfl⟩⟩
      have hsolid : Solid (t ++ after) := by
        cases t with
        | nil => exact absurd ht (by decide)
        | cons c t =>
          obtain ⟨hp, hb, -⟩ := continuesPlain_cons.mp ht
          exact solid_cons (gapFirst_of_isPrintable hp hb fun h => hthead (congrArg some h))
      rw [hskip, List.append_assoc, Cursor.gap?_spaces hsolid
        (by simp only [List.length_append, List.length_replicate] at hf; omega)]
      rfl

theorem plainWords?_text (he : PlainEnd indent l after ended stop) {fuel : Nat} {gap : Gap}
    (hc : continuesPlain ' ' text = true) (hhead : text.head? ≠ some ' ')
    (hf : text.length < fuel) (hcol : indent ≤ col) (hpos : 0 < col) :
    plainWords? false indent fuel gap ⟨text ++ after, l, col, i⟩ =
      some (gap.text ++ text, ended, stop (col + text.length) (i + text.length)) := by
  induction fuel generalizing text col i gap with
  | zero => exact absurd hf (Nat.not_lt_zero _)
  | succ fuel ih =>
    have hne := ne_nil_of_continues hc
    have hcomment : (text ++ after).head? ≠ some '#' := by
      cases text with
      | nil => exact absurd rfl hne
      | cons c text =>
        rintro ⟨⟩
        exact (continuesPlain_cons.mp hc).2.2.2.1 ⟨rfl, rfl⟩
    obtain ⟨w, hwne, hword, hgap⟩ := exists_takeWord? col i he hc hne hhead
    obtain ⟨g, c, hg, hcase⟩ := hgap _ (Nat.le_refl _)
    have hempty : w.isEmpty = false := List.isEmpty_eq_false_iff.mpr hwne
    rw [plainWords?, if_neg (by
      simpa [Cursor.atMarker_of_column_pos, Cursor.peek?, hpos, hcol] using hcomment)]
    simp only [hword, hempty, hg, Option.bind_eq_bind, Option.bind_some, Bool.false_eq_true,
      ↓reduceIte]
    rcases hcase with ⟨rfl, rfl, hended⟩ | ⟨n, t, rfl, ht, hthead, rfl, rfl⟩
    · obtain ⟨fuel, rfl⟩ : ∃ m, fuel = m + 1 := ⟨fuel - 1, by
        have := List.length_pos_iff.mpr hne
        omega⟩
      rw [he.done, hended]
      simp
    · have hlt : t.length < fuel := by
        simp only [List.length_append, List.length_replicate] at hf
        omega
      rw [ih ht hthead hlt (by omega) (by omega)]
      simp [Gap.text, Nat.add_assoc]

/-- A text without quotes is read as it stands. -/
theorem plain?_text (col i : Nat) (he : PlainEnd indent l after ended stop)
    (hs : startsPlain false text = true) (hc : continuesPlain ' ' text = true)
    (hcol : indent ≤ col + 1) :
    plain? false indent ⟨text ++ after, l, col, i⟩ =
      some (text, ended, stop (col + text.length) (i + text.length)) := by
  have hne := ne_nil_of_continues hc
  have hhead : text.head? ≠ some ' ' := by
    cases text with
    | nil => exact absurd rfl hne
    | cons c text => simpa using startsPlain_ne_space hs
  obtain ⟨w, hwne, hword, hgap⟩ := exists_takeWord? col i he hc hne hhead
  obtain ⟨g, c, hg, hcase⟩ := hgap _ (Nat.le_refl _)
  rw [plain?]
  simp only [hword, hg, Option.bind_eq_bind, Option.bind_some]
  rcases hcase with ⟨rfl, rfl, hended⟩ | ⟨n, t, rfl, ht, hthead, rfl, rfl⟩
  · rw [he.done, hended]
    simp
  · have hlt : t.length < (t ++ after).length + 1 := by
      rw [List.length_append]
      omega
    have hlong := List.length_pos_iff.mpr hwne
    rw [plainWords?_text he ht hthead hlt (by omega) (by omega)]
    simp [Gap.text, Nat.add_assoc]

end SinkTrace.Yaml
