import SinkTrace.Proofs.Libraries.Yaml.Plain

/-!
Natural numbers are read as they are written: the digits stand for the number, no zero is in front
of them that makes them a text, and they need no quotes.
-/

namespace SinkTrace.Yaml

variable {text : List Char} {c : Char}

theorem addDigit?_digitChar (n : Nat) {d : Nat} (hd : d < 10) :
    addDigit? 10 n d.digitChar = some (n * 10 + d) := by
  have hdigit : ∀ d < 10, digit? d.digitChar = some d := by decide
  simp [addDigit?, hdigit d hd, hd]

theorem foldlM_toDigits (n : Nat) : (Nat.toDigits 10 n).foldlM (addDigit? 10) 0 = some n := by
  induction n using Nat.strongRecOn with
  | ind n ih =>
    by_cases hn : n < 10
    · rw [Nat.toDigits_of_lt_base hn, List.foldlM_cons, addDigit?_digitChar 0 hn]
      simp
    · have hd : n % 10 < 10 := Nat.mod_lt n (by decide)
      rw [Nat.toDigits_of_base_le (by decide) (Nat.le_of_not_lt hn), List.foldlM_append,
        ih (n / 10) (by omega), Option.bind_eq_bind, Option.bind_some, List.foldlM_cons,
        addDigit?_digitChar _ hd]
      simp only [Option.bind_eq_bind, Option.bind_some, List.foldlM_nil, Option.pure_def,
        Option.some.injEq]
      omega

/-- No number but zero starts with zero. -/
theorem head?_toDigits {n : Nat} (hn : 0 < n) : (Nat.toDigits 10 n).head? ≠ some '0' := by
  induction n using Nat.strongRecOn with
  | ind n ih =>
    by_cases hlt : n < 10
    · have hdigit : ∀ d < 10, 0 < d → d.digitChar ≠ '0' := by decide
      rw [Nat.toDigits_of_lt_base hlt]
      simpa using hdigit n hlt hn
    · have hhead := ih (n / 10) (by omega) (by omega)
      obtain ⟨c, text, htext⟩ := List.exists_cons_of_ne_nil (@Nat.toDigits_ne_nil (n / 10) 10)
      rw [Nat.toDigits_of_base_le (by decide) (Nat.le_of_not_lt hlt), htext]
      rwa [htext] at hhead

/-- A digit is neither a sign nor the mark of a base. -/
theorem ne_of_isDigit (hc : c.isDigit = true) {d : Char} (hd : d.isDigit = false) : c ≠ d := by
  rintro rfl
  rw [hc] at hd
  cases hd

theorem ne_of_marks {marks : List Char} (hc : c.isDigit = true)
    (hmarks : marks.all (!Char.isDigit ·) = true) : ∀ a ∈ marks, c ≠ a :=
  fun a ha => ne_of_isDigit hc (by simpa using List.all_eq_true.mp hmarks a ha)

theorem marked?_digits (h : ∀ c ∈ text, c.isDigit = true) : marked? text = none := by
  unfold marked?
  split
  · exact absurd rfl (ne_of_isDigit (h 'x' (by simp)) rfl)
  · exact absurd rfl (ne_of_isDigit (h 'o' (by simp)) rfl)
  · exact absurd rfl (ne_of_isDigit (h 'b' (by simp)) rfl)
  · rfl

theorem dropPlus_digits (h : ∀ c ∈ text, c.isDigit = true) : dropPlus text = text := by
  unfold dropPlus
  split
  · exact absurd rfl (ne_of_isDigit (h '+' (by simp)) rfl)
  · rfl

theorem dropSign_digits (h : ∀ c ∈ text, c.isDigit = true) : dropSign text = text := by
  unfold dropSign
  split
  · exact absurd rfl (ne_of_isDigit (h '+' (by simp)) rfl)
  · exact absurd rfl (ne_of_isDigit (h '-' (by simp)) rfl)
  · rfl

theorem isDigit_toDigits (n : Nat) : ∀ c ∈ Nat.toDigits 10 n, c.isDigit = true :=
  fun _ hc => Nat.isDigit_of_mem_toDigits (by decide) (by decide) hc

theorem natOfText?_toDigits (n : Nat) : natOfText? (Nat.toDigits 10 n) = some n := by
  have hdigits := isDigit_toDigits n
  have hpadded : isPadded (Nat.toDigits 10 n) = false := by
    rw [isPadded, dropSign_digits hdigits]
    rcases Nat.eq_zero_or_pos n with rfl | hn
    · rfl
    · split
      · rename_i htext
        exact absurd (congrArg List.head? htext) (head?_toDigits hn)
      · rfl
  rw [natOfText?, dropPlus_digits hdigits, marked?_digits hdigits, hpadded, Option.none_or,
    if_neg Bool.false_ne_true, digits?, if_neg (by simp [Nat.toDigits_ne_nil]), foldlM_toDigits]

/-! Without quotes. -/

theorem isPrintable_of_isDigit (hc : c.isDigit = true) : isPrintable c = true := by
  have hrange : 48 ≤ c.toNat ∧ c.toNat ≤ 57 := by
    simpa [Char.isDigit, UInt32.le_iff_toNat_le] using hc
  simp only [isPrintable, Bool.or_eq_true, Bool.and_eq_true, beq_iff_eq, bne_iff_ne,
    decide_eq_true_eq]
  omega

theorem continuesPlain_digits {before : Char} (hne : text ≠ []) (h : ∀ c ∈ text, c.isDigit = true) :
    continuesPlain before text = true := by
  induction text generalizing before with
  | nil => exact absurd rfl hne
  | cons c text ih =>
    have hc := h c (List.mem_cons_self ..)
    have hb : isBreak c = false := by
      rw [Bool.eq_false_iff, Ne, isBreak_iff]
      rintro (rfl | rfl | rfl | rfl | rfl) <;> cases hc
    refine continuesPlain_cons.mpr ⟨isPrintable_of_isDigit hc, hb,
      fun h => ne_of_isDigit hc rfl h.1, fun h => ne_of_isDigit hc rfl h.1, ?_⟩
    cases text with
    | nil => simpa [continuesPlain] using ne_of_isDigit hc rfl
    | cons d text => exact ih (List.cons_ne_nil d text) fun a ha => h a (List.mem_cons_of_mem c ha)

theorem startsPlain_digits (hne : text ≠ []) (h : ∀ c ∈ text, c.isDigit = true) :
    startsPlain false text = true := by
  obtain ⟨c, text, rfl⟩ := List.exists_cons_of_ne_nil hne
  have hmarks : "-?: \t\n\r\x85\u2028\u2029,[]\x7b\x7d#&*!|>'\"%@\x60".toList.all
      (!Char.isDigit ·) = true := by decide
  have hnot := ne_of_marks (h c (List.mem_cons_self ..)) hmarks
  simp at hnot
  simp [startsPlain, gapFirst, isBlank, isBreak, isIndicator, isBracketMark, hnot]

theorem isNullText_digits (hne : text ≠ []) (h : ∀ c ∈ text, c.isDigit = true) :
    isNullText text = false := by
  obtain ⟨c, text, rfl⟩ := List.exists_cons_of_ne_nil hne
  have hmarks : "~nN".toList.all (!Char.isDigit ·) = true := by decide
  have hnot := fun a ha => Ne.symm (ne_of_marks (h c (List.mem_cons_self ..)) hmarks a ha)
  simp at hnot
  simp [isNullText, hnot]

theorem boolOfText?_digits (hne : text ≠ []) (h : ∀ c ∈ text, c.isDigit = true) :
    boolOfText? text = none := by
  obtain ⟨c, text, rfl⟩ := List.exists_cons_of_ne_nil hne
  have hmarks : "tTfF".toList.all (!Char.isDigit ·) = true := by decide
  have hnot := fun a ha => Ne.symm (ne_of_marks (h c (List.mem_cons_self ..)) hmarks a ha)
  simp at hnot
  simp [boolOfText?, hnot]

end SinkTrace.Yaml
