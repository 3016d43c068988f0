import Mathlib.Data.List.TakeWhile
import Mathlib.Data.Nat.Digits.Defs
import SinkTrace.Libraries.Yaml.Format
import SinkTrace.Proofs.Libraries.Yaml.Documents
import SinkTrace.Proofs.Libraries.Yaml.Numbers

/-!
The notation is a faithful format. A text that would stand for something else is put in quotes, so
every value is laid out as a document that stands for it, and for clean values that document is one
of the tidy ones, which are read as they were written.
-/

namespace SinkTrace.Yaml

variable {names : List String} {text : List Char} {n : Nat}

/-! Whatever is read as a natural number is put in quotes. -/

theorem isDigit_of_addDigit? {m : Nat} {c : Char} (h : addDigit? 10 m c = some n) :
    c.isDigit = true := by
  simp only [addDigit?, digit?, Option.bind_eq_bind, Option.bind_eq_some_iff] at h
  obtain ⟨d, hd, h⟩ := h
  have hlt : d < 10 := by
    by_contra hge
    rw [if_neg hge] at h
    cases h
  split at hd
  · rename_i hc
    simpa [Char.isDigit, Char.le_def] using hc
  · split at hd
    · cases hd
      omega
    · split at hd <;> cases hd
      omega

theorem isDigit_of_digits? (h : digits? 10 text = some n) : ∀ c ∈ text, c.isDigit = true := by
  suffices hfold : ∀ m, text.foldlM (addDigit? 10) m = some n → ∀ c ∈ text, c.isDigit = true by
    rw [digits?] at h
    split at h
    · cases h
    · exact hfold 0 h
  clear h
  induction text with
  | nil => exact fun _ _ c hc => absurd hc List.not_mem_nil
  | cons c text ih =>
    intro m h
    rw [List.foldlM_cons, Option.bind_eq_bind, Option.bind_eq_some_iff] at h
    obtain ⟨m', hm', h⟩ := h
    exact List.forall_mem_cons.mpr ⟨isDigit_of_addDigit? hm', ih m' h⟩

theorem inRange_zero (h : n < 10 ^ 200) : inRange n 0 = true := by
  have hlen : (Nat.toDigits 10 n).length ≤ 200 := Nat.toDigits_length 10 n 200 (by decide) h
  have hwidth : (Nat.toDigits 10 n).length < 300 := Nat.lt_of_le_of_lt hlen (by decide)
  simp [inRange, hwidth]

theorem splitExponent_digits (h : ∀ c ∈ text, c.isDigit = true) :
    splitExponent text = (text, none) := by
  have hall : text.dropWhile (fun c => c != 'e' && c != 'E') = [] :=
    List.dropWhile_eq_nil_iff.mpr fun c hc => by
      simp [ne_of_isDigit (h c hc) (show 'e'.isDigit = false from rfl),
        ne_of_isDigit (h c hc) (show 'E'.isDigit = false from rfl)]
  rw [splitExponent, hall]

theorem isDecimal_of_digits? (h : digits? 10 text = some n) (hn : n < 10 ^ 200) :
    isDecimal text = true := by
  have hdigits := isDigit_of_digits? h
  have hpoint : ∀ c ∈ text, (c != '.') = true := fun c hc => by
    simp [ne_of_isDigit (hdigits c hc) (show '.'.isDigit = false from rfl)]
  rw [isDecimal, splitExponent_digits hdigits]
  simp only [List.takeWhile_eq_self_iff.mpr hpoint, List.dropWhile_eq_nil_iff.mpr hpoint,
    List.drop_nil, List.append_nil, h, exponent?, List.length_nil]
  exact inRange_zero hn

theorem isNumberText_of_natOfText? (h : natOfText? text = some n) (hn : n < UInt64.size) :
    isNumberText text = true := by
  have hsign : ∀ rest, text ≠ '-' :: rest := by
    rintro rest rfl
    simp [natOfText?, dropPlus, marked?, digits?, addDigit?, digit?] at h
  have hdrop : dropSign text = dropPlus text := by
    unfold dropSign
    split
    · rfl
    · exact absurd rfl (hsign _)
    · rename_i hplus _
      unfold dropPlus
      split
      · exact absurd rfl (hplus _)
      · rfl
  rw [natOfText?, Option.or_eq_some_iff] at h
  rw [isNumberText]
  rcases h with h | ⟨-, h⟩
  · have hmarked : isMarked text = true := by
      unfold isMarked
      split
      · exact absurd rfl (hsign _)
      · rw [h]
        exact decide_eq_true (Nat.lt_trans hn (by decide))
    simp [hmarked]
  · split at h
    · cases h
    · simp [hdrop, isDecimal_of_digits? h (Nat.lt_trans hn (by decide))]

/-! What is laid out stands for the value. -/

theorem document_ofString (s : String) : (ofString s).document = .ofText s := by
  rw [ofString, ofText]
  split
  · rename_i h
    have htyped := (isPlain_iff.mp h).1
    simp only [isTyped, Bool.or_eq_false_iff, Option.isSome_eq_false_iff,
      Option.isNone_iff_eq_none] at htyped
    obtain ⟨⟨⟨hnull, hbool⟩, -⟩, hnumber⟩ := htyped
    have hnat : (natOfText? s.toList).filter (· < UInt64.size) = none := by
      rw [Option.filter_eq_none_iff]
      intro n hn hlt
      rw [isNumberText_of_natOfText? hn (by simpa using hlt)] at hnumber
      cases hnumber
    simp only [document, scalarValue, Document.ofText, hnull, hbool, hnat, String.ofList_toList,
      Bool.and_false, reduceCtorEq, if_false]
  · simp [document, scalarValue, Document.ofText]

theorem document_ofValue {v : Value} (h : v.Clean names) : (ofValue v).document = v.document := by
  induction h with
  | null => rfl
  | text => exact document_ofString _
  | @nat n hn =>
    have hnull := isNullText_digits Nat.toDigits_ne_nil (isDigit_toDigits n)
    have hbool := boolOfText?_digits Nat.toDigits_ne_nil (isDigit_toDigits n)
    have hnat : (natOfText? (Nat.toDigits 10 n)).filter (· < UInt64.size) = some n := by
      rw [natOfText?_toDigits]
      exact Option.filter_some_pos (decide_eq_true hn)
    simp [ofValue, document, Value.document, scalarValue, hnull, hbool, hnat,
      Nat.toString_eq_repr, Nat.repr]
  | bool b => cases b <;> rfl
  | @texts ss _ =>
    simp [ofValue, document, Value.document, documents_eq_map, Function.comp_def,
      document_ofString]
  | @record fields _ _ _ _ ih =>
    rw [ofValue, document, Value.document, entries_eq_map, fields_eq_map, Value.documents_eq_map,
      List.map_map]
    refine congrArg Document.record (List.map_congr_left fun e he => ?_)
    simp [ih e he]

/-! What is laid out is read as it was. -/

theorem isWord_ofString {s : String} (hs : IsClean s) : IsWord (ofString s) := by
  have hlf : '\n' ∉ s.toList := fun h => absurd (hs _ h) (by decide)
  rw [ofString, ofText]
  split
  · rename_i h
    obtain ⟨-, -, hstart, hcontinue⟩ := isPlain_iff.mp h
    exact ⟨_, _, rfl, .plain hstart hcontinue⟩
  · exact ⟨_, _, rfl, .quoted hlf⟩

theorem tidy_ofValue {v : Value} (hkeys : ∀ name ∈ names, IsKey name.toList)
    (h : v.Clean names) : Tidy (ofValue v) := by
  induction h with
  | null => exact .scalar (.plain (by decide) (by decide))
  | text hs =>
    obtain ⟨form, text, he, hw⟩ := isWord_ofString hs
    rw [ofValue, he]
    exact .scalar hw
  | @nat n _ =>
    have hdigits := isDigit_toDigits n
    exact .scalar (.plain (startsPlain_digits Nat.toDigits_ne_nil hdigits)
      (continuesPlain_digits Nat.toDigits_ne_nil hdigits))
  | bool b => cases b <;> exact .scalar (.plain (by decide) (by decide))
  | texts hs =>
    refine .items fun y hy => ?_
    obtain ⟨s, hmem, rfl⟩ := List.mem_map.mp hy
    exact isWord_ofString (hs s hmem)
  | @record fields hne hnames _ _ ih =>
    rw [ofValue, entries_eq_map]
    refine .entries (by simpa using hne) ?_ ?_
    · intro e he
      obtain ⟨field, hfield, rfl⟩ := List.mem_map.mp he
      exact hkeys _ (hnames field hfield)
    · intro e he
      obtain ⟨field, hfield, rfl⟩ := List.mem_map.mp he
      exact ih field hfield

/-- The names of the fields are texts that need no quotes as keys. -/
theorem faithful_format (hkeys : ∀ name ∈ names, IsKey name.toList) : format.Faithful names := by
  intro fields h
  have htidy := tidy_ofValue hkeys h
  rw [ofValue] at htidy
  change (ofString? (ofValue (.record fields)).render).map document = _
  rw [ofValue, htidy.ofString?_render, Option.map_some, ← document_ofValue h, ofValue]

end SinkTrace.Yaml
