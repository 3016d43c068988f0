import SinkTrace.Proofs.Libraries.Yaml.Plain
import SinkTrace.Proofs.Libraries.Yaml.Quotes

/-!
Documents that are written on lines of which each says what it holds: mappings of scalars, lists of
scalars and mappings again. Nothing is written that a document may not hold.
-/

namespace SinkTrace.Yaml

/-- A scalar that is read as it is written: without quotes if the text allows it, and in quotes if
it holds no line feed. -/
inductive Word : ScalarForm → List Char → Prop where
  | plain {text : List Char} (hs : startsPlain false text = true)
      (hc : continuesPlain ' ' text = true) : Word .plain text
  | quoted {text : List Char} (hlf : '\n' ∉ text) : Word .quoted text

def IsWord (y : Yaml) : Prop := ∃ form text, y = .scalar form text ∧ Word form text

/-- A key without quotes that is not too long for its colon to be looked for. -/
def IsKey (key : List Char) : Prop := isPlain key = true ∧ key.length ≤ 1024

instance (key : List Char) : Decidable (IsKey key) := inferInstanceAs (Decidable (_ ∧ _))

/-- A mapping, or what may stand behind a key in it. -/
inductive Tidy : Yaml → Prop where
  | scalar {form : ScalarForm} {text : List Char} (hw : Word form text) : Tidy (.scalar form text)
  | items {items : List Yaml} (hw : ∀ y ∈ items, IsWord y) : Tidy (.seq items)
  | entries {entries : List (List Char × Yaml)} (hne : entries ≠ [])
      (hkeys : ∀ e ∈ entries, IsKey e.1) (hvalues : ∀ e ∈ entries, Tidy e.2) :
      Tidy (.map entries)

/-! Lines. -/

/-- What is written behind a key at this column. -/
def behindKey (indent : Nat) (y : Yaml) : List Char :=
  match y.inline? (indent + 2) with
  | some text => ' ' :: endLine text
  | none => '\n' :: writeBelow indent y

theorem endLine_eq {text : List Char} (hb : ∀ c ∈ text.getLast?, isBreak c = false) :
    endLine text = text ++ ['\n'] := by
  rw [endLine, if_neg]
  cases hlast : text.getLast? with
  | none => simp
  | some c => simp [hb c hlast]

theorem endLine_append {w text : List Char} (hw : ∀ c ∈ w, isBreak c = false) :
    endLine (w ++ text) = w ++ endLine text := by
  cases text with
  | nil =>
    rw [List.append_nil, endLine_eq fun c hc => hw c (List.mem_of_getLast? hc)]
    rfl
  | cons c text =>
    rw [endLine, endLine, List.getLast?_append, List.getLast?_cons, Option.some_or]
    split
    · rfl
    · rw [List.append_assoc]

theorem endLine_scalarText {form : ScalarForm} {text : List Char} (hw : Word form text)
    (indent : Nat) :
    endLine (scalarText indent form text) = scalarText indent form text ++ ['\n'] := by
  refine endLine_eq fun c hc => ?_
  cases hw with
  | plain hs hcont => exact (inline_of_continues hcont c (List.mem_of_getLast? hc)).2
  | quoted hlf =>
    rw [scalarText, quote, if_neg (by simpa using hlf)] at hc
    split at hc
    · rw [single_eq, ← List.cons_append, List.getLast?_concat] at hc
      cases hc
      decide
    · rw [double, List.getLast?_concat] at hc
      cases hc
      decide

theorem writeEntry_eq {key : List Char} {y : Yaml} (hkey : isPlain key = true) (indent : Nat) :
    writeEntry indent (key, y) =
      List.replicate indent ' ' ++ (key ++ ':' :: behindKey indent y) := by
  have hinline : ∀ c ∈ key ++ [':'], isBreak c = false := by
    intro c hc
    rcases List.mem_append.mp hc with hc | hc
    · exact (inline_of_continues (isPlain_iff.mp hkey).2.2.2 c hc).2
    · rw [List.mem_singleton.mp hc]
      decide
  rw [writeEntry, behindKey, keyText, if_pos hkey]
  cases y.inline? (indent + 2) with
  | some text =>
    have hspace : endLine (' ' :: text) = ' ' :: endLine text :=
      endLine_append (List.forall_mem_singleton.mpr rfl)
    simp only [line]
    rw [endLine_append hinline, hspace]
    simp
  | none =>
    simp only [line]
    rw [endLine_eq fun c hc => hinline c (List.mem_of_getLast? hc)]
    simp

theorem writeItems_scalar {form : ScalarForm} {text : List Char} (hw : Word form text)
    (indent : Nat) (items : List Yaml) : writeItems indent (.scalar form text :: items) =
      List.replicate indent ' ' ++ '-' :: ' ' :: (scalarText (indent + 2) form text ++
        '\n' :: writeItems indent items) := by
  rw [writeItems, write, line, endLine_scalarText hw, List.drop_left' (by simp)]
  simp

theorem behindKey_map {entries : List (List Char × Yaml)} (hne : entries ≠ []) (indent : Nat) :
    behindKey indent (.map entries) = '\n' :: writeEntries (indent + 2) entries := by
  cases entries with
  | nil => exact absurd rfl hne
  | cons e entries => simp [behindKey, inline?, writeBelow]

theorem write_map {entries : List (List Char × Yaml)} (hne : entries ≠ []) (indent : Nat) :
    (Yaml.map entries).write indent = writeEntries indent entries := by
  cases entries with
  | nil => exact absurd rfl hne
  | cons e entries => rw [write]

/-! Characters. -/

/-- Characters that a document may hold. -/
def Readable (text : List Char) : Prop := ∀ c ∈ text, isReadable c = true

section Characters

variable {text text' key : List Char} {c : Char} {form : ScalarForm} {indent n : Nat} {y : Yaml}
  {items : List Yaml} {entries : List (List Char × Yaml)}

theorem readable_append : Readable (text ++ text') ↔ Readable text ∧ Readable text' :=
  List.forall_mem_append

theorem readable_cons : Readable (c :: text) ↔ isReadable c = true ∧ Readable text :=
  List.forall_mem_cons

theorem readable_nil : Readable [] := fun _ hc => absurd hc List.not_mem_nil

theorem readable_spaces (n : Nat) : Readable (List.replicate n ' ') := fun c hc => by
  rw [List.eq_of_mem_replicate hc]
  decide

theorem isReadable_of_isPrintable (h : isPrintable c = true) : isReadable c = true := by
  simp only [isPrintable, isReadable, Bool.or_eq_true, Bool.and_eq_true, beq_iff_eq, bne_iff_ne,
    decide_eq_true_eq] at h ⊢
  omega

theorem isReadable_of_isGraphic (h : isGraphic c = true) : isReadable c = true := by
  simp only [isGraphic, isReadable, Bool.or_eq_true, Bool.and_eq_true, beq_iff_eq, bne_iff_ne,
    decide_eq_true_eq] at h ⊢
  omega

theorem readable_continues {before : Char} (hc : continuesPlain before text = true) :
    Readable text := fun c h => isReadable_of_isPrintable (inline_of_continues hc c h).1

theorem readable_indented {fresh : Bool} (h : Readable text) :
    Readable (indented indent fresh text) := by
  induction text generalizing fresh with
  | nil => exact readable_nil
  | cons c text ih =>
    obtain ⟨hc, htext⟩ := readable_cons.mp h
    rw [indented]
    split
    · exact readable_cons.mpr ⟨hc, ih htext⟩
    · exact readable_append.mpr ⟨readable_spaces _, readable_cons.mpr ⟨hc, ih htext⟩⟩

theorem readable_flatMap {f : Char → List Char} (h : ∀ c ∈ text, Readable (f c)) :
    Readable (text.flatMap f) := fun c hc => by
  obtain ⟨d, hd, hmem⟩ := List.mem_flatMap.mp hc
  exact h d hd c hmem

theorem readable_single (h : ∀ c ∈ text, isPrintable c = true) : Readable (single indent text) := by
  have hescape : Readable (escapeSingle text) := readable_flatMap fun c hc => by
    split
    · exact readable_cons.mpr ⟨by decide, readable_cons.mpr ⟨by decide, readable_nil⟩⟩
    · exact readable_cons.mpr ⟨isReadable_of_isPrintable (h c hc), readable_nil⟩
  have hlast : Readable
      (if text.getLast?.any isBreak then List.replicate indent ' ' else []) := by
    split
    · exact readable_spaces indent
    · exact readable_nil
  simp only [single, readable_append, readable_cons]
  exact ⟨⟨⟨by decide, readable_indented hescape⟩, hlast⟩, by decide, readable_nil⟩

theorem readable_double : Readable (double text) := by
  have hescape : Readable (text.flatMap escape) := readable_flatMap fun c _ => by
    have hc := escaped_escape c
    generalize escape c = written at hc
    cases hc with
    | asIs hp => exact readable_cons.mpr ⟨isReadable_of_isPrintable hp, readable_nil⟩
    | code _ hgraphic =>
      exact readable_cons.mpr ⟨by decide, fun a ha => isReadable_of_isGraphic (hgraphic a ha)⟩
  simp only [double, readable_append, readable_cons]
  exact ⟨⟨by decide, hescape⟩, by decide, readable_nil⟩

theorem Word.readable (hw : Word form text) (indent : Nat) :
    Readable (scalarText indent form text) := by
  cases hw with
  | plain hs hc => exact readable_continues hc
  | quoted hlf =>
    rw [scalarText, quote, if_neg (by simpa using hlf)]
    split
    · rename_i hfits
      exact readable_single (fitsSingle_iff.mp hfits).1
    · exact readable_double

theorem readable_items (hw : ∀ y ∈ items, IsWord y) :
    Readable (writeItems indent items) := by
  induction items with
  | nil => exact readable_nil
  | cons y items ih =>
    obtain ⟨form, text, rfl, hword⟩ := hw y (List.mem_cons_self ..)
    simp only [writeItems_scalar hword, readable_append, readable_cons]
    exact ⟨readable_spaces indent, by decide, by decide, hword.readable _, by decide,
      ih fun y hy => hw y (List.mem_cons_of_mem _ hy)⟩

theorem readable_entries (hkeys : ∀ e ∈ entries, IsKey e.1)
    (hvalues : ∀ e ∈ entries, Readable (behindKey indent e.2)) :
    Readable (writeEntries indent entries) := by
  induction entries with
  | nil => exact readable_nil
  | cons e entries ih =>
    have hkey := (hkeys e (List.mem_cons_self ..)).1
    simp only [writeEntries, writeEntry_eq hkey, readable_append, readable_cons]
    exact ⟨⟨readable_spaces indent, readable_continues (isPlain_iff.mp hkey).2.2.2, by decide,
      hvalues e (List.mem_cons_self ..)⟩, ih (fun e he => hkeys e (List.mem_cons_of_mem _ he))
        fun e he => hvalues e (List.mem_cons_of_mem _ he)⟩

theorem Tidy.readable_behindKey (h : Tidy y) (indent : Nat) : Readable (behindKey indent y) := by
  induction h generalizing indent with
  | scalar hw =>
    simp only [behindKey, inline?, endLine_scalarText hw, readable_cons, readable_append]
    exact ⟨by decide, hw.readable _, by decide, readable_nil⟩
  | @items items hw =>
    cases items with
    | nil => exact List.all_eq_true.mp (show " []\n".toList.all isReadable = true by decide)
    | cons item items => exact readable_cons.mpr ⟨by decide, readable_items hw⟩
  | entries hne hkeys hvalues ih =>
    rw [behindKey_map hne]
    exact readable_cons.mpr ⟨by decide, readable_entries hkeys fun e he => ih e he _⟩

theorem Tidy.readable_write (h : Tidy (.map entries)) : Readable ((Yaml.map entries).write 0) := by
  cases h with
  | entries hne hkeys hvalues =>
    rw [write_map hne]
    exact readable_entries hkeys fun e he => (hvalues e he).readable_behindKey 0

/-- What is written does not begin with a mark of the encoding. -/
theorem Tidy.head?_write (h : Tidy (.map entries)) :
    ((Yaml.map entries).write 0).head? ≠ some '\ufeff' := by
  cases h with
  | entries hne hkeys hvalues =>
    obtain ⟨e, entries, rfl⟩ := List.exists_cons_of_ne_nil hne
    have hkey := (hkeys e (List.mem_cons_self ..)).1
    have hcont := (isPlain_iff.mp hkey).2.2.2
    rw [write_map hne, writeEntries, writeEntry_eq hkey, List.replicate_zero, List.nil_append]
    cases hchars : e.1 with
    | nil => exact absurd hchars (ne_nil_of_continues hcont)
    | cons c key =>
      rintro ⟨⟩
      rw [hchars] at hcont
      exact absurd (continuesPlain_cons.mp hcont).1 (by decide)

end Characters

end SinkTrace.Yaml
