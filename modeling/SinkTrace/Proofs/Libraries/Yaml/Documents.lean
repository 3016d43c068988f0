import SinkTrace.Proofs.Libraries.Yaml.Scanning
import SinkTrace.Libraries.Yaml.Reader

/-!
Tidy documents are read as they were written. They are followed through the scanner line by line,
and through the reader token by token, both along the tree.
-/

namespace SinkTrace.Yaml

/-! Tokens. -/

mutual

/-- The tokens of a document. -/
def spell : Yaml → List Token
  | scalar form text => [.scalar form text]
  | seq [] => [.seqStart, .seqEnd]
  | seq (item :: items) => spellItems (item :: items)
  | map entries => .blockMapStart :: spellEntries entries ++ [.blockEnd]

def spellItems : List Yaml → List Token
  | [] => []
  | item :: items => .blockEntry :: spell item ++ spellItems items

def spellEntries : List (List Char × Yaml) → List Token
  | [] => []
  | entry :: entries => spellEntry entry ++ spellEntries entries

def spellEntry : List Char × Yaml → List Token
  | (key, value) => .key :: .scalar .plain key :: .value :: spell value

end

/-! Scanning. -/

section Scanning

variable {y : Yaml} {items : List Yaml} {entries : List (List Char × Yaml)} {lines : List Char}
  {tokens tokens' : List Token} {indents outer : List Nat} {l col i k : Nat}

theorem level_items (hw : ∀ y ∈ items, IsWord y)
    (hlines : Level k lines) : Level k (writeItems k items ++ lines) := by
  cases items with
  | nil => exact hlines
  | cons y items =>
    obtain ⟨form, text, rfl, hword⟩ := hw y (List.mem_cons_self ..)
    rw [writeItems_scalar hword, List.append_assoc]
    exact ⟨k, _, rfl, Nat.le_refl k, startsLine_cons (by decide) (by decide)⟩

theorem level_entries (hkeys : ∀ e ∈ entries, IsKey e.1)
    (hlines : Level k lines) : Level k (writeEntries k entries ++ lines) := by
  cases entries with
  | nil => exact hlines
  | cons e entries =>
    have hkey := (hkeys e (List.mem_cons_self ..)).1
    rw [writeEntries, writeEntry_eq hkey, List.append_assoc, List.append_assoc, List.append_assoc]
    exact ⟨k, _, rfl, Nat.le_refl k,
      Scanner.startsLine_of_startsPlain (isPlain_iff.mp hkey).2.2.1 _⟩

theorem reachesLine_items (hw : ∀ y ∈ items, IsWord y) (hlines : Level k lines) :
    Scanner.ReachesLine ⟨⟨writeItems k items ++ lines, l, 0, i⟩, tokens, k :: outer, true, none, []⟩
      lines ((spellItems items).reverse ++ tokens) (k :: outer) := by
  induction items generalizing l i tokens with
  | nil => exact .refl
  | cons y items ih =>
    have hrest := fun y hy => hw y (List.mem_cons_of_mem _ hy)
    obtain ⟨form, text, rfl, hword⟩ := hw y (List.mem_cons_self ..)
    rw [writeItems_scalar hword]
    simp only [List.append_assoc, List.cons_append, spellItems, spell, List.nil_append,
      List.reverse_cons]
    refine (Scanner.scans_indentation k).reachesLine (Scanner.scans_dash.reachesLine ?_)
    refine (Scanner.reachesLine_scalar hword ?_ ?_ (level_items hrest hlines)).trans (ih hrest)
    · exact Nat.zero_lt_succ _
    · exact Nat.lt_add_of_pos_right (by decide)

/-- What is written behind a key is read up to the line behind it. -/
def ReadsBehind (y : Yaml) : Prop :=
  ∀ {k col l i : Nat} {outer : List Nat} {tokens : List Token} {lines : List Char}, k < col →
    Level k lines → Scanner.ReachesLine
      ⟨⟨behindKey k y ++ lines, l, col, i⟩, tokens, k :: outer, false, none, []⟩ lines
      ((spell y).reverse ++ tokens) (k :: outer)

theorem gapFirst_behindKey (k : Nat) (y : Yaml) (lines : List Char) :
    gapFirst (behindKey k y ++ lines) = true := by
  unfold behindKey
  split <;> rfl

theorem reachesLine_entry {key : List Char} (hkey : IsKey key) (hy : ReadsBehind y)
    (ho : Scanner.Opens k tokens indents (k :: outer) tokens') (hlines : Level k lines) :
    Scanner.ReachesLine ⟨⟨writeEntry k (key, y) ++ lines, l, 0, i⟩, tokens, indents, true, none, []⟩
      lines ((spellEntry (key, y)).reverse ++ tokens') (k :: outer) := by
  rw [writeEntry_eq hkey.1]
  simp only [List.append_assoc, List.cons_append, spellEntry, List.reverse_cons, List.nil_append]
  refine (Scanner.scans_indentation k).reachesLine ?_
  refine (Scanner.scans_key hkey (gapFirst_behindKey k y lines) ho).reachesLine ?_
  exact hy (by omega) hlines

theorem reachesLine_entries (hkeys : ∀ e ∈ entries, IsKey e.1)
    (hvalues : ∀ e ∈ entries, ReadsBehind e.2) (hlines : Level k lines) :
    Scanner.ReachesLine
      ⟨⟨writeEntries k entries ++ lines, l, 0, i⟩, tokens, k :: outer, true, none, []⟩ lines
      ((spellEntries entries).reverse ++ tokens) (k :: outer) := by
  induction entries generalizing tokens l i with
  | nil => exact .refl
  | cons e entries ih =>
    obtain ⟨hkey, hkeys'⟩ := List.forall_mem_cons.mp hkeys
    obtain ⟨hvalue, hvalues'⟩ := List.forall_mem_cons.mp hvalues
    rw [writeEntries, spellEntries, List.reverse_append, List.append_assoc, List.append_assoc]
    refine (reachesLine_entry hkey hvalue .inside (level_entries hkeys' hlines)).trans ?_
    exact ih hkeys' hvalues'

/-- The entries of a new mapping. -/
theorem reachesLine_mapping (hne : entries ≠ []) (hkeys : ∀ e ∈ entries, IsKey e.1)
    (hvalues : ∀ e ∈ entries, ReadsBehind e.2) (hindents : ∀ n ∈ indents.head?, n < k)
    (hlines : Level k lines) :
    Scanner.ReachesLine
      ⟨⟨writeEntries k entries ++ lines, l, 0, i⟩, tokens, indents, true, none, []⟩ lines
      ((spellEntries entries).reverse ++ .blockMapStart :: tokens) (k :: indents) := by
  cases entries with
  | nil => exact absurd rfl hne
  | cons e entries =>
    obtain ⟨hkey, hkeys'⟩ := List.forall_mem_cons.mp hkeys
    obtain ⟨hvalue, hvalues'⟩ := List.forall_mem_cons.mp hvalues
    rw [writeEntries, spellEntries, List.reverse_append, List.append_assoc, List.append_assoc]
    refine (reachesLine_entry hkey hvalue (.new hindents) (level_entries hkeys' hlines)).trans ?_
    exact reachesLine_entries hkeys' hvalues' hlines

theorem Tidy.readsBehind (h : Tidy y) : ReadsBehind y := by
  induction h with
  | @scalar form text hw =>
    intro k col l i outer tokens lines hk hlines
    simp only [behindKey, inline?, endLine_scalarText hw, List.cons_append, List.append_assoc,
      List.nil_append]
    refine Scanner.scans_space.reachesLine (Scanner.reachesLine_scalar hw ?_ ?_ hlines)
    · exact Nat.zero_lt_succ _
    · exact Nat.lt_succ_of_lt hk
  | @items items hw =>
    intro k col l i outer tokens lines hk hlines
    cases items with
    | nil =>
      exact Scanner.scans_space.reachesLine
        (Scanner.reachesLine_brackets (Nat.lt_succ_of_lt hk) hlines)
    | cons item items =>
      exact (Scanner.reachesLine_newline (level_items hw hlines) Scanner.stale_none).trans
        (reachesLine_items hw hlines)
  | @entries entries hne hkeys _ ih =>
    intro k col l i outer tokens lines hk hlines
    have hlines' := hlines.mono (Nat.le_add_right k 2)
    have hindents : ∀ n ∈ (k :: outer).head?, n < k + 2 := by simp
    simp only [behindKey_map hne, spell, List.reverse_append, List.reverse_cons, List.reverse_nil,
      List.nil_append, List.cons_append, List.append_assoc]
    refine (Scanner.reachesLine_newline (level_entries hkeys hlines') Scanner.stale_none).trans ?_
    refine (reachesLine_mapping hne hkeys ih hindents hlines').trans ?_
    exact Scanner.reachesLine_close hlines (Nat.lt_add_of_pos_right (by decide))

theorem Tidy.tokens?_write {entries : List (List Char × Yaml)} (h : Tidy (.map entries)) :
    tokens? ((Yaml.map entries).write 0) = some (spell (.map entries)) := by
  cases h with
  | entries hne hkeys hvalues =>
    obtain ⟨l, i, hscan⟩ := @reachesLine_mapping entries [] [] [] 0 0 0 hne hkeys
      (fun e he => (hvalues e he).readsBehind) (by simp) (level_nil 0)
    rw [List.append_nil] at hscan
    obtain ⟨fuel, hfuel, hrun⟩ := hscan _ (Nat.lt_succ_self _)
    rw [write_map hne, tokens?]
    exact hrun.trans ((Scanner.run?_done hfuel).trans (by simp [spell]))

end Scanning

/-! Reading. -/

section Reading

variable {y : Yaml} {items : List Yaml} {entries : List (List Char × Yaml)} {form : ScalarForm}
  {key text : List Char} {tokens rest : List Token} {anchors : List (List Char × Yaml)}
  {r r' : Reading} {fuel : Nat}

theorem node?_scalar (block behindKey : Bool) :
    node? block behindKey (fuel + 1) ⟨.scalar form text :: rest, anchors⟩ =
      some (.scalar form text, ⟨rest, anchors⟩) := by
  cases form <;> rfl

theorem nodeUnless?_of_not_isAt {stops : List Token} (block behindKey : Bool)
    (h : r.isAt stops = false) :
    nodeUnless? stops block behindKey (fuel + 1) r = node? block behindKey fuel r := by
  rw [nodeUnless?, h, if_neg Bool.false_ne_true]

theorem levelItems?_scalar
    (h : levelItems? (fuel + 2) ⟨tokens, anchors⟩ = some (items, r)) :
    levelItems? (fuel + 3) ⟨.blockEntry :: .scalar form text :: tokens, anchors⟩ =
      some (.scalar form text :: items, r) := by
  rw [levelItems?]
  simp only [Reading.drop, List.drop_succ_cons, List.drop_zero,
    nodeUnless?_of_not_isAt true false (show Reading.isAt ⟨.scalar form text :: tokens, anchors⟩
      [.blockEntry, .key, .value, .blockEnd] = false from rfl), node?_scalar, h,
    Option.bind_eq_bind, Option.bind_some]

theorem levelItems?_end (h : tokens.head? ≠ some .blockEntry) :
    levelItems? (fuel + 1) ⟨tokens, anchors⟩ = some ([], ⟨tokens, anchors⟩) := by
  rw [levelItems?]
  split
  · rename_i htokens
    exact absurd (congrArg List.head? htokens) h
  · rfl

theorem levelItems?_spell (hw : ∀ y ∈ items, IsWord y)
    (hrest : rest.head? ≠ some .blockEntry) (hf : items.length + 2 ≤ fuel) :
    levelItems? fuel ⟨spellItems items ++ rest, anchors⟩ = some (items, ⟨rest, anchors⟩) := by
  induction items generalizing fuel with
  | nil =>
    obtain ⟨fuel, rfl⟩ : ∃ m, fuel = m + 1 := ⟨fuel - 1, by omega⟩
    exact levelItems?_end hrest
  | cons y items ih =>
    obtain ⟨fuel, rfl⟩ : ∃ m, fuel = m + 3 := ⟨fuel - 3, by simp at hf; omega⟩
    obtain ⟨form, text, rfl, -⟩ := hw y (List.mem_cons_self ..)
    rw [List.length_cons] at hf
    exact levelItems?_scalar (ih (fun y hy => hw y (List.mem_cons_of_mem _ hy)) (by omega))

theorem blockEntries?_entry (hat : Reading.isAt ⟨tokens, anchors⟩ [.key, .value, .blockEnd] = false)
    (hy : node? true true fuel ⟨tokens, anchors⟩ = some (y, r))
    (h : blockEntries? (fuel + 2) r = some (entries, r')) :
    blockEntries? (fuel + 3) ⟨.key :: .scalar .plain key :: .value :: tokens, anchors⟩ =
      some ((key, y) :: entries, r') := by
  have hkey : nodeUnless? [.key, .value, .blockEnd] true true (fuel + 2)
      ⟨.scalar .plain key :: .value :: tokens, anchors⟩ =
        some (.scalar .plain key, ⟨.value :: tokens, anchors⟩) :=
    (nodeUnless?_of_not_isAt true true rfl).trans (node?_scalar true true)
  have hvalue : valueOf? [.key, .value, .blockEnd] true (fuel + 2) ⟨.value :: tokens, anchors⟩ =
      some (y, r) :=
    (nodeUnless?_of_not_isAt true true hat).trans hy
  rw [blockEntries?]
  simp only [Reading.drop, List.drop_succ_cons, List.drop_zero, hkey, hvalue, h, key?,
    Option.bind_eq_bind, Option.bind_some]

/-- The tokens of a value behind a key are read up to what follows them. -/
def ReadsBack (y : Yaml) : Prop :=
  ∀ {rest : List Token} {anchors : List (List Char × Yaml)} {fuel : Nat},
    rest.head? ≠ some .blockEntry → 4 * (spell y).length ≤ fuel →
      node? true true fuel ⟨spell y ++ rest, anchors⟩ = some (y, ⟨rest, anchors⟩)

theorem isAt_spell (h : Tidy y) (rest : List Token) (anchors : List (List Char × Yaml)) :
    (⟨spell y ++ rest, anchors⟩ : Reading).isAt [.key, .value, .blockEnd] = false := by
  cases h with
  | scalar => rfl
  | @items items => cases items <;> rfl
  | entries => rfl

theorem blockEntries?_spell (hvalues : ∀ e ∈ entries, Tidy e.2)
    (hreads : ∀ e ∈ entries, ReadsBack e.2)
    (hf : 4 * (spellEntries entries).length < fuel) :
    blockEntries? fuel ⟨spellEntries entries ++ .blockEnd :: rest, anchors⟩ =
      some (entries, ⟨rest, anchors⟩) := by
  induction entries generalizing fuel with
  | nil =>
    obtain ⟨fuel, rfl⟩ : ∃ m, fuel = m + 1 := ⟨fuel - 1, by omega⟩
    rfl
  | cons e entries ih =>
    obtain ⟨key, y⟩ := e
    simp only [spellEntries, spellEntry, List.length_append, List.length_cons] at hf
    obtain ⟨fuel, rfl⟩ : ∃ m, fuel = m + 3 := ⟨fuel - 3, by omega⟩
    have hhead : (spellEntries entries ++ Token.blockEnd :: rest).head? ≠ some .blockEntry := by
      cases entries with
      | nil => simp [spellEntries]
      | cons e entries =>
        obtain ⟨key, y⟩ := e
        simp [spellEntries, spellEntry]
    have hentries := @ih (fuel + 2) (fun e he => hvalues e (List.mem_cons_of_mem _ he))
      (fun e he => hreads e (List.mem_cons_of_mem _ he)) (by omega)
    rw [spellEntries, spellEntry, List.append_assoc]
    exact blockEntries?_entry (isAt_spell (hvalues (key, y) (List.mem_cons_self ..)) _ _)
      (hreads (key, y) (List.mem_cons_self ..) hhead (show 4 * (spell y).length ≤ fuel by omega))
      hentries

theorem node?_entries (behindKey : Bool)
    (h : blockEntries? fuel ⟨tokens, anchors⟩ = some (entries, r)) :
    node? true behindKey (fuel + 1) ⟨.blockMapStart :: tokens, anchors⟩ =
      some (.map entries, r) := by
  rw [node?]
  simp only [Properties.take, Reading.drop, List.drop_succ_cons, List.drop_zero, h, ↓reduceIte,
    Option.map_some, Option.bind_eq_bind, Option.bind_some]
  rfl

theorem node?_levelItems (block : Bool)
    (h : levelItems? fuel ⟨.blockEntry :: tokens, anchors⟩ = some (items, r)) :
    node? block true (fuel + 1) ⟨.blockEntry :: tokens, anchors⟩ = some (.seq items, r) := by
  rw [node?]
  simp only [Properties.take, h, ↓reduceIte, Option.map_some, Option.bind_eq_bind, Option.bind_some]
  rfl

theorem length_le_spellItems (items : List Yaml) : items.length ≤ (spellItems items).length := by
  induction items with
  | nil => exact Nat.le_refl 0
  | cons item items ih =>
    rw [spellItems, List.length_append, List.length_cons, List.length_cons]
    omega

theorem Tidy.readsBack (h : Tidy y) : ReadsBack y := by
  induction h with
  | scalar hw =>
    intro rest anchors fuel _ hf
    obtain ⟨fuel, rfl⟩ : ∃ m, fuel = m + 1 := ⟨fuel - 1, by simp [spell] at hf; omega⟩
    exact node?_scalar true true
  | @items items hw =>
    intro rest anchors fuel hrest hf
    cases items with
    | nil =>
      obtain ⟨fuel, rfl⟩ : ∃ m, fuel = m + 2 := ⟨fuel - 2, by simp [spell] at hf; omega⟩
      rfl
    | cons item items =>
      have hlen := length_le_spellItems (item :: items)
      rw [spell] at hf
      rw [List.length_cons] at hlen
      obtain ⟨fuel, rfl⟩ : ∃ m, fuel = m + 1 := ⟨fuel - 1, by omega⟩
      exact node?_levelItems true (levelItems?_spell hw hrest (by rw [List.length_cons]; omega))
  | @entries entries hne hkeys hvalues ih =>
    intro rest anchors fuel _ hf
    rw [spell, List.length_append, List.length_cons] at hf
    obtain ⟨fuel, rfl⟩ : ∃ m, fuel = m + 1 := ⟨fuel - 1, by omega⟩
    rw [spell, List.cons_append, List.cons_append, List.append_assoc]
    exact node?_entries true (blockEntries?_spell hvalues ih (by omega))

theorem Tidy.root?_spell (h : Tidy (.map entries)) :
    root? (spell (.map entries)) = some (.map entries, ⟨[], []⟩) := by
  cases h with
  | entries hne hkeys hvalues =>
    have hread := @blockEntries?_spell entries [] [] (4 * (spell (.map entries)).length + 3) hvalues
      (fun e he => (hvalues e he).readsBack) (by
        rw [spell, List.length_append, List.length_cons]
        omega)
    exact node?_entries false hread

/-- A tidy document is read back as it was written. -/
theorem Tidy.ofString?_render (h : Tidy (.map entries)) :
    ofString? (Yaml.map entries).render = some (.map entries) := by
  have hall : ((Yaml.map entries).write 0).all isReadable = true :=
    List.all_eq_true.mpr h.readable_write
  rw [render, ofString?, String.toList_ofList, ofChars?, if_neg h.head?_write]
  simp only [hall, h.tokens?_write, h.root?_spell, Bool.not_true, Bool.false_eq_true, ↓reduceIte,
    Option.bind_eq_bind, Option.bind_some]
  rfl

end Reading

end SinkTrace.Yaml
