import SinkTrace.Proofs.Heap.View
import SinkTrace.Proofs.Table

/-!
The invariant of the heap. Forwards descend, the counter counts the live entities, and every field
edge between live entities is known at both ends. While an entity is being absorbed some edges are
known at one end only; `Linked` names those that are still to be mended.
-/

namespace SinkTrace

theorem mem_addNew {α : Type} [BEq α] [LawfulBEq α] {xs : List α} {x y : α} :
    y ∈ addNew xs x ↔ y ∈ xs ∨ y = x := by
  unfold addNew
  split
  · rename_i hx
    have hm : x ∈ xs := by simpa using hx
    exact ⟨.inl, fun h => h.elim id fun he => he ▸ hm⟩
  · simp

theorem mem_foldl_addNew {α : Type} [BEq α] [LawfulBEq α] {ys xs : List α} {y : α} :
    y ∈ ys.foldl addNew xs ↔ y ∈ xs ∨ y ∈ ys := by
  induction ys generalizing xs with
  | nil => simp
  | cons x ys ih => rw [List.foldl_cons, ih, mem_addNew, List.mem_cons, or_assoc]

/-- An entity without its edges. -/
def Entity.bare (e : Entity) : Entity := { e with fields := {}, parents := [] }

/-- The edges of an entity, in both directions. -/
def Entity.edges (e : Entity) : Table FieldName EntityId × List (EntityId × FieldName) :=
  (e.fields, e.parents)

theorem Entity.edges_inj {e e' : Entity} (h : e.edges = e'.edges) :
    e.fields = e'.fields ∧ e.parents = e'.parents := Prod.mk.inj h

/-- Ids that the deferred edges of an entity lead to. -/
def Entity.Awaits (e : Entity) (t : EntityId) : Prop :=
  t ∈ e.deferredInput ∨ ∃ edge ∈ e.deferredTaint, edge.target = t

namespace Heap

/-- Live entities in the arena. -/
def liveTotal (h : Heap) : Nat := h.nodes.countP Node.isLive

/-- Edges agree at both ends, except that a `loose` field may lead to no live entity and a `stale`
back reference may name none. -/
structure Linked (h : Heap) (loose : EntityId → FieldName → Prop)
    (stale : EntityId → EntityId → Prop) : Prop where
  fields : ∀ {i e k c}, h.live? i = some e → e.fields.get? k = some c →
    (∃ e', h.live? c = some e' ∧ (i, k) ∈ e'.parents) ∨ loose i k
  parents : ∀ {i e p k}, h.live? i = some e → (p, k) ∈ e.parents →
    (∃ e', h.live? p = some e' ∧ e'.fields.get? k = some i) ∨ stale p i

structure WellFormed (h : Heap) : Prop where
  descending : h.Descending
  count : h.liveCount = h.liveTotal
  keys : ∀ {i e}, h.live? i = some e → e.fields.keys.Nodup
  linked : h.Linked (fun _ _ => False) (fun _ _ => False)
  targets : ∀ {i e t}, h.live? i = some e → e.Awaits t → t < h.size

theorem wellFormed_empty : WellFormed {} := by
  have hl : ∀ i, live? {} i = none := fun i => rfl
  refine ⟨fun i next hn => ?_, rfl, fun he => ?_, ⟨fun he => ?_, fun he => ?_⟩, fun he => ?_⟩
  · exact absurd (lt_size_of_next? hn) (Nat.not_lt_zero i)
  all_goals exact absurd he (by simp [hl])

theorem WellFormed.child {h : Heap} (hw : h.WellFormed) {i : EntityId} {e : Entity}
    {k : FieldName} {c : EntityId} (he : h.live? i = some e) (hg : e.fields.get? k = some c) :
    ∃ e', h.live? c = some e' ∧ (i, k) ∈ e'.parents :=
  (hw.linked.fields he hg).elim id False.elim

theorem WellFormed.parent {h : Heap} (hw : h.WellFormed) {i : EntityId} {e : Entity}
    {k : FieldName} {p : EntityId} (he : h.live? i = some e) (hm : (p, k) ∈ e.parents) :
    ∃ e', h.live? p = some e' ∧ e'.fields.get? k = some i :=
  (hw.linked.parents he hm).elim id False.elim

theorem WellFormed.live? {h : Heap} (hw : h.WellFormed) {id : EntityId} (hid : id < h.size) :
    h.live? (h.find id) = some (h.entity id) := hw.descending.live?_entity hid

/-! The counter. -/

theorem countP_modifyLive (a : Array Node) (i : Nat) (f : Entity → Entity) :
    (a.modify i (modifyLive f)).countP Node.isLive = a.countP Node.isLive := by
  rw [← Array.countP_toList, ← Array.countP_toList, Array.toList_modify]
  generalize a.toList = l
  induction l generalizing i with
  | nil => simp
  | cons n l ih =>
    cases i with
    | zero => cases n <;> simp [List.countP_cons, modifyLive, Node.isLive]
    | succ i => simp [List.countP_cons, ih]

@[simp]
theorem liveTotal_update (h : Heap) (id : EntityId) (f : Entity → Entity) :
    (h.update id f).liveTotal = h.liveTotal := countP_modifyLive _ _ _

theorem liveTotal_create (h : Heap) (origin : Option Origin) :
    (h.create origin).2.liveTotal = h.liveTotal + 1 := by
  simp [liveTotal, create, Array.countP_push, Node.isLive]

theorem liveTotal_forward {h : Heap} {y x : EntityId} {e : Entity} (he : h.live? y = some e) :
    (h.forward y x).liveTotal = h.liveTotal - 1 := by
  obtain ⟨hy, hn⟩ := Array.getElem?_eq_some_iff.mp (live?_eq_some.mp he)
  simp only [liveTotal, forward, Array.setIfInBounds, hy, ↓reduceDIte, Array.countP_set, hn,
    Node.isLive, ↓reduceIte, Bool.false_eq_true, Nat.add_zero]

theorem liveTotal_pos {h : Heap} {y : EntityId} {e : Entity} (he : h.live? y = some e) :
    0 < h.liveTotal := by
  obtain ⟨hy, hn⟩ := Array.getElem?_eq_some_iff.mp (live?_eq_some.mp he)
  exact Array.countP_pos_iff.mpr ⟨_, Array.getElem_mem hy, by rw [hn]; rfl⟩

/-! Heaps that differ in parts of their entities only. -/

/-- The same ids are live and forwarded, and `view` sees no difference between the entities. -/
structure Alike {α : Type} (view : Entity → α) (h h' : Heap) : Prop where
  size : h'.size = h.size
  count : h'.liveCount = h.liveCount
  total : h'.liveTotal = h.liveTotal
  next : ∀ j, h'.next? j = h.next? j
  live : ∀ j, (h'.live? j).map view = (h.live? j).map view

section Alike

variable {α : Type} {view : Entity → α} {h h' h'' : Heap}

theorem Alike.refl (view : Entity → α) (h : Heap) : Alike view h h :=
  ⟨rfl, rfl, rfl, fun _ => rfl, fun _ => rfl⟩

theorem Alike.trans (h₁ : Alike view h h') (h₂ : Alike view h' h'') : Alike view h h'' :=
  ⟨h₂.size.trans h₁.size, h₂.count.trans h₁.count, h₂.total.trans h₁.total,
    fun j => (h₂.next j).trans (h₁.next j), fun j => (h₂.live j).trans (h₁.live j)⟩

theorem Alike.find (ha : Alike view h h') (id : EntityId) : h'.find id = h.find id :=
  find_congr ha.next id

theorem Alike.of_live? (ha : Alike view h h') {j : EntityId} {e' : Entity}
    (he : h'.live? j = some e') : ∃ e, h.live? j = some e ∧ view e = view e' := by
  have hv := ha.live j
  rw [he] at hv
  exact Option.map_eq_some_iff.mp hv.symm

theorem Alike.to_live? (ha : Alike view h h') {j : EntityId} {e : Entity}
    (he : h.live? j = some e) : ∃ e', h'.live? j = some e' ∧ view e' = view e := by
  have hv := ha.live j
  rw [he] at hv
  exact Option.map_eq_some_iff.mp hv

theorem Alike.descending (ha : Alike view h h') (hd : h.Descending) : h'.Descending :=
  fun j next hn => hd j next (by rw [← ha.next]; exact hn)

theorem Alike.entity (ha : Alike view h h') (id : EntityId) :
    view (h'.entity id) = view (h.entity id) := by
  have hv := ha.live (h.find id)
  rw [entity_eq, entity_eq, ha.find]
  cases he : h.live? (h.find id) <;> cases he' : h'.live? (h.find id) <;> simp_all

theorem Alike.comp {β : Type} (ha : Alike view h h') (f : α → β) :
    Alike (fun e => f (view e)) h h' := by
  refine ⟨ha.size, ha.count, ha.total, ha.next, fun j => ?_⟩
  have hv := congrArg (Option.map f) (ha.live j)
  simpa only [Option.map_map, Function.comp_def] using hv

theorem alike_update (h : Heap) (id : EntityId) {f : Entity → Entity}
    (hf : ∀ e, view (f e) = view e) : Alike view h (h.update id f) := by
  refine ⟨size_update h id f, rfl, liveTotal_update h id f, next?_update h id f, fun j => ?_⟩
  rw [live?_update]
  split
  · simp only [Option.map_map, Function.comp_def, hf]
  · rfl

theorem alike_note (h : Heap) (id : EntityId) : Alike view h (h.note id) :=
  ⟨rfl, rfl, rfl, next?_note h id, fun _ => rfl⟩

theorem Alike.foldl {β : Type} {f : Heap → β → Heap} (hf : ∀ h b, Alike view h (f h b))
    (bs : List β) (h : Heap) : Alike view h (bs.foldl f h) := by
  induction bs generalizing h with
  | nil => exact Alike.refl view h
  | cons b bs ih => exact (hf h b).trans (ih (f h b))

theorem Alike.linked (ha : Alike Entity.edges h h') {loose : EntityId → FieldName → Prop}
    {stale : EntityId → EntityId → Prop} (hl : h.Linked loose stale) : h'.Linked loose stale := by
  constructor
  · intro i e' k c he hg
    obtain ⟨e, he₀, hv⟩ := ha.of_live? he
    rw [← (Entity.edges_inj hv).1] at hg
    refine (hl.fields he₀ hg).imp ?_ id
    rintro ⟨ec, hc, hm⟩
    obtain ⟨ec', hc', hv⟩ := ha.to_live? hc
    exact ⟨ec', hc', (Entity.edges_inj hv).2 ▸ hm⟩
  · intro i e' p k he hm
    obtain ⟨e, he₀, hv⟩ := ha.of_live? he
    rw [← (Entity.edges_inj hv).2] at hm
    refine (hl.parents he₀ hm).imp ?_ id
    rintro ⟨ep, hp, hg⟩
    obtain ⟨ep', hp', hv⟩ := ha.to_live? hp
    exact ⟨ep', hp', (Entity.edges_inj hv).1 ▸ hg⟩

/-- Nothing but the edges and the counter decides whether a heap is well formed. -/
theorem WellFormed.of_alike (hw : h.WellFormed) (ha : Alike Entity.edges h h')
    (ht : ∀ {i e t}, h'.live? i = some e → e.Awaits t → t < h.size) : h'.WellFormed := by
  refine ⟨ha.descending hw.descending, ha.count.trans (hw.count.trans ha.total.symm), ?_,
    ha.linked hw.linked, fun he hm => ha.size ▸ ht he hm⟩
  intro i e' he
  obtain ⟨e, he₀, hv⟩ := ha.of_live? he
  exact (Entity.edges_inj hv).1 ▸ hw.keys he₀

end Alike

/-! Edges. -/

theorem alike_link (h : Heap) (owner : EntityId) (key : FieldName) (child : EntityId) :
    Alike Entity.bare h (h.link owner key child) := by
  have h₁ : Alike Entity.bare h (h.update owner (·.setField key child)) :=
    alike_update h owner fun _ => rfl
  exact h₁.trans (alike_update _ child fun _ => rfl)

theorem live?_link {h : Heap} {owner child : EntityId} (ho : h.find owner = owner)
    (hc : h.find child = child) (key : FieldName) (j : EntityId) :
    (h.link owner key child).live? j = (h.live? j).map fun e =>
      { e with fields := if j = owner then e.fields.insert key child else e.fields
               parents := if j = child then addNew e.parents (owner, key) else e.parents } := by
  unfold link
  rw [live?_update, find_update, hc, live?_update, ho]
  by_cases h₁ : owner = j <;> by_cases h₂ : child = j
  all_goals
    simp only [h₁, h₂, eq_comm, ↓reduceIte, Option.map_map]
    cases h.live? j <;> rfl

/-- The owner has the new field, and no other field changes. -/
theorem get?_fields_link {h : Heap} {owner child : EntityId} (ho : h.find owner = owner)
    (hc : h.find child = child) {key : FieldName} {i : EntityId} {e₀ e : Entity}
    (he₀ : h.live? i = some e₀) (he : (h.link owner key child).live? i = some e) (k : FieldName) :
    e.fields.get? k = if i = owner ∧ k = key then some child else e₀.fields.get? k := by
  rw [live?_link ho hc, he₀] at he
  cases he
  by_cases hi : i = owner
  · by_cases hk : k = key
    · simp [hi, hk]
    · simp only [hi, hk, and_false, ↓reduceIte]
      exact Table.get?_insert_of_ne _ hk _
  · simp only [hi, false_and, ↓reduceIte]

/-- The child knows the new edge, and no other entity gets to know one. -/
theorem mem_parents_link {h : Heap} {owner child : EntityId} (ho : h.find owner = owner)
    (hc : h.find child = child) {key : FieldName} {i : EntityId} {e₀ e : Entity}
    (he₀ : h.live? i = some e₀) (he : (h.link owner key child).live? i = some e)
    (edge : EntityId × FieldName) :
    edge ∈ e.parents ↔ edge ∈ e₀.parents ∨ i = child ∧ edge = (owner, key) := by
  rw [live?_link ho hc, he₀] at he
  cases he
  by_cases hi : i = child
  · simp [hi, mem_addNew]
  · simp [hi]

/-- A new edge, known at both ends. If the owner had one of that name, it was loose or led to the
same child. -/
theorem Linked.link {h : Heap} {loose : EntityId → FieldName → Prop}
    {stale : EntityId → EntityId → Prop} {owner child : EntityId} {eo ec : Entity}
    {key : FieldName} (hl : h.Linked loose stale) (ho : h.live? owner = some eo)
    (hc : h.live? child = some ec)
    (hk : ∀ c, eo.fields.get? key = some c → c = child ∨ h.live? c = none) :
    (h.link owner key child).Linked (fun i k => loose i k ∧ ¬(i = owner ∧ k = key)) stale := by
  have ha := alike_link h owner key child
  have hget := @get?_fields_link h owner child (find_of_live? ho) (find_of_live? hc) key
  have hmem := @mem_parents_link h owner child (find_of_live? ho) (find_of_live? hc) key
  constructor
  · intro i e k c he hg
    obtain ⟨e₀, he₀, _⟩ := ha.of_live? he
    rw [hget he₀ he] at hg
    split at hg
    · rename_i hik
      obtain ⟨rfl, rfl⟩ := hik
      cases hg
      obtain ⟨ec', hc', _⟩ := ha.to_live? hc
      exact .inl ⟨ec', hc', (hmem hc hc' _).mpr (.inr ⟨rfl, rfl⟩)⟩
    · rename_i hik
      rcases hl.fields he₀ hg with ⟨ed, hd, hm⟩ | hloose
      · obtain ⟨ed', hd', _⟩ := ha.to_live? hd
        exact .inl ⟨ed', hd', (hmem hd hd' _).mpr (.inl hm)⟩
      · exact .inr ⟨hloose, hik⟩
  · intro i e p k he hm
    obtain ⟨e₀, he₀, _⟩ := ha.of_live? he
    rcases (hmem he₀ he _).mp hm with hm | ⟨rfl, hpk⟩
    · rcases hl.parents he₀ hm with ⟨ep, hp, hg⟩ | hstale
      · obtain ⟨ep', hp', _⟩ := ha.to_live? hp
        refine .inl ⟨ep', hp', ?_⟩
        rw [hget hp hp']
        split
        · -- the old edge led to the live `i`, so it was not loose
          rename_i hpk
          obtain ⟨rfl, rfl⟩ := hpk
          rw [ho] at hp
          cases hp
          rcases hk i hg with rfl | hnone
          · rfl
          · rw [he₀] at hnone
            cases hnone
        · exact hg
      · exact .inr hstale
    · cases hpk
      obtain ⟨eo', ho', _⟩ := ha.to_live? ho
      exact .inl ⟨eo', ho', by rw [hget ho ho', if_pos ⟨rfl, rfl⟩]⟩

end Heap

end SinkTrace
