import SinkTrace.Proofs.Heap.WellFormed

/-!
The operations that merge nothing keep the heap well formed. Most of them change marks of one
entity only and leave its edges alone.
-/

namespace SinkTrace

namespace Entity

theorem awaits_of_bare_eq {e e' : Entity} (hb : e.bare = e'.bare) (t : EntityId) :
    e.Awaits t ↔ e'.Awaits t := by
  have hi : e.bare.deferredInput = e'.bare.deferredInput := by rw [hb]
  have ht : e.bare.deferredTaint = e'.bare.deferredTaint := by rw [hb]
  simp only [bare] at hi ht
  simp only [Awaits, hi, ht]

theorem awaits_addDeferredInput {e : Entity} {target t : EntityId}
    (h : (e.addDeferredInput target).Awaits t) : e.Awaits t ∨ t = target := by
  rcases h with hm | hm
  · simp only [addDeferredInput, Std.TreeSet.mem_insert, Nat.compare_eq_eq] at hm
    exact hm.symm.imp .inl Eq.symm
  · exact .inl (.inr hm)

theorem awaits_addDeferredTaint {e : Entity} {edge : DeferredTaint} {t : EntityId}
    (h : (e.addDeferredTaint edge).Awaits t) : e.Awaits t ∨ t = edge.target := by
  rcases h with hm | ⟨d, hm, rfl⟩
  · exact .inl (.inl hm)
  · rcases mem_addNew.mp hm with hm | rfl
    · exact .inl (.inr ⟨d, hm, rfl⟩)
    · exact .inr rfl

end Entity

namespace Heap

variable {h : Heap}

/-- A change that leaves the edges alone. -/
theorem WellFormed.update (hw : h.WellFormed) (id : EntityId) {f : Entity → Entity}
    (hf : ∀ e, (f e).edges = e.edges)
    (ht : ∀ e t, (f e).Awaits t → e.Awaits t ∨ t < h.size) : (h.update id f).WellFormed := by
  refine hw.of_alike (alike_update h id hf) ?_
  intro i e' t he hm
  rw [live?_update] at he
  split at he
  · obtain ⟨e, he₀, rfl⟩ := Option.map_eq_some_iff.mp he
    exact (ht e t hm).elim (hw.targets he₀) fun hlt => hlt
  · exact hw.targets he hm

theorem WellFormed.note (hw : h.WellFormed) (id : EntityId) : (h.note id).WellFormed :=
  hw.of_alike (alike_note h id) (fun he hm => hw.targets he hm)

theorem WellFormed.setOrigin (hw : h.WellFormed) (id : EntityId) (origin : Origin) :
    (h.setOrigin id origin).WellFormed :=
  hw.update id (fun _ => rfl) (fun _ _ => .inl)

theorem WellFormed.raiseTaint (hw : h.WellFormed) (id : EntityId) (taint : TaintId)
    (stack : Option CallStack) : (h.raiseTaint id taint stack).2.WellFormed := by
  unfold Heap.raiseTaint
  simp only
  split
  · exact hw
  · apply WellFormed.note
    apply hw.update
    · exact fun _ => rfl
    · exact fun _ _ => .inl

theorem WellFormed.markOne (hw : h.WellFormed) (id : EntityId) : (h.markOne id).WellFormed := by
  apply WellFormed.note
  apply hw.update
  · exact fun _ => rfl
  · exact fun _ _ => .inl

theorem WellFormed.markAll (hw : h.WellFormed) (work : List EntityId) :
    (h.markAll work).WellFormed := by
  fun_induction Heap.markAll h work with
  | case1 => exact hw
  | case2 h id rest _ ih => exact ih (hw.markOne id)
  | case3 h id rest _ ih => exact ih hw

theorem WellFormed.markInput (hw : h.WellFormed) (id : EntityId) : (h.markInput id).WellFormed :=
  hw.markAll [id]

theorem WellFormed.takeDeferredInput (hw : h.WellFormed) (id : EntityId) :
    (h.takeDeferredInput id).2.WellFormed :=
  hw.update id (fun _ => rfl) (fun _ _ hm => .inl (hm.elim (fun hm => by simp at hm) .inr))

theorem WellFormed.takeDeferredTaint (hw : h.WellFormed) (id : EntityId) :
    (h.takeDeferredTaint id).2.WellFormed :=
  hw.update id (fun _ => rfl) (fun _ _ hm => .inl (hm.elim .inl (fun hm => by simp at hm)))

theorem WellFormed.drainTransitions (hw : h.WellFormed) : h.drainTransitions.2.WellFormed :=
  hw.of_alike ⟨rfl, rfl, rfl, fun _ => rfl, fun _ => rfl⟩ (fun he hm => hw.targets he hm)

theorem WellFormed.create (hw : h.WellFormed) (origin : Option Origin) :
    (h.create origin).2.WellFormed := by
  have hcount : (h.create origin).2.liveCount = (h.create origin).2.liveTotal := by
    rw [liveTotal_create, ← hw.count]
    rfl
  have hold : ∀ {i e}, (h.create origin).2.live? i = some e →
      e = { origin } ∨ h.live? i = some e := by
    intro i e he
    rw [live?_create] at he
    split at he
    · exact .inl (Option.some.inj he).symm
    · exact .inr he
  refine ⟨hw.descending.create origin, hcount, ?_, ⟨?_, ?_⟩, ?_⟩
  · intro i e he
    rcases hold he with rfl | he
    · simp [Table.keys]
    · exact hw.keys he
  · intro i e k c he hg
    rcases hold he with rfl | he
    · simp [Table.get?, Table.find] at hg
    · obtain ⟨e', he', hm⟩ := hw.child he hg
      exact .inl ⟨e', live?_create_of_some origin he', hm⟩
  · intro i e p k he hm
    rcases hold he with rfl | he
    · simp at hm
    · obtain ⟨e', he', hg⟩ := hw.parent he hm
      exact .inl ⟨e', live?_create_of_some origin he', hg⟩
  · intro i e t he hm
    rw [size_create]
    rcases hold he with rfl | he
    · simp [Entity.Awaits] at hm
    · exact Nat.lt_succ_of_lt (hw.targets he hm)

/-- Every field table of a heap has distinct keys after an edge was added. -/
theorem nodup_keys_link {owner child : EntityId} {eo ec : Entity} (ho : h.live? owner = some eo)
    (hc : h.live? child = some ec) (key : FieldName)
    (hk : ∀ {i e}, h.live? i = some e → e.fields.keys.Nodup) {i : EntityId} {e : Entity}
    (he : (h.link owner key child).live? i = some e) : e.fields.keys.Nodup := by
  rw [live?_link (find_of_live? ho) (find_of_live? hc)] at he
  obtain ⟨e₀, he₀, rfl⟩ := Option.map_eq_some_iff.mp he
  simp only
  split
  · exact Table.nodup_keys_insert (hk he₀) key child
  · exact hk he₀

/-- A first edge of that name. -/
theorem WellFormed.link (hw : h.WellFormed) {owner child : EntityId} {eo ec : Entity}
    (ho : h.live? owner = some eo) (hc : h.live? child = some ec) {key : FieldName}
    (hk : eo.fields.get? key = none) : (h.link owner key child).WellFormed := by
  have ha := alike_link h owner key child
  have hl : (h.link owner key child).Linked _ _ :=
    hw.linked.link ho hc fun c hg => by simp [hk] at hg
  refine ⟨ha.descending hw.descending, ha.count.trans (hw.count.trans ha.total.symm),
    nodup_keys_link ho hc key hw.keys, ⟨fun he hg => ?_, hl.parents⟩, ?_⟩
  · exact (hl.fields he hg).imp id And.left
  · intro i e' t he hm
    obtain ⟨e, he₀, hb⟩ := ha.of_live? he
    rw [ha.size]
    exact hw.targets he₀ ((Entity.awaits_of_bare_eq hb t).mpr hm)

/-! Shortening the chains of forwards. -/

/-- Nothing that can be asked of the heap differs; chains of forwards may. -/
structure Same (h h' : Heap) : Prop where
  size : h'.size = h.size
  count : h'.liveCount = h.liveCount
  total : h'.liveTotal = h.liveTotal
  transitions : h'.transitions = h.transitions
  find : ∀ j, h'.find j = h.find j
  live : ∀ j, h'.live? j = h.live? j

theorem Same.refl (h : Heap) : Same h h := ⟨rfl, rfl, rfl, rfl, fun _ => rfl, fun _ => rfl⟩

theorem Same.trans {h' h'' : Heap} (h₁ : Same h h') (h₂ : Same h' h'') : Same h h'' :=
  ⟨h₂.size.trans h₁.size, h₂.count.trans h₁.count, h₂.total.trans h₁.total,
    h₂.transitions.trans h₁.transitions, fun j => (h₂.find j).trans (h₁.find j),
    fun j => (h₂.live j).trans (h₁.live j)⟩

theorem Same.entity {h' : Heap} (hs : Same h h') (id : EntityId) : h'.entity id = h.entity id := by
  rw [entity_eq, entity_eq, hs.find, hs.live]

/-- A forward may be replaced by one that leads to its end at once. -/
theorem same_forward {id next : EntityId} (hn : h.next? id = some next) (hlt : next < id) :
    Same h (h.forward id (h.find id)) := by
  have hid := lt_size_of_next? hn
  have hnode := next?_eq_some.mp hn
  have hroot : h.find id < id := by
    rw [find_of_next? hn hlt]
    exact Nat.lt_of_le_of_lt (h.find_le next) hlt
  refine ⟨size_forward h id _, rfl, ?_, rfl, ?_, ?_⟩
  · obtain ⟨hin, he⟩ := Array.getElem?_eq_some_iff.mp hnode
    simp only [liveTotal, forward, Array.setIfInBounds, hin, ↓reduceDIte, Array.countP_set, he,
      Node.isLive, Bool.false_eq_true, ↓reduceIte, Nat.sub_zero, Nat.add_zero]
  · intro j
    induction j using Nat.strongRecOn with
    | ind j ih =>
      by_cases hj : id = j
      · subst hj
        have hstep : (h.forward id (h.find id)).next? id = some (h.find id) := by
          simp [next?_forward hid]
        rw [find_of_next? hstep hroot, ih _ hroot, find_find]
      · rw [find_eq, find_eq h j, next?_forward hid, if_neg hj]
        cases h.next? j with
        | none => rfl
        | some n =>
          simp only
          split
          · exact ih n ‹_›
          · rfl
  · intro j
    rw [live?_forward]
    split
    · subst j
      simp [Heap.live?, hnode]
    · rfl

theorem same_compress (h : Heap) (id : EntityId) (hd : h.Descending) :
    Same h (h.compress id (h.find id)) ∧ (h.compress id (h.find id)).Descending := by
  induction id using Nat.strongRecOn generalizing h with
  | ind id ih =>
    rw [compress]
    split
    · rename_i next hnode
      have hn := next?_eq_some.mpr hnode
      have hlt := hd id next hn
      have hs := same_forward hn hlt
      have hroot : h.find id < id := by
        rw [find_of_next? hn hlt]
        exact Nat.lt_of_le_of_lt (h.find_le next) hlt
      have hend : (h.forward id (h.find id)).find next = h.find id := by
        rw [hs.find, find_of_next? hn hlt]
      obtain ⟨hrest, hdesc⟩ := ih next hlt (h.forward id (h.find id))
        (hd.forward (lt_size_of_next? hn) hroot)
      rw [hend] at hrest hdesc
      rw [if_pos hlt]
      exact ⟨hs.trans hrest, hdesc⟩
    · exact ⟨Same.refl h, hd⟩

theorem WellFormed.of_same {h' : Heap} (hw : h.WellFormed) (hs : Same h h')
    (hd : h'.Descending) : h'.WellFormed := by
  refine ⟨hd, hs.count.trans (hw.count.trans hs.total.symm), ?_, ⟨?_, ?_⟩, ?_⟩
  · intro i e he
    exact hw.keys (hs.live i ▸ he)
  · intro i e k c he hg
    obtain ⟨e', he', hm⟩ := hw.child (hs.live i ▸ he) hg
    exact .inl ⟨e', (hs.live c).trans he', hm⟩
  · intro i e p k he hm
    obtain ⟨e', he', hg⟩ := hw.parent (hs.live i ▸ he) hm
    exact .inl ⟨e', (hs.live p).trans he', hg⟩
  · intro i e t he hm
    rw [hs.size]
    exact hw.targets (hs.live i ▸ he) hm

theorem WellFormed.resolve (hw : h.WellFormed) (id : EntityId) : (h.resolve id).2.WellFormed :=
  have ⟨hs, hd⟩ := same_compress h id hw.descending
  hw.of_same hs hd

/-! Loading a field. -/

/-- The child that a field gets when it is loaded for the first time. -/
def newChild (h : Heap) (owner : EntityId) (key : FieldName) : Entity :=
  let deep := (h.entity owner).deep
  { origin := some (.unknownField key), deep
    taint := if deep then TaintId.input else TaintId.clean }

/-- The heap after a field was loaded for the first time, before the child is linked. -/
def withChild (h : Heap) (owner : EntityId) (key : FieldName) : Heap :=
  let grown := (h.create (some (.unknownField key))).2
  if (h.entity owner).deep then grown.update h.size Entity.markDeep else grown

theorem loadField_of_some {owner child : EntityId} {key : FieldName}
    (hg : (h.entity owner).fields.get? key = some child) :
    h.loadField owner key = (h.find child, h) := by
  simp only [loadField, entity_find, hg]

theorem loadField_of_none {owner : EntityId} {key : FieldName}
    (hg : (h.entity owner).fields.get? key = none) :
    h.loadField owner key = (h.size, (h.withChild owner key).link (h.find owner) key h.size) := by
  simp only [loadField, entity_find, hg, withChild]
  rfl

theorem live?_withChild (h : Heap) (owner : EntityId) (key : FieldName) (j : EntityId) :
    (h.withChild owner key).live? j =
      if j = h.size then some (h.newChild owner key) else h.live? j := by
  unfold withChild newChild
  cases (h.entity owner).deep with
  | false => simp only [Bool.false_eq_true, ↓reduceIte, live?_create]
  | true =>
    have hf : (h.create (some (.unknownField key))).2.find h.size = h.size := by
      rw [find_create, find_of_size_le (Nat.le_refl _)]
    simp only [↓reduceIte]
    rw [live?_update, hf, live?_create]
    by_cases hj : j = h.size
    · subst hj
      simp [Entity.markDeep, TaintId.clean, TaintId.input]
    · have hne : ¬h.size = j := fun he => hj he.symm
      simp [hj, hne]

theorem WellFormed.withChild (hw : h.WellFormed) (owner : EntityId) (key : FieldName) :
    (h.withChild owner key).WellFormed := by
  unfold Heap.withChild
  simp only
  split
  · exact (hw.create _).update _ (fun _ => rfl) (fun _ _ => .inl)
  · exact hw.create _

@[simp]
theorem next?_withChild (h : Heap) (owner : EntityId) (key : FieldName) (j : EntityId) :
    (h.withChild owner key).next? j = h.next? j := by
  unfold withChild
  simp only
  split <;> simp

@[simp]
theorem size_withChild (h : Heap) (owner : EntityId) (key : FieldName) :
    (h.withChild owner key).size = h.size + 1 := by
  unfold withChild
  simp only
  split <;> simp

@[simp]
theorem find_withChild (h : Heap) (owner : EntityId) (key : FieldName) (j : EntityId) :
    (h.withChild owner key).find j = h.find j := find_congr (next?_withChild h owner key) j

theorem WellFormed.live?_withChild_owner (hw : h.WellFormed) {owner : EntityId}
    (ho : owner < h.size) (key : FieldName) :
    (h.withChild owner key).live? (h.find owner) = some (h.entity owner) := by
  rw [live?_withChild, if_neg (Nat.ne_of_lt (find_lt_size ho))]
  exact hw.live? ho

theorem WellFormed.loadField (hw : h.WellFormed) {owner : EntityId} (ho : owner < h.size)
    (key : FieldName) : (h.loadField owner key).2.WellFormed := by
  cases hg : (h.entity owner).fields.get? key with
  | some child =>
    rw [loadField_of_some hg]
    exact hw
  | none =>
    rw [loadField_of_none hg]
    apply (hw.withChild owner key).link (hw.live?_withChild_owner ho key) _ hg
    · exact h.newChild owner key
    · rw [live?_withChild, if_pos rfl]

end Heap

end SinkTrace
