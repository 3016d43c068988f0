import SinkTrace.Heap.Merge

/-!
What the operations of the heap do to the two things that can be seen of it: the live entity kept
under an id, and the id that a merged one stands for.
-/

namespace SinkTrace

namespace Heap

/-- The entity that is kept under exactly this id. -/
def live? (h : Heap) (id : EntityId) : Option Entity :=
  match h.nodes[id]? with
  | some (.live e) => some e
  | _ => none

/-- Where a merged id forwards to. -/
def next? (h : Heap) (id : EntityId) : Option EntityId :=
  match h.nodes[id]? with
  | some (.forwarded next) => some next
  | _ => none

/-- Forwards lead to smaller ids. -/
def Descending (h : Heap) : Prop := ∀ id next, h.next? id = some next → next < id

theorem live?_eq_some {h : Heap} {id : EntityId} {e : Entity} :
    h.live? id = some e ↔ h.nodes[id]? = some (.live e) := by
  unfold live?
  split <;> simp_all

theorem next?_eq_some {h : Heap} {id next : EntityId} :
    h.next? id = some next ↔ h.nodes[id]? = some (.forwarded next) := by
  unfold next?
  split <;> simp_all

theorem lt_size_of_live? {h : Heap} {id : EntityId} {e : Entity} (he : h.live? id = some e) :
    id < h.size := (Array.getElem?_eq_some_iff.mp (live?_eq_some.mp he)).1

theorem lt_size_of_next? {h : Heap} {id next : EntityId} (hn : h.next? id = some next) :
    id < h.size := (Array.getElem?_eq_some_iff.mp (next?_eq_some.mp hn)).1

theorem next?_of_live? {h : Heap} {id : EntityId} {e : Entity} (he : h.live? id = some e) :
    h.next? id = none := by
  simp [next?, live?_eq_some.mp he]

theorem live?_or_next? {h : Heap} {id : EntityId} (hid : id < h.size) :
    (∃ e, h.live? id = some e) ∨ ∃ next, h.next? id = some next := by
  have hn : h.nodes[id]? = some h.nodes[id] := Array.getElem?_eq_getElem hid
  cases hc : h.nodes[id] with
  | live e => exact .inl ⟨e, live?_eq_some.mpr (hc ▸ hn)⟩
  | forwarded next => exact .inr ⟨next, next?_eq_some.mpr (hc ▸ hn)⟩

/-! Following forwards. -/

theorem find_eq (h : Heap) (id : EntityId) :
    h.find id = match h.next? id with
      | some next => if next < id then h.find next else id
      | none => id := by
  rw [find, next?]
  split <;> simp_all

theorem find_of_next? {h : Heap} {id next : EntityId} (hn : h.next? id = some next)
    (hlt : next < id) : h.find id = h.find next := by
  rw [find_eq, hn]
  simp [hlt]

theorem find_of_next?_none {h : Heap} {id : EntityId} (hn : h.next? id = none) :
    h.find id = id := by
  rw [find_eq, hn]

theorem find_of_live? {h : Heap} {id : EntityId} {e : Entity} (he : h.live? id = some e) :
    h.find id = id := find_of_next?_none (next?_of_live? he)

theorem find_of_size_le {h : Heap} {id : EntityId} (hid : h.size ≤ id) : h.find id = id := by
  apply find_of_next?_none
  cases hn : h.next? id with
  | none => rfl
  | some next => exact absurd (lt_size_of_next? hn) (Nat.not_lt.mpr hid)

theorem find_le (h : Heap) (id : EntityId) : h.find id ≤ id := by
  fun_induction find h id with
  | case1 id next _ hlt ih => exact Nat.le_trans ih (Nat.le_of_lt hlt)
  | case2 id next _ hlt => exact Nat.le_refl _
  | case3 id _ => exact Nat.le_refl _

theorem find_lt_size {h : Heap} {id : EntityId} (hid : id < h.size) : h.find id < h.size :=
  Nat.lt_of_le_of_lt (h.find_le id) hid

@[simp]
theorem find_find (h : Heap) (id : EntityId) : h.find (h.find id) = h.find id := by
  fun_induction find h id with
  | case1 id next _ hlt ih => exact ih
  | case2 id next hn hlt =>
    rw [find_eq, next?_eq_some.mpr hn]
    simp [hlt]
  | case3 id hn =>
    apply find_of_next?_none
    cases hc : h.next? id with
    | none => rfl
    | some next => exact absurd (next?_eq_some.mp hc) (hn next)

/-- Following the forwards ends at a live entity. -/
theorem Descending.live?_find {h : Heap} (hd : h.Descending) {id : EntityId} (hid : id < h.size) :
    ∃ e, h.live? (h.find id) = some e := by
  induction id using Nat.strongRecOn with
  | ind id ih =>
    rcases live?_or_next? hid with ⟨e, he⟩ | ⟨next, hn⟩
    · exact ⟨e, by rw [find_of_live? he]; exact he⟩
    · have hlt := hd id next hn
      rw [find_of_next? hn hlt]
      exact ih next hlt (Nat.lt_trans hlt hid)

theorem Descending.live?_of_find {h : Heap} (hd : h.Descending) {id : EntityId}
    (hid : id < h.size) (hf : h.find id = id) : ∃ e, h.live? id = some e := by
  obtain ⟨e, he⟩ := hd.live?_find hid
  exact ⟨e, hf ▸ he⟩

theorem entity_eq (h : Heap) (id : EntityId) : h.entity id = (h.live? (h.find id)).getD {} := by
  unfold entity live?
  split <;> simp_all

theorem entity_of_live? {h : Heap} {id : EntityId} {e : Entity} (he : h.live? id = some e) :
    h.entity id = e := by
  rw [entity_eq, find_of_live? he, he]
  rfl

@[simp]
theorem entity_find (h : Heap) (id : EntityId) : h.entity (h.find id) = h.entity id := by
  rw [entity_eq, entity_eq, find_find]

theorem entity_congr {h : Heap} {u v : EntityId} (hf : h.find u = h.find v) :
    h.entity u = h.entity v := by
  rw [entity_eq, entity_eq, hf]

theorem Descending.live?_entity {h : Heap} (hd : h.Descending) {id : EntityId}
    (hid : id < h.size) : h.live? (h.find id) = some (h.entity id) := by
  obtain ⟨e, he⟩ := hd.live?_find hid
  rw [entity_eq, he]
  rfl

/-- Two heaps with the same forwards agree on what every id stands for. -/
theorem find_congr {h h' : Heap} (hn : ∀ id, h'.next? id = h.next? id) (id : EntityId) :
    h'.find id = h.find id := by
  induction id using Nat.strongRecOn with
  | ind id ih =>
    rw [find_eq, find_eq, hn]
    cases h.next? id with
    | none => rfl
    | some next =>
      simp only
      split
      · exact ih next ‹_›
      · rfl

/-- What is seen of a heap rests on its arena alone. -/
theorem find_of_nodes {h h' : Heap} (hn : h'.nodes = h.nodes) (id : EntityId) :
    h'.find id = h.find id := find_congr (fun id => by simp only [next?, hn]) id

theorem entity_of_nodes {h h' : Heap} (hn : h'.nodes = h.nodes) (id : EntityId) :
    h'.entity id = h.entity id := by
  rw [entity_eq, entity_eq, find_of_nodes hn]
  simp only [live?, hn]

theorem field?_of_nodes {h h' : Heap} (hn : h'.nodes = h.nodes) (id : EntityId)
    (key : FieldName) : h'.field? id key = h.field? id key := by
  unfold field?
  rw [entity_of_nodes hn, funext (find_of_nodes hn)]

/-! Writing to the arena. -/

@[simp]
theorem size_update (h : Heap) (id : EntityId) (f : Entity → Entity) :
    (h.update id f).size = h.size := by simp [update, size]

@[simp]
theorem live?_note (h : Heap) (id j : EntityId) : (h.note id).live? j = h.live? j := rfl

@[simp]
theorem next?_note (h : Heap) (id j : EntityId) : (h.note id).next? j = h.next? j := rfl

@[simp]
theorem find_note (h : Heap) (id j : EntityId) : (h.note id).find j = h.find j :=
  find_congr (next?_note h id) j

theorem live?_update (h : Heap) (id : EntityId) (f : Entity → Entity) (j : EntityId) :
    (h.update id f).live? j = if h.find id = j then (h.live? j).map f else h.live? j := by
  simp only [live?, update, Array.getElem?_modify]
  by_cases hj : h.find id = j
  · simp only [hj, ↓reduceIte]
    cases h.nodes[j]? with
    | none => rfl
    | some n => cases n <;> rfl
  · simp only [hj, ↓reduceIte]

@[simp]
theorem next?_update (h : Heap) (id : EntityId) (f : Entity → Entity) (j : EntityId) :
    (h.update id f).next? j = h.next? j := by
  simp only [next?, update, Array.getElem?_modify]
  by_cases hj : h.find id = j
  · simp only [hj, ↓reduceIte]
    cases h.nodes[j]? with
    | none => rfl
    | some n => cases n <;> rfl
  · simp only [hj, ↓reduceIte]

@[simp]
theorem find_update (h : Heap) (id : EntityId) (f : Entity → Entity) (j : EntityId) :
    (h.update id f).find j = h.find j := find_congr (fun _ => next?_update h id f _) j

theorem live?_update_of_ne {h : Heap} {id : EntityId} (f : Entity → Entity) {j : EntityId}
    (hj : h.find id ≠ j) : (h.update id f).live? j = h.live? j := by
  rw [live?_update, if_neg hj]

theorem live?_update_self {h : Heap} {id : EntityId} {e : Entity} (f : Entity → Entity)
    (he : h.live? id = some e) : (h.update id f).live? id = some (f e) := by
  rw [live?_update, if_pos (find_of_live? he), he]
  rfl

theorem entity_note (h : Heap) (id j : EntityId) : (h.note id).entity j = h.entity j := by
  rw [entity_eq, entity_eq, find_note, live?_note]

theorem entity_update_of_ne {h : Heap} {id : EntityId} (f : Entity → Entity) {j : EntityId}
    (hj : h.find id ≠ h.find j) : (h.update id f).entity j = h.entity j := by
  rw [entity_eq, entity_eq, find_update, live?_update_of_ne f hj]

theorem Descending.entity_update_self {h : Heap} (hd : h.Descending) {id : EntityId}
    (hid : id < h.size) (f : Entity → Entity) {j : EntityId} (hj : h.find id = h.find j) :
    (h.update id f).entity j = f (h.entity j) := by
  rw [entity_eq, find_update, live?_update, if_pos hj, ← hj, hd.live?_entity hid,
    entity_congr hj]
  rfl

@[simp]
theorem size_create (h : Heap) (origin : Option Origin) :
    (h.create origin).2.size = h.size + 1 := by
  simp [create, size]

theorem live?_create (h : Heap) (origin : Option Origin) (j : EntityId) :
    (h.create origin).2.live? j = if j = h.size then some { origin } else h.live? j := by
  simp only [live?, create, Array.getElem?_push, size]
  by_cases hj : j = h.nodes.size <;> simp [hj]

@[simp]
theorem next?_create (h : Heap) (origin : Option Origin) (j : EntityId) :
    (h.create origin).2.next? j = h.next? j := by
  simp only [next?, create, Array.getElem?_push]
  by_cases hj : j = h.nodes.size <;> simp [hj]

@[simp]
theorem find_create (h : Heap) (origin : Option Origin) (j : EntityId) :
    (h.create origin).2.find j = h.find j := find_congr (fun _ => next?_create h origin _) j

theorem live?_create_of_some {h : Heap} (origin : Option Origin) {j : EntityId} {e : Entity}
    (he : h.live? j = some e) : (h.create origin).2.live? j = some e := by
  rw [live?_create, if_neg (Nat.ne_of_lt (lt_size_of_live? he)), he]

@[simp]
theorem size_forward (h : Heap) (id next : EntityId) : (h.forward id next).size = h.size := by
  simp [forward, size]

theorem live?_forward {h : Heap} {id next : EntityId} (j : EntityId) :
    (h.forward id next).live? j = if id = j then none else h.live? j := by
  unfold live? forward
  rw [Array.getElem?_setIfInBounds]
  by_cases hj : id = j
  · subst hj
    by_cases hlt : id < h.nodes.size <;> simp [hlt]
  · simp [hj]

theorem next?_forward {h : Heap} {id next : EntityId} (hid : id < h.size) (j : EntityId) :
    (h.forward id next).next? j = if id = j then some next else h.next? j := by
  unfold next? forward
  rw [Array.getElem?_setIfInBounds]
  by_cases hj : id = j
  · subst hj
    simp only [size] at hid
    simp [hid]
  · simp [hj]

/-- Forwarding one live entity to another redirects exactly the ids that stood for it. -/
theorem find_forward {h : Heap} {x y : EntityId} {ex ey : Entity} (hx : h.live? x = some ex)
    (hy : h.live? y = some ey) (hlt : x < y) (id : EntityId) :
    (h.forward y x).find id = if h.find id = y then x else h.find id := by
  have hyn := lt_size_of_live? hy
  induction id using Nat.strongRecOn with
  | ind id ih =>
    by_cases hid : y = id
    · subst hid
      have hstep : (h.forward y x).next? y = some x := by simp [next?_forward hyn]
      have hxn : (h.forward y x).next? x = none := by
        rw [next?_forward hyn, if_neg (Nat.ne_of_gt hlt), next?_of_live? hx]
      rw [find_of_next? hstep hlt, find_of_next?_none hxn, find_of_live? hy, if_pos rfl]
    · rw [find_eq, find_eq h, next?_forward hyn, if_neg hid]
      cases hn : h.next? id with
      | none =>
        have hne : ¬id = y := fun he => hid he.symm
        simp [hne]
      | some next =>
        simp only
        split
        · exact ih next ‹_›
        · have hne : ¬id = y := fun he => hid he.symm
          simp [hne]

theorem Descending.update {h : Heap} (hd : h.Descending) (id : EntityId) (f : Entity → Entity) :
    (h.update id f).Descending := fun j next hn => hd j next (by simpa using hn)

theorem Descending.create {h : Heap} (hd : h.Descending) (origin : Option Origin) :
    (h.create origin).2.Descending := fun j next hn => hd j next (by simpa using hn)

theorem Descending.forward {h : Heap} (hd : h.Descending) {id next : EntityId}
    (hid : id < h.size) (hlt : next < id) : (h.forward id next).Descending := by
  intro j n hn
  rw [next?_forward hid] at hn
  split at hn
  · cases hn
    subst j
    exact hlt
  · exact hd j n hn

end Heap

end SinkTrace
