import SinkTrace.Proofs.Slots.Accesses

/-!
Work on slots keeps what they denote. A slot that holds something symbolic goes on to stand for the
accesses it stood for, or for the rest of them, while slots are added and overwritten and the heap
grows.
-/

namespace SinkTrace

open Heap (Gathers)

namespace Store

/-- Entities that a slot lists. -/
def entities (s : Store) (id : SlotId) : List EntityId :=
  match s.slot id with
  | .values es => es
  | _ => []

/-- What a slot with this content denotes. -/
def accessesOf (s : Store) : Slot → List Access
  | .fake | .constant => []
  | .values es => es.map (Access.mk · [])
  | .pending loads => loads.flatMap fun l => (s.entities l.base).map (Access.mk · l.path)

def accesses (s : Store) (id : SlotId) : List Access := s.accessesOf (s.slot id)

/-- What the slot `id` may contain: ids of the heap, or loads from entities in earlier slots. -/
def Fits (s : Store) (id : SlotId) : Slot → Prop
  | .fake | .constant => True
  | .values es => es ≠ [] ∧ ∀ e ∈ es, e < s.heap.size
  | .pending loads => loads ≠ [] ∧
    ∀ l ∈ loads, l.base < id ∧ (s.slot l.base).isMaterialized = true

structure Sound (s : Store) : Prop where
  heap : s.heap.Proper
  fits : ∀ id, s.Fits id (s.slot id)

/-- Nothing that a slot of `s` denotes is lost in `s'`, and nothing is added to it. -/
structure Evolves (s s' : Store) : Prop where
  sound : s'.Sound
  grows : s.heap.Grows s'.heap
  symbolic : ∀ {id}, (s.slot id).isOpaque = false → (s'.slot id).isOpaque = false
  kept : ∀ {id a}, a ∈ s.accesses id → ∃ b ∈ s'.accesses id, a.Rest s'.heap b
  traced : ∀ {id b}, (s.slot id).isOpaque = false → b ∈ s'.accesses id →
    ∃ a ∈ s.accesses id, a.Rest s'.heap b

variable {s s' s'' : Store} {id base : SlotId} {a b : Access} {es : List EntityId}
  {loads : List PendingLoad} {x : Slot}

theorem Evolves.refl (hs : s.Sound) : Evolves s s where
  sound := hs
  grows := .refl _
  symbolic := id
  kept hm := ⟨_, hm, .refl _ _⟩
  traced _ hm := ⟨_, hm, .refl _ _⟩

theorem Evolves.trans (h : Evolves s s') (h' : Evolves s' s'') : Evolves s s'' where
  sound := h'.sound
  grows := h.grows.trans h'.grows
  symbolic hid := h'.symbolic (h.symbolic hid)
  kept hm := by
    obtain ⟨b, hb, hab⟩ := h.kept hm
    obtain ⟨c, hc, hbc⟩ := h'.kept hb
    exact ⟨c, hc, (hab.grows h'.grows).trans hbc⟩
  traced hid hm := by
    obtain ⟨b, hb, hbc⟩ := h'.traced (h.symbolic hid) hm
    obtain ⟨a, ha, hab⟩ := h.traced hid hb
    exact ⟨a, ha, (hab.grows h'.grows).trans hbc⟩

/-! What is in a slot. -/

theorem entities_of_values (h : s.slot id = .values es) : s.entities id = es := by
  rw [entities, h]

theorem accesses_of_values (h : s.slot id = .values es) :
    s.accesses id = es.map (Access.mk · []) := by
  rw [accesses, h, accessesOf]

theorem accesses_of_isOpaque (h : (s.slot id).isOpaque = true) : s.accesses id = [] := by
  unfold accesses
  cases hx : s.slot id <;> simp_all [Slot.isOpaque, accessesOf]

theorem mem_accessesOf_pending : a ∈ s.accessesOf (.pending loads) ↔
    ∃ l ∈ loads, ∃ e ∈ s.entities l.base, a = ⟨e, l.path⟩ := by
  simp [accessesOf, eq_comm]

theorem mem_entities_iff {e : EntityId} :
    e ∈ s.entities id ↔ ∃ es, s.slot id = .values es ∧ e ∈ es := by
  unfold entities
  cases s.slot id <;> simp

theorem slot_of_isMaterialized (h : (s.slot id).isMaterialized = true) :
    s.slot id = .values (s.entities id) := by
  unfold entities
  cases hx : s.slot id <;> simp_all [Slot.isMaterialized]

theorem slot_of_size_le (h : s.slots.size ≤ id) : s.slot id = .fake := by
  simp [slot, Array.getElem?_eq_none h]

theorem Sound.entity_lt (hs : s.Sound) {e : EntityId} (he : e ∈ s.entities id) :
    e < s.heap.size := by
  obtain ⟨es, hx, hm⟩ := mem_entities_iff.mp he
  have hfits := hs.fits id
  rw [hx] at hfits
  exact hfits.2 e hm

theorem Sound.start_lt (hs : s.Sound) (ha : a ∈ s.accesses id) : a.start < s.heap.size := by
  unfold accesses at ha
  cases hx : s.slot id with
  | fake | constant => simp [hx, accessesOf] at ha
  | values es =>
    rw [hx] at ha
    obtain ⟨e, he, rfl⟩ := List.mem_map.mp ha
    exact hs.entity_lt (mem_entities_iff.mpr ⟨es, hx, he⟩)
  | pending loads =>
    rw [hx] at ha
    obtain ⟨l, -, e, he, rfl⟩ := mem_accessesOf_pending.mp ha
    exact hs.entity_lt he

/-- A slot is opaque, or there is something that it denotes. -/
theorem Sound.exists_access (hs : s.Sound) (hid : (s.slot id).isOpaque = false) :
    ∃ a, a ∈ s.accesses id := by
  have hfits := hs.fits id
  unfold accesses
  cases hx : s.slot id with
  | fake | constant => simp [hx, Slot.isOpaque] at hid
  | values es =>
    rw [hx] at hfits
    obtain ⟨e, he⟩ := List.exists_mem_of_ne_nil es hfits.1
    exact ⟨_, List.mem_map_of_mem he⟩
  | pending loads =>
    rw [hx] at hfits
    obtain ⟨l, hl⟩ := List.exists_mem_of_ne_nil loads hfits.1
    have hbase := slot_of_isMaterialized (hfits.2 l hl).2
    have hvalues := hs.fits l.base
    rw [hbase] at hvalues
    obtain ⟨e, he⟩ := List.exists_mem_of_ne_nil _ hvalues.1
    exact ⟨_, mem_accessesOf_pending.mpr ⟨l, hl, e, he, rfl⟩⟩

/-- What fits goes on to fit where slots with entities keep having some. -/
theorem Fits.mono (hf : s.Fits id x) (hsize : s.heap.size ≤ s'.heap.size)
    (hm : ∀ j, (s.slot j).isMaterialized = true → (s'.slot j).isMaterialized = true) :
    s'.Fits id x := by
  cases x with
  | fake | constant => trivial
  | values es => exact ⟨hf.1, fun e he => Nat.lt_of_lt_of_le (hf.2 e he) hsize⟩
  | pending loads => exact ⟨hf.1, fun l hl => ⟨(hf.2 l hl).1, hm _ (hf.2 l hl).2⟩⟩

/-! A heap that grows. -/

theorem Sound.withHeap (hs : s.Sound) {h : Heap} (he : s.heap.Evolves h) :
    Evolves s { s with heap := h } where
  sound := ⟨he.proper, fun j => (hs.fits j).mono he.grows.size fun _ hm => hm⟩
  grows := he.grows
  symbolic := id
  kept hm := ⟨_, hm, .refl _ _⟩
  traced _ hm := ⟨_, hm, .refl _ _⟩

/-! Slots that are added or overwritten. -/

/-- `x` can be put where nothing symbolic is, and entities can be put in place of the accesses
that lead to them. -/
def Refill (s : Store) (id : SlotId) (x : Slot) : Prop :=
  s.Fits id x ∧ ((s.slot id).isOpaque = true ∨ ∃ es, x = .values es ∧
    (∀ a ∈ s.accesses id, ∃ e ∈ es, a.Rest s.heap ⟨e, []⟩) ∧
    ∀ e ∈ es, ∃ a ∈ s.accesses id, a.Rest s.heap ⟨e, []⟩)

/-- Slots are as they were or refilled. -/
structure Refills (s s' : Store) : Prop where
  heap : s'.heap = s.heap
  slot : ∀ j, s'.slot j = s.slot j ∨ s.Refill j (s'.slot j)

theorem Refills.isMaterialized (hr : Refills s s') {j : SlotId}
    (hj : (s.slot j).isMaterialized = true) : (s'.slot j).isMaterialized = true := by
  rcases hr.slot j with he | ⟨-, hop | ⟨es, he, -⟩⟩
  · rwa [he]
  · rw [slot_of_isMaterialized hj] at hop
    cases hop
  · rw [he]
    rfl

theorem Refills.entities_kept (hr : Refills s s') {j : SlotId} {e : EntityId}
    (he : e ∈ s.entities j) : ∃ e' ∈ s'.entities j, s.heap.find e = s.heap.find e' := by
  obtain ⟨old, hold, hm⟩ := mem_entities_iff.mp he
  rcases hr.slot j with hj | ⟨-, hop | ⟨es, hj, hkept, -⟩⟩
  · exact ⟨e, by rwa [entities, hj], rfl⟩
  · rw [hold] at hop
    cases hop
  · obtain ⟨e', he', hrest⟩ := hkept ⟨e, []⟩ (accesses_of_values hold ▸ List.mem_map_of_mem hm)
    rw [entities_of_values hj]
    exact ⟨e', he', Option.some.inj (Access.rest_entity.mp hrest)⟩

theorem Refills.entities_traced (hr : Refills s s') {j : SlotId} {e : EntityId}
    (hj : (s.slot j).isMaterialized = true) (he : e ∈ s'.entities j) :
    ∃ e' ∈ s.entities j, s.heap.find e' = s.heap.find e := by
  have hold := slot_of_isMaterialized hj
  rcases hr.slot j with hsame | ⟨-, hop | ⟨es, hnew, -, htraced⟩⟩
  · rw [entities, hsame] at he
    exact ⟨e, he, rfl⟩
  · rw [hold] at hop
    cases hop
  · rw [entities_of_values hnew] at he
    obtain ⟨a, ha, hrest⟩ := htraced e he
    rw [accesses_of_values hold] at ha
    obtain ⟨e', he', rfl⟩ := List.mem_map.mp ha
    exact ⟨e', he', Option.some.inj (Access.rest_entity.mp hrest)⟩

/-- The same content denotes the same, whatever became of the slots that it loads from. -/
theorem Refills.accessesOf (hr : Refills s s') (hx : s.Fits id x) :
    (∀ a ∈ s.accessesOf x, ∃ b ∈ s'.accessesOf x, a.Rest s.heap b) ∧
      ∀ b ∈ s'.accessesOf x, ∃ a ∈ s.accessesOf x, a.Rest s.heap b := by
  cases x with
  | fake | constant => exact ⟨nofun, nofun⟩
  | values es => exact ⟨fun a ha => ⟨a, ha, .refl _ _⟩, fun b hb => ⟨b, hb, .refl _ _⟩⟩
  | pending loads =>
    refine ⟨fun a ha => ?_, fun b hb => ?_⟩
    · obtain ⟨l, hl, e, he, rfl⟩ := mem_accessesOf_pending.mp ha
      obtain ⟨e', he', hf⟩ := hr.entities_kept he
      exact ⟨_, mem_accessesOf_pending.mpr ⟨l, hl, e', he', rfl⟩, Access.rest_of_find hf _⟩
    · obtain ⟨l, hl, e, he, rfl⟩ := mem_accessesOf_pending.mp hb
      obtain ⟨e', he', hf⟩ := hr.entities_traced (hx.2 l hl).2 he
      exact ⟨_, mem_accessesOf_pending.mpr ⟨l, hl, e', he', rfl⟩, Access.rest_of_find hf _⟩

theorem Refills.evolves (hr : Refills s s') (hs : s.Sound) : Evolves s s' := by
  have hsize : s.heap.size ≤ s'.heap.size := Nat.le_of_eq (congrArg Heap.size hr.heap.symm)
  refine ⟨⟨hr.heap ▸ hs.heap, fun j => ?_⟩, hr.heap ▸ .refl _, fun {j} hj => ?_,
    fun {j a} ha => ?_, fun {j b} hj hb => ?_⟩
  · rcases hr.slot j with he | hnew
    · exact he ▸ (hs.fits j).mono hsize fun _ => hr.isMaterialized
    · exact hnew.1.mono hsize fun _ => hr.isMaterialized
  · rcases hr.slot j with he | ⟨-, hop | ⟨es, he, -⟩⟩
    · rwa [he]
    · rw [hj] at hop
      cases hop
    · rw [he]
      rfl
  · rw [hr.heap]
    rcases hr.slot j with he | ⟨-, hop | ⟨es, he, hkept, -⟩⟩
    · rw [accesses, he]
      exact (hr.accessesOf (hs.fits j)).1 a ha
    · simp [accesses_of_isOpaque hop] at ha
    · obtain ⟨e, hm, hrest⟩ := hkept a ha
      exact ⟨_, accesses_of_values he ▸ List.mem_map_of_mem hm, hrest⟩
  · rw [hr.heap]
    rcases hr.slot j with he | ⟨-, hop | ⟨es, he, -, htraced⟩⟩
    · rw [accesses, he] at hb
      exact (hr.accessesOf (hs.fits j)).2 b hb
    · rw [hj] at hop
      cases hop
    · rw [accesses_of_values he] at hb
      obtain ⟨e, hm, rfl⟩ := List.mem_map.mp hb
      exact htraced e hm

theorem Sound.alloc (hs : s.Sound) (hx : s.Fits s.slots.size x) : Evolves s (s.alloc x).2 := by
  refine Refills.evolves ⟨rfl, fun j => ?_⟩ hs
  rw [slot_alloc]
  split
  · rename_i hj
    subst hj
    exact .inr ⟨hx, .inl (by rw [slot_of_size_le (Nat.le_refl _)]; rfl)⟩
  · exact .inl rfl

theorem slot_setSlot (s : Store) (id : SlotId) (x : Slot) (j : SlotId) :
    (s.setSlot id x).slot j = if j = id ∧ id < s.slots.size then x else s.slot j := by
  unfold setSlot slot
  simp only [Array.getElem?_setIfInBounds]
  by_cases hj : id = j
  · subst hj
    by_cases hlt : id < s.slots.size <;> simp [hlt]
  · simp [hj, Ne.symm hj]

theorem Sound.setSlot (hs : s.Sound) (hx : s.Refill id x) : Evolves s (s.setSlot id x) := by
  refine Refills.evolves ⟨rfl, fun j => ?_⟩ hs
  rw [slot_setSlot]
  split
  · rename_i hj
    exact .inr (hj.1 ▸ hx)
  · exact .inl rfl

end Store

end SinkTrace
