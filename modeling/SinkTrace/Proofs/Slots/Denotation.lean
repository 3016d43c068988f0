import SinkTrace.Proofs.Slots.LazyLoads

/-!
Slots as sets of entities. A slot denotes the entities at the ends of its accesses, an opaque one
none. Materializing a slot gives that set, and the union of two slots denotes the union of their
sets, whichever of its cases is taken and although it may overwrite its operands. Sets are compared
in one heap, which may be a later one than those in which the slots were materialized: running a
load can add entities, and what was found before is looked up again.
-/

namespace SinkTrace.Store

variable {s s' t : Store} {id a b : SlotId} {e : EntityId} {es : List EntityId}
  {loads : List PendingLoad} {h : Heap} {x : Slot}

/-! Materializing again. -/

theorem distinct_idem (h : Heap) (es : List EntityId) :
    distinct h (distinct h es) = distinct h es := by
  have hlive : ∀ e ∈ distinct h es, h.find e = id e := by
    intro e he
    obtain ⟨x, -, rfl⟩ := mem_distinct.mp he
    exact Heap.find_find h x
  calc distinct h (distinct h es)
      = IdSet.distinct ((distinct h es).map h.find) := rfl
    _ = IdSet.distinct (distinct h es) := by rw [List.map_congr_left hlive, List.map_id]
    _ = distinct h es := IdSet.distinct_distinct _

theorem materialize_materialize (s : Store) (id : SlotId) :
    (s.materialize id).2.materialize id = s.materialize id := by
  cases hx : s.slot id with
  | fake | constant =>
    have hopaque : (s.slot id).isOpaque = true := by
      rw [hx]
      rfl
    rw [materialize_of_isOpaque hopaque, materialize_of_isOpaque hopaque]
  | values es => rw [materialize_of_values hx, materialize_of_values hx]
  | pending loads =>
    have hes : ∃ found, (s.materialize id).1 = distinct (s.materialize id).2.heap found := by
      rw [materialize, hx]
      exact ⟨_, rfl⟩
    obtain ⟨found, hfound⟩ := hes
    rw [materialize_of_values (slot_materialize hx), hfound, distinct_idem, ← hfound]

/-! Materializing the bases of loads as the slots that they are. -/

/-- One pending load, from what materializing its base gives. -/
def runLoadFrom (base : Store → SlotId → Option (List EntityId × Store))
    (state : List EntityId × Store) (l : PendingLoad) : Option (List EntityId × Store) := do
  let (starts, s) ← base state.2 l.base
  let (more, heap) := starts.foldl (followPath l.path) ([], s.heap)
  return (state.1 ++ more, { s with heap })

/-- Materializes a slot, and for that the bases of its loads, and for those the bases of theirs.
Fails where that goes `depth` slots down. -/
def materializeWithin : Nat → Store → SlotId → Option (List EntityId × Store)
  | 0, _, _ => none
  | depth + 1, s, id =>
    match s.slot id with
    | .fake | .constant => some ([], s)
    | .values es => some (distinct s.heap es, s)
    | .pending loads => do
      let (found, s) ← loads.foldlM (runLoadFrom (materializeWithin depth)) ([], s)
      let es := distinct s.heap found
      return (es, s.setSlot id (.values es))

theorem materializeWithin_of_isMaterialized (depth : Nat)
    (h : (s.slot id).isMaterialized = true) :
    materializeWithin (depth + 1) s id = some (s.baseValues id, s) := by
  rw [materializeWithin, baseValues, slot_of_isMaterialized h]

/-- Running loads overwrites no slot, so the bases that hold entities go on holding them. -/
theorem foldlM_runLoadFrom (depth : Nat) {loads : List PendingLoad}
    (hl : ∀ l ∈ loads, (s.slot l.base).isMaterialized = true) {state : List EntityId × Store}
    (hslots : state.2.slots = s.slots) :
    loads.foldlM (runLoadFrom (materializeWithin (depth + 1))) state =
      some (loads.foldl runLoad state) := by
  induction loads generalizing state with
  | nil => rfl
  | cons l loads ih =>
    obtain ⟨hfirst, hrest⟩ := List.forall_mem_cons.mp hl
    have hslot : state.2.slot l.base = s.slot l.base := by rw [slot, hslots, slot]
    have hone : runLoadFrom (materializeWithin (depth + 1)) state l = some (runLoad state l) := by
      rw [runLoadFrom, materializeWithin_of_isMaterialized depth (hslot ▸ hfirst)]
      rfl
    rw [List.foldlM_cons, hone, List.foldl_cons]
    exact ih hrest hslots

/-- A load starts from entities, so two levels are enough. -/
theorem Sound.materializeWithin_eq (hs : s.Sound) {depth : Nat} (hd : 2 ≤ depth) (id : SlotId) :
    materializeWithin depth s id = some (s.materialize id) := by
  obtain ⟨depth, rfl⟩ := Nat.exists_eq_add_of_le' hd
  have hfits := hs.fits id
  cases hx : s.slot id with
  | fake | constant | values es =>
    rw [materializeWithin, Store.materialize, hx]
  | pending loads =>
    rw [hx] at hfits
    have hbases : ∀ l ∈ loads, (s.slot l.base).isMaterialized = true := fun l hl =>
      (hfits.2 l hl).2
    have hrun : loads.foldlM (runLoadFrom (materializeWithin (depth + 1))) ([], s) = _ :=
      foldlM_runLoadFrom depth hbases rfl
    rw [materializeWithin, Store.materialize, hx]
    simp only [hrun]
    rfl

/-! What slots denote. -/

/-- In the heap, the entity is one that the slot stands for. -/
def Denotes (s : Store) (id : SlotId) (h : Heap) (e : EntityId) : Prop :=
  ∃ a ∈ s.accesses id, a.end? h = some e

theorem not_denotes_of_isOpaque (hid : (s.slot id).isOpaque = true) : ¬s.Denotes id h e := by
  rintro ⟨a, ha, -⟩
  rw [accesses_of_isOpaque hid] at ha
  cases ha

/-- Entities that were found when a slot was materialized, as they are called later. -/
theorem Sound.denotes_iff (hs : s.Sound) (hg : (s.materialize id).2.heap.Grows h) :
    (∃ x ∈ (s.materialize id).1, h.find x = e) ↔ s.Denotes id h e := by
  have hall := hs.gathers_materialize id
  constructor
  · rintro ⟨x, hx, rfl⟩
    obtain ⟨a, ha, hend⟩ := hall.only x hx
    exact ⟨a, ha, (hg.follow? hend).trans (congrArg some (hg.find x))⟩
  · rintro ⟨a, ha, hend⟩
    obtain ⟨x, hx, hend'⟩ := hall.reached a ha
    have hlater := (hg.follow? hend').trans (congrArg some (hg.find x))
    exact ⟨x, hx, Option.some.inj (hlater.symm.trans hend)⟩

/-- What is left of the accesses of a slot leads to the same entities. -/
theorem Evolves.denotes_iff (he : Evolves s s') (hg : s'.heap.Grows h)
    (hid : (s'.slot id).isOpaque = (s.slot id).isOpaque) :
    s'.Denotes id h e ↔ s.Denotes id h e := by
  cases hx : (s.slot id).isOpaque with
  | true =>
    exact iff_of_false (not_denotes_of_isOpaque (hid.trans hx)) (not_denotes_of_isOpaque hx)
  | false =>
    constructor
    · rintro ⟨b, hb, hend⟩
      obtain ⟨a, ha, hrest⟩ := he.traced hx hb
      exact ⟨a, ha, (hrest.grows hg).end?_eq.trans hend⟩
    · rintro ⟨a, ha, hend⟩
      obtain ⟨b, hb, hrest⟩ := he.kept ha
      exact ⟨b, hb, (hrest.grows hg).end?_eq.symm.trans hend⟩

theorem isOpaque_materialize (s : Store) (id j : SlotId) :
    ((s.materialize id).2.slot j).isOpaque = (s.slot j).isOpaque := by
  cases hx : s.slot id with
  | fake | constant => rw [materialize_of_isOpaque (by rw [hx]; rfl)]
  | values es => rw [materialize_of_values hx]
  | pending loads =>
    by_cases hj : j = id
    · rw [hj, slot_materialize hx, hx]
      rfl
    · have hslots := slots_runLoads ([], s) loads
      rw [materialize, hx]
      simp only [slot_setSlot, hj, false_and, if_false]
      rw [slot, hslots, slot]

/-! The union of slots. -/

theorem denotes_of_values (hx : s.slot id = .values es) :
    s.Denotes id h e ↔ ∃ x ∈ es, h.find x = e := by
  simp [Denotes, accesses_of_values hx, Access.end?, Heap.follow?]

theorem denotes_of_pending (hx : s.slot id = .pending loads) :
    s.Denotes id h e ↔
      ∃ l ∈ loads, ∃ x ∈ s.entities l.base, (Access.mk x l.path).end? h = some e := by
  rw [Denotes, accesses, hx]
  constructor
  · rintro ⟨a, ha, hend⟩
    obtain ⟨l, hl, x, hx, rfl⟩ := mem_accessesOf_pending.mp ha
    exact ⟨l, hl, x, hx, hend⟩
  · rintro ⟨l, hl, x, hx, hend⟩
    exact ⟨_, mem_accessesOf_pending.mpr ⟨l, hl, x, hx, rfl⟩, hend⟩

theorem exists_mem_append {α : Type} {xs ys : List α} {p : α → Prop} :
    (∃ x ∈ xs ++ ys, p x) ↔ (∃ x ∈ xs, p x) ∨ ∃ y ∈ ys, p y := by
  simp only [List.mem_append, or_and_right, exists_or]

/-- The entities are looked up when the slot is made, and once more in the later heap. -/
theorem denotes_alloc_distinct (hg : s.heap.Grows h) (es : List EntityId) :
    (s.alloc (.values (distinct s.heap es))).2.Denotes
      (s.alloc (.values (distinct s.heap es))).1 h e ↔ ∃ x ∈ es, h.find x = e := by
  rw [denotes_of_values (slot_alloc_self _ _)]
  constructor
  · rintro ⟨e', he', rfl⟩
    obtain ⟨x, hx, rfl⟩ := mem_distinct.mp he'
    exact ⟨x, hx, (hg.find x).symm⟩
  · rintro ⟨x, hx, rfl⟩
    exact ⟨_, mem_distinct.mpr ⟨x, hx, rfl⟩, hg.find x⟩

/-- Loads that are joined start from slots that are older than the new one. -/
theorem Sound.denotes_alloc_pending (hs : s.Sound) {xs ys : List PendingLoad}
    (ha : s.slot a = .pending xs) (hb : s.slot b = .pending ys) :
    (s.alloc (.pending (ys.foldl addNew xs))).2.Denotes
      (s.alloc (.pending (ys.foldl addNew xs))).1 h e ↔ s.Denotes a h e ∨ s.Denotes b h e := by
  have hold : ∀ l ∈ xs ++ ys,
      (s.alloc (.pending (ys.foldl addNew xs))).2.entities l.base = s.entities l.base := by
    intro l hl
    have hfa := hs.fits a
    have hfb := hs.fits b
    rw [ha] at hfa
    rw [hb] at hfb
    have hbase : l.base < s.slots.size := by
      rcases List.mem_append.mp hl with hl | hl
      · exact Nat.lt_trans (hfa.2 l hl).1 (lt_size_of_symbolic (by rw [ha]; rfl))
      · exact Nat.lt_trans (hfb.2 l hl).1 (lt_size_of_symbolic (by rw [hb]; rfl))
    rw [entities, slot_alloc, if_neg (Nat.ne_of_lt hbase), entities]
  rw [denotes_of_pending (slot_alloc_self _ _), denotes_of_pending ha, denotes_of_pending hb,
    ← exists_mem_append]
  refine exists_congr fun l => ?_
  rw [mem_foldl_addNew, ← List.mem_append]
  exact and_congr_right fun hl => by rw [hold l hl]

/-- The ways in which two slots are joined. -/
inductive Joins (s : Store) (a b : SlotId) : SlotId × Store → Prop where
  | left (h : a = b ∨ (s.slot b).isOpaque = true) : Joins s a b (a, s)
  | right (ha : (s.slot a).isOpaque = true) : Joins s a b (b, s)
  | values {xs ys : List EntityId} (ha : s.slot a = .values xs) (hb : s.slot b = .values ys) :
    Joins s a b (s.alloc (.values (distinct s.heap (xs ++ ys))))
  | pending {xs ys : List PendingLoad} (ha : s.slot a = .pending xs) (hb : s.slot b = .pending ys) :
    Joins s a b (s.alloc (.pending (ys.foldl addNew xs)))
  | materialized (ha : (s.slot a).isOpaque = false) (hb : (s.slot b).isOpaque = false) :
    Joins s a b (((s.materialize a).2.materialize b).2.alloc (.values
      (distinct ((s.materialize a).2.materialize b).2.heap
        ((s.materialize a).1 ++ ((s.materialize a).2.materialize b).1))))

theorem joins_union (s : Store) (a b : SlotId) : Joins s a b (s.union a b) := by
  unfold Store.union
  split
  · rename_i hab
    exact .left (.inl hab)
  · cases ha : s.slot a with
    | fake | constant =>
      cases hb : s.slot b with
      | fake | constant => exact .left (.inr (by rw [hb]; rfl))
      | values | pending => exact .right (by rw [ha]; rfl)
    | values xs =>
      cases hb : s.slot b with
      | fake | constant => exact .left (.inr (by rw [hb]; rfl))
      | values ys => exact .values ha hb
      | pending ys => exact .materialized (by rw [ha]; rfl) (by rw [hb]; rfl)
    | pending xs =>
      cases hb : s.slot b with
      | fake | constant => exact .left (.inr (by rw [hb]; rfl))
      | values ys => exact .materialized (by rw [ha]; rfl) (by rw [hb]; rfl)
      | pending ys => exact .pending ha hb

/-- The slot of the union denotes it from then on. -/
theorem Sound.denotes_union (hs : s.Sound) (hg : (s.union a b).2.heap.Grows h) :
    (s.union a b).2.Denotes (s.union a b).1 h e ↔ s.Denotes a h e ∨ s.Denotes b h e := by
  have hnone : ∀ {j}, (s.slot j).isOpaque = true → ¬s.Denotes j h e := not_denotes_of_isOpaque
  have hjoin := joins_union s a b
  generalize s.union a b = joined at hg hjoin ⊢
  cases hjoin with
  | left hab =>
    rcases hab with rfl | hb
    · exact (or_self_iff).symm
    · exact (or_iff_left (hnone hb)).symm
  | right ha => exact (or_iff_right (hnone ha)).symm
  | values ha hb =>
    rw [denotes_alloc_distinct (s := s) hg, exists_mem_append, denotes_of_values ha,
      denotes_of_values hb]
  | pending ha hb => exact hs.denotes_alloc_pending ha hb
  | materialized ha hb =>
    have hfirst := hs.materialize a
    have hlater := (hfirst.sound.materialize b).grows.trans hg
    rw [denotes_alloc_distinct (s := ((s.materialize a).2.materialize b).2) hg, exists_mem_append,
      hs.denotes_iff hlater,
      hfirst.sound.denotes_iff hg, hfirst.denotes_iff hlater (isOpaque_materialize s a b)]

theorem isOpaque_union (hs : s.Sound) (id : SlotId) (hid : id = a ∨ id = b) :
    ((s.union a b).2.slot id).isOpaque = (s.slot id).isOpaque := by
  have he := hs.union a b
  cases hx : (s.slot id).isOpaque with
  | false => exact he.symbolic hx
  | true =>
    -- the other operand is the union, or there is none to be made
    have hjoin := joins_union s a b
    generalize s.union a b = joined at hjoin
    cases hjoin with
    | left | right => exact hx
    | values ha hb | pending ha hb =>
      rcases hid with rfl | rfl
      · rw [ha] at hx
        cases hx
      · rw [hb] at hx
        cases hx
    | materialized ha hb =>
      rcases hid with rfl | rfl
      · cases ha.symm.trans hx
      · cases hb.symm.trans hx

/-! Materializing in turn. -/

/-- Nothing is done but materializing slots. -/
def Materializes : Store → Store → Prop :=
  Relation.ReflTransGen fun s s' => ∃ id, s' = (s.materialize id).2

/-- On the way to `s'` the slot is materialized, with this result. -/
def Yields (s : Store) (id : SlotId) (es : List EntityId) (s' : Store) : Prop :=
  ∃ t, Materializes s t ∧ es = (t.materialize id).1 ∧ Materializes (t.materialize id).2 s'

theorem Materializes.evolves (hm : Materializes s s') (hs : s.Sound) : Evolves s s' := by
  induction hm with
  | refl => exact .refl hs
  | tail _ hstep ih =>
    obtain ⟨id, rfl⟩ := hstep
    exact ih.trans (ih.sound.materialize id)

theorem Materializes.isOpaque (hm : Materializes s s') (id : SlotId) :
    (s'.slot id).isOpaque = (s.slot id).isOpaque := by
  induction hm with
  | refl => rfl
  | tail _ hstep ih =>
    obtain ⟨j, rfl⟩ := hstep
    exact (isOpaque_materialize _ j id).trans ih

theorem Yields.evolves (hy : s.Yields id es s') (hs : s.Sound) : Evolves s s' := by
  obtain ⟨t, hbefore, -, hafter⟩ := hy
  have ht := hbefore.evolves hs
  have hone := ht.sound.materialize id
  exact ht.trans (hone.trans (hafter.evolves hone.sound))

theorem Yields.denotes_iff (hy : s.Yields id es s') (hs : s.Sound) :
    (∃ x ∈ es, s'.heap.find x = e) ↔ s.Denotes id s'.heap e := by
  obtain ⟨t, hbefore, rfl, hafter⟩ := hy
  have ht := hbefore.evolves hs
  have hlater := (hafter.evolves (ht.sound.materialize id).sound).grows
  rw [ht.sound.denotes_iff hlater,
    ht.denotes_iff ((ht.sound.materialize id).grows.trans hlater) (hbefore.isOpaque id)]

/-- In every store that a run can build, loads start from entities in older slots, so materializing
ends; opaque slots give nothing, and what a slot gives it gives again. Materialized after `a` and
`b` were joined, in whatever order, their union gives what the two of them give together. -/
theorem slots_are_sets (hr : s.Reachable) :
    (∀ id loads, s.slot id = .pending loads →
      ∀ l ∈ loads, l.base < id ∧ ∃ es, s.slot l.base = .values es) ∧
    (∀ depth id, 2 ≤ depth → materializeWithin depth s id = some (s.materialize id)) ∧
    (∀ id, (s.slot id).isOpaque = true → (s.materialize id).1 = []) ∧
    (∀ id, (s.materialize id).2.materialize id = s.materialize id) ∧
    ∀ a b es xs ys s', (s.union a b).2.Yields (s.union a b).1 es s' →
      (s.union a b).2.Yields a xs s' → (s.union a b).2.Yields b ys s' →
      ∀ e, (∃ x ∈ es, s'.heap.find x = e) ↔
        (∃ x ∈ xs, s'.heap.find x = e) ∨ ∃ y ∈ ys, s'.heap.find y = e := by
  have hs := hr.sound
  refine ⟨fun id loads hx l hl => ?_, fun depth id hd => hs.materializeWithin_eq hd id,
    fun id hid => by rw [materialize_of_isOpaque hid], materialize_materialize s, ?_⟩
  · have hfits := hs.fits id
    rw [hx] at hfits
    obtain ⟨hlt, hbase⟩ := hfits.2 l hl
    exact ⟨hlt, _, slot_of_isMaterialized hbase⟩
  · intro a b es xs ys s' hes hxs hys e
    have hjoined := hs.union a b
    have hgrows := (hes.evolves hjoined.sound).grows
    rw [hes.denotes_iff hjoined.sound, hxs.denotes_iff hjoined.sound, hys.denotes_iff hjoined.sound,
      hs.denotes_union hgrows, hjoined.denotes_iff hgrows (isOpaque_union hs a (.inl rfl)),
      hjoined.denotes_iff hgrows (isOpaque_union hs b (.inr rfl))]

/-- An entity is joined with the entity that a pending load from it leads to. The load is run for
that, and afterwards each of the three slots can be materialized at once. -/
theorem slots_are_sets_promised :
    promised.Reachable ∧
      let joined := (promised.union 0 1).2
      joined.Yields 2 [0, 2] joined ∧ joined.Yields 0 [0] joined ∧ joined.Yields 1 [2] joined ∧
      ∀ e, (∃ x ∈ [0, 2], joined.heap.find x = e) ↔
        (∃ x ∈ [0], joined.heap.find x = e) ∨ ∃ y ∈ [2], joined.heap.find y = e := by
  refine ⟨reachable_promised, ?_⟩
  intro joined
  have hunion : joined.Yields 2 [0, 2] joined := ⟨joined, .refl, by decide +kernel, .refl⟩
  have hentity : joined.Yields 0 [0] joined := ⟨joined, .refl, by decide +kernel, .refl⟩
  have hload : joined.Yields 1 [2] joined := ⟨joined, .refl, by decide +kernel, .refl⟩
  obtain ⟨-, -, -, -, hsets⟩ := slots_are_sets reachable_promised
  exact ⟨hunion, hentity, hload, hsets 0 1 _ _ _ _ hunion hentity hload⟩

end SinkTrace.Store
