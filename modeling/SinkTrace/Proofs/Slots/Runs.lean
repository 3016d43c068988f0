import SinkTrace.Proofs.Slots.Evolution

/-!
Runs of a store: operations on slots, with operations on the heap between them. Every one of them
keeps what slots denote, and materializing a slot gives exactly the entities at the ends of its
accesses.
-/

namespace SinkTrace

open Heap (Gathers)

theorem Store.mem_distinct {h : Heap} {es : List EntityId} {e : EntityId} :
    e ∈ Store.distinct h es ↔ ∃ x ∈ es, h.find x = e := by
  rw [Store.distinct, IdSet.mem_distinct, List.mem_map]

/-- Each entity once is enough. -/
theorem Heap.Gathers.distinct {h grown : Heap} {as : List Access} {found : List EntityId}
    (hg : Gathers h as found grown) : Gathers h as (Store.distinct grown found) grown where
  starts := hg.starts
  evolves := hg.evolves
  redrawn := hg.redrawn
  lt e hm := by
    obtain ⟨x, hx, rfl⟩ := Store.mem_distinct.mp hm
    exact Heap.find_lt_size (hg.lt x hx)
  reached a ha := by
    obtain ⟨x, hx, hend⟩ := hg.reached a ha
    exact ⟨_, Store.mem_distinct.mpr ⟨x, hx, rfl⟩, by rw [hend, Heap.find_find]⟩
  only e hm := by
    obtain ⟨x, hx, rfl⟩ := Store.mem_distinct.mp hm
    obtain ⟨a, ha, hend⟩ := hg.only x hx
    exact ⟨a, ha, by rw [hend, Heap.find_find]⟩

namespace Store

variable {s s' s₀ : Store} {id a b base : SlotId} {e : EntityId} {loads : List PendingLoad}
  {as : List Access} {found : List EntityId}

/-! Materializing. -/

theorem baseValues_eq (s : Store) (base : SlotId) :
    s.baseValues base = distinct s.heap (s.entities base) := by
  unfold baseValues entities
  cases s.slot base <;> rfl

theorem entities_congr (h : s.slots = s'.slots) (id : SlotId) : s.entities id = s'.entities id := by
  rw [entities, entities, slot, slot, h]

/-- One pending load. -/
theorem Sound.gathers_runLoad (hs : s₀.Sound) (hslots : s.slots = s₀.slots)
    (hg : Gathers s₀.heap as found s.heap) (l : PendingLoad) :
    Gathers s₀.heap (as ++ (s₀.entities l.base).map (Access.mk · l.path))
      (runLoad (found, s) l).1 (runLoad (found, s) l).2.heap := by
  have hlt : ∀ e ∈ s₀.entities l.base, e < s₀.heap.size := fun e he => hs.entity_lt he
  have hstart : ∀ b ∈ (s₀.entities l.base).map (Access.mk · l.path), b.start < s₀.heap.size := by
    intro b hb
    obtain ⟨e, he, rfl⟩ := List.mem_map.mp hb
    exact hlt e he
  have hvalues : ∀ u, u ∈ s.baseValues l.base ↔ ∃ e ∈ s₀.entities l.base, s.heap.find e = u := by
    intro u
    rw [baseValues_eq, mem_distinct, entities_congr hslots]
  have hpaths := @Gathers.followPaths _ _ _ _ l.path (s.baseValues l.base)
    (Gathers.nil hg.evolves.proper) fun u hu => by
      obtain ⟨e, he, rfl⟩ := (hvalues u).mp hu
      exact Heap.find_lt_size (hg.evolves.lt_size (hlt e he))
  refine hg.append (hpaths.congr (fun b hb => hg.evolves.lt_size (hstart b hb)) ?_ ?_) hstart
  · intro a ha
    obtain ⟨u, hu, rfl⟩ := List.mem_map.mp ha
    obtain ⟨e, he, rfl⟩ := (hvalues u).mp hu
    exact ⟨_, List.mem_map_of_mem he, (Heap.find_find _ _).symm, rfl⟩
  · intro b hb
    obtain ⟨e, he, rfl⟩ := List.mem_map.mp hb
    exact ⟨_, List.mem_map_of_mem ((hvalues _).mpr ⟨e, he, rfl⟩), (Heap.find_find _ _).symm, rfl⟩

theorem Sound.gathers_runLoads (hs : s₀.Sound) (hslots : s.slots = s₀.slots)
    (hg : Gathers s₀.heap as found s.heap) (loads : List PendingLoad) :
    Gathers s₀.heap (as ++ s₀.accessesOf (.pending loads)) (loads.foldl runLoad (found, s)).1
      (loads.foldl runLoad (found, s)).2.heap := by
  induction loads generalizing s as found with
  | nil =>
    rw [accessesOf, List.flatMap_nil, List.append_nil]
    exact hg
  | cons l loads ih =>
    have hrest := ih (s := (runLoad (found, s) l).2) hslots (hs.gathers_runLoad hslots hg l)
    rw [List.append_assoc] at hrest
    rw [accessesOf, List.flatMap_cons]
    exact hrest

theorem slots_runLoads (state : List EntityId × Store) (loads : List PendingLoad) :
    (loads.foldl runLoad state).2.slots = state.2.slots := by
  induction loads generalizing state with
  | nil => rfl
  | cons l loads ih => exact ih (runLoad state l)

theorem materialize_of_isOpaque (h : (s.slot id).isOpaque = true) :
    s.materialize id = ([], s) := by
  unfold materialize
  cases hx : s.slot id <;> simp_all [Slot.isOpaque]

theorem materialize_of_values {es : List EntityId} (h : s.slot id = .values es) :
    s.materialize id = (distinct s.heap es, s) := by
  rw [materialize, h]

theorem materialize_of_pending (h : s.slot id = .pending loads) : (s.materialize id).2 =
    { s with heap := (s.materialize id).2.heap }.setSlot id (.values (s.materialize id).1) := by
  have hslots := slots_runLoads ([], s) loads
  rw [materialize, h]
  simp only [setSlot, hslots]

/-- The entities of a slot are those at the ends of its accesses. -/
theorem Sound.gathers_materialize (hs : s.Sound) (id : SlotId) :
    Gathers s.heap (s.accesses id) (s.materialize id).1 (s.materialize id).2.heap := by
  unfold accesses
  cases hx : s.slot id with
  | fake | constant =>
    rw [materialize_of_isOpaque (by rw [hx]; rfl)]
    exact .nil hs.heap
  | values es =>
    have hstarts : ∀ a ∈ es.map (Access.mk · []), a.start < s.heap.size := fun a ha =>
      hs.start_lt (accesses_of_values hx ▸ ha)
    have hall : Gathers s.heap (es.map (Access.mk · [])) es s.heap := by
      refine ⟨hstarts, .refl hs.heap, fun e he => ?_, fun a ha => ?_, fun e he => ?_,
        fun _ hshows _ => .refl hshows⟩
      · exact hstarts _ (List.mem_map_of_mem he)
      · obtain ⟨e, he, rfl⟩ := List.mem_map.mp ha
        exact ⟨e, he, rfl⟩
      · exact ⟨_, List.mem_map_of_mem he, rfl⟩
    rw [materialize_of_values hx]
    exact hall.distinct
  | pending loads =>
    have hloads := hs.gathers_runLoads rfl (.nil hs.heap) loads
    rw [materialize, hx]
    exact hloads.distinct

theorem find_of_mem_materialize (he : e ∈ (s.materialize id).1) :
    (s.materialize id).2.heap.find e = e := by
  have hlive : ∀ {h : Heap} {es}, e ∈ distinct h es → h.find e = e := by
    intro h es hm
    obtain ⟨x, -, rfl⟩ := mem_distinct.mp hm
    exact Heap.find_find h x
  unfold materialize at he ⊢
  cases hx : s.slot id with
  | fake | constant => simp [hx] at he
  | values es | pending loads =>
    rw [hx] at he
    exact hlive he

theorem Sound.mem_materialize (hs : s.Sound) : e ∈ (s.materialize id).1 ↔
    ∃ x ∈ s.accesses id, x.end? (s.materialize id).2.heap = some e := by
  have hg := hs.gathers_materialize id
  constructor
  · intro he
    obtain ⟨x, hx, hend⟩ := hg.only e he
    exact ⟨x, hx, by rw [hend, find_of_mem_materialize he]⟩
  · rintro ⟨x, hx, hend⟩
    obtain ⟨e', he', hend'⟩ := hg.reached x hx
    rw [hend', find_of_mem_materialize he', Option.some.injEq] at hend
    exact hend ▸ he'

theorem Sound.materialize_ne_nil (hs : s.Sound) (hid : (s.slot id).isOpaque = false) :
    (s.materialize id).1 ≠ [] := by
  obtain ⟨x, hx⟩ := hs.exists_access hid
  obtain ⟨e, he, -⟩ := (hs.gathers_materialize id).reached x hx
  exact List.ne_nil_of_mem he

theorem Sound.materialize (hs : s.Sound) (id : SlotId) : Evolves s (s.materialize id).2 := by
  have hg := hs.gathers_materialize id
  have hne := @Sound.materialize_ne_nil s id hs
  cases hx : s.slot id with
  | fake | constant =>
    rw [materialize_of_isOpaque (by rw [hx]; rfl)]
    exact .refl hs
  | values es =>
    rw [materialize_of_values hx]
    exact .refl hs
  | pending loads =>
    have hgrown := hs.withHeap hg.evolves
    rw [materialize_of_pending hx]
    have hsymbolic : (s.slot id).isOpaque = false := by
      rw [hx]
      rfl
    refine hgrown.trans
      (hgrown.sound.setSlot ⟨⟨hne hsymbolic, hg.lt⟩, .inr ⟨_, rfl, ?_, ?_⟩⟩)
    · intro a ha
      obtain ⟨e, he, hend⟩ := hg.reached a ha
      exact ⟨e, he, Access.rest_entity.mpr hend⟩
    · intro e he
      obtain ⟨a, ha, hend⟩ := hg.only e he
      exact ⟨a, ha, Access.rest_entity.mpr hend⟩

/-- What is left of an access after its slot was materialized leads to one of the entities. -/
theorem Sound.end?_materialize (hs : s.Sound) {x : Access}
    (hx : x ∈ (s.materialize id).2.accesses id) :
    ∃ e ∈ (s.materialize id).1, x.end? (s.materialize id).2.heap = some e := by
  cases hid : (s.slot id).isOpaque with
  | true =>
    rw [materialize_of_isOpaque hid, accesses_of_isOpaque hid] at hx
    cases hx
  | false =>
    obtain ⟨y, hy, hrest⟩ := (hs.materialize id).traced hid hx
    obtain ⟨e, he, hend⟩ := (hs.gathers_materialize id).reached y hy
    exact ⟨e, he, by rw [← hrest.end?_eq, hend, find_of_mem_materialize he]⟩

/-- What the accesses of an earlier store lead to is what the slot holds now. -/
theorem Evolves.mem_materialize (he : Evolves s s') (hid : (s.slot id).isOpaque = false) :
    e ∈ (s'.materialize id).1 ↔
      ∃ a ∈ s.accesses id, a.end? (s'.materialize id).2.heap = some e := by
  have hgrows := (he.sound.materialize id).grows
  rw [he.sound.mem_materialize]
  constructor
  · rintro ⟨b, hb, hend⟩
    obtain ⟨a, ha, hrest⟩ := he.traced hid hb
    exact ⟨a, ha, by rw [(hrest.grows hgrows).end?_eq, hend]⟩
  · rintro ⟨a, ha, hend⟩
    obtain ⟨b, hb, hrest⟩ := he.kept ha
    exact ⟨b, hb, by rw [← (hrest.grows hgrows).end?_eq, hend]⟩

theorem Sound.mem_materialize_lt (hs : s.Sound) (he : e ∈ (s.materialize id).1) :
    e < (s.materialize id).2.heap.size := (hs.gathers_materialize id).lt e he

/-! One entity for a slot. -/

/-- The heap after all of the entities became one, and that one. -/
structure Unites (h : Heap) (es : List EntityId) (result : EntityId × Heap) : Prop where
  evolves : h.Evolves result.2
  lt : result.1 < result.2.size
  same : ∀ e ∈ es, result.2.find e = result.2.find result.1

theorem unites_mergeAll {h : Heap} (hp : h.Proper) {first : EntityId} {rest : List EntityId}
    (hlt : ∀ e ∈ first :: rest, e < h.size) :
    Unites h (first :: rest) (mergeAll h first rest) := by
  induction rest generalizing h first with
  | nil => exact ⟨.refl hp, hlt first (List.mem_singleton_self _), fun e he => by
      rw [List.mem_singleton.mp he]
      rfl⟩
  | cons second rest ih =>
    have hfirst := hlt first (List.mem_cons_self ..)
    have hsecond := hlt second (List.mem_cons_of_mem _ (List.mem_cons_self ..))
    have hmerge := hp.merge hfirst hsecond
    have hsame : (h.merge first second).2.find first = (h.merge first second).2.find second :=
      (hp.wellFormed.grows_merge hp.closed hfirst hsecond).2.2
    have hmerged : (h.merge first second).1 = (h.merge first second).2.find first := rfl
    have hrest := @ih (h.merge first second).2 hmerge.proper (h.merge first second).1
      fun e he => by
        rcases List.mem_cons.mp he with rfl | he
        · rw [hmerged]
          exact Heap.find_lt_size (hmerge.lt_size hfirst)
        · exact hmerge.lt_size (hlt e (List.mem_cons_of_mem _ (List.mem_cons_of_mem _ he)))
    refine ⟨hmerge.trans hrest.evolves, hrest.lt, fun e he => ?_⟩
    have hhead := (hrest.evolves.grows.find first).symm.trans
      (hrest.same _ (List.mem_cons_self ..))
    rcases List.mem_cons.mp he with rfl | he
    · exact hhead
    · rcases List.mem_cons.mp he with rfl | he
      · exact (hrest.evolves.grows.same hsame).symm.trans hhead
      · exact hrest.same e (List.mem_cons_of_mem _ he)

/-- All accesses of the slot lead to the one entity. -/
structure Singled (s : Store) (id : SlotId) (e : EntityId) (s' : Store) : Prop where
  evolves : Evolves s s'
  lt : e < s'.heap.size
  ends : ∀ x ∈ s.accesses id, x.end? s'.heap = some (s'.heap.find e)

theorem materializeSingle_of_isOpaque (h : (s.slot id).isOpaque = true) :
    s.materializeSingle id = (none, s) := by
  rw [materializeSingle, materialize_of_isOpaque h]

theorem Sound.singled_of_merged (hs : s.Sound) (hid : (s.slot id).isOpaque = false)
    {result : EntityId × Heap}
    (hu : Unites (s.materialize id).2.heap (s.materialize id).1 result) :
    Singled s id result.1
      ({ (s.materialize id).2 with heap := result.2 }.setSlot id (.values [result.1])) := by
  have hfirst := hs.materialize id
  have hgrown := hfirst.sound.withHeap hu.evolves
  have hsymbolic := hgrown.symbolic (hfirst.symbolic hid)
  have hends : ∀ x ∈ ({ (s.materialize id).2 with heap := result.2 } : Store).accesses id,
      x.end? result.2 = some (result.2.find result.1) := by
    intro x hx
    obtain ⟨e, he, hend⟩ := hs.end?_materialize hx
    rw [← hu.same e he]
    exact hu.evolves.grows.follow? hend
  refine ⟨hfirst.trans (hgrown.trans (hgrown.sound.setSlot ⟨⟨by simp, fun e he => ?_⟩,
    .inr ⟨_, rfl, fun x hx => ?_, fun e he => ?_⟩⟩)), hu.lt, fun x hx => ?_⟩
  · exact List.mem_singleton.mp he ▸ hu.lt
  · exact ⟨_, List.mem_singleton_self _, Access.rest_entity.mpr (hends x hx)⟩
  · obtain ⟨x, hx⟩ := hgrown.sound.exists_access hsymbolic
    exact ⟨x, hx, List.mem_singleton.mp he ▸ Access.rest_entity.mpr (hends x hx)⟩
  · obtain ⟨y, hy, hrest⟩ := (hfirst.trans hgrown).kept hx
    exact hrest.end?_eq.trans (hends y hy)

theorem Sound.singled_materializeSingle (hs : s.Sound) (hid : (s.slot id).isOpaque = false) :
    ∃ e, (s.materializeSingle id).1 = some e ∧ Singled s id e (s.materializeSingle id).2 := by
  have hne := hs.materialize_ne_nil hid
  have hmem := @Sound.mem_materialize_lt s id
  have hends := (hs.gathers_materialize id).reached
  have hfirst := hs.materialize id
  have hmerged := @Sound.singled_of_merged s id hs hid
  unfold materializeSingle
  generalize s.materialize id = result at *
  obtain ⟨es, grown⟩ := result
  match es with
  | [] => exact (hne rfl).elim
  | [e] =>
    refine ⟨e, rfl, hfirst, hmem hs (List.mem_singleton_self e), fun x hx => ?_⟩
    obtain ⟨e', he', hend⟩ := hends x hx
    exact List.mem_singleton.mp he' ▸ hend
  | first :: second :: rest =>
    refine ⟨_, rfl, hmerged (unites_mergeAll hfirst.sound.heap fun e he => hmem hs he)⟩

theorem Sound.materializeSingle (hs : s.Sound) (id : SlotId) :
    Evolves s (s.materializeSingle id).2 := by
  cases hid : (s.slot id).isOpaque with
  | true =>
    rw [materializeSingle_of_isOpaque hid]
    exact .refl hs
  | false =>
    obtain ⟨e, -, he⟩ := hs.singled_materializeSingle hid
    exact he.evolves

/-- The entity of a slot; one that had none gets one of its own. -/
theorem Sound.singled_materializeOrCreate (hs : s.Sound) (id : SlotId) (origin : Origin) :
    Singled s id (s.materializeOrCreate id origin).1 (s.materializeOrCreate id origin).2 := by
  unfold materializeOrCreate
  cases hid : (s.slot id).isOpaque with
  | false =>
    obtain ⟨e, he, hsingled⟩ := hs.singled_materializeSingle hid
    generalize s.materializeSingle id = result at *
    obtain ⟨found, grown⟩ := result
    cases he
    exact hsingled
  | true =>
    rw [materializeSingle_of_isOpaque hid]
    have hcreate := hs.withHeap (hs.heap.create (some origin))
    have hlt : s.heap.size < (s.heap.create (some origin)).2.size := by
      rw [Heap.size_create]
      exact Nat.lt_succ_self _
    have hnone := accesses_of_isOpaque hid
    refine ⟨hcreate.trans (hcreate.sound.setSlot ⟨⟨by simp, fun e he => ?_⟩, .inl hid⟩), hlt, ?_⟩
    · exact List.mem_singleton.mp he ▸ hlt
    · rw [hnone]
      exact nofun

/-! New slots. -/

theorem Sound.fake (hs : s.Sound) : Evolves s s.fake.2 := hs.alloc trivial

theorem Sound.constant (hs : s.Sound) : Evolves s s.constant.2 := hs.alloc trivial

theorem Sound.entitySlot (hs : s.Sound) (he : e < s.heap.size) : Evolves s (s.entitySlot e).2 :=
  hs.alloc ⟨by simp, fun e' hm => List.mem_singleton.mp hm ▸ he⟩

theorem lt_size_of_symbolic (hid : (s.slot id).isOpaque = false) : id < s.slots.size := by
  rcases Nat.lt_or_ge id s.slots.size with hlt | hge
  · exact hlt
  · rw [slot_of_size_le hge] at hid
    cases hid

theorem Sound.load (hs : s.Sound) (base : SlotId) (key : FieldName) :
    Evolves s (s.load base key).2 := by
  have hfits := hs.fits base
  have hlt := @lt_size_of_symbolic s base
  apply hs.alloc
  cases hx : s.slot base with
  | fake | constant => trivial
  | values es =>
    refine ⟨by simp, fun l hl => ?_⟩
    rw [List.mem_singleton.mp hl, hx]
    exact ⟨hlt (by rw [hx]; rfl), rfl⟩
  | pending loads =>
    rw [hx] at hfits
    refine ⟨by simpa using hfits.1, fun l hl => ?_⟩
    obtain ⟨l', hl', rfl⟩ := List.mem_map.mp hl
    exact ⟨Nat.lt_trans (hfits.2 l' hl').1 (hlt (by rw [hx]; rfl)), (hfits.2 l' hl').2⟩

/-- A slot for the entities of both lists. -/
theorem Sound.alloc_distinct (hs : s.Sound) {es : List EntityId} (hne : es ≠ [])
    (hlt : ∀ e ∈ es, e < s.heap.size) :
    Evolves s (s.alloc (.values (distinct s.heap es))).2 := by
  refine hs.alloc ⟨?_, fun e he => ?_⟩
  · obtain ⟨e, he⟩ := List.exists_mem_of_ne_nil es hne
    exact List.ne_nil_of_mem (mem_distinct.mpr ⟨e, he, rfl⟩)
  · obtain ⟨x, hx, rfl⟩ := mem_distinct.mp he
    exact Heap.find_lt_size (hlt x hx)

/-- Slots that are materialized to be joined. -/
theorem Sound.union_materialized (hs : s.Sound) (ha : (s.slot a).isOpaque = false) (b : SlotId) :
    Evolves s (((s.materialize a).2.materialize b).2.alloc (.values
      (distinct ((s.materialize a).2.materialize b).2.heap
        ((s.materialize a).1 ++ ((s.materialize a).2.materialize b).1)))).2 := by
  have hfirst := hs.materialize a
  have hsecond := hfirst.sound.materialize b
  refine hfirst.trans (hsecond.trans (hsecond.sound.alloc_distinct ?_ fun e he => ?_))
  · exact List.append_ne_nil_of_left_ne_nil (hs.materialize_ne_nil ha) _
  · rcases List.mem_append.mp he with he | he
    · exact Nat.lt_of_lt_of_le (hs.mem_materialize_lt he) hsecond.grows.size
    · exact hfirst.sound.mem_materialize_lt he

theorem Sound.union (hs : s.Sound) (a b : SlotId) : Evolves s (s.union a b).2 := by
  have hlt := @lt_size_of_symbolic s
  have hloaded := hs.union_materialized (a := a)
  have hfa := hs.fits a
  have hfb := hs.fits b
  unfold Store.union
  split
  · exact .refl hs
  · cases ha : s.slot a with
    | fake | constant => cases hb : s.slot b <;> exact .refl hs
    | values xs =>
      cases hb : s.slot b with
      | fake | constant => exact .refl hs
      | values ys =>
        rw [ha] at hfa
        rw [hb] at hfb
        refine hs.alloc_distinct (List.append_ne_nil_of_left_ne_nil hfa.1 _) fun e he => ?_
        exact (List.mem_append.mp he).elim (hfa.2 e) (hfb.2 e)
      | pending ys => exact hloaded (by rw [ha]; rfl) b
    | pending xs =>
      cases hb : s.slot b with
      | fake | constant => exact .refl hs
      | values ys => exact hloaded (by rw [ha]; rfl) b
      | pending ys =>
        rw [ha] at hfa
        rw [hb] at hfb
        obtain ⟨l, hl⟩ := List.exists_mem_of_ne_nil xs hfa.1
        refine hs.alloc ⟨List.ne_nil_of_mem (mem_foldl_addNew.mpr (.inl hl)), fun l hl => ?_⟩
        rcases mem_foldl_addNew.mp hl with hl | hl
        · exact ⟨Nat.lt_trans (hfa.2 l hl).1 (hlt (by rw [ha]; rfl)), (hfa.2 l hl).2⟩
        · exact ⟨Nat.lt_trans (hfb.2 l hl).1 (hlt (by rw [hb]; rfl)), (hfb.2 l hl).2⟩

/-! Runs. -/

/-- One operation on slots, or one on the heap between them. -/
inductive Step : Store → Store → Prop where
  | heap {s : Store} {h : Heap} (hh : Heap.Step s.heap h) : Step s { s with heap := h }
  | fake {s : Store} : Step s s.fake.2
  | constant {s : Store} : Step s s.constant.2
  | entitySlot {s : Store} {e : EntityId} (he : e < s.heap.size) : Step s (s.entitySlot e).2
  | load {s : Store} (base : SlotId) (key : FieldName) : Step s (s.load base key).2
  | union {s : Store} (a b : SlotId) : Step s (s.union a b).2
  | materialize {s : Store} (id : SlotId) : Step s (s.materialize id).2
  | materializeSingle {s : Store} (id : SlotId) : Step s (s.materializeSingle id).2
  | materializeOrCreate {s : Store} (id : SlotId) (origin : Origin) :
    Step s (s.materializeOrCreate id origin).2

/-- Any number of operations. -/
def Steps : Store → Store → Prop := Relation.ReflTransGen Step

/-- Built by operations from nothing. -/
def Reachable (s : Store) : Prop := Steps {} s

theorem Step.evolves (hstep : Step s s') (hs : s.Sound) : Evolves s s' := by
  cases hstep with
  | heap hh => exact hs.withHeap (hh.evolves hs.heap)
  | fake => exact hs.fake
  | constant => exact hs.constant
  | entitySlot he => exact hs.entitySlot he
  | load base key => exact hs.load base key
  | union a b => exact hs.union a b
  | materialize id => exact hs.materialize id
  | materializeSingle id => exact hs.materializeSingle id
  | materializeOrCreate id origin => exact (hs.singled_materializeOrCreate id origin).evolves

theorem Steps.evolves (hsteps : Steps s s') (hs : s.Sound) : Evolves s s' := by
  induction hsteps with
  | refl => exact .refl hs
  | tail _ hstep ih => exact ih.trans (hstep.evolves ih.sound)

theorem sound_empty : Sound {} where
  heap := Heap.proper_empty
  fits id := by
    rw [slot_of_size_le (Nat.zero_le id)]
    trivial

theorem Reachable.sound (hr : s.Reachable) : s.Sound := (Steps.evolves hr sound_empty).sound

end Store

end SinkTrace
