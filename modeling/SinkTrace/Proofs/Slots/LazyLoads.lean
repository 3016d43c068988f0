import SinkTrace.Proofs.Slots.Runs

/-!
When a pending load is run does not matter. A slot that is materialized before stores, merges and
marks on older entities, and one that is materialized after them, end with the same values in the
same heap, up to the names of the entities that the load had to make. The two runs go different
ways: where one merges a child that it made, the other finds the stored value in its place. But
each of the two heaps has all that there is to see in the other one.
-/

namespace SinkTrace

open Heap (Change SameFrom)

namespace Heap

variable {h h' : Heap} {n : Nat} {d w : EntityId} {path : List FieldName}

theorem follow?_below (hf : h.follow? d path = some w) : h.Below (h.find d) w := by
  induction path generalizing d with
  | nil =>
    cases hf
    exact .refl
  | cons key path ih =>
    obtain ⟨child, hk, hrest⟩ := follow?_cons_eq_some.mp hf
    have htail := ih hrest
    rw [find_of_field? hk] at htail
    exact .head ⟨key, (field?_congr (find_find h d) key).trans hk⟩ htail

theorem Seen.find (hd : h.Seen n d) : h.find d = d := by
  obtain ⟨u, -, hb⟩ := hd
  cases hb with
  | refl => exact find_find h u
  | tail _ hstep =>
    obtain ⟨k, hk⟩ := hstep
    exact find_of_field? hk

theorem Seen.below (hd : h.Seen n d) (hb : h.Below d w) : h.Seen n w := by
  obtain ⟨u, hu, hpath⟩ := hd
  exact ⟨u, hu, hpath.trans hb⟩

/-- A renaming that keeps the fields of what is seen keeps where paths lead. -/
theorem follow?_rename {rename : EntityId → EntityId}
    (hseen : ∀ d, h.Seen n d → h'.Seen n (rename d))
    (hfield : ∀ d, h.Seen n d → ∀ k, h'.field? (rename d) k = (h.field? d k).map rename)
    (hd : h.Seen n d) : h'.follow? (rename d) path = (h.follow? d path).map rename := by
  induction path generalizing d with
  | nil => rw [follow?, follow?, (hseen d hd).find, hd.find, Option.map_some]
  | cons key path ih =>
    rw [follow?, follow?, hfield d hd]
    cases hk : h.field? d key with
    | none => rfl
    | some child => exact ih (hd.field hk)

/-- What is below an entity is renamed with it. -/
theorem below_rename_iff {rename : EntityId → EntityId} {v : EntityId}
    (hfield : ∀ d, h.Seen n d → ∀ k, h'.field? (rename d) k = (h.field? d k).map rename)
    (hv : h.Seen n v) : h'.Below (rename v) w ↔ ∃ d, h.Below v d ∧ rename d = w := by
  constructor
  · intro hb
    induction hb with
    | refl => exact ⟨v, .refl, rfl⟩
    | tail _ hstep ih =>
      obtain ⟨k, hk⟩ := hstep
      obtain ⟨c, hvc, rfl⟩ := ih
      rw [hfield c (hv.below hvc) k, Option.map_eq_some_iff] at hk
      obtain ⟨d, hd, rfl⟩ := hk
      exact ⟨d, hvc.tail ⟨k, hd⟩, rfl⟩
  · rintro ⟨d, hb, rfl⟩
    induction hb with
    | refl => exact .refl
    | tail hvc hstep ih =>
      obtain ⟨k, hk⟩ := hstep
      refine ih.tail ⟨k, ?_⟩
      rw [hfield _ (hv.below hvc) k, hk, Option.map_some]

/-- What is below some entities is renamed, one to one, into what is below their names. -/
theorem bijOn_below {rename : EntityId → EntityId} {vs ws : List EntityId}
    (hbij : Set.BijOn rename {d | h.Seen n d} {d | h'.Seen n d})
    (hfield : ∀ d, h.Seen n d → ∀ k, h'.field? (rename d) k = (h.field? d k).map rename)
    (hseen : ∀ v ∈ vs, h.Seen n v) (hnames : ∀ w, w ∈ ws ↔ ∃ v ∈ vs, rename v = w) :
    Set.BijOn rename {d | ∃ v ∈ vs, h.Below v d} {d | ∃ w ∈ ws, h'.Below w d} := by
  have hbelow : ∀ {d}, (∃ v ∈ vs, h.Below v d) → h.Seen n d := by
    rintro d ⟨v, hm, hb⟩
    exact (hseen v hm).below hb
  refine ⟨?_, fun d hd e he => hbij.injOn (hbelow hd) (hbelow he), ?_⟩
  · rintro d ⟨v, hm, hb⟩
    exact ⟨rename v, (hnames _).mpr ⟨v, hm, rfl⟩,
      (below_rename_iff hfield (hseen v hm)).mpr ⟨d, hb, rfl⟩⟩
  · rintro d' ⟨w, hm, hb⟩
    obtain ⟨v, hm', rfl⟩ := (hnames w).mp hm
    obtain ⟨d, hvd, rfl⟩ := (below_rename_iff hfield (hseen v hm')).mp hb
    exact ⟨d, ⟨v, hm', hvd⟩, rfl⟩

end Heap

namespace Store

variable {s s' : Store} {id : SlotId} {e : EntityId} {changes : List Change}
  {loads : List PendingLoad}

/-- Changes of the heap; the slots stay as they are. -/
def applyAll (s : Store) (changes : List Change) : Store :=
  { s with heap := s.heap.applyAll changes }

/-- The entities `vs` in `h` and `ws` in `h'` are the same as far as the first `n` ids tell, with
all that fields lead to from them. -/
structure SameValues (n : Nat) (vs : List EntityId) (h : Heap) (ws : List EntityId) (h' : Heap) :
    Prop where
  find : ∀ u v, u < n → v < n → (h.find u = h.find v ↔ h'.find u = h'.find v)
  taint : ∀ u < n, h'.taint u = h.taint u
  deep : ∀ u < n, (h'.entity u).deep = (h.entity u).deep
  classes : ∀ u < n, (h.find u ∈ vs ↔ h'.find u ∈ ws)
  graph : ∃ rename : EntityId → EntityId,
    Set.BijOn rename {d | d ∈ vs} {d | d ∈ ws} ∧
    Set.BijOn rename {d | ∃ v ∈ vs, h.Below v d} {d | ∃ w ∈ ws, h'.Below w d} ∧
    (∀ u < n, (∃ v ∈ vs, h.Below v (h.find u)) → rename (h.find u) = h'.find u) ∧
    ∀ d, (∃ v ∈ vs, h.Below v d) → h'.taint (rename d) = h.taint d ∧
      (h'.entity (rename d)).deep = (h.entity d).deep ∧
      ∀ k, h'.field? (rename d) k = (h.field? d k).map rename

/-- Values at the ends of the same accesses. -/
theorem sameValues_of_ends {n : Nat} {h h' : Heap} {vs ws : List EntityId} {as : List Access}
    (hsame : SameFrom n h h') (hstart : ∀ a ∈ as, a.start < n)
    (hv : ∀ e, e ∈ vs ↔ ∃ a ∈ as, a.end? h = some e)
    (hw : ∀ e, e ∈ ws ↔ ∃ a ∈ as, a.end? h' = some e) : SameValues n vs h ws h' := by
  obtain ⟨rename, hbij, hold, hkeep⟩ := hsame.graph
  have hseen : ∀ v ∈ vs, h.Seen n v := fun v hm => by
    obtain ⟨a, ha, hend⟩ := (hv v).mp hm
    exact ⟨a.start, hstart a ha, Heap.follow?_below hend⟩
  have hfield := fun d hd => (hkeep d hd).2.2
  have hend : ∀ a ∈ as, a.end? h' = (a.end? h).map rename := fun a ha => by
    have hlt := hstart a ha
    have hpath := @Heap.follow?_rename _ _ _ _ a.path rename hbij.mapsTo hfield
      (Heap.seen_find hlt)
    rwa [hold a.start hlt, Heap.follow?_find, Heap.follow?_find] at hpath
  have hnames : ∀ w, w ∈ ws ↔ ∃ v ∈ vs, rename v = w := by
    refine fun w => ⟨fun hm => ?_, ?_⟩
    · obtain ⟨a, ha, hwa⟩ := (hw w).mp hm
      rw [hend a ha, Option.map_eq_some_iff] at hwa
      obtain ⟨v, hva, rfl⟩ := hwa
      exact ⟨v, (hv v).mpr ⟨a, ha, hva⟩, rfl⟩
    · rintro ⟨v, hm, rfl⟩
      obtain ⟨a, ha, hva⟩ := (hv v).mp hm
      exact (hw _).mpr ⟨a, ha, by rw [hend a ha, hva, Option.map_some]⟩
  refine ⟨hsame.find, hsame.taint, hsame.deep, fun u hu => ?_, rename,
    ⟨fun v hm => (hnames _).mpr ⟨v, hm, rfl⟩,
      fun d hd e he => hbij.injOn (hseen d hd) (hseen e he), fun w hm => (hnames w).mp hm⟩,
    Heap.bijOn_below hbij hfield hseen hnames, fun u hu _ => hold u hu, fun d hd => ?_⟩
  · rw [← hold u hu]
    refine ⟨fun hm => (hnames _).mpr ⟨_, hm, rfl⟩, fun hm => ?_⟩
    obtain ⟨v, hm', hvu⟩ := (hnames _).mp hm
    exact hbij.injOn (hseen v hm') (Heap.seen_find hu) hvu ▸ hm'
  · obtain ⟨v, hm, hb⟩ := hd
    exact hkeep d ((hseen v hm).below hb)

/-! A slot that is materialized first, and one that is materialized last. -/

theorem slot_materialize (hid : s.slot id = .pending loads) :
    (s.materialize id).2.slot id = .values (s.materialize id).1 := by
  have hlt : id < s.slots.size := lt_size_of_symbolic (by rw [hid]; rfl)
  rw [materialize_of_pending hid, slot_setSlot]
  exact if_pos ⟨rfl, hlt⟩

theorem Sound.applyAll (hs : s.Sound) (hc : ∀ c ∈ changes, c.Known s.heap) :
    Evolves s (s.applyAll changes) := hs.withHeap (Heap.applyAll_evolves hs.heap hc).1

/-- The heap of the eager run shows no more than that of the lazy run, and old ids are the same in
both. -/
theorem Sound.eager_shows (hs : s.Sound) (hc : ∀ c ∈ changes, c.Known s.heap) (id : SlotId) :
    ∃ φ, (∀ u < s.heap.size, φ u = u) ∧ ((s.materialize id).2.heap.applyAll changes).Shows
      ((s.applyAll changes).materialize id).2.heap.drawn φ := by
  have hchanged := hs.applyAll hc
  have hload := hchanged.sound.gathers_materialize id
  have hp := hload.evolves.proper
  obtain ⟨φ, hφ, hshows⟩ := (hs.gathers_materialize id).redrawn hp
    (hchanged.grows.trans hload.evolves.grows).shows_drawn fun a ha => by
      obtain ⟨e, -, hend⟩ := hload.reached a ha
      exact ⟨_, hend⟩
  have hfirst := hs.materialize id
  refine ⟨φ, hφ, hshows.applyAll hfirst.sound.heap hp hfirst.grows.size hφ hc fun c hm => ?_⟩
  exact ((Heap.applyAll_evolves hs.heap hc).2.2 c hm).grows hload.evolves.grows

/-- And the other way round. -/
theorem Sound.lazy_shows (hs : s.Sound) (hc : ∀ c ∈ changes, c.Known s.heap) (id : SlotId) :
    ∃ ψ, (∀ u < s.heap.size, ψ u = u) ∧ ((s.applyAll changes).materialize id).2.heap.Shows
      ((s.materialize id).2.heap.applyAll changes).drawn ψ := by
  have hload := hs.gathers_materialize id
  have hfirst := hs.materialize id
  obtain ⟨hlast, -, hheld⟩ := Heap.applyAll_evolves hfirst.sound.heap fun c hm =>
    (hc c hm).mono hfirst.grows.size
  have hbefore := (hfirst.grows.trans hlast.grows).shows_drawn.applyAll hs.heap hlast.proper
    (Nat.le_refl _) (fun _ _ => rfl) hc hheld
  have hchanged := hs.applyAll hc
  obtain ⟨ψ, hψ, hshows⟩ := (hchanged.sound.gathers_materialize id).redrawn hlast.proper hbefore
    fun a ha => by
      obtain ⟨e, -, hend⟩ := hload.reached a ha
      exact ⟨_, hlast.grows.follow? hend⟩
  exact ⟨ψ, fun u hu => hψ u (Nat.lt_of_lt_of_le hu hchanged.grows.size), hshows⟩

/-- In every store that a run can build, a pending slot may be materialized before or after stores,
merges, raised taints and input marks on ids that there are already: in the end those ids are one
and marked alike, and the slot has the same values, with the same fields and marks below them. -/
theorem materialize_any_time (hr : s.Reachable) (hid : s.slot id = .pending loads)
    (hc : ∀ c ∈ changes, c.Known s.heap) :
    let eager := ((s.materialize id).2.applyAll changes).materialize id
    let late := (s.applyAll changes).materialize id
    SameValues s.heap.size eager.1 eager.2.heap late.1 late.2.heap := by
  intro eager late
  have hs := hr.sound
  have hsymbolic : (s.slot id).isOpaque = false := by
    rw [hid]
    rfl
  have hfirst := hs.materialize id
  have hearly : Evolves s ((s.materialize id).2.applyAll changes) :=
    hfirst.trans (hfirst.sound.applyAll fun c hm => (hc c hm).mono hfirst.grows.size)
  have hlast := hs.applyAll hc
  have heager : eager.2.heap = (s.materialize id).2.heap.applyAll changes := by
    have hslot : ((s.materialize id).2.applyAll changes).slot id = _ := slot_materialize hid
    exact congrArg (fun result => result.2.heap) (materialize_of_values hslot)
  obtain ⟨φ, hφ, hshows⟩ := hs.eager_shows hc id
  obtain ⟨ψ, hψ, hshows'⟩ := hs.lazy_shows hc id
  have hlate := (hlast.trans (hlast.sound.materialize id))
  have hsame : SameFrom s.heap.size eager.2.heap late.2.heap := by
    rw [heager]
    have hp := (heager ▸ (hearly.sound.materialize id).sound.heap :
      ((s.materialize id).2.heap.applyAll changes).Proper)
    exact Heap.sameFrom_of_follows
      (hshows.follows hp.wellFormed hearly.grows.size hφ)
      (hshows'.follows hlate.sound.heap.wellFormed hlate.grows.size hψ)
  exact sameValues_of_ends hsame (fun a ha => hs.start_lt ha)
    (fun e => hearly.mem_materialize hsymbolic) fun e => hlast.mem_materialize hsymbolic

/-- Two entities, and a pending load from the first one. -/
def promised : Store :=
  let store : Store := { heap := ((Heap.create {} none).2.create none).2 }
  ((store.entitySlot 0).2.load 0 "next").2

theorem reachable_promised : promised.Reachable := by
  have hfirst : Steps {} { heap := (Heap.create {} none).2 } := .single (.heap (.create none))
  have hsecond : Steps {} { heap := ((Heap.create {} none).2.create none).2 } :=
    hfirst.tail (.heap (.create none))
  exact (hsecond.tail (.entitySlot (by decide))).tail (.load 0 "next")

/-- The lazy run finds the stored entity where the eager one merges its child with it. -/
theorem promised_any_time :
    promised.Reachable ∧ promised.slot 1 = .pending [⟨0, ["next"]⟩] ∧
      let changes := [Change.storeField 0 "next" 1, .markInput 0]
      (∀ c ∈ changes, c.Known promised.heap) ∧
        SameValues promised.heap.size
          (((promised.materialize 1).2.applyAll changes).materialize 1).1
          (((promised.materialize 1).2.applyAll changes).materialize 1).2.heap
          ((promised.applyAll changes).materialize 1).1
          ((promised.applyAll changes).materialize 1).2.heap := by
  have hslot : promised.slot 1 = .pending [⟨0, ["next"]⟩] := rfl
  have hknown : ∀ c ∈ [Change.storeField 0 "next" 1, .markInput 0], c.Known promised.heap := by
    simp only [List.forall_mem_cons, List.not_mem_nil, false_implies, implies_true, and_true]
    exact ⟨⟨by decide, by decide⟩, (by decide : 0 < promised.heap.size)⟩
  exact ⟨reachable_promised, hslot, hknown, materialize_any_time reachable_promised hslot hknown⟩

end Store

end SinkTrace
