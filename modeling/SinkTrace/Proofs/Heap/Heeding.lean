import SinkTrace.Proofs.Heap.Acts
import SinkTrace.Proofs.Heap.Tending

/-!
Acts heed the deferred edges: an edge stays with its owner, whatever the owner is merged with, and
where an act makes an edge due, the owner is logged.
-/

namespace SinkTrace

namespace Entity

variable {e gone : Entity}

/-- No edge is due. -/
def Quiet (e : Entity) : Prop :=
  TaintId.input ≤ e.taint → e.deferredInput.isEmpty = true ∧ e.deferredTaint = []

theorem Quiet.congr {e' : Entity} (hq : e.Quiet) (hd : e.dues = e'.dues) : e'.Quiet := by
  obtain ⟨ht, -, hi, hdt⟩ := dues_inj hd
  unfold Quiet at hq
  rwa [ht, hi, hdt] at hq

theorem dues_of_bare_eq {e' : Entity} (hb : e.bare = e'.bare) : e.dues = e'.dues :=
  have hdues : e.bare.dues = e'.bare.dues := congrArg dues hb
  hdues

theorem quiet_of_none (hi : e.deferredInput = ∅) (ht : e.deferredTaint = []) : e.Quiet := by
  intro _
  rw [hi]
  exact ⟨Std.TreeSet.isEmpty_emptyc, ht⟩

end Entity

namespace Heap

variable {h h' h'' : Heap} {taints : TaintId → Prop} {sinks : SinkCall → Prop}

/-- Where something gets due, the entity is logged. -/
structure Minds (h h' : Heap) : Prop where
  same : ∀ {u v}, h.find u = h.find v → h'.find u = h'.find v
  logged : ∀ {u}, h.Logged (h.find u) → h'.Logged (h'.find u)
  quiet : ∀ {u}, (h.entity u).Quiet → (h'.entity u).Quiet ∨ h'.Logged (h'.find u)

/-- Besides, no edge is lost. -/
structure Heeds (h h' : Heap) : Prop extends Minds h h' where
  input : ∀ {u t}, t ∈ (h.entity u).deferredInput → t ∈ (h'.entity u).deferredInput
  taint : ∀ {u edge}, edge ∈ (h.entity u).deferredTaint → edge ∈ (h'.entity u).deferredTaint

theorem Minds.refl (h : Heap) : Minds h h := ⟨fun hf => hf, fun hl => hl, .inl⟩

theorem Minds.trans (h₁ : Minds h h') (h₂ : Minds h' h'') : Minds h h'' := by
  refine ⟨fun hf => h₂.same (h₁.same hf), fun hl => h₂.logged (h₁.logged hl), fun hq => ?_⟩
  rcases h₁.quiet hq with hq | hl
  · exact h₂.quiet hq
  · exact .inr (h₂.logged hl)

theorem Heeds.refl (h : Heap) : Heeds h h := ⟨.refl h, fun hm => hm, fun hm => hm⟩

theorem Heeds.trans (h₁ : Heeds h h') (h₂ : Heeds h' h'') : Heeds h h'' :=
  ⟨h₁.toMinds.trans h₂.toMinds, fun hm => h₂.input (h₁.input hm),
    fun hm => h₂.taint (h₁.taint hm)⟩

/-- What is due where is as before, and the log too. -/
theorem Heeds.of_dues (hf : ∀ u, h'.find u = h.find u)
    (hd : ∀ u, (h'.entity u).dues = (h.entity u).dues) (hl : h'.transitions = h.transitions) :
    Heeds h h' := by
  refine ⟨⟨fun {u v} hs => ?_, fun {u} hlog => ?_, fun {u} hq => .inl (hq.congr (hd u).symm)⟩,
    fun {u t} hm => ?_, fun {u edge} hm => ?_⟩
  · rw [hf, hf, hs]
  · obtain ⟨t, hm, ht⟩ := hlog
    exact ⟨t, hl ▸ hm, by rw [hf, hf, ht]⟩
  · obtain ⟨-, -, hi, -⟩ := Entity.dues_inj (hd u)
    exact hi ▸ hm
  · obtain ⟨-, -, -, hdt⟩ := Entity.dues_inj (hd u)
    exact hdt ▸ hm

theorem Heeds.of_alike (ha : Alike Entity.dues h h') (hl : h'.transitions = h.transitions) :
    Heeds h h' := .of_dues ha.find ha.entity hl

/-- A change of one entity that is logged and leaves its edges. -/
theorem heeds_updateNote (hd : h.Descending) {id n : EntityId} {g : Entity → Entity}
    (hn : h.find n = h.find id)
    (hi : ∀ e : Entity, ∀ t ∈ e.deferredInput, t ∈ (g e).deferredInput)
    (ht : ∀ e : Entity, ∀ edge ∈ e.deferredTaint, edge ∈ (g e).deferredTaint) :
    Heeds h ((h.update id g).note n) := by
  have hfind : ∀ j, ((h.update id g).note n).find j = h.find j := fun j => by
    rw [find_note, find_update]
  have hother : ∀ {j}, h.find id ≠ h.find j → ((h.update id g).note n).entity j = h.entity j := by
    intro j hj
    rw [entity_note, entity_update_of_ne g hj]
  have hself : ∀ {j}, h.find id = h.find j → id < h.size →
      ((h.update id g).note n).entity j = g (h.entity j) := by
    intro j hj hid
    rw [entity_note, hd.entity_update_self hid g hj]
  have hout : ∀ {j}, h.find id = h.find j → h.size ≤ id → h.entity j = {} := by
    intro j hj hid
    rw [← entity_congr hj, entity_of_size_le hid]
  refine ⟨⟨fun {u v} hs => ?_, fun {u} hlog => ?_, fun {u} hq => ?_⟩, fun {u t} hm => ?_,
    fun {u edge} hm => ?_⟩
  · rw [hfind, hfind, hs]
  · obtain ⟨t, hm, hf⟩ := hlog
    exact ⟨t, Array.mem_push_of_mem _ hm, by rw [hfind, hfind, hf]⟩
  · by_cases hu : h.find id = h.find u
    · exact .inr ⟨n, Array.mem_push_self, by rw [hfind, hfind, hn, hu]⟩
    · rw [hother hu]
      exact .inl hq
  · by_cases hu : h.find id = h.find u
    · rcases Nat.lt_or_ge id h.size with hin | hge
      · rw [hself hu hin]
        exact hi _ t hm
      · rw [hout hu hge] at hm
        exact absurd hm Std.TreeSet.not_mem_emptyc
    · rwa [hother hu]
  · by_cases hu : h.find id = h.find u
    · rcases Nat.lt_or_ge id h.size with hin | hge
      · rw [hself hu hin]
        exact ht _ edge hm
      · rw [hout hu hge] at hm
        exact absurd hm List.not_mem_nil
    · rwa [hother hu]

/-- Entities that were added wait for nothing. -/
theorem Heeds.of_old (hf : ∀ u, h'.find u = h.find u)
    (hold : ∀ {u}, u < h.size → h'.entity u = h.entity u)
    (hnew : ∀ {u}, h.size ≤ u → (h'.entity u).Quiet) (hl : h'.transitions = h.transitions) :
    Heeds h h' := by
  have hin : ∀ {u : EntityId} {p : Entity → Prop}, ¬p {} → p (h.entity u) → p (h'.entity u) := by
    intro u p hp hm
    rcases Nat.lt_or_ge u h.size with hlt | hge
    · rwa [hold hlt]
    · rw [entity_of_size_le hge] at hm
      exact absurd hm hp
  refine ⟨⟨fun {u v} hs => ?_, fun {u} hlog => ?_, fun {u} hq => ?_⟩, fun {u t} hm => ?_,
    fun {u edge} hm => ?_⟩
  · rw [hf, hf, hs]
  · obtain ⟨t, hm, ht⟩ := hlog
    exact ⟨t, hl ▸ hm, by rw [hf, hf, ht]⟩
  · rcases Nat.lt_or_ge u h.size with hlt | hge
    · exact .inl (hold hlt ▸ hq)
    · exact .inl (hnew hge)
  · exact @hin u (fun e => t ∈ e.deferredInput) Std.TreeSet.not_mem_emptyc hm
  · exact @hin u (fun e => edge ∈ e.deferredTaint) List.not_mem_nil hm

/-! The acts. -/

theorem heeds_raiseTaint (hd : h.Descending) (id : EntityId) (taint : TaintId)
    (stack : Option CallStack) : Heeds h (h.raiseTaint id taint stack).2 := by
  unfold raiseTaint
  simp only
  split
  · exact .refl h
  · exact heeds_updateNote hd rfl (fun _ _ hm => hm) fun _ _ hm => hm

theorem heeds_markAll (hd : h.Descending) (work : List EntityId) : Heeds h (h.markAll work) := by
  fun_induction markAll h work with
  | case1 => exact .refl _
  | case2 h id rest _ ih =>
    have hone : Heeds h (h.markOne id) :=
      heeds_updateNote hd (find_find h id) (fun _ _ hm => hm) fun _ _ hm => hm
    exact hone.trans (ih ((alike_markOne h id).descending hd))
  | case3 h id rest _ ih => exact ih hd

theorem WellFormed.heeds_markEach (hw : h.WellFormed) (ids : List EntityId) :
    Heeds h (ids.foldl Heap.markInput h) := by
  induction ids generalizing h with
  | nil => exact .refl h
  | cons id ids ih => exact (heeds_markAll hw.descending [id]).trans (ih (hw.markInput id))

theorem heeds_addTargetCall (hd : h.Descending) (id : EntityId) (call : TargetCall) :
    Heeds h (h.addTargetCall id call) := by
  have hwaits : ∀ e : Entity, (e.addTargetCall call).waits = e.waits := by
    intro e
    unfold Entity.addTargetCall
    split <;> rfl
  have hi : ∀ e : Entity, (e.addTargetCall call).deferredInput = e.deferredInput :=
    fun e => congrArg Prod.fst (hwaits e)
  have ht : ∀ e : Entity, (e.addTargetCall call).deferredTaint = e.deferredTaint :=
    fun e => congrArg Prod.snd (hwaits e)
  unfold addTargetCall
  simp only
  split
  · exact .refl h
  · exact heeds_updateNote hd rfl (fun e _ hm => hi e ▸ hm) fun e _ hm => ht e ▸ hm

theorem heeds_addDeferredInput (hd : h.Descending) (owner target : EntityId) :
    Heeds h (h.addDeferredInput owner target) := by
  unfold addDeferredInput
  simp only
  split
  · exact .refl h
  · exact heeds_updateNote hd rfl (fun _ _ hm => Entity.mem_addDeferredInput.mpr (.inr hm))
      fun _ _ hm => hm

theorem heeds_addDeferredTaint (hd : h.Descending) (owner : EntityId) (edge : DeferredTaint) :
    Heeds h (h.addDeferredTaint owner edge) :=
  heeds_updateNote hd rfl (fun _ _ hm => hm) fun _ _ hm => mem_addNew.mpr (.inl hm)

theorem Descending.mem_addDeferredTaint (hd : h.Descending) {owner : EntityId}
    (ho : owner < h.size) (edge : DeferredTaint) :
    edge ∈ ((h.addDeferredTaint owner edge).entity owner).deferredTaint := by
  unfold addDeferredTaint
  simp only
  rw [entity_note, hd.entity_update_self (find_lt_size ho) _ (find_find h owner)]
  exact mem_addNew.mpr (.inr rfl)

theorem heeds_create (h : Heap) (origin : Option Origin) : Heeds h (h.create origin).2 := by
  refine .of_old (find_create h origin) (fun hu => entity_create_of_lt hu origin) ?_ rfl
  intro u hge
  rcases Nat.eq_or_lt_of_le hge with rfl | hlt
  · rw [entity_create_self]
    exact Entity.quiet_of_none rfl rfl
  · rw [entity_of_size_le (by rw [size_create]; exact hlt)]
    exact Entity.quiet_of_none rfl rfl

theorem heeds_link (h : Heap) (owner : EntityId) (key : FieldName) (child : EntityId) :
    Heeds h (h.link owner key child) :=
  .of_alike ((alike_link h owner key child).comp Entity.dues) rfl

theorem heeds_loadField (h : Heap) (owner : EntityId) (key : FieldName) :
    Heeds h (h.loadField owner key).2 := by
  cases hg : (h.entity owner).fields.get? key with
  | some child =>
    rw [loadField_of_some hg]
    exact .refl h
  | none =>
    rw [loadField_of_none hg]
    have hlog : (h.withChild owner key).transitions = h.transitions := by
      unfold withChild
      simp only
      split <;> rfl
    have hchild : Heeds h (h.withChild owner key) := by
      refine .of_old (find_withChild h owner key) (fun hu => entity_withChild_of_lt key hu) ?_ hlog
      intro u hge
      rcases Nat.eq_or_lt_of_le hge with rfl | hlt
      · rw [entity_withChild_self]
        exact Entity.quiet_of_none rfl rfl
      · rw [entity_of_size_le (by rw [size_withChild]; exact hlt)]
        exact Entity.quiet_of_none rfl rfl
    exact hchild.trans (heeds_link _ _ _ _)

theorem transitions_absorb (h : Heap) (x y : EntityId) :
    (h.absorb x y).heap.transitions = h.transitions.push x :=
  congrArg (Array.push · x) (transitions_rewired h x y)

/-- The survivor is logged and has the edges of both; the other entities are as they were. -/
theorem heeds_absorb (hw : h.WellFormed) {x y : EntityId} {ex ey : Entity}
    (hx : h.live? x = some ex) (hy : h.live? y = some ey) (hlt : x < y) :
    Heeds h (h.absorb x y).heap := by
  have hother : ∀ {u}, (h.absorb x y).heap.find u ≠ x →
      ((h.absorb x y).heap.entity u).dues = (h.entity u).dues :=
    fun hu => Entity.dues_of_bare_eq (entity_absorb_of_ne hw hx hy hlt hu)
  have hself : ∀ {u}, (h.absorb x y).heap.find u = x → ∃ e : Entity, e.waits = ex.waits ∧
      (h.absorb x y).heap.entity u = e.takeOver ey ∧
      (h.entity u = ex ∨ h.entity u = ey) := by
    intro u hu
    obtain ⟨e, hb, he⟩ := entity_absorb_self hw hx hy hlt hu
    refine ⟨e, congrArg (fun d => d.2.2) (Entity.dues_of_bare_eq hb), he, ?_⟩
    rcases (find_absorb_eq_iff hx hy hlt u).mp hu with hf | hf
    · exact .inl (by rw [← entity_find, hf, entity_of_live? hx])
    · exact .inr (by rw [← entity_find, hf, entity_of_live? hy])
  refine ⟨⟨find_absorb_congr hx hy hlt, fun {u} hlog => ?_, fun {u} hq => ?_⟩, fun {u t} hm => ?_,
    fun {u edge} hm => ?_⟩
  · obtain ⟨t, hm, hf⟩ := hlog
    refine ⟨t, transitions_absorb h x y ▸ Array.mem_push_of_mem _ hm, ?_⟩
    exact find_absorb_congr hx hy hlt hf
  · by_cases hu : (h.absorb x y).heap.find u = x
    · refine .inr ⟨x, transitions_absorb h x y ▸ Array.mem_push_self, ?_⟩
      rw [hu]
      exact (find_absorb_eq_iff hx hy hlt x).mpr (.inl (find_of_live? hx))
    · exact .inl (hq.congr (hother hu).symm)
  · by_cases hu : (h.absorb x y).heap.find u = x
    · obtain ⟨e, hwaits, he, hbefore⟩ := hself hu
      have hi : e.deferredInput = ex.deferredInput := congrArg Prod.fst hwaits
      rw [he, Entity.mem_deferredInput_takeOver, hi]
      rcases hbefore with hb | hb
      · exact .inl (hb ▸ hm)
      · exact .inr (hb ▸ hm)
    · obtain ⟨-, -, hi, -⟩ := Entity.dues_inj (hother hu)
      rwa [hi]
  · by_cases hu : (h.absorb x y).heap.find u = x
    · obtain ⟨e, hwaits, he, hbefore⟩ := hself hu
      have ht : e.deferredTaint = ex.deferredTaint := congrArg Prod.snd hwaits
      rw [he, Entity.mem_deferredTaint_takeOver, ht]
      rcases hbefore with hb | hb
      · exact .inl (hb ▸ hm)
      · exact .inr (hb ▸ hm)
    · obtain ⟨-, -, -, ht⟩ := Entity.dues_inj (hother hu)
      rwa [ht]

theorem heeds_merge (hw : h.WellFormed) {a b : EntityId} (ha : a < h.size) (hb : b < h.size) :
    Heeds h (h.merge a b).2 := by
  obtain ⟨hwm, hm⟩ := @WellFormed.mergePairs_keeps h (fun h' _ _ => Heeds h h') (fun _ hk => hk)
    (fun hw' hx hy hlt _ hk => hk.trans (heeds_absorb hw' hx hy hlt)) _ [] hw
    (mem_singleton_pair ha hb) (.refl h)
  exact hm.trans (hwm.heeds_markEach _)

theorem heeds_storeField (hw : h.WellFormed) {owner value : EntityId} (hv : value < h.size)
    (key : FieldName) : Heeds h (h.storeField owner key value) := by
  cases hg : (h.entity owner).fields.get? key with
  | some existing =>
    rw [storeField_of_some hg]
    obtain ⟨e, he, _⟩ := hw.child (live?_of_get? hg) hg
    exact heeds_merge hw (lt_size_of_live? he) (find_lt_size hv)
  | none =>
    rw [storeField_of_none hg]
    have hlink := heeds_link h (h.find owner) key (h.find value)
    have hd := (alike_link h (h.find owner) key (h.find value)).descending hw.descending
    split
    · exact hlink.trans (heeds_markAll hd _)
    · exact hlink

theorem Act.heeds (ha : Act True taints sinks h h') (hp : h.Proper) : Heeds h h' := by
  have hd := hp.wellFormed.descending
  cases ha with
  | create origin => exact heeds_create h origin
  | setOrigin id origin => exact .of_alike (alike_update h id fun _ => rfl) rfl
  | resolve id =>
    obtain ⟨hs, -⟩ := same_compress h id hd
    exact .of_dues hs.find (fun u => congrArg Entity.dues (hs.entity u)) hs.transitions
  | @loadField owner _ key => exact heeds_loadField h owner key
  | storeField _ hv key => exact heeds_storeField hp.wellFormed (hv trivial) key
  | merge ha hb => exact heeds_merge hp.wellFormed (ha trivial) (hb trivial)
  | raiseTaint id _ stack => exact heeds_raiseTaint hd id _ stack
  | markInput id => exact heeds_markAll hd [id]
  | addTargetCall id call => exact heeds_addTargetCall hd id call
  | @addDeferredInput owner target _ => exact heeds_addDeferredInput hd owner target
  | @addDeferredTaint owner edge _ _ => exact heeds_addDeferredTaint hd owner edge

theorem Acts.heeds (ha : Acts True taints sinks h h') (hp : h.Proper) : Heeds h h' := by
  induction ha with
  | refl => exact .refl h
  | tail hacts hact ih => exact ih.trans (hact.heeds (Acts.evolves hacts trivial hp).proper)

end Heap

end SinkTrace
