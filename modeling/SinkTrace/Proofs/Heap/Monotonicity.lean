import SinkTrace.Proofs.Heap.Acts
import SinkTrace.Proofs.Heap.Runs

/-!
Nothing that a heap knows is forgotten. Taints rise, input stays input, what became one entity stays
one, fields lead on to where they led, and a recorded call stays recorded on whatever the entity is
merged into; whatever the hooks of a gluing make of taints and stacks.
-/

namespace SinkTrace

namespace Heap

variable {taints : TaintId → Prop} {sinks : SinkCall → Prop} {h h' h'' : Heap}

/-- A recorded call is found again. -/
def KeepsCalls (h h' : Heap) : Prop :=
  ∀ u, ∀ call ∈ (h.entity u).targetCalls, call ∈ (h'.entity u).targetCalls

theorem KeepsCalls.refl (h : Heap) : KeepsCalls h h := fun _ _ hm => hm

theorem KeepsCalls.trans (h₁ : KeepsCalls h h') (h₂ : KeepsCalls h' h'') : KeepsCalls h h'' :=
  fun u call hm => h₂ u call (h₁ u call hm)

theorem KeepsCalls.of_alike (ha : Alike Entity.targetCalls h h') : KeepsCalls h h' :=
  fun u _ hm => ha.entity u ▸ hm

theorem keepsCalls_update_alike (h : Heap) (id : EntityId) {g : Entity → Entity}
    (hg : ∀ e : Entity, (g e).targetCalls = e.targetCalls) : KeepsCalls h (h.update id g) :=
  .of_alike (alike_update h id hg)

theorem keepsCalls_update (hd : h.Descending) (id : EntityId) {g : Entity → Entity}
    (hg : ∀ e : Entity, ∀ call ∈ e.targetCalls, call ∈ (g e).targetCalls) :
    KeepsCalls h (h.update id g) := by
  intro u call hm
  by_cases hu : h.find id = h.find u
  · rcases Nat.lt_or_ge id h.size with hid | hid
    · rw [hd.entity_update_self hid g hu]
      exact hg _ call hm
    · rw [← entity_congr hu, entity_of_size_le hid] at hm
      exact absurd hm List.not_mem_nil
  · rwa [entity_update_of_ne g hu]

theorem KeepsCalls.note (hk : KeepsCalls h h') (id : EntityId) : KeepsCalls h (h'.note id) :=
  fun u call hm => (entity_note h' id u).symm ▸ hk u call hm

/-- Nothing is recorded on an entity before it is made. -/
theorem KeepsCalls.of_old (hold : ∀ {u}, u < h.size → h'.entity u = h.entity u) :
    KeepsCalls h h' := by
  intro u call hm
  rcases Nat.lt_or_ge u h.size with hu | hu
  · rwa [hold hu]
  · rw [entity_of_size_le hu] at hm
    exact absurd hm List.not_mem_nil

/-! The acts. -/

theorem keepsCalls_addTargetCall (hd : h.Descending) (id : EntityId) (call : TargetCall) :
    KeepsCalls h (h.addTargetCall id call) := by
  unfold Heap.addTargetCall
  simp only
  split
  · exact .refl h
  · exact (keepsCalls_update hd _ fun _ _ hm => Entity.mem_addTargetCall.mpr (.inl hm)).note _

theorem Descending.mem_addTargetCall (hd : h.Descending) {id : EntityId} (hid : id < h.size)
    (call : TargetCall) : call ∈ ((h.addTargetCall id call).entity id).targetCalls := by
  unfold Heap.addTargetCall
  simp only
  split
  · rename_i hhas
    rw [entity_find] at hhas
    exact Entity.hasCall_iff.mp hhas
  · rw [entity_note, hd.entity_update_self (find_lt_size hid) _ (find_find h id)]
    exact Entity.mem_addTargetCall.mpr (.inr rfl)

theorem keepsCalls_markAll (h : Heap) (work : List EntityId) : KeepsCalls h (h.markAll work) := by
  fun_induction Heap.markAll h work with
  | case1 => exact .refl _
  | case2 h id rest _ ih =>
    have hone : KeepsCalls h (h.markOne id) := by
      apply KeepsCalls.note
      exact keepsCalls_update_alike h id fun _ => rfl
    exact hone.trans ih
  | case3 h id rest _ ih => exact ih

theorem keepsCalls_markEach (h : Heap) (ids : List EntityId) :
    KeepsCalls h (ids.foldl markInput h) := by
  induction ids generalizing h with
  | nil => exact .refl h
  | cons id ids ih => exact (keepsCalls_markAll h [id]).trans (ih (h.markInput id))

theorem keepsCalls_link (h : Heap) (owner : EntityId) (key : FieldName) (child : EntityId) :
    KeepsCalls h (h.link owner key child) :=
  .of_alike ((alike_link h owner key child).comp Entity.targetCalls)

theorem keepsCalls_loadField (h : Heap) (owner : EntityId) (key : FieldName) :
    KeepsCalls h (h.loadField owner key).2 := by
  cases hg : (h.entity owner).fields.get? key with
  | some child =>
    rw [loadField_of_some hg]
    exact .refl h
  | none =>
    rw [loadField_of_none hg]
    have hchild : KeepsCalls h (h.withChild owner key) :=
      .of_old fun hu => entity_withChild_of_lt key hu
    exact hchild.trans (keepsCalls_link _ _ _ _)

/-- The survivor has the calls of both; those of the other entities are as they were. -/
theorem keepsCalls_absorb (hw : h.WellFormed) {x y : EntityId} {ex ey : Entity}
    (hx : h.live? x = some ex) (hy : h.live? y = some ey) (hlt : x < y) :
    KeepsCalls h (h.absorb x y).heap := by
  intro u call hm
  by_cases hu : (h.absorb x y).heap.find u = x
  · obtain ⟨e, hb, he⟩ := entity_absorb_self hw hx hy hlt hu
    have hcalls : e.bare.targetCalls = ex.bare.targetCalls := congrArg Entity.targetCalls hb
    simp only [Entity.bare] at hcalls
    rw [he, Entity.mem_targetCalls_takeOver, hcalls]
    rcases (find_absorb_eq_iff hx hy hlt u).mp hu with hf | hf
    · rw [← entity_find, hf, entity_of_live? hx] at hm
      exact .inl hm
    · rw [← entity_find, hf, entity_of_live? hy] at hm
      exact .inr hm
  · have hcalls := congrArg Entity.targetCalls (entity_absorb_of_ne hw hx hy hlt hu)
    simp only [Entity.bare] at hcalls
    rwa [hcalls]

theorem keepsCalls_merge (hw : h.WellFormed) {a b : EntityId} (ha : a < h.size)
    (hb : b < h.size) : KeepsCalls h (h.merge a b).2 := by
  obtain ⟨-, hpairs⟩ := @WellFormed.mergePairs_keeps h (fun h' _ _ => KeepsCalls h h')
    (fun _ hk => hk) (fun hw' hx hy hlt _ hk => hk.trans (keepsCalls_absorb hw' hx hy hlt)) _ []
    hw (mem_singleton_pair ha hb) (.refl h)
  exact hpairs.trans (keepsCalls_markEach _ _)

theorem keepsCalls_storeField (hw : h.WellFormed) {owner value : EntityId} (hv : value < h.size)
    (key : FieldName) : KeepsCalls h (h.storeField owner key value) := by
  cases hg : (h.entity owner).fields.get? key with
  | some existing =>
    obtain ⟨e, he, -⟩ := hw.child (live?_of_get? hg) hg
    rw [storeField_of_some hg]
    exact keepsCalls_merge hw (lt_size_of_live? he) (find_lt_size hv)
  | none =>
    have hlink := keepsCalls_link h (h.find owner) key (h.find value)
    rw [storeField_of_none hg]
    split
    · exact hlink.trans (keepsCalls_markAll _ _)
    · exact hlink

theorem Act.keepsCalls (ha : Act True taints sinks h h') (hp : h.Proper) : KeepsCalls h h' := by
  have hd := hp.wellFormed.descending
  cases ha with
  | create origin => exact .of_old fun hu => entity_create_of_lt hu origin
  | setOrigin id origin => exact keepsCalls_update_alike h id fun _ => rfl
  | resolve id =>
    have hsame := (same_compress h id hd).1
    exact fun u call hm => (hsame.entity u).symm ▸ hm
  | @loadField owner _ key => exact keepsCalls_loadField h owner key
  | storeField _ hv key => exact keepsCalls_storeField hp.wellFormed (hv trivial) key
  | merge ha hb => exact keepsCalls_merge hp.wellFormed (ha trivial) (hb trivial)
  | raiseTaint id _ stack =>
    unfold Heap.raiseTaint
    simp only
    split
    · exact .refl h
    · apply KeepsCalls.note
      exact keepsCalls_update_alike h _ fun _ => rfl
  | markInput id => exact keepsCalls_markAll h [id]
  | addTargetCall id call => exact keepsCalls_addTargetCall hd id call
  | @addDeferredInput owner target _ =>
    unfold Heap.addDeferredInput
    simp only
    split
    · exact .refl h
    · apply KeepsCalls.note
      exact keepsCalls_update_alike h _ fun _ => rfl
  | @addDeferredTaint owner edge _ _ =>
    apply KeepsCalls.note
    exact keepsCalls_update_alike h _ fun _ => rfl

theorem Acts.keepsCalls (ha : Acts True taints sinks h h') (hp : h.Proper) : KeepsCalls h h' := by
  induction ha with
  | refl => exact .refl h
  | tail hacts hact ih => exact ih.trans (hact.keepsCalls (Acts.evolves hacts trivial hp).proper)

/-! Steps and runs. -/

/-- A step consists of acts, or it takes edges or the log away. -/
theorem Step.acts (hs : Step h h') (hp : h.Proper) :
    Acts True (fun _ => True) (fun _ => True) h h' ∨ Alike Entity.targetCalls h h' := by
  cases hs with
  | create origin => exact .inl (.single (.create origin))
  | setOrigin _ origin => exact .inl (.single (.setOrigin _ origin))
  | resolve _ => exact .inl (.single (.resolve _))
  | loadField ho key => exact .inl (.single (.loadField (fun _ => ho) key))
  | storeField ho hv key => exact .inl (.single (.storeField (fun _ => ho) (fun _ => hv) key))
  | merge ha hb => exact .inl (.single (.merge (fun _ => ha) fun _ => hb))
  | raiseTaint _ _ stack => exact .inl (.single (.raiseTaint _ trivial stack))
  | markInput _ => exact .inl (.single (.markInput _))
  | addTargetCall _ call => exact .inl (.single (.addTargetCall _ call))
  | addDeferredInput _ ht => exact .inl (.single (.addDeferredInput _ fun _ => ht))
  | addDeferredTaint _ ht => exact .inl (.single (.addDeferredTaint _ (fun _ => ht) trivial))
  | takeDeferredInput _ => exact .inr (alike_update h _ fun _ => rfl)
  | takeDeferredTaint _ => exact .inr (alike_update h _ fun _ => rfl)
  | drainTransitions => exact .inr ⟨rfl, rfl, rfl, fun _ => rfl, fun _ => rfl⟩
  | glue callee r mode g hm root ha => exact .inl (g.acts_apply callee r mode ⟨hp, hm⟩ root ha)
  | matchedValue callee r mode g hm id =>
    exact .inl (g.acts_matchedValue callee r mode ⟨hp, hm⟩ id)

theorem Step.keepsCalls (hs : Step h h') (hp : h.Proper) : KeepsCalls h h' := by
  rcases hs.acts hp with hacts | halike
  · exact hacts.keepsCalls hp
  · exact .of_alike halike

theorem Reachable.keepsCalls (hr : h.Reachable) (hs : Relation.ReflTransGen Step h h') :
    KeepsCalls h h' := by
  induction hs with
  | refl => exact .refl h
  | tail hpre hs ih =>
    have hmid : Reachable _ := Relation.ReflTransGen.trans hr hpre
    exact ih.trans (hs.keepsCalls hmid.proper)

/-- Whatever happens to a heap that a run can build, nothing that is known of an id is lost. -/
theorem reachable_monotone (hr : h.Reachable) (hs : Relation.ReflTransGen Step h h') :
    h.size ≤ h'.size ∧ ∀ u,
      h.taint u ≤ h'.taint u ∧
      ((h.entity u).deep = true → (h'.entity u).deep = true) ∧
      (∀ v, h.find u = h.find v → h'.find u = h'.find v) ∧
      (∀ key child, h.field? u key = some child → h'.field? u key = some (h'.find child)) ∧
      ∀ call ∈ (h.entity u).targetCalls, call ∈ (h'.entity u).targetCalls := by
  have hg := hr.grows hs
  have hk := hr.keepsCalls hs
  exact ⟨hg.size, fun u => ⟨hg.taint u, fun hd => hg.deep hd, fun _ hf => hg.same hf,
    fun _ _ hf => hg.field hf, hk u⟩⟩

/-- A call by the entry point. -/
def outcry : TargetCall := ⟨"a.B.c()V", .empty⟩

/-- Two entities, the second of which has a recorded call. -/
def observed : Heap := ((create {} none).2.create none).2.addTargetCall 1 outcry

/-- The call is still there after the second entity became a forward to the first one. -/
theorem observed_monotone : observed.Reachable ∧
    Relation.ReflTransGen Step observed (observed.merge 0 1).2 ∧
    outcry ∈ (observed.entity 1).targetCalls ∧
    outcry ∈ ((observed.merge 0 1).2.entity 1).targetCalls := by
  have h₀ : Reachable {} := .refl
  have h₂ := (h₀.step (.create none)).step (.create none)
  have hsize : 1 < ((create {} none).2.create none).2.size := by decide
  have hnote := Step.addTargetCall hsize outcry
  have hr : observed.Reachable := h₂.step hnote
  have hgrown : 1 < observed.size := (hnote.evolves h₂.proper).lt_size hsize
  have hmerge : Relation.ReflTransGen Step observed (observed.merge 0 1).2 :=
    .single (.merge (Nat.lt_of_le_of_lt (Nat.zero_le 1) hgrown) hgrown)
  have hnoted : outcry ∈ (observed.entity 1).targetCalls :=
    h₂.proper.wellFormed.descending.mem_addTargetCall hsize outcry
  exact ⟨hr, hmerge, hnoted, ((reachable_monotone hr hmerge).2 1).2.2.2.2 _ hnoted⟩

end Heap

end SinkTrace
