import SinkTrace.Proofs.Heap.Growth

/-!
Every operation of the heap, given ids of the arena, leads from a proper heap to a proper heap and
loses nothing on the way.
-/

namespace SinkTrace

namespace Heap

/-- The heap is well formed, and everything below a deep input is marked. -/
structure Proper (h : Heap) : Prop where
  wellFormed : h.WellFormed
  closed : h.InputClosed []

/-- `h'` is a proper heap that `h` may have grown into. -/
structure Evolves (h h' : Heap) : Prop where
  proper : h'.Proper
  grows : Grows h h'

variable {h h' h'' : Heap}

theorem proper_empty : Proper {} := by
  have hd : ∀ u, (entity {} u).deep = false := fun u => by
    rw [entity_eq]
    rfl
  exact ⟨wellFormed_empty, fun hu => by simp [hd] at hu, fun hu => by simp [hd] at hu⟩

theorem Evolves.refl (hp : h.Proper) : Evolves h h := ⟨hp, Grows.refl h⟩

theorem Evolves.trans (h₁ : Evolves h h') (h₂ : Evolves h' h'') : Evolves h h'' :=
  ⟨h₂.proper, h₁.grows.trans h₂.grows⟩

/-- An id of the arena stays one. -/
theorem Evolves.lt_size (he : Evolves h h') {u : EntityId} (hu : u < h.size) : u < h'.size :=
  Nat.lt_of_lt_of_le hu he.grows.size

/-! Changes that leave edges and deep inputs alone. -/

theorem Proper.of_core (hp : h.Proper) (hw : h'.WellFormed) (ha : Alike Entity.core h h')
    (ht : ∀ u, h.taint u ≤ h'.taint u) : Evolves h h' := by
  have hdeep : ∀ u, (h'.entity u).deep = (h.entity u).deep :=
    fun u => congrArg Prod.snd (ha.entity u)
  have hedges : Alike Entity.edges h h' := ha.comp Prod.fst
  refine ⟨⟨hw, fun hd hf => ?_, fun {u} hd => ?_⟩,
    Grows.of_alike hedges ht fun {u} hd => (hdeep u).trans hd⟩
  · rw [hdeep] at hd
    rw [hedges.fields.field?] at hf
    rw [owed_nil, hdeep, ← owed_nil]
    exact hp.closed.children hd hf
  · rw [hdeep] at hd
    exact Nat.le_trans (hp.closed.taint hd) (ht u)

theorem taint_update_le {id : EntityId} {f : Entity → Entity}
    (ht : (h.entity id).taint ≤ (f (h.entity id)).taint) (u : EntityId) :
    h.taint u ≤ (h.update id f).taint u := by
  unfold taint
  by_cases hu : h.find id = h.find u
  · rw [← entity_congr hu, entity_eq (h.update id f), find_update, ← hu, live?_update, if_pos rfl]
    cases he : h.live? (h.find id) with
    | none =>
      rw [entity_eq, he]
      exact Nat.le_refl _
    | some e =>
      have hid : h.entity id = e := by rw [entity_eq, he]; rfl
      rw [hid] at ht ⊢
      exact ht
  · exact Nat.le_of_eq (by rw [entity_update_of_ne f hu])

theorem Proper.update (hp : h.Proper) {id : EntityId} {f : Entity → Entity}
    (hw : (h.update id f).WellFormed) (hf : ∀ e, (f e).core = e.core)
    (ht : (h.entity id).taint ≤ (f (h.entity id)).taint) : Evolves h (h.update id f) :=
  hp.of_core hw (alike_update h id hf) (taint_update_le ht)

theorem Evolves.note (he : Evolves h h') (id : EntityId) : Evolves h (h'.note id) := by
  refine he.trans (he.proper.of_core (he.proper.wellFormed.note id) (alike_note h' id) ?_)
  intro u
  unfold taint
  exact Nat.le_of_eq (by rw [entity_note])

theorem Proper.setOrigin (hp : h.Proper) (id : EntityId) (origin : Origin) :
    Evolves h (h.setOrigin id origin) :=
  hp.update (hp.wellFormed.setOrigin id origin) (fun _ => rfl) (Nat.le_refl _)

theorem Proper.raiseTaint (hp : h.Proper) (id : EntityId) (taint : TaintId)
    (stack : Option CallStack) : Evolves h (h.raiseTaint id taint stack).2 := by
  have hw := hp.wellFormed.raiseTaint id taint stack
  unfold Heap.raiseTaint at hw ⊢
  simp only at hw ⊢
  split
  · exact .refl hp
  · rename_i hlt
    rw [if_neg hlt] at hw
    apply Evolves.note
    apply hp.update
    · exact hp.wellFormed.update _ (fun _ => rfl) (fun _ _ => .inl)
    · exact fun _ => rfl
    · exact Nat.le_of_lt (Nat.lt_of_not_le hlt)

theorem core_addTargetCall (e : Entity) (call : TargetCall) :
    (e.addTargetCall call).core = e.core ∧ (e.addTargetCall call).taint = e.taint ∧
      ∀ t, (e.addTargetCall call).Awaits t ↔ e.Awaits t := by
  unfold Entity.addTargetCall
  split <;> exact ⟨rfl, rfl, fun _ => Iff.rfl⟩

theorem Proper.addTargetCall (hp : h.Proper) (id : EntityId) (call : TargetCall) :
    Evolves h (h.addTargetCall id call) := by
  unfold Heap.addTargetCall
  simp only
  split
  · exact .refl hp
  · apply Evolves.note
    apply hp.update
    · exact hp.wellFormed.update _
        (fun e => congrArg Prod.fst (core_addTargetCall e call).1)
        (fun e t hm => .inl (((core_addTargetCall e call).2.2 t).mp hm))
    · exact fun e => (core_addTargetCall e call).1
    · exact Nat.le_of_eq (core_addTargetCall _ call).2.1.symm

theorem Proper.addDeferredInput (hp : h.Proper) (owner : EntityId) {target : EntityId}
    (ht : target < h.size) : Evolves h (h.addDeferredInput owner target) := by
  unfold Heap.addDeferredInput
  simp only
  split
  · exact .refl hp
  · apply Evolves.note
    apply hp.update
    · apply hp.wellFormed.update
      · exact fun _ => rfl
      · intro e t hm
        rcases Entity.awaits_addDeferredInput hm with hm | rfl
        · exact .inl hm
        · exact .inr (find_lt_size ht)
    · exact fun _ => rfl
    · exact Nat.le_refl _

theorem Proper.addDeferredTaint (hp : h.Proper) (owner : EntityId) {edge : DeferredTaint}
    (ht : edge.target < h.size) : Evolves h (h.addDeferredTaint owner edge) := by
  apply Evolves.note
  apply hp.update
  · apply hp.wellFormed.update
    · exact fun _ => rfl
    · intro e t hm
      rcases Entity.awaits_addDeferredTaint hm with hm | rfl
      · exact .inl hm
      · exact .inr ht
  · exact fun _ => rfl
  · exact Nat.le_refl _

theorem Proper.takeDeferredInput (hp : h.Proper) (id : EntityId) :
    Evolves h (h.takeDeferredInput id).2 :=
  hp.update (hp.wellFormed.takeDeferredInput id) (fun _ => rfl) (Nat.le_refl _)

theorem Proper.takeDeferredTaint (hp : h.Proper) (id : EntityId) :
    Evolves h (h.takeDeferredTaint id).2 :=
  hp.update (hp.wellFormed.takeDeferredTaint id) (fun _ => rfl) (Nat.le_refl _)

theorem Proper.drainTransitions (hp : h.Proper) : Evolves h h.drainTransitions.2 := by
  refine hp.of_core hp.wellFormed.drainTransitions ⟨rfl, rfl, rfl, fun _ => rfl, fun _ => rfl⟩ ?_
  intro u
  have hnodes : h.drainTransitions.2.nodes = h.nodes := rfl
  unfold taint
  exact Nat.le_of_eq (by rw [entity_of_nodes hnodes])

theorem Proper.resolve (hp : h.Proper) (id : EntityId) : Evolves h (h.resolve id).2 := by
  obtain ⟨hs, _⟩ := same_compress h id hp.wellFormed.descending
  have hfield : ∀ u k, (h.resolve id).2.field? u k = h.field? u k := by
    intro u k
    have hfind : (h.compress id (h.find id)).find = h.find := funext hs.find
    rw [field?_eq, field?_eq]
    unfold Heap.resolve
    rw [hs.entity, hfind]
  have hentity : ∀ u, (h.resolve id).2.entity u = h.entity u := hs.entity
  have hfind : ∀ u, (h.resolve id).2.find u = h.find u := hs.find
  refine ⟨⟨hp.wellFormed.resolve id, fun {u k w} hd hf => ?_, fun {u} hd => ?_⟩,
    Nat.le_of_eq hs.size.symm, fun hf => ?_, fun hf => ?_, fun u => ?_, fun {u} hd => ?_⟩
  · rw [hentity] at hd
    rw [hfield] at hf
    rw [owed_nil, hentity, ← owed_nil]
    exact hp.closed.children hd hf
  · rw [hentity] at hd
    unfold taint
    rw [hentity]
    exact hp.closed.taint hd
  · rw [hfind, hfind, hf]
  · rw [hfield, hfind, hf, find_of_field? hf]
  · unfold taint
    exact Nat.le_of_eq (by rw [hentity])
  · rw [hentity, hd]

/-! New entities and edges. -/

theorem field?_create (h : Heap) (origin : Option Origin) (u : EntityId) (k : FieldName) :
    (h.create origin).2.field? u k = h.field? u k := by
  have hfind : (h.create origin).2.find = h.find := funext (find_create h origin)
  rw [field?_eq, field?_eq, entity_eq, entity_eq, hfind, live?_create]
  split
  · rename_i hu
    have hnone : h.live? (h.find u) = none := by
      cases he : h.live? (h.find u) with
      | none => rfl
      | some e => exact absurd (lt_size_of_live? he) (by rw [hu]; exact Nat.lt_irrefl _)
    rw [hnone]
    rfl
  · rfl

theorem entity_create_of_lt {u : EntityId} (hu : u < h.size) (origin : Option Origin) :
    (h.create origin).2.entity u = h.entity u := by
  rw [entity_eq, entity_eq, find_create, live?_create,
    if_neg (Nat.ne_of_lt (find_lt_size hu))]

theorem entity_create_self (h : Heap) (origin : Option Origin) :
    (h.create origin).2.entity h.size = { origin } := by
  rw [entity_eq, find_create, find_of_size_le (Nat.le_refl _), live?_create, if_pos rfl]
  rfl

theorem entity_of_size_le {u : EntityId} (hu : h.size ≤ u) : h.entity u = {} := by
  rw [entity_eq, find_of_size_le hu]
  cases he : h.live? u with
  | none => rfl
  | some e => exact absurd (lt_size_of_live? he) (Nat.not_lt.mpr hu)

theorem lt_size_of_deep {u : EntityId} (hd : (h.entity u).deep = true) : u < h.size := by
  rcases Nat.lt_or_ge u h.size with hlt | hge
  · exact hlt
  · rw [entity_of_size_le hge] at hd
    cases hd

theorem lt_size_of_taint {u : EntityId} (ht : 0 < h.taint u) : u < h.size := by
  rcases Nat.lt_or_ge u h.size with hlt | hge
  · exact hlt
  · rw [taint, entity_of_size_le hge] at ht
    exact absurd ht (Nat.lt_irrefl 0)

/-- Old entities keep their marks where one entity is added. -/
theorem Grows.of_old (hs : h.size ≤ h'.size) (hfind : ∀ u, h'.find u = h.find u)
    (hfield : ∀ {u k w}, h.field? u k = some w → h'.field? u k = some w)
    (hent : ∀ {u}, u < h.size → (h'.entity u).taint = (h.entity u).taint ∧
      (h'.entity u).deep = (h.entity u).deep) : Grows h h' := by
  refine ⟨hs, fun hf => by rw [hfind, hfind, hf], fun hf => ?_, fun u => ?_, fun hd => ?_⟩
  · rw [hfield hf, hfind, find_of_field? hf]
  · rcases Nat.eq_zero_or_pos (h.taint u) with hz | hpos
    · rw [hz]
      exact Nat.zero_le _
    · exact Nat.le_of_eq (hent (lt_size_of_taint hpos)).1.symm
  · rw [(hent (lt_size_of_deep hd)).2, hd]

theorem Proper.create (hp : h.Proper) (origin : Option Origin) :
    Evolves h (h.create origin).2 := by
  have hold : ∀ {u}, ((h.create origin).2.entity u).deep = true → u < h.size := by
    intro u hd
    rcases Nat.lt_or_ge u h.size with hlt | hge
    · exact hlt
    · rcases Nat.lt_or_eq_of_le hge with hlt | rfl
      · have hsize : (h.create origin).2.size ≤ u := by
          rw [size_create]
          exact hlt
        rw [entity_of_size_le hsize] at hd
        cases hd
      · rw [entity_create_self] at hd
        cases hd
  refine ⟨⟨hp.wellFormed.create origin, fun {u k w} hd hf => ?_, fun {u} hd => ?_⟩,
    Grows.of_old ?_ (find_create h origin) ?_ ?_⟩
  · have hu := hold hd
    rw [entity_create_of_lt hu] at hd
    rw [field?_create] at hf
    rw [owed_nil, entity_create_of_lt (hp.wellFormed.field?_lt hf), ← owed_nil]
    exact hp.closed.children hd hf
  · have hu := hold hd
    rw [entity_create_of_lt hu] at hd
    rw [taint, entity_create_of_lt hu]
    exact hp.closed.taint hd
  · rw [size_create]
    exact Nat.le_succ _
  · intro u k w hf
    rw [field?_create, hf]
  · intro u hu
    rw [entity_create_of_lt hu]
    exact ⟨rfl, rfl⟩

/-- An edge under a new name; its child is due if the owner is a deep input. -/
theorem InputClosed.link (hc : h.InputClosed []) {owner child : EntityId} {eo ec : Entity}
    (ho : h.live? owner = some eo) (hch : h.live? child = some ec) (key : FieldName)
    {promoted : List EntityId} (hdue : eo.deep = true → h.Owed promoted child) :
    (h.link owner key child).InputClosed promoted := by
  have ha := alike_link h owner key child
  have hent : ∀ u, ((h.link owner key child).entity u).taint = (h.entity u).taint ∧
      ((h.link owner key child).entity u).deep = (h.entity u).deep :=
    fun u => Entity.marks_of_bare_eq (ha.entity u)
  have howed : ∀ {u}, h.Owed promoted u → (h.link owner key child).Owed promoted u := by
    rintro u (hd | ⟨p, hp, hf⟩)
    · exact .inl ((hent u).2.trans hd)
    · exact .inr ⟨p, hp, by rw [ha.find, ha.find, hf]⟩
  constructor
  · intro u k w hd hf
    rw [(hent u).2] at hd
    rw [field?_link ho hch] at hf
    split at hf
    · rename_i hu
      cases hf
      rw [← entity_find, hu.1, entity_of_live? ho] at hd
      exact howed (hdue hd)
    · exact howed (.inl (owed_nil.mp (hc.children hd hf)))
  · intro u hd
    rw [(hent u).2] at hd
    rw [Heap.taint, (hent u).1]
    exact hc.taint hd

theorem grows_link {owner child : EntityId} {eo ec : Entity} (ho : h.live? owner = some eo)
    (hch : h.live? child = some ec) {key : FieldName} (hk : eo.fields.get? key = none) :
    Grows h (h.link owner key child) := by
  have ha := alike_link h owner key child
  refine Grows.of_old (Nat.le_of_eq ha.size.symm) ha.find ?_
    fun {u} _ => Entity.marks_of_bare_eq (ha.entity u)
  intro u k w hf
  rw [field?_link ho hch]
  split
  · rename_i hu
    rw [hu.2, field?_congr ((find_of_live? ho).symm ▸ hu.1 : h.find u = h.find owner),
      field?_of_live? ho, hk] at hf
    cases hf
  · exact hf

theorem entity_withChild_of_lt {owner u : EntityId} (key : FieldName) (hu : u < h.size) :
    (h.withChild owner key).entity u = h.entity u := by
  rw [entity_eq, entity_eq, find_withChild, live?_withChild,
    if_neg (Nat.ne_of_lt (find_lt_size hu))]

theorem entity_withChild_self (h : Heap) (owner : EntityId) (key : FieldName) :
    (h.withChild owner key).entity h.size = h.newChild owner key := by
  rw [entity_eq, find_withChild, find_of_size_le (Nat.le_refl _), live?_withChild, if_pos rfl]
  rfl

theorem field?_withChild (h : Heap) (owner : EntityId) (key : FieldName) (u : EntityId)
    (k : FieldName) : (h.withChild owner key).field? u k = h.field? u k := by
  have ha : Alike Entity.fields (h.create (some (.unknownField key))).2
      (h.withChild owner key) := by
    unfold withChild
    simp only
    split
    · exact alike_update _ _ fun _ => rfl
    · exact Alike.refl _ _
  rw [ha.field?, field?_create]

theorem Proper.withChild (hp : h.Proper) (owner : EntityId) (key : FieldName) :
    Evolves h (h.withChild owner key) := by
  have hw := hp.wellFormed.withChild owner key
  have hcases : ∀ {u}, ((h.withChild owner key).entity u).deep = true →
      u < h.size ∨ u = h.size := by
    intro u hd
    have hlt := lt_size_of_deep hd
    rw [size_withChild] at hlt
    exact Nat.lt_succ_iff_lt_or_eq.mp hlt
  refine ⟨⟨hw, fun {u k w} hd hf => ?_, fun {u} hd => ?_⟩,
    Grows.of_old ?_ (find_withChild h owner key) ?_ ?_⟩
  · rw [field?_withChild] at hf
    rw [entity_withChild_of_lt key (lt_size_of_field? hf)] at hd
    rw [owed_nil, entity_withChild_of_lt key (hp.wellFormed.field?_lt hf), ← owed_nil]
    exact hp.closed.children hd hf
  · rcases hcases hd with hu | rfl
    · rw [entity_withChild_of_lt key hu] at hd
      rw [Heap.taint, entity_withChild_of_lt key hu]
      exact hp.closed.taint hd
    · rw [entity_withChild_self] at hd
      have hdeep : (h.entity owner).deep = true := hd
      rw [Heap.taint, entity_withChild_self, newChild]
      simp only [hdeep, ↓reduceIte]
      exact Nat.le_refl _
  · rw [size_withChild]
    exact Nat.le_succ _
  · intro u k w hf
    rw [field?_withChild, hf]
  · intro u hu
    rw [entity_withChild_of_lt key hu]
    exact ⟨rfl, rfl⟩

theorem Proper.loadField (hp : h.Proper) {owner : EntityId} (ho : owner < h.size)
    (key : FieldName) : Evolves h (h.loadField owner key).2 := by
  have hw := hp.wellFormed.loadField ho key
  cases hg : (h.entity owner).fields.get? key with
  | some child =>
    rw [loadField_of_some hg]
    exact .refl hp
  | none =>
    rw [loadField_of_none hg] at hw ⊢
    have hgrown := hp.withChild owner key
    have hown := hp.wellFormed.live?_withChild_owner ho key
    have hchild : (h.withChild owner key).live? h.size = some (h.newChild owner key) := by
      rw [live?_withChild, if_pos rfl]
    refine hgrown.trans ⟨⟨hw, hgrown.proper.closed.link hown hchild key ?_⟩,
      grows_link hown hchild hg⟩
    intro hd
    rw [owed_nil, entity_withChild_self]
    exact hd

/-! Marking and merging. -/

theorem InputClosed.weaken (hc : h.InputClosed []) (promoted : List EntityId) :
    h.InputClosed promoted :=
  ⟨fun hd hf => .inl (owed_nil.mp (hc.children hd hf)), hc.taint⟩

theorem Proper.markInput (hp : h.Proper) (id : EntityId) : Evolves h (h.markInput id) :=
  have hc := @InputClosed.markAll h [id] [] hp.wellFormed (hp.closed.weaken _)
  ⟨⟨hp.wellFormed.markInput id, hc.1⟩, hp.wellFormed.grows_markAll [id]⟩

theorem Proper.merge (hp : h.Proper) {a b : EntityId} (ha : a < h.size) (hb : b < h.size) :
    Evolves h (h.merge a b).2 :=
  have ⟨hg, hc, _⟩ := hp.wellFormed.grows_merge hp.closed ha hb
  ⟨⟨hp.wellFormed.merge ha hb, hc⟩, hg⟩

theorem storeField_of_some {owner value existing : EntityId} {key : FieldName}
    (hg : (h.entity owner).fields.get? key = some existing) :
    h.storeField owner key value = (h.merge existing (h.find value)).2 := by
  simp only [storeField, entity_find, hg]

theorem storeField_of_none {owner value : EntityId} {key : FieldName}
    (hg : (h.entity owner).fields.get? key = none) :
    h.storeField owner key value =
      if (h.entity owner).deep then
        (h.link (h.find owner) key (h.find value)).markInput (h.find value)
      else h.link (h.find owner) key (h.find value) := by
  have hd : ((h.link (h.find owner) key (h.find value)).entity (h.find owner)).deep =
      (h.entity owner).deep := by
    rw [(Entity.marks_of_bare_eq ((alike_link h _ key _).entity _)).2, entity_find]
  simp only [storeField, entity_find, hg, hd]

theorem Proper.storeField (hp : h.Proper) {owner value : EntityId} (ho : owner < h.size)
    (hv : value < h.size) (key : FieldName) : Evolves h (h.storeField owner key value) := by
  have hown := hp.wellFormed.live? ho
  have hval := hp.wellFormed.live? hv
  cases hg : (h.entity owner).fields.get? key with
  | some existing =>
    rw [storeField_of_some hg]
    obtain ⟨e, he, _⟩ := hp.wellFormed.child hown hg
    exact hp.merge (lt_size_of_live? he) (find_lt_size hv)
  | none =>
    rw [storeField_of_none hg]
    have hw := hp.wellFormed.link hown hval hg
    have hgrows := grows_link hown hval hg
    split
    · have hc : (h.link (h.find owner) key (h.find value)).InputClosed [h.find value] :=
        hp.closed.link hown hval key fun _ => .inr ⟨_, List.mem_singleton_self _, rfl⟩
      have hm := @InputClosed.markAll _ [h.find value] [] hw hc
      exact ⟨⟨hw.markInput _, hm.1⟩, hgrows.trans (hw.grows_markAll _)⟩
    · rename_i hd
      have hc : (h.link (h.find owner) key (h.find value)).InputClosed [] :=
        hp.closed.link hown hval key fun hdeep => absurd hdeep hd
      exact ⟨⟨hw, hc⟩, hgrows⟩

end Heap

end SinkTrace
