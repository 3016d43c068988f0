import SinkTrace.Proofs.Engine.Settling
import SinkTrace.Proofs.Heap.Coverage
import SinkTrace.Proofs.Heap.Heeding

/-!
Deferred edges are promises, and settling redeems them. An edge that was added is still with its
owner, or it has fired; whoever owns an edge that is due is in the log, so once the log has run dry
every edge of an input has fired.
-/

namespace SinkTrace

namespace Heap

variable {h h' : Heap} {todo : List EntityId} {owner target : EntityId} {edge : DeferredTaint}

/-- Where an edge is due, the log or `todo` leads to its owner. -/
def Alert (h : Heap) (todo : List EntityId) : Prop :=
  ∀ u, (h.entity u).Quiet ∨ h.Logged (h.find u) ∨ ∃ t ∈ todo, h.find t = h.find u

theorem alert_empty : Alert {} [] := by
  intro u
  rw [entity_of_size_le (Nat.zero_le u)]
  exact .inl (Entity.quiet_of_none rfl rfl)

theorem Alert.minds (ha : h.Alert todo) (hm : Minds h h') : h'.Alert todo := by
  intro u
  rcases ha u with hq | hl | ⟨t, ht, hf⟩
  · exact (hm.quiet hq).imp_right .inl
  · exact .inr (.inl (hm.logged hl))
  · exact .inr (.inr ⟨t, ht, hm.same hf⟩)

theorem find_drainTransitions (h : Heap) (u : EntityId) :
    h.drainTransitions.2.find u = h.find u :=
  have hn : h.drainTransitions.2.nodes = h.nodes := rfl
  find_of_nodes hn u

theorem entity_drainTransitions (h : Heap) (u : EntityId) :
    h.drainTransitions.2.entity u = h.entity u :=
  have hn : h.drainTransitions.2.nodes = h.nodes := rfl
  entity_of_nodes hn u

/-- What is in the log is to be done. -/
theorem Alert.drainTransitions (ha : h.Alert []) :
    h.drainTransitions.2.Alert h.drainTransitions.1 := by
  intro u
  rw [entity_drainTransitions, find_drainTransitions]
  rcases ha u with hq | ⟨t, hm, hf⟩ | ⟨t, ht, -⟩
  · exact .inl hq
  · refine .inr (.inr ⟨h.find t, ?_, by rw [find_drainTransitions, find_find, hf]⟩)
    exact (IdSet.mem_distinct _ _).mpr (List.mem_map.mpr ⟨t, Array.mem_toList_iff.mpr hm, rfl⟩)
  · exact absurd ht List.not_mem_nil

/-- An input edge has fired, or it is still there. -/
def InputKept (owner target : EntityId) (h : Heap) : Prop :=
  (h.entity target).deep = true ∨ ∃ t ∈ (h.entity owner).deferredInput, h.find t = h.find target

/-- A taint edge has fired, or it is still there. -/
def TaintKept (owner : EntityId) (edge : DeferredTaint) (h : Heap) : Prop :=
  TaintId.firstSource ≤ h.taint edge.target ∨ edge ∈ (h.entity owner).deferredTaint

theorem InputKept.heeds (hk : h.InputKept owner target) (hh : Heeds h h') (hg : Grows h h') :
    h'.InputKept owner target := by
  rcases hk with hd | ⟨t, hm, hf⟩
  · exact .inl (hg.deep hd)
  · exact .inr ⟨t, hh.input hm, hh.same hf⟩

theorem TaintKept.heeds (hk : h.TaintKept owner edge) (hh : Heeds h h') (hg : Grows h h') :
    h'.TaintKept owner edge :=
  hk.imp (fun ht => Nat.le_trans ht (hg.taint _)) fun hm => hh.taint hm

/-- What `h` promised, `h'` does. -/
structure KeepsPromises (h h' : Heap) : Prop where
  input : ∀ {owner target}, target < h.size → h.InputKept owner target → h'.InputKept owner target
  taint : ∀ {owner edge}, h.TaintKept owner edge → h'.TaintKept owner edge

theorem KeepsPromises.refl (h : Heap) : KeepsPromises h h := ⟨fun _ hk => hk, fun hk => hk⟩

theorem KeepsPromises.trans {h'' : Heap} (he : Evolves h h') (h₁ : KeepsPromises h h')
    (h₂ : KeepsPromises h' h'') : KeepsPromises h h'' :=
  ⟨fun hin hk => h₂.input (he.lt_size hin) (h₁.input hin hk), fun hk => h₂.taint (h₁.taint hk)⟩

theorem Heeds.keepsPromises (hh : Heeds h h') (hg : Grows h h') : KeepsPromises h h' :=
  ⟨fun _ hk => hk.heeds hh hg, fun hk => hk.heeds hh hg⟩

theorem inputKept_addDeferredInput (hp : h.Proper) (ho : owner < h.size)
    (hne : h.find owner ≠ h.find target) :
    (h.addDeferredInput owner target).InputKept owner target := by
  right
  unfold addDeferredInput
  simp only
  split
  · rename_i hno
    have hm : h.find target ∈ (h.entity (h.find owner)).deferredInput := hno.resolve_left hne
    rw [entity_find] at hm
    exact ⟨h.find target, hm, find_find h target⟩
  · refine ⟨h.find target, ?_, ?_⟩
    · rw [entity_note, hp.wellFormed.descending.entity_update_self (find_lt_size ho) _
        (find_find h owner)]
      exact Entity.mem_addDeferredInput.mpr (.inl rfl)
    · rw [find_note, find_note, find_update, find_update, find_find]

theorem taintKept_addDeferredTaint (hp : h.Proper) (ho : owner < h.size) (edge : DeferredTaint) :
    (h.addDeferredTaint owner edge).TaintKept owner edge :=
  .inr (hp.wellFormed.descending.mem_addDeferredTaint ho edge)

/-- A change that only takes edges away. -/
theorem minds_update (hd : h.Descending) (id : EntityId) {g : Entity → Entity}
    (hg : ∀ e : Entity, e.Quiet → (g e).Quiet) : Minds h (h.update id g) := by
  refine ⟨fun {u v} hs => ?_, fun {u} hlog => ?_, fun {u} hq => .inl ?_⟩
  · rw [find_update, find_update, hs]
  · obtain ⟨t, hm, hf⟩ := hlog
    exact ⟨t, hm, by rw [find_update, find_update, hf]⟩
  · by_cases hu : h.find id = h.find u
    · rcases Nat.lt_or_ge u h.size with hin | hge
      · have hid : id < h.size := by
          rcases Nat.lt_or_ge id h.size with hid | hout
          · exact hid
          · rw [find_of_size_le hout] at hu
            exact absurd (find_lt_size hin) (by rw [← hu]; exact Nat.not_lt.mpr hout)
        rw [hd.entity_update_self hid g hu]
        exact hg _ hq
      · rw [entity_of_size_le (by rw [size_update]; exact hge)]
        exact Entity.quiet_of_none rfl rfl
    · rwa [entity_update_of_ne g hu]

theorem minds_takeDeferredTaint (hd : h.Descending) (id : EntityId) :
    Minds h (h.takeDeferredTaint id).2 :=
  minds_update hd id fun _ hq ht => ⟨(hq ht).1, rfl⟩

theorem minds_takeDeferredInput (hd : h.Descending) (id : EntityId) :
    Minds h (h.takeDeferredInput id).2 :=
  minds_update hd id fun _ hq ht => ⟨Std.TreeSet.isEmpty_emptyc, (hq ht).2⟩

theorem alike_takeDeferredInput {α : Type} {view : Entity → α}
    (hv : ∀ e s, view { e with deferredInput := s } = view e) (h : Heap) (id : EntityId) :
    Alike view h (h.takeDeferredInput id).2 := alike_update h id fun e => hv e ∅

theorem alike_takeDeferredTaint {α : Type} {view : Entity → α}
    (hv : ∀ e s, view { e with deferredTaint := s } = view e) (h : Heap) (id : EntityId) :
    Alike view h (h.takeDeferredTaint id).2 := alike_update h id fun e => hv e []

/-! Firing the input edges of an entity. -/

/-- The input edges of an entity are taken, and their targets marked. -/
def fireInputs (h : Heap) (id : EntityId) : Heap :=
  (h.takeDeferredInput id).1.foldl markInput (h.takeDeferredInput id).2

theorem Proper.evolves_markEach (hp : h.Proper) (ids : List EntityId) :
    Evolves h (ids.foldl Heap.markInput h) := by
  induction ids generalizing h with
  | nil => exact .refl hp
  | cons id ids ih => exact (hp.markInput id).trans (ih (hp.markInput id).proper)

theorem Proper.fireInputs (hp : h.Proper) (id : EntityId) : Evolves h (h.fireInputs id) :=
  have htake := hp.takeDeferredInput id
  htake.trans (htake.proper.evolves_markEach _)

theorem Proper.minds_fireInputs (hp : h.Proper) (id : EntityId) : Minds h (h.fireInputs id) :=
  (minds_takeDeferredInput hp.wellFormed.descending id).trans
    ((hp.takeDeferredInput id).proper.wellFormed.heeds_markEach _).toMinds

theorem alike_waits_markInput (h : Heap) (id : EntityId) :
    Alike Entity.waits h (h.markInput id) := by
  unfold markInput
  generalize [id] = work
  fun_induction markAll h work with
  | case1 => exact .refl _ _
  | case2 h id rest _ ih =>
    have hone : Alike Entity.waits h (h.update id Entity.markDeep) := alike_update h id fun _ => rfl
    exact (hone.trans (alike_note _ _)).trans ih
  | case3 h id rest _ ih => exact ih

theorem Proper.waits_fireInputs (hp : h.Proper) {id : EntityId} (hid : id < h.size) :
    ((h.fireInputs id).entity id).waits = (∅, (h.entity id).deferredTaint) := by
  have hmarks := Alike.foldl alike_waits_markInput (h.takeDeferredInput id).1
    (h.takeDeferredInput id).2
  have htaken : (h.takeDeferredInput id).2.entity id = { h.entity id with deferredInput := ∅ } :=
    hp.wellFormed.descending.entity_update_self hid _ rfl
  unfold Heap.fireInputs
  rw [hmarks.entity, htaken]
  rfl

/-- The targets of the edges that were taken are deep inputs. -/
theorem Proper.deep_fireInputs (hp : h.Proper) {id t : EntityId} (ht : t < h.size)
    (hm : t ∈ (h.entity id).deferredInput) : ((h.fireInputs id).entity t).deep = true := by
  have htake := hp.takeDeferredInput id
  have hclosed := htake.proper.closed.weaken (h.takeDeferredInput id).1
  obtain ⟨-, howed⟩ := hclosed.markEach htake.proper.wellFormed
  refine owed_nil.mp (howed (htake.lt_size ht) (.inr ⟨h.find t, ?_, ?_⟩))
  · refine Std.TreeSet.mem_toList.mpr ((IdSet.mem_ofIds _ _).mpr ?_)
    exact List.mem_map.mpr ⟨t, Std.TreeSet.mem_toList.mpr hm, rfl⟩
  · exact htake.grows.find t

theorem Proper.keepsPromises_fireInputs (hp : h.Proper) (id : EntityId) :
    KeepsPromises h (h.fireInputs id) := by
  have htake := hp.takeDeferredInput id
  have hmarks := (htake.proper.wellFormed.heeds_markEach (h.takeDeferredInput id).1).keepsPromises
    (htake.proper.evolves_markEach (h.takeDeferredInput id).1).grows
  have hevolves := hp.fireInputs id
  refine ⟨fun {owner target} hin hk => ?_, fun {owner edge} hk => ?_⟩
  · rcases hk with hd | ⟨t, hm, hf⟩
    · exact .inl (hevolves.grows.deep hd)
    · by_cases ho : h.find owner = h.find id
      · -- the edge is among those that are taken now
        have ht : t < h.size := by
          rcases Nat.lt_or_ge t h.size with hlt | hge
          · exact hlt
          · rw [find_of_size_le hge] at hf
            exact absurd (find_lt_size hin) (by rw [← hf]; exact Nat.not_lt.mpr hge)
        rw [entity_congr ho] at hm
        have hdeep := hp.deep_fireInputs ht hm
        rw [entity_congr (hevolves.grows.same hf)] at hdeep
        exact .inl hdeep
      · have hkept : (h.takeDeferredInput id).2.InputKept owner target := by
          refine .inr ⟨t, ?_, htake.grows.same hf⟩
          have hsame : (h.takeDeferredInput id).2.entity owner = h.entity owner :=
            entity_update_of_ne _ fun he => ho he.symm
          rwa [hsame]
        exact hmarks.input (htake.lt_size hin) hkept
  · have hsame : ((h.takeDeferredInput id).2.entity owner).deferredTaint =
        (h.entity owner).deferredTaint :=
      (alike_takeDeferredInput (fun _ _ => rfl) h id).entity owner
    refine hmarks.taint (hk.imp (fun ht => Nat.le_trans ht (htake.grows.taint _)) fun hm => ?_)
    rwa [hsame]

end Heap

namespace Ledger

open Heap

variable {l : Ledger} {h h' : Heap}

/-- Ids of sources are given out from the first one on. -/
structure Issues (l : Ledger) : Prop where
  first : TaintId.firstSource ≤ l.findings.nextId
  replaced : ∀ r ∈ l.findings.redirects, r.1 < l.findings.nextId
  session : ∀ {key id}, l.session.sources.get? key = some id →
    TaintId.firstSource ≤ l.findings.resolve id

/-- So it is in every run. -/
theorem Sound.issues (hl : l.Sound) : l.Issues :=
  ⟨hl.orderly.first, hl.orderly.replaced, fun hm => hl.orderly.firstSource_le (hl.session hm)⟩

theorem Issues.sourceFor (hl : l.Issues) (call : SinkCall) :
    TaintId.firstSource ≤ (l.sourceFor call).1 ∧ (l.sourceFor call).2.Issues := by
  cases hm : l.session.source? call.stack call.offset with
  | some id =>
    simp only [Ledger.sourceFor, hm]
    exact ⟨hl.session hm, hl⟩
  | none =>
    rw [sourceFor_of_none hm]
    refine ⟨hl.first, ?_, fun r hr => ?_, fun {key id} hm => ?_⟩
    · simp only [Findings.nextId_addSource]
      exact Nat.le_succ_of_le hl.first
    · simp only [Findings.nextId_addSource, Findings.redirects_addSource] at hr ⊢
      exact Nat.lt_succ_of_lt (hl.replaced r hr)
    · simp only [Findings.resolve_addSource]
      have hm' : (l.session.sources.insert (call.stack.toList, call.offset)
          l.findings.nextId).get? key = some id := hm
      rw [Table.get?_insert] at hm'
      split at hm'
      · cases hm'
        exact (Findings.resolve_of_lt hl.replaced).symm ▸ hl.first
      · exact hl.session hm'

theorem Issues.withFindings (hl : l.Issues) {f : Findings} (hn : f.nextId = l.findings.nextId)
    (hr : f.redirects = l.findings.redirects) : Issues { l with findings := f } := by
  refine ⟨hn ▸ hl.first, hr ▸ hn ▸ hl.replaced, fun {key id} hm => ?_⟩
  have hsame : f.resolve id = l.findings.resolve id := by
    unfold Findings.resolve
    rw [hr]
  exact hsame ▸ hl.session hm

theorem Issues.reportCalls (hl : l.Issues) (taint : TaintId) (calls : List TargetCall) :
    (l.reportCalls taint calls).Issues := by
  unfold Ledger.reportCalls
  split
  · exact hl.withFindings
      (foldl_keeps (fun f call => (f.ids_addTrigger taint call).1) calls l.findings)
      (foldl_keeps (fun f call => (f.ids_addTrigger taint call).2) calls l.findings)
  · exact hl

/-! Firing the taint edges of an entity. -/

theorem Issues.fireTaints (hl : l.Issues) (h : Heap) (edges : List DeferredTaint) :
    Acts True (fun _ => True) (fun _ => True) h (edges.foldl fireTaint (h, l)).1 ∧
      (edges.foldl fireTaint (h, l)).2.Issues := by
  induction edges generalizing h l with
  | nil => exact ⟨.refl, hl⟩
  | cons edge edges ih =>
    obtain ⟨-, hl'⟩ := hl.sourceFor edge.sink
    obtain ⟨hacts, hl''⟩ := ih hl' _
    exact ⟨.head (.raiseTaint edge.target trivial (some edge.sink.stack)) hacts, hl''⟩

/-- Every target of an edge that fires gets a taint of a source. -/
theorem Issues.le_taint_fireTaints (hl : l.Issues) (hp : h.Proper) {edges : List DeferredTaint}
    {edge : DeferredTaint} (hm : edge ∈ edges) (hin : edge.target < h.size) :
    TaintId.firstSource ≤ (edges.foldl fireTaint (h, l)).1.taint edge.target := by
  induction edges generalizing h l with
  | nil => exact absurd hm List.not_mem_nil
  | cons first edges ih =>
    obtain ⟨hsource, hl'⟩ := hl.sourceFor first.sink
    have hraise := hp.raiseTaint first.target (l.sourceFor first.sink).1 (some first.sink.stack)
    rcases List.mem_cons.mp hm with rfl | hm
    · have hle := hp.le_taint_raiseTaint hin (l.sourceFor edge.sink).1 (some edge.sink.stack)
      have hgrows := ((hl'.fireTaints _ edges).1.evolves trivial hraise.proper).grows
      have hrest := hgrows.taint edge.target
      exact Nat.le_trans hsource (Nat.le_trans hle hrest)
    · exact ih hl' hraise.proper hm (hraise.lt_size hin)

/-- The taint edges of an entity are taken and fired. -/
def fireTaintsOf (h : Heap) (l : Ledger) (id : EntityId) : Heap × Ledger :=
  (h.takeDeferredTaint id).1.foldl fireTaint ((h.takeDeferredTaint id).2, l)

theorem fire_of_input {id : EntityId} (hi : TaintId.isInput (h.taint id) = true) :
    (fire (h, l) id).1 = (fireTaintsOf h l id).1.fireInputs id ∧
      (fire (h, l) id).2 = (fireTaintsOf h l id).2.reportCalls (h.taint id)
        ((fire (h, l) id).1.entity id).targetCalls := by
  unfold fire
  simp only [hi, ↓reduceIte]
  exact ⟨rfl, rfl⟩

theorem fire_of_clean {id : EntityId} (hi : ¬TaintId.isInput (h.taint id) = true) :
    fire (h, l) id = (h, l) := by
  unfold fire
  simp only [hi, Bool.false_eq_true, ↓reduceIte]

theorem Issues.evolves_fireTaintsOf (hl : l.Issues) (hp : h.Proper) (id : EntityId) :
    Evolves h (fireTaintsOf h l id).1 :=
  have htake := hp.takeDeferredTaint id
  htake.trans ((hl.fireTaints _ _).1.evolves trivial htake.proper)

theorem Issues.minds_fireTaintsOf (hl : l.Issues) (hp : h.Proper) (id : EntityId) :
    Minds h (fireTaintsOf h l id).1 :=
  (minds_takeDeferredTaint hp.wellFormed.descending id).trans
    ((hl.fireTaints _ _).1.heeds (hp.takeDeferredTaint id).proper).toMinds

theorem alike_waits_raiseTaint (h : Heap) (id : EntityId) (taint : TaintId)
    (stack : Option CallStack) : Alike Entity.waits h (h.raiseTaint id taint stack).2 := by
  unfold raiseTaint
  simp only
  split
  · exact .refl _ h
  · have hup : Alike Entity.waits h (h.update (h.find id) fun e =>
        { e with taint, taintStack := stack.or e.taintStack }) := alike_update h _ fun _ => rfl
    exact hup.trans (alike_note _ _)

theorem alike_waits_fireTaints (edges : List DeferredTaint) (h : Heap) (l : Ledger) :
    Alike Entity.waits h (edges.foldl fireTaint (h, l)).1 := by
  induction edges generalizing h l with
  | nil => exact .refl _ h
  | cons edge edges ih =>
    exact (alike_waits_raiseTaint h edge.target (l.sourceFor edge.sink).1 _).trans (ih _ _)

theorem waits_fireTaintsOf (hp : h.Proper) (l : Ledger) {id : EntityId} (hid : id < h.size) :
    ((fireTaintsOf h l id).1.entity id).deferredTaint = [] := by
  have hfired := congrArg Prod.snd ((alike_waits_fireTaints (h.takeDeferredTaint id).1
    (h.takeDeferredTaint id).2 l).entity id)
  unfold takeDeferredTaint at hfired
  simp only [Entity.waits] at hfired
  rw [hp.wellFormed.descending.entity_update_self hid _ rfl] at hfired
  exact hfired

theorem Issues.keepsPromises_fireTaintsOf (hl : l.Issues) (hp : h.Proper) (id : EntityId) :
    KeepsPromises h (fireTaintsOf h l id).1 := by
  have htake := hp.takeDeferredTaint id
  have hacts := (hl.fireTaints (h.takeDeferredTaint id).2 (h.takeDeferredTaint id).1).1
  have hfired := (hacts.heeds htake.proper).keepsPromises (hacts.evolves trivial htake.proper).grows
  refine ⟨fun {owner target} hin hk => ?_, fun {owner edge} hk => ?_⟩
  · have hsame : ((h.takeDeferredTaint id).2.entity owner).deferredInput =
        (h.entity owner).deferredInput :=
      (alike_takeDeferredTaint (fun _ _ => rfl) h id).entity owner
    refine hfired.input (htake.lt_size hin) (hk.imp (fun hd => htake.grows.deep hd) ?_)
    rintro ⟨t, hm, hf⟩
    exact ⟨t, hsame ▸ hm, htake.grows.same hf⟩
  · rcases hk with ht | hm
    · exact hfired.taint (.inl (Nat.le_trans ht (htake.grows.taint _)))
    · by_cases ho : h.find owner = h.find id
      · -- the edge is among those that fire now
        have hin : edge.target < h.size := by
          rcases Nat.lt_or_ge owner h.size with hlt | hge
          · exact hp.wellFormed.targets (hp.wellFormed.live? hlt) (.inr ⟨edge, hm, rfl⟩)
          · rw [entity_of_size_le hge] at hm
            exact absurd hm List.not_mem_nil
        rw [entity_congr ho] at hm
        exact .inl (hl.le_taint_fireTaints htake.proper hm (htake.lt_size hin))
      · refine hfired.taint (.inr ?_)
        have hsame : (h.takeDeferredTaint id).2.entity owner = h.entity owner :=
          entity_update_of_ne _ fun he => ho he.symm
        rwa [hsame]

/-! Settling. -/

/-- The heap goes on, no promise is forgotten, and ids are given out as before. -/
structure Redeems (h h' : Heap) (l' : Ledger) : Prop where
  evolves : Evolves h h'
  promises : KeepsPromises h h'
  issues : l'.Issues

theorem Redeems.trans {h'' : Heap} {l' l'' : Ledger} (h₁ : Redeems h h' l')
    (h₂ : Redeems h' h'' l'') : Redeems h h'' l'' :=
  ⟨h₁.evolves.trans h₂.evolves, h₁.promises.trans h₁.evolves h₂.promises, h₂.issues⟩

theorem Issues.redeems_fire (hl : l.Issues) (hp : h.Proper) (id : EntityId) :
    Redeems h (fire (h, l) id).1 (fire (h, l) id).2 := by
  by_cases hinput : TaintId.isInput (h.taint id) = true
  · have hfirst := hl.evolves_fireTaintsOf hp id
    have hissues : (fireTaintsOf h l id).2.Issues := (hl.fireTaints _ _).2
    have hpromises := (hl.keepsPromises_fireTaintsOf hp id).trans hfirst
      (hfirst.proper.keepsPromises_fireInputs id)
    obtain ⟨hheap, hledger⟩ := @fire_of_input l h id hinput
    rw [hledger, hheap]
    exact ⟨hfirst.trans (hfirst.proper.fireInputs id), hpromises, hissues.reportCalls _ _⟩
  · rw [fire_of_clean hinput]
    exact ⟨.refl hp, .refl h, hl⟩

theorem Issues.minds_fire (hl : l.Issues) (hp : h.Proper) (id : EntityId) :
    Minds h (fire (h, l) id).1 := by
  by_cases hinput : TaintId.isInput (h.taint id) = true
  · rw [(fire_of_input hinput).1]
    exact (hl.minds_fireTaintsOf hp id).trans
      ((hl.evolves_fireTaintsOf hp id).proper.minds_fireInputs id)
  · rw [fire_of_clean hinput]
    exact .refl h

/-- No edge of the entity is due any more. -/
theorem Issues.quiet_fire (hl : l.Issues) (hp : h.Proper) (id : EntityId) :
    ((fire (h, l) id).1.entity id).Quiet := by
  by_cases hinput : TaintId.isInput (h.taint id) = true
  · rw [(fire_of_input hinput).1]
    have hid : id < h.size := lt_size_of_taint (TaintId.isInput_iff.mp hinput)
    have hfirst := hl.evolves_fireTaintsOf hp id
    have hwaits := hfirst.proper.waits_fireInputs (hfirst.lt_size hid)
    rw [waits_fireTaintsOf hp l hid] at hwaits
    obtain ⟨hi, ht⟩ := Prod.mk.inj hwaits
    exact Entity.quiet_of_none hi ht
  · rw [fire_of_clean hinput]
    exact fun ht => absurd (TaintId.isInput_iff.mpr ht) hinput

theorem Issues.alert_fire (hl : l.Issues) (hp : h.Proper) {id : EntityId} {todo : List EntityId}
    (ha : h.Alert (id :: todo)) : (fire (h, l) id).1.Alert todo := by
  have hm := hl.minds_fire hp id
  intro u
  rcases ha.minds hm u with hq | hlog | ⟨t, ht, hf⟩
  · exact .inl hq
  · exact .inr (.inl hlog)
  · rcases List.mem_cons.mp ht with rfl | ht
    · exact .inl (entity_congr hf ▸ hl.quiet_fire hp t)
    · exact .inr (.inr ⟨t, ht, hf⟩)

theorem Issues.fires (hl : l.Issues) (hp : h.Proper) {todo : List EntityId} (ha : h.Alert todo) :
    Redeems h (todo.foldl fire (h, l)).1 (todo.foldl fire (h, l)).2 ∧
      (todo.foldl fire (h, l)).1.Alert [] := by
  induction todo generalizing h l with
  | nil => exact ⟨⟨.refl hp, .refl h, hl⟩, ha⟩
  | cons id todo ih =>
    have hfirst := hl.redeems_fire hp id
    obtain ⟨hrest, hdone⟩ := ih hfirst.issues hfirst.evolves.proper (hl.alert_fire hp ha)
    exact ⟨hfirst.trans hrest, hdone⟩

theorem keepsPromises_drainTransitions (h : Heap) : KeepsPromises h h.drainTransitions.2 := by
  refine ⟨fun _ hk => ?_, fun hk => ?_⟩
  · rcases hk with hd | ⟨t, hm, hf⟩
    · exact .inl (by rwa [entity_drainTransitions])
    · exact .inr ⟨t, by rwa [entity_drainTransitions],
        by rw [find_drainTransitions, find_drainTransitions, hf]⟩
  · unfold TaintKept Heap.taint
    rwa [entity_drainTransitions, entity_drainTransitions]

/-- Settling forgets no promise, and it leaves no edge due. -/
theorem Issues.settle (hl : l.Issues) (hp : h.Proper) (ha : h.Alert []) :
    Redeems h (settle (h, l)).1 (settle (h, l)).2 ∧
      ∀ u, ((settle (h, l)).1.entity u).Quiet := by
  generalize hstate : (h, l) = state
  fun_induction Ledger.settle state generalizing h l with
  | case1 state hdone =>
    subst hstate
    have hdrain := ha.drainTransitions
    simp only at hdone
    rw [hdone] at hdrain
    refine ⟨⟨hp.drainTransitions, keepsPromises_drainTransitions h, hl⟩, fun u => ?_⟩
    rcases hdrain u with hq | ⟨t, hm, -⟩ | ⟨t, hm, -⟩
    · exact hq
    · exact absurd hm (Array.not_mem_empty t)
    · exact absurd hm List.not_mem_nil
  | case2 state _ ih =>
    subst hstate
    have hdrain := hp.drainTransitions
    obtain ⟨hpass, halert⟩ := hl.fires hdrain.proper ha.drainTransitions
    obtain ⟨hrest, hquiet⟩ := ih hpass.issues hpass.evolves.proper halert rfl
    have hfirst : Redeems h h.drainTransitions.2 l :=
      ⟨hdrain, keepsPromises_drainTransitions h, hl⟩
    exact ⟨(hfirst.trans hpass).trans hrest, hquiet⟩

end Ledger

/-! Histories of a heap. -/

namespace Heap

variable {h h' before : Heap}

/-- What happens to the heap of an activation: an act, gluing a summary onto it, or settling. -/
inductive Move : Heap → Heap → Prop where
  | act {h h' : Heap} (ha : Act True (fun _ => True) (fun _ => True) h h') : Move h h'
  | glue {σ : Type} (callee : Heap) (r : Rebasing σ) (mode : GlueMode) (g : Glue σ)
    (hm : ∀ {c d}, g.matched.get? c = some d → d < g.caller.size) (root : EntityId)
    {actual : EntityId} (ha : actual < g.caller.size) :
    Move g.caller (g.apply callee r mode root actual).2.caller
  | settle (h : Heap) {l : Ledger} (hl : l.Issues) : Move h (Ledger.settle (h, l)).1

/-- Between two moves the heap is proper, and whoever owns an edge that is due is logged. -/
structure Watchful (h : Heap) : Prop where
  proper : h.Proper
  alert : h.Alert []

theorem Acts.watchful {taints : TaintId → Prop} {sinks : SinkCall → Prop}
    (ha : Acts True taints sinks h h') (hw : h.Watchful) :
    h'.Watchful ∧ Evolves h h' ∧ KeepsPromises h h' := by
  have he := ha.evolves trivial hw.proper
  have hh := ha.heeds hw.proper
  exact ⟨⟨he.proper, hw.alert.minds hh.toMinds⟩, he, hh.keepsPromises he.grows⟩

theorem Move.watchful (hm : Move h h') (hw : h.Watchful) :
    h'.Watchful ∧ Evolves h h' ∧ KeepsPromises h h' := by
  cases hm with
  | act ha => exact Acts.watchful (.single ha) hw
  | glue callee r mode g hm root ha =>
    exact (Glue.acts_apply callee r mode g ⟨hw.proper, hm⟩ root ha).watchful hw
  | settle h hl =>
    obtain ⟨hredeems, hquiet⟩ := hl.settle hw.proper hw.alert
    exact ⟨⟨hredeems.evolves.proper, fun u => .inl (hquiet u)⟩, hredeems.evolves,
      hredeems.promises⟩

theorem watchful_of_moves (hm : Relation.ReflTransGen Move h h') (hw : h.Watchful) :
    h'.Watchful ∧ Evolves h h' ∧ KeepsPromises h h' := by
  induction hm with
  | refl => exact ⟨hw, .refl hw.proper, .refl h⟩
  | tail _ hmove ih =>
    obtain ⟨hw', he, hk⟩ := ih
    obtain ⟨hw'', he', hk'⟩ := hmove.watchful hw'
    exact ⟨hw'', he.trans he', hk.trans he hk'⟩

/-- No deferred edge is lost. Whatever happens after an edge was added, once the heap has been
settled the edge of an owner that is input has fired: the target of an input edge is a deep input,
and that of a taint edge has the taint of a source. -/
theorem settle_redeems (hb : Relation.ReflTransGen Move {} before) :
    (∀ {owner target h l}, owner < before.size → target < before.size →
      before.find owner ≠ before.find target →
      Relation.ReflTransGen Move (before.addDeferredInput owner target) h → l.Issues →
      TaintId.input ≤ (Ledger.settle (h, l)).1.taint owner →
      ((Ledger.settle (h, l)).1.entity target).deep = true) ∧
    (∀ {owner edge h l}, owner < before.size → edge.target < before.size →
      Relation.ReflTransGen Move (before.addDeferredTaint owner edge) h → l.Issues →
      TaintId.input ≤ (Ledger.settle (h, l)).1.taint owner →
      TaintId.firstSource ≤ (Ledger.settle (h, l)).1.taint edge.target) := by
  obtain ⟨hw, -, -⟩ := watchful_of_moves hb ⟨proper_empty, alert_empty⟩
  constructor
  · intro owner target h l ho ht hne hm hl hinput
    have hadd : Move before (before.addDeferredInput owner target) :=
      .act (.addDeferredInput _ fun _ => ht)
    obtain ⟨hadded, he, -⟩ := hadd.watchful hw
    obtain ⟨hlater, he', hkeeps⟩ := watchful_of_moves hm hadded
    obtain ⟨hredeems, hquiet⟩ := hl.settle hlater.proper hlater.alert
    have hkept := hkeeps.input (he.lt_size ht) (inputKept_addDeferredInput hw.proper ho hne)
    rcases hredeems.promises.input (he'.lt_size (he.lt_size ht)) hkept with hd | ⟨t, hm, -⟩
    · exact hd
    · exact absurd hm (Std.TreeSet.not_mem_of_isEmpty (hquiet owner hinput).1)
  · intro owner edge h l ho ht hm hl hinput
    have hadd : Move before (before.addDeferredTaint owner edge) :=
      .act (.addDeferredTaint _ (fun _ => ht) trivial)
    obtain ⟨hadded, -, -⟩ := hadd.watchful hw
    obtain ⟨hlater, -, hkeeps⟩ := watchful_of_moves hm hadded
    obtain ⟨hredeems, hquiet⟩ := hl.settle hlater.proper hlater.alert
    have hkept := hkeeps.taint (taintKept_addDeferredTaint hw.proper ho edge)
    rcases hredeems.promises.taint hkept with hle | hm
    · exact hle
    · rw [(hquiet owner hinput).2] at hm
      exact absurd hm List.not_mem_nil

/-- Three entities. -/
def trio : Heap := (((create {} none).2.create none).2.create none).2

/-- The first entity becomes one with the third, which then becomes input. -/
def unite (h : Heap) : Heap := (h.merge 0 2).2.markInput 2

theorem moves_trio : Relation.ReflTransGen Move {} trio :=
  ((Relation.ReflTransGen.single (.act (.create none))).tail (.act (.create none))).tail
    (.act (.create none))

theorem find_trio (u : EntityId) : trio.find u = u := by
  unfold trio
  rw [find_create, find_create, find_create]
  exact find_of_size_le (Nat.zero_le u)

theorem moves_unite (h2 : 2 < h.size) : Relation.ReflTransGen Move h h.unite := by
  have h0 : 0 < h.size := Nat.lt_trans (by decide) h2
  have hmerge : Move h (h.merge 0 2).2 := .act (.merge (fun _ => h0) fun _ => h2)
  exact (Relation.ReflTransGen.single hmerge).tail (.act (.markInput 2))

/-- After that the first entity is input, and it stays so. -/
theorem input_unite (h2 : 2 < h.size) (hw : h.Watchful) {l : Ledger} (hl : l.Issues) :
    TaintId.input ≤ (Ledger.settle (h.unite, l)).1.taint 0 := by
  have h0 : 0 < h.size := Nat.lt_trans (by decide) h2
  have hmerge := hw.proper.merge h0 h2
  have hmark := hmerge.proper.markInput 2
  have hsame := hmark.grows.same (hw.proper.wellFormed.grows_merge hw.proper.closed h0 h2).2.2
  have hdeep := hmerge.proper.deep_markInput (hmerge.lt_size h2)
  rw [← entity_congr hsame] at hdeep
  obtain ⟨hunited, -, -⟩ := watchful_of_moves (moves_unite h2) hw
  have hsettle := (hl.settle hunited.proper hunited.alert).1.evolves
  exact Nat.le_trans (hunited.proper.closed.taint hdeep) (hsettle.grows.taint 0)

theorem trio_redeems :
    ((Ledger.settle ((trio.addDeferredInput 0 1).unite, {})).1.entity 1).deep = true ∧
      TaintId.firstSource ≤
        (Ledger.settle ((trio.addDeferredTaint 0 ⟨1, "sink", .empty, 0⟩).unite, {})).1.taint 1 := by
  have hl : Ledger.Issues {} := ⟨Nat.le_refl _, nofun, nofun⟩
  obtain ⟨hw, -, -⟩ := watchful_of_moves moves_trio ⟨proper_empty, alert_empty⟩
  have hsize : trio.size = 3 := rfl
  have h0 : 0 < trio.size := by omega
  have h1 : 1 < trio.size := by omega
  have h2 : 2 < trio.size := by omega
  have hne : trio.find 0 ≠ trio.find 1 := by
    rw [find_trio, find_trio]
    decide
  have hinput : Move trio (trio.addDeferredInput 0 1) := .act (.addDeferredInput 0 fun _ => h1)
  have htaint : Move trio (trio.addDeferredTaint 0 ⟨1, "sink", .empty, 0⟩) :=
    .act (.addDeferredTaint 0 (fun _ => h1) trivial)
  obtain ⟨hwi, hei, -⟩ := hinput.watchful hw
  obtain ⟨hwt, het, -⟩ := htaint.watchful hw
  obtain ⟨hfires, htaints⟩ := settle_redeems moves_trio
  exact ⟨hfires h0 h1 hne (moves_unite (hei.lt_size h2)) hl (input_unite (hei.lt_size h2) hwi hl),
    htaints h0 h1 (moves_unite (het.lt_size h2)) hl (input_unite (het.lt_size h2) hwt hl)⟩

end Heap

end SinkTrace
