import SinkTrace.Engine.Provenance
import SinkTrace.Proofs.Heap.Every
import SinkTrace.Proofs.Heap.GlueRuns

/-!
Which calls are recorded in a heap. Only one operation records a call. Merging brings recorded calls
together, and gluing copies those of the callee with their stacks moved to the call site; so the
calls of a caller are those it had, and moved ones of the callee.
-/

namespace SinkTrace

variable {calls calls' : TargetCall → Prop}

namespace Entity

/-- Every call recorded on the entity is one of these. -/
def Recorded (calls : TargetCall → Prop) (e : Entity) : Prop := ∀ call ∈ e.targetCalls, calls call

theorem Recorded.congr {e e' : Entity} (hv : e.targetCalls = e'.targetCalls)
    (hr : e.Recorded calls) : e'.Recorded calls := by
  unfold Recorded at hr ⊢
  rwa [hv] at hr

theorem Recorded.addTargetCall {e : Entity} (hr : e.Recorded calls) {call : TargetCall}
    (hc : calls call) : (e.addTargetCall call).Recorded calls := by
  intro other hm
  rcases mem_addTargetCall.mp hm with hm | rfl
  · exact hr other hm
  · exact hc

theorem inherited_recorded (calls : TargetCall → Prop) : Inherited (Recorded calls) where
  bare hb hr := by
    have hsame := congrArg Entity.targetCalls hb
    exact hr.congr hsame
  fresh e _ hn _ call hm := absurd (hn ▸ hm) List.not_mem_nil
  markDeep hr := hr
  takeOver he hg call hm := (mem_targetCalls_takeOver.mp hm).elim (he call) (hg call)

end Entity

namespace Heap

variable {h h' : Heap}

/-- Every call recorded on a live entity is one of these. -/
def Recorded (calls : TargetCall → Prop) (h : Heap) : Prop := h.Every (Entity.Recorded calls)

theorem recorded_empty : Recorded calls {} := every_empty

theorem Recorded.mono (hr : h.Recorded calls) (hc : ∀ call, calls call → calls' call) :
    h.Recorded calls' := Every.mono hr fun _ he call hm => hc call (he call hm)

theorem Recorded.of_alike (hr : h.Recorded calls) (ha : Alike Entity.targetCalls h h') :
    h'.Recorded calls := Every.of_alike hr Entity.Recorded.congr ha

theorem Recorded.entity (hr : h.Recorded calls) (id : EntityId) :
    ∀ call ∈ (h.entity id).targetCalls, calls call :=
  Every.entity (Entity.inherited_recorded calls) hr id

theorem Recorded.foldl {α : Type} {step : Heap → α → Heap}
    (hstep : ∀ h a, Recorded calls h → (step h a).Recorded calls) (as : List α)
    (hr : h.Recorded calls) : (as.foldl step h).Recorded calls := Every.foldl hstep as hr

theorem Recorded.create (hr : h.Recorded calls) (origin : Option Origin) :
    (h.create origin).2.Recorded calls :=
  Every.create (Entity.inherited_recorded calls) hr origin

theorem Recorded.markInput (hr : h.Recorded calls) (id : EntityId) :
    (h.markInput id).Recorded calls :=
  Every.markInput (Entity.inherited_recorded calls) hr id

theorem Recorded.loadField (hr : h.Recorded calls) (owner : EntityId) (key : FieldName) :
    (h.loadField owner key).2.Recorded calls :=
  Every.loadField (Entity.inherited_recorded calls) hr owner key

theorem Recorded.merge (hr : h.Recorded calls) (a b : EntityId) :
    (h.merge a b).2.Recorded calls := Every.merge (Entity.inherited_recorded calls) hr a b

theorem Recorded.edits (hr : h.Recorded calls) (he : Edits h h') : h'.Recorded calls :=
  Every.edits (Entity.inherited_recorded calls) hr he

/-- The one operation that records a call. -/
theorem Recorded.addTargetCall (hr : h.Recorded calls) (id : EntityId) {call : TargetCall}
    (hc : calls call) : (h.addTargetCall id call).Recorded calls := by
  unfold Heap.addTargetCall
  simp only
  split
  · exact hr
  · exact Every.update hr _ fun e he => he.addTargetCall hc

theorem Recorded.setOrigin (hr : h.Recorded calls) (id : EntityId) (origin : Origin) :
    (h.setOrigin id origin).Recorded calls := hr.of_alike (alike_update h id fun _ => rfl)

theorem Recorded.raiseTaint (hr : h.Recorded calls) (id : EntityId) (taint : TaintId)
    (stack : Option CallStack) : (h.raiseTaint id taint stack).2.Recorded calls := by
  unfold Heap.raiseTaint
  simp only
  split
  · exact hr
  · exact Every.update hr _ fun _ he => he

theorem Recorded.addDeferredInput (hr : h.Recorded calls) (owner target : EntityId) :
    (h.addDeferredInput owner target).Recorded calls := by
  unfold Heap.addDeferredInput
  simp only
  split
  · exact hr
  · exact Every.update hr _ fun _ he => he

theorem Recorded.addDeferredTaint (hr : h.Recorded calls) (owner : EntityId)
    (edge : DeferredTaint) : (h.addDeferredTaint owner edge).Recorded calls :=
  Every.update hr _ fun _ he => he

theorem Recorded.takeDeferredInput (hr : h.Recorded calls) (id : EntityId) :
    (h.takeDeferredInput id).2.Recorded calls := hr.of_alike (alike_update h id fun _ => rfl)

theorem Recorded.takeDeferredTaint (hr : h.Recorded calls) (id : EntityId) :
    (h.takeDeferredTaint id).2.Recorded calls := hr.of_alike (alike_update h id fun _ => rfl)

theorem Recorded.drainTransitions (hr : h.Recorded calls) :
    h.drainTransitions.2.Recorded calls := Every.of_live hr fun _ _ he => he

end Heap

/-! Gluing. -/

/-- The call with its stack moved. -/
def TargetCall.moved (move : CallStack → CallStack) (call : TargetCall) : TargetCall :=
  { call with stack := move call.stack }

/-- What the rebasing makes of a stack does not depend on its state. -/
def Rebasing.Moves {σ : Type} (r : Rebasing σ) (move : CallStack → CallStack) : Prop :=
  ∀ log stack, (r.stack log stack).1 = move stack

theorem Rebasing.moves_identity : Rebasing.identity.Moves id := fun _ _ => rfl

theorem Provenance.moves_rebasing (depth : Nat) (base : CallStack) (caller : SummaryKey) :
    (Provenance.rebasing depth base caller).Moves (·.rebase depth base) := fun _ _ => rfl

namespace Glue

variable {σ : Type} {r : Rebasing σ} {move : CallStack → CallStack} {callee caller : Heap}
  {g : Glue σ} {log : σ}

theorem recorded_record (hg : g.caller.Recorded calls) (callee : Heap) (c d : EntityId) :
    (g.record callee c d).caller.Recorded calls := by
  rw [caller_record]
  exact hg

theorem recorded_foldl {α : Type} {step : Glue σ → α → Glue σ} (as : List α)
    (hstep : ∀ g a, a ∈ as → g.caller.Recorded calls → (step g a).caller.Recorded calls)
    (hg : g.caller.Recorded calls) : (as.foldl step g).caller.Recorded calls := by
  induction as generalizing g with
  | nil => exact hg
  | cons a as ih =>
    have hrest : ∀ g b, b ∈ as → g.caller.Recorded calls → (step g b).caller.Recorded calls :=
      fun g b hb => hstep g b (List.mem_cons_of_mem _ hb)
    exact ih hrest (hstep g a (List.mem_cons_self ..) hg)

/-! Matching. -/

theorem recorded_followAll (callee : Heap) (hg : g.caller.Recorded calls) (current : EntityId)
    (route : Route) :
    (route.foldl (follow callee) (current, g)).2.caller.Recorded calls := by
  induction route generalizing g current with
  | nil => exact hg
  | cons edge route ih => exact ih (recorded_record (hg.loadField current edge.1) callee _ _) _

theorem recorded_lookup (callee : Heap) (hg : g.caller.Recorded calls) (id : EntityId) :
    (g.lookup callee id).2.caller.Recorded calls := by
  unfold Glue.lookup
  simp only
  split
  · exact hg
  · split
    · exact hg
    · exact recorded_followAll callee hg _ _

theorem recorded_lookupOrCreate (callee : Heap) (hg : g.caller.Recorded calls) (id : EntityId) :
    (g.lookupOrCreate callee id).2.caller.Recorded calls := by
  have hlook := recorded_lookup callee hg (callee.find id)
  unfold Glue.lookupOrCreate
  simp only
  split
  · rename_i heq
    rwa [heq] at hlook
  · rename_i heq
    rw [heq] at hlook
    exact recorded_record (hlook.create _) callee _ _

/-! Copying. -/

theorem recorded_copyOrigin (hc : caller.Recorded calls) (mode : GlueMode) (src : Entity)
    (d : EntityId) : (copyOrigin mode src caller d).Recorded calls := by
  unfold copyOrigin
  split
  · split
    · exact hc.setOrigin d _
    · exact hc
  · exact hc

theorem recorded_copyTaint (hc : caller.Recorded calls) (src : Entity) (d : EntityId) (log : σ) :
    (copyTaint r src caller d log).1.Recorded calls := by
  unfold copyTaint
  split
  · exact hc.raiseTaint d _ _
  · split
    · exact hc.raiseTaint d _ _
    · exact hc

/-- Calls of the callee are recorded with their stacks moved. -/
theorem recorded_copyCalls (hr : r.Moves move) {cs : List TargetCall}
    (hcs : ∀ call ∈ cs, calls (call.moved move)) (hc : caller.Recorded calls) (d : EntityId)
    (log : σ) : (cs.foldl (copyCall r d) (caller, log)).1.Recorded calls := by
  induction cs generalizing caller log with
  | nil => exact hc
  | cons call cs ih =>
    obtain ⟨hfirst, hrest⟩ := List.forall_mem_cons.mp hcs
    have hmoved : calls { call with stack := (r.stack log call.stack).1 } := by
      rw [hr log call.stack]
      exact hfirst
    exact ih hrest (hc.addTargetCall d hmoved) _

theorem recorded_copyMarks (hr : r.Moves move) {src : Entity}
    (hs : src.Recorded fun call => calls (call.moved move)) (hg : g.caller.Recorded calls)
    (mode : GlueMode) (d : EntityId) : (g.copyMarks r mode src d).caller.Recorded calls := by
  have htaint : (copyTaint r src (copyOrigin mode src g.caller d) d g.log).1.Recorded calls :=
    recorded_copyTaint (recorded_copyOrigin hg mode src d) src d g.log
  unfold Glue.copyMarks
  simp only
  split
  · exact recorded_copyCalls hr hs (htaint.markInput d) d _
  · exact recorded_copyCalls hr hs htaint d _

theorem recorded_copyDeferredInput (callee : Heap) (hg : g.caller.Recorded calls)
    (d target : EntityId) :
    (copyDeferredInput callee d g target).caller.Recorded calls :=
  (recorded_lookupOrCreate callee hg target).addDeferredInput d _

theorem recorded_copyDeferredTaint (callee : Heap) (hg : g.caller.Recorded calls) (d : EntityId)
    (edge : DeferredTaint) : (copyDeferredTaint callee r d g edge).caller.Recorded calls :=
  (recorded_lookupOrCreate callee hg edge.target).addDeferredTaint d _

theorem recorded_glueField (hg : g.caller.Recorded calls) (d : EntityId)
    (edge : FieldName × EntityId) : (glueField callee d g edge).caller.Recorded calls := by
  have hload := hg.loadField (g.caller.find d) edge.1
  unfold Glue.glueField
  simp only
  split
  · split
    · exact hload
    · exact hload.merge _ _
  · exact recorded_record hload callee _ _

theorem recorded_copyInto (hr : r.Moves move) {src : Entity}
    (hs : src.Recorded fun call => calls (call.moved move)) (hg : g.caller.Recorded calls)
    (mode : GlueMode) (d : EntityId) : (g.copyInto callee r mode src d).caller.Recorded calls := by
  have hmarks := recorded_copyMarks hr hs hg mode d
  have hinputs := recorded_foldl src.deferredInput.toList
    (fun g target _ hg => recorded_copyDeferredInput callee hg d target) hmarks
  have htaints := recorded_foldl src.deferredTaint
    (fun g edge _ hg => recorded_copyDeferredTaint (r := r) callee hg d edge) hinputs
  exact recorded_foldl _ (fun g edge _ hg => recorded_glueField hg d edge) htaints

theorem recorded_copyEntity (hr : r.Moves move)
    (hc : callee.Recorded fun call => calls (call.moved move)) (hg : g.caller.Recorded calls)
    (mode : GlueMode) (c : EntityId) :
    (g.copyEntity callee r mode c).caller.Recorded calls := by
  unfold Glue.copyEntity
  split
  · exact hg
  · exact recorded_copyInto hr (hc.entity c) hg mode _

theorem recorded_drain (hr : r.Moves move)
    (hc : callee.Recorded fun call => calls (call.moved move)) (mode : GlueMode)
    (hg : g.caller.Recorded calls) : (g.drain callee r mode).caller.Recorded calls := by
  fun_induction Glue.drain callee r mode g with
  | case1 g hlt ih =>
    have hnext : Heap.Recorded calls ({ g with copied := g.copied + 1 } : Glue σ).caller := hg
    exact ih (recorded_copyEntity hr hc hnext mode g.order[g.copied])
  | case2 g _ => exact hg

/-- Gluing a root leaves the caller's calls and moved ones of the callee. -/
theorem recorded_apply (hr : r.Moves move)
    (hc : callee.Recorded fun call => calls (call.moved move)) (hg : g.caller.Recorded calls)
    (mode : GlueMode) (root actual : EntityId) :
    (g.apply callee r mode root actual).2.caller.Recorded calls := by
  rw [apply_snd]
  refine recorded_drain hr hc mode ?_
  unfold Glue.rooted
  split
  · split
    · exact hg
    · exact hg.merge _ _
  · exact recorded_record hg callee _ _

end Glue

end SinkTrace
