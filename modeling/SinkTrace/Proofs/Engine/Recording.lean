import SinkTrace.Proofs.Engine.CallRoutes
import SinkTrace.Proofs.Engine.Tracing
import SinkTrace.Proofs.Heap.Records

/-!
Which calls are recorded, and which of them are reported as triggers. A call is recorded where it
leaves the program, on the stack of the activation that makes it. From there it gets into other
heaps by gluing only, and into the findings by settling a heap that holds it.
-/

namespace SinkTrace

/-! Triggers. -/

namespace Findings

variable {calls : TargetCall → Prop} {f : Findings}

/-- Every trigger that was reported is one of these calls. -/
def Triggers (calls : TargetCall → Prop) (f : Findings) : Prop :=
  ∀ source ∈ f.sources, ∀ trigger ∈ source.triggers, calls trigger

theorem Triggers.modify (hf : f.Triggers calls) (id : TaintId) {g : Source → Source}
    (hg : ∀ s, ∀ trigger ∈ (g s).triggers, trigger ∈ s.triggers ∨ calls trigger) :
    (f.modify id g).Triggers calls := by
  intro source hin trigger ht
  obtain ⟨s, hs, rfl⟩ := List.mem_map.mp hin
  split at ht
  · exact (hg s trigger ht).elim (hf s hs trigger) fun hc => hc
  · exact hf s hs trigger ht

theorem Triggers.observe (hf : f.Triggers calls) (taint : TaintId) (caller : SummaryKey) :
    (f.observe taint caller).Triggers calls := by
  refine hf.modify _ fun s trigger ht => .inl ?_
  unfold Source.observe at ht
  split at ht <;> exact ht

theorem Triggers.addTrigger (hf : f.Triggers calls) (taint : TaintId) {call : TargetCall}
    (hc : calls call) : (f.addTrigger taint call).2.Triggers calls := by
  have hadded : (f.modify (f.resolve taint) (·.addTrigger call)).Triggers calls := by
    refine hf.modify _ fun s trigger ht => ?_
    rcases List.mem_append.mp ht with ht | ht
    · exact .inl ht
    · exact .inr (List.mem_singleton.mp ht ▸ hc)
  rcases f.addTrigger_cases taint call with he | ⟨c, he⟩ | he
  · rw [he]
    exact hf
  · rw [he]
    exact hf
  · rw [he]
    exact hadded

theorem Triggers.addTriggers (hf : f.Triggers calls) (taint : TaintId) {added : List TargetCall}
    (hc : ∀ call ∈ added, calls call) :
    (added.foldl (fun f call => (f.addTrigger taint call).2) f).Triggers calls := by
  induction added generalizing f with
  | nil => exact hf
  | cons call added ih =>
    obtain ⟨hfirst, hrest⟩ := List.forall_mem_cons.mp hc
    exact ih (hf.addTrigger taint hfirst) hrest

theorem Triggers.addSource (hf : f.Triggers calls) (method : Signature) (forward : CallStack) :
    (f.addSource method forward).2.Triggers calls := by
  intro source hs
  rcases mem_sources_addSource hs with hs | rfl
  · exact hf source hs
  · exact fun _ ht => absurd ht List.not_mem_nil

theorem Triggers.reidentify (hf : f.Triggers calls) (old : TaintId) (forward : CallStack) :
    (f.reidentify old forward).2.Triggers calls := by
  cases hs : f.sources.find? (·.id == f.resolve old) with
  | none =>
    simp only [Findings.reidentify, hs]
    exact hf
  | some s =>
    rw [reidentify_of_some hs]
    intro source hin
    rcases List.mem_append.mp hin with hin | hin
    · exact hf source (List.mem_filter.mp hin).1
    · rw [List.mem_singleton.mp hin]
      exact hf s (List.mem_of_find?_eq_some hs)

/-- A source that moves takes its triggers along. -/
theorem Triggers.rebaseTaint {q : Provenance} (hq : q.findings.Triggers calls) (depth : Nat)
    (base : CallStack) (caller : SummaryKey) (taint : TaintId) :
    (q.rebaseTaint depth base caller taint).2.findings.Triggers calls := by
  have hmoved : (Provenance.relocate q.findings depth base taint).2.Triggers calls := by
    unfold Provenance.relocate
    simp only
    split
    · exact hq
    · split
      · exact hq
      · exact hq.reidentify _ _
  unfold Provenance.rebaseTaint
  split
  · exact hq
  · exact hmoved.observe _ caller

end Findings

/-! Summaries and ledgers. -/

/-- What may be recorded on a stack, and stays so when a summary is used elsewhere: a call that the
topmost frame makes, and calls that are moved from the stack of a callee to the place where it is
called. -/
structure Recordable (s : Setup) (entry : SummaryKey) (held : CallStack → TargetCall → Prop) :
    Prop where
  made : ∀ {stack : CallStack} {top : SummaryKey} {called : Signature},
    stack.Chained s.Links entry → stack.top? = some top → s.Makes top called →
    held stack ⟨called, stack⟩
  moved : ∀ {stack callee : CallStack} {key : SummaryKey} {call : TargetCall},
    callee.Chained s.Links entry → callee.top? = some key →
    (stack.push key).Chained s.Links entry → held callee call →
    held stack (call.moved (·.rebase callee.depth (stack.push key)))

section Recordable

variable {s : Setup} {entry key : SummaryKey} {held : CallStack → TargetCall → Prop}
  {stack : CallStack} {h h' : Heap} {l l' : Ledger} {state : Heap × Ledger}

/-- The calls of a summary are those of the stack that it carries, and its key is on top. -/
structure MethodSummary.Recorded (s : Setup) (entry : SummaryKey)
    (held : CallStack → TargetCall → Prop) (key : SummaryKey) (m : MethodSummary) : Prop where
  path : m.stack.Chained s.Links entry
  top : m.stack.top? = some key
  heap : m.heap.Recorded (held m.stack)

def Summary.Recorded (s : Setup) (entry : SummaryKey) (held : CallStack → TargetCall → Prop)
    (entries : SummaryKey × Summary) : Prop :=
  ∀ m, entries.2 = .computed m → m.Recorded s entry held entries.1

namespace Ledger

/-- All that is kept or reported was recorded. -/
structure Recorded (s : Setup) (entry : SummaryKey) (held : CallStack → TargetCall → Prop)
    (l : Ledger) : Prop where
  findings : l.findings.Triggers fun call => ∃ stack, held stack call
  cache : ∀ e ∈ l.cache.entries, Summary.Recorded s entry held e

theorem Recorded.keep (hl : l.Recorded s entry held)
    (hf : l'.findings.Triggers fun call => ∃ stack, held stack call)
    (hc : ∀ e ∈ l'.cache.entries, e ∈ l.cache.entries) : l'.Recorded s entry held :=
  ⟨hf, fun e he => hl.cache e (hc e he)⟩

theorem Recorded.sourceFor (hl : l.Recorded s entry held) (call : SinkCall) :
    (l.sourceFor call).2.Recorded s entry held := by
  unfold Ledger.sourceFor
  split
  · exact hl
  · exact hl.keep (hl.findings.addSource _ _) fun _ he => he

theorem Recorded.reportCalls (hl : l.Recorded s entry held) (taint : TaintId)
    {calls : List TargetCall} (hc : ∀ call ∈ calls, held stack call) :
    (l.reportCalls taint calls).Recorded s entry held := by
  unfold Ledger.reportCalls
  split
  · exact hl.keep (hl.findings.addTriggers taint fun call hin => ⟨stack, hc call hin⟩)
      fun _ he => he
  · exact hl

/-- The heap of an activation on the stack, with its ledger. -/
structure Recording (s : Setup) (entry : SummaryKey) (held : CallStack → TargetCall → Prop)
    (stack : CallStack) (state : Heap × Ledger) : Prop where
  heap : state.1.Recorded (held stack)
  ledger : state.2.Recorded s entry held

/-! Settling. -/

theorem Recording.fireTaints (hr : Recording s entry held stack state)
    (edges : List DeferredTaint) :
    Recording s entry held stack (edges.foldl Ledger.fireTaint state) := by
  induction edges generalizing state with
  | nil => exact hr
  | cons edge edges ih =>
    exact ih ⟨hr.heap.raiseTaint edge.target _ (some edge.sink.stack), hr.ledger.sourceFor _⟩

theorem Recording.fire (hr : Recording s entry held stack state) (id : EntityId) :
    Recording s entry held stack (fire state id) := by
  obtain ⟨h, l⟩ := state
  unfold Ledger.fire
  simp only
  split
  · have htaken : Recording s entry held stack ((h.takeDeferredTaint id).2, l) :=
      ⟨hr.heap.takeDeferredTaint id, hr.ledger⟩
    have hfired := htaken.fireTaints (h.takeDeferredTaint id).1
    generalize (h.takeDeferredTaint id).1.foldl Ledger.fireTaint
      ((h.takeDeferredTaint id).2, l) = fired at hfired ⊢
    have hmarked : Heap.Recorded (held stack) ((fired.1.takeDeferredInput id).1.foldl
        Heap.markInput (fired.1.takeDeferredInput id).2) :=
      Heap.Recorded.foldl (fun _ target hh => hh.markInput target) _
        (hfired.heap.takeDeferredInput id)
    exact ⟨hmarked, hfired.ledger.reportCalls _ (hmarked.entity id)⟩
  · exact hr

theorem Recording.fires (hr : Recording s entry held stack state) (ids : List EntityId) :
    Recording s entry held stack (ids.foldl Ledger.fire state) := by
  induction ids generalizing state with
  | nil => exact hr
  | cons id ids ih => exact ih (hr.fire id)

theorem Recording.drain (hr : Recording s entry held stack state) :
    Recording s entry held stack (state.1.drainTransitions.2, state.2) :=
  ⟨hr.heap.drainTransitions, hr.ledger⟩

theorem Recording.settle (hr : Recording s entry held stack state) :
    Recording s entry held stack (settle state) := by
  fun_induction Ledger.settle state with
  | case1 state _ => exact hr.drain
  | case2 state _ ih => exact ih (hr.drain.fires _)

end Ledger

namespace Activation

open Ledger

variable {a : Activation} {e : CallEffect}

/-- The heap of the activation holds calls of its stack. -/
abbrev Recording (s : Setup) (entry : SummaryKey) (held : CallStack → TargetCall → Prop)
    (a : Activation) (l : Ledger) : Prop :=
  Ledger.Recording s entry held a.stack (a.context.heap, l)

theorem Recording.settled (hr : a.Recording s entry held l) :
    (a.settle l).1.Recording s entry held (a.settle l).2 := Ledger.Recording.settle hr

/-! Answering a call without a summary. -/

theorem recorded_crossEdges {calls : TargetCall → Prop}
    {step : Heap → EntityId → EntityId → Heap}
    (hstep : ∀ h input output, Heap.Recorded calls h → (step h input output).Recorded calls)
    (hh : h.Recorded calls) : (crossEdges e step h).Recorded calls :=
  Heap.Recorded.foldl (fun _ input hh =>
    Heap.Recorded.foldl (fun h output hh => hstep h input output hh) _ hh) _ hh

theorem Recording.conservative (hr : a.Recording s entry held l) (e : CallEffect) :
    (a.conservative l e).1.Recording s entry held (a.conservative l e).2 := by
  have hheap : (if anyInput a.context.heap e.inputs then
      e.receivers.foldl Heap.markInput a.context.heap
      else crossEdges e Heap.addDeferredInput a.context.heap).Recorded (held a.stack) := by
    split
    · exact Heap.Recorded.foldl (fun _ id hh => hh.markInput id) _ hr.heap
    · exact recorded_crossEdges (fun _ input output hh => hh.addDeferredInput input output) hr.heap
  exact ⟨hheap, hr.ledger.keep hr.ledger.findings fun _ he => he⟩

theorem Recording.externalCall (hr : a.Recording s entry held l)
    (he : held a.stack ⟨e.signature, a.stack⟩) :
    (a.externalCall l e).1.Recording s entry held (a.externalCall l e).2 := by
  have hheap : (e.inputs.foldl (fun h input => h.addTargetCall input ⟨e.signature, a.stack⟩)
      a.context.heap).Recorded (held a.stack) :=
    Heap.Recorded.foldl (fun _ input hh => hh.addTargetCall input he) _ hr.heap
  have hnoted : (a.setHeap (e.inputs.foldl (fun h input =>
      h.addTargetCall input ⟨e.signature, a.stack⟩) a.context.heap)).Recording s entry held
      { l with findings := l.findings.recordExternalCall } :=
    ⟨hheap, hr.ledger.keep hr.ledger.findings fun _ he => he⟩
  exact hnoted.conservative e

theorem Recording.interceptSink (hr : a.Recording s entry held l) (inputMode : Bool)
    (e : CallEffect) :
    (a.interceptSink l inputMode e).1.Recording s entry held (a.interceptSink l inputMode e).2 := by
  unfold Activation.interceptSink
  simp only
  split
  · exact ⟨recorded_crossEdges (fun _ input output hh => hh.addDeferredTaint input _) hr.heap,
      hr.ledger⟩
  · exact ⟨Heap.Recorded.foldl (fun _ output hh => hh.raiseTaint output _ _) _ hr.heap,
      hr.ledger.sourceFor _⟩

theorem Recording.dispatchConcrete (hr : a.Recording s entry held l)
    (he : held a.stack ⟨e.signature, a.stack⟩) (mode : GlueMode) :
    (dispatchConcrete s a l e mode).2.1.Recording s entry held
      (dispatchConcrete s a l e mode).2.2 := by
  unfold Activation.dispatchConcrete
  split
  · exact hr.externalCall he
  · split
    · exact hr.conservative e
    · split
      · exact hr.externalCall he
      · exact hr

theorem Recording.dispatchVirtual (hr : a.Recording s entry held l) (e : CallEffect)
    (d : MethodDef) :
    (dispatchVirtual s a l e d).2.1.Recording s entry held (dispatchVirtual s a l e d).2.2 := by
  unfold Activation.dispatchVirtual
  simp only
  split
  · have hcounted : a.Recording s entry held (l.count fun s =>
        { s with unresolvedVirtualCalls := s.unresolvedVirtualCalls + 1 }) :=
      ⟨hr.heap, hr.ledger.keep hr.ledger.findings fun _ he => he⟩
    exact hcounted.conservative e
  · exact hr

/-- A call of an instruction; one of the sink is not recorded. -/
theorem Recording.dispatch (hr : a.Recording s entry held l)
    (he : ¬s.isSink e.signature = true → held a.stack ⟨e.signature, a.stack⟩) :
    (dispatch s a l e).2.1.Recording s entry held (dispatch s a l e).2.2 := by
  have htype : a.Recording s entry held (registerType l e) := by
    refine ⟨hr.heap, ?_⟩
    unfold registerType
    split
    · exact hr.ledger.keep hr.ledger.findings fun _ he => he
    · exact hr.ledger
  unfold Activation.dispatch
  split
  · exact hr.interceptSink _ e
  · rename_i hn
    simp only
    split
    · exact htype.dispatchVirtual e _
    · exact htype.dispatchConcrete (he hn) _

/-! Answering a call by a summary. -/

/-- The caller gets moved calls of the callee. -/
theorem recorded_glueRoots {σ : Type} {calls : TargetCall → Prop} {callee : MethodSummary}
    {r : Rebasing σ} {move : CallStack → CallStack} (hm : r.Moves move)
    (hc : callee.heap.Recorded fun call => calls (call.moved move)) (mode : GlueMode)
    (pairs : List (EntityId × EntityId)) (hh : h.Recorded calls) (log : σ) :
    (glueRoots callee r mode pairs h log).1.Recorded calls :=
  Glue.recorded_foldl (g := { caller := h, log }) _
    (fun _ pair _ hg => Glue.recorded_apply hm hc hg mode pair.1 pair.2) hh

/-- No trigger is reported by gluing. -/
theorem triggers_glueRoots {calls : TargetCall → Prop} (callee : MethodSummary) (depth : Nat)
    (base : CallStack) (caller : SummaryKey) (mode : GlueMode)
    (pairs : List (EntityId × EntityId)) (h : Heap) {q : Provenance}
    (hq : q.findings.Triggers calls) :
    (glueRoots callee (Provenance.rebasing depth base caller) mode pairs h
      q).2.findings.Triggers calls := by
  have hstrokes := strokes_glueRoots callee.heap.within_any
    (Provenance.rebasing depth base caller) mode pairs h q
  generalize glueRoots callee (Provenance.rebasing depth base caller) mode pairs h q = glued
    at hstrokes ⊢
  induction hstrokes with
  | refl => exact hq
  | tail _ hstroke ih =>
    cases hstroke with
    | act _ => exact ih
    | taint _ _ _ => exact ih.rebaseTaint depth base caller _
    | stack _ => exact ih
    | sink _ _ _ => exact ih

/-- Answering a call by a final summary. -/
theorem Recording.applySummary (hh : Recordable s entry held) (hr : a.Recording s entry held l)
    {r : CallRequest} {summary : Summary} (hs : Summary.Recorded s entry held (r.key, summary))
    (hp : (a.stack.push r.key).Chained s.Links entry) :
    (a.applySummary l r summary false).1.Recording s entry held
      (a.applySummary l r summary false).2 := by
  cases summary with
  | empty => exact hr
  | computed callee =>
    obtain ⟨hpath, htop, hheap⟩ := hs callee rfl
    have hmoved : callee.heap.Recorded fun call =>
        held a.stack (call.moved (·.rebase callee.stack.depth (a.stack.push r.key))) :=
      hheap.mono fun call hc => hh.moved hpath htop hp hc
    refine ⟨?_, hr.ledger.keep (triggers_glueRoots callee _ _ _ _ _ _ hr.ledger.findings)
      fun _ he => he⟩
    exact (heap_addCounts _ callee r.mode).symm ▸
      recorded_glueRoots (Provenance.moves_rebasing _ _ _) hmoved _ _ hr.heap _

/-- Answering a call by a provisional summary: its calls stay on their stacks. -/
theorem Recording.applyProvisional (hr : a.Recording s entry held l) (r : CallRequest)
    {summary : Summary}
    (hs : ∀ callee, summary = .computed callee → callee.heap.Recorded (held a.stack)) :
    (a.applySummary l r summary true).1.Recording s entry held
      (a.applySummary l r summary true).2 := by
  cases summary with
  | empty => exact hr
  | computed callee =>
    refine ⟨?_, hr.ledger.keep hr.ledger.findings fun _ he => he⟩
    exact (heap_addCounts _ callee r.mode).symm ▸
      recorded_glueRoots Rebasing.moves_identity (hs callee rfl) _ _ hr.heap _

end Activation

end Recordable

end SinkTrace
