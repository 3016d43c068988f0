import SinkTrace.Proofs.Engine.Activations
import SinkTrace.Proofs.Heap.Confinement
import SinkTrace.Proofs.Paths

/-!
Tracing taints back to where they came up. Every taint in the heap of an activation names a source
whose path starts with the stack of the activation, unless the source has been moved; and the same
holds for a summary and the stack that it carries. Answering calls, gluing summaries and settling
keep it so.
-/

namespace SinkTrace

/-- The sink was called on a path that starts with the stack. -/
structure SinkCall.From (p : Program) (entry : SummaryKey) (stack : CallStack) (call : SinkCall) :
    Prop where
  path : p.Path entry call.stack
  starts : stack.toList <+: call.stack.toList

/-- All that the heap says about sources is about paths that start with the stack. -/
def Heap.Traced (p : Program) (entry : SummaryKey) (f : Findings) (stack : CallStack) (h : Heap) :
    Prop := h.Confined (f.Traced stack) (SinkCall.From p entry stack)

structure MethodSummary.Traced (p : Program) (entry : SummaryKey) (f : Findings) (key : SummaryKey)
    (s : MethodSummary) : Prop where
  path : p.Path entry s.stack
  top : s.stack.top? = some key
  heap : s.heap.Traced p entry f s.stack

def Summary.Traced (p : Program) (entry : SummaryKey) (f : Findings) (key : SummaryKey) :
    Summary → Prop
  | .empty => True
  | .computed s => s.Traced p entry f key

variable {p : Program} {entry key : SummaryKey} {f f' : Findings} {stack : CallStack} {h h' : Heap}

theorem Heap.Traced.later (ht : h.Traced p entry f stack) (hl : f.Later f') :
    h.Traced p entry f' stack := ht.mono (fun _ ht => ht.later hl) fun _ hs => hs

theorem Summary.Traced.later {summary : Summary} (hs : summary.Traced p entry f key)
    (hl : f.Later f') : summary.Traced p entry f' key := by
  cases summary with
  | empty => trivial
  | computed s => exact ⟨hs.path, hs.top, hs.heap.later hl⟩

theorem Findings.Genuine.sourceless (hf : f.Genuine p entry) (stack : CallStack) :
    ∀ t, TaintId.Sourceless t → f.Traced stack t :=
  fun _ ht => hf.traced_of_sourceless (Nat.lt_succ_of_le ht)

namespace Ledger

variable {l l' : Ledger} {state : Heap × Ledger}

/-- What the ledger keeps is traced. The source that a sink call was given has the path of the call,
unless it has been moved. -/
structure Genuine (p : Program) (entry : SummaryKey) (l : Ledger) : Prop where
  findings : l.findings.Genuine p entry
  session : ∀ {site id}, l.session.sources.get? site = some id → id < l.findings.nextId ∧
    ∀ s ∈ l.findings.sources, s.id = id → l.findings.Original id → s.forward.toList = site.1
  cache : ∀ e ∈ l.cache.entries, e.2.Traced p entry l.findings e.1

/-- The findings went on, and the sink calls and summaries that are kept are those of before. -/
theorem Genuine.keep (hl : l.Genuine p entry) (hf : l'.findings.Genuine p entry)
    (hlater : l.findings.Later l'.findings) (hs : l'.session.sources = l.session.sources)
    (hc : l'.cache.entries = l.cache.entries) : l'.Genuine p entry := by
  refine ⟨hf, fun {site id} hm => ?_, fun e he => (hl.cache e (hc ▸ he)).later hlater⟩
  obtain ⟨hlt, hpath⟩ := hl.session (hs ▸ hm)
  refine ⟨Nat.lt_of_lt_of_le hlt hlater.nextId, fun s' hs' hid ho => ?_⟩
  obtain ⟨s, hsource, hsame, hforward⟩ := hlater.source s' hs' (hid ▸ hlt)
  exact hforward ▸ hpath s hsource (hsame.trans hid) (ho.of_later hlater)

theorem Genuine.sourceFor (hl : l.Genuine p entry) {call : SinkCall}
    (hc : call.From p entry stack) :
    (l.sourceFor call).2.Genuine p entry ∧ l.findings.Later (l.sourceFor call).2.findings ∧
      (l.sourceFor call).2.findings.Traced stack (l.sourceFor call).1 := by
  cases hm : l.session.source? call.stack call.offset with
  | some id =>
    simp only [Ledger.sourceFor, hm]
    obtain ⟨hlt, hpath⟩ := hl.session hm
    refine ⟨hl, .refl _, hl.findings.resolve_lt hlt, fun s hs hid ho => ?_⟩
    rw [ho.resolve_eq] at hid ho
    exact hpath s hs hid ho ▸ hc.starts
  | none =>
    obtain ⟨top, htop⟩ := hc.path.exists_top
    have hcaller : call.stack.top?.map SummaryKey.signature = some top.signature := by
      rw [htop]
      rfl
    obtain ⟨hf, hlater, hnew⟩ := hl.findings.addSource hc.path hcaller
    have hlt : l.findings.nextId <
        (l.findings.addSource top.signature call.stack).2.nextId :=
      (Findings.nextId_addSource ..).symm ▸ Nat.lt_succ_self _
    rw [sourceFor_of_none hm]
    simp only [hcaller, Option.getD_some]
    have hkeep : Genuine p entry { l with findings :=
        (l.findings.addSource top.signature call.stack).2 } := hl.keep hf hlater rfl rfl
    refine ⟨⟨hf, fun {site id} hm => ?_, hkeep.cache⟩, hlater, hlt,
      fun s hs hid _ => hnew s hs hid ▸ hc.starts⟩
    have hm' : (l.session.sources.insert (call.stack.toList, call.offset)
        l.findings.nextId).get? site = some id := hm
    rw [Table.get?_insert] at hm'
    split at hm'
    · rename_i hat
      cases hm'
      refine ⟨hlt, fun s hs hid _ => ?_⟩
      rw [hnew s hs hid, hat]
    · exact hkeep.session hm'

/-- A heap that is traced to the stack, and a ledger whose findings go on from `f`. -/
structure Traces (p : Program) (entry : SummaryKey) (stack : CallStack) (f : Findings)
    (state : Heap × Ledger) : Prop where
  genuine : state.2.Genuine p entry
  later : f.Later state.2.findings
  heap : state.1.Traced p entry state.2.findings stack

theorem Traces.sourceless (ht : Traces p entry stack f state) :
    ∀ t, TaintId.Sourceless t → state.2.findings.Traced stack t :=
  ht.genuine.findings.sourceless stack

theorem Traces.withHeap (ht : Traces p entry stack f (h, l))
    (hh : h'.Traced p entry l.findings stack) : Traces p entry stack f (h', l) :=
  ⟨ht.genuine, ht.later, hh⟩

theorem Traces.count (ht : Traces p entry stack f (h, l)) (g : Statistics → Statistics) :
    Traces p entry stack f (h, l.count g) :=
  ⟨ht.genuine.keep ht.genuine.findings (.refl _) rfl rfl, ht.later, ht.heap⟩

/-- Another cache with no summaries but those of before. -/
theorem Traces.withCache (ht : Traces p entry stack f (h, l)) {cache : Cache}
    (hc : ∀ e ∈ cache.entries, e ∈ l.cache.entries) :
    Traces p entry stack f (h, { l with cache }) :=
  ⟨⟨ht.genuine.findings, ht.genuine.session, fun e he => ht.genuine.cache e (hc e he)⟩, ht.later,
    ht.heap⟩

/-! Settling. -/

theorem Traces.fireTaint (ht : Traces p entry stack f state) {edge : DeferredTaint}
    (hs : edge.sink.From p entry stack) : Traces p entry stack f (fireTaint state edge) := by
  obtain ⟨hl, hlater, htaint⟩ := ht.genuine.sourceFor hs
  exact ⟨hl, ht.later.trans hlater,
    (ht.heap.later hlater).raiseTaint edge.target htaint (some edge.sink.stack)⟩

theorem Traces.fireTaints (ht : Traces p entry stack f state) {edges : List DeferredTaint}
    (hs : ∀ edge ∈ edges, edge.sink.From p entry stack) :
    Traces p entry stack f (edges.foldl Ledger.fireTaint state) := by
  induction edges generalizing state with
  | nil => exact ht
  | cons edge edges ih =>
    obtain ⟨hfirst, hrest⟩ := List.forall_mem_cons.mp hs
    exact ih (ht.fireTaint hfirst) hrest

theorem Genuine.reportCalls (hl : l.Genuine p entry) (taint : TaintId)
    (calls : List TargetCall) :
    (l.reportCalls taint calls).Genuine p entry ∧
      l.findings.Later (l.reportCalls taint calls).findings := by
  unfold Ledger.reportCalls
  split
  · obtain ⟨hf, hlater⟩ := hl.findings.addTriggers taint calls
    exact ⟨hl.keep hf hlater rfl rfl, hlater⟩
  · exact ⟨hl, .refl _⟩

theorem Traces.fire (ht : Traces p entry stack f state) (id : EntityId) :
    Traces p entry stack f (fire state id) := by
  obtain ⟨h, l⟩ := state
  unfold Ledger.fire
  simp only
  split
  · have hsinks := (ht.heap.entity ht.sourceless id).sink
    have htaken : Traces p entry stack f ((h.takeDeferredTaint id).2, l) :=
      ht.withHeap (ht.heap.takeDeferredTaint id)
    have hfired : Traces p entry stack f ((h.takeDeferredTaint id).1.foldl Ledger.fireTaint
        ((h.takeDeferredTaint id).2, l)) := htaken.fireTaints hsinks
    generalize (h.takeDeferredTaint id).1.foldl Ledger.fireTaint
      ((h.takeDeferredTaint id).2, l) = fired at hfired ⊢
    have hmarked : Heap.Traced p entry fired.2.findings stack
        ((fired.1.takeDeferredInput id).1.foldl Heap.markInput
          (fired.1.takeDeferredInput id).2) :=
      Heap.Confined.foldl (fun _ target hc => hc.markInput hfired.sourceless target) _
        (hfired.heap.takeDeferredInput id)
    obtain ⟨hl, hlater⟩ := hfired.genuine.reportCalls (h.taint id) _
    exact ⟨hl, hfired.later.trans hlater, hmarked.later hlater⟩
  · exact ht

theorem Traces.fires (ht : Traces p entry stack f state) (ids : List EntityId) :
    Traces p entry stack f (ids.foldl Ledger.fire state) := by
  induction ids generalizing state with
  | nil => exact ht
  | cons id ids ih => exact ih (ht.fire id)

theorem Traces.drain (ht : Traces p entry stack f state) :
    Traces p entry stack f (state.1.drainTransitions.2, state.2) :=
  ht.withHeap (Heap.Every.of_live ht.heap fun _ _ he => he)

theorem Traces.settle (ht : Traces p entry stack f state) :
    Traces p entry stack f (settle state) := by
  fun_induction Ledger.settle state with
  | case1 state _ => exact ht.drain
  | case2 state _ ih => exact ih (ht.drain.fires _)

end Ledger

namespace Activation

open Ledger

variable {a : Activation} {l : Ledger} {e : CallEffect}

/-- The heap of an activation is traced to its stack. -/
abbrev Traces (p : Program) (entry : SummaryKey) (f : Findings) (a : Activation) (l : Ledger) :
    Prop := Ledger.Traces p entry a.stack f (a.context.heap, l)

theorem Traces.settled (ht : a.Traces p entry f l) :
    (a.settle l).1.Traces p entry f (a.settle l).2 := Ledger.Traces.settle ht

/-! Answering a call without a summary. -/

theorem traced_crossEdges {step : Heap → EntityId → EntityId → Heap}
    (hstep : ∀ h input output, Heap.Traced p entry f stack h →
      (step h input output).Traced p entry f stack) (hh : h.Traced p entry f stack) :
    (crossEdges e step h).Traced p entry f stack :=
  Heap.Confined.foldl (fun _ input hc =>
    Heap.Confined.foldl (fun h output hc => hstep h input output hc) _ hc) _ hh

theorem Traces.conservative (ht : a.Traces p entry f l) (e : CallEffect) :
    (a.conservative l e).1.Traces p entry f (a.conservative l e).2 := by
  have hheap : (if anyInput a.context.heap e.inputs then
      e.receivers.foldl Heap.markInput a.context.heap
      else crossEdges e Heap.addDeferredInput a.context.heap).Traced p entry l.findings
        a.stack := by
    split
    · exact Heap.Confined.foldl (fun _ id hc => hc.markInput ht.sourceless id) _ ht.heap
    · exact traced_crossEdges (fun _ input output hc => hc.addDeferredInput input output) ht.heap
  exact (ht.withHeap hheap).count fun s => { s with conservativeCalls := s.conservativeCalls + 1 }

theorem Traces.externalCall (ht : a.Traces p entry f l) (e : CallEffect) :
    (a.externalCall l e).1.Traces p entry f (a.externalCall l e).2 := by
  obtain ⟨hf, hlater⟩ := ht.genuine.findings.recordExternalCall
  have hcalls : Heap.Traced p entry l.findings a.stack _ :=
    Heap.Confined.foldl (fun _ input hc => hc.addTargetCall input ⟨e.signature, a.stack⟩)
      e.inputs ht.heap
  have hnoted : (a.setHeap (e.inputs.foldl (fun h input =>
      h.addTargetCall input ⟨e.signature, a.stack⟩) a.context.heap)).Traces p entry f
      { l with findings := l.findings.recordExternalCall } :=
    ⟨ht.genuine.keep hf hlater rfl rfl, ht.later.trans hlater, hcalls.later hlater⟩
  exact hnoted.conservative e

theorem Traces.interceptSink (ht : a.Traces p entry f l)
    (hp : p.Path entry a.stack) (inputMode : Bool) (e : CallEffect) :
    (a.interceptSink l inputMode e).1.Traces p entry f (a.interceptSink l inputMode e).2 := by
  have hfrom : SinkCall.From p entry a.stack ⟨e.signature, a.stack, e.offset⟩ :=
    ⟨hp, List.prefix_refl _⟩
  unfold Activation.interceptSink
  simp only
  split
  · exact ht.withHeap (traced_crossEdges
      (fun _ input output hc => hc.addDeferredTaint input hfrom) ht.heap)
  · obtain ⟨hl, hlater, htaint⟩ := ht.genuine.sourceFor hfrom
    exact ⟨hl, ht.later.trans hlater, Heap.Confined.foldl
      (fun _ output hc => hc.raiseTaint output htaint (some a.stack)) _
      (ht.heap.later hlater)⟩

theorem Traces.dispatchConcrete (ht : a.Traces p entry f l) (s : Setup)
    (e : CallEffect) (mode : GlueMode) :
    (dispatchConcrete s a l e mode).2.1.Traces p entry f (dispatchConcrete s a l e mode).2.2 := by
  unfold Activation.dispatchConcrete
  split
  · exact ht.externalCall e
  · split
    · exact ht.conservative e
    · split
      · exact ht.externalCall e
      · exact ht

theorem Traces.dispatchVirtual (ht : a.Traces p entry f l) (s : Setup)
    (e : CallEffect) (d : MethodDef) :
    (dispatchVirtual s a l e d).2.1.Traces p entry f (dispatchVirtual s a l e d).2.2 := by
  unfold Activation.dispatchVirtual
  simp only
  split
  · have hcounted : a.Traces p entry f (l.count fun s =>
        { s with unresolvedVirtualCalls := s.unresolvedVirtualCalls + 1 }) := ht.count _
    exact hcounted.conservative e
  · exact ht

theorem Traces.dispatch (ht : a.Traces p entry f l) (hp : p.Path entry a.stack)
    (s : Setup) (e : CallEffect) :
    (dispatch s a l e).2.1.Traces p entry f (dispatch s a l e).2.2 := by
  have htype : a.Traces p entry f (registerType l e) := by
    unfold registerType
    split
    · exact ⟨ht.genuine.keep ht.genuine.findings (.refl _) rfl rfl, ht.later, ht.heap⟩
    · exact ht
  unfold Activation.dispatch
  split
  · exact ht.interceptSink hp _ e
  · simp only
    split
    · exact htype.dispatchVirtual s e _
    · exact htype.dispatchConcrete s e _

/-! Gluing a summary. -/

/-- What strokes of gluing keep: the caller is traced to its stack, and taints are moved to ones
that are traced to the base. -/
theorem traced_strokes {caller base : CallStack} {callee : MethodSummary} {f₀ : Findings}
    {observer : SummaryKey} {x y : Heap × Provenance}
    (hc : callee.Traced p entry f₀ key) (hb : p.Path entry base) (htop : base.top? = some key)
    (hpre : caller.toList <+: base.toList)
    (hs : (Provenance.rebasing callee.stack.depth base observer).Strokes False
      (f₀.Traced callee.stack) (SinkCall.From p entry callee.stack) x y)
    (hx : x.2.Genuine p entry f₀ base) (hh : x.1.Traced p entry x.2.findings caller) :
    y.2.Genuine p entry f₀ base ∧ y.1.Traced p entry y.2.findings caller := by
  have hends : base.top? = callee.stack.top? := htop.trans hc.top.symm
  induction hs with
  | refl => exact ⟨hx, hh⟩
  | tail _ hstroke ih =>
    obtain ⟨hq, hheap⟩ := ih
    have hz := hq.findings.sourceless caller
    cases hstroke with
    | act ha => exact ⟨hq, hheap.act hz (ha.mono hz fun _ hs => hs.elim)⟩
    | taint ht id stack =>
      obtain ⟨hq', hlater, hmoved⟩ :=
        hq.rebaseTaint hc.path.counted hb hends (ht.later hq.later) observer
      exact ⟨hq', (hheap.later hlater).raiseTaint id (hmoved.shorten hpre) stack⟩
    | stack _ => exact ⟨hq, hheap⟩
    | sink hs owner _ =>
      obtain ⟨hpath, hstarts, -⟩ := hs.path.rebase hc.path.counted hs.starts hb hends
      exact ⟨hq, hheap.addDeferredTaint owner ⟨hpath, hpre.trans hstarts⟩⟩

theorem strokes_glueRoots {σ : Type} {callee : MethodSummary} {taints : TaintId → Prop}
    {sinks : SinkCall → Prop} (hc : callee.heap.Within taints sinks) (r : Rebasing σ)
    (mode : GlueMode) (pairs : List (EntityId × EntityId)) (caller : Heap) (log : σ) :
    r.Strokes False taints sinks (caller, log) (glueRoots callee r mode pairs caller log) := by
  have hplays : Glue.Plays r False taints sinks { caller, log }
      (pairs.foldl (fun (g : Glue σ) pair => (g.apply callee.heap r mode pair.1 pair.2).2)
        { caller, log }) :=
    Glue.plays_foldl False.elim fun g pair _ _ =>
      Glue.plays_apply hc False.elim mode pair.1 False.elim
  exact hplays.strokes

theorem Traces.applySummary (ht : a.Traces p entry f l) {r : CallRequest}
    {summary : Summary} (hs : summary.Traced p entry l.findings r.key)
    (hb : p.Path entry (a.stack.push r.key)) :
    (a.applySummary l r summary false).1.Traces p entry f
      (a.applySummary l r summary false).2 := by
  cases summary with
  | empty => exact ht
  | computed callee =>
    have hwithin := hs.heap.within (ht.genuine.findings.sourceless callee.stack)
    have hstrokes := strokes_glueRoots hwithin
      (Provenance.rebasing callee.stack.depth (a.stack.push r.key) a.key) r.mode
      (rootPairs callee r.effect a.context.staticRoot) a.context.heap ⟨l.findings, {}⟩
    have hpre : a.stack.toList <+: (a.stack.push r.key).toList := by
      rw [CallStack.toList_push]
      exact List.prefix_append _ _
    have hstart : Provenance.Genuine p entry l.findings (a.stack.push r.key)
        ⟨l.findings, {}⟩ := ⟨ht.genuine.findings, .refl _, fun hm => by cases hm⟩
    obtain ⟨hq, hheap⟩ := traced_strokes hs hb rfl hpre hstrokes hstart ht.heap
    refine ⟨ht.genuine.keep hq.findings hq.later rfl rfl, ht.later.trans hq.later, ?_⟩
    exact (heap_addCounts _ callee r.mode).symm ▸ hheap

end Activation

end SinkTrace
