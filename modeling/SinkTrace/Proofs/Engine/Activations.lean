import SinkTrace.Engine.Dispatch
import SinkTrace.Proofs.Engine.Settling
import SinkTrace.Proofs.Heap.GlueTending
import SinkTrace.Proofs.Interpreter.Edits

/-!
Whatever an activation does to its heap, be it to walk on, to answer a call or to glue a summary,
leaves the heap tended.
-/

namespace SinkTrace

theorem Heap.Tended.edits {h h' : Heap} {f : Findings} {todo : List EntityId}
    (ht : h.Tended f todo) (he : Heap.Edits h h') : h'.Tended f todo := by
  induction he with
  | refl => exact ht
  | tail _ hedit ih =>
    cases hedit with
    | create origin => exact ih.create origin
    | loadField owner key => exact ih.loadField owner key
    | merge a b => exact ih.merge a b
    | storeField owner key value => exact ih.storeField owner key value

/-- The findings vouch for the provisional answer and for the summaries that wait. -/
structure RecursionLoop.Vouched {φ : Type} (f : Findings) (loop : RecursionLoop φ) : Prop where
  provisional : ∀ summary, loop.provisional = some summary → summary.Vouched f
  pending : ∀ entry ∈ loop.pending, entry.2.Vouched f

namespace Activation

variable {a : Activation} {l l' : Ledger} {f f' : Findings}

structure Sound (f : Findings) (a : Activation) : Prop where
  heap : a.context.heap.Tended f []
  stack : a.stack.Rooted
  loop : ∀ loop, a.recursion = some loop → loop.Vouched f

theorem Sound.mono (ha : a.Sound f) (he : f.Extends f') : a.Sound f' :=
  ⟨ha.heap.mono he, ha.stack, fun loop hl => ⟨fun s hs => ((ha.loop loop hl).provisional s hs).mono
    he, fun entry hm => ((ha.loop loop hl).pending entry hm).mono he⟩⟩

/-- Another heap, and otherwise nothing that matters here. -/
theorem Sound.withContext (ha : a.Sound f) {a' : Activation}
    (hh : a'.context.heap.Tended f' []) (he : f.Extends f') (hs : a'.stack = a.stack)
    (hr : a'.recursion = a.recursion) : a'.Sound f' := by
  have hm := ha.mono he
  exact ⟨hh, hs ▸ ha.stack, fun loop hl => hm.loop loop (hr ▸ hl)⟩

/-- The activation is sound, and nothing found so far is lost. -/
structure Continues (l : Ledger) (a' : Activation) (l' : Ledger) : Prop where
  ledger : l.Extends l'
  activation : a'.Sound l'.findings

theorem Continues.after {k : Ledger} {a' : Activation} (he : l.Extends k)
    (hc : Continues k a' l') : Continues l a' l' :=
  ⟨he.trans hc.ledger, hc.activation⟩

theorem start_fresh {key : SummaryKey} {method : MethodRef} {stack : CallStack}
    {target : CallTarget} {statics : Bool}
    (hs : start key method stack target statics = .ok a) :
    a.stack = stack ∧ a.recursion = none ∧ Heap.Edits {} a.context.heap := by
  cases starts_of_start hs with
  | @walk d body w c hb hw =>
    exact ⟨rfl, rfl, (Context.edits_start d.reference body.locals statics).trans
      (Interpreter.edits_start hw)⟩
  | dispatch methods => exact ⟨rfl, rfl, Context.edits_startDispatch method statics⟩

theorem sound_start {key : SummaryKey} {method : MethodRef} {stack : CallStack}
    {target : CallTarget} {statics : Bool} (hstack : stack.Rooted)
    (hs : start key method stack target statics = .ok a) : a.Sound f := by
  obtain ⟨rfl, hr, hedits⟩ := start_fresh hs
  refine ⟨(Heap.tended_empty f []).edits hedits, hstack, fun loop hl => ?_⟩
  rw [hr] at hl
  cases hl

theorem Sound.settle (ha : a.Sound l.findings) (hl : l.Sound) :
    Continues l (a.settle l).1 (a.settle l).2 := by
  obtain ⟨ht, -, he⟩ := hl.settle ha.heap
  exact ⟨he, ha.withContext ht he.findings rfl rfl⟩

/-! Answering a call without a summary. -/

theorem tended_crossEdges {h : Heap} {e : CallEffect} {step : Heap → EntityId → EntityId → Heap}
    (hstep : ∀ {h} input output, Heap.Tended h f [] → (step h input output).Tended f [])
    (ht : h.Tended f []) : (crossEdges e step h).Tended f [] := by
  refine Heap.Tended.foldl (fun input ht => ?_) _ ht
  exact Heap.Tended.foldl (fun output ht => hstep input output ht) _ ht

theorem Sound.conservative (ha : a.Sound l.findings) (hl : l.Sound) (e : CallEffect) :
    Continues l (a.conservative l e).1 (a.conservative l e).2 := by
  refine ⟨hl.withFindings .refl rfl rfl rfl, ha.withContext ?_ (.refl hl.orderly) rfl rfl⟩
  have htended : (if anyInput a.context.heap e.inputs then
      e.receivers.foldl Heap.markInput a.context.heap
      else crossEdges e Heap.addDeferredInput a.context.heap).Tended l.findings [] := by
    split
    · exact Heap.Tended.foldl (fun id ht => ht.markInput id) _ ha.heap
    · exact tended_crossEdges (fun input output ht => ht.addDeferredInput input output) ha.heap
  exact htended

theorem Sound.externalCall (ha : a.Sound l.findings) (hl : l.Sound) (e : CallEffect) :
    Continues l (a.externalCall l e).1 (a.externalCall l e).2 := by
  have hf := hl.orderly.recordExternalCall
  have hext : l.Extends { l with findings := l.findings.recordExternalCall } :=
    hl.withFindings (.recordExternalCall .refl) rfl rfl rfl
  have hcalls := Heap.Tended.foldl
    (fun input ht => Heap.Tended.addTargetCall ht input ⟨e.signature, a.stack⟩) e.inputs
    (ha.heap.mono hf)
  have hcall : (a.setHeap (e.inputs.foldl (fun h input =>
      h.addTargetCall input ⟨e.signature, a.stack⟩) a.context.heap)).Sound
      l.findings.recordExternalCall := ha.withContext hcalls hf rfl rfl
  exact .after hext (hcall.conservative hext.sound e)

theorem Sound.interceptSink (ha : a.Sound l.findings) (hl : l.Sound) (inputMode : Bool)
    (e : CallEffect) :
    Continues l (a.interceptSink l inputMode e).1 (a.interceptSink l inputMode e).2 := by
  unfold Activation.interceptSink
  simp only
  split
  · refine ⟨.refl hl, ha.withContext ?_ (.refl hl.orderly) rfl rfl⟩
    exact tended_crossEdges (fun input output ht => ht.addDeferredTaint input ha.stack) ha.heap
  · obtain ⟨hext, hk⟩ := @Ledger.Sound.sourceFor _ hl ⟨e.signature, a.stack, e.offset⟩ ha.stack
    refine ⟨hext, ha.withContext ?_ hext.findings rfl rfl⟩
    exact Heap.Tended.foldl (fun output ht => ht.raiseTaint output (fun _ => hk) _) e.receivers
      (ha.heap.mono hext.findings)

theorem Sound.dispatchConcrete (ha : a.Sound l.findings) (s : Setup) (hl : l.Sound)
    (e : CallEffect) (mode : GlueMode) :
    Continues l (dispatchConcrete s a l e mode).2.1 (dispatchConcrete s a l e mode).2.2 := by
  unfold Activation.dispatchConcrete
  split
  · exact ha.externalCall hl e
  · split
    · exact ha.conservative hl e
    · split
      · exact ha.externalCall hl e
      · exact ⟨.refl hl, ha⟩

theorem Sound.dispatchVirtual (ha : a.Sound l.findings) (s : Setup) (hl : l.Sound)
    (e : CallEffect) (d : MethodDef) :
    Continues l (dispatchVirtual s a l e d).2.1 (dispatchVirtual s a l e d).2.2 := by
  unfold Activation.dispatchVirtual
  simp only
  split
  · have hcount := hl.count (fun s =>
      { s with unresolvedVirtualCalls := s.unresolvedVirtualCalls + 1 }) fun _ => rfl
    exact .after hcount (Sound.conservative (l := l.count _) ha hcount.sound e)
  · exact ⟨.refl hl, ha⟩

theorem Sound.dispatch (ha : a.Sound l.findings) (s : Setup) (hl : l.Sound) (e : CallEffect) :
    Continues l (dispatch s a l e).2.1 (dispatch s a l e).2.2 := by
  have htype : l.Extends (registerType l e) ∧ a.Sound (registerType l e).findings := by
    unfold registerType
    split
    · exact ⟨hl.withFindings .refl rfl rfl rfl, ha⟩
    · exact ⟨.refl hl, ha⟩
  obtain ⟨hext, ha'⟩ := htype
  unfold Activation.dispatch
  split
  · exact ha.interceptSink hl _ e
  · simp only
    split
    · exact .after hext (ha'.dispatchVirtual s hext.sound e _)
    · exact .after hext (ha'.dispatchConcrete s hext.sound e _)

/-! Gluing a summary. -/

theorem carries_glueRoots {σ : Type} {view : σ → Findings} {inv : σ → Prop} {r : Rebasing σ}
    (hr : r.Sound view inv) {callee : MethodSummary} {caller : Heap} {log : σ}
    (ha : Glue.Attended view inv callee.heap caller log) (mode : GlueMode)
    (pairs : List (EntityId × EntityId)) :
    Glue.Carries view inv callee.heap log (glueRoots callee r mode pairs caller log).1
      (glueRoots callee r mode pairs caller log).2 :=
  @Glue.Attended.foldl _ _ _ _ { caller, log } _
    (fun g (pair : EntityId × EntityId) => (g.apply callee.heap r mode pair.1 pair.2).2)
    (fun pair ha => ha.apply hr mode pair.1 pair.2) pairs ha

theorem heap_addCounts (c : Context) (callee : MethodSummary) (mode : GlueMode) :
    (addCounts c callee mode).heap = c.heap := by
  cases mode <;> rfl

theorem Sound.applySummary (ha : a.Sound l.findings) (hl : l.Sound) (r : CallRequest)
    {summary : Summary} (hv : summary.Vouched l.findings) (provisional : Bool) :
    Continues l (a.applySummary l r summary provisional).1
      (a.applySummary l r summary provisional).2 := by
  cases summary with
  | empty => exact ⟨.refl hl, ha⟩
  | computed callee =>
    have hnext : l.Extends { l with session := l.session.nextApplication.2 } :=
      hl.withFindings .refl rfl rfl rfl
    cases provisional with
    | true =>
      have hstart : Glue.Attended (fun _ => l.findings) (fun _ => True) callee.heap
          a.context.heap () := ⟨trivial, hl.orderly, ha.heap, hv⟩
      have hglue := carries_glueRoots (Rebasing.sound_identity hl.orderly) hstart r.mode
        (rootPairs callee r.effect a.context.staticRoot)
      refine ⟨hnext, ha.withContext ?_ (.refl hl.orderly) rfl rfl⟩
      exact (heap_addCounts _ callee r.mode).symm ▸ hglue.attended.caller
    | false =>
      have hbase := CallStack.rooted_push a.stack r.key
      have hstart : Glue.Attended Provenance.findings (Provenance.Sound l.findings) callee.heap
          a.context.heap ⟨l.findings, {}⟩ :=
        ⟨⟨hl.orderly, (nomatch ·), .refl⟩, hl.orderly, ha.heap, hv⟩
      have hglue := carries_glueRoots
        (Provenance.sound_rebasing l.findings callee.stack.depth hbase a.key) hstart r.mode
        (rootPairs callee r.effect a.context.staticRoot)
      refine ⟨hl.withFindings hglue.attended.inv.revised rfl rfl rfl,
        ha.withContext ?_ hglue.findings rfl rfl⟩
      exact (heap_addCounts _ callee r.mode).symm ▸ hglue.attended.caller

end Activation

end SinkTrace
