import SinkTrace.Engine.Activation
import SinkTrace.Engine.Ledger
import SinkTrace.Engine.Provenance
import SinkTrace.Engine.Setup

/-!
What becomes of a call. The sink is intercepted; a call that cannot be analysed is answered
conservatively, and if it leaves the program it is recorded on its inputs; any other call asks for
a summary, which is glued onto the caller when it is there. Each answer leaves the heap unsettled;
the machine settles it before it goes on.
-/

namespace SinkTrace

namespace Activation

/-- Settles the heap of the activation. -/
def settle (a : Activation) (l : Ledger) : Activation × Ledger :=
  let (h, l) := Ledger.settle (a.context.heap, l)
  (a.setHeap h, l)

def anyInput (h : Heap) (ids : List EntityId) : Bool :=
  ids.any fun id => TaintId.isInput (h.taint id)

/-- Does something for every input and every receiver of a call. -/
def crossEdges (e : CallEffect) (f : Heap → EntityId → EntityId → Heap) (h : Heap) : Heap :=
  e.inputs.foldl (fun h input => e.receivers.foldl (fun h output => f h input output) h) h

/-- The receivers of a call become input as soon as one of its inputs is. -/
def conservative (a : Activation) (l : Ledger) (e : CallEffect) : Activation × Ledger :=
  let h := a.context.heap
  let h := if anyInput h e.inputs then e.receivers.foldl Heap.markInput h
    else crossEdges e Heap.addDeferredInput h
  (a.setHeap h, l.count fun s => { s with conservativeCalls := s.conservativeCalls + 1 })

/-- A call that leaves the program matters for each of its inputs. -/
def externalCall (a : Activation) (l : Ledger) (e : CallEffect) : Activation × Ledger :=
  let h := e.inputs.foldl (fun h input => h.addTargetCall input ⟨e.signature, a.stack⟩)
    a.context.heap
  (a.setHeap h).conservative { l with findings := l.findings.recordExternalCall } e

/-- The receivers of the sink become tainted: at once, or, where only input taints, when an input
of the call becomes input. -/
def interceptSink (a : Activation) (l : Ledger) (inputMode : Bool) (e : CallEffect) :
    Activation × Ledger :=
  let h := a.context.heap
  let call : SinkCall := ⟨e.signature, a.stack, e.offset⟩
  if inputMode && !anyInput h e.inputs then
    (a.setHeap (crossEdges e (fun h input output => h.addDeferredTaint input ⟨output, call⟩) h), l)
  else
    let (source, l) := l.sourceFor call
    (a.setHeap (e.receivers.foldl
      (fun h output => (h.raiseTaint output source (some a.stack)).2) h), l)

/-- A call of a known method, or of none. -/
def dispatchConcrete (s : Setup) (a : Activation) (l : Ledger) (e : CallEffect) (mode : GlueMode) :
    Option CallRequest × Activation × Ledger :=
  match s.program.method? e.signature with
  | none => (none, a.externalCall l e)
  | some d =>
    if s.program.skippedModules.elem d.module then (none, a.conservative l e)
    else if !d.hasBody || s.isExternal d.signature then (none, a.externalCall l e)
    else (some ⟨⟨.concrete, d.signature⟩, e, mode, .method d⟩, a, l)

/-- A virtual call of `d`, resolved unless it leads nowhere or to too many methods. -/
def dispatchVirtual (s : Setup) (a : Activation) (l : Ledger) (e : CallEffect) (d : MethodDef) :
    Option CallRequest × Activation × Ledger :=
  let methods := s.implementationsOf l.cache.createdTypes d e.signature
  if methods.isEmpty || s.config.virtualCallsLimit.toNat < methods.length then
    (none, a.conservative
      (l.count fun s => { s with unresolvedVirtualCalls := s.unresolvedVirtualCalls + 1 }) e)
  else (some ⟨⟨.virtual, e.signature⟩, e, .replace, .implementations methods⟩, a, l)

/-- Notes the type that a constructor is called for. -/
def registerType (l : Ledger) (e : CallEffect) : Ledger :=
  if e.isConstructor then { l with cache := (l.cache.registerType e.method.declaring.name).2 }
  else l

/-- The virtual method that the call is made through. -/
def virtualTarget? (s : Setup) (e : CallEffect) : Option MethodDef :=
  if e.kind = .callvirt then
    (s.program.method? e.signature).filter fun d => d.isVirtual || d.isAbstract
  else none

/-- Handles a call, up to the point where a summary is needed. -/
def dispatch (s : Setup) (a : Activation) (l : Ledger) (e : CallEffect) :
    Option CallRequest × Activation × Ledger :=
  if s.isSink e.signature then (none, a.interceptSink l s.config.inputTaintedMode e)
  else
    let l := registerType l e
    match virtualTarget? s e with
    | some d => dispatchVirtual s a l e d
    | none => dispatchConcrete s a l e .replace

/-! Summaries. -/

/-- Roots of the summary with the entities they stand for at the call site. -/
def rootPairs (callee : MethodSummary) (e : CallEffect) (staticRoot : Option EntityId) :
    List (EntityId × EntityId) :=
  ((callee.staticRoot, staticRoot) :: callee.arguments.zip e.parameters
    ++ [(callee.result, e.output)]).filterMap fun
      | (some root, some actual) => some (root, actual)
      | _ => none

/-- Glues the heap of a summary onto a caller. -/
def glueRoots {σ : Type} (callee : MethodSummary) (r : Rebasing σ) (mode : GlueMode)
    (pairs : List (EntityId × EntityId)) (caller : Heap) (log : σ) : Heap × σ :=
  let start : Glue σ := { caller, log }
  let g := pairs.foldl (fun (g : Glue σ) pair => (g.apply callee.heap r mode pair.1 pair.2).2) start
  (g.caller, g.log)

/-- Counters of the caller with those of the callee. -/
def addCounts (c : Context) (callee : MethodSummary) : GlueMode → Context
  | .replace => c.addCounts callee.calls callee.instructions
  | .merge => c.maxCounts callee.calls callee.instructions

/-- Answers a call by a summary. Provenance in a provisional one is left as it is. -/
def applySummary (a : Activation) (l : Ledger) (request : CallRequest) (summary : Summary)
    (provisional : Bool) : Activation × Ledger :=
  match summary with
  | .empty => (a, l)
  | .computed callee =>
    let l := { l with session := l.session.nextApplication.2 }
    let pairs := rootPairs callee request.effect a.context.staticRoot
    let (h, l) :=
      if provisional then
        ((glueRoots callee Rebasing.identity request.mode pairs a.context.heap ()).1, l)
      else
        let r := Provenance.rebasing callee.stack.depth (a.stack.push request.key) a.key
        let (h, p) := glueRoots callee r request.mode pairs a.context.heap ⟨l.findings, {}⟩
        (h, { l with findings := p.findings })
    let a := a.setHeap h
    ({ a with context := addCounts a.context callee request.mode }, l)

end Activation

end SinkTrace
