import SinkTrace.Engine.Dispatch

/-!
The stack of activations and its steps. A step takes the topmost activation to its next call or to
its end. A call is answered from the cache, by the provisional answer of an activation that is
still on the stack, or by a new activation on top. An activation that ends is summarised; if it
heads a recursion loop that has not settled, it starts over.
-/

namespace SinkTrace

/-- Activations from the topmost one down; the level of an activation is the number of those
below it. -/
structure Machine where
  activations : List Activation
  ledger : Ledger
deriving Inhabited

/-- The outcome of one step. -/
inductive Turn where
  | running (machine : Machine)
  | finished (ledger : Ledger)
  | failed (failure : Failure) (ledger : Ledger)
deriving Inhabited

namespace Machine

/-- The level of the activation with this key. -/
def levelOf? (key : SummaryKey) : List Activation → Option Nat
  | [] => none
  | a :: below => if a.key = key then some below.length else levelOf? key below

def atLevel? (level : Nat) : List Activation → Option Activation
  | [] => none
  | a :: below => if below.length = level then some a else atLevel? level below

def modifyLevel (level : Nat) (f : Activation → Activation) : List Activation → List Activation
  | [] => []
  | a :: below => if below.length = level then f a :: below else a :: modifyLevel level f below

/-- Makes all activations above a level depend on it. -/
def dependOn (level : Nat) : List Activation → List Activation
  | [] => []
  | a :: below =>
    if level < below.length then a.dependOn level :: dependOn level below else a :: below

/-- Keys of the activations above a level, from the lowest on. -/
def keysAbove (level : Nat) (activations : List Activation) : List SummaryKey :=
  (activations.take (activations.length - (level + 1))).reverse.map Activation.key

/-- Opens or extends the loop at a level; its provisional answer. -/
def openLoop (level : Nat) (m : Machine) : Summary × Machine :=
  match atLevel? level m.activations with
  | none => (.empty, m)
  | some head =>
    let participants := keysAbove level m.activations
    let activations := dependOn level m.activations
    (head.provisional,
      ⟨modifyLevel level (·.extendLoop participants) activations,
        if head.recursion.isSome then m.ledger
        else m.ledger.count fun s => { s with recursionLoops := s.recursionLoops + 1 }⟩)

/-- Changes the topmost activation. -/
def onTop (m : Machine) (f : Activation → Ledger → Activation × Ledger) : Machine :=
  match m.activations with
  | [] => m
  | a :: below =>
    let (a, ledger) := f a m.ledger
    ⟨a :: below, ledger⟩

def countWalk (a : Activation) (l : Ledger) : Ledger :=
  if a.isWalk then l.count fun s => { s with analyzedMethods := s.analyzedMethods + 1 } else l

/-- The method that a request is about. -/
def requested (r : CallRequest) : MethodRef :=
  match r.target with
  | .method d => d.reference
  | .implementations _ => r.effect.method

/-- Puts the callee of a request on top. -/
def push (s : Setup) (r : CallRequest) (caller : Activation) (below : List Activation)
    (l : Ledger) : Turn :=
  match Activation.start r.key (requested r) (caller.stack.push r.key) r.target
    s.config.enableStaticFields with
  | .error failure => .failed failure l
  | .ok callee =>
    .running ⟨callee :: { caller with waiting := some r } :: below, countWalk callee l⟩

/-- Answers the request of an activation by a summary. -/
def answer (a : Activation) (l : Ledger) (r : CallRequest) (summary : Summary)
    (provisional : Bool) : Activation × Ledger :=
  let (a, l) := a.applySummary l r summary provisional
  a.settle l

/-- Answers a request of the topmost activation. -/
def enter (s : Setup) (r : CallRequest) (caller : Activation) (below : List Activation)
    (l : Ledger) : Turn :=
  match l.cache.get r.key with
  | (some summary, cache) =>
    let l := { l with cache }.count fun s => { s with cacheHits := s.cacheHits + 1 }
    let (caller, l) := answer caller l r summary false
    .running ⟨caller :: below, l⟩
  | (none, cache) =>
    let l := { l with cache }
    match levelOf? r.key (caller :: below) with
    | some level =>
      let (provisional, m) := openLoop level ⟨caller :: below, l⟩
      .running (m.onTop fun a l => answer a l r provisional true)
    | none => push s r caller below l

/-- Summaries that rest on an open loop wait at its head, and the caller rests on it as well;
other ones are final. -/
def file (entries : List (SummaryKey × Summary)) (dependency : Option Nat) (m : Machine) :
    Machine :=
  match dependency.filter (· < m.activations.length) with
  | none =>
    { m with ledger := { m.ledger with
        cache := entries.foldl (fun c (key, summary) => c.put key summary) m.ledger.cache } }
  | some level =>
    let deferred := modifyLevel level
      (fun a => { a with recursion := a.recursion.map (·.deferAll entries) }) m.activations
    if level + 1 < deferred.length then
      { m with activations := deferred }.onTop fun a l => (a.dependOn level, l)
    else { m with activations := deferred }

/-- Hands a summary to the call that waits for it. -/
def resume (summary : Summary) (m : Machine) : Machine :=
  m.onTop fun a l =>
    match a.waiting with
    | none => (a, l)
    | some r => answer { a with waiting := none } l r summary false

/-- Starts an unsettled head over, with its summary as the new provisional answer. -/
def restart (s : Setup) (a : Activation) (loop : RecursionLoop Fingerprint)
    (below : List Activation) (l : Ledger) : Turn :=
  match Activation.start a.key a.method a.stack a.target s.config.enableStaticFields with
  | .error failure => .failed failure l
  | .ok again =>
    .running ⟨{ again with recursion := some loop, dependency := a.dependency } :: below,
      countWalk again l⟩

/-- Summarises an activation that has come to its end. -/
def complete (s : Setup) (a : Activation) (below : List Activation) (l : Ledger) : Turn :=
  let summary := Summary.ofFrozen a.context.freeze a.stack
  match a.recursion with
  | none =>
    .running (resume summary (file [(a.key, summary)] a.dependency ⟨below, l⟩))
  | some loop =>
    let fingerprint := summary.fingerprint l.findings.resolve
    if !loop.isStable fingerprint && loop.iteration < s.config.maxRecursionIterations.toNat then
      restart s a (loop.advance summary fingerprint) below l
    else
      .running (resume summary
        (file (loop.takePending.1 ++ [(a.key, summary)]) a.dependency ⟨below, l⟩))

/-- Goes on with a request; a call that was answered without one leaves an activation to settle. -/
def proceed (s : Setup) (below : List Activation) : Option CallRequest × Activation × Ledger → Turn
  | (none, a, l) =>
    let (a, l) := a.settle l
    .running ⟨a :: below, l⟩
  | (some r, a, l) => enter s r a below l

/-- Settles an activation that has come to its end, and summarises it. -/
def finish (s : Setup) (a : Activation) (below : List Activation) (l : Ledger) : Turn :=
  let (a, l) := a.settle l
  complete s a below l

/-- Instructions that were counted since `before`. -/
def countInstructions (before : UInt32) (c : Context) (l : Ledger) : Ledger :=
  l.count fun s => { s with instructions := s.instructions + (c.instructions.toNat - before.toNat) }

def step (s : Setup) (m : Machine) : Turn :=
  match m.activations with
  | [] => .finished m.ledger
  | a :: below =>
    match a.work with
    | .dispatch [] _ => finish s a below m.ledger
    | .dispatch (method :: rest) mode =>
      let (e, a) := a.implementationCall method
      proceed s below
        (Activation.dispatchConcrete s { a with work := .dispatch rest .merge } m.ledger e mode)
    | .walk interpreter =>
      let (pause, interpreter, context) := interpreter.step a.context
      let l := countInstructions a.context.instructions context m.ledger
      let a := { a with work := .walk interpreter, context }
      match pause with
      | .failed failure => .failed failure m.ledger
      | .finished => finish s a below l
      | .call e =>
        let (a, l) := a.settle l
        proceed s below (Activation.dispatch s a l e)

/-- Steps until the run ends or the fuel does. -/
def run (m : Machine) (s : Setup) (fuel : Nat) : Except Failure Unit × Ledger :=
  match fuel with
  | 0 => (.ok (), m.ledger)
  | fuel + 1 =>
    match step s m with
    | .running m => m.run s fuel
    | .finished l => (.ok (), l)
    | .failed failure l => (.error failure, l)

/-- Steps to the end of the run. If it gave out more ids than there are, it has stopped for that. -/
def runToEnd (m : Machine) (s : Setup) (fuel : Nat) : Except Failure Unit × Ledger :=
  let (result, ledger) := m.run s fuel
  (if ledger.findings.isSpent then .error .overflow else result, ledger)

/-- The largest of the numbers. -/
def maximum (ns : List Nat) : Nat := ns.foldl max 0

/-- Bound on the calls that one activation makes: an instruction is walked at most once for every
backward edge and once more, and a virtual call leads to each implementation once. -/
def callBound (p : Program) : Nat :=
  let size := maximum (p.methods.values.map fun d => (d.body.map Body.size).getD 0)
  let width := maximum (p.implementations.values.map List.length) + 1
  max ((size * size + 1) * (size + 1)) width

/-- Bound on the steps of a run. The keys on the stack are distinct, and every activation starts
over at most as often as the settings allow. -/
def stepBound (s : Setup) : Nat :=
  Nat.pow (2 * (s.config.maxRecursionIterations.toNat + 1) * (callBound s.program + 1))
    (2 * s.program.methods.size + 1)

end Machine

end SinkTrace
