import SinkTrace.Findings.Priority
import SinkTrace.Heap.Entity

/-!
What a run found: the tainted sources and the trigger calls their values reach. A source can be
given a new id; the old one keeps leading to it.
-/

namespace SinkTrace

/-- A call, in a method without a body, that a tainted value reaches. -/
abbrev Trigger := TargetCall

namespace Trigger

/-- Frames from the entry point down to the call itself. -/
def callDepth (t : Trigger) : Nat := t.stack.depth + 1

def isHighPriority (t : Trigger) : Bool := Signature.isHighPriority t.signature

end Trigger

structure Source where
  id : TaintId
  /-- The method that called the sink. -/
  method : Signature
  /-- From the entry point down to `method`. -/
  forward : CallStack
  /-- Callers that the value was returned into, innermost first. -/
  backward : List SummaryKey := []
  triggers : List Trigger := []
deriving Repr, DecidableEq, Inhabited

namespace Source

def hasTrigger (s : Source) (t : Trigger) : Bool := s.triggers.any (TargetCall.sameCall · t)

def addTrigger (s : Source) (t : Trigger) : Source := { s with triggers := s.triggers ++ [t] }

/-- Notes a caller, unless it was the last one noted. -/
def observe (s : Source) (caller : SummaryKey) : Source :=
  if s.backward.getLast? = some caller then s else { s with backward := s.backward ++ [caller] }

def hasPattern (s : Source) : Bool := !s.triggers.isEmpty

def hasHighPriorityPattern (s : Source) : Bool := s.triggers.any Trigger.isHighPriority

end Source

/-- A misuse of the findings, which is reported and otherwise passed over. -/
inductive Complaint where
  /-- A source was registered without a call stack. -/
  | missingStack (id : TaintId) (method : Signature)
  /-- There is a source with the id already. -/
  | duplicateId (id : TaintId)
  /-- An id was to be replaced that no source has. -/
  | unknownId (id : TaintId)
  /-- A trigger was noted for an id that no source has. -/
  | unknownTrigger (id : TaintId) (trigger : Signature)
deriving Repr, DecidableEq, Inhabited

structure Findings where
  /-- In ascending order of their ids. -/
  sources : List Source := []
  /-- Old and new ids, in the order in which they were replaced. -/
  redirects : List (TaintId × TaintId) := []
  /-- The id to give out next. It is a word of 32 bits, see `Findings.isSpent`. -/
  nextId : TaintId := TaintId.firstSource
  hasPattern : Bool := false
  externalCalls : Nat := 0
  complaints : List Complaint := []
deriving Repr, DecidableEq, Inhabited

namespace Findings

/-- There is no id to give out next, since words end here. The program counts on to the next id when
it gives one out, and stops if it cannot: findings that are spent are those of a program that has
stopped. -/
def isSpent (f : Findings) : Bool := decide (UInt32.size ≤ f.nextId)

/-- The current id. An id is replaced only after it was given out, so one pass over the
replacements follows a whole chain. -/
def resolve (f : Findings) (id : TaintId) : TaintId :=
  f.redirects.foldl (fun id (old, new) => if id = old then new else id) id

def source? (f : Findings) (id : TaintId) : Option Source :=
  f.sources.find? (·.id == f.resolve id)

/-- Changes the source with exactly this id. -/
def modify (f : Findings) (id : TaintId) (g : Source → Source) : Findings :=
  { f with sources := f.sources.map fun s => if s.id = id then g s else s }

def complain (f : Findings) (c : Complaint) : Findings :=
  { f with complaints := f.complaints ++ [c] }

/-- Registers a call of the sink by `method`. -/
def addSource (f : Findings) (method : Signature) (forward : CallStack) : TaintId × Findings :=
  let id := f.nextId
  let s : Source := { id, method, forward }
  let f := { f with nextId := id + 1 }
  let f := if forward.isEmpty then f.complain (.missingStack id method) else f
  (id, if f.sources.any (·.id == id) then f.complain (.duplicateId id)
    else { f with sources := f.sources ++ [s] })

/-- Gives a source a new id and a new path; what was found for it moves along. -/
def reidentify (f : Findings) (old : TaintId) (forward : CallStack) : TaintId × Findings :=
  let old := f.resolve old
  match f.sources.find? (·.id == old) with
  | none => (old, f.complain (.unknownId old))
  | some s =>
    let moved := { s with id := f.nextId, forward }
    (f.nextId, { f with sources := f.sources.filter (·.id != old) ++ [moved]
                        redirects := f.redirects ++ [(old, f.nextId)], nextId := f.nextId + 1 })

/-- Notes that a tainted value reaches a trigger call; whether that is news. -/
def addTrigger (f : Findings) (taint : TaintId) (t : Trigger) : Bool × Findings :=
  if TaintId.isTainted taint then
    let id := f.resolve taint
    match f.sources.find? (·.id == id) with
    | none => (false, f.complain (.unknownTrigger id t.signature))
    | some s =>
      if s.hasTrigger t then (false, f)
      else (true, { f.modify id (·.addTrigger t) with hasPattern := true })
  else (false, f)

def observe (f : Findings) (taint : TaintId) (caller : SummaryKey) : Findings :=
  f.modify (f.resolve taint) (·.observe caller)

def recordExternalCall (f : Findings) : Findings := { f with externalCalls := f.externalCalls + 1 }

/-- Sources that reach a trigger. -/
def patternCount (f : Findings) : Nat := f.sources.countP Source.hasPattern

def highPriorityCount (f : Findings) : Nat := f.sources.countP Source.hasHighPriorityPattern

/-- Every trigger with the id of its source. -/
def triggers (f : Findings) : List (TaintId × Trigger) :=
  f.sources.flatMap fun s => s.triggers.map fun t => (s.id, t)

end Findings

end SinkTrace
