import SinkTrace.CallStack
import SinkTrace.IdSet
import SinkTrace.Table

/-!
Heap entities and what is recorded on them. An entity stands for every object that the analysis
cannot tell apart.
-/

namespace SinkTrace

abbrev EntityId := Nat

/-- How far an attacker controls a value: 0 clean, 1 input, 2 and above one tainted source each.
A merge keeps the larger one. -/
abbrev TaintId := Nat

namespace TaintId

def clean : TaintId := 0

def input : TaintId := 1

def firstSource : TaintId := 2

def isInput (t : TaintId) : Bool := input ≤ t

def isTainted (t : TaintId) : Bool := firstSource ≤ t

def text : TaintId → String
  | 0 => "clean"
  | 1 => "input"
  | n => "taint#" ++ toString n

end TaintId

/-- Where an entity came from. -/
inductive Origin where
  | constant
  | argument (index : Nat)
  | static
  | methodReturn (signature : Signature)
  | constructed (type : String)
  | uninitialized
  | array
  /-- Made when the field was first read. -/
  | unknownField (field : FieldName)
deriving Repr, DecidableEq, Inhabited

/-- A call that matters if the entity it was recorded on turns out to be tainted. -/
structure TargetCall where
  signature : Signature
  /-- Stack of the calling method. -/
  stack : CallStack
deriving Repr, DecidableEq, Inhabited

def TargetCall.sameCall (a b : TargetCall) : Bool :=
  a.signature == b.signature && a.stack.sameFrames b.stack

theorem TargetCall.sameCall_iff {a b : TargetCall} : a.sameCall b = true ↔ a = b := by
  cases a
  cases b
  simp [sameCall, CallStack.sameFrames_iff]

structure SinkCall where
  signature : Signature
  stack : CallStack
  offset : Nat
deriving Repr, DecidableEq, Inhabited

/-- When the owner becomes input, `target` gets the taint of the sink call. -/
structure DeferredTaint where
  target : EntityId
  sink : SinkCall
deriving Repr, DecidableEq, Inhabited

structure Entity where
  origin : Option Origin := none
  fields : Table FieldName EntityId := {}
  /-- Who reaches this entity, and under which field. -/
  parents : List (EntityId × FieldName) := []
  taint : TaintId := TaintId.clean
  /-- Everything below this entity is input, now and later. -/
  deep : Bool := false
  taintStack : Option CallStack := none
  targetCalls : List TargetCall := []
  /-- Entities that become input as soon as this one does. -/
  deferredInput : IdSet := ∅
  deferredTaint : List DeferredTaint := []
deriving Repr, Inhabited

/-- Order of field names. -/
def fieldLe (a b : FieldName × EntityId) : Bool := decide (a.1 ≤ b.1)

/-- Order of back references: by parent, then by field name. -/
def parentLe (a b : EntityId × FieldName) : Bool :=
  a.1 < b.1 || (a.1 == b.1 && decide (a.2 ≤ b.2))

/-- Adds a member that is not listed yet. -/
def addNew {α : Type} [BEq α] (xs : List α) (x : α) : List α := if xs.elem x then xs else xs ++ [x]

namespace Entity

def sortedFields (e : Entity) : List (FieldName × EntityId) := e.fields.entries.mergeSort fieldLe

def sortedParents (e : Entity) : List (EntityId × FieldName) := e.parents.mergeSort parentLe

def setField (e : Entity) (key : FieldName) (child : EntityId) : Entity :=
  { e with fields := e.fields.insert key child }

def addParent (e : Entity) (parent : EntityId) (key : FieldName) : Entity :=
  { e with parents := addNew e.parents (parent, key) }

def dropParent (e : Entity) (parent : EntityId) : Entity :=
  { e with parents := e.parents.filter (·.1 != parent) }

def hasCall (e : Entity) (call : TargetCall) : Bool := e.targetCalls.any (·.sameCall call)

theorem hasCall_iff {e : Entity} {call : TargetCall} :
    e.hasCall call = true ↔ call ∈ e.targetCalls := by
  simp [hasCall, TargetCall.sameCall_iff]

def addTargetCall (e : Entity) (call : TargetCall) : Entity :=
  if e.hasCall call then e else { e with targetCalls := e.targetCalls ++ [call] }

def addDeferredInput (e : Entity) (target : EntityId) : Entity :=
  { e with deferredInput := e.deferredInput.insert target }

def addDeferredTaint (e : Entity) (edge : DeferredTaint) : Entity :=
  { e with deferredTaint := addNew e.deferredTaint edge }

/-- Input together with everything below it. -/
def markDeep (e : Entity) : Entity :=
  { e with deep := true, taint := max e.taint TaintId.input }

/-- Number of edges that wait for the entity to become input. -/
def deferred (e : Entity) : Nat := e.deferredInput.size + e.deferredTaint.length

/-- What the survivor of a merge takes over from the entity it absorbs, edges and depth of input
apart. The larger taint wins and brings its stack. -/
def takeOver (e gone : Entity) : Entity :=
  let e :=
    if e.taint < gone.taint then { e with taint := gone.taint, taintStack := gone.taintStack }
    else e
  let e := { e with origin := e.origin.or gone.origin }
  let e := gone.targetCalls.foldl addTargetCall e
  let e := gone.deferredInput.toList.foldl addDeferredInput e
  gone.deferredTaint.foldl addDeferredTaint e

end Entity

end SinkTrace
