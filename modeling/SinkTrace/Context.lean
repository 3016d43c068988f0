import SinkTrace.Store

/-!
The state of one activation: heap and slots, bindings of arguments and locals, the root that holds
static fields, the value to return, and two counters of 32 bits.

Each formal that can hold an object graph has an entity of its own from the start; those entities,
the static root and the return value are what a caller sees of the activation.
-/

namespace SinkTrace

/-- Slots by index. Storing where something is bound already binds to "either of the two". -/
abbrev SlotTable := Table Nat SlotId

structure Context where
  store : Store := {}
  arguments : SlotTable := {}
  /-- One for each formal; absent where the type is simple. -/
  formals : List (Option EntityId) := []
  formalTypes : List TypeRef := []
  locals : SlotTable := {}
  localTypes : List TypeRef := []
  /-- The entity whose fields are the static fields; absent if those are not tracked. -/
  staticRoot : Option EntityId := none
  returnSlot : Option SlotId := none
  calls : UInt32 := 0
  instructions : UInt32 := 0
deriving Inhabited

/-- What a caller can see of a finished activation. -/
structure Frozen where
  heap : Heap
  staticRoot : Option EntityId
  arguments : List (Option EntityId)
  result : Option EntityId
  calls : UInt32
  instructions : UInt32
deriving Inhabited

/-- Adds and stops at the largest word. -/
def saturatingAdd (a b : UInt32) : UInt32 := UInt32.ofNatClamp (a.toNat + b.toNat)

def largestWord : UInt32 := 4294967295

/-- The next word; there is none behind the largest one. -/
def nextWord? (n : UInt32) : Option UInt32 := if n = largestWord then none else some (n + 1)

/-- Stores into a table: an existing binding is kept beside the new value. -/
def SlotTable.store (t : SlotTable) (s : Store) (index : Nat) (slot : SlotId) :
    SlotTable × Store :=
  match t.get? index with
  | some existing =>
    let (both, s) := s.union existing slot
    (t.insert index both, s)
  | none => (t.insert index slot, s)

namespace Context

/-- Binds the next formal. -/
def addFormal (c : Context) (t : TypeRef) : Context :=
  let index := c.formals.length
  let (formal, slot, store) :=
    if t.isSimple then
      let (slot, store) := c.store.fake
      (none, slot, store)
    else
      let (e, store) := c.store.create (.argument index)
      let (slot, store) := store.entitySlot e
      (some e, slot, store)
  { c with store, arguments := c.arguments.insert index slot, formals := c.formals ++ [formal]
           formalTypes := c.formalTypes ++ [t] }

/-- A fresh activation of a method with a body. -/
def start (m : MethodRef) (locals : List TypeRef) (statics : Bool) : Context :=
  let c : Context := { localTypes := locals }
  let c :=
    if statics then
      let (root, store) := c.store.create .static
      { c with store, staticRoot := some root }
    else c
  m.formals.foldl addFormal c

/-- A fresh activation that stands for a virtual call: the return value of every implementation is
matched with one entity. -/
def startDispatch (m : MethodRef) (statics : Bool) : Context :=
  let c := start m [] statics
  if m.returnsValue && !m.result.isSimple then
    let (e, store) := c.store.create (.methodReturn m.signature)
    let (slot, store) := store.entitySlot e
    { c with store, returnSlot := some slot }
  else c

def heap (c : Context) : Heap := c.store.heap

def setHeap (c : Context) (heap : Heap) : Context := { c with store := { c.store with heap } }

def argument? (c : Context) (index : Nat) : Option SlotId := c.arguments.get? index

/-- The binding and the new value both stay possible. -/
def storeArgument (c : Context) (index : Nat) (slot : SlotId) : Context :=
  let (arguments, store) := c.arguments.store c.store index slot
  { c with arguments, store }

/-- The new value replaces the binding. -/
def rebindArgument (c : Context) (index : Nat) (slot : SlotId) : Context :=
  { c with arguments := c.arguments.insert index slot }

def formal? (c : Context) (index : Nat) : Option EntityId := (c.formals[index]?).join

def localIsSimple (c : Context) (index : Nat) : Bool := c.localTypes[index]?.any TypeRef.isSimple

/-- The value of a local; one that was not assigned reads as its default. -/
def loadLocal (c : Context) (index : Nat) : SlotId × Context :=
  match c.locals.get? index with
  | some slot => (slot, c)
  | none =>
    let (slot, store) := if c.localIsSimple index then c.store.fake else c.store.constant
    (slot, { c with store })

def storeLocal (c : Context) (index : Nat) (slot : SlotId) : Context :=
  let (locals, store) := c.locals.store c.store index slot
  { c with locals, store }

/-- The entity behind the address of a local, made on first use. -/
def localAddress (c : Context) (index : Nat) : EntityId × Context :=
  let (slot, c) :=
    match c.locals.get? index with
    | some slot => (slot, c)
    | none =>
      let (slot, store) := c.store.constant
      (slot, { c with store, locals := c.locals.insert index slot })
  let (e, store) := c.store.materializeOrCreate slot .uninitialized
  (e, { c with store })

/-- A static field; where those are not tracked, every load is an entity of its own. -/
def loadStatic (c : Context) (key : FieldName) : EntityId × Context :=
  let (e, store) :=
    match c.staticRoot with
    | some root => c.store.loadField root key
    | none => c.store.create .static
  (e, { c with store })

def storeStatic (c : Context) (key : FieldName) (value : EntityId) : Context :=
  match c.staticRoot with
  | some root => c.setHeap (c.heap.storeField root key value)
  | none => c

/-- One more value that may be returned. -/
def recordReturn (c : Context) (slot : SlotId) : Context :=
  match c.returnSlot with
  | some existing =>
    let (both, store) := c.store.union existing slot
    { c with store, returnSlot := some both }
  | none => { c with returnSlot := some slot }

def returnEntity (c : Context) : Option EntityId × Context :=
  match c.returnSlot with
  | some slot =>
    let (e, store) := c.store.materializeSingle slot
    (e, { c with store })
  | none => (none, c)

/-- Counts one instruction. If the counter is full the program stops. -/
def countInstruction? (c : Context) : Option Context :=
  (nextWord? c.instructions).map fun instructions => { c with instructions }

theorem countInstruction?_of_ne {c : Context} (h : c.instructions ≠ largestWord) :
    c.countInstruction? = some { c with instructions := c.instructions + 1 } := by
  rw [countInstruction?, nextWord?, if_neg h]
  rfl

theorem countInstruction?_of_eq {c : Context} (h : c.instructions = largestWord) :
    c.countInstruction? = none := by
  rw [countInstruction?, nextWord?, if_pos h]
  rfl

/-- Counts one call. If the counter is full the program stops. -/
def countCall? (c : Context) : Option Context :=
  (nextWord? c.calls).map fun calls => { c with calls }

theorem countCall?_of_ne {c : Context} (h : c.calls ≠ largestWord) :
    c.countCall? = some { c with calls := c.calls + 1 } := by
  rw [countCall?, nextWord?, if_neg h]
  rfl

theorem countCall?_of_eq {c : Context} (h : c.calls = largestWord) : c.countCall? = none := by
  rw [countCall?, nextWord?, if_pos h]
  rfl

/-- Adds the counters of a callee. -/
def addCounts (c : Context) (calls instructions : UInt32) : Context :=
  { c with calls := saturatingAdd c.calls calls
           instructions := saturatingAdd c.instructions instructions }

/-- Keeps the larger counters. -/
def maxCounts (c : Context) (calls instructions : UInt32) : Context :=
  { c with calls := max c.calls calls, instructions := max c.instructions instructions }

def freeze (c : Context) : Frozen :=
  let (result, c) := c.returnEntity
  { heap := c.heap, staticRoot := c.staticRoot.map c.heap.find
    arguments := c.formals.map (·.map c.heap.find), result := result.map c.heap.find
    calls := c.calls, instructions := c.instructions }

end Context

end SinkTrace
