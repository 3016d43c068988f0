import SinkTrace.Heap.Merge

/-!
Slots: what operand stacks, arguments and locals hold. A field load stays pending until something
needs the entity behind it. A slot with entities and one with pending loads are never mixed: where
they meet, the pending side is loaded first.
-/

namespace SinkTrace

abbrev SlotId := Nat

/-- The fields `path` one after another, from whatever `base` holds. -/
structure PendingLoad where
  base : SlotId
  path : List FieldName
deriving Repr, DecidableEq, Inhabited

inductive Slot where
  /-- A value without an object graph: a number, the result of arithmetic. -/
  | fake
  | constant
  /-- One of these entities. -/
  | values (entities : List EntityId)
  /-- One of these loads. -/
  | pending (loads : List PendingLoad)
deriving Repr, DecidableEq, Inhabited

namespace Slot

/-- Holds nothing symbolic. -/
def isOpaque : Slot → Bool
  | fake | constant => true
  | _ => false

def isMaterialized : Slot → Bool
  | values _ => true
  | _ => false

end Slot

/-- A heap together with the slots that refer to it. -/
structure Store where
  heap : Heap := {}
  slots : Array Slot := #[]
deriving Repr, Inhabited

namespace Store

def slot (s : Store) (id : SlotId) : Slot := s.slots[id]?.getD .fake

def alloc (s : Store) (slot : Slot) : SlotId × Store :=
  (s.slots.size, { s with slots := s.slots.push slot })

def setSlot (s : Store) (id : SlotId) (slot : Slot) : Store :=
  { s with slots := s.slots.setIfInBounds id slot }

def fake (s : Store) : SlotId × Store := s.alloc .fake

def constant (s : Store) : SlotId × Store := s.alloc .constant

def entitySlot (s : Store) (e : EntityId) : SlotId × Store := s.alloc (.values [e])

/-- A new entity. -/
def create (s : Store) (origin : Origin) : EntityId × Store :=
  let (e, heap) := s.heap.create (some origin)
  (e, { s with heap })

def loadField (s : Store) (owner : EntityId) (key : FieldName) : EntityId × Store :=
  let (e, heap) := s.heap.loadField owner key
  (e, { s with heap })

/-- A pending load of `key` from whatever `base` holds. -/
def load (s : Store) (base : SlotId) (key : FieldName) : SlotId × Store :=
  s.alloc <| match s.slot base with
    | .fake | .constant => .fake
    | .values _ => .pending [⟨base, [key]⟩]
    | .pending loads => .pending (loads.map fun l => { l with path := l.path ++ [key] })

/-- Live entities, each once. -/
def distinct (h : Heap) (es : List EntityId) : List EntityId := IdSet.distinct (es.map h.find)

/-- The entities a load starts from: its base always holds entities. -/
def baseValues (s : Store) (base : SlotId) : List EntityId :=
  match s.slot base with
  | .values es => distinct s.heap es
  | _ => []

/-- The entity at the end of a path from one entity. -/
def followPath (path : List FieldName) (state : List EntityId × Heap) (base : EntityId) :
    List EntityId × Heap :=
  let (found, h) := state
  let (e, h) := h.loadPath base path
  (found ++ [e], h)

/-- The entities at the end of one pending load. -/
def runLoad (state : List EntityId × Store) (l : PendingLoad) : List EntityId × Store :=
  let (found, s) := state
  let (more, heap) := (s.baseValues l.base).foldl (followPath l.path) ([], s.heap)
  (found ++ more, { s with heap })

/-- The entities a slot may hold. Pending loads are run and remembered. -/
def materialize (s : Store) (id : SlotId) : List EntityId × Store :=
  match s.slot id with
  | .fake | .constant => ([], s)
  | .values es => (distinct s.heap es, s)
  | .pending loads =>
    let (found, s) := loads.foldl runLoad ([], s)
    let es := distinct s.heap found
    (es, s.setSlot id (.values es))

/-- Merges the entities into the first one. -/
def mergeAll (h : Heap) (first : EntityId) (rest : List EntityId) : EntityId × Heap :=
  rest.foldl (fun (acc, h) e => h.merge acc e) (first, h)

/-- The one entity a slot holds; several are merged. -/
def materializeSingle (s : Store) (id : SlotId) : Option EntityId × Store :=
  match s.materialize id with
  | ([], s) => (none, s)
  | ([e], s) => (some e, s)
  | (first :: rest, s) =>
    let (merged, heap) := mergeAll s.heap first rest
    (some merged, { s with heap }.setSlot id (.values [merged]))

/-- As `materializeSingle`; an opaque slot gets a new entity. -/
def materializeOrCreate (s : Store) (id : SlotId) (origin : Origin) : EntityId × Store :=
  match s.materializeSingle id with
  | (some e, s) => (e, s)
  | (none, s) =>
    let (e, s) := s.create origin
    (e, s.setSlot id (.values [e]))

/-- A slot that holds what `a` or `b` may hold. -/
def union (s : Store) (a b : SlotId) : SlotId × Store :=
  if a = b then (a, s)
  else
    match s.slot a, s.slot b with
    | .fake, .fake | .fake, .constant | .constant, .fake | .constant, .constant => (a, s)
    | .fake, _ | .constant, _ => (b, s)
    | _, .fake | _, .constant => (a, s)
    | .values xs, .values ys => s.alloc (.values (distinct s.heap (xs ++ ys)))
    | .pending xs, .pending ys => s.alloc (.pending (ys.foldl addNew xs))
    | _, _ =>
      let (xs, s) := s.materialize a
      let (ys, s) := s.materialize b
      s.alloc (.values (distinct s.heap (xs ++ ys)))

/-- Position by position, the deepest first. Stacks are listed from the top. -/
def unionStacks (s : Store) : List SlotId → List SlotId → List SlotId × Store
  | a :: as, b :: bs =>
    let (rest, s) := s.unionStacks as bs
    let (c, s) := s.union a b
    (c :: rest, s)
  | _, _ => ([], s)

/-- Stores through a pointer: what it points to and the value become one entity. -/
def storeThrough (s : Store) (address value : SlotId) : Store :=
  match s.materializeSingle address with
  | (none, s) => s
  | (some target, s) =>
    match s.materializeSingle value with
    | (none, s) => s
    | (some v, s) => { s with heap := (s.heap.merge target v).2 }

/-- Stores into a field of every entity that the owner slot may hold. -/
def storeInto (s : Store) (owner : SlotId) (key : FieldName) (value : SlotId) : Store :=
  match s.materializeSingle value with
  | (none, s) => s
  | (some v, s) =>
    let (owners, s) := s.materialize owner
    { s with heap := owners.foldl (fun h o => h.storeField o key v) s.heap }

end Store

end SinkTrace
