import SinkTrace.Heap.Entity

/-!
The heap: an arena of entities in which merged ids stay valid. A merged id forwards to a smaller
one, so following the forwards ends at a live entity. Changes that may make deferred edges or
recorded calls due are logged as transitions.
-/

namespace SinkTrace

inductive Node where
  | live (entity : Entity)
  /-- Merged into another entity. -/
  | forwarded (next : EntityId)
deriving Repr, Inhabited

def Node.isLive : Node → Bool
  | .live _ => true
  | .forwarded _ => false

/-- Number of edges that wait for the entity to become input. -/
def Node.deferred : Node → Nat
  | .live e => e.deferred
  | .forwarded _ => 0

structure Heap where
  nodes : Array Node := #[]
  liveCount : Nat := 0
  transitions : Array EntityId := #[]
deriving Repr, Inhabited

namespace Heap

/-- Ids handed out so far, merged ones included. -/
def size (h : Heap) : Nat := h.nodes.size

/-- The live entity that `id` stands for. -/
def find (h : Heap) (id : EntityId) : EntityId :=
  match h.nodes[id]? with
  | some (.forwarded next) => if next < id then h.find next else id
  | _ => id
termination_by id

/-- Turns `id` into a forward to `next`. -/
def forward (h : Heap) (id next : EntityId) : Heap :=
  { h with nodes := h.nodes.setIfInBounds id (.forwarded next) }

/-- Forwards every id on the way from `id` to `root` there directly. -/
def compress (h : Heap) (id root : EntityId) : Heap :=
  match h.nodes[id]? with
  | some (.forwarded next) => if next < id then (h.forward id root).compress next root else h
  | _ => h
termination_by id

/-- As `find`; later look-ups of the ids on the way take one step. -/
def resolve (h : Heap) (id : EntityId) : EntityId × Heap := (h.find id, h.compress id (h.find id))

def entity (h : Heap) (id : EntityId) : Entity :=
  match h.nodes[h.find id]? with
  | some (.live e) => e
  | _ => {}

def modifyLive (f : Entity → Entity) : Node → Node
  | .live e => .live (f e)
  | .forwarded next => .forwarded next

/-- Changes the live entity that `id` stands for. -/
def update (h : Heap) (id : EntityId) (f : Entity → Entity) : Heap :=
  { h with nodes := h.nodes.modify (h.find id) (modifyLive f) }

/-- Logs that `id` may have something due. -/
def note (h : Heap) (id : EntityId) : Heap := { h with transitions := h.transitions.push id }

def taint (h : Heap) (id : EntityId) : TaintId := (h.entity id).taint

def create (h : Heap) (origin : Option Origin) : EntityId × Heap :=
  (h.size, { h with nodes := h.nodes.push (.live { origin }), liveCount := h.liveCount + 1 })

def setOrigin (h : Heap) (id : EntityId) (origin : Origin) : Heap :=
  h.update id fun e => { e with origin := some origin }

/-- Ids of the live entities, ascending. -/
def liveIds (h : Heap) : List EntityId :=
  (List.range h.size).filter fun i => h.nodes[i]?.any Node.isLive

def link (h : Heap) (owner : EntityId) (key : FieldName) (child : EntityId) : Heap :=
  (h.update owner (·.setField key child)).update child (·.addParent owner key)

def field? (h : Heap) (owner : EntityId) (key : FieldName) : Option EntityId :=
  ((h.entity owner).fields.get? key).map h.find

/-- The child under `key`, made on first access. Children of a deep input are deep input. -/
def loadField (h : Heap) (owner : EntityId) (key : FieldName) : EntityId × Heap :=
  let owner := h.find owner
  match (h.entity owner).fields.get? key with
  | some child => (h.find child, h)
  | none =>
    let deep := (h.entity owner).deep
    let (child, h) := h.create (some (.unknownField key))
    let h := if deep then h.update child Entity.markDeep else h
    (child, h.link owner key child)

/-- Follows a path of fields, making what is missing. -/
def loadPath (h : Heap) (owner : EntityId) (path : List FieldName) : EntityId × Heap :=
  path.foldl (fun (current, h) key => h.loadField current key) (owner, h)

/-- Raises a taint and never lowers one; says whether it rose. A stack that is given replaces the
recorded one. -/
def raiseTaint (h : Heap) (id : EntityId) (taint : TaintId) (stack : Option CallStack) :
    Bool × Heap :=
  let id := h.find id
  if taint ≤ h.taint id then (false, h)
  else
    (true, (h.update id fun e =>
      { e with taint, taintStack := stack.or e.taintStack }).note id)

/-- Edges of the whole heap that wait for their owner to become input. -/
def deferred (h : Heap) : Nat :=
  h.nodes.toList.foldr (·.deferred + ·) 0

def addTargetCall (h : Heap) (id : EntityId) (call : TargetCall) : Heap :=
  let id := h.find id
  if (h.entity id).hasCall call then h else (h.update id (·.addTargetCall call)).note id

/-- Makes `target` input as soon as `owner` is. -/
def addDeferredInput (h : Heap) (owner target : EntityId) : Heap :=
  let owner := h.find owner
  let target := h.find target
  if owner = target ∨ (h.entity owner).deferredInput.contains target then h
  else (h.update owner (·.addDeferredInput target)).note owner

def addDeferredTaint (h : Heap) (owner : EntityId) (edge : DeferredTaint) : Heap :=
  let owner := h.find owner
  (h.update owner (·.addDeferredTaint edge)).note owner

/-- Removes the input edges of an entity; their live targets, ascending. -/
def takeDeferredInput (h : Heap) (id : EntityId) : List EntityId × Heap :=
  ((IdSet.ofIds ((h.entity id).deferredInput.toList.map h.find)).toList,
    h.update id fun e => { e with deferredInput := ∅ })

def takeDeferredTaint (h : Heap) (id : EntityId) : List DeferredTaint × Heap :=
  ((h.entity id).deferredTaint, h.update id fun e => { e with deferredTaint := [] })

/-- Empties the log; the live entities in it, each once, in the order in which they came up. -/
def drainTransitions (h : Heap) : List EntityId × Heap :=
  (IdSet.distinct (h.transitions.toList.map h.find), { h with transitions := #[] })

def hasTransitions (h : Heap) : Bool := !h.transitions.isEmpty

end Heap

end SinkTrace
