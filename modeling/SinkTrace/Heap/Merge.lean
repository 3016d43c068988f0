import SinkTrace.Heap.Marking

/-!
Merging entities. The older id survives and takes over the edges and the state of the other one.
Where both have a field of one name, the children are merged too, through a list of pairs, so deep
and cyclic structures need no recursion. Every merge uses up a live entity, so the list runs dry.
-/

namespace SinkTrace

namespace Heap

/-- Points the edge `parent.key = y` at `x`. -/
def redirectParent (x y : EntityId) (h : Heap) (edge : EntityId × FieldName) : Heap :=
  if edge.1 = y then h
  else
    let parent := h.find edge.1
    (h.update parent (·.setField edge.2 x)).update x (·.addParent parent edge.2)

/-- Moves one edge `y.key = child` to `x`, unless `x` has a field of that name: then the two
children have to be merged. -/
def moveField (x y : EntityId) (state : Heap × List (EntityId × EntityId))
    (edge : FieldName × EntityId) : Heap × List (EntityId × EntityId) :=
  let (h, conflicts) := state
  let child := h.find edge.2
  let h := h.update child (·.dropParent y)
  match (h.entity x).fields.get? edge.1 with
  | some existing =>
    let existing := h.find existing
    (h, if existing = child then conflicts else (existing, child) :: conflicts)
  | none => (h.link x edge.1 child, conflicts)

/-- A heap in which one entity was absorbed, the pairs that now have to be merged, and the
entities that have to become deep input. -/
structure Absorption where
  heap : Heap
  conflicts : List (EntityId × EntityId)
  promoted : List EntityId

/-- Turns `y` into a forward to `x` and moves what `y` held. -/
def absorb (h : Heap) (x y : EntityId) : Absorption :=
  let gone := h.entity y
  let count := h.liveCount - 1
  let survivor := h.entity x
  let h := gone.parents.foldl (redirectParent x y) (h.forward y x)
  let children := if survivor.deep && !gone.deep then gone.fields.values.map h.find else []
  let (h, conflicts) := gone.fields.entries.foldl (moveField x y) (h, [])
  let h := (h.update x (·.takeOver gone)).note x
  { heap := { h with liveCount := count }, conflicts
    promoted := children ++ if gone.deep && !survivor.deep then [x] else [] }

theorem liveCount_absorb (h : Heap) (x y : EntityId) :
    (h.absorb x y).heap.liveCount = h.liveCount - 1 := rfl

/-- Merges the pairs and all that follows from them; the entities to promote are collected. -/
def mergePairs (h : Heap) (pairs : List (EntityId × EntityId)) (promoted : List EntityId) :
    Heap × List EntityId :=
  match pairs with
  | [] => (h, promoted)
  | (a, b) :: rest =>
    let x := h.find a
    let y := h.find b
    if x = y then h.mergePairs rest promoted
    else if h.liveCount = 0 then (h, promoted)
    else
      let step := h.absorb (min x y) (max x y)
      step.heap.mergePairs (step.conflicts ++ rest) (promoted ++ step.promoted)
termination_by (h.liveCount, pairs.length)
decreasing_by
  · exact Prod.Lex.right _ (Nat.lt_succ_self _)
  · apply Prod.Lex.left
    rw [liveCount_absorb]
    omega

/-- Makes `a` and `b` one entity; the surviving id. -/
def merge (h : Heap) (a b : EntityId) : EntityId × Heap :=
  let (h, promoted) := h.mergePairs [(a, b)] []
  let h := promoted.foldl markInput h
  (h.find a, h)

/-- Stores `value` under `key`; a child that is already there becomes one with it. -/
def storeField (h : Heap) (owner : EntityId) (key : FieldName) (value : EntityId) : Heap :=
  let owner := h.find owner
  let value := h.find value
  match (h.entity owner).fields.get? key with
  | some existing => (h.merge existing value).2
  | none =>
    let h := h.link owner key value
    if (h.entity owner).deep then h.markInput value else h

end Heap

end SinkTrace
