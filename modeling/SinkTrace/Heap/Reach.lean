import SinkTrace.Frontier
import SinkTrace.Heap.Basic

/-!
What can be reached through fields, and whether the two directions of the edges agree.
-/

namespace SinkTrace

namespace Heap

/-- A breadth first search: what was found, in order, and the same as a set. -/
structure Search where
  order : Array EntityId := #[]
  seen : IdSet := ∅

/-- Entities that are still to be found or looked at. -/
def Search.pending (h : Heap) (visited : Nat) (s : Search) : Nat :=
  unseen (List.range h.size) s.seen.contains + (s.order.size - visited)

/-- Adds an entity that was not found before. -/
def Search.discover (h : Heap) (s : Search) (id : EntityId) : Search :=
  if id < h.size ∧ !s.seen.contains id then ⟨s.order.push id, s.seen.insert id⟩ else s

theorem Search.pending_discover_le (h : Heap) (visited : Nat) (s : Search) (id : EntityId) :
    (s.discover h id).pending h visited ≤ s.pending h visited := by
  unfold discover
  split
  · rename_i hn
    have hlt : unseen (List.range h.size) (s.seen.insert id).contains
        < unseen (List.range h.size) s.seen.contains :=
      unseen_lt (fun _ hx => IdSet.contains_insert_of_contains hx) (List.mem_range.mpr hn.1)
        (by simpa using hn.2) (IdSet.contains_insert_self _ _)
    simp only [pending, Array.size_push]
    omega
  · exact Nat.le_refl _

theorem Search.pending_discoverAll_le (h : Heap) (visited : Nat) (ids : List EntityId)
    (s : Search) : (ids.foldl (discover h) s).pending h visited ≤ s.pending h visited := by
  induction ids generalizing s with
  | nil => exact Nat.le_refl _
  | cons id ids ih => exact Nat.le_trans (ih _) (pending_discover_le h visited s id)

/-- The entities that the fields of `id` lead to, in the order of the names. -/
def children (h : Heap) (id : EntityId) : List EntityId :=
  (h.entity id).sortedFields.map fun (_, child) => h.find child

/-- Looks at what was found, from position `visited` on. -/
def visit (h : Heap) (visited : Nat) (s : Search) : List EntityId :=
  if hv : visited < s.order.size then
    h.visit (visited + 1) ((h.children s.order[visited]).foldl (Search.discover h) s)
  else s.order.toList
termination_by s.pending h visited
decreasing_by
  refine Nat.lt_of_le_of_lt (Search.pending_discoverAll_le h _ _ s) ?_
  simp only [Search.pending]
  omega

/-- Entities below `roots`, breadth first, fields in the order of their names. -/
def reachableFrom (h : Heap) (roots : List EntityId) : List EntityId :=
  h.visit 0 ((roots.map h.find).foldl (Search.discover h) {})

/-- A field edge of `id` leads to a live entity that knows it. -/
def fieldAgrees (h : Heap) (id : EntityId) (edge : FieldName × EntityId) : Bool :=
  h.find edge.2 == edge.2 && (h.entity edge.2).parents.elem (id, edge.1)

/-- A back reference of `id` names a live entity that has the edge. -/
def parentAgrees (h : Heap) (id : EntityId) (edge : EntityId × FieldName) : Bool :=
  h.find edge.1 == edge.1 && (h.entity edge.1).fields.get? edge.2 == some id

/-- Edges lead to live entities only, and each is known at both ends. -/
def isConsistent (h : Heap) : Bool :=
  h.liveIds.all fun id =>
    (h.entity id).fields.entries.all (h.fieldAgrees id)
      && (h.entity id).parents.all (h.parentAgrees id)

end Heap

end SinkTrace
