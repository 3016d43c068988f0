import SinkTrace.Frontier
import SinkTrace.Heap.Basic

/-!
Marking an entity as input together with everything below it. Every step either marks an entity
that was not deep yet, whose children become candidates, or drops a candidate, so the marking ends.
-/

namespace SinkTrace

def Node.isShallow : Node → Bool
  | .live e => !e.deep
  | .forwarded _ => false

/-- How many steps to mark the node still adds: itself and its children. -/
def Node.shallow : Node → Nat
  | .live e => if e.deep then 0 else e.fields.values.length + 1
  | .forwarded _ => 0

namespace Heap

/-- Steps that marking all live entities still adds. -/
def shallow (h : Heap) : Nat := h.nodes.toList.foldr (·.shallow + ·) 0

def isShallow (h : Heap) (id : EntityId) : Bool := h.nodes[h.find id]?.any Node.isShallow

def markOne (h : Heap) (id : EntityId) : Heap := (h.update id Entity.markDeep).note (h.find id)

theorem shallow_markOne (h : Heap) (id : EntityId) (hs : h.isShallow id = true) :
    (h.markOne id).shallow + ((h.entity id).fields.values.length + 1) = h.shallow := by
  unfold isShallow at hs
  cases hn : h.nodes[h.find id]? with
  | none => simp [hn] at hs
  | some node =>
    cases node with
    | forwarded next => simp [hn, Node.isShallow] at hs
    | live e =>
      have hdeep : e.deep = false := by simpa [hn, Node.isShallow] using hs
      have hsum := foldr_modify Node.shallow (modifyLive Entity.markDeep)
        (l := h.nodes.toList) (by rwa [Array.getElem?_toList])
      have hentity : h.entity id = e := by simp [entity, hn]
      rw [hentity]
      simpa [shallow, markOne, note, update, Node.shallow, modifyLive, Entity.markDeep, hdeep]
        using hsum

/-- Marks the candidates and all that is below them. -/
def markAll (h : Heap) (work : List EntityId) : Heap :=
  match work with
  | [] => h
  | id :: rest =>
    if _ : h.isShallow id = true then
      (h.markOne id).markAll ((h.entity id).fields.values ++ rest)
    else h.markAll rest
termination_by h.shallow + work.length
decreasing_by
  · have hmark := shallow_markOne h id ‹_›
    simp only [List.length_append, List.length_cons]
    omega
  · exact Nat.lt_succ_self _

/-- Makes `id` and all of its descendants input. -/
def markInput (h : Heap) (id : EntityId) : Heap := h.markAll [id]

end Heap

end SinkTrace
