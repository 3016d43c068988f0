import SinkTrace.Heap.Reach
import SinkTrace.Summary.Basic

/-!
The shape of a summary as a sequence of marks. Entities are numbered breadth first from the roots,
so the marks do not depend on ids or on how the heap was built. Two summaries with the same marks
answer calls in the same way; recursion is settled when the marks stop changing.
-/

namespace SinkTrace

inductive Mark where
  | number (n : Nat)
  | flag (b : Bool)
  | text (s : String)
deriving Repr, DecidableEq, Inhabited

abbrev Fingerprint := List Mark

namespace Fingerprint

/-- A number that may be absent. -/
def optional : Option Nat → Fingerprint
  | none => [.number 0]
  | some n => [.number 1, .number n]

/-- Positions in a list without repetition. -/
def numbering (order : List EntityId) : IdMap Nat :=
  order.zipIdx.foldl (fun m (id, i) => m.insert id i) ∅

def ofRoot (h : Heap) (numbers : IdMap Nat) : Option EntityId → Fingerprint
  | none => [.number 0]
  | some root => .number 1 :: optional (numbers.get? (h.find root))

def ofField (h : Heap) (numbers : IdMap Nat) (edge : FieldName × EntityId) : Fingerprint :=
  .text edge.1 :: optional (numbers.get? (h.find edge.2))

/-- Signatures of the recorded calls, in order. -/
def targetNames (e : Entity) : List Signature :=
  (e.targetCalls.map TargetCall.signature).mergeSort (fun a b => decide (a ≤ b))

def ofEntity (canonical : TaintId → TaintId) (h : Heap) (numbers : IdMap Nat) (id : EntityId) :
    Fingerprint :=
  let e := h.entity id
  let targets := targetNames e
  [.number (canonical e.taint), .flag e.deep]
    ++ e.sortedFields.flatMap (ofField h numbers)
    ++ .number targets.length :: targets.map Mark.text
    ++ [.number e.deferredInput.size, .number e.deferredTaint.length]

end Fingerprint

/-- The marks of a summary; `canonical` gives the current id of a taint. -/
def Summary.fingerprint (canonical : TaintId → TaintId) : Summary → Fingerprint
  | .empty => [.number 0]
  | .computed s =>
    let order := s.heap.reachableFrom (s.roots.filterMap id)
    let numbers := Fingerprint.numbering order
    .number 1 :: s.roots.flatMap (Fingerprint.ofRoot s.heap numbers)
      ++ order.flatMap (Fingerprint.ofEntity canonical s.heap numbers)

end SinkTrace
