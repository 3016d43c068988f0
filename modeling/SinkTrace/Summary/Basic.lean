import SinkTrace.Context

/-!
Summaries: what remains of an analysed method or virtual call. Stacks recorded in a summary's heap
start with the stack of the activation that produced it.
-/

namespace SinkTrace

structure MethodSummary extends Frozen where
  /-- Stack of the activation, its own key on top. -/
  stack : CallStack
deriving Inhabited

/-- Entities a call site is matched with: static root, formals, return value. -/
def MethodSummary.roots (s : MethodSummary) : List (Option EntityId) :=
  s.staticRoot :: s.arguments ++ [s.result]

inductive Summary where
  /-- No effect: the answer to a recursive call before anything is known about the callee. -/
  | empty
  | computed (summary : MethodSummary)
deriving Inhabited

namespace Summary

def isEmpty : Summary → Bool
  | empty => true
  | computed _ => false

def computed? : Summary → Option MethodSummary
  | empty => none
  | computed s => some s

def ofFrozen (f : Frozen) (stack : CallStack) : Summary := .computed { f with stack }

end Summary

end SinkTrace
