import SinkTrace.Heap.Entity

/-!
What is remembered for the length of one run: how many summaries were applied, and the source
that each call of the sink was given.
-/

namespace SinkTrace

structure Session where
  applications : Nat := 0
  /-- Sources by the frames and the offset of the call of the sink. -/
  sources : Table (List SummaryKey × Nat) TaintId := {}
deriving Repr, DecidableEq, Inhabited

namespace Session

/-- The number of the next application, from one on. -/
def nextApplication (s : Session) : Nat × Session :=
  (s.applications + 1, { s with applications := s.applications + 1 })

def source? (s : Session) (stack : CallStack) (offset : Nat) : Option TaintId :=
  s.sources.get? (stack.toList, offset)

def remember (s : Session) (stack : CallStack) (offset : Nat) (id : TaintId) : Session :=
  { s with sources := s.sources.insert (stack.toList, offset) id }

end Session

end SinkTrace
