/-!
Counters of a run.
-/

namespace SinkTrace

structure Statistics where
  /-- Bodies that were walked, repeated walks included. -/
  analyzedMethods : Nat := 0
  cacheHits : Nat := 0
  recursionLoops : Nat := 0
  /-- Virtual calls without an implementation or with too many. -/
  unresolvedVirtualCalls : Nat := 0
  /-- Calls whose results are input if an argument is. -/
  conservativeCalls : Nat := 0
  sinkInterceptions : Nat := 0
  instructions : Nat := 0
deriving Repr, DecidableEq, Inhabited

namespace Statistics

/-- The counters of two runs together. -/
def add (a b : Statistics) : Statistics where
  analyzedMethods := a.analyzedMethods + b.analyzedMethods
  cacheHits := a.cacheHits + b.cacheHits
  recursionLoops := a.recursionLoops + b.recursionLoops
  unresolvedVirtualCalls := a.unresolvedVirtualCalls + b.unresolvedVirtualCalls
  conservativeCalls := a.conservativeCalls + b.conservativeCalls
  sinkInterceptions := a.sinkInterceptions + b.sinkInterceptions
  instructions := a.instructions + b.instructions

end Statistics

end SinkTrace
