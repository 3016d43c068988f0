import SinkTrace.Summary.Basic

/-!
A recursion loop: its head is analysed again, with its last summary as the answer to the recursive
calls, until the fingerprint of the summary stops changing. Summaries that rest on such an answer
wait until the head is final.
-/

namespace SinkTrace

structure RecursionLoop (φ : Type) where
  head : SummaryKey
  participants : List SummaryKey := []
  iteration : Nat := 1
  provisional : Option Summary := none
  fingerprint : Option φ := none
  /-- Summaries of participants from the current iteration. -/
  pending : List (SummaryKey × Summary) := []
deriving Inhabited

namespace RecursionLoop

variable {φ : Type}

def addParticipants (l : RecursionLoop φ) (keys : List SummaryKey) : RecursionLoop φ :=
  { l with participants := keys.foldl addNew l.participants }

/-- The last iteration ended with the same fingerprint. -/
def isStable [BEq φ] (l : RecursionLoop φ) (f : φ) : Bool := l.fingerprint == some f

/-- Starts the next iteration with `summary` as the answer to recursive calls. -/
def advance (l : RecursionLoop φ) (summary : Summary) (f : φ) : RecursionLoop φ :=
  { l with iteration := l.iteration + 1, provisional := some summary, fingerprint := some f
           pending := [] }

def defer (l : RecursionLoop φ) (key : SummaryKey) (summary : Summary) : RecursionLoop φ :=
  { l with pending := l.pending ++ [(key, summary)] }

def deferAll (l : RecursionLoop φ) (entries : List (SummaryKey × Summary)) : RecursionLoop φ :=
  entries.foldl (fun l (key, summary) => l.defer key summary) l

def takePending (l : RecursionLoop φ) : List (SummaryKey × Summary) × RecursionLoop φ :=
  (l.pending, { l with pending := [] })

end RecursionLoop

end SinkTrace
