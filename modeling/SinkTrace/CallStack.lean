import SinkTrace.Metadata

/-!
Call stacks as snapshots. A frame is the key under which a summary is kept: how the call was
resolved, and the signature it was resolved for. Every stack carries its depth, so two stacks of
different depth are told apart without walking them.
-/

namespace SinkTrace

/-- A call is answered by one body, or by virtual dispatch over several. -/
inductive CallKind where
  | concrete
  | virtual
deriving Repr, DecidableEq, Inhabited

def CallKind.tag : CallKind → String
  | .concrete => "C:"
  | .virtual => "V:"

structure SummaryKey where
  kind : CallKind
  signature : Signature
deriving Repr, DecidableEq, Inhabited

namespace SummaryKey

def text (k : SummaryKey) : String := k.kind.tag ++ k.signature

/-- Reads `V:s` and `C:s`; any other text is the signature of a concrete call. -/
def ofText (s : String) : SummaryKey :=
  match s.toList with
  | 'V' :: ':' :: rest => ⟨.virtual, String.ofList rest⟩
  | 'C' :: ':' :: rest => ⟨.concrete, String.ofList rest⟩
  | _ => ⟨.concrete, s⟩

end SummaryKey

/-- Frames from the most recent call down to the root. -/
structure CallStack where
  frames : List SummaryKey := []
  depth : Nat := 0
deriving Repr, DecidableEq, Inhabited

namespace CallStack

def empty : CallStack := {}

def push (s : CallStack) (key : SummaryKey) : CallStack := ⟨key :: s.frames, s.depth + 1⟩

/-- The stack without its most recent frame; the empty stack stays empty. -/
def pop (s : CallStack) : CallStack :=
  match s.frames with
  | [] => s
  | _ :: rest => ⟨rest, s.depth - 1⟩

def top? (s : CallStack) : Option SummaryKey := s.frames.head?

def isEmpty (s : CallStack) : Bool := s.frames.isEmpty

def contains (s : CallStack) (key : SummaryKey) : Bool := s.frames.contains key

/-- Frames from the root to the most recent call. -/
def toList (s : CallStack) : List SummaryKey := s.frames.reverse

/-- The stack whose frames, from the root on, are `keys`. -/
def ofList (keys : List SummaryKey) : CallStack := keys.foldl push empty

/-- What was called after the most recent frame `key`, root-most first. -/
def framesAbove? (s : CallStack) (key : SummaryKey) : Option (List SummaryKey) :=
  if s.contains key then some (s.frames.takeWhile (· != key)).reverse else none

/-- Moves a snapshot to another call site: the `depth` root-most frames are replaced by `base`.
A snapshot shallower than that is replaced whole. -/
def rebase (s : CallStack) (depth : Nat) (base : CallStack) : CallStack :=
  if s.depth < depth then base else (s.toList.drop depth).foldl push base

def sameFrames (s t : CallStack) : Bool := s.depth == t.depth && s.frames == t.frames

theorem sameFrames_iff {s t : CallStack} : s.sameFrames t = true ↔ s = t := by
  cases s
  cases t
  simp [sameFrames, and_comm]

def text (s : CallStack) : String :=
  "[" ++ " -> ".intercalate (s.toList.map SummaryKey.text) ++ "]"

end CallStack

end SinkTrace
