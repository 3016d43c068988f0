import SinkTrace.Findings.Basic
import SinkTrace.Heap.Glue

/-!
Moving the provenance in a summary to another call site. Stacks recorded in the summary start with
the stack of the activation that produced it; that part is replaced. A source whose path changes
by this gets a new id.
-/

namespace SinkTrace

/-- Findings, and the ids that taints of the summary have at the call site. -/
structure Provenance where
  findings : Findings
  remapped : Table TaintId TaintId := {}
deriving Inhabited

namespace Provenance

/-- The current id of a taint once the `depth` root-most frames of its path are `base`. -/
def relocate (f : Findings) (depth : Nat) (base : CallStack) (taint : TaintId) :
    TaintId × Findings :=
  let current := f.resolve taint
  match f.source? current with
  | none => (current, f)
  | some s =>
    let moved := s.forward.rebase depth base
    if moved.sameFrames s.forward then (current, f) else f.reidentify current moved

/-- Each taint is moved once, and the source learns that its value came into `caller`. -/
def rebaseTaint (depth : Nat) (base : CallStack) (caller : SummaryKey) (p : Provenance)
    (taint : TaintId) : TaintId × Provenance :=
  match p.remapped.get? taint with
  | some moved => (moved, p)
  | none =>
    let (moved, f) := relocate p.findings depth base taint
    (moved, ⟨f.observe moved caller, p.remapped.insert taint moved⟩)

def rebasing (depth : Nat) (base : CallStack) (caller : SummaryKey) : Rebasing Provenance where
  taint := rebaseTaint depth base caller
  stack p s := (s.rebase depth base, p)

end Provenance

end SinkTrace
