import SinkTrace.Engine.Basic

/-!
Analysing several entry points, each with an engine of its own, so that none depends on another. But
a number that becomes larger than a word stops the program, and then there is no report at all.
-/

namespace SinkTrace

/-- What became of one entry point. -/
structure ScanOutcome where
  entry : Signature
  result : Except Failure Findings
  statistics : Statistics

namespace ScanOutcome

def findings? (o : ScanOutcome) : Option Findings := o.result.toOption

def failure? (o : ScanOutcome) : Option Failure :=
  match o.result with
  | .error failure => some failure
  | .ok _ => none

def isSuccess (o : ScanOutcome) : Bool := o.findings?.isSome

def patternCount (o : ScanOutcome) : Nat := (o.findings?.map Findings.patternCount).getD 0

/-- The program stopped at this entry point. -/
def overflowed (o : ScanOutcome) : Bool := o.failure? == some .overflow

end ScanOutcome

structure ScanReport where
  /-- In the order of the entry points; those left out after a cancellation are absent. -/
  outcomes : List ScanOutcome := []
  cancelled : Bool := false

namespace ScanReport

def succeeded (r : ScanReport) : Nat := r.outcomes.countP ScanOutcome.isSuccess

def failed (r : ScanReport) : Nat := r.outcomes.length - r.succeeded

def totalPatterns (r : ScanReport) : Nat := r.outcomes.foldr (·.patternCount + ·) 0

def statistics (r : ScanReport) : Statistics :=
  (r.outcomes.map ScanOutcome.statistics).foldl Statistics.add {}

end ScanReport

/-- Analyses one entry point with a fresh engine. -/
def scanEntry (compile : PatternCompiler) (p : Program) (c : Config) (entry : EntryPoint) :
    ScanOutcome :=
  match Engine.ofConfig compile p c with
  | .error cause => ⟨entry.method, .error (.config cause), {}⟩
  | .ok engine =>
    let (result, engine) := engine.execute entry
    ⟨entry.method, result, engine.ledger.statistics⟩

/-- Analyses all entry points, or none of them if the scan was cancelled beforehand. -/
def scan (compile : PatternCompiler) (p : Program) (c : Config) (entries : List EntryPoint)
    (cancelled : Bool) : Except Failure ScanReport := do
  (c.validate compile).mapError .config
  if cancelled then return { cancelled := !entries.isEmpty }
  else
    let outcomes := entries.map (scanEntry compile p c)
    if outcomes.any ScanOutcome.overflowed then throw .overflow
    return { outcomes }

end SinkTrace
