import SinkTrace.Json.Findings
import SinkTrace.Scan

/-!
Counters and reports in JSON.
-/

namespace SinkTrace

def Statistics.toJson (s : Statistics) : Json :=
  .obj [("analyzed_methods", .nat s.analyzedMethods), ("cache_hits", .nat s.cacheHits),
    ("recursion_loops", .nat s.recursionLoops),
    ("unresolved_virtual_calls", .nat s.unresolvedVirtualCalls),
    ("conservative_calls", .nat s.conservativeCalls),
    ("sink_interceptions", .nat s.sinkInterceptions), ("instructions", .nat s.instructions)]

def ScanOutcome.toJson (o : ScanOutcome) : Json :=
  .obj [("entry", .str o.entry), ("result", .ofOption Findings.toJson o.findings?),
    ("error", .ofOption (.str ·.message) o.failure?), ("statistics", o.statistics.toJson)]

/-- The members of the object. -/
def ScanReport.members (r : ScanReport) : List (String × Json) :=
  [("outcomes", .list ScanOutcome.toJson r.outcomes), ("cancelled", .bool r.cancelled)]

end SinkTrace
