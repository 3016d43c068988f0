import SinkTrace.Config.Document
import SinkTrace.Heap.Reach
import SinkTrace.Json.Config
import SinkTrace.Json.Findings
import SinkTrace.Json.Printer
import SinkTrace.Json.Program
import SinkTrace.Json.Scan
import SinkTrace.Scan
import SinkTrace.Proofs.Heap.View
import SinkTrace.Proofs.Heap.WellFormed
import SinkTrace.Proofs.Heap.Operations
import SinkTrace.Proofs.Heap.Absorb
import SinkTrace.Proofs.Heap.Merging
import SinkTrace.Proofs.Heap.Closure
import SinkTrace.Proofs.Heap.Coverage
import SinkTrace.Proofs.Heap.GluePicture
import SinkTrace.Proofs.Heap.Gluing
import SinkTrace.Proofs.Heap.Heeding
import SinkTrace.Proofs.Engine.Activations
import SinkTrace.Proofs.Engine.Machine
import SinkTrace.Proofs.Engine.Termination
import SinkTrace.Proofs.Engine.Runs
import SinkTrace.Proofs.Engine.Promises
import SinkTrace.Proofs.Engine.Trails
import SinkTrace.Proofs.Engine.Grounding
import SinkTrace.Proofs.Engine.Finality
import SinkTrace.Proofs.Heap.Confinement
import SinkTrace.Proofs.Interpreter.CallSites
import SinkTrace.Proofs.Engine.Tracing
import SinkTrace.Proofs.Engine.SourcePaths
import SinkTrace.Proofs.Heap.Every
import SinkTrace.Proofs.Heap.Records
import SinkTrace.Proofs.Engine.Executions
import SinkTrace.Proofs.Engine.Errands
import SinkTrace.Proofs.Engine.CallRoutes
import SinkTrace.Proofs.Engine.DispatchCoverage
import SinkTrace.Proofs.Engine.LastSettling
import SinkTrace.Proofs.Engine.Recording
import SinkTrace.Proofs.Engine.RecordedCalls
import SinkTrace.Proofs.Engine.TriggerPaths
import SinkTrace.Proofs.Engine.SinkRoutes
import SinkTrace.Proofs.Engine.Bookkeeping
import SinkTrace.Proofs.Heap.InputClosure
import SinkTrace.Proofs.Heap.Confluence
import SinkTrace.Proofs.Heap.Monotonicity
import SinkTrace.Proofs.Interpreter.CodeGraph
import SinkTrace.Proofs.Interpreter.StackEffect
import SinkTrace.Proofs.Interpreter.Drives
import SinkTrace.Proofs.Interpreter.Visits
import SinkTrace.Proofs.Interpreter.Bound
import SinkTrace.Proofs.Interpreter.StackDepth
import SinkTrace.Proofs.Interpreter.Faults
import SinkTrace.Proofs.Heap.Echoes
import SinkTrace.Proofs.Engine.DispatchStub
import SinkTrace.Proofs.FindingsRuns
import SinkTrace.Proofs.Interpreter.PathValues
import SinkTrace.Proofs.Interpreter.Rounds
import SinkTrace.Proofs.Interpreter.StraightLine
import SinkTrace.Proofs.Heap.BreadthFirst
import SinkTrace.Proofs.Summary.Isomorphism
import SinkTrace.Proofs.References
import SinkTrace.Proofs.Heap.FieldPaths
import SinkTrace.Proofs.Slots.Accesses
import SinkTrace.Proofs.Slots.Evolution
import SinkTrace.Proofs.Slots.Runs
import SinkTrace.Proofs.Slots.LazyLoads
import SinkTrace.Proofs.Slots.Aliases
import SinkTrace.Proofs.Slots.Denotation
import SinkTrace.Proofs.Interpreter.ReachedContexts
import SinkTrace.Proofs.Interpreter.AliasedStores
import SinkTrace.Proofs.Libraries.Yaml.Gaps
import SinkTrace.Proofs.Libraries.Yaml.Escapes
import SinkTrace.Proofs.Libraries.Yaml.Plain
import SinkTrace.Proofs.Libraries.Yaml.Quotes
import SinkTrace.Proofs.Libraries.Yaml.Lines
import SinkTrace.Proofs.Libraries.Yaml.Scanning
import SinkTrace.Proofs.Libraries.Yaml.Documents
import SinkTrace.Proofs.Libraries.Yaml.Numbers
import SinkTrace.Proofs.Config.Documents
import SinkTrace.Proofs.Rebasing
import SinkTrace.Proofs.Counters
import SinkTrace.Proofs.Programs
import SinkTrace.Proofs.Engine.Faults
