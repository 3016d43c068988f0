import SinkTrace.Engine.Machine

/-!
The analysis of a program from an entry point. An engine makes one run and can then be reset.
-/

namespace SinkTrace

structure Engine where
  setup : Setup
  ledger : Ledger
  used : Bool := false
deriving Inhabited

/-- Where an analysis starts. -/
structure EntryPoint where
  method : Signature
  /-- Types of the formals that an attacker controls; if there are none, every formal is. -/
  required : List String := []
deriving Repr, DecidableEq, Inhabited

namespace Engine

def emptyLedger (c : Config) (eviction : Eviction) : Ledger :=
  { cache := Cache.ofCapacity c.summaryCacheCapacity.toNat eviction }

/-- An engine for settings that were checked. -/
def ofConfig (compile : PatternCompiler) (p : Program) (c : Config)
    (eviction : Eviction := .leastRecent) : Except ConfigError Engine := do
  c.validate compile
  let externals ← c.externalTests compile
  return { setup := ⟨p, c, fun signature => externals.any (· signature), none⟩
           ledger := emptyLedger c eviction }

/-- An engine with balanced settings apart from these; they are not checked. -/
def ofSettings (p : Program) (sink : Signature) (limit : UInt32) (statics inputMode : Bool)
    (eviction : Eviction := .leastRecent) : Engine :=
  let c : Config := { sensitiveSink := sink, virtualCallsLimit := limit
                      enableStaticFields := statics, inputTaintedMode := inputMode }
  { setup := ⟨p, c, fun _ => false, none⟩, ledger := emptyLedger c eviction }

/-- Forgets everything about the last run. -/
def reset (e : Engine) : Engine :=
  { setup := { e.setup with scope := none }, ledger := { cache := e.ledger.cache.reset } }

/-- Whether an attacker controls a formal of this type. -/
def isRequired (required : List String) (t : TypeRef) : Bool :=
  required.isEmpty || required.any fun name => name == t.name || name == t.element.name

/-- Marks the formals of an entry point that an attacker controls. -/
def markInputs (required : List String) (c : Context) (m : MethodRef) : Heap :=
  (c.formals.zip m.formals).foldl (fun h (formal, type) =>
    match formal with
    | some e => if isRequired required type then h.markInput e else h
    | none => h) c.heap

/-- The machine at the beginning of a run. -/
def boot (s : Setup) (l : Ledger) (d : MethodDef) (required : List String) :
    Except Failure Machine := do
  let key : SummaryKey := ⟨.concrete, d.signature⟩
  let root ← Activation.start key d.reference (CallStack.empty.push key) (.method d)
    s.config.enableStaticFields
  let (root, l) := (root.setHeap (markInputs required root.context d.reference)).settle
    (Machine.countWalk root l)
  return ⟨[root], l⟩

/-- The entry point as a method that can be walked. -/
def entry? (p : Program) (signature : Signature) : Option MethodDef :=
  (p.method? signature).filter MethodDef.hasBody

/-- What a run from `d` works with: virtual calls may be confined to what its assembly reaches. -/
def runSetup (e : Engine) (d : MethodDef) : Setup :=
  { e.setup with scope := if e.setup.config.scopeToEntryAssembly then
      e.setup.program.reachable? d.assembly else none }

/-- Analyses the program from an entry point. The findings leave the engine if the run succeeds. -/
def execute (e : Engine) (entry : EntryPoint) : Except Failure Findings × Engine :=
  if e.used then (.error .engineUsed, e)
  else
    let e := { e with used := true }
    match entry? e.setup.program entry.method with
    | none => (.error (.missingBody entry.method), e)
    | some d =>
      let setup := e.runSetup d
      let e := { e with setup }
      match boot setup e.ledger d entry.required with
      | .error failure => (.error failure, e)
      | .ok machine =>
        match machine.runToEnd setup (Machine.stepBound setup) with
        | (.error failure, ledger) => (.error failure, { e with ledger })
        | (.ok (), ledger) =>
          (.ok ledger.findings, { e with ledger := { ledger with findings := {} } })

end Engine

end SinkTrace
