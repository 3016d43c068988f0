import SinkTrace.Config.Error
import SinkTrace.Metadata

/-!
Settings of an analysis. A preset fixes all of them at once, and overrides change single ones on
top of it.
-/

namespace SinkTrace

/-- A pattern language, which is a library: the test that a text stands for, if it is a pattern. -/
abbrev PatternCompiler := String → Option (Signature → Bool)

inductive Preset where
  /-- Triage of many entry points. -/
  | fast
  | balanced
  /-- Audit of a single program, with implementations from every assembly. -/
  | thorough
  /-- Balanced values, meant to be overridden one by one. -/
  | custom
deriving Repr, DecidableEq, Inhabited

namespace Preset

def all : List Preset := [fast, balanced, thorough, custom]

def name : Preset → String
  | fast => "fast"
  | balanced => "balanced"
  | thorough => "thorough"
  | custom => "custom"

/-- The preset of this name, in upper or lower case. -/
def ofName? (s : String) : Option Preset :=
  all.find? fun p => p.name.toList = s.toList.map Char.toLower

end Preset

structure Config where
  preset : Preset := .balanced
  /-- The call whose results become tainted. -/
  sensitiveSink : Signature :=
    "System.Object System.Runtime.Serialization.FormatterServices::GetUninitializedObject(System.Type)"
  /-- Largest number of implementations that a virtual call is resolved to. -/
  virtualCallsLimit : UInt32 := 16
  enableStaticFields : Bool := true
  /-- The sink taints only if one of its inputs is under the attacker's control. -/
  inputTaintedMode : Bool := false
  /-- Patterns of signatures that count as external although they have a body. -/
  externalMethods : List String := []
  /-- How often the head of a recursion loop is analysed. -/
  maxRecursionIterations : UInt32 := 4
  summaryCacheCapacity : UInt64 := 65536
  /-- Virtual calls are resolved to types constructed so far only. -/
  useCreatedTypes : Bool := true
  /-- Virtual calls are resolved within what the entry assembly references only. -/
  scopeToEntryAssembly : Bool := true
deriving Repr, DecidableEq, Inhabited

/-- The settings that a preset stands for. -/
def Preset.config : Preset → Config
  | fast =>
    { preset := .fast, virtualCallsLimit := 4, enableStaticFields := false
      maxRecursionIterations := 1, summaryCacheCapacity := 16384 }
  | balanced => {}
  | thorough =>
    { preset := .thorough, virtualCallsLimit := 64, maxRecursionIterations := 8
      summaryCacheCapacity := 262144, scopeToEntryAssembly := false }
  | custom => { preset := .custom }

/-- Settings given one by one; an absent one keeps its value. -/
structure Overrides where
  sensitiveSink : Option Signature := none
  virtualCallsLimit : Option UInt32 := none
  enableStaticFields : Option Bool := none
  inputTaintedMode : Option Bool := none
  externalMethods : Option (List String) := none
  maxRecursionIterations : Option UInt32 := none
  summaryCacheCapacity : Option UInt64 := none
  useCreatedTypes : Option Bool := none
  scopeToEntryAssembly : Option Bool := none
deriving Repr, DecidableEq, Inhabited

namespace Config

def override (c : Config) (o : Overrides) : Config where
  preset := c.preset
  sensitiveSink := o.sensitiveSink.getD c.sensitiveSink
  virtualCallsLimit := o.virtualCallsLimit.getD c.virtualCallsLimit
  enableStaticFields := o.enableStaticFields.getD c.enableStaticFields
  inputTaintedMode := o.inputTaintedMode.getD c.inputTaintedMode
  externalMethods := o.externalMethods.getD c.externalMethods
  maxRecursionIterations := o.maxRecursionIterations.getD c.maxRecursionIterations
  summaryCacheCapacity := o.summaryCacheCapacity.getD c.summaryCacheCapacity
  useCreatedTypes := o.useCreatedTypes.getD c.useCreatedTypes
  scopeToEntryAssembly := o.scopeToEntryAssembly.getD c.scopeToEntryAssembly

/-- Every setting as an override. -/
def overrides (c : Config) : Overrides where
  sensitiveSink := c.sensitiveSink
  virtualCallsLimit := c.virtualCallsLimit
  enableStaticFields := c.enableStaticFields
  inputTaintedMode := c.inputTaintedMode
  externalMethods := c.externalMethods
  maxRecursionIterations := c.maxRecursionIterations
  summaryCacheCapacity := c.summaryCacheCapacity
  useCreatedTypes := c.useCreatedTypes
  scopeToEntryAssembly := c.scopeToEntryAssembly

theorem override_overrides (c d : Config) (h : d.preset = c.preset) :
    d.override c.overrides = c := by
  cases c
  cases h
  rfl

def limitBounds : Bounds :=
  ⟨"virtual_calls_limit", 1, 1000,
    "at least one implementation must be analyzable; large fan-outs explode summaries"⟩

def iterationBounds : Bounds :=
  ⟨"max_recursion_iterations", 1, 32, "recursion loops need at least one pass"⟩

def capacityBounds : Bounds :=
  ⟨"summary_cache_capacity", 1, 1000000, "the summary cache must hold at least one entry"⟩

/-- The tests that the patterns of external methods stand for. -/
def externalTests (compile : PatternCompiler) (c : Config) :
    Except ConfigError (List (Signature → Bool)) :=
  c.externalMethods.mapM fun text =>
    match compile text with
    | some test => .ok test
    | none => .error (.invalidPattern text)

/-- Checks the ranges and then the patterns; the first fault counts. -/
def validate (compile : PatternCompiler) (c : Config) : Except ConfigError Unit := do
  limitBounds.check c.virtualCallsLimit.toNat
  iterationBounds.check c.maxRecursionIterations.toNat
  capacityBounds.check c.summaryCacheCapacity.toNat
  let _ ← c.externalTests compile
  return ()

end Config

end SinkTrace
