import SinkTrace.Config.Basic
import SinkTrace.Json.Basic

/-!
Configurations in JSON, and single settings by name.
-/

namespace SinkTrace

namespace Json

def word32? (j : Json) : Option UInt32 := (j.word? 32).map UInt32.ofNat

def word64? (j : Json) : Option UInt64 := (j.word? 64).map UInt64.ofNat

end Json

/-- A preset by its exact name. -/
def Preset.ofJson? (j : Json) : Option Preset := do
  match ← j.variant? with
  | (name, none) => Preset.all.find? (·.name == name)
  | (_, some _) => none

namespace Config

/-- A setting that is absent has its balanced value. -/
def ofJson? (j : Json) : Option Config := do
  match ← j.record? ["preset", "sensitive_sink", "virtual_calls_limit", "enable_static_fields",
    "input_tainted_mode", "external_methods", "max_recursion_iterations",
    "summary_cache_capacity", "use_created_types", "scope_to_entry_assembly"] with
  | [preset, sink, limit, statics, inputMode, externals, iterations, capacity, created, scope] =>
    let d : Config := {}
    some {
      preset := ← Json.orDefault Preset.ofJson? d.preset preset
      sensitiveSink := ← Json.orDefault Json.str? d.sensitiveSink sink
      virtualCallsLimit := ← Json.orDefault Json.word32? d.virtualCallsLimit limit
      enableStaticFields := ← Json.orDefault Json.bool? d.enableStaticFields statics
      inputTaintedMode := ← Json.orDefault Json.bool? d.inputTaintedMode inputMode
      externalMethods := ← Json.orDefault (Json.listOf? Json.str?) d.externalMethods externals
      maxRecursionIterations := ← Json.orDefault Json.word32? d.maxRecursionIterations iterations
      summaryCacheCapacity := ← Json.orDefault Json.word64? d.summaryCacheCapacity capacity
      useCreatedTypes := ← Json.orDefault Json.bool? d.useCreatedTypes created
      scopeToEntryAssembly := ← Json.orDefault Json.bool? d.scopeToEntryAssembly scope }
  | _ => none

def toJson (c : Config) : Json :=
  .obj [("preset", .str c.preset.name), ("sensitive_sink", .str c.sensitiveSink),
    ("virtual_calls_limit", .nat c.virtualCallsLimit.toNat),
    ("enable_static_fields", .bool c.enableStaticFields),
    ("input_tainted_mode", .bool c.inputTaintedMode),
    ("external_methods", .list .str c.externalMethods),
    ("max_recursion_iterations", .nat c.maxRecursionIterations.toNat),
    ("summary_cache_capacity", .nat c.summaryCacheCapacity.toNat),
    ("use_created_types", .bool c.useCreatedTypes),
    ("scope_to_entry_assembly", .bool c.scopeToEntryAssembly)]

/-- Changes the setting of this name; a pattern is added to the ones there are. -/
def set? (c : Config) (name : String) (value : Json) : Option Config :=
  match name with
  | "sensitive_sink" => value.str?.map fun v => { c with sensitiveSink := v }
  | "virtual_calls_limit" => value.word32?.map fun v => { c with virtualCallsLimit := v }
  | "enable_static_fields" => value.bool?.map fun v => { c with enableStaticFields := v }
  | "input_tainted_mode" => value.bool?.map fun v => { c with inputTaintedMode := v }
  | "external_method" =>
    value.str?.map fun v => { c with externalMethods := c.externalMethods ++ [v] }
  | "max_recursion_iterations" => value.word32?.map fun v => { c with maxRecursionIterations := v }
  | "summary_cache_capacity" => value.word64?.map fun v => { c with summaryCacheCapacity := v }
  | "use_created_types" => value.bool?.map fun v => { c with useCreatedTypes := v }
  | "scope_to_entry_assembly" => value.bool?.map fun v => { c with scopeToEntryAssembly := v }
  | _ => none

end Config

end SinkTrace
