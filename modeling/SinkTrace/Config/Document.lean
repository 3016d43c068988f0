import SinkTrace.Config.Basic
import SinkTrace.Config.Format

/-!
Configuration files. A file names its version and a preset, and overrides single settings. What is
written for a configuration overrides every setting.
-/

namespace SinkTrace

/-- A configuration file as it is laid out, before its contents are judged. -/
structure ConfigDocument where
  version : Option UInt32
  preset : String
  overrides : Option Overrides
deriving Repr, DecidableEq, Inhabited

namespace Overrides

def names : List String :=
  ["sensitive_sink", "virtual_calls_limit", "enable_static_fields", "input_tainted_mode",
    "external_methods", "max_recursion_iterations", "summary_cache_capacity", "use_created_types",
    "scope_to_entry_assembly"]

def ofDocument? (d : Document) : Option Overrides := do
  match ← d.record? names with
  | [sink, limit, statics, inputMode, externals, iterations, capacity, created, scope] =>
    some {
      sensitiveSink := ← Document.optional Document.text? sink
      virtualCallsLimit := ← Document.optional Document.word32? limit
      enableStaticFields := ← Document.optional Document.bool? statics
      inputTaintedMode := ← Document.optional Document.bool? inputMode
      externalMethods := ← Document.optional (Document.listOf? Document.text?) externals
      maxRecursionIterations := ← Document.optional Document.word32? iterations
      summaryCacheCapacity := ← Document.optional Document.word64? capacity
      useCreatedTypes := ← Document.optional Document.bool? created
      scopeToEntryAssembly := ← Document.optional Document.bool? scope }
  | _ => none

/-- The values in the order of the names. -/
def values (o : Overrides) : List (Option Value) :=
  [o.sensitiveSink.map .text, o.virtualCallsLimit.map (.nat ·.toNat),
    o.enableStaticFields.map .bool, o.inputTaintedMode.map .bool, o.externalMethods.map .texts,
    o.maxRecursionIterations.map (.nat ·.toNat), o.summaryCacheCapacity.map (.nat ·.toNat),
    o.useCreatedTypes.map .bool, o.scopeToEntryAssembly.map .bool]

def toValue (o : Overrides) : Value := .record (fieldsOf names o.values)

end Overrides

namespace ConfigDocument

def names : List String := ["version", "preset", "overrides"]

def ofDocument? (d : Document) : Option ConfigDocument := do
  match ← d.record? names with
  | [version, some preset, overrides] =>
    some {
      version := ← Document.optional Document.word32? version
      preset := ← preset.text?
      overrides := ← Document.optional Overrides.ofDocument? overrides }
  | _ => none

/-- The values in the order of the names; a version is written even if there is none. -/
def values (d : ConfigDocument) : List (Option Value) :=
  [some (d.version.elim .null (.nat ·.toNat)), some (.text d.preset),
    d.overrides.map Overrides.toValue]

def toValue (d : ConfigDocument) : Value := .record (fieldsOf names d.values)

/-- The configuration that a file describes: the version is judged first, then the preset, then
the settings. -/
def config (compile : PatternCompiler) (d : ConfigDocument) : Except ConfigError Config := do
  match d.version with
  | none => throw .missingVersion
  | some version => if version ≠ 1 then throw (.unsupportedVersion version.toNat)
  match Preset.ofName? d.preset with
  | none => throw (.unknownPreset d.preset)
  | some preset =>
    let c := preset.config.override (d.overrides.getD {})
    c.validate compile
    return c

end ConfigDocument

namespace Config

/-- Reads a configuration file. -/
def ofYaml (format : TextFormat) (compile : PatternCompiler) (text : String) :
    Except ConfigError Config :=
  match (format.read? text).bind ConfigDocument.ofDocument? with
  | none => .error .malformed
  | some d => d.config compile

def toDocument (c : Config) : ConfigDocument := ⟨some 1, c.preset.name, some c.overrides⟩

/-- Writes a configuration file. -/
def toYaml (format : TextFormat) (c : Config) : String := format.write c.toDocument.toValue

end Config

end SinkTrace
