import SinkTrace.Json.Bytecode
import SinkTrace.Program

/-!
Definitions and call sites in JSON.
-/

namespace SinkTrace

def MethodDef.toJson (d : MethodDef) : Json :=
  .obj [("reference", d.reference.toJson), ("assembly", .str d.assembly), ("module", .str d.module),
    ("is_public", .bool d.isPublic), ("is_virtual", .bool d.isVirtual),
    ("is_abstract", .bool d.isAbstract), ("body", .ofOption Body.toJson d.body)]

def MethodDef.ofJson? (j : Json) : Option MethodDef := do
  let [reference, assembly, module, isPublic, isVirtual, isAbstract, body] ←
    j.record? ["reference", "assembly", "module", "is_public", "is_virtual", "is_abstract", "body"]
    | none
  let flag := Json.orDefault Json.bool? false
  return ⟨← MethodRef.ofJson? (← reference), ← (← assembly).str?, ← (← module).str?,
    ← flag isPublic, ← flag isVirtual, ← flag isAbstract, ← Json.optional Body.ofJson? body⟩

namespace CallKind

def name : CallKind → String
  | .concrete => "Concrete"
  | .virtual => "Virtual"

def ofJson? (j : Json) : Option CallKind := do
  match ← j.variant? with
  | ("Concrete", none) => return .concrete
  | ("Virtual", none) => return .virtual
  | _ => none

end CallKind

def CallSite.toJson (s : CallSite) : Json :=
  .obj [("caller", .str s.caller), ("kind", .str s.kind.name), ("assembly", .str s.assembly),
    ("assembly_version", .str s.assemblyVersion), ("override_signatures", .list .str s.overrides)]

def CallSite.ofJson? (j : Json) : Option CallSite := do
  let [caller, kind, assembly, version, overrides] ←
    j.record? ["caller", "kind", "assembly", "assembly_version", "override_signatures"] | none
  return ⟨← (← caller).str?, ← CallKind.ofJson? (← kind), ← (← assembly).str?,
    ← (← version).str?, ← Json.orDefault (Json.listOf? Json.str?) [] overrides⟩

end SinkTrace
