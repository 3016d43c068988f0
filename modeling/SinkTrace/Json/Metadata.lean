import SinkTrace.Json.Basic
import SinkTrace.Metadata

/-!
Types, methods and fields in JSON.
-/

namespace SinkTrace

def TypeRef.toJson (t : TypeRef) : Json :=
  .obj [("full_name", .str t.name), ("is_value_type", .bool t.isValue)]

def TypeRef.ofJson? (j : Json) : Option TypeRef := do
  let [name, isValue] ← j.record? ["full_name", "is_value_type"] | none
  return ⟨← (← name).str?, ← Json.orDefault Json.bool? false isValue⟩

def MethodRef.toJson (m : MethodRef) : Json :=
  .obj [("declaring_type", m.declaring.toJson), ("name", .str m.name),
    ("parameters", .list TypeRef.toJson m.parameters), ("return_type", m.result.toJson),
    ("has_this", .bool m.hasThis)]

def MethodRef.ofJson? (j : Json) : Option MethodRef := do
  let [declaring, name, parameters, result, hasThis] ←
    j.record? ["declaring_type", "name", "parameters", "return_type", "has_this"] | none
  return ⟨← TypeRef.ofJson? (← declaring), ← (← name).str?,
    ← (← parameters).listOf? TypeRef.ofJson?, ← TypeRef.ofJson? (← result), ← (← hasThis).bool?⟩

def FieldRef.toJson (f : FieldRef) : Json :=
  .obj [("declaring_type", f.declaring.toJson), ("name", .str f.name),
    ("field_type", f.type.toJson)]

def FieldRef.ofJson? (j : Json) : Option FieldRef := do
  let [declaring, name, type] ← j.record? ["declaring_type", "name", "field_type"] | none
  return ⟨← TypeRef.ofJson? (← declaring), ← (← name).str?, ← TypeRef.ofJson? (← type)⟩

end SinkTrace
