import SinkTrace.Bytecode.Body
import SinkTrace.Json.Metadata

/-!
Instructions and bodies in JSON.
-/

namespace SinkTrace

def ValueKind.ofJson? (j : Json) : Option ValueKind := do
  let (name, none) ← j.variant? | none
  ValueKind.ofName? name

namespace Opcode

def toJson : Opcode → Json
  | .unary (.conv k) => .variant "Conv" (.str k.name)
  | .unary (.convOvf k) => .variant "ConvOvf" (.str k.name)
  | .unary (.convOvfUn k) => .variant "ConvOvfUn" (.str k.name)
  | .ldind k => .variant "Ldind" (.str k.name)
  | .stind k => .variant "Stind" (.str k.name)
  | .ldelem k => .variant "Ldelem" (.str k.name)
  | .stelem k => .variant "Stelem" (.str k.name)
  | .short (.ldcI4N n) => .variant "LdcI4N" (.nat n)
  | .escape byte => .variant "Prefix" (.nat byte)
  | .reserved value => .variant "Reserved" (.nat value)
  | op => .str op.name

/-- Opcodes that handle a value of some kind. -/
def ofKind? (name : String) (kind : ValueKind) : Option Opcode :=
  match name with
  | "Conv" => some (.unary (.conv kind))
  | "ConvOvf" => some (.unary (.convOvf kind))
  | "ConvOvfUn" => some (.unary (.convOvfUn kind))
  | "Ldind" => some (.ldind kind)
  | "Stind" => some (.stind kind)
  | "Ldelem" => some (.ldelem kind)
  | "Stelem" => some (.stelem kind)
  | _ => none

def ofJson? (j : Json) : Option Opcode := do
  match ← j.variant? with
  | (name, none) => ofName? name
  | ("LdcI4N", some n) => return .short (.ldcI4N (← n.word? 8))
  | ("Prefix", some n) => return .escape (← n.word? 8)
  | ("Reserved", some n) => return .reserved (← n.word? 16)
  | (name, some kind) => ofKind? name (← ValueKind.ofJson? kind)

end Opcode

namespace Operand

def toJson : Operand → Json
  | .absent => .str "None"
  | .int32 n => .variant "Int32" (.int n)
  | .int64 n => .variant "Int64" (.int n)
  | .real d => .variant "Float" (.number d.withFraction)
  | .string s => .variant "String" (.str s)
  | .target o => .variant "Target" (.nat o)
  | .targets os => .variant "Targets" (.list .nat os)
  | .method m => .variant "Method" m.toJson
  | .field f => .variant "Field" f.toJson
  | .type t => .variant "Type" t.toJson
  | .local n => .variant "Local" (.nat n)
  | .arg n => .variant "Arg" (.nat n)

def ofJson? (j : Json) : Option Operand := do
  match ← j.variant? with
  | ("None", none) => return .absent
  | ("Int32", some n) => return .int32 (← n.signed? 32)
  | ("Int64", some n) => return .int64 (← n.signed? 64)
  | ("Float", some x) => return .real (← x.number?)
  | ("String", some s) => return .string (← s.str?)
  | ("Target", some o) => return .target (← o.word? 32)
  | ("Targets", some os) => return .targets (← os.listOf? (Json.word? 32))
  | ("Method", some m) => return .method (← MethodRef.ofJson? m)
  | ("Field", some f) => return .field (← FieldRef.ofJson? f)
  | ("Type", some t) => return .type (← TypeRef.ofJson? t)
  | ("Local", some n) => return .local (← n.word? 16)
  | ("Arg", some n) => return .arg (← n.word? 16)
  | _ => none

end Operand

def Instruction.toJson (i : Instruction) : Json :=
  .obj [("offset", .nat i.offset), ("opcode", i.opcode.toJson), ("operand", i.operand.toJson)]

def Instruction.ofJson? (j : Json) : Option Instruction := do
  let [offset, opcode, operand] ← j.record? ["offset", "opcode", "operand"] | none
  return ⟨← (← offset).word? 32, ← Opcode.ofJson? (← opcode), ← Operand.ofJson? (← operand)⟩

namespace HandlerKind

def name : HandlerKind → String
  | .catch => "Catch"
  | .filter => "Filter"
  | .finally => "Finally"
  | .fault => "Fault"

def ofJson? (j : Json) : Option HandlerKind := do
  match ← j.variant? with
  | ("Catch", none) => return .catch
  | ("Filter", none) => return .filter
  | ("Finally", none) => return .finally
  | ("Fault", none) => return .fault
  | _ => none

end HandlerKind

def Handler.toJson (h : Handler) : Json :=
  .obj [("kind", .str h.kind.name), ("try_start", .nat h.tryStart), ("try_end", .nat h.tryEnd),
    ("handler_start", .nat h.start), ("filter_start", .ofOption .nat h.filterStart)]

def Handler.ofJson? (j : Json) : Option Handler := do
  let [kind, tryStart, tryEnd, start, filterStart] ←
    j.record? ["kind", "try_start", "try_end", "handler_start", "filter_start"] | none
  return ⟨← HandlerKind.ofJson? (← kind), ← (← tryStart).word? 32, ← (← tryEnd).word? 32,
    ← (← start).word? 32, ← Json.optional (Json.word? 32) filterStart⟩

def Body.toJson (b : Body) : Json :=
  .obj [("instructions", .list Instruction.toJson b.code.toList),
    ("locals", .list TypeRef.toJson b.locals),
    ("exception_handlers", .list Handler.toJson b.handlers)]

def Body.ofJson? (j : Json) : Option Body := do
  let [code, locals, handlers] ←
    j.record? ["instructions", "locals", "exception_handlers"] | none
  return ⟨(← (← code).listOf? Instruction.ofJson?).toArray,
    ← Json.orDefault (Json.listOf? TypeRef.ofJson?) [] locals,
    ← Json.orDefault (Json.listOf? Handler.ofJson?) [] handlers⟩

end SinkTrace
