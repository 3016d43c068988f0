import SinkTrace.Bytecode.Opcode
import SinkTrace.Decimal
import SinkTrace.Metadata

/-!
Method bodies. Offsets name instructions; where two instructions claim one offset, the later one
has it. A body is normal when no instruction is a short form; only normal bodies are interpreted.
-/

namespace SinkTrace

abbrev Offset := Nat

/-- At least four hexadecimal digits behind `IL_`. -/
def Offset.label (o : Offset) : String :=
  let digits := Nat.toDigits 16 o
  "IL_" ++ String.ofList (List.replicate (4 - digits.length) '0' ++ digits)

inductive Operand where
  | absent
  | int32 (value : Int)
  | int64 (value : Int)
  | real (value : Decimal)
  | string (text : String)
  | target (offset : Offset)
  /-- The table of a switch. -/
  | targets (offsets : List Offset)
  | method (ref : MethodRef)
  | field (ref : FieldRef)
  | type (ref : TypeRef)
  | local (index : Nat)
  | arg (index : Nat)
deriving Repr, DecidableEq, Inhabited

/-- Offsets that the operand can send control to. -/
def Operand.offsets : Operand → List Offset
  | .target o => [o]
  | .targets os => os
  | _ => []

structure Instruction where
  offset : Offset
  opcode : Opcode
  operand : Operand := .absent
deriving Repr, DecidableEq, Inhabited

inductive HandlerKind where
  | catch | filter | finally | fault
deriving Repr, DecidableEq, Inhabited

/-- A handler for the code from `tryStart` up to `tryEnd`. -/
structure Handler where
  kind : HandlerKind
  tryStart : Offset
  tryEnd : Offset
  start : Offset
  filterStart : Option Offset := none
deriving Repr, DecidableEq, Inhabited

/-- Where control can enter the handler: its start, and the start of its filter. -/
def Handler.entries (h : Handler) : List Offset :=
  h.start :: if h.kind = .filter then h.filterStart.toList else []

structure Body where
  code : Array Instruction := #[]
  locals : List TypeRef := []
  handlers : List Handler := []
deriving Repr, DecidableEq, Inhabited

/-- The long form, and the operand that the short form implies. -/
def ShortForm.expand : ShortForm → Opcode × Option Operand
  | .ldargS => (.ldarg, none)
  | .ldargN n => (.ldarg, some (.arg n.val))
  | .ldargaS => (.ldarga, none)
  | .stargS => (.starg, none)
  | .ldlocS => (.ldloc, none)
  | .ldlocN n => (.ldloc, some (.local n.val))
  | .ldlocaS => (.ldloca, none)
  | .stlocS => (.stloc, none)
  | .stlocN n => (.stloc, some (.local n.val))
  | .ldcI4M1 => (.literal .i4, some (.int32 (-1)))
  | .ldcI4N n => (.literal .i4, some (.int32 n))
  | .ldcI4S => (.literal .i4, none)
  | .brS => (.br, none)
  | .brIfS onTrue => (.brIf onTrue, none)
  | .compareS test => (.compare test, none)
  | .leaveS => (.leave, none)

/-- A short form keeps its own operand unless it implies one. -/
def Instruction.normalize (i : Instruction) : Instruction :=
  match i.opcode with
  | .short form =>
    let (opcode, implied) := form.expand
    { i with opcode, operand := implied.getD i.operand }
  | _ => i

namespace Body

def size (b : Body) : Nat := b.code.size

def normalize (b : Body) : Body := { b with code := b.code.map Instruction.normalize }

def hasShortForms (b : Body) : Bool := b.code.any (·.opcode.isShort)

/-- The last instruction with the offset. -/
def indexOf? (b : Body) (offset : Offset) : Option Nat :=
  (List.range b.size).reverse.find? (fun i => (b.code[i]?.map Instruction.offset) == some offset)

end Body

end SinkTrace
