import SinkTrace.Interpreter.CallEffect
import SinkTrace.Interpreter.ControlFlow

/-!
What one instruction does to the operand stack and the context. Where control goes is only named
here; following it is left to the walk over the body.
-/

namespace SinkTrace

/-- A computation on the context. It keeps what it did to the context when it fails. -/
abbrev Exec := EStateM Failure Context

/-- How the path goes on after an instruction. -/
inductive Flow where
  | next (frame : Frame)
  | stop
  /-- To these offsets, and to the next instruction as well if the branch is conditional. -/
  | branch (targets : List Offset) (conditional : Bool) (frame : Frame)
  | call (effect : CallEffect) (frame : Frame)
deriving Inhabited

namespace Exec

def onStore {α : Type} (f : Store → α × Store) : Exec α :=
  modifyGet fun c =>
    let (a, store) := f c.store
    (a, { c with store })

def onContext {α : Type} (f : Context → α × Context) : Exec α := modifyGet f

def pushFake (frame : Frame) : Exec Flow := do
  return .next ((← onStore Store.fake) :: frame)

def pushEntity (frame : Frame) (e : EntityId) : Exec Flow := do
  return .next ((← onStore (·.entitySlot e)) :: frame)

/-- A value of a simple type carries nothing; any other is `slot`. -/
def pushTyped (frame : Frame) (type : TypeRef) (slot : SlotId) : Exec Flow :=
  if type.isSimple then pushFake frame else return .next (slot :: frame)

end Exec

/-- An instruction of a method, to name in a failure. -/
structure Site where
  method : Signature
  instruction : Instruction

namespace Site

open Exec

def invalid {α : Type} (s : Site) (expected : Expected) : Exec α :=
  throw (.invalidOperand s.instruction.opcode s.instruction.offset expected)

def underflow {α : Type} (s : Site) : Exec α :=
  throw (.stackUnderflow s.instruction.offset s.method)

def argIndex (s : Site) : Exec Nat :=
  match s.instruction.operand with
  | .arg index => return index
  | _ => s.invalid .argument

def localIndex (s : Site) : Exec Nat :=
  match s.instruction.operand with
  | .local index => return index
  | _ => s.invalid .local

def target (s : Site) : Exec Offset :=
  match s.instruction.operand with
  | .target offset => return offset
  | _ => s.invalid .target

def table (s : Site) : Exec (List Offset) :=
  match s.instruction.operand with
  | .targets offsets => return offsets
  | _ => s.invalid .table

def methodRef (s : Site) : Exec MethodRef :=
  match s.instruction.operand with
  | .method m => return m
  | _ => s.invalid .method

def fieldRef (s : Site) : Exec FieldRef :=
  match s.instruction.operand with
  | .field f => return f
  | _ => s.invalid .field

def typeRef (s : Site) : Exec TypeRef :=
  match s.instruction.operand with
  | .type t => return t
  | _ => s.invalid .type

def pop (s : Site) : Frame → Exec (SlotId × Frame)
  | slot :: frame => return (slot, frame)
  | [] => s.underflow

/-- Removes values; what was pushed last comes last. -/
def popMany (s : Site) : Nat → Frame → List SlotId → Exec (List SlotId × Frame)
  | 0, frame, popped => return (popped, frame)
  | n + 1, frame, popped => do
    let (slot, frame) ← s.pop frame
    s.popMany n frame (slot :: popped)

def argumentSlot (s : Site) (index : Nat) : Exec SlotId := do
  match (← get).argument? index with
  | some slot => return slot
  | none => s.invalid .argumentInRange

/-- Whether an element access of this kind handles object references. -/
def handlesReference (s : Site) : ValueKind → Exec Bool
  | .ref => return true
  | .any => return !(← s.typeRef).isSimple
  | _ => return false

/-- One parameter of a call: the entity in the slot, if the type can hold one. -/
def parameter (slot : SlotId) (type : TypeRef) : Exec (Option EntityId) :=
  if type.isSimple then return none else onStore (·.materializeSingle slot)

/-- A new entity for a value of the type, if the type can hold one, and its slot. -/
def newValue (type : TypeRef) (origin : Origin) : Exec (Option EntityId × SlotId) :=
  if type.isSimple then return (none, ← onStore Store.fake)
  else do
    let e ← onStore (·.create origin)
    return (some e, ← onStore (·.entitySlot e))

/-- Counts a call, if there is room to. -/
def countCall : Exec Unit := do
  match (← get).countCall? with
  | some c => set c
  | none => throw .overflow

theorem countCall_cases (c : Context) :
    countCall c = .ok () { c with calls := c.calls + 1 } ∨ countCall c = .error .overflow c := by
  by_cases h : c.calls = largestWord
  · refine .inr ?_
    change (match c.countCall? with | some c => set c | none => throw .overflow : Exec Unit) c = _
    rw [Context.countCall?_of_eq h]
    rfl
  · refine .inl ?_
    change (match c.countCall? with | some c => set c | none => throw .overflow : Exec Unit) c = _
    rw [Context.countCall?_of_ne h]
    rfl

/-- The call of `m`: its parameters leave the stack, and a new value takes their place. -/
def call (s : Site) (kind : EffectKind) (frame : Frame) : Exec Flow := do
  let m ← s.methodRef
  countCall
  let types := if kind = .newobj then m.parameters else m.formals
  let (slots, frame) ← s.popMany types.length frame []
  let parameters ← (slots.zip types).mapM fun (slot, type) => parameter slot type
  let effect : CallEffect :=
    { kind, method := m, parameters, output := none, offset := s.instruction.offset }
  if kind = .newobj then
    let (object, slot) ← newValue m.declaring (.constructed m.declaring.name)
    return .call { effect with parameters := object :: parameters, output := object }
      (slot :: frame)
  else if m.returnsValue then
    let (value, slot) ← newValue m.result (.methodReturn m.signature)
    return .call { effect with output := value } (slot :: frame)
  else return .call effect frame

end Site

open Exec in
/-- Runs one instruction of `m`. On a straight line an argument can be replaced for good. -/
def execute (m : MethodRef) (straight : Bool) (i : Instruction) (frame : Frame) : Exec Flow := do
  let s : Site := ⟨m.signature, i⟩
  match i.opcode with
  | .inert _ => return .next frame
  | .ldarg =>
    let slot ← s.argumentSlot (← s.argIndex)
    return .next (slot :: frame)
  | .ldarga =>
    let index ← s.argIndex
    let slot ← s.argumentSlot index
    pushEntity frame (← onStore (·.materializeOrCreate slot (.argument index)))
  | .starg =>
    let index ← s.argIndex
    let (value, frame) ← s.pop frame
    modify fun c => if straight then c.rebindArgument index value else c.storeArgument index value
    return .next frame
  | .ldloc =>
    let index ← s.localIndex
    return .next ((← onContext (·.loadLocal index)) :: frame)
  | .ldloca =>
    let index ← s.localIndex
    pushEntity frame (← onContext (·.localAddress index))
  | .stloc =>
    let index ← s.localIndex
    let (value, frame) ← s.pop frame
    modify (·.storeLocal index value)
    return .next frame
  | .literal _ => return .next ((← onStore Store.constant) :: frame)
  | .dup =>
    let (top, _) ← s.pop frame
    return .next (top :: frame)
  | .pop | .initobj =>
    let (_, frame) ← s.pop frame
    return .next frame
  | .call => s.call .call frame
  | .callvirt => s.call .callvirt frame
  | .newobj => s.call .newobj frame
  | .ret =>
    if m.returnsValue then
      let (value, _) ← s.pop frame
      if !m.result.isSimple then modify (·.recordReturn value)
    return .stop
  | .br => return .branch [← s.target] false frame
  | .brIf _ =>
    let (_, frame) ← s.pop frame
    return .branch [← s.target] true frame
  | .compare _ =>
    let (_, frame) ← s.pop frame
    let (_, frame) ← s.pop frame
    return .branch [← s.target] true frame
  | .switch =>
    let (_, frame) ← s.pop frame
    return .branch (← s.table) true frame
  | .leave => return .branch [← s.target] false []
  | .endfinally | .rethrow => return .stop
  | .endfilter | .throw =>
    let _ ← s.pop frame
    return .stop
  | .binary _ =>
    let (_, frame) ← s.pop frame
    let (_, frame) ← s.pop frame
    pushFake frame
  | .unary _ | .inspect _ =>
    let (_, frame) ← s.pop frame
    pushFake frame
  | .ldind kind =>
    let (address, frame) ← s.pop frame
    if kind.isReference then return .next (address :: frame) else pushFake frame
  | .stind kind =>
    let (value, frame) ← s.pop frame
    let (address, frame) ← s.pop frame
    if kind.isReference then onStore fun st => ((), st.storeThrough address value)
    return .next frame
  | .ldobj | .unboxAny =>
    let type ← s.typeRef
    let (value, frame) ← s.pop frame
    pushTyped frame type value
  | .stobj | .cpobj =>
    let type ← s.typeRef
    let (value, frame) ← s.pop frame
    let (address, frame) ← s.pop frame
    if !type.isSimple then onStore fun st => ((), st.storeThrough address value)
    return .next frame
  | .cpblk | .initblk =>
    let (_, frame) ← s.popMany 3 frame []
    return .next frame
  | .ldfld =>
    let field ← s.fieldRef
    let (object, frame) ← s.pop frame
    if field.type.isSimple then pushFake frame
    else return .next ((← onStore (·.load object field.key)) :: frame)
  | .ldflda =>
    let field ← s.fieldRef
    let (object, frame) ← s.pop frame
    let owner ← onStore (·.materializeOrCreate object .uninitialized)
    pushEntity frame (← onStore (·.loadField owner field.key))
  | .stfld =>
    let field ← s.fieldRef
    let (value, frame) ← s.pop frame
    let (object, frame) ← s.pop frame
    if !field.type.isSimple then onStore fun st => ((), st.storeInto object field.key value)
    return .next frame
  | .ldsfld =>
    let field ← s.fieldRef
    if field.type.isSimple then pushFake frame
    else pushEntity frame (← onContext (·.loadStatic field.key))
  | .ldsflda =>
    let field ← s.fieldRef
    pushEntity frame (← onContext (·.loadStatic field.key))
  | .stsfld =>
    let field ← s.fieldRef
    let (value, frame) ← s.pop frame
    if !field.type.isSimple then
      if let some e ← onStore (·.materializeSingle value) then modify (·.storeStatic field.key e)
    return .next frame
  | .retype _ =>
    let (value, frame) ← s.pop frame
    return .next (value :: frame)
  | .token _ => pushFake frame
  | .newarr =>
    let (_, frame) ← s.pop frame
    pushEntity frame (← onStore (·.create .array))
  | .ldelema =>
    let (_, frame) ← s.pop frame
    let (array, frame) ← s.pop frame
    let owner ← onStore (·.materializeOrCreate array .array)
    pushEntity frame (← onStore (·.loadField owner elementField))
  | .ldelem kind =>
    let reference ← s.handlesReference kind
    let (_, frame) ← s.pop frame
    let (array, frame) ← s.pop frame
    if reference then return .next ((← onStore (·.load array elementField)) :: frame)
    else pushFake frame
  | .stelem kind =>
    let reference ← s.handlesReference kind
    let (value, frame) ← s.pop frame
    let (_, frame) ← s.pop frame
    let (array, frame) ← s.pop frame
    if reference then onStore fun st => ((), st.storeInto array elementField value)
    return .next frame
  | .short _ | .jmp | .calli | .escape _ | .reserved _ =>
    throw (.unsupportedOpcode i.opcode i.offset m.signature)

end SinkTrace
