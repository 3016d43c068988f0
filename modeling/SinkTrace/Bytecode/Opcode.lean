/-!
Opcodes of the stack machine, grouped by what they do to the operand stack. A short form stands
for a long form whose operand is narrower or implied; it has no meaning of its own.
-/

namespace SinkTrace

/-- Width or kind of the value that an indirect, element or conversion instruction handles. -/
inductive ValueKind where
  | i1 | u1 | i2 | u2 | i4 | u4 | i8 | u8 | i | u | r4 | r8
  /-- An object reference. -/
  | ref
  /-- The type is given by the operand. -/
  | any
deriving Repr, DecidableEq, Inhabited

namespace ValueKind

def all : List ValueKind := [i1, u1, i2, u2, i4, u4, i8, u8, i, u, r4, r8, ref, any]

def name : ValueKind → String
  | i1 => "I1" | u1 => "U1" | i2 => "I2" | u2 => "U2" | i4 => "I4" | u4 => "U4" | i8 => "I8"
  | u8 => "U8" | i => "I" | u => "U" | r4 => "R4" | r8 => "R8" | ref => "Ref" | any => "Any"

def ofName? (s : String) : Option ValueKind := all.find? (·.name == s)

def isReference : ValueKind → Bool
  | ref | any => true
  | _ => false

end ValueKind

/-- Instructions without an effect on values: padding and modifiers of the next instruction. -/
inductive Inert where
  | nop | breakpoint | constrained | readonly | tail | unaligned | volatile | no
deriving Repr, DecidableEq, Inhabited

namespace Inert

def all : List Inert := [nop, breakpoint, constrained, readonly, tail, unaligned, volatile, no]

def name : Inert → String
  | nop => "Nop" | breakpoint => "Break" | constrained => "Constrained" | readonly => "Readonly"
  | tail => "Tail" | unaligned => "Unaligned" | volatile => "Volatile" | no => "No"

end Inert

inductive Literal where
  | null | i4 | i8 | r4 | r8 | str
deriving Repr, DecidableEq, Inhabited

namespace Literal

def all : List Literal := [null, i4, i8, r4, r8, str]

def name : Literal → String
  | null => "Ldnull" | i4 => "LdcI4" | i8 => "LdcI8" | r4 => "LdcR4" | r8 => "LdcR8"
  | str => "Ldstr"

end Literal

inductive Comparison where
  | eq | ge | gt | le | lt | neUn | geUn | gtUn | leUn | ltUn
deriving Repr, DecidableEq, Inhabited

namespace Comparison

def all : List Comparison := [eq, ge, gt, le, lt, neUn, geUn, gtUn, leUn, ltUn]

/-- The branch taken when the comparison holds. -/
def name : Comparison → String
  | eq => "Beq" | ge => "Bge" | gt => "Bgt" | le => "Ble" | lt => "Blt" | neUn => "BneUn"
  | geUn => "BgeUn" | gtUn => "BgtUn" | leUn => "BleUn" | ltUn => "BltUn"

end Comparison

inductive BinaryOp where
  | add | addOvf | addOvfUn | sub | subOvf | subOvfUn | mul | mulOvf | mulOvfUn
  | div | divUn | rem | remUn | and | or | xor | shl | shr | shrUn
  | ceq | cgt | cgtUn | clt | cltUn
deriving Repr, DecidableEq, Inhabited

namespace BinaryOp

def all : List BinaryOp :=
  [add, addOvf, addOvfUn, sub, subOvf, subOvfUn, mul, mulOvf, mulOvfUn, div, divUn, rem, remUn,
    and, or, xor, shl, shr, shrUn, ceq, cgt, cgtUn, clt, cltUn]

def name : BinaryOp → String
  | add => "Add" | addOvf => "AddOvf" | addOvfUn => "AddOvfUn"
  | sub => "Sub" | subOvf => "SubOvf" | subOvfUn => "SubOvfUn"
  | mul => "Mul" | mulOvf => "MulOvf" | mulOvfUn => "MulOvfUn"
  | div => "Div" | divUn => "DivUn" | rem => "Rem" | remUn => "RemUn"
  | and => "And" | or => "Or" | xor => "Xor" | shl => "Shl" | shr => "Shr" | shrUn => "ShrUn"
  | ceq => "Ceq" | cgt => "Cgt" | cgtUn => "CgtUn" | clt => "Clt" | cltUn => "CltUn"

end BinaryOp

inductive UnaryOp where
  | neg | not | convRUn | ckfinite
  | conv (kind : ValueKind) | convOvf (kind : ValueKind) | convOvfUn (kind : ValueKind)
deriving Repr, DecidableEq, Inhabited

namespace UnaryOp

/-- Operators without a value kind. -/
def plain : List UnaryOp := [neg, not, convRUn, ckfinite]

def name : UnaryOp → String
  | neg => "Neg" | not => "Not" | convRUn => "ConvRUn" | ckfinite => "Ckfinite"
  | conv k => "Conv(" ++ k.name ++ ")"
  | convOvf k => "ConvOvf(" ++ k.name ++ ")"
  | convOvfUn k => "ConvOvfUn(" ++ k.name ++ ")"

end UnaryOp

/-- Instructions that see the same reference as another type. -/
inductive Retype where
  | castclass | isinst | box | unbox | mkrefany | refanyval
deriving Repr, DecidableEq, Inhabited

namespace Retype

def all : List Retype := [castclass, isinst, box, unbox, mkrefany, refanyval]

def name : Retype → String
  | castclass => "Castclass" | isinst => "Isinst" | box => "Box" | unbox => "Unbox"
  | mkrefany => "Mkrefany" | refanyval => "Refanyval"

end Retype

/-- Instructions that push a number, handle or function pointer out of nothing. -/
inductive Token where
  | sizeof | ldtoken | ldftn | arglist
deriving Repr, DecidableEq, Inhabited

namespace Token

def all : List Token := [sizeof, ldtoken, ldftn, arglist]

def name : Token → String
  | sizeof => "Sizeof" | ldtoken => "Ldtoken" | ldftn => "Ldftn" | arglist => "Arglist"

end Token

/-- Instructions that replace one value by a number, handle or function pointer. -/
inductive Inspect where
  | ldvirtftn | localloc | refanytype | ldlen
deriving Repr, DecidableEq, Inhabited

namespace Inspect

def all : List Inspect := [ldvirtftn, localloc, refanytype, ldlen]

def name : Inspect → String
  | ldvirtftn => "Ldvirtftn" | localloc => "Localloc" | refanytype => "Refanytype"
  | ldlen => "Ldlen"

end Inspect

inductive ShortForm where
  | ldargS | ldargN (index : Fin 4) | ldargaS | stargS
  | ldlocS | ldlocN (index : Fin 4) | ldlocaS | stlocS | stlocN (index : Fin 4)
  | ldcI4M1 | ldcI4N (value : Nat) | ldcI4S
  | brS | brIfS (onTrue : Bool) | compareS (test : Comparison) | leaveS
deriving Repr, DecidableEq, Inhabited

namespace ShortForm

/-- Forms without a value of their own. -/
def plain : List ShortForm :=
  [ldargS, ldargN 0, ldargN 1, ldargN 2, ldargN 3, ldargaS, stargS, ldlocS, ldlocN 0, ldlocN 1,
    ldlocN 2, ldlocN 3, ldlocaS, stlocS, stlocN 0, stlocN 1, stlocN 2, stlocN 3, ldcI4M1, ldcI4S,
    brS, brIfS false, brIfS true, leaveS] ++ Comparison.all.map compareS

def name : ShortForm → String
  | ldargS => "LdargS" | ldargN n => "Ldarg" ++ toString n.val | ldargaS => "LdargaS"
  | stargS => "StargS"
  | ldlocS => "LdlocS" | ldlocN n => "Ldloc" ++ toString n.val | ldlocaS => "LdlocaS"
  | stlocS => "StlocS" | stlocN n => "Stloc" ++ toString n.val
  | ldcI4M1 => "LdcI4M1" | ldcI4N n => "LdcI4N(" ++ toString n ++ ")" | ldcI4S => "LdcI4S"
  | brS => "BrS" | brIfS onTrue => if onTrue then "BrtrueS" else "BrfalseS"
  | compareS c => c.name ++ "S" | leaveS => "LeaveS"

end ShortForm

inductive Opcode where
  | inert (op : Inert)
  | ldarg | ldarga | starg | ldloc | ldloca | stloc
  | literal (kind : Literal)
  | dup | pop
  | call | callvirt | newobj | ret
  | br | brIf (onTrue : Bool) | compare (test : Comparison) | switch | leave
  | endfinally | rethrow | endfilter | throw
  | binary (op : BinaryOp) | unary (op : UnaryOp)
  | ldind (kind : ValueKind) | stind (kind : ValueKind)
  | ldobj | stobj | cpobj | initobj | cpblk | initblk
  | ldfld | ldflda | stfld | ldsfld | ldsflda | stsfld
  | retype (op : Retype) | unboxAny | token (op : Token) | inspect (op : Inspect)
  | newarr | ldelema | ldelem (kind : ValueKind) | stelem (kind : ValueKind)
  | short (form : ShortForm)
  /-- Tail jumps and calls through a function pointer: the callee is not named. -/
  | jmp | calli
  /-- A reserved escape byte. -/
  | escape (byte : Nat)
  /-- An undefined opcode value. -/
  | reserved (value : Nat)
deriving Repr, DecidableEq, Inhabited

namespace Opcode

/-- Opcodes without a value of their own. -/
def plain : List Opcode :=
  Inert.all.map inert
    ++ [ldarg, ldarga, starg, ldloc, ldloca, stloc] ++ Literal.all.map literal
    ++ [dup, pop, jmp, call, calli, callvirt, newobj, ret, br, brIf false, brIf true]
    ++ Comparison.all.map compare
    ++ [switch, leave, endfinally, rethrow, endfilter, throw]
    ++ BinaryOp.all.map binary ++ UnaryOp.plain.map unary
    ++ [ldobj, stobj, cpobj, initobj, cpblk, initblk, ldfld, ldflda, stfld, ldsfld, ldsflda,
      stsfld]
    ++ Retype.all.map retype ++ [unboxAny] ++ Token.all.map token ++ Inspect.all.map inspect
    ++ [newarr, ldelema] ++ ShortForm.plain.map short

def name : Opcode → String
  | inert op => op.name
  | ldarg => "Ldarg" | ldarga => "Ldarga" | starg => "Starg"
  | ldloc => "Ldloc" | ldloca => "Ldloca" | stloc => "Stloc"
  | literal kind => kind.name
  | dup => "Dup" | pop => "Pop"
  | call => "Call" | callvirt => "Callvirt" | newobj => "Newobj" | ret => "Ret"
  | br => "Br" | brIf onTrue => if onTrue then "Brtrue" else "Brfalse"
  | compare test => test.name | switch => "Switch" | leave => "Leave"
  | endfinally => "Endfinally" | rethrow => "Rethrow" | endfilter => "Endfilter"
  | throw => "Throw"
  | binary op => op.name | unary op => op.name
  | ldind k => "Ldind(" ++ k.name ++ ")" | stind k => "Stind(" ++ k.name ++ ")"
  | ldobj => "Ldobj" | stobj => "Stobj" | cpobj => "Cpobj" | initobj => "Initobj"
  | cpblk => "Cpblk" | initblk => "Initblk"
  | ldfld => "Ldfld" | ldflda => "Ldflda" | stfld => "Stfld"
  | ldsfld => "Ldsfld" | ldsflda => "Ldsflda" | stsfld => "Stsfld"
  | retype op => op.name | unboxAny => "UnboxAny" | token op => op.name | inspect op => op.name
  | newarr => "Newarr" | ldelema => "Ldelema"
  | ldelem k => "Ldelem(" ++ k.name ++ ")" | stelem k => "Stelem(" ++ k.name ++ ")"
  | short form => form.name
  | jmp => "Jmp" | calli => "Calli"
  | escape byte => "Prefix(" ++ toString byte ++ ")"
  | reserved value => "Reserved(" ++ toString value ++ ")"

def ofName? (s : String) : Option Opcode := plain.find? (·.name == s)

def isShort : Opcode → Bool
  | short _ => true
  | _ => false

end Opcode

end SinkTrace
