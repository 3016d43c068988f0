/-!
Types, methods and fields as a call site names them. A method's signature is one text,
`Return Declaring::Name(P1,P2)`, so two references to the same method have the same signature.
-/

namespace SinkTrace

abbrev Signature := String

abbrev FieldName := String

/-- The text before `tail`, if the text ends in it. -/
def beforeTail? (tail text : String) : Option String :=
  if tail.toList <:+ text.toList then
    some (String.ofList (text.toList.take (text.length - tail.length)))
  else none

structure TypeRef where
  name : String
  /-- Values of the type are copied on assignment; otherwise they are shared. -/
  isValue : Bool := false
deriving Repr, DecidableEq, Inhabited, Hashable

namespace TypeRef

def void : TypeRef := ⟨"System.Void", true⟩

def isVoid (t : TypeRef) : Bool := t.name == "System.Void"

/-- A managed pointer, as for `ref` and `out` parameters. -/
def isByRef (t : TypeRef) : Bool := (beforeTail? "&" t.name).isSome

def isArray (t : TypeRef) : Bool := (beforeTail? "[]" t.name).isSome

/-- The type behind a managed pointer or array, and the type itself otherwise. -/
def element (t : TypeRef) : TypeRef :=
  match beforeTail? "&" t.name with
  | some inner => ⟨inner, t.isValue⟩
  | none =>
    match beforeTail? "[]" t.name with
    | some inner => ⟨inner, false⟩
    | none => t

def byRef (t : TypeRef) : TypeRef := { t with name := t.name ++ "&" }

/-- Names of the types whose values hold no object graph. -/
def simpleNames : List String :=
  ["System.Void", "System.Boolean", "System.Char", "System.SByte", "System.Byte", "System.Int16",
    "System.UInt16", "System.Int32", "System.UInt32", "System.Int64", "System.UInt64",
    "System.IntPtr", "System.UIntPtr", "System.Single", "System.Double", "System.Decimal",
    "System.String", "System.DateTime"]

/-- Primitive, string or date, also behind one managed pointer. -/
def isSimple (t : TypeRef) : Bool :=
  simpleNames.contains ((beforeTail? "&" t.name).getD t.name)

end TypeRef

structure MethodRef where
  declaring : TypeRef
  name : String
  parameters : List TypeRef
  result : TypeRef
  /-- An implicit `this` precedes the parameters. -/
  hasThis : Bool
deriving Repr, DecidableEq, Inhabited

namespace MethodRef

def signature (m : MethodRef) : Signature :=
  m.result.name ++ " " ++ m.declaring.name ++ "::" ++ m.name ++ "("
    ++ ",".intercalate (m.parameters.map TypeRef.name) ++ ")"

def isConstructor (m : MethodRef) : Bool := m.name == ".ctor"

def returnsValue (m : MethodRef) : Bool := !m.result.isVoid

/-- The type of `this`: a value type receives itself by reference. -/
def thisType (m : MethodRef) : TypeRef :=
  if m.declaring.isValue then m.declaring.byRef else m.declaring

/-- Parameter types with `this` first. -/
def formals (m : MethodRef) : List TypeRef :=
  if m.hasThis then m.thisType :: m.parameters else m.parameters

def formalCount (m : MethodRef) : Nat := m.parameters.length + if m.hasThis then 1 else 0

theorem length_formals (m : MethodRef) : m.formals.length = m.formalCount := by
  unfold formals formalCount
  split <;> rfl

end MethodRef

namespace Signature

/-- The `Declaring::Name` part: no return type, no parameters. -/
def qualifiedName (s : Signature) : String :=
  let head := s.toList.takeWhile (· != '(')
  String.ofList (head.reverse.takeWhile (· != ' ')).reverse

end Signature

structure FieldRef where
  declaring : TypeRef
  name : String
  type : TypeRef
deriving Repr, DecidableEq, Inhabited

def FieldRef.key (f : FieldRef) : FieldName := f.declaring.name ++ "::" ++ f.name

/-- The one cell that stands for every element of an array. -/
def elementField : FieldName := "[]"

end SinkTrace
