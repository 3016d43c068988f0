import SinkTrace.Heap.Entity

/-!
What the interpreter hands out at a call: it never looks into a callee.
-/

namespace SinkTrace

inductive EffectKind where
  | call
  | callvirt
  /-- Parameter 0 is the new object, which is also the output. -/
  | newobj
deriving Repr, DecidableEq, Inhabited

structure CallEffect where
  kind : EffectKind
  method : MethodRef
  /-- One for each formal, `this` first; absent where the value is not symbolic. -/
  parameters : List (Option EntityId)
  /-- A new entity for the return value, or the new object. -/
  output : Option EntityId
  offset : Nat
deriving Repr, DecidableEq, Inhabited

namespace CallEffect

def signature (e : CallEffect) : Signature := e.method.signature

def isConstructor (e : CallEffect) : Bool := e.method.isConstructor

/-- What receives the result: the return value, and `this` of a constructor. -/
def outputs (e : CallEffect) : List EntityId :=
  if e.isConstructor then (e.parameters.head?.join).toList.foldl addNew e.output.toList
  else e.output.toList

/-- The symbolic parameters; an object under construction is not one of them. -/
def inputs (e : CallEffect) : List EntityId :=
  (if e.kind = .newobj then e.parameters.drop 1 else e.parameters).filterMap id

/-- Parameters passed by reference, apart from the `this` of a value type. -/
def byRefParameters (e : CallEffect) : List EntityId :=
  let valueThis := e.method.hasThis && e.method.declaring.isValue
  let pairs := (e.parameters.zip e.method.formals).zipIdx
  pairs.filterMap fun ((p, t), i) => if t.isByRef && !(i == 0 && valueThis) then p else none

/-- Everything the callee may write its result to. -/
def receivers (e : CallEffect) : List EntityId := e.byRefParameters.foldl addNew e.outputs

end CallEffect

end SinkTrace
