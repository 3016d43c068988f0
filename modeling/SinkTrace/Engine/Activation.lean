import SinkTrace.Heap.Glue
import SinkTrace.Interpreter.Walk
import SinkTrace.Program
import SinkTrace.Summary.Fingerprint
import SinkTrace.Summary.Recursion

/-!
Activations: methods and virtual calls whose analysis has begun. Those that wait for a callee lie
below it, so a chain of calls is a stack of activations.
-/

namespace SinkTrace

/-- What a call is answered by. -/
inductive CallTarget where
  | method (definition : MethodDef)
  /-- Each of these implementations may be called. -/
  | implementations (methods : List MethodRef)
deriving Inhabited

/-- A call that needs the summary of its callee. -/
structure CallRequest where
  key : SummaryKey
  effect : CallEffect
  mode : GlueMode
  target : CallTarget
deriving Inhabited

/-- What is left to do in an activation. -/
inductive Work where
  | walk (interpreter : Interpreter)
  /-- Implementations to come, and how the summary of the next one is glued. -/
  | dispatch (remaining : List MethodRef) (mode : GlueMode)
deriving Inhabited

structure Activation where
  key : SummaryKey
  method : MethodRef
  /-- Keys from the entry point down to this activation. -/
  stack : CallStack
  context : Context
  work : Work
  target : CallTarget
  /-- The call that waits for the activation above. -/
  waiting : Option CallRequest := none
  /-- The lowest level of a recursion loop whose provisional answer was used here. -/
  dependency : Option Nat := none
  /-- Present while this activation heads a recursion loop. -/
  recursion : Option (RecursionLoop Fingerprint) := none
deriving Inhabited

namespace Activation

def start (key : SummaryKey) (method : MethodRef) (stack : CallStack) (target : CallTarget)
    (statics : Bool) : Except Failure Activation :=
  match target with
  | .method d =>
    match d.body with
    | none => .error (.missingBody d.signature)
    | some body => do
      let (walk, context) ←
        Interpreter.start d.reference body (Context.start d.reference body.locals statics)
      return { key, method, stack, context, work := .walk walk, target }
  | .implementations methods =>
    .ok { key, method, stack, context := Context.startDispatch method statics
          work := .dispatch methods .replace, target }

/-- A body is walked, rather than a virtual call dispatched. -/
def isWalk (a : Activation) : Bool :=
  match a.work with
  | .walk _ => true
  | .dispatch .. => false

/-- Notes that a provisional answer of the loop at this level was used. -/
def dependOn (a : Activation) (level : Nat) : Activation :=
  { a with dependency := some (a.dependency.elim level (min level)) }

/-- Makes the activation head a loop, or a loop that it heads larger. -/
def extendLoop (a : Activation) (participants : List SummaryKey) : Activation :=
  { a with recursion := some ((a.recursion.getD { head := a.key }).addParticipants participants) }

/-- The answer to a recursive call of this activation. -/
def provisional (a : Activation) : Summary :=
  (a.recursion.bind RecursionLoop.provisional).getD .empty

def setHeap (a : Activation) (h : Heap) : Activation := { a with context := a.context.setHeap h }

/-- The call of one implementation of a virtual method, with the formals handed on. -/
def implementationCall (a : Activation) (method : MethodRef) : CallEffect × Activation :=
  let (output, context) := a.context.returnEntity
  ({ kind := .call, method, parameters := context.formals, output, offset := 0 },
    { a with context })

end Activation

end SinkTrace
