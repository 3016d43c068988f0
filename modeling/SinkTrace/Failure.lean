import SinkTrace.Bytecode.Body
import SinkTrace.Config.Error

/-!
Why the analysis of an entry point is given up. A callee that cannot be resolved is no failure: it
is answered conservatively.
-/

namespace SinkTrace

/-- The operand an instruction asked for. -/
inductive Expected where
  | argument | argumentInRange | local | target | table | method | field | type
deriving Repr, DecidableEq, Inhabited

def Expected.text : Expected → String
  | .argument => "argument index"
  | .argumentInRange => "argument index in range"
  | .local => "local index"
  | .target => "branch target"
  | .table => "switch table"
  | .method => "method reference"
  | .field => "field reference"
  | .type => "type token"

inductive Failure where
  | unsupportedOpcode (opcode : Opcode) (offset : Offset) (method : Signature)
  | stackUnderflow (offset : Offset) (method : Signature)
  /-- Two paths reach one instruction with stacks of different depth. -/
  | stackDepthMismatch (left right : Nat)
  | invalidOperand (opcode : Opcode) (offset : Offset) (expected : Expected)
  | invalidBranchTarget (offset target : Offset)
  | missingBody (method : Signature)
  | engineUsed
  | config (cause : ConfigError)
  /-- A number became larger than a word. The program does not handle this, it stops. -/
  | overflow
deriving Repr, DecidableEq, Inhabited

namespace Failure

def message : Failure → String
  | unsupportedOpcode opcode offset method =>
    "Unsupported opcode " ++ opcode.name ++ " at " ++ offset.label ++ " in " ++ method
  | stackUnderflow offset method =>
    "Operand stack underflow at " ++ offset.label ++ " in " ++ method
  | stackDepthMismatch left right =>
    "Stack depth mismatch at merge point: " ++ toString left ++ " vs " ++ toString right
  | invalidOperand opcode offset expected =>
    "Invalid operand for " ++ opcode.name ++ " at " ++ offset.label ++ ": expected "
      ++ expected.text
  | invalidBranchTarget offset target =>
    "Branch at " ++ offset.label ++ " targets unknown offset " ++ target.label
  | missingBody method => "Method " ++ method ++ " has no body"
  | engineUsed =>
    "Engine instance already ran an analysis; create a fresh engine per entry point"
  | config cause => "Configuration error: " ++ cause.message
  | overflow => "attempt to add with overflow"

/-- The fault lies in the shape of the bytecode. -/
def isBytecode : Failure → Bool
  | unsupportedOpcode .. | stackUnderflow .. | stackDepthMismatch .. | invalidOperand ..
  | invalidBranchTarget .. => true
  | missingBody _ | engineUsed | config _ | overflow => false

end Failure

end SinkTrace
