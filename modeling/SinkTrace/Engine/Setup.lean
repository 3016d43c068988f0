import SinkTrace.Config.Basic
import SinkTrace.Program

/-!
What stays the same throughout a run.
-/

namespace SinkTrace

structure Setup where
  program : Program
  config : Config
  /-- Methods that count as external although they have a body. -/
  isExternal : Signature → Bool
  /-- Assemblies that virtual calls may be resolved in; absent if all may. -/
  scope : Option NameSet := none
deriving Inhabited

namespace Setup

def isSink (s : Setup) (signature : Signature) : Bool := signature == s.config.sensitiveSink

/-- Where virtual calls may lead, given the types constructed so far. -/
def filter (s : Setup) (createdTypes : NameSet) : ImplementationFilter :=
  ⟨if s.config.useCreatedTypes then some createdTypes else none, s.scope⟩

/-- The methods that a virtual call of `d` may lead to, its own body first. -/
def implementationsOf (s : Setup) (createdTypes : NameSet) (d : MethodDef) (called : Signature) :
    List MethodRef :=
  let filter := s.filter createdTypes
  let found := s.program.implementationsOf called filter
  if d.hasBody && filter.accepts d.reference.declaring.name d.assembly
      && !found.elem d.reference then d.reference :: found
  else found

end Setup

end SinkTrace
