import SinkTrace.Bytecode.Body
import SinkTrace.CallStack
import SinkTrace.NameSet
import SinkTrace.Table

/-!
A loaded program: definitions by signature, call sites by target, implementations of virtual
methods, and which assemblies an assembly reaches. The closure of assembly references is kept
transitive with every reference that is added, so a query is a look-up.
-/

namespace SinkTrace

structure MethodDef where
  reference : MethodRef
  assembly : String
  module : String
  isPublic : Bool := false
  isVirtual : Bool := false
  isAbstract : Bool := false
  /-- Absent for abstract, external and native methods. -/
  body : Option Body := none
deriving Repr, DecidableEq, Inhabited

namespace MethodDef

def signature (d : MethodDef) : Signature := d.reference.signature

def hasBody (d : MethodDef) : Bool := d.body.isSome

/-- Without a body, and not because it is abstract. -/
def isNative (d : MethodDef) : Bool := d.body.isNone && !d.isAbstract

end MethodDef

structure CallSite where
  caller : Signature
  kind : CallKind
  assembly : String
  assemblyVersion : String
  /-- Base and interface methods that the target overrides. -/
  overrides : List Signature := []
deriving Repr, DecidableEq, Inhabited

structure Implementation where
  method : MethodRef
  assembly : String
deriving Repr, DecidableEq, Inhabited

/-- Keeps implementations of these types and in these assemblies; an absent set keeps all. -/
structure ImplementationFilter where
  createdTypes : Option NameSet := none
  assemblies : Option NameSet := none
deriving Repr, DecidableEq, Inhabited

def ImplementationFilter.accepts (f : ImplementationFilter) (declaring assembly : String) : Bool :=
  f.createdTypes.all (·.elem declaring) && f.assemblies.all (·.elem assembly)

structure Program where
  methods : Table Signature MethodDef := {}
  sites : Table Signature (List CallSite) := {}
  implementations : Table Signature (List Implementation) := {}
  references : Table String NameSet := {}
  skippedModules : NameSet := []
  /-- Bodies are stored as given, short forms included. -/
  keepShortForms : Bool := false
deriving Inhabited

namespace Program

def addMethod (p : Program) (d : MethodDef) : Program :=
  let stored := if p.keepShortForms then d else { d with body := d.body.map Body.normalize }
  { p with methods := p.methods.insert stored.signature stored }

def addCallSite (p : Program) (target : Signature) (site : CallSite) : Program :=
  { p with sites := p.sites.insert target ((p.sites.get? target).getD [] ++ [site]) }

/-- Registers `method` as an implementation of `base`; a method is registered once. -/
def addImplementation (p : Program) (base : Signature) (method : MethodRef) (assembly : String) :
    Program :=
  let known := (p.implementations.get? base).getD []
  let listed := if known.any (·.method == method) then known else known ++ [⟨method, assembly⟩]
  { p with implementations := p.implementations.insert base listed }

/-- Everything that reached `source`, and `source` itself, now reaches what `target` reaches. -/
def addReference (p : Program) (source target : String) : Program :=
  let reached := NameSet.insert ((p.references.get? target).getD []) target
  let withTarget := p.references.insert target reached
  let extended : Table String NameSet :=
    ⟨withTarget.entries.map fun (name, closure) =>
      (name, if name == source || closure.elem source then NameSet.union closure reached
        else closure)⟩
  let own := NameSet.union (NameSet.insert ((extended.get? source).getD []) source) reached
  { p with references := extended.insert source own }

def skipModule (p : Program) (module : String) : Program :=
  { p with skippedModules := p.skippedModules.insert module }

def method? (p : Program) (signature : Signature) : Option MethodDef := p.methods.get? signature

def callSites (p : Program) (target : Signature) : List CallSite :=
  (p.sites.get? target).getD []

def implementationsOf (p : Program) (base : Signature) (filter : ImplementationFilter) :
    List MethodRef :=
  (((p.implementations.get? base).getD []).filter
    fun i => filter.accepts i.method.declaring.name i.assembly).map Implementation.method

/-- What the assembly reaches, itself included; absent if no reference mentions it. -/
def reachable? (p : Program) (assembly : String) : Option NameSet := p.references.get? assembly

end Program

end SinkTrace
