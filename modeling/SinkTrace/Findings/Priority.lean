import SinkTrace.Metadata

/-!
Trigger calls that almost always mean code execution or the creation of arbitrary objects.
-/

namespace SinkTrace

/-- Methods by declaring type and name; overloads share an entry. -/
def highPriorityTriggers : List String :=
  ["System.Reflection.MethodBase::Invoke", "System.Reflection.MethodInfo::Invoke",
    "System.Reflection.ConstructorInfo::Invoke", "System.Reflection.PropertyInfo::SetValue",
    "System.Reflection.PropertyInfo::GetValue", "System.Reflection.FieldInfo::SetValue",
    "System.Type::InvokeMember", "System.Activator::CreateInstance",
    "System.AppDomain::CreateInstance", "System.AppDomain::CreateInstanceAndUnwrap",
    "System.Delegate::DynamicInvoke", "System.Delegate::DynamicInvokeImpl",
    "System.MulticastDelegate::DynamicInvokeImpl", "System.Reflection.Assembly::Load",
    "System.Reflection.Assembly::LoadFrom", "System.Reflection.Assembly::LoadFile",
    "System.Diagnostics.Process::Start",
    "System.Runtime.InteropServices.Marshal::GetDelegateForFunctionPointer"]

namespace Signature

/-- The entry point of a delegate of any type. -/
def isDelegateInvoke (s : Signature) : Bool :=
  (beforeTail? "::Invoke" s.qualifiedName).isSome
    || (beforeTail? "::BeginInvoke" s.qualifiedName).isSome

def isHighPriority (s : Signature) : Bool :=
  highPriorityTriggers.elem s.qualifiedName || s.isDelegateInvoke

end Signature

end SinkTrace
