import SinkTrace.Findings.Basic
import SinkTrace.Json.Basic

/-!
Findings in JSON.
-/

namespace SinkTrace

def CallStack.toJson (s : CallStack) : Json := .list (fun k => .str k.text) s.toList

def Trigger.toJson (t : Trigger) : Json :=
  .obj [("signature", .str t.signature), ("call_stack", t.stack.toJson)]

def Source.toJson (s : Source) : Json :=
  .obj [("id", .nat s.id), ("method", .str s.method), ("forward_stack", s.forward.toJson),
    ("backward_stack", .list (fun k => .str k.text) s.backward),
    ("attack_triggers", .list Trigger.toJson s.triggers)]

/-- The members of the object. -/
def Findings.members (f : Findings) : List (String × Json) :=
  [("sources", .obj (f.sources.map fun s => (toString s.id, s.toJson))),
    ("has_pattern", .bool f.hasPattern), ("external_call_count", .nat f.externalCalls)]

def Findings.toJson (f : Findings) : Json := .obj f.members

end SinkTrace
