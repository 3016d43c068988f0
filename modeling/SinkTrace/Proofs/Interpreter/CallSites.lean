import SinkTrace.Proofs.Interpreter.Calls

/-!
Where calls come from: whenever a walk comes to a call, an instruction of its body makes it.
-/

namespace SinkTrace

/-- The instruction that makes calls of a kind. -/
def EffectKind.opcode : EffectKind → Opcode
  | .call => .call
  | .callvirt => .callvirt
  | .newobj => .newobj

/-- The body has an instruction that calls `m` in this way. -/
def Body.Calls (b : Body) (kind : EffectKind) (m : MethodRef) : Prop :=
  ∃ i ∈ b.code, i.opcode = kind.opcode ∧ i.operand = .method m

namespace Exec

variable {α β : Type} {P : α → Prop} {Q : β → Prop}

/-- Whatever the computation gives is of this kind. -/
def Ensures (P : α → Prop) (x : Exec α) : Prop := ∀ c a c', x c = .ok a c' → P a

theorem ensures_pure {a : α} (ha : P a) : Ensures P (pure a) := by
  intro c b c' he
  cases he
  exact ha

theorem ensures_throw (failure : Failure) : Ensures P (throw failure : Exec α) := by
  intro c a c' he
  cases he

theorem ensures_bind {x : Exec α} {f : α → Exec β} (hx : Ensures P x)
    (hf : ∀ a, P a → Ensures Q (f a)) : Ensures Q (x >>= f) := by
  intro c b c' he
  change EStateM.bind x f c = .ok b c' at he
  unfold EStateM.bind at he
  cases hc : x c with
  | ok a c₁ =>
    rw [hc] at he
    exact hf a (hx c a c₁ hc) c₁ b c' he
  | error failure c₁ =>
    rw [hc] at he
    cases he

/-- What goes before does not matter. -/
theorem ensures_after {x : Exec α} {f : α → Exec β} (hf : ∀ a, Ensures Q (f a)) :
    Ensures Q (x >>= f) :=
  @ensures_bind α β (fun _ => True) Q x f (fun _ _ _ _ => trivial) fun a _ => hf a

theorem ensures_ite {p : Prop} [Decidable p] {x y : Exec α} (hx : Ensures P x)
    (hy : Ensures P y) : Ensures P (if p then x else y) := by
  split
  · exact hx
  · exact hy

end Exec

/-- The flow makes no call but one by this instruction. -/
def Flow.CallsBy (i : Instruction) : Flow → Prop
  | .call e _ => i.opcode = e.kind.opcode ∧ i.operand = .method e.method
  | _ => True

open Exec

/-! Ways of going on that are no calls. -/

theorem Exec.callsBy_next (i : Instruction) (frame : Frame) :
    Ensures (Flow.CallsBy i) (pure (.next frame)) := ensures_pure trivial

theorem Exec.callsBy_stop (i : Instruction) : Ensures (Flow.CallsBy i) (pure .stop) :=
  ensures_pure trivial

theorem Exec.callsBy_branch (i : Instruction) (targets : List Offset) (conditional : Bool)
    (frame : Frame) : Ensures (Flow.CallsBy i) (pure (.branch targets conditional frame)) :=
  ensures_pure trivial

theorem Exec.callsBy_pushFake (i : Instruction) (frame : Frame) :
    Ensures (Flow.CallsBy i) (pushFake frame) := ensures_after fun _ => callsBy_next i _

theorem Exec.callsBy_pushEntity (i : Instruction) (frame : Frame) (e : EntityId) :
    Ensures (Flow.CallsBy i) (pushEntity frame e) := ensures_after fun _ => callsBy_next i _

theorem Exec.callsBy_pushTyped (i : Instruction) (frame : Frame) (type : TypeRef)
    (slot : SlotId) : Ensures (Flow.CallsBy i) (pushTyped frame type slot) :=
  ensures_ite (callsBy_pushFake i frame) (callsBy_next i _)

theorem Site.ensures_methodRef (s : Site) :
    Ensures (fun m => s.instruction.operand = .method m) s.methodRef := by
  unfold methodRef
  split
  · rename_i m hm
    exact ensures_pure hm
  · exact ensures_throw _

theorem Site.callsBy_call (s : Site) {kind : EffectKind} (frame : Frame)
    (hk : s.instruction.opcode = kind.opcode) :
    Ensures (Flow.CallsBy s.instruction) (s.call kind frame) := by
  refine ensures_bind s.ensures_methodRef fun m hm => ?_
  refine ensures_after fun _ => ensures_after fun _ => ensures_after fun _ => ?_
  refine ensures_ite (ensures_after fun _ => ensures_pure ⟨hk, hm⟩) ?_
  exact ensures_ite (ensures_after fun _ => ensures_pure ⟨hk, hm⟩) (ensures_pure ⟨hk, hm⟩)

theorem callsBy_execute (m : MethodRef) (straight : Bool) (i : Instruction) (frame : Frame) :
    Ensures (Flow.CallsBy i) (execute m straight i frame) := by
  unfold execute
  simp only
  -- Three instructions are calls, and no other one ends in a call.
  split
  all_goals
    repeat' first
      | with_reducible exact callsBy_next i _
      | with_reducible exact callsBy_stop i
      | with_reducible exact callsBy_branch i _ _ _
      | with_reducible exact ensures_throw _
      | with_reducible exact callsBy_pushFake i _
      | with_reducible exact callsBy_pushEntity i _ _
      | with_reducible exact callsBy_pushTyped i _ _ _
      | with_reducible refine ensures_after fun _ => ?_
      | with_reducible refine ensures_ite ?_ ?_
      | with_reducible refine Site.callsBy_call ⟨m.signature, i⟩ frame ?_
      | assumption
      | split

namespace Interpreter

variable {w next w' : Interpreter} {c c' : Context} {e : CallEffect}

theorem calls_of_effect (h : w.tick c = .effect e next c') :
    w.flow.body.Calls e.kind e.method := by
  obtain ⟨i, frame, store, after, he, -⟩ := executes_of_effect h
  obtain ⟨hop, hm⟩ := callsBy_execute _ _ _ _ _ _ _ he.result
  exact ⟨i, Array.mem_of_getElem? he.code, hop, hm⟩

/-- Every call of a walk is made by its body. -/
theorem calls_of_step (h : w.step c = (.call e, w', c')) :
    w.flow.body.Calls e.kind e.method := by
  fun_induction step w c with
  | case1 w c next c₁ ht ih =>
    have hbody := body_tick w c
    rw [ht] at hbody
    exact hbody ▸ ih h
  | case2 w c effect next c₁ ht =>
    cases h
    exact calls_of_effect ht
  | case3 => cases h
  | case4 => cases h

theorem body_step (w : Interpreter) (c : Context) : (w.step c).2.1.flow.body = w.flow.body :=
  step_keeps (P := fun next _ => next.flow.body = w.flow.body)
    (fun next c h => (body_tick next c).trans h) rfl

end Interpreter

end SinkTrace
