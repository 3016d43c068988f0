import Mathlib.Data.List.Chain
import SinkTrace.Proofs.Engine.Executions
import SinkTrace.Proofs.Interpreter.CallSites

/-!
What the activations of a machine are about, apart from their heaps: what is being summarised, on
which stack, what is left to do, and which call waits. Settling, answering and opening loops leave
all of it alone but for a call that waits no longer.
-/

namespace SinkTrace

/-- What is left of the work when an activation comes to a call or to its end. -/
inductive Work.Progress : Work → Work → Prop where
  | walked {w w' : Interpreter} (hb : w'.flow.body = w.flow.body) : Progress (.walk w) (.walk w')
  | called (method : MethodRef) (rest : List MethodRef) (mode mode' : GlueMode) :
    Progress (.dispatch (method :: rest) mode) (.dispatch rest mode')
  | done (mode : GlueMode) : Progress (.dispatch [] mode) (.dispatch [] mode)

/-- The implementations that answer a virtual call. -/
def CallTarget.methods? : CallTarget → Option (List MethodRef)
  | .method _ => none
  | .implementations methods => some methods

theorem CallTarget.methods?_eq_some {target : CallTarget} {methods : List MethodRef} :
    target.methods? = some methods ↔ target = .implementations methods := by
  cases target <;> simp [methods?]

structure Errand where
  key : SummaryKey
  target : CallTarget
  stack : CallStack
  work : Work
  waiting : Option CallRequest

namespace Errand

/-- This was begun by the one below, for the call that waits there. -/
structure Answers (o below : Errand) : Prop where
  stack : o.stack = below.stack.push o.key
  call : ∀ r, below.waiting = some r → o.key = r.key ∧ o.target = r.target

/-- No call waits any longer. -/
def free (o : Errand) : Errand := { o with waiting := none }

/-- What has been done does not matter for what was begun. -/
theorem answers_cons {o o' : Errand} {os : List Errand} (h : (o :: os).IsChain Answers)
    (hk : o'.key = o.key) (ht : o'.target = o.target) (hs : o'.stack = o.stack) :
    (o' :: os).IsChain Answers := by
  obtain ⟨hfirst, hrest⟩ := List.isChain_cons.mp h
  refine List.isChain_cons.mpr ⟨fun below hb => ?_, hrest⟩
  obtain ⟨hstack, hcall⟩ := hfirst below hb
  constructor
  · rw [hs, hk, hstack]
  · rw [hk, ht]
    exact hcall

end Errand

def Activation.errand (a : Activation) : Errand :=
  ⟨a.key, a.target, a.stack, a.work, a.waiting⟩

namespace Machine

variable {s : Setup} {m : Machine} {a a' : Activation} {l l' : Ledger}

def errands (m : Machine) : List Errand := m.activations.map Activation.errand

theorem errand_answer (a : Activation) (l : Ledger) (r : CallRequest) (summary : Summary)
    (provisional : Bool) : (answer a l r summary provisional).1.errand = a.errand := by
  obtain ⟨⟨context, ha⟩, -⟩ := answer_shape a l r summary provisional
  rw [ha]
  rfl

theorem errands_openLoop (level : Nat) (m : Machine) :
    (openLoop level m).2.errands = m.errands :=
  map_openLoop (fun _ _ => rfl) (fun _ _ => rfl) level m

theorem errands_file (entries : List (SummaryKey × Summary)) (dependency : Option Nat)
    (m : Machine) : (file entries dependency m).errands = m.errands :=
  map_file (fun _ _ => rfl) (fun _ _ => rfl) entries dependency m

theorem errands_resume (summary : Summary) (m : Machine) :
    (resume summary m).errands = m.errands.modifyHead Errand.free := by
  obtain ⟨_ | ⟨a, below⟩, l⟩ := m
  · rfl
  · unfold resume onTop errands
    simp only [List.map_cons, List.modifyHead_cons, List.cons.injEq, and_true]
    split
    · rename_i hnone
      simp [Activation.errand, Errand.free, hnone]
    · rw [errand_answer]
      rfl

theorem progress_of_reached (hr : (advance s a l).reached = some (a', l')) :
    a.work.Progress a'.work := by
  have hcall : ∀ {b k x}, Activation.Carries s b k x →
      (Outcome.ofCall x).reached = some (a', l') → a'.work = b.work := by
    rintro b k ⟨_ | r, y⟩ hx hy <;>
    · obtain ⟨c, hc⟩ := hx.activation
      cases hy
      rw [hc]
  have hbody : ∀ {w w' : Interpreter} {pause : Interpreter.Pause} {c : Context},
      w.step a.context = (pause, w', c) →
      w'.flow.body = w.flow.body := by
    intro w w' pause c hs
    have hkept := w.body_step a.context
    rwa [hs] at hkept
  generalize ho : advance s a l = o at hr
  cases comes_of_advance ho with
  | failed => cases hr
  | rests hrests =>
    cases hr
    cases hrests with
    | @dispatched mode hw =>
      change a.work.Progress a.work
      rw [hw]
      exact .done mode
    | walked hw hs =>
      rw [hw]
      exact .walked (hbody hs)
  | implementation hw hx =>
    subst hx
    rw [hw, hcall (Activation.carries_dispatchConcrete _ _ _ _) hr]
    exact .called _ _ _ .merge
  | call hw hs hx =>
    subst hx
    rw [hw, hcall (Activation.carries_dispatch _ _ _) hr]
    exact .walked (hbody hs)

theorem reached_errand (hr : (advance s a l).reached = some (a', l')) :
    ∃ work, a.work.Progress work ∧ a'.errand = { a.errand with work } := by
  have hp := progress_of_reached hr
  obtain ⟨⟨context, work, rfl⟩, -⟩ := reached_shape hr
  exact ⟨work, hp, rfl⟩

/-- A dispatch that has come to its end has called all implementations. -/
theorem nil_of_ends (ha : advance s a l = .ends a' l') {rest : List MethodRef} {mode : GlueMode}
    (hw : a'.work = .dispatch rest mode) : rest = [] := by
  obtain ⟨b, k, hrests, rfl, -⟩ := rests_of_ends ha
  cases hrests with
  | dispatched h =>
    cases h.symm.trans hw
    rfl
  | walked _ _ => cases hw

/-- A new activation has all its work to do. -/
theorem errand_start {key : SummaryKey} {method : MethodRef} {stack : CallStack}
    {target : CallTarget} {statics : Bool}
    (hs : Activation.start key method stack target statics = .ok a) :
    a.errand = ⟨key, target, stack, a.work, none⟩ := by
  obtain ⟨hshape, -⟩ := Activation.start_shape hs
  rw [hshape]
  rfl

end Machine

end SinkTrace
