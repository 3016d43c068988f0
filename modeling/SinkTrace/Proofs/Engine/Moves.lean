import Mathlib.Logic.Relation
import SinkTrace.Engine.Basic
import SinkTrace.Proofs.Interpreter.Results

/-!
What a step can do. The topmost activation first comes to a call or to its end; what becomes of
the stack then is one of six moves. Whatever is proved about all steps is proved by cases on them,
and about all runs by them and by the machine that a run begins with.
-/

namespace SinkTrace

namespace Activation

/-- The summary of an activation that has come to its end. -/
def summary (a : Activation) : Summary := .ofFrozen a.context.freeze a.stack

/-- Summaries that wait for the loop of this activation. -/
def pending (a : Activation) : List (SummaryKey × Summary) :=
  (a.recursion.map RecursionLoop.pending).getD []

/-- The iteration that a loop of this activation is in. -/
def iteration (a : Activation) : Nat := (a.recursion.map RecursionLoop.iteration).getD 1

end Activation

/-- The call that the walk stopped at. -/
def Interpreter.Pause.call? : Interpreter.Pause → Option CallEffect
  | .call e => some e
  | .finished | .failed _ => none

namespace Machine

/-- What the topmost activation comes to in a step. -/
inductive Outcome where
  | failed (failure : Failure) (ledger : Ledger)
  /-- A call that was answered without a summary. -/
  | answered (activation : Activation) (ledger : Ledger)
  /-- A call that needs a summary. -/
  | asks (request : CallRequest) (activation : Activation) (ledger : Ledger)
  | ends (activation : Activation) (ledger : Ledger)

def Outcome.ofCall : Option CallRequest × Activation × Ledger → Outcome
  | (none, a, l) => .answered a l
  | (some r, a, l) => .asks r a l

theorem Outcome.ofCall_ne_failed (x : Option CallRequest × Activation × Ledger)
    {failure : Failure} {l : Ledger} : Outcome.ofCall x ≠ .failed failure l := by
  obtain ⟨_ | r, x⟩ := x <;> exact nofun

theorem Outcome.ofCall_ne_ends (x : Option CallRequest × Activation × Ledger) {a : Activation}
    {l : Ledger} : Outcome.ofCall x ≠ .ends a l := by
  obtain ⟨_ | r, x⟩ := x <;> exact nofun

/-- An activation on which the walk or the dispatch has come to its end. -/
def Outcome.ofEnd (a : Activation) (l : Ledger) : Outcome := .ends (a.settle l).1 (a.settle l).2

/-- Takes an activation to its next call or to its end. -/
def advance (s : Setup) (a : Activation) (l : Ledger) : Outcome :=
  match a.work with
  | .dispatch [] _ => .ofEnd a l
  | .dispatch (method :: rest) mode =>
    .ofCall (Activation.dispatchConcrete s
      { (a.implementationCall method).2 with work := .dispatch rest .merge } l
      (a.implementationCall method).1 mode)
  | .walk w =>
    match w.step a.context with
    | (.failed failure, _, _) => .failed failure l
    | (.finished, w, c) =>
      .ofEnd { a with work := .walk w, context := c }
        (countInstructions a.context.instructions c l)
    | (.call e, w, c) =>
      let settled := { a with work := .walk w, context := c }.settle
        (countInstructions a.context.instructions c l)
      .ofCall (Activation.dispatch s settled.1 settled.2 e)

/-- The activation when its walk has come to a call, settled. -/
def settledAt (a : Activation) (l : Ledger) (w : Interpreter) (c : Context) : Activation × Ledger :=
  { a with work := .walk w, context := c }.settle (countInstructions a.context.instructions c l)

theorem advance_of_call {s : Setup} {a : Activation} {l : Ledger} {w w' : Interpreter}
    {c : Context} {e : CallEffect} (hw : a.work = .walk w)
    (hs : w.step a.context = (.call e, w', c)) :
    advance s a l =
      .ofCall (Activation.dispatch s (settledAt a l w' c).1 (settledAt a l w' c).2 e) := by
  unfold advance
  simp only [hw, hs, settledAt]

/-- What the stack does with the outcome. -/
def conclude (s : Setup) (below : List Activation) : Outcome → Turn
  | .failed failure l => .failed failure l
  | .answered a l => .running ⟨(a.settle l).1 :: below, (a.settle l).2⟩
  | .asks r a l => enter s r a below l
  | .ends a l => complete s a below l

theorem proceed_eq (s : Setup) (below : List Activation)
    (x : Option CallRequest × Activation × Ledger) :
    proceed s below x = conclude s below (.ofCall x) := by
  obtain ⟨request, a, l⟩ := x
  cases request <;> rfl

theorem step_eq (s : Setup) (a : Activation) (below : List Activation) (l : Ledger) :
    step s ⟨a :: below, l⟩ = conclude s below (advance s a l) := by
  unfold step advance
  simp only
  cases a.work with
  | dispatch remaining mode =>
    cases remaining with
    | nil => rfl
    | cons method rest => exact proceed_eq s below _
  | walk w =>
    simp only [proceed_eq]
    obtain ⟨pause, w', c⟩ := w.step a.context
    cases pause <;> rfl

/-- The state in which an activation has nothing left to do: no implementation is to come, or the
walk has come to its end. -/
inductive Rests (a : Activation) (l : Ledger) : Activation → Ledger → Prop where
  | dispatched {mode : GlueMode} (hw : a.work = .dispatch [] mode) : Rests a l a l
  | walked {w w' : Interpreter} {c : Context} (hw : a.work = .walk w)
    (hs : w.step a.context = (.finished, w', c)) :
    Rests a l { a with work := .walk w', context := c }
      (countInstructions a.context.instructions c l)

/-- How an activation comes to its next call or to its end. -/
inductive Comes (s : Setup) (a : Activation) (l : Ledger) : Outcome → Prop where
  | failed {w w' : Interpreter} {c : Context} {failure : Failure} (hw : a.work = .walk w)
    (hs : w.step a.context = (.failed failure, w', c)) : Comes s a l (.failed failure l)
  | rests {b : Activation} {k : Ledger} (hr : Rests a l b k) :
    Comes s a l (.ends (b.settle k).1 (b.settle k).2)
  /-- To the call of the next implementation. -/
  | implementation {method : MethodRef} {rest : List MethodRef} {mode : GlueMode} {o : Outcome}
    (hw : a.work = .dispatch (method :: rest) mode)
    (ho : .ofCall (Activation.dispatchConcrete s
      { (a.implementationCall method).2 with work := .dispatch rest .merge } l
      (a.implementationCall method).1 mode) = o) : Comes s a l o
  /-- To a call that the walk makes. -/
  | call {w w' : Interpreter} {c : Context} {e : CallEffect} {o : Outcome}
    (hw : a.work = .walk w) (hs : w.step a.context = (.call e, w', c))
    (ho : .ofCall (Activation.dispatch s (settledAt a l w' c).1 (settledAt a l w' c).2 e) = o) :
    Comes s a l o

theorem comes_of_advance {s : Setup} {a : Activation} {l : Ledger} {o : Outcome}
    (h : advance s a l = o) : Comes s a l o := by
  unfold advance at h
  split at h
  · exact h ▸ .rests (.dispatched ‹_›)
  · exact .implementation ‹_› h
  · rename_i w hw
    split at h
    · exact h ▸ .failed hw ‹_›
    · exact h ▸ .rests (.walked hw ‹_›)
    · exact .call hw ‹_› h

/-- An activation that ends is settled when it has nothing left to do. -/
theorem rests_of_ends {s : Setup} {a a' : Activation} {l l' : Ledger}
    (h : advance s a l = .ends a' l') :
    ∃ b k, Rests a l b k ∧ a' = (b.settle k).1 ∧ l' = (b.settle k).2 := by
  cases comes_of_advance h with
  | rests hr => exact ⟨_, _, hr, rfl, rfl⟩
  | implementation _ ho | call _ _ ho => exact absurd ho (Outcome.ofCall_ne_ends _)

/-- Whether an activation that heads a loop starts over at its end. -/
def startsOver (s : Setup) (a : Activation) (l : Ledger) (loop : RecursionLoop Fingerprint) :
    Bool :=
  !loop.isStable (a.summary.fingerprint l.findings.resolve) &&
    loop.iteration < s.config.maxRecursionIterations.toNat

/-- The moves of the stack. -/
inductive Move (s : Setup) : Machine → Machine → Prop where
  | answered {a a' : Activation} {below : List Activation} {l l' : Ledger}
    (ha : advance s a l = .answered a' l') :
    Move s ⟨a :: below, l⟩ ⟨(a'.settle l').1 :: below, (a'.settle l').2⟩
  /-- A summary is at hand. -/
  | served {a a' : Activation} {below : List Activation} {l l' k : Ledger} {r : CallRequest}
    {summary : Summary} {cache : Cache} (ha : advance s a l = .asks r a' l')
    (hg : l'.cache.get r.key = (some summary, cache))
    (hk : k = { l' with cache }.count fun s => { s with cacheHits := s.cacheHits + 1 }) :
    Move s ⟨a :: below, l⟩
      ⟨(answer a' k r summary false).1 :: below, (answer a' k r summary false).2⟩
  /-- The callee is on the stack; its provisional answer is used. -/
  | looped {a a' : Activation} {below : List Activation} {l l' : Ledger} {r : CallRequest}
    {cache : Cache} {level : Nat} {provisional : Summary} {m : Machine}
    (ha : advance s a l = .asks r a' l') (hg : l'.cache.get r.key = (none, cache))
    (hl : levelOf? r.key (a' :: below) = some level)
    (ho : openLoop level ⟨a' :: below, { l' with cache }⟩ = (provisional, m)) :
    Move s ⟨a :: below, l⟩ (m.onTop fun a l => answer a l r provisional true)
  | entered {a a' callee : Activation} {below : List Activation} {l l' : Ledger}
    {r : CallRequest} {cache : Cache} (ha : advance s a l = .asks r a' l')
    (hg : l'.cache.get r.key = (none, cache)) (hl : levelOf? r.key (a' :: below) = none)
    (hs : Activation.start r.key (requested r) (a'.stack.push r.key) r.target
      s.config.enableStaticFields = .ok callee) :
    Move s ⟨a :: below, l⟩
      ⟨callee :: { a' with waiting := some r } :: below, countWalk callee { l' with cache }⟩
  | restarted {a a' again : Activation} {below : List Activation} {l l' : Ledger}
    {loop : RecursionLoop Fingerprint} (ha : advance s a l = .ends a' l')
    (hr : a'.recursion = some loop) (hu : startsOver s a' l' loop = true)
    (hs : Activation.start a'.key a'.method a'.stack a'.target
      s.config.enableStaticFields = .ok again) :
    Move s ⟨a :: below, l⟩
      ⟨{ again with
          recursion := some (loop.advance a'.summary
            (a'.summary.fingerprint l'.findings.resolve))
          dependency := a'.dependency } :: below, countWalk again l'⟩
  | completed {a a' : Activation} {below : List Activation} {l l' : Ledger}
    (ha : advance s a l = .ends a' l')
    (hf : ∀ loop, a'.recursion = some loop → startsOver s a' l' loop = false) :
    Move s ⟨a :: below, l⟩
      (resume a'.summary
        (file (a'.pending ++ [(a'.key, a'.summary)]) a'.dependency ⟨below, l'⟩))

/-- The steps that fail: a walk fails, or an activation cannot begin. -/
inductive Fails (s : Setup) : Machine → Failure → Ledger → Prop where
  | walk {a : Activation} {below : List Activation} {l : Ledger} {w last : Interpreter}
    {c : Context} {failure : Failure} (hw : a.work = .walk w)
    (hs : w.step a.context = (.failed failure, last, c)) : Fails s ⟨a :: below, l⟩ failure l
  | entered {a a' : Activation} {below : List Activation} {l l' : Ledger} {r : CallRequest}
    {cache : Cache} {failure : Failure} (ha : advance s a l = .asks r a' l')
    (hs : Activation.start r.key (requested r) (a'.stack.push r.key) r.target
      s.config.enableStaticFields = .error failure) :
    Fails s ⟨a :: below, l⟩ failure { l' with cache }
  | restarted {a a' : Activation} {below : List Activation} {l l' : Ledger} {failure : Failure}
    (ha : advance s a l = .ends a' l')
    (hs : Activation.start a'.key a'.method a'.stack a'.target s.config.enableStaticFields =
      .error failure) : Fails s ⟨a :: below, l⟩ failure l'

/-- All that a step can come to. -/
inductive Turns (s : Setup) : Machine → Turn → Prop where
  | finished (l : Ledger) : Turns s ⟨[], l⟩ (.finished l)
  | running {m m' : Machine} (hm : Move s m m') : Turns s m (.running m')
  | failed {m : Machine} {failure : Failure} {l : Ledger} (hf : Fails s m failure l) :
    Turns s m (.failed failure l)

section

variable {s : Setup} {a a' : Activation} {below : List Activation} {l l' : Ledger}

theorem turns_enter {r : CallRequest} (ha : advance s a l = .asks r a' l') :
    Turns s ⟨a :: below, l⟩ (enter s r a' below l') := by
  unfold enter
  split
  · exact .running (.served ha ‹_› rfl)
  · rename_i cache hg
    split
    · exact .running (.looped ha hg ‹_› rfl)
    · rename_i hl
      unfold push
      split
      · exact .failed (.entered ha ‹_›)
      · exact .running (.entered ha hg hl ‹_›)

/-- An activation that does not start over is summarised for good. -/
theorem complete_eq (hf : ∀ loop, a.recursion = some loop → startsOver s a l loop = false) :
    complete s a below l = .running (resume a.summary
      (file (a.pending ++ [(a.key, a.summary)]) a.dependency ⟨below, l⟩)) := by
  unfold complete
  cases hr : a.recursion with
  | none =>
    have hp : a.pending = [] := by simp [Activation.pending, hr]
    rw [hp]
    rfl
  | some loop =>
    have hp : a.pending = loop.pending := by simp [Activation.pending, hr]
    have hu := hf loop hr
    unfold startsOver at hu
    rw [hp]
    simp only
    split
    · rename_i hover
      exact absurd hover (by rw [Activation.summary] at hu; rw [hu]; simp)
    · rfl

theorem complete_eq_restart {loop : RecursionLoop Fingerprint} (hr : a.recursion = some loop)
    (hu : startsOver s a l loop = true) : complete s a below l =
      restart s a (loop.advance a.summary (a.summary.fingerprint l.findings.resolve)) below l := by
  unfold complete
  rw [hr]
  exact if_pos hu

theorem turns_complete (ha : advance s a l = .ends a' l') :
    Turns s ⟨a :: below, l⟩ (complete s a' below l') := by
  by_cases hf : ∀ loop, a'.recursion = some loop → startsOver s a' l' loop = false
  · rw [complete_eq hf]
    exact .running (.completed ha hf)
  · obtain ⟨loop, hr, hu⟩ : ∃ loop, a'.recursion = some loop ∧ startsOver s a' l' loop = true := by
      simpa using hf
    rw [complete_eq_restart hr hu]
    unfold restart
    split
    · exact .failed (.restarted ha ‹_›)
    · exact .running (.restarted ha hr hu ‹_›)

end

theorem turns_of_step {s : Setup} {m : Machine} {t : Turn} (h : step s m = t) : Turns s m t := by
  subst h
  obtain ⟨_ | ⟨a, below⟩, l⟩ := m
  · exact .finished l
  rw [step_eq]
  cases ha : advance s a l with
  | failed failure l' =>
    cases comes_of_advance ha with
    | failed hw hs => exact .failed (.walk hw hs)
    | implementation _ ho | call _ _ ho => exact absurd ho (Outcome.ofCall_ne_failed _)
  | answered a' l' => exact .running (.answered ha)
  | asks r a' l' => exact turns_enter ha
  | ends a' l' => exact turns_complete ha

/-- Every step of a run that goes on is one of the moves. -/
theorem move_of_step {s : Setup} {m m' : Machine} (h : step s m = .running m') : Move s m m' := by
  cases turns_of_step h with
  | running hm => exact hm

/-! Several steps. -/

/-- The machines of a run. -/
def Reaches (s : Setup) : Machine → Machine → Prop :=
  Relation.ReflTransGen fun m m' => step s m = .running m'

/-- The machine after some steps, if the run goes on for so long. -/
def after (s : Setup) : Nat → Machine → Option Machine
  | 0, m => some m
  | n + 1, m =>
    match m.step s with
    | .running m => after s n m
    | _ => none

theorem reaches_of_after {s : Setup} {n : Nat} {m m' : Machine} (ha : after s n m = some m') :
    Reaches s m m' := by
  induction n generalizing m with
  | zero =>
    cases ha
    exact .refl
  | succ n ih =>
    unfold after at ha
    split at ha
    · rename_i hs
      exact .head hs (ih ha)
    · cases ha

/-- What the topmost walk comes to, and the activation and the ledger when it does. -/
def pause? (m : Machine) : Option (Interpreter.Pause × Activation × Ledger) := do
  let a ← m.activations.head?
  match a.work with
  | .walk w =>
    let (pause, w, context) := w.step a.context
    some (pause, { a with work := .walk w, context },
      countInstructions a.context.instructions context m.ledger)
  | .dispatch _ _ => none

theorem exists_of_pause? {m : Machine} {pause : Interpreter.Pause} {a' : Activation} {l' : Ledger}
    (h : m.pause? = some (pause, a', l')) :
    ∃ a below l w w' c, m = ⟨a :: below, l⟩ ∧ a.work = .walk w ∧
      w.step a.context = (pause, w', c) ∧ a' = { a with work := .walk w', context := c } ∧
      l' = countInstructions a.context.instructions c l := by
  obtain ⟨activations, l⟩ := m
  cases activations with
  | nil => cases h
  | cons a below =>
    cases hw : a.work with
    | dispatch =>
      rw [pause?] at h
      simp [hw] at h
    | walk w =>
      rw [pause?] at h
      simp only [List.head?_cons, hw, Option.bind_eq_bind, Option.bind_some, Option.some.injEq,
        Prod.mk.injEq] at h
      obtain ⟨rfl, rfl, rfl⟩ := h
      exact ⟨a, below, l, w, _, _, rfl, hw, rfl, rfl, rfl⟩

end Machine

namespace Engine

/-- The first machine has the entry point on its stack, with its inputs marked and settled. -/
theorem root_of_boot {s : Setup} {l : Ledger} {d : MethodDef} {required : List String}
    {first : Machine} (hb : boot s l d required = .ok first) :
    ∃ root, Activation.start ⟨.concrete, d.signature⟩ d.reference
        (CallStack.empty.push ⟨.concrete, d.signature⟩) (.method d) s.config.enableStaticFields =
          .ok root ∧
      first.activations = [((root.setHeap (markInputs required root.context d.reference)).settle
        (Machine.countWalk root l)).1] ∧
      first.ledger = ((root.setHeap (markInputs required root.context d.reference)).settle
        (Machine.countWalk root l)).2 := by
  unfold boot at hb
  obtain ⟨root, hs, hbooted⟩ := bind_ok hb
  cases hbooted
  exact ⟨root, hs, rfl, rfl⟩

/-- The machine after some steps of a run, if the run goes on for so long. -/
def machineAt? (e : Engine) (entry : EntryPoint) (n : Nat) : Option Machine := do
  let d ← entry? e.setup.program entry.method
  let first ← (boot (e.runSetup d) e.ledger d entry.required).toOption
  Machine.after (e.runSetup d) n first

theorem ok_of_toOption {ε α : Type} {x : Except ε α} {a : α} (h : x.toOption = some a) :
    x = .ok a := by
  cases x with
  | error => cases h
  | ok =>
    cases h
    rfl

theorem reaches_of_machineAt? {e : Engine} {entry : EntryPoint} {n : Nat} {m : Machine}
    (h : e.machineAt? entry n = some m) :
    ∃ d first, entry? e.setup.program entry.method = some d ∧
      boot (e.runSetup d) e.ledger d entry.required = .ok first ∧
      Machine.Reaches (e.runSetup d) first m := by
  obtain ⟨d, hd, h⟩ := Option.bind_eq_some_iff.mp h
  obtain ⟨first, hfirst, h⟩ := Option.bind_eq_some_iff.mp h
  exact ⟨d, first, hd, ok_of_toOption hfirst, Machine.reaches_of_after h⟩

end Engine

end SinkTrace
