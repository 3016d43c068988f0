import SinkTrace.Proofs.Interpreter.Edits
import SinkTrace.Proofs.Interpreter.StackEffect

/-!
What one tick of a walk can do, in terms of the frames that it holds: those that wait at an index,
and the one it has arrived with at the cursor. Everything else about walks is derived from this.
-/

namespace SinkTrace

theorem Store.length_unionStacks (s : Store) (a b : Frame) :
    (s.unionStacks a b).1.length = min a.length b.length := by
  fun_induction unionStacks s a b with
  | case1 a as b bs rest s₁ hrest c s₂ hunion ih =>
    rw [hrest] at ih
    simp only [List.length_cons, ih]
    omega
  | case2 as bs hnone =>
    cases as with
    | nil => simp
    | cons a as =>
      cases bs with
      | nil => simp
      | cons b bs => exact (hnone a as b bs rfl rfl).elim

theorem Store.joinFrames_ok {s s' : Store} {a b joined : Frame}
    (h : s.joinFrames a b = .ok (joined, s')) :
    joined.length = a.length ∧ a.length = b.length := by
  unfold joinFrames at h
  split at h
  · rename_i he
    have hlength := length_unionStacks s a b
    rw [Except.ok.inj h, he, Nat.min_self] at hlength
    exact ⟨hlength.trans he.symm, he⟩
  · cases h

theorem Store.joinFrames_error {s : Store} {a b : Frame} {failure : Failure}
    (h : s.joinFrames a b = .error failure) : a.length ≠ b.length := by
  unfold joinFrames at h
  split at h
  · cases h
  · assumption

theorem Store.joinFrames_ofDepth {s : Store} {a b : Frame} {failure : Failure}
    (h : s.joinFrames a b = .error failure) : failure.OfDepth := by
  unfold joinFrames at h
  split at h
  · cases h
  · cases h
    trivial

namespace ControlFlow

/-- The frame waits at the index. -/
def Waits (f : ControlFlow) (index : Nat) (frame : Frame) : Prop :=
  f.waiting[index]? = some (some frame)

variable {f f' : ControlFlow} {s s' : Store} {index i : Nat} {frame other : Frame}
  {indices : List Nat} {failure : Failure}

theorem isWaiting_iff : f.isWaiting index = true ↔ ∃ frame, f.Waits index frame := by
  simp [isWaiting, Waits, Option.isSome_iff_exists, Option.join_eq_some_iff]

theorem take_fst : (f.take index).1 = some frame ↔ f.Waits index frame := by
  simp [take, Waits, Option.join_eq_some_iff]

theorem waits_setWaiting {kept : Option Frame} : (f.setWaiting index kept).Waits i other ↔
    if i = index then kept = some other ∧ index < f.waiting.size else f.Waits i other := by
  unfold Waits setWaiting
  rw [Array.getElem?_setIfInBounds]
  grind

theorem waits_take : (f.take index).2.Waits i other ↔ i ≠ index ∧ f.Waits i other := by
  rw [take, waits_setWaiting]
  grind

theorem waiting_lt (h : f.Waits i other) : i < f.waiting.size :=
  (Array.getElem?_eq_some_iff.mp h).1

theorem size_setWaiting (f : ControlFlow) (index : Nat) (kept : Option Frame) :
    (f.setWaiting index kept).waiting.size = f.waiting.size := by
  simp [setWaiting]

theorem size_take (f : ControlFlow) (index : Nat) :
    (f.take index).2.waiting.size = f.waiting.size := f.size_setWaiting index none

/-- `f'` is `f` with a frame of this depth left at the indices, joined with what waited there. -/
structure Parks (depth : Nat) (indices : List Nat) (f f' : ControlFlow) : Prop where
  body : f'.body = f.body
  taken : f'.taken = f.taken
  size : f'.waiting.size = f.waiting.size
  source : ∀ {i other}, f'.Waits i other → f.Waits i other ∨ i ∈ indices ∧ other.length = depth
  keeps : ∀ {i other}, f.Waits i other → ∃ other, f'.Waits i other
  parked : ∀ {i}, i ∈ indices → i < f.waiting.size → ∃ other, f'.Waits i other

theorem parks_nil (depth : Nat) (f : ControlFlow) : Parks depth [] f f :=
  ⟨rfl, rfl, rfl, .inl, fun h => ⟨_, h⟩, nofun⟩

theorem parks_setWaiting (f : ControlFlow) (index : Nat) (frame : Frame) :
    Parks frame.length [index] f (f.setWaiting index (some frame)) where
  body := rfl
  taken := rfl
  size := f.size_setWaiting index _
  source h := by
    rw [waits_setWaiting] at h
    split at h
    · cases h.1
      exact .inr ⟨by simp [*], rfl⟩
    · exact .inl h
  keeps {i other} h := by
    by_cases hi : i = index
    · exact ⟨frame, waits_setWaiting.mpr (by simp [hi, hi ▸ waiting_lt h])⟩
    · exact ⟨other, waits_setWaiting.mpr (by simp [hi, h])⟩
  parked hi hlt := by
    cases List.mem_singleton.mp hi
    exact ⟨frame, waits_setWaiting.mpr (by simp [hlt])⟩

theorem Parks.trans {f'' : ControlFlow} {depth : Nat} {more : List Nat}
    (h₁ : Parks depth indices f f') (h₂ : Parks depth more f' f'') :
    Parks depth (indices ++ more) f f'' where
  body := h₂.body.trans h₁.body
  taken := h₂.taken.trans h₁.taken
  size := h₂.size.trans h₁.size
  source h := by
    rcases h₂.source h with h | ⟨hi, hl⟩
    · exact (h₁.source h).imp_right (And.imp_left (List.mem_append_left _))
    · exact .inr ⟨List.mem_append_right _ hi, hl⟩
  keeps h := (h₁.keeps h).elim fun _ h => h₂.keeps h
  parked hi hlt := by
    rcases List.mem_append.mp hi with hi | hi
    · exact (h₁.parked hi hlt).elim fun _ h => h₂.keeps h
    · exact h₂.parked hi (h₁.size ▸ hlt)

theorem parks_enqueue (h : f.enqueue s index frame = (none, f', s')) :
    Parks frame.length [index] f f' := by
  -- what waited is taken out first, and does not wait any longer when the join is put there
  have htwice : ∀ joined : Frame, (f.take index).2.setWaiting index (some joined) =
      f.setWaiting index (some joined) := by
    intro joined
    simp [take, setWaiting]
  cases enqueues_of_enqueue h with
  | first =>
    rw [htwice]
    exact parks_setWaiting f index frame
  | @joins existing joined _ _ hjoin =>
    obtain ⟨hl, hsame⟩ := Store.joinFrames_ok hjoin
    rw [htwice, ← hsame, ← hl]
    exact parks_setWaiting f index joined

theorem enqueue_fails (h : f.enqueue s index frame = (some failure, f', s')) :
    ∃ existing, f.Waits index existing ∧ existing.length ≠ frame.length := by
  cases enqueues_of_enqueue h with
  | torn hsome hjoin => exact ⟨_, take_fst.mp hsome, Store.joinFrames_error hjoin⟩

theorem parks_enqueueAll (h : f.enqueueAll s frame indices = (none, f', s')) :
    Parks frame.length indices f f' := by
  induction indices generalizing f s with
  | nil =>
    cases h
    exact parks_nil _ _
  | cons index indices ih =>
    unfold enqueueAll at h
    split at h
    · cases h
    · rename_i he
      exact (parks_enqueue he).trans (ih h)

/-- A frame of another depth waited there before. -/
theorem enqueueAll_fails (h : f.enqueueAll s frame indices = (some failure, f', s')) :
    ∃ i ∈ indices, ∃ existing, f.Waits i existing ∧ existing.length ≠ frame.length := by
  induction indices generalizing f s with
  | nil => cases h
  | cons index indices ih =>
    unfold enqueueAll at h
    split at h
    · rename_i he
      exact ⟨index, List.mem_cons_self .., enqueue_fails he⟩
    · rename_i he
      obtain ⟨i, hi, existing, hw, hne⟩ := ih h
      rcases (parks_enqueue he).source hw with hw | ⟨_, hl⟩
      · exact ⟨i, List.mem_cons_of_mem _ hi, existing, hw, hne⟩
      · exact absurd hl hne

theorem enqueue_ofDepth (h : f.enqueue s index frame = (some failure, f', s')) :
    failure.OfDepth := by
  cases enqueues_of_enqueue h with
  | torn _ hjoin => exact Store.joinFrames_ofDepth hjoin

theorem enqueueAll_ofDepth (h : f.enqueueAll s frame indices = (some failure, f', s')) :
    failure.OfDepth := by
  induction indices generalizing f s with
  | nil => cases h
  | cons index indices ih =>
    unfold enqueueAll at h
    split at h
    · rename_i he
      cases h
      exact enqueue_ofDepth he
    · exact ih h

end ControlFlow

namespace Interpreter

variable {w next : Interpreter} {c c' : Context} {failure : Failure} {frame : Frame}

/-- The frame waits at the index, or the walk has arrived there with it. -/
def Holds (w : Interpreter) (index : Nat) (frame : Frame) : Prop :=
  w.flow.Waits index frame ∨
    index = w.cursor ∧ w.cursor < w.flow.body.size ∧ w.current = some frame

/-- The walk runs the instruction at the cursor, since a path reaches it and there is room to count
it. -/
def runs (w : Interpreter) (c : Context) : Bool :=
  match w.flow.body.code[w.cursor]?, joinPaths c.store w.current (w.flow.take w.cursor).1 with
  | some _, .ok (some _, _) => c.instructions != largestWord
  | _, _ => false

theorem joinPaths_some {s s' : Store} {current incoming : Option Frame}
    (h : joinPaths s current incoming = .ok (some frame, s')) :
    ∃ held : Frame, (current = some held ∨ incoming = some held) ∧
      held.length = frame.length := by
  cases joinsPaths_of_joinPaths h with
  | @both a b _ _ hj => exact ⟨a, .inl rfl, (Store.joinFrames_ok hj).1.symm⟩
  | left => exact ⟨frame, .inl rfl, rfl⟩
  | right => exact ⟨frame, .inr rfl, rfl⟩

theorem joinPaths_none {s s' : Store} {current incoming : Option Frame}
    (h : joinPaths s current incoming = .ok (none, s')) : current = none ∧ incoming = none := by
  cases joinsPaths_of_joinPaths h with
  | left | right => exact ⟨rfl, rfl⟩

theorem joinPaths_fails {s : Store} {current incoming : Option Frame}
    (h : joinPaths s current incoming = .error failure) :
    ∃ a b : Frame, current = some a ∧ incoming = some b ∧ a.length ≠ b.length := by
  obtain ⟨a, b, hc, hi, hj⟩ := frames_of_joinPaths h
  exact ⟨a, b, hc, hi, Store.joinFrames_error hj⟩

theorem joinPaths_ofDepth {s : Store} {current incoming : Option Frame}
    (h : joinPaths s current incoming = .error failure) : failure.OfDepth := by
  obtain ⟨a, b, -, -, hj⟩ := frames_of_joinPaths h
  exact Store.joinFrames_ofDepth hj

/-- A branch fails for the depth of the stack, or for a target that does not exist. -/
theorem branch_fails_cases {offset : Offset} {targets : List Offset} {conditional : Bool}
    (h : w.branch c offset targets conditional frame = .failed failure next c') :
    failure.OfDepth ∨ ∃ target,
      (Plan.ofBranch w.flow.body w.cursor w.flow.taken targets).unknown = some target ∧
        failure = .invalidBranchTarget offset target := by
  cases branches_of_branch h with
  | torn _ _ _ hparked => exact .inl (ControlFlow.enqueueAll_ofDepth hparked)
  | lost hplan hunknown => exact .inr ⟨_, hplan ▸ hunknown, rfl⟩

/-- Control arrives at the instruction `i` at the cursor with a frame of some depth. -/
structure Arrives (w : Interpreter) (i : Instruction) (depth : Nat) : Prop where
  code : w.flow.body.code[w.cursor]? = some i
  arrived : ∃ frame, w.Holds w.cursor frame ∧ frame.length = depth

/-- The frame in which all paths that arrive are joined was held before, up to joins. -/
theorem arrives_of_joined {i : Instruction} {store : Store}
    (hcode : w.flow.body.code[w.cursor]? = some i)
    (hjoin : joinPaths c.store w.current (w.flow.take w.cursor).1 = .ok (some frame, store)) :
    Arrives w i frame.length := by
  obtain ⟨held, hc | hi, hl⟩ := joinPaths_some hjoin
  · exact ⟨hcode, held, .inr ⟨rfl, (Array.getElem?_eq_some_iff.mp hcode).1, hc⟩, hl⟩
  · exact ⟨hcode, held, .inl (ControlFlow.take_fst.mp hi), hl⟩

section

variable {i : Instruction} {store : Store} {result : EStateM.Result Failure Context Flow}
  (he : Executes w c i frame store result)

include he

theorem Executes.arrives : Arrives w i frame.length := arrives_of_joined he.code he.joined

theorem Executes.runs : w.runs c = true := by
  unfold Interpreter.runs
  rw [he.code, he.joined]
  exact bne_iff_ne.mpr he.room

theorem Executes.counted : (Exec.context result).instructions = c.instructions + 1 :=
  he.worked.instructions

end

theorem executes_of_runs (h : w.runs c = true) : ∃ i frame store, Executes w c i frame store
    (execute w.method ((w.flow.take w.cursor).2.isStraight w.cursor) i frame
      { c with store, instructions := c.instructions + 1 }) := by
  unfold Interpreter.runs at h
  split at h
  · exact ⟨_, _, _, ‹_›, ‹_›, bne_iff_ne.mp h, rfl⟩
  · cases h

theorem Executes.suits {i : Instruction} {store : Store} {flow : Flow}
    (he : Executes w c i frame store (.ok flow c')) :
    Flow.Suits w.method i frame.length flow := by
  have hmeets := meets_execute w.method ((w.flow.take w.cursor).2.isStraight w.cursor) i frame
    { c with store, instructions := c.instructions + 1 }
  rwa [he.result] at hmeets

theorem Executes.lacks {i : Instruction} {store : Store}
    (he : Executes w c i frame store (.error failure c')) :
    i.Lacks w.method frame.length failure := by
  have hmeets := meets_execute w.method ((w.flow.take w.cursor).2.isStraight w.cursor) i frame
    { c with store, instructions := c.instructions + 1 }
  rwa [he.result] at hmeets

/-- All that a tick can do. It comes to the end, finds frames that do not fit together, finds no
frame at all, has no room to count the instruction, or runs it and counts it. -/
inductive Does (w : Interpreter) (c : Context) : Bool → Tick → Prop where
  | done (hend : w.flow.body.size ≤ w.cursor) :
    Does w c false (.done { w with current := none, finished := true } c)
  | torn {i : Instruction} {a b : Frame} {failure : Failure}
    (hcode : w.flow.body.code[w.cursor]? = some i) (ha : w.Holds w.cursor a)
    (hb : w.Holds w.cursor b) (hne : a.length ≠ b.length) (hdepth : failure.OfDepth) :
    Does w c false (.failed failure w.cleared c)
  | skip (hin : w.cursor < w.flow.body.size) (hnone : ∀ frame, ¬ w.Holds w.cursor frame) :
    Does w c false (.more (w.cleared.advance none) c)
  | full {i : Instruction} {depth : Nat} {store : Store} (ha : Arrives w i depth)
    (hfull : c.instructions = largestWord) :
    Does w c false (.failed .overflow w.cleared { c with store })
  | fail {i : Instruction} {depth : Nat} {failure : Failure} {c' : Context}
    (ha : Arrives w i depth) (hcount : c'.instructions = c.instructions + 1)
    (hlacks : i.Lacks w.method depth failure) : Does w c true (.failed failure w.cleared c')
  | next {i : Instruction} {depth : Nat} {frame : Frame} {c' : Context}
    (ha : Arrives w i depth) (hcount : c'.instructions = c.instructions + 1)
    (hsuits : Flow.Suits w.method i depth (.next frame)) :
    Does w c true (.more (w.cleared.advance (some frame)) c')
  | stop {i : Instruction} {depth : Nat} {c' : Context}
    (ha : Arrives w i depth) (hcount : c'.instructions = c.instructions + 1)
    (hsuits : Flow.Suits w.method i depth .stop) :
    Does w c true (.more (w.cleared.advance none) c')
  | call {i : Instruction} {depth : Nat} {e : CallEffect} {frame : Frame} {c' : Context}
    (ha : Arrives w i depth) (hcount : c'.instructions = c.instructions + 1)
    (hsuits : Flow.Suits w.method i depth (.call e frame)) :
    Does w c true (.effect e (w.cleared.advance (some frame)) c')
  | branch {i : Instruction} {depth : Nat} {targets : List Offset} {conditional : Bool}
    {frame : Frame} {c' : Context}
    (ha : Arrives w i depth) (hcount : c'.instructions = c.instructions + 1)
    (hsuits : Flow.Suits w.method i depth (.branch targets conditional frame)) :
    Does w c true (w.cleared.branch c' i.offset targets conditional frame)

theorem does_tick (w : Interpreter) (c : Context) : Does w c (w.runs c) (w.tick c) := by
  generalize h : w.tick c = t
  cases ticks_of_tick h with
  | done hend =>
    have hruns : w.runs c = false := by rw [runs, hend]
    exact hruns ▸ .done (Array.getElem?_eq_none_iff.mp hend)
  | torn hcode hj =>
    have hruns : w.runs c = false := by rw [runs, hcode, hj]
    have hin : w.cursor < w.flow.body.size := (Array.getElem?_eq_some_iff.mp hcode).1
    obtain ⟨a, b, hc, hi, hne⟩ := joinPaths_fails hj
    exact hruns ▸ .torn hcode (.inr ⟨rfl, hin, hc⟩) (.inl (ControlFlow.take_fst.mp hi)) hne
      (joinPaths_ofDepth hj)
  | skip hcode hj =>
    have hruns : w.runs c = false := by rw [runs, hcode, hj]
    obtain ⟨hcurrent, hincoming⟩ := joinPaths_none hj
    refine hruns ▸ .skip (Array.getElem?_eq_some_iff.mp hcode).1 fun frame hf => ?_
    rcases hf with hw | ⟨_, _, hc⟩
    · cases (ControlFlow.take_fst.mpr hw).symm.trans hincoming
    · cases hc.symm.trans hcurrent
  | full hcode hj hfull =>
    have hruns : w.runs c = false := by
      rw [runs, hcode, hj]
      exact bne_eq_false_iff_eq.mpr hfull
    exact hruns ▸ .full (arrives_of_joined hcode hj) hfull
  | fail he => exact he.runs ▸ .fail he.arrives he.counted he.lacks
  | next he => exact he.runs ▸ .next he.arrives he.counted he.suits
  | stop he => exact he.runs ▸ .stop he.arrives he.counted he.suits
  | call he => exact he.runs ▸ .call he.arrives he.counted he.suits
  | branch he hb => exact he.runs ▸ hb ▸ .branch he.arrives he.counted he.suits

/-- The walk has run the instruction `i` at the cursor on a stack of some depth. -/
structure Ran (w : Interpreter) (i : Instruction) (depth : Nat) (next : Interpreter) : Prop
    extends Arrives w i depth where
  applies : i.Applies w.method depth
  method : next.method = w.method
  body : next.flow.body = w.flow.body
  size : next.flow.waiting.size = w.flow.waiting.size
  /-- Frames are where they were, or where the instruction leads. -/
  source : ∀ {j frame}, next.Holds j frame → w.Holds j frame ∨
    w.flow.body.Leads w.cursor j ∧ frame.length = i.depthAfter w.method depth
  keeps : ∀ {j frame}, w.Holds j frame → j ≠ w.cursor → ∃ frame, next.Holds j frame
  leads : ∀ {j}, w.flow.body.Leads w.cursor j →
    (∃ frame, next.Holds j frame) ∨ (w.cursor, j) ∈ w.flow.taken
  taken : w.flow.taken ⊆ next.flow.taken
  fresh : ∀ {e}, e ∈ next.flow.taken → e ∈ w.flow.taken ∨
    e.1 = w.cursor ∧ ∃ frame, next.Holds e.2 frame
  cursor : next.cursor = w.cursor + 1 ∨ next.cursor ≤ w.cursor ∧
    (w.cursor, next.cursor) ∈ w.flow.body.backward ∧
    (w.cursor, next.cursor) ∈ next.flow.taken ∧ (w.cursor, next.cursor) ∉ w.flow.taken
  ahead : ∀ {j frame}, next.flow.Waits j frame → w.flow.Waits j frame ∧ j ≠ w.cursor ∨
    next.cursor ≤ j

/-- A tick that makes no failure moves on where no frame is held, or runs an instruction. -/
inductive Moves (w : Interpreter) : Bool → Interpreter → Prop where
  | skip (hin : w.cursor < w.flow.body.size) (hnone : ∀ frame, ¬ w.Holds w.cursor frame) :
    Moves w false (w.cleared.advance none)
  | run {i : Instruction} {depth : Nat} {next : Interpreter} (hr : Ran w i depth next) :
    Moves w true next

/-- The path goes on behind an instruction that is no branch. -/
theorem ran_advance {i : Instruction} {depth : Nat} {current : Option Frame}
    (ha : Arrives w i depth) (happ : i.Applies w.method depth) (htargets : i.targets = [])
    (hcurrent : ∀ frame, current = some frame → i.fallsThrough = true ∧
      frame.length = i.depthAfter w.method depth)
    (hfalls : i.fallsThrough = true → current.isSome = true) :
    Ran w i depth (w.cleared.advance current) where
  toArrives := ha
  applies := happ
  method := rfl
  body := rfl
  size := w.flow.size_setWaiting _ _
  source := by
    rintro j frame (hw | ⟨rfl, hlt, hc⟩)
    · exact .inl (.inl (ControlFlow.waits_take.mp hw).2)
    · obtain ⟨hf, hl⟩ := hcurrent frame hc
      exact .inr ⟨.next ha.code hf hlt, hl⟩
  keeps := by
    rintro j frame (hw | ⟨rfl, _⟩) hj
    · exact ⟨frame, .inl (ControlFlow.waits_take.mpr ⟨hj, hw⟩)⟩
    · exact absurd rfl hj
  leads := by
    intro j hl
    cases hl with
    | next hi hf hn =>
      cases ha.code.symm.trans hi
      obtain ⟨frame, hframe⟩ := Option.isSome_iff_exists.mp (hfalls hf)
      exact .inl ⟨frame, .inr ⟨rfl, hn, hframe⟩⟩
    | jump hi ho =>
      cases ha.code.symm.trans hi
      rw [htargets] at ho
      exact absurd ho List.not_mem_nil
  taken := List.Subset.refl _
  fresh := .inl
  cursor := .inl rfl
  ahead hw := .inl (ControlFlow.waits_take.mp hw).symm

/-- The plan for some of the targets of an instruction serves what the instruction leads to. -/
theorem leads_of_serves {i : Instruction} {seen : List Offset} {plan : Plan} {j : Nat}
    (hcode : w.flow.body.code[w.cursor]? = some i) (hseen : seen ⊆ i.targets)
    (hr : Plan.Routes w.flow.body w.cursor w.flow.taken
      (fun j => ∃ o ∈ seen, w.flow.body.indexOf? o = some j) seen plan) (hs : plan.Serves j) :
    w.flow.body.Leads w.cursor j := by
  obtain ⟨⟨o, ho, hj⟩, _⟩ := hr.serves hs
  exact .jump hcode (hseen ho) hj

section Branching

variable {i : Instruction} {depth : Nat} {flow : ControlFlow} {plan : Plan}
  (hcode : w.flow.body.code[w.cursor]? = some i)
  (hr : Plan.Routes w.flow.body w.cursor w.flow.taken
    (fun j => ∃ o ∈ i.targets, w.flow.body.indexOf? o = some j) i.targets plan)

include hcode hr

/-- A branch whose targets all exist: `next` has the parked frames, and goes on from one of them or
from the next instruction. -/
theorem ran_branch_of {joins : List Nat} (ha : Arrives w i depth)
    (happ : i.Applies w.method depth) (hunknown : plan.unknown = none)
    (hp : ControlFlow.Parks (i.depthAfter w.method depth) joins
      { (w.flow.take w.cursor).2 with taken := plan.taken } flow)
    (hjoins : ∀ {j}, j ∈ joins → j < w.flow.body.size → w.flow.body.Leads w.cursor j)
    (hsize : w.flow.waiting.size = w.flow.body.size)
    (hflow : next.flow = flow) (hmethod : next.method = w.method)
    (hcurrent : ∀ {frame}, next.current = some frame → next.cursor < w.flow.body.size →
      w.flow.body.Leads w.cursor next.cursor ∧ frame.length = i.depthAfter w.method depth)
    (hserves : ∀ {j}, plan.Serves j → ∃ frame, next.Holds j frame)
    (hfalls : i.fallsThrough = true → w.cursor + 1 < w.flow.body.size →
      ∃ frame, next.Holds (w.cursor + 1) frame)
    (hcursor : next.cursor = w.cursor + 1 ∨ plan.back = some next.cursor)
    (hahead : ∀ {j}, j ∈ joins → next.cursor ≤ j) :
    Ran w i depth next := by
  have hbody : next.flow.body = w.flow.body := hflow ▸ hp.body
  have hwidth : next.flow.waiting.size = w.flow.waiting.size :=
    hflow ▸ hp.size.trans (w.flow.size_setWaiting _ _)
  have htaken : next.flow.taken = plan.taken := hflow ▸ hp.taken
  have hwaits : ∀ {j frame}, next.flow.Waits j frame → w.flow.Waits j frame ∧ j ≠ w.cursor ∨
      j ∈ joins ∧ frame.length = i.depthAfter w.method depth := by
    intro j frame hw
    exact (hp.source (hflow ▸ hw)).imp_left fun hw => (ControlFlow.waits_take.mp hw).symm
  refine ⟨ha, happ, hmethod, hbody, hwidth, ?_, ?_, ?_, ?_, ?_, ?_, ?_⟩
  · rintro j frame (hw | ⟨rfl, hlt, hc⟩)
    · have hj : j < w.flow.body.size := hsize ▸ hwidth ▸ ControlFlow.waiting_lt hw
      rcases hwaits hw with ⟨hw, _⟩ | ⟨hm, hl⟩
      · exact .inl (.inl hw)
      · exact .inr ⟨hjoins hm hj, hl⟩
    · exact .inr (hcurrent hc (hbody ▸ hlt))
  · rintro j frame (hw | ⟨rfl, _⟩) hj
    · obtain ⟨other, ho⟩ := hp.keeps (ControlFlow.waits_take.mpr ⟨hj, hw⟩)
      exact ⟨other, .inl (hflow ▸ ho)⟩
    · exact absurd rfl hj
  · intro j hl
    cases hl with
    | next hi hf hn =>
      cases hcode.symm.trans hi
      exact .inl (hfalls hf hn)
    | jump hi ho hj =>
      cases hcode.symm.trans hi
      obtain ⟨j', hj', hs⟩ := hr.served hunknown _ ho
      cases hj.symm.trans hj'
      exact hs.imp_left hserves
  · exact htaken ▸ hr.keeps
  · intro e he
    exact (hr.fresh (htaken ▸ he)).imp_right fun ⟨hi, hs⟩ => ⟨hi, hserves hs⟩
  · refine hcursor.imp_right fun hb => ?_
    obtain ⟨⟨o, ho, hj⟩, _⟩ := hr.serves (.inr hb)
    obtain ⟨hle, hin, hout⟩ := hr.back hb
    exact ⟨hle, Body.mem_backward hcode hle ⟨o, ho, hj⟩, htaken ▸ hin, hout⟩
  · intro j frame hw
    exact (hwaits hw).imp_right fun ⟨hm, _⟩ => hahead hm

section

variable (ha : Arrives w i depth) (happ : i.Applies w.method depth)
  (hl : frame.length = i.depthAfter w.method depth)
  (hsize : w.flow.waiting.size = w.flow.body.size) (hunknown : plan.unknown = none)

include ha happ hl hsize hunknown

/-- The walk jumps back, and a conditional branch leaves the frame for the other way. -/
theorem ran_back {target : Nat} (hback : plan.back = some target)
    (hp : ControlFlow.Parks (i.depthAfter w.method depth)
      (plan.joins ++ if i.fallsThrough then [w.cursor + 1] else [])
      { (w.flow.take w.cursor).2 with taken := plan.taken } flow) :
    Ran w i depth { w.cleared with flow, current := some frame, cursor := target } := by
  have hleads : ∀ {j}, plan.Serves j → w.flow.body.Leads w.cursor j :=
    leads_of_serves hcode (List.Subset.refl _) hr
  have hin : ∀ {j}, w.flow.body.Leads w.cursor j → j < (w.flow.take w.cursor).2.waiting.size :=
    fun hl => ControlFlow.size_take w.flow w.cursor ▸ hsize ▸ hl.lt_size
  have hparked : ∀ {j}, j ∈ (if i.fallsThrough = true then [w.cursor + 1] else []) →
      i.fallsThrough = true ∧ j = w.cursor + 1 := by grind
  refine ran_branch_of hcode hr ha happ hunknown hp ?_ hsize rfl rfl ?_ ?_ ?_ (.inr hback) ?_
  · intro j hj hlt
    rcases List.mem_append.mp hj with hj | hj
    · exact hleads (.inl hj)
    · obtain ⟨hf, rfl⟩ := hparked hj
      exact .next hcode hf hlt
  · rintro frame ⟨⟩ _
    exact ⟨hleads (.inr hback), hl⟩
  · rintro j (hj | hb)
    · obtain ⟨other, ho⟩ := hp.parked (List.mem_append_left _ hj) (hin (hleads (.inl hj)))
      exact ⟨other, .inl ho⟩
    · cases hback.symm.trans hb
      exact ⟨frame, .inr ⟨rfl, hp.body ▸ (hleads (.inr hback)).lt_size, rfl⟩⟩
  · intro hf hlt
    obtain ⟨other, ho⟩ := hp.parked (List.mem_append_right _ (by simp [hf]))
      (hin (.next hcode hf hlt))
    exact ⟨other, .inl ho⟩
  · intro j hj
    have hle := (hr.back hback).1
    rcases List.mem_append.mp hj with hj | hj
    · rcases (hr.serves (.inl hj)).2 with hlt | ⟨t, hb, hle'⟩
      · exact Nat.le_of_lt (Nat.lt_of_le_of_lt hle hlt)
      · cases hback.symm.trans hb
        exact hle'
    · obtain ⟨_, rfl⟩ := hparked hj
      exact Nat.le_succ_of_le hle

/-- The walk goes on behind the branch, with the frame if the branch is conditional. -/
theorem ran_ahead (hback : plan.back = none)
    (hp : ControlFlow.Parks (i.depthAfter w.method depth) plan.joins
      { (w.flow.take w.cursor).2 with taken := plan.taken } flow) :
    Ran w i depth
      ({ w.cleared with flow }.advance (if i.fallsThrough then some frame else none)) := by
  have hleads : ∀ {j}, plan.Serves j → w.flow.body.Leads w.cursor j :=
    leads_of_serves hcode (List.Subset.refl _) hr
  have hnone : ∀ {j}, plan.back ≠ some j := fun hb => by cases hback.symm.trans hb
  refine ran_branch_of hcode hr ha happ hunknown hp ?_ hsize rfl rfl ?_ ?_ ?_ (.inl rfl) ?_
  · exact fun hj _ => hleads (.inl hj)
  · intro other hc hlt
    obtain ⟨hf, rfl⟩ : i.fallsThrough = true ∧ frame = other := by simpa [advance] using hc
    exact ⟨.next hcode hf hlt, hl⟩
  · rintro j (hj | hb)
    · have hin : j < (w.flow.take w.cursor).2.waiting.size :=
        ControlFlow.size_take w.flow w.cursor ▸ hsize ▸ (hleads (.inl hj)).lt_size
      obtain ⟨other, ho⟩ := hp.parked hj hin
      exact ⟨other, .inl ho⟩
    · exact absurd hb hnone
  · intro hf hlt
    exact ⟨frame, .inr ⟨rfl, hp.body ▸ hlt, by simp [advance, hf]⟩⟩
  · intro j hj
    rcases (hr.serves (.inl hj)).2 with hlt | ⟨t, hb, _⟩
    · exact hlt
    · exact absurd hb hnone

end

end Branching

/-- What the plan of a branch leads to. -/
theorem routes_of_plan {targets : List Offset} {plan : Plan}
    (hplan : plan = Plan.ofBranch w.flow.body w.cursor w.flow.taken targets) :
    Plan.Routes w.flow.body w.cursor w.flow.taken
      (fun j => ∃ o ∈ targets, w.flow.body.indexOf? o = some j) targets plan :=
  hplan ▸ Plan.routes_ofBranch w.flow.body w.cursor w.flow.taken targets

theorem ran_branch {i : Instruction} {depth : Nat} {offset : Offset} (ha : Arrives w i depth)
    (happ : i.Applies w.method depth) (hl : frame.length = i.depthAfter w.method depth)
    (hsize : w.flow.waiting.size = w.flow.body.size)
    (h : w.cleared.branch c offset i.targets i.fallsThrough frame = .more next c') :
    Ran w i depth next := by
  cases branches_of_branch h with
  | back hplan hunknown hback hparked =>
    exact ran_back ha.code (routes_of_plan hplan) ha happ hl hsize hunknown hback
      (hl ▸ ControlFlow.parks_enqueueAll hparked)
  | ahead hplan hunknown hback hparked =>
    exact ran_ahead ha.code (routes_of_plan hplan) ha happ hl hsize hunknown hback
      (hl ▸ ControlFlow.parks_enqueueAll hparked)

/-- A tick that goes on, or comes to a call, is one of the two moves. -/
theorem moves_of_tick (hsize : w.flow.waiting.size = w.flow.body.size)
    (h : w.tick c = .more next c' ∨ ∃ e, w.tick c = .effect e next c') :
    Moves w (w.runs c) next := by
  have hd := does_tick w c
  generalize w.tick c = t at hd h
  generalize w.runs c = ran at hd ⊢
  cases hd with
  | done | torn | full | fail => simp at h
  | skip hin hnone =>
    simp only [reduceCtorEq, exists_false, or_false, Tick.more.injEq] at h
    exact h.1 ▸ .skip hin hnone
  | next ha _ hsuits =>
    obtain ⟨happ, hf, ht, hl⟩ := hsuits
    simp only [reduceCtorEq, exists_false, or_false, Tick.more.injEq] at h
    obtain ⟨rfl, rfl⟩ := h
    refine .run (ran_advance ha happ ht ?_ fun _ => rfl)
    rintro _ ⟨⟩
    exact ⟨hf, hl⟩
  | stop ha _ hsuits =>
    obtain ⟨happ, hf, ht⟩ := hsuits
    simp only [reduceCtorEq, exists_false, or_false, Tick.more.injEq] at h
    obtain ⟨rfl, rfl⟩ := h
    refine .run (ran_advance ha happ ht nofun fun hfalls => ?_)
    cases hf.symm.trans hfalls
  | call ha _ hsuits =>
    obtain ⟨happ, hf, ht, hl⟩ := hsuits
    simp only [reduceCtorEq, false_or, Tick.effect.injEq] at h
    obtain ⟨_, _, rfl, rfl⟩ := h
    refine .run (ran_advance ha happ ht ?_ fun _ => rfl)
    rintro _ ⟨⟩
    exact ⟨hf, hl⟩
  | branch ha _ hsuits =>
    obtain ⟨happ, rfl, rfl, hl⟩ := hsuits
    refine .run (ran_branch ha happ hl hsize (h.resolve_right ?_))
    rintro ⟨e, he⟩
    exact branch_ne_effect _ _ _ _ _ _ _ _ _ he

theorem runs_of_effect {e : CallEffect} (h : w.tick c = .effect e next c') : w.runs c = true := by
  have hd := does_tick w c
  generalize w.tick c = t at hd h
  generalize w.runs c = ran at hd ⊢
  cases hd with
  | call | branch => rfl
  | _ => cases h

theorem arrives_of_runs (h : w.runs c = true) : ∃ i depth, Arrives w i depth := by
  have hd := does_tick w c
  rw [h] at hd
  generalize w.tick c = t at hd
  cases hd with
  | fail ha | next ha | stop ha | call ha | branch ha => exact ⟨_, _, ha⟩

theorem lt_size_of_runs (h : w.runs c = true) : w.cursor < w.flow.body.size := by
  obtain ⟨i, depth, ha⟩ := arrives_of_runs h
  exact (Array.getElem?_eq_some_iff.mp ha.code).1

/-- A tick that comes to the end of the body. -/
theorem done_of_tick (h : w.tick c = .done next c') :
    w.flow.body.size ≤ w.cursor ∧ w.runs c = false ∧ next.flow = w.flow := by
  have hd := does_tick w c
  generalize w.tick c = t at hd h
  generalize w.runs c = ran at hd ⊢
  cases hd with
  | done hend =>
    cases h
    exact ⟨hend, rfl, rfl⟩
  | branch => exact absurd h (branch_ne_done _ _ _ _ _ _ _ _)
  | _ => cases h

/-- A branch fails for the depth of the stack only where a frame of another depth waits. -/
theorem branch_fails {i : Instruction} {depth : Nat} {offset : Offset}
    (hcode : w.flow.body.code[w.cursor]? = some i)
    (hl : frame.length = i.depthAfter w.method depth)
    (hsize : w.flow.waiting.size = w.flow.body.size) (hf : failure.OfDepth)
    (h : w.cleared.branch c offset i.targets i.fallsThrough frame = .failed failure next c') :
    ∃ j other, w.flow.body.Leads w.cursor j ∧ w.Holds j other ∧
      other.length ≠ i.depthAfter w.method depth := by
  cases branches_of_branch h with
  | torn hseen hplan hjoins hparked =>
    obtain ⟨j, hj, other, hw, hne⟩ := ControlFlow.enqueueAll_fails hparked
    have hold : w.flow.Waits j other := (ControlFlow.waits_take.mp hw).2
    refine ⟨j, other, ?_, .inl hold, hl ▸ hne⟩
    rcases hjoins j hj with hj | ⟨hfalls, -, rfl⟩
    · exact leads_of_serves hcode hseen.subset (routes_of_plan hplan) (.inl hj)
    · exact .next hcode hfalls (hsize ▸ ControlFlow.waiting_lt hold)
  | lost => exact hf.elim

/-- A tick fails for the depth of the stack only where frames of different depth meet, or a frame
is too small for the instruction at the cursor. -/
theorem failed_of_tick (hsize : w.flow.waiting.size = w.flow.body.size) (hf : failure.OfDepth)
    (h : w.tick c = .failed failure next c') :
    ∃ i frame, w.flow.body.code[w.cursor]? = some i ∧ w.Holds w.cursor frame ∧
      ((∃ other, w.Holds w.cursor other ∧ other.length ≠ frame.length) ∨
        frame.length < i.pops w.method ∨
        i.Applies w.method frame.length ∧ ∃ j other, w.flow.body.Leads w.cursor j ∧
          w.Holds j other ∧ other.length ≠ i.depthAfter w.method frame.length) := by
  have hd := does_tick w c
  generalize w.tick c = t at hd h
  generalize w.runs c = ran at hd
  cases hd with
  | torn hcode ha hb hne => exact ⟨_, _, hcode, hb, .inl ⟨_, ha, hne⟩⟩
  | full =>
    cases h
    exact hf.elim
  | fail ha _ hlacks =>
    cases h
    obtain ⟨held, hheld, rfl⟩ := ha.arrived
    exact ⟨_, held, ha.code, hheld, .inr (.inl (hlacks.depth hf))⟩
  | branch ha _ hsuits =>
    obtain ⟨happ, rfl, rfl, hl⟩ := hsuits
    obtain ⟨held, hheld, rfl⟩ := ha.arrived
    exact ⟨_, held, ha.code, hheld, .inr (.inr ⟨happ, branch_fails ha.code hl hsize hf h⟩)⟩
  | _ => cases h

end Interpreter

end SinkTrace
