import Mathlib.Algebra.BigOperators.Group.List.Basic
import SinkTrace.Proofs.Interpreter.Results

/-!
How many calls a walk can still make. Every call moves the walk nearer to its end, so it makes at
most as many as that is away.
-/

namespace SinkTrace

namespace Interpreter

variable {w next w' : Interpreter} {c c' : Context}

theorem body_branch (w : Interpreter) (c : Context) (offset : Offset) (targets : List Offset)
    (conditional : Bool) (frame : Frame) :
    (w.branch c offset targets conditional frame).walk.flow.body = w.flow.body := by
  generalize h : w.branch c offset targets conditional frame = t
  cases branches_of_branch h with
  | torn _ _ _ hparked | lost _ _ hparked | back _ _ _ hparked | ahead _ _ _ hparked =>
    exact (ControlFlow.keeps_of_enqueueAll hparked).1

theorem body_tick (w : Interpreter) (c : Context) : (w.tick c).walk.flow.body = w.flow.body := by
  generalize h : w.tick c = t
  cases ticks_of_tick h with
  | branch _ hb => exact hb ▸ body_branch _ _ _ _ _ _
  | _ => rfl

theorem branch_ne_effect (w : Interpreter) (c c' : Context) (offset : Offset)
    (targets : List Offset) (conditional : Bool) (frame : Frame) (e : CallEffect)
    (next : Interpreter) :
    w.branch c offset targets conditional frame ≠ .effect e next c' := by
  intro h
  cases branches_of_branch h

theorem branch_ne_done (w : Interpreter) (c c' : Context) (offset : Offset)
    (targets : List Offset) (conditional : Bool) (frame : Frame) (next : Interpreter) :
    w.branch c offset targets conditional frame ≠ .done next c' := by
  intro h
  cases branches_of_branch h

/-- A tick comes to a call where the instruction at the cursor makes it. -/
theorem executes_of_effect {e : CallEffect} (h : w.tick c = .effect e next c') :
    ∃ i frame store after, Executes w c i frame store (.ok (.call e after) c') ∧
      next = w.cleared.advance (some after) := by
  cases ticks_of_tick h with
  | call he => exact ⟨_, _, _, _, he, rfl⟩
  | branch _ hb => exact absurd hb (branch_ne_effect _ _ _ _ _ _ _ _ _)

theorem distance_lt_of_effect {e : CallEffect} (h : w.tick c = .effect e next c') :
    next.distance < w.distance := by
  obtain ⟨i, frame, store, after, he, rfl⟩ := executes_of_effect h
  exact distance_lt_of_advance he.lt_size rfl (List.Subset.refl _) rfl

theorem step_of_effect {e : CallEffect} (h : w.tick c = .effect e next c') :
    w.step c = (.call e, next, c') := by
  rw [step]
  split
  case h_2 ht =>
    cases h.symm.trans ht
    rfl
  all_goals
    rename_i ht
    cases h.symm.trans ht

/-- A walk that has come to a call can make fewer calls than before. -/
theorem distance_step_lt {e : CallEffect} (h : w.step c = (.call e, w', c')) :
    w'.distance < w.distance := by
  fun_induction step w c with
  | case1 w c next c₁ ht ih => exact Nat.lt_trans (ih h) (distance_lt_of_tick ht)
  | case2 w c effect next c₁ ht =>
    cases h
    exact distance_lt_of_effect ht
  | case3 => cases h
  | case4 => cases h

/-! The beginning of a walk. -/

theorem length_edges (n : Nat) : (edges n).length = n * n := by
  simp [edges, List.length_flatMap]

theorem body_start {m : MethodRef} {b : Body} {result : Interpreter × Context}
    (hs : start m b c = .ok result) : result.1.flow.body = b := by
  have hkept := start_keeps (P := fun state => state.1.body = b) rfl
    (fun handler _ entry _ state state' index hbody _ hq => ?_) hs
  · exact hkept.1
  · have hk := ControlFlow.enqueue_keeps state.1 (handler.kind.entryFrame state.2).2 index
      (handler.kind.entryFrame state.2).1
    rw [hq] at hk
    exact hk.1.trans hbody

/-- Every instruction once for every pair of instructions, and once more. -/
theorem distance_le (w : Interpreter) :
    w.distance ≤ (w.flow.body.size * w.flow.body.size + 1) * (w.flow.body.size + 1) := by
  have hedges : w.edgesLeft ≤ w.flow.body.size * w.flow.body.size := by
    unfold edgesLeft unseen
    rw [← length_edges]
    exact List.countP_le_length
  have hcode : w.codeLeft ≤ w.flow.body.size := Nat.sub_le _ _
  calc w.distance
      ≤ w.flow.body.size * w.flow.body.size * (w.flow.body.size + 1) + w.flow.body.size :=
        Nat.add_le_add (Nat.mul_le_mul_right _ hedges) hcode
    _ ≤ (w.flow.body.size * w.flow.body.size + 1) * (w.flow.body.size + 1) := by
        rw [Nat.add_mul, Nat.one_mul]
        omega

end Interpreter

end SinkTrace
