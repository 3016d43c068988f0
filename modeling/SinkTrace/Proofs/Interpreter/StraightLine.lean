import SinkTrace.Proofs.Interpreter.Drives

/-!
The instructions before the first branch, join or protected instruction. However often a walk is
stepped, it runs them in order before all others, and none of them twice. So an argument may be
bound anew there and the old binding forgotten.
-/

namespace SinkTrace

namespace Body

variable {b : Body} {i j : Nat} {offset : Offset} {instruction : Instruction}

theorem le_foldl_min {xs : List Nat} {bound start : Nat} :
    bound ≤ xs.foldl min start ↔ bound ≤ start ∧ ∀ x ∈ xs, bound ≤ x := by
  induction xs generalizing start with
  | nil => simp
  | cons x xs ih => simp only [List.foldl_cons, ih, le_min_iff, List.forall_mem_cons, and_assoc]

theorem straightEnd_le_limit (b : Body) :
    b.straightEnd ≤ (b.marks.filterMap b.indexOf?).foldl min b.size := by
  unfold straightEnd
  simp only
  split
  · exact min_le_left _ _
  · exact le_rfl

theorem straightEnd_le_mark (hm : offset ∈ b.marks) (hj : b.indexOf? offset = some j) :
    b.straightEnd ≤ j :=
  (le_foldl_min.mp b.straightEnd_le_limit).2 j (List.mem_filterMap.mpr ⟨offset, hm, hj⟩)

theorem straightEnd_le_entry {h : Handler} (hh : h ∈ b.handlers) (ho : offset ∈ h.entries)
    (hj : b.indexOf? offset = some j) : b.straightEnd ≤ j := by
  refine straightEnd_le_mark (List.mem_append_left _ (List.mem_flatMap.mpr ⟨h, hh, ?_⟩)) hj
  refine List.mem_cons_of_mem _ ?_
  rcases List.mem_cons.mp ho with rfl | ho
  · exact List.mem_cons_self
  · split at ho
    · exact List.mem_cons_of_mem _ ho
    · exact absurd ho List.not_mem_nil

theorem offsets_of_targets (ho : offset ∈ instruction.targets) :
    offset ∈ instruction.operand.offsets := by
  unfold Instruction.targets at ho
  split at ho
  case h_6 => exact absurd ho List.not_mem_nil
  all_goals
    rename_i hop
    rw [hop]
    exact ho

theorem straightEnd_le_target (hi : b.code[i]? = some instruction)
    (ho : offset ∈ instruction.targets) (hj : b.indexOf? offset = some j) : b.straightEnd ≤ j := by
  have hm : instruction ∈ b.code.toList := by
    obtain ⟨hlt, he⟩ := Array.getElem?_eq_some_iff.mp hi
    exact he ▸ Array.getElem_mem_toList hlt
  exact straightEnd_le_mark (List.mem_append_right _
    (List.mem_flatMap.mpr ⟨instruction, hm, offsets_of_targets ho⟩)) hj

/-- Nothing behind a branch is run for certain. -/
theorem straightEnd_le_behind (hi : b.code[i]? = some instruction)
    (ho : offset ∈ instruction.targets) : b.straightEnd ≤ i + 1 := by
  have hlt : i < b.size := (Array.getElem?_eq_some_iff.mp hi).1
  have hbranch : b.branches i = true := by
    have hoffsets := offsets_of_targets ho
    unfold branches
    rw [hi, Option.map_some]
    cases hop : instruction.operand
    case target | targets => rfl
    all_goals
      rw [hop] at hoffsets
      exact absurd hoffsets List.not_mem_nil
  unfold straightEnd
  simp only
  split
  · rename_i first hfirst
    have hle : first ≤ i := by
      refine Nat.le_of_not_lt fun hgt => ?_
      have hnot := (List.find?_range_eq_some.mp hfirst).2.2 i hgt
      rw [hbranch] at hnot
      cases hnot
    exact (min_le_right _ _).trans (Nat.succ_le_succ hle)
  · rename_i hnone
    have hnot := List.find?_range_eq_none.mp hnone i hlt
    rw [hbranch] at hnot
    cases hnot

/-- Instructions of the straight part in order, from the first one on, and then only others. -/
def Begins (b : Body) (log : List Nat) : Prop :=
  ∃ k ≤ b.straightEnd, ∃ rest, log = List.range k ++ rest ∧ ∀ j ∈ rest, b.straightEnd ≤ j

theorem begins_range (hi : i ≤ b.straightEnd) : b.Begins (List.range i) :=
  ⟨i, hi, [], (List.append_nil _).symm, nofun⟩

theorem Begins.concat {log : List Nat} (hb : b.Begins log) (hi : b.straightEnd ≤ i) :
    b.Begins (log ++ [i]) := by
  obtain ⟨k, hk, rest, rfl, hrest⟩ := hb
  refine ⟨k, hk, rest ++ [i], List.append_assoc .., fun j hj => ?_⟩
  rcases List.mem_append.mp hj with hj | hj
  · exact hrest j hj
  · exact List.mem_singleton.mp hj ▸ hi

theorem Begins.once {log : List Nat} (hb : b.Begins log) (hi : i < b.straightEnd)
    (hm : i ∈ log) : List.range (i + 1) <+: log ∧ log.count i = 1 := by
  obtain ⟨k, _, rest, rfl, hrest⟩ := hb
  have hout : i ∉ rest := fun hin => Nat.not_lt.mpr (hrest i hin) hi
  have hlt : i < k := List.mem_range.mp ((List.mem_append.mp hm).resolve_right hout)
  constructor
  · have hpre := List.take_prefix (i + 1) (List.range k)
    rw [List.take_range, min_eq_left (Nat.succ_le_of_lt hlt)] at hpre
    exact hpre.trans (List.prefix_append _ _)
  · rw [List.count_append, List.count_eq_zero.mpr hout,
      List.count_eq_one_of_mem List.nodup_range (List.mem_range.mpr hlt)]

end Body

namespace ControlFlow

variable {b : Body} {f : ControlFlow} {index : Nat}

/-- Nothing waits in the straight part of the body. -/
structure Guards (b : Body) (f : ControlFlow) : Prop where
  body : f.body = b
  straightEnd : f.straightEnd = b.straightEnd
  ahead : ∀ {i frame}, f.Waits i frame → b.straightEnd ≤ i

theorem guards_ofBody (b : Body) : Guards b (ofBody b) :=
  ⟨rfl, rfl, fun hw => by simp [Waits, ofBody, Array.getElem?_replicate] at hw⟩

theorem Guards.setWaiting (hg : Guards b f) {kept : Option Frame}
    (hi : kept.isSome = true → b.straightEnd ≤ index) : Guards b (f.setWaiting index kept) := by
  refine ⟨hg.body, hg.straightEnd, fun hw => ?_⟩
  rw [waits_setWaiting] at hw
  split at hw
  · rename_i he
    exact he ▸ hi (hw.1 ▸ rfl)
  · exact hg.ahead hw

theorem Guards.take (hg : Guards b f) (index : Nat) : Guards b (f.take index).2 :=
  hg.setWaiting nofun

/-- Also where the frame does not fit. -/
theorem Guards.enqueue (hg : Guards b f) (s : Store) (frame : Frame)
    (hi : b.straightEnd ≤ index) : Guards b (f.enqueue s index frame).2.1 := by
  have hg' := hg.take index
  generalize h : f.enqueue s index frame = result
  cases enqueues_of_enqueue h with
  | first | joins => exact hg'.setWaiting fun _ => hi
  | torn => exact hg'

theorem Guards.enqueueAll (hg : Guards b f) (s : Store) (frame : Frame) {indices : List Nat}
    (hi : ∀ i ∈ indices, b.straightEnd ≤ i) : Guards b (f.enqueueAll s frame indices).2.1 := by
  induction indices generalizing f s with
  | nil => exact hg
  | cons index indices ih =>
    obtain ⟨hfirst, hrest⟩ := List.forall_mem_cons.mp hi
    have hg' := hg.enqueue s frame hfirst
    unfold ControlFlow.enqueueAll
    split
    · rename_i he
      rwa [he] at hg'
    · rename_i he
      rw [he] at hg'
      exact ih hg' _ hrest

end ControlFlow

namespace Interpreter

open ControlFlow (Guards)

variable {b : Body} {m : MethodRef} {w w' : Interpreter} {c c' : Context} {log : List Nat}
  {i : Nat}

/-! The beginning. -/

theorem guards_start (h : start m b c = .ok (w, c')) : Guards b w.flow := by
  have hkept := start_keeps (P := fun state => Guards b state.1) (ControlFlow.guards_ofBody b)
    (fun handler hh entry ho state state' index hg hindex hq => ?_) h
  · exact hkept.1
  · have hbehind := Body.straightEnd_le_entry hh ho (hg.body ▸ hindex)
    have henqueue := hg.enqueue (handler.kind.entryFrame state.2).2
      (handler.kind.entryFrame state.2).1 hbehind
    rwa [hq] at henqueue

/-! One tick. -/

/-- What was run is in order, and a frame in the straight part has come there from the first
instruction on. -/
structure Ordered (b : Body) (log : List Nat) (w : Interpreter) : Prop where
  guards : Guards b w.flow
  begins : b.Begins log
  arrived : w.current.isSome = true → w.cursor < b.straightEnd → log = List.range w.cursor

/-- The instruction at the cursor is run. -/
theorem Ordered.runs (ho : Ordered b log w) (hr : w.runs c = true) :
    b.Begins (log ++ [w.cursor]) ∧
      (w.cursor + 1 < b.straightEnd → log ++ [w.cursor] = List.range (w.cursor + 1)) := by
  by_cases hlt : w.cursor < b.straightEnd
  · have hcurrent : w.current.isSome = true := by
      obtain ⟨_, _, harrives⟩ := arrives_of_runs hr
      obtain ⟨frame, hw | ⟨_, _, hc⟩, _⟩ := harrives.arrived
      · exact absurd (ho.guards.ahead hw) (Nat.not_le.mpr hlt)
      · exact hc ▸ rfl
    have hlog : log ++ [w.cursor] = List.range (w.cursor + 1) := by
      rw [ho.arrived hcurrent hlt, List.range_succ]
    exact ⟨hlog ▸ Body.begins_range hlt, fun _ => hlog⟩
  · exact ⟨ho.begins.concat (Nat.le_of_not_lt hlt), fun h => absurd (Nat.lt_of_succ_lt h) hlt⟩

section Branching

variable {instruction : Instruction} {seen : List Offset} {plan : Plan} (hg : Guards b w.flow)
  (hcode : w.flow.body.code[w.cursor]? = some instruction) (hseen : seen ⊆ instruction.targets)
  (hplan : plan = Plan.ofBranch w.flow.body w.cursor w.flow.taken seen)

include hg hcode hseen hplan

theorem straightEnd_le_of_serves {j : Nat} (hs : plan.Serves j) : b.straightEnd ≤ j := by
  obtain ⟨o, ho, hj⟩ := ((routes_of_plan hplan).serves hs).1
  exact Body.straightEnd_le_target (hg.body ▸ hcode) (hseen ho) (hg.body ▸ hj)

theorem straightEnd_le_of_back (hb : plan.back.isSome = true) : b.straightEnd ≤ w.cursor + 1 := by
  obtain ⟨t, ht⟩ := Option.isSome_iff_exists.mp hb
  obtain ⟨o, ho, _⟩ := ((routes_of_plan hplan).serves (.inr ht)).1
  exact Body.straightEnd_le_behind (hg.body ▸ hcode) (hseen ho)

/-- What a branch leaves waits behind the straight part. -/
theorem guards_parked {joins : List Nat} {frame : Frame} {failure : Option Failure}
    {flow : ControlFlow} {s store : Store}
    (hjoins : ∀ j ∈ joins, j ∈ plan.joins ∨ plan.back.isSome = true ∧ j = w.cursor + 1)
    (hparked : { w.flow with taken := plan.taken }.enqueueAll s frame joins =
      (failure, flow, store)) : Guards b flow := by
  have hstart : Guards b { w.flow with taken := plan.taken } :=
    ⟨hg.body, hg.straightEnd, hg.ahead⟩
  have hbehind : ∀ j ∈ joins, b.straightEnd ≤ j := by
    intro j hj
    rcases hjoins j hj with hj | ⟨hb, rfl⟩
    · exact straightEnd_le_of_serves hg hcode hseen hplan (.inl hj)
    · exact straightEnd_le_of_back hg hcode hseen hplan hb
  have hleft := hstart.enqueueAll s frame hbehind
  rwa [hparked] at hleft

end Branching

/-- A branch leaves frames, and goes on, behind the straight part. -/
theorem ordered_branch {instruction : Instruction} {offset : Offset} {conditional : Bool}
    {frame : Frame} (hg : Guards b w.flow) (hcode : w.flow.body.code[w.cursor]? = some instruction)
    (hcurrent : w.current = none) (hbegins : b.Begins log)
    (hlog : w.cursor + 1 < b.straightEnd → log = List.range (w.cursor + 1)) :
    Ordered b log (w.branch c offset instruction.targets conditional frame).walk := by
  generalize h : w.branch c offset instruction.targets conditional frame = t
  cases branches_of_branch h with
  | torn hseen hplan hjoins hparked =>
    have hleft := guards_parked hg hcode hseen.subset hplan
      (fun j hj => (hjoins j hj).imp_right And.right) hparked
    exact ⟨hleft, hbegins, fun h => by simp [Tick.walk, hcurrent] at h⟩
  | lost hplan _ hparked =>
    have hleft := guards_parked hg hcode (List.Subset.refl _) hplan (fun _ => .inl) hparked
    exact ⟨hleft, hbegins, fun h => by simp [Tick.walk, hcurrent] at h⟩
  | back hplan _ hback hparked =>
    have hbehind := straightEnd_le_of_serves hg hcode (List.Subset.refl _) hplan (.inr hback)
    refine ⟨guards_parked hg hcode (List.Subset.refl _) hplan (fun j hj => ?_) hparked, hbegins,
      fun _ hlt => absurd hbehind (Nat.not_le.mpr hlt)⟩
    rw [hback]
    grind
  | ahead hplan _ _ hparked =>
    have hleft := guards_parked hg hcode (List.Subset.refl _) hplan (fun _ => .inl) hparked
    exact ⟨hleft, hbegins, fun _ hlt => hlog hlt⟩

theorem Ordered.tick (ho : Ordered b log w) (c : Context) :
    Ordered b (log ++ if w.runs c then [w.cursor] else []) (w.tick c).walk := by
  have hruns := ho.runs (c := c)
  have hcleared : Guards b w.cleared.flow := ho.guards.take w.cursor
  have hd := does_tick w c
  generalize w.tick c = t at hd
  generalize w.runs c = ran at hd hruns ⊢
  cases hd with
  | done => exact ⟨ho.guards, (List.append_nil log).symm ▸ ho.begins, nofun⟩
  | torn | skip | full => exact ⟨hcleared, (List.append_nil log).symm ▸ ho.begins, nofun⟩
  | fail | stop => exact ⟨hcleared, (hruns rfl).1, nofun⟩
  | next | call => exact ⟨hcleared, (hruns rfl).1, fun _ hlt => (hruns rfl).2 hlt⟩
  | branch ha _ hsuits =>
    obtain ⟨_, rfl, rfl, _⟩ := hsuits
    exact ordered_branch hcleared ha.code rfl (hruns rfl).1 (hruns rfl).2

/-! Whole walks. -/

theorem Ordered.step (ho : Ordered b log w) (c : Context) :
    Ordered b (log ++ w.trace c) (w.step c).2.1 := by
  fun_induction Interpreter.step w c generalizing log with
  | case1 w c next c₁ ht ih =>
    have hnext := ho.tick c
    rw [ht] at hnext
    rw [trace_more ht, ← List.append_assoc]
    exact ih hnext
  | case2 w c effect next c₁ ht =>
    have hlast := ho.tick c
    rw [ht] at hlast
    rw [trace_last (by simp [ht])]
    exact hlast
  | case3 w c next c₁ ht =>
    have hlast := ho.tick c
    rw [ht] at hlast
    rw [trace_last (by simp [ht])]
    exact hlast
  | case4 w c failure next c₁ ht =>
    have hlast := ho.tick c
    rw [ht] at hlast
    rw [trace_last (by simp [ht])]
    exact hlast

/-- Any number of steps with the instructions that they run, also steps behind the end or behind a
failure. Every step is made in any context. -/
inductive Stepped (w : Interpreter) : List Nat → Interpreter → Prop where
  | start : Stepped w [] w
  | step {log : List Nat} {w₁ : Interpreter} (hs : Stepped w log w₁) (c : Context) :
    Stepped w (log ++ w₁.trace c) (w₁.step c).2.1

theorem Fresh.ordered (hf : Fresh m b w) (hg : Guards b w.flow) : Ordered b [] w :=
  ⟨hg, Body.begins_range (Nat.zero_le _), fun _ _ => by rw [hf.cursor, List.range_zero]⟩

theorem Ordered.stepped (ho : Ordered b [] w) (hs : Stepped w log w') : Ordered b log w' := by
  induction hs with
  | start => exact ho
  | step _ c ih => exact ih.step c

/-- Which instructions are straight does not change, and a straight one that was run was run once,
with all before it, in order, before it, and all else behind it. -/
theorem straight_runs_once (hs : start m b c = .ok (w, c')) (hd : Stepped w log w') :
    (∀ i, w'.flow.isStraight i = w.flow.isStraight i) ∧
      ∀ i, w.flow.isStraight i = true → i ∈ log →
        List.range (i + 1) <+: log ∧ log.count i = 1 := by
  have hg := guards_start hs
  have ho := ((fresh_start hs).ordered hg).stepped hd
  constructor
  · intro i
    rw [ControlFlow.isStraight, ControlFlow.isStraight, ho.guards.straightEnd, hg.straightEnd]
  · intro i hi hm
    rw [ControlFlow.isStraight, decide_eq_true_eq, hg.straightEnd] at hi
    exact ho.begins.once hi hm

/-- An argument is bound anew before a loop. -/
def rebindBody : Body where
  code := #[⟨0, .literal .null, .absent⟩, ⟨1, .starg, .arg 0⟩, ⟨2, .literal .null, .absent⟩,
    ⟨3, .brIf true, .target 2⟩, ⟨4, .ret, .absent⟩]

def rebinding : Interpreter where
  method := ping
  flow := ControlFlow.ofBody rebindBody

theorem start_rebinding : start ping rebindBody {} = .ok (rebinding, {}) := rfl

theorem trace_rebinding : rebinding.trace {} = [0, 1, 2, 3, 2, 3, 4] := by decide +kernel

/-- The loop is run twice, the assignment before it once. -/
theorem rebinding_runs_once : start ping rebindBody {} = .ok (rebinding, {}) ∧
    Stepped rebinding (rebinding.trace {}) (rebinding.step {}).2.1 ∧
    rebinding.flow.isStraight 1 = true ∧ 1 ∈ rebinding.trace {} ∧
    List.range 2 <+: rebinding.trace {} ∧ (rebinding.trace {}).count 1 = 1 := by
  have hd : Stepped rebinding (rebinding.trace {}) (rebinding.step {}).2.1 := .step .start {}
  have hi : rebinding.flow.isStraight 1 = true := by decide
  have hm : 1 ∈ rebinding.trace {} := by
    rw [trace_rebinding]
    decide
  exact ⟨start_rebinding, hd, hi, hm, (straight_runs_once start_rebinding hd).2 1 hi hm⟩

end Interpreter

end SinkTrace
