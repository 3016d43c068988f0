import SinkTrace.Context
import SinkTrace.Failure
import SinkTrace.Frontier

/-!
Where paths wait to be joined, and which backward edges have been followed. The interpreter walks
the instructions in order; a path that jumps forward waits at its target until the walk arrives
there, and every backward edge is followed once.
-/

namespace SinkTrace

/-- The operand stack of one path, from the top. -/
abbrev Frame := List SlotId

/-- From one instruction index to another. -/
abbrev Edge := Nat × Nat

namespace Body

def branches (b : Body) (i : Nat) : Bool :=
  match b.code[i]?.map Instruction.operand with
  | some (.target _) | some (.targets _) => true
  | _ => false

/-- Offsets at which a path other than the walk itself can arrive. -/
def marks (b : Body) : List Offset :=
  b.handlers.flatMap (fun h => h.tryStart :: h.start :: h.filterStart.toList)
    ++ b.code.toList.flatMap (·.operand.offsets)

/-- Instructions below this index run once, in order, before any branch, join or protected code:
nothing above can be a target, and code behind the first branch may be skipped. -/
def straightEnd (b : Body) : Nat :=
  let limit := (b.marks.filterMap b.indexOf?).foldl min b.size
  match (List.range b.size).find? b.branches with
  | some first => min limit (first + 1)
  | none => limit

end Body

/-- Joins two stacks position by position. -/
def Store.joinFrames (s : Store) (a b : Frame) : Except Failure (Frame × Store) :=
  if a.length = b.length then .ok (s.unionStacks a b)
  else .error (.stackDepthMismatch a.length b.length)

structure ControlFlow where
  body : Body
  /-- The frame that waits at each instruction. -/
  waiting : Array (Option Frame)
  /-- Backward edges that have been followed. -/
  taken : List Edge := []
  straightEnd : Nat
deriving Inhabited

namespace ControlFlow

def ofBody (b : Body) : ControlFlow :=
  { body := b, waiting := Array.replicate b.size none, straightEnd := b.straightEnd }

def isStraight (f : ControlFlow) (index : Nat) : Bool := index < f.straightEnd

def isWaiting (f : ControlFlow) (index : Nat) : Bool := (f.waiting[index]?.join).isSome

def setWaiting (f : ControlFlow) (index : Nat) (frame : Option Frame) : ControlFlow :=
  { f with waiting := f.waiting.setIfInBounds index frame }

/-- The frame that waits at `index`, which waits no longer. -/
def take (f : ControlFlow) (index : Nat) : Option Frame × ControlFlow :=
  (f.waiting[index]?.join, f.setWaiting index none)

/-- Joins a frame with what waits at `index`; behind the last instruction nothing waits. A frame
that does not fit is reported, and then neither of the two waits any longer. -/
def enqueue (f : ControlFlow) (s : Store) (index : Nat) (frame : Frame) :
    Option Failure × ControlFlow × Store :=
  match f.take index with
  | (none, f) => (none, f.setWaiting index (some frame), s)
  | (some existing, f) =>
    match s.joinFrames existing frame with
    | .ok (joined, s) => (none, f.setWaiting index (some joined), s)
    | .error failure => (some failure, f, s)

/-- All that letting a frame wait can come to. -/
inductive Enqueues (f : ControlFlow) (s : Store) (index : Nat) (frame : Frame) :
    Option Failure × ControlFlow × Store → Prop where
  | first (hnone : (f.take index).1 = none) :
    Enqueues f s index frame (none, (f.take index).2.setWaiting index (some frame), s)
  | joins {existing joined : Frame} {s' : Store} (hsome : (f.take index).1 = some existing)
    (hjoin : s.joinFrames existing frame = .ok (joined, s')) :
    Enqueues f s index frame (none, (f.take index).2.setWaiting index (some joined), s')
  | torn {existing : Frame} {failure : Failure} (hsome : (f.take index).1 = some existing)
    (hjoin : s.joinFrames existing frame = .error failure) :
    Enqueues f s index frame (some failure, (f.take index).2, s)

theorem enqueues_of_enqueue {f : ControlFlow} {s : Store} {index : Nat} {frame : Frame}
    {result : Option Failure × ControlFlow × Store} (h : f.enqueue s index frame = result) :
    Enqueues f s index frame result := by
  subst h
  unfold enqueue
  split
  · rename_i f₁ htake
    obtain rfl : (f.take index).2 = f₁ := congrArg Prod.snd htake
    exact .first (congrArg Prod.fst htake)
  · rename_i existing f₁ htake
    obtain rfl : (f.take index).2 = f₁ := congrArg Prod.snd htake
    have hsome : (f.take index).1 = some existing := congrArg Prod.fst htake
    split
    · exact .joins hsome ‹_›
    · exact .torn hsome ‹_›

/-- Lets the frame wait at each index, up to the first that does not fit. -/
def enqueueAll (f : ControlFlow) (s : Store) (frame : Frame) :
    List Nat → Option Failure × ControlFlow × Store
  | [] => (none, f, s)
  | index :: rest =>
    match f.enqueue s index frame with
    | (some failure, f, s) => (some failure, f, s)
    | (none, f, s) => f.enqueueAll s frame rest

theorem take_keeps (f : ControlFlow) (index : Nat) :
    (f.take index).2.body = f.body ∧ (f.take index).2.taken = f.taken := ⟨rfl, rfl⟩

theorem enqueue_keeps (f : ControlFlow) (s : Store) (index : Nat) (frame : Frame) :
    (f.enqueue s index frame).2.1.body = f.body
      ∧ (f.enqueue s index frame).2.1.taken = f.taken := by
  generalize h : f.enqueue s index frame = result
  cases enqueues_of_enqueue h with
  | first | joins | torn => exact take_keeps f index

theorem enqueueAll_keeps (f : ControlFlow) (s : Store) (frame : Frame) (indices : List Nat) :
    (f.enqueueAll s frame indices).2.1.body = f.body
      ∧ (f.enqueueAll s frame indices).2.1.taken = f.taken := by
  induction indices generalizing f s with
  | nil => exact ⟨rfl, rfl⟩
  | cons index indices ih =>
    have hk := enqueue_keeps f s index frame
    unfold enqueueAll
    split
    · rename_i heq
      rwa [heq] at hk
    · rename_i heq
      rw [heq] at hk
      have := ih (f.enqueue s index frame).2.1 (f.enqueue s index frame).2.2
      rw [heq] at this
      exact ⟨this.1.trans hk.1, this.2.trans hk.2⟩

theorem keeps_of_enqueueAll {f f' : ControlFlow} {s s' : Store} {frame : Frame}
    {indices : List Nat} {failure : Option Failure}
    (h : f.enqueueAll s frame indices = (failure, f', s')) :
    f'.body = f.body ∧ f'.taken = f.taken := by
  have hk := enqueueAll_keeps f s frame indices
  rwa [h] at hk

theorem enqueueAll_concat (f : ControlFlow) (s : Store) (frame : Frame) (indices : List Nat)
    (index : Nat) : f.enqueueAll s frame (indices ++ [index]) =
      match f.enqueueAll s frame indices with
      | (some failure, f, s) => (some failure, f, s)
      | (none, f, s) => f.enqueue s index frame := by
  induction indices generalizing f s with
  | nil =>
    simp only [List.nil_append, enqueueAll]
    generalize f.enqueue s index frame = result
    obtain ⟨_ | failure, f, s⟩ := result <;> rfl
  | cons first indices ih =>
    rw [List.cons_append, enqueueAll, enqueueAll]
    generalize f.enqueue s first frame = result
    obtain ⟨_ | failure, f, s⟩ := result
    · exact ih f s
    · rfl

/-- Which edges have been followed does not matter to the frames that wait. -/
theorem enqueue_withTaken (f : ControlFlow) (s : Store) (index : Nat) (frame : Frame)
    (taken : List Edge) : { f with taken }.enqueue s index frame =
      ((f.enqueue s index frame).1, { (f.enqueue s index frame).2.1 with taken },
        (f.enqueue s index frame).2.2) := by
  unfold enqueue
  simp only [take, setWaiting]
  cases f.waiting[index]?.join with
  | none => rfl
  | some existing =>
    simp only
    cases s.joinFrames existing frame <;> rfl

theorem enqueueAll_withTaken (f : ControlFlow) (s : Store) (frame : Frame) (indices : List Nat)
    (taken : List Edge) : { f with taken }.enqueueAll s frame indices =
      ((f.enqueueAll s frame indices).1, { (f.enqueueAll s frame indices).2.1 with taken },
        (f.enqueueAll s frame indices).2.2) := by
  induction indices generalizing f s with
  | nil => rfl
  | cons index indices ih =>
    rw [enqueueAll, enqueueAll, enqueue_withTaken]
    generalize f.enqueue s index frame = result
    obtain ⟨_ | failure, f, s⟩ := result
    · exact ih f s
    · rfl

/-- Whether the edge had not been followed yet; it is followed now. -/
def takeBackEdge (f : ControlFlow) (edge : Edge) : Bool × ControlFlow :=
  if edge ∈ f.taken then (false, f) else (true, { f with taken := edge :: f.taken })

end ControlFlow

/-- What a branch has come to: what waits, and the backward target to jump to. -/
structure Fork where
  flow : ControlFlow
  store : Store
  back : Option Nat := none
deriving Inhabited

namespace Fork

/-- Leaves the frame at an index. -/
def leave (f : Fork) (frame : Frame) (index : Nat) : Option Failure × Fork :=
  let (failure, flow, store) := f.flow.enqueue f.store index frame
  (failure, { f with flow, store })

/-- Takes the branch at `index` to one target. At a forward target the frame waits. Of the backward
targets that are new the earliest is jumped to; at the others the frame waits for the walk to pass
them again. -/
def follow (index : Nat) (offset : Offset) (frame : Frame) (f : Fork) (target : Offset) :
    Option Failure × Fork :=
  match f.flow.body.indexOf? target with
  | none => (some (.invalidBranchTarget offset target), f)
  | some place =>
    if index < place then f.leave frame place
    else
      match f.flow.takeBackEdge (index, place) with
      | (false, _) => (none, f)
      | (true, flow) =>
        let f := { f with flow }
        match f.back with
        | none => (none, { f with back := some place })
        | some earlier =>
          if earlier ≤ place then f.leave frame place
          else
            let (failure, f) := f.leave frame earlier
            (failure, { f with back := some place })

/-- Takes the branch to each target, up to one that does not exist or where the frame does not
fit. -/
def followAll (index : Nat) (offset : Offset) (frame : Frame) (f : Fork) :
    List Offset → Option Failure × Fork
  | [] => (none, f)
  | target :: rest =>
    match f.follow index offset frame target with
    | (some failure, f) => (some failure, f)
    | (none, f) => f.followAll index offset frame rest

end Fork

/-- What a branch does: where the frame has to wait, the edges that are now followed, the earliest
backward target that was new, and a target that does not exist, which ends the plan. -/
structure Plan where
  joins : List Nat := []
  taken : List Edge
  back : Option Nat := none
  unknown : Option Offset := none
deriving Inhabited

namespace Plan

/-- A new backward edge: the earlier of the two targets is jumped to, at the other one the frame
waits for the walk to pass it again. -/
def addBack (p : Plan) (target : Nat) : Plan :=
  match p.back with
  | none => { p with back := some target }
  | some earlier =>
    if earlier ≤ target then { p with joins := p.joins ++ [target] }
    else { p with joins := p.joins ++ [earlier], back := some target }

def add (b : Body) (index : Nat) (p : Plan) (offset : Offset) : Plan :=
  if p.unknown.isSome then p
  else
    match b.indexOf? offset with
    | none => { p with unknown := some offset }
    | some target =>
      if index < target then { p with joins := p.joins ++ [target] }
      else if (index, target) ∈ p.taken then p
      else { p with taken := (index, target) :: p.taken }.addBack target

/-- The plan of a branch at `index`. -/
def ofBranch (b : Body) (index : Nat) (taken : List Edge) (offsets : List Offset) : Plan :=
  offsets.foldl (add b index) { taken }

/-- Nothing is forgotten, and a jump back uses an edge that was not followed before. -/
structure Extends (index : Nat) (taken : List Edge) (p : Plan) : Prop where
  keeps : taken ⊆ p.taken
  fresh : ∀ target, p.back = some target →
    target ≤ index ∧ ∃ used, used ≤ index ∧ (index, used) ∈ p.taken ∧ (index, used) ∉ taken

theorem Extends.addBack {index target : Nat} {taken : List Edge} {p : Plan}
    (h : Extends index taken p) (ht : target ≤ index) (hnew : (index, target) ∉ p.taken) :
    Extends index taken ({ p with taken := (index, target) :: p.taken }.addBack target) := by
  have hk : taken ⊆ (index, target) :: p.taken := fun e he => List.mem_cons_of_mem _ (h.keeps he)
  have hu : ∃ used, used ≤ index ∧ (index, used) ∈ (index, target) :: p.taken
      ∧ (index, used) ∉ taken :=
    ⟨target, ht, List.mem_cons_self .., fun hm => hnew (h.keeps hm)⟩
  unfold Plan.addBack
  split
  · exact ⟨hk, fun t he => ⟨by simp at he; omega, hu⟩⟩
  · rename_i earlier he
    split
    · exact ⟨hk, fun t hb => ⟨(h.fresh t hb).1, hu⟩⟩
    · exact ⟨hk, fun t hb => ⟨by simp at hb; omega, hu⟩⟩

theorem Extends.add {index : Nat} {taken : List Edge} {p : Plan} (b : Body)
    (h : Extends index taken p) (offset : Offset) : Extends index taken (p.add b index offset) := by
  unfold Plan.add
  split
  · exact h
  · split
    · exact ⟨h.keeps, h.fresh⟩
    · split
      · exact ⟨h.keeps, h.fresh⟩
      · split
        · exact h
        · exact h.addBack (by omega) (by assumption)

theorem Extends.addAll {index : Nat} {taken : List Edge} {p : Plan} (b : Body)
    (h : Extends index taken p) (offsets : List Offset) :
    Extends index taken (offsets.foldl (Plan.add b index) p) := by
  induction offsets generalizing p with
  | nil => exact h
  | cons offset offsets ih => exact ih (h.add b offset)

theorem extends_ofBranch (b : Body) (index : Nat) (taken : List Edge) (offsets : List Offset) :
    Extends index taken (ofBranch b index taken offsets) := by
  have h : Extends index taken { taken } := ⟨List.Subset.refl taken, by simp⟩
  exact h.addAll b offsets

theorem ofBranch_concat (b : Body) (index : Nat) (taken : List Edge) (offsets : List Offset)
    (offset : Offset) : ofBranch b index taken (offsets ++ [offset]) =
      (ofBranch b index taken offsets).add b index offset := by
  simp [ofBranch]

/-- Behind a target that does not exist nothing is planned. -/
theorem ofBranch_append_of_unknown {b : Body} {index : Nat} {taken : List Edge}
    {offsets : List Offset} (h : (ofBranch b index taken offsets).unknown.isSome = true)
    (more : List Offset) :
    ofBranch b index taken (offsets ++ more) = ofBranch b index taken offsets := by
  induction more generalizing offsets with
  | nil => rw [List.append_nil]
  | cons offset more ih =>
    have hadd : ofBranch b index taken (offsets ++ [offset]) = ofBranch b index taken offsets := by
      rw [ofBranch_concat, add, if_pos h]
    rw [List.append_cons, ih (hadd ▸ h), hadd]

end Plan

namespace Fork

variable {flow flow' : ControlFlow} {s s' : Store} {index : Nat} {offset target : Offset}
  {frame : Frame} {f : Fork} {p : Plan} {targets : List Offset} {failure : Failure}

/-- The branch has done what is planned. -/
structure Carries (flow : ControlFlow) (s : Store) (frame : Frame) (p : Plan) (f : Fork) :
    Prop where
  joins : { flow with taken := p.taken }.enqueueAll s frame p.joins = (none, f.flow, f.store)
  back : f.back = p.back
  known : p.unknown = none

theorem carries_nil (flow : ControlFlow) (s : Store) (frame : Frame) (index : Nat) :
    Carries flow s frame (Plan.ofBranch flow.body index flow.taken []) { flow, store := s } :=
  ⟨rfl, rfl, rfl⟩

theorem Carries.body (h : Carries flow s frame p f) : f.flow.body = flow.body :=
  (ControlFlow.keeps_of_enqueueAll h.joins).1

theorem Carries.taken (h : Carries flow s frame p f) : f.flow.taken = p.taken :=
  (ControlFlow.keeps_of_enqueueAll h.joins).2

/-- One more frame is left as planned, or does not fit. -/
theorem Carries.leave (h : Carries flow s frame p f) (place : Nat) :
    { flow with taken := p.taken }.enqueueAll s frame (p.joins ++ [place]) =
      ((f.leave frame place).1, (f.leave frame place).2.flow, (f.leave frame place).2.store) := by
  rw [ControlFlow.enqueueAll_concat, h.joins]
  rfl

theorem Carries.follows (h : Carries flow s frame p f) (edge : Edge) :
    Carries flow s frame { p with taken := edge :: p.taken }
      { f with flow := { f.flow with taken := edge :: p.taken } } := by
  refine ⟨?_, h.back, h.known⟩
  have hjoins := ControlFlow.enqueueAll_withTaken { flow with taken := p.taken } s frame p.joins
    (edge :: p.taken)
  rw [h.joins] at hjoins
  exact hjoins

/-- All that taking the branch to a target can come to, against what is planned then. -/
inductive Follows (flow : ControlFlow) (s : Store) (offset : Offset) (frame : Frame)
    (target : Offset) (p : Plan) : Option Failure × Fork → Prop where
  | carries {f : Fork} (h : Carries flow s frame p f) :
    Follows flow s offset frame target p (none, f)
  /-- A frame of another depth waits. -/
  | torn {failure : Failure} {f : Fork}
    (hjoins : { flow with taken := p.taken }.enqueueAll s frame p.joins =
      (some failure, f.flow, f.store)) :
    Follows flow s offset frame target p (some failure, f)
  /-- The target does not exist. -/
  | lost {f : Fork}
    (hjoins : { flow with taken := p.taken }.enqueueAll s frame p.joins = (none, f.flow, f.store))
    (hunknown : p.unknown = some target) :
    Follows flow s offset frame target p (some (.invalidBranchTarget offset target), f)

/-- A frame that is left as planned changes nothing else of the branch. -/
theorem follows_leave {back : Option Nat} {place : Nat} (h : Carries flow s frame p f) :
    Follows flow s offset frame target { p with joins := p.joins ++ [place], back }
      ((f.leave frame place).1, { (f.leave frame place).2 with back }) := by
  have hjoins := h.leave place
  generalize f.leave frame place = result at hjoins
  obtain ⟨_ | failure, f⟩ := result
  · exact .carries ⟨hjoins, rfl, h.known⟩
  · exact .torn hjoins

theorem follows_follow (h : Carries flow s frame p f) (target : Offset) :
    Follows flow s offset frame target (p.add flow.body index target)
      (f.follow index offset frame target) := by
  obtain ⟨joins, taken, back, unknown⟩ := p
  obtain ⟨flow₁, store₁, back₁⟩ := f
  obtain rfl : back₁ = back := h.back
  obtain rfl : unknown = none := h.known
  have hbody : flow₁.body = flow.body := h.body
  have htaken : flow₁.taken = taken := h.taken
  unfold follow Plan.add
  simp only [hbody, Option.isSome_none, Bool.false_eq_true, ↓reduceIte]
  cases flow.body.indexOf? target with
  | none => exact .lost h.joins rfl
  | some place =>
    simp only [ControlFlow.takeBackEdge, htaken]
    split
    · exact follows_leave h
    · split
      · exact .carries h
      · have hnew := h.follows (index, place)
        unfold Plan.addBack
        cases back₁ with
        | none => exact .carries ⟨hnew.joins, rfl, rfl⟩
        | some earlier =>
          simp only
          split
          · exact follows_leave hnew
          · exact follows_leave hnew

/-- All that taking a branch can come to, against its plan. -/
inductive Takes (flow : ControlFlow) (s : Store) (index : Nat) (offset : Offset) (frame : Frame)
    (targets : List Offset) : Option Failure × Fork → Prop where
  | carries {f : Fork}
    (h : Carries flow s frame (Plan.ofBranch flow.body index flow.taken targets) f) :
    Takes flow s index offset frame targets (none, f)
  /-- A frame of another depth waits at one of the targets. The edges behind it are not followed. -/
  | torn {seen : List Offset} {p : Plan} {failure : Failure} {f : Fork} (hseen : seen <+: targets)
    (hplan : p = Plan.ofBranch flow.body index flow.taken seen)
    (hjoins : { flow with taken := p.taken }.enqueueAll s frame p.joins =
      (some failure, f.flow, f.store)) :
    Takes flow s index offset frame targets (some failure, f)
  /-- One of the targets does not exist. -/
  | lost {p : Plan} {target : Offset} {f : Fork}
    (hplan : p = Plan.ofBranch flow.body index flow.taken targets)
    (hjoins : { flow with taken := p.taken }.enqueueAll s frame p.joins = (none, f.flow, f.store))
    (hunknown : p.unknown = some target) :
    Takes flow s index offset frame targets (some (.invalidBranchTarget offset target), f)

theorem takes_append {seen : List Offset}
    (h : Carries flow s frame (Plan.ofBranch flow.body index flow.taken seen) f)
    (rest : List Offset) : Takes flow s index offset frame (seen ++ rest)
      (f.followAll index offset frame rest) := by
  induction rest generalizing seen f with
  | nil =>
    rw [List.append_nil]
    exact .carries h
  | cons target rest ih =>
    have hfirst : Follows _ s offset frame target _ (f.follow index offset frame target) :=
      follows_follow h target
    rw [← Plan.ofBranch_concat] at hfirst
    rw [List.append_cons, followAll]
    generalize f.follow index offset frame target = result at hfirst
    cases hfirst with
    | carries hnext => exact ih hnext
    | torn hjoins => exact .torn (List.prefix_append _ _) rfl hjoins
    | lost hjoins hunknown =>
      have hall := Plan.ofBranch_append_of_unknown (by rw [hunknown]; rfl) rest
      exact .lost hall.symm hjoins hunknown

theorem takes_followAll (flow : ControlFlow) (s : Store) (index : Nat) (offset : Offset)
    (frame : Frame) (targets : List Offset) : Takes flow s index offset frame targets
      (({ flow, store := s } : Fork).followAll index offset frame targets) :=
  takes_append (carries_nil flow s frame index) targets

end Fork

end SinkTrace
