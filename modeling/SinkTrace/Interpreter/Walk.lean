import SinkTrace.Interpreter.Execute

/-!
The walk over a body. It visits the instructions in order, with the stack of the path that falls
through joined with the stacks that wait, stops at every call, and goes on behind it. It ends:
every step either moves on to the next instruction or follows a backward edge for the first time.
-/

namespace SinkTrace

structure Interpreter where
  method : MethodRef
  flow : ControlFlow
  cursor : Nat := 0
  /-- The stack of the path that reaches the cursor by falling through. -/
  current : Option Frame := some []
  finished : Bool := false
deriving Inhabited

/-- The outcome of one step of the walk. -/
inductive Tick where
  | more (walk : Interpreter) (context : Context)
  | effect (effect : CallEffect) (walk : Interpreter) (context : Context)
  | done (walk : Interpreter) (context : Context)
  | failed (failure : Failure) (walk : Interpreter) (context : Context)

/-- The stack with which control enters a handler: the exception, or nothing. -/
def HandlerKind.entryFrame (kind : HandlerKind) (s : Store) : Frame × Store :=
  match kind with
  | .catch | .filter =>
    let (slot, s) := s.fake
    ([slot], s)
  | .finally | .fault => ([], s)

namespace Interpreter

/-- Lets a frame wait at one entry of a handler. -/
def seedEntry (h : Handler) (state : ControlFlow × Store) (entry : Offset) :
    Except Failure (ControlFlow × Store) :=
  let (flow, store) := state
  match flow.body.indexOf? entry with
  | none => .error (.invalidBranchTarget h.tryStart entry)
  | some index =>
    let (frame, store) := h.kind.entryFrame store
    match flow.enqueue store index frame with
    | (some failure, _, _) => .error failure
    | (none, flow, store) => .ok (flow, store)

/-- Lets a frame wait at every handler, since any protected instruction may be interrupted. -/
def start (m : MethodRef) (b : Body) (c : Context) : Except Failure (Interpreter × Context) := do
  let entries := b.handlers.flatMap fun h => h.entries.map fun entry => (h, entry)
  let (flow, store) ← entries.foldlM (fun state (h, entry) => seedEntry h state entry)
    (ControlFlow.ofBody b, c.store)
  return ({ method := m, flow }, { c with store })

/-- The path that falls through joined with the one that waits. -/
def joinPaths (s : Store) : Option Frame → Option Frame → Except Failure (Option Frame × Store)
  | some current, some incoming => do
    let (joined, s) ← s.joinFrames current incoming
    return (some joined, s)
  | current, incoming => .ok (current.or incoming, s)

/-- Moves behind the cursor, with the stack of the path that falls through. -/
def advance (w : Interpreter) (current : Option Frame) : Interpreter :=
  { w with current, cursor := w.cursor + 1 }

/-- Follows a branch: forward targets receive the stack, and the earliest new backward target is
jumped to. A conditional branch that jumps back leaves its stack behind for the other way. -/
def branch (w : Interpreter) (c : Context) (offset : Offset) (targets : List Offset)
    (conditional : Bool) (frame : Frame) : Tick :=
  let fork : Fork := { flow := w.flow, store := c.store }
  match fork.followAll w.cursor offset frame targets with
  | (some failure, f) => .failed failure { w with flow := f.flow } { c with store := f.store }
  | (none, f) =>
    match f.back with
    | none =>
      .more ({ w with flow := f.flow }.advance (if conditional then some frame else none))
        { c with store := f.store }
    | some target =>
      match if conditional then f.leave frame (w.cursor + 1) else (none, f) with
      | (some failure, f) => .failed failure { w with flow := f.flow } { c with store := f.store }
      | (none, f) =>
        .more { w with flow := f.flow, current := some frame, cursor := target }
          { c with store := f.store }

/-- All that a branch can come to. What it leaves behind waits at `joins`. -/
inductive Branches (w : Interpreter) (c : Context) (offset : Offset) (targets : List Offset)
    (conditional : Bool) (frame : Frame) : Tick → Prop where
  /-- A frame of another depth waits at one of the targets, or behind the branch. The plan is that
  for the targets up to there. -/
  | torn {seen : List Offset} {plan : Plan} {joins : List Nat} {failure : Failure}
    {flow : ControlFlow} {store : Store} (hseen : seen <+: targets)
    (hplan : plan = Plan.ofBranch w.flow.body w.cursor w.flow.taken seen)
    (hjoins : ∀ j ∈ joins,
      j ∈ plan.joins ∨ conditional = true ∧ plan.back.isSome = true ∧ j = w.cursor + 1)
    (hparked : { w.flow with taken := plan.taken }.enqueueAll c.store frame joins =
      (some failure, flow, store)) :
    Branches w c offset targets conditional frame
      (.failed failure { w with flow } { c with store })
  /-- One of the targets does not exist. -/
  | lost {plan : Plan} {target : Offset} {flow : ControlFlow} {store : Store}
    (hplan : plan = Plan.ofBranch w.flow.body w.cursor w.flow.taken targets)
    (hunknown : plan.unknown = some target)
    (hparked : { w.flow with taken := plan.taken }.enqueueAll c.store frame plan.joins =
      (none, flow, store)) :
    Branches w c offset targets conditional frame
      (.failed (.invalidBranchTarget offset target) { w with flow } { c with store })
  | back {plan : Plan} {target : Nat} {flow : ControlFlow} {store : Store}
    (hplan : plan = Plan.ofBranch w.flow.body w.cursor w.flow.taken targets)
    (hunknown : plan.unknown = none) (hback : plan.back = some target)
    (hparked : { w.flow with taken := plan.taken }.enqueueAll c.store frame
      (plan.joins ++ if conditional then [w.cursor + 1] else []) = (none, flow, store)) :
    Branches w c offset targets conditional frame
      (.more { w with flow, current := some frame, cursor := target } { c with store })
  | ahead {plan : Plan} {flow : ControlFlow} {store : Store}
    (hplan : plan = Plan.ofBranch w.flow.body w.cursor w.flow.taken targets)
    (hunknown : plan.unknown = none) (hback : plan.back = none)
    (hparked : { w.flow with taken := plan.taken }.enqueueAll c.store frame plan.joins =
      (none, flow, store)) :
    Branches w c offset targets conditional frame
      (.more ({ w with flow }.advance (if conditional then some frame else none))
        { c with store })

theorem branches_of_branch {w : Interpreter} {c : Context} {offset : Offset}
    {targets : List Offset} {conditional : Bool} {frame : Frame} {t : Tick}
    (h : w.branch c offset targets conditional frame = t) :
    Branches w c offset targets conditional frame t := by
  subst h
  have htakes := Fork.takes_followAll w.flow c.store w.cursor offset frame targets
  unfold branch
  simp only
  generalize Fork.followAll w.cursor offset frame _ targets = result at htakes
  cases htakes with
  | torn hseen hplan hjoins => exact .torn hseen hplan (fun j hj => .inl hj) hjoins
  | lost hplan hjoins hunknown => exact .lost hplan hunknown hjoins
  | @carries f h =>
    simp only
    split
    · rename_i hnone
      exact .ahead rfl h.known (h.back.symm.trans hnone) h.joins
    · rename_i target hsome
      have hback := h.back.symm.trans hsome
      have hleft := h.leave (w.cursor + 1)
      cases conditional with
      | false => exact .back rfl h.known hback (by simpa using h.joins)
      | true =>
        simp only [↓reduceIte]
        generalize f.leave frame (w.cursor + 1) = result at hleft
        obtain ⟨_ | failure, f⟩ := result
        · exact .back rfl h.known hback hleft
        · refine .torn (List.prefix_refl _) rfl (fun j hj => ?_) hleft
          refine (List.mem_append.mp hj).imp_right fun hj => ⟨rfl, ?_, List.mem_singleton.mp hj⟩
          rw [hback]
          rfl

/-- Runs the instruction at the cursor, if a path reaches it. -/
def tick (w : Interpreter) (c : Context) : Tick :=
  match w.flow.body.code[w.cursor]? with
  | none => .done { w with current := none, finished := true } c
  | some instruction =>
    let (incoming, flow) := w.flow.take w.cursor
    let joined := joinPaths c.store w.current incoming
    -- both stacks are taken, also by an instruction that fails
    let w := { w with flow, current := none }
    match joined with
    | .error failure => .failed failure w c
    | .ok (none, _) => .more (w.advance none) c
    | .ok (some frame, store) =>
      match Context.countInstruction? { c with store } with
      | none => .failed .overflow w { c with store }
      | some c =>
        match execute w.method (flow.isStraight w.cursor) instruction frame c with
        | .error failure c => .failed failure w c
        | .ok (.next frame) c => .more (w.advance (some frame)) c
        | .ok .stop c => .more (w.advance none) c
        | .ok (.call effect frame) c => .effect effect (w.advance (some frame)) c
        | .ok (.branch targets conditional frame) c =>
          w.branch c instruction.offset targets conditional frame

/-- The walk once it has taken the frames at the cursor. -/
def cleared (w : Interpreter) : Interpreter :=
  { w with flow := (w.flow.take w.cursor).2, current := none }

/-- A tick runs the instruction `i` on the frame in which all paths that arrive are joined. -/
structure Executes (w : Interpreter) (c : Context) (i : Instruction) (frame : Frame)
    (store : Store) (result : EStateM.Result Failure Context Flow) : Prop where
  code : w.flow.body.code[w.cursor]? = some i
  joined : joinPaths c.store w.current (w.flow.take w.cursor).1 = .ok (some frame, store)
  /-- There is room to count the instruction. -/
  room : c.instructions ≠ largestWord
  result : execute w.method ((w.flow.take w.cursor).2.isStraight w.cursor) i frame
    { c with store, instructions := c.instructions + 1 } = result

section

variable {w : Interpreter} {c c' : Context} {i : Instruction} {frame : Frame} {store : Store}

theorem Executes.lt_size {result : EStateM.Result Failure Context Flow}
    (he : Executes w c i frame store result) : w.cursor < w.flow.body.size :=
  (Array.getElem?_eq_some_iff.mp he.code).1

theorem Executes.counts {result : EStateM.Result Failure Context Flow}
    (he : Executes w c i frame store result) :
    ({ c with store } : Context).countInstruction? =
      some { c with store, instructions := c.instructions + 1 } :=
  Context.countInstruction?_of_ne he.room

theorem Executes.tick_ok {flow : Flow} (he : Executes w c i frame store (.ok flow c')) :
    w.tick c = match flow with
      | .next after => .more (w.cleared.advance (some after)) c'
      | .stop => .more (w.cleared.advance none) c'
      | .call e after => .effect e (w.cleared.advance (some after)) c'
      | .branch targets conditional after =>
        w.cleared.branch c' i.offset targets conditional after := by
  unfold tick
  simp only [he.code, he.joined, he.counts, he.result]
  cases flow <;> rfl

theorem Executes.tick_error {failure : Failure}
    (he : Executes w c i frame store (.error failure c')) :
    w.tick c = .failed failure w.cleared c' := by
  unfold tick
  simp only [he.code, he.joined, he.counts, he.result]
  rfl

end

/-- All that a tick can come to. -/
inductive Ticks (w : Interpreter) (c : Context) : Tick → Prop where
  | done (hend : w.flow.body.code[w.cursor]? = none) :
    Ticks w c (.done { w with current := none, finished := true } c)
  | torn {i : Instruction} {failure : Failure} (hcode : w.flow.body.code[w.cursor]? = some i)
    (hjoin : joinPaths c.store w.current (w.flow.take w.cursor).1 = .error failure) :
    Ticks w c (.failed failure w.cleared c)
  | skip {i : Instruction} {store : Store} (hcode : w.flow.body.code[w.cursor]? = some i)
    (hjoin : joinPaths c.store w.current (w.flow.take w.cursor).1 = .ok (none, store)) :
    Ticks w c (.more (w.cleared.advance none) c)
  /-- There is no room to count the instruction. -/
  | full {i : Instruction} {frame : Frame} {store : Store}
    (hcode : w.flow.body.code[w.cursor]? = some i)
    (hjoin : joinPaths c.store w.current (w.flow.take w.cursor).1 = .ok (some frame, store))
    (hfull : c.instructions = largestWord) :
    Ticks w c (.failed .overflow w.cleared { c with store })
  | fail {i : Instruction} {frame : Frame} {store : Store} {failure : Failure} {c' : Context}
    (he : Executes w c i frame store (.error failure c')) :
    Ticks w c (.failed failure w.cleared c')
  | next {i : Instruction} {frame after : Frame} {store : Store} {c' : Context}
    (he : Executes w c i frame store (.ok (.next after) c')) :
    Ticks w c (.more (w.cleared.advance (some after)) c')
  | stop {i : Instruction} {frame : Frame} {store : Store} {c' : Context}
    (he : Executes w c i frame store (.ok .stop c')) :
    Ticks w c (.more (w.cleared.advance none) c')
  | call {i : Instruction} {frame after : Frame} {store : Store} {e : CallEffect} {c' : Context}
    (he : Executes w c i frame store (.ok (.call e after) c')) :
    Ticks w c (.effect e (w.cleared.advance (some after)) c')
  | branch {i : Instruction} {frame after : Frame} {store : Store} {targets : List Offset}
    {conditional : Bool} {c' : Context} {t : Tick}
    (he : Executes w c i frame store (.ok (.branch targets conditional after) c'))
    (hb : w.cleared.branch c' i.offset targets conditional after = t) : Ticks w c t

theorem ticks_of_tick {w : Interpreter} {c : Context} {t : Tick} (h : w.tick c = t) :
    Ticks w c t := by
  subst h
  unfold tick
  split
  · exact .done ‹_›
  · rename_i i hcode
    simp only
    split
    · exact .torn hcode ‹_›
    · exact .skip hcode ‹_›
    · rename_i frame store hjoin
      by_cases hroom : c.instructions = largestWord
      · rw [Context.countInstruction?_of_eq (c := { c with store }) hroom]
        exact .full hcode hjoin hroom
      · rw [Context.countInstruction?_of_ne (c := { c with store }) hroom]
        simp only
        split
        · exact .fail ⟨hcode, hjoin, hroom, ‹_›⟩
        · exact .next ⟨hcode, hjoin, hroom, ‹_›⟩
        · exact .stop ⟨hcode, hjoin, hroom, ‹_›⟩
        · exact .call ⟨hcode, hjoin, hroom, ‹_›⟩
        · exact .branch ⟨hcode, hjoin, hroom, ‹_›⟩ rfl

/-- Pairs of instruction indices. -/
def edges (n : Nat) : List Edge :=
  (List.range n).flatMap fun i => (List.range n).map fun j => (i, j)

theorem mem_edges {n i j : Nat} (hi : i < n) (hj : j < n) : (i, j) ∈ edges n :=
  List.mem_flatMap.mpr ⟨i, List.mem_range.mpr hi, List.mem_map.mpr ⟨j, List.mem_range.mpr hj, rfl⟩⟩

/-- Edges that have not been followed. -/
def edgesLeft (w : Interpreter) : Nat := unseen (edges w.flow.body.size) w.flow.taken.contains

/-- Instructions from the cursor on. -/
def codeLeft (w : Interpreter) : Nat := w.flow.body.size - w.cursor

/-- How far the walk is from its end: the whole body for every edge that has not been followed, and
the instructions from the cursor on. -/
def distance (w : Interpreter) : Nat := w.edgesLeft * (w.flow.body.size + 1) + w.codeLeft

theorem distance_lt_of_edgesLeft {w next : Interpreter} (hb : next.flow.body = w.flow.body)
    (h : next.edgesLeft < w.edgesLeft) : next.distance < w.distance := by
  have hcode : next.codeLeft ≤ w.flow.body.size := by
    unfold codeLeft
    rw [hb]
    exact Nat.sub_le _ _
  have hmul : (next.edgesLeft + 1) * (w.flow.body.size + 1) ≤
      w.edgesLeft * (w.flow.body.size + 1) := Nat.mul_le_mul_right _ h
  rw [Nat.add_mul, Nat.one_mul] at hmul
  unfold distance
  rw [hb]
  omega

/-- Moving on in the same body without forgetting an edge. -/
theorem distance_lt_of_advance {w next : Interpreter} (hc : w.cursor < w.flow.body.size)
    (hb : next.flow.body = w.flow.body) (ht : w.flow.taken ⊆ next.flow.taken)
    (hn : next.cursor = w.cursor + 1) : next.distance < w.distance := by
  have hedges : next.edgesLeft ≤ w.edgesLeft := by
    unfold edgesLeft
    rw [hb]
    exact unseen_le (contains_of_subset ht)
  have hmul := Nat.mul_le_mul_right (w.flow.body.size + 1) hedges
  unfold distance codeLeft
  rw [hb, hn]
  omega

theorem distance_lt_of_branch {w next : Interpreter} {c c' : Context} {offset : Offset}
    {targets : List Offset} {conditional : Bool} {frame : Frame}
    (hc : w.cursor < w.flow.body.size)
    (h : w.branch c offset targets conditional frame = .more next c') :
    next.distance < w.distance := by
  have hx := Plan.extends_ofBranch w.flow.body w.cursor w.flow.taken targets
  cases branches_of_branch h with
  | back hplan _ hback hparked =>
    obtain ⟨hbody, htaken⟩ := ControlFlow.keeps_of_enqueueAll hparked
    rw [← hplan] at hx
    obtain ⟨_, used, hu, hin, hout⟩ := hx.fresh _ hback
    apply distance_lt_of_edgesLeft hbody
    unfold edgesLeft
    rw [hbody, htaken]
    exact unseen_lt (contains_of_subset hx.keeps) (mem_edges hc (Nat.lt_of_le_of_lt hu hc))
      (by simpa using hout) (by simpa using hin)
  | ahead hplan _ _ hparked =>
    obtain ⟨hbody, htaken⟩ := ControlFlow.keeps_of_enqueueAll hparked
    rw [← hplan] at hx
    exact distance_lt_of_advance hc hbody (fun e he => htaken ▸ hx.keeps he) rfl

theorem distance_lt_of_tick {w next : Interpreter} {c c' : Context}
    (h : w.tick c = .more next c') : next.distance < w.distance := by
  cases ticks_of_tick h with
  | skip hcode =>
    exact distance_lt_of_advance (Array.getElem?_eq_some_iff.mp hcode).1 rfl
      (List.Subset.refl _) rfl
  | next he | stop he => exact distance_lt_of_advance he.lt_size rfl (List.Subset.refl _) rfl
  | branch he hb => exact distance_lt_of_branch (w := w.cleared) he.lt_size hb

/-- Why the walk paused. -/
inductive Pause where
  | call (effect : CallEffect)
  | finished
  | failed (failure : Failure)
deriving Repr, DecidableEq, Inhabited

/-- Walks on to the next call or to the end of the body. -/
def step (w : Interpreter) (c : Context) : Pause × Interpreter × Context :=
  match _ : w.tick c with
  | .more w c => w.step c
  | .effect effect w c => (.call effect, w, c)
  | .done w c => (.finished, w, c)
  | .failed failure w c => (.failed failure, w, c)
termination_by w.distance
decreasing_by exact distance_lt_of_tick ‹_›

end Interpreter

end SinkTrace
