import SinkTrace.Proofs.Interpreter.Bound
import SinkTrace.Proofs.Interpreter.PathValues
import SinkTrace.Proofs.Interpreter.StackDepth
import SinkTrace.Proofs.Interpreter.Visits

/-!
How far a walk keeps up with loops. It follows every backward edge once, so it makes only so many
rounds; a path is covered if it jumps back in the order in which the walk did. Values that need
more rounds than that are missed.
-/

namespace SinkTrace

namespace Body

variable {b : Body} {back : List Edge} {edge : Edge} {i j k : Nat} {s t u : PathState}

/-- The path goes on without a jump back. -/
inductive Onward (b : Body) : Nat → PathState → Nat → PathState → Prop where
  | here {i : Nat} {s : PathState} : Onward b i s i s
  | goes {i j k : Nat} {s t u : PathState} (hg : b.Goes i s j t) (hlt : i < j)
    (ho : Onward b j t k u) : Onward b i s k u

theorem Onward.snoc (ho : b.Onward i s j t) (hg : b.Goes j t k u) (hlt : j < k) :
    b.Onward i s k u := by
  induction ho with
  | here => exact .goes hg hlt .here
  | goes hg' hlt' _ ih => exact .goes hg' hlt' (ih hg hlt)

theorem Onward.le (ho : b.Onward i s j t) : i ≤ j := by
  induction ho with
  | here => exact Nat.le_refl _
  | goes _ hlt _ ih => exact Nat.le_of_lt (Nat.lt_of_lt_of_le hlt ih)

/-- A path that has not jumped back comes from the first instruction. -/
theorem Path.of_nil (hp : b.Path [] i s) : 0 < b.size ∧ b.Onward 0 {} i s := by
  generalize hb : ([] : List Edge) = back at hp
  induction hp with
  | enter hsize => exact ⟨hsize, .here⟩
  | onward _ hg hlt ih => exact ⟨(ih hb).1, (ih hb).2.snoc hg hlt⟩
  | jumpBack => cases hb

/-- A path comes onward from its last jump back. -/
theorem Path.of_cons (hp : b.Path (edge :: back) i s) :
    ∃ s₀ t, b.Path back edge.1 s₀ ∧ b.Goes edge.1 s₀ edge.2 t ∧ edge.2 ≤ edge.1 ∧
      b.Onward edge.2 t i s := by
  generalize hb : edge :: back = all at hp
  induction hp with
  | enter => cases hb
  | onward _ hg hlt ih =>
    obtain ⟨s₀, t, hp, hg', hle, ho⟩ := ih hb
    exact ⟨s₀, t, hp, hg', hle, ho.snoc hg hlt⟩
  | jumpBack hp hg hle =>
    cases hb
    exact ⟨_, _, hp, hg, hle, .here⟩

/-- An instruction with one target leads there, or to the next one. -/
theorem Leads.of_target {instruction : Instruction} {o : Offset} (hl : b.Leads i j)
    (hcode : b.code[i]? = some instruction) (htargets : instruction.targets = [o])
    (ho : b.indexOf? o = some k) : j = k ∨ instruction.fallsThrough = true ∧ j = i + 1 := by
  cases hl with
  | next hi hf _ =>
    cases hcode.symm.trans hi
    exact .inr ⟨hf, rfl⟩
  | jump hi hm hj =>
    cases hcode.symm.trans hi
    rw [htargets, List.mem_singleton] at hm
    cases hm
    exact .inl (Option.some.inj (hj.symm.trans ho))

end Body

/-- The plan of a branch with one target. -/
theorem Plan.single_cases {b : Body} {i j : Nat} {taken : List Edge} {o : Offset} {plan : Plan}
    (ho : b.indexOf? o = some j) (hplan : plan = Plan.ofBranch b i taken [o]) :
    i < j ∧ plan = { joins := [j], taken } ∨
      j ≤ i ∧ (i, j) ∈ taken ∧ plan = { taken } ∨
      j ≤ i ∧ (i, j) ∉ taken ∧ plan = { taken := (i, j) :: taken, back := some j } := by
  subst hplan
  simp only [ofBranch, List.foldl_cons, List.foldl_nil, add, ho, addBack, List.nil_append,
    Option.isSome_none, Bool.false_eq_true, ↓reduceIte]
  split
  · exact .inl ⟨‹_›, rfl⟩
  · have hle : j ≤ i := Nat.le_of_not_lt ‹_›
    split
    · exact .inr (.inl ⟨hle, ‹_›, rfl⟩)
    · exact .inr (.inr ⟨hle, ‹_›, rfl⟩)

/-- All targets exist. -/
theorem Plan.unknown_ofBranch {b : Body} {offsets : List Offset} (i : Nat) (taken : List Edge)
    (ho : ∀ o ∈ offsets, ∃ j, b.indexOf? o = some j) :
    (Plan.ofBranch b i taken offsets).unknown = none := by
  unfold ofBranch
  generalize hp : ({ taken } : Plan) = p
  have hu : p.unknown = none := hp ▸ rfl
  clear hp
  induction offsets generalizing p with
  | nil => exact hu
  | cons o offsets ih =>
    obtain ⟨⟨j, hj⟩, hrest⟩ := List.forall_mem_cons.mp ho
    refine ih hrest (p.add b i o) ?_
    simp only [add, hu, hj, Option.isSome_none, Bool.false_eq_true, ↓reduceIte]
    split
    · rfl
    · split
      · exact hu
      · rw [unknown_addBack]

theorem Instruction.Plain.targets {m : MethodRef} {i : Instruction} (hi : i.Plain m) :
    i.targets = [] ∨ ∃ o, i.targets = [o] := by
  unfold Instruction.Plain at hi
  split at hi
  all_goals simp_all [Instruction.targets]

namespace Interpreter

variable {b : Body} {m : MethodRef} {w next : Interpreter} {c c₁ c' : Context} {log : List Nat}
  {back : List Edge} {i j : Nat} {s s' t : PathState} {frame : Frame} {instruction : Instruction}

/-- A frame is held that keeps up with the path. -/
def HoldsFor (w : Interpreter) (c : Context) (i : Nat) (s : PathState) : Prop :=
  ∃ frame, w.Holds i frame ∧ c.Covers frame s

/-- The instruction was run in keeping with the path, and all jumps back from it are made. -/
structure Passed (b : Body) (w : Interpreter) (c : Context) (i : Nat) (s : PathState) : Prop where
  locals : ∀ {instruction s'}, b.code[i]? = some instruction → instruction.assign s = some s' →
    c.CoversLocals s'
  back : ∀ {j}, b.Leads i j → j ≤ i → (i, j) ∈ w.flow.taken

/-- The walk has passed the path, or holds a frame that goes on to where it is. -/
def KeepsUp (b : Body) (w : Interpreter) (c : Context) (i : Nat) (s : PathState) : Prop :=
  (∃ j t, w.HoldsFor c j t ∧ b.Onward j t i s) ∨ Passed b w c i s

/-- The walk keeps up with all paths that jump back in the order in which it did. -/
structure Tracks (b : Body) (m : MethodRef) (w : Interpreter) (c : Context) : Prop where
  ready : c.Ready m
  paths : ∀ {back i s}, b.Path back i s → back.Sublist w.flow.taken → KeepsUp b w c i s

/-- The walk has run the instruction at the cursor: whatever a frame there kept up with is kept up
with behind it, except by a jump back that was made before. -/
structure Advances (b : Body) (w : Interpreter) (c : Context) (next : Interpreter) (c' : Context) :
    Prop where
  gains : c.Gains c'
  keeps : ∀ {j frame}, w.Holds j frame → j ≠ w.cursor →
    ∃ other, next.Holds j other ∧ c.store.PassesAll frame c'.store other
  locals : ∀ {instruction s s'}, w.HoldsFor c w.cursor s → b.code[w.cursor]? = some instruction →
    instruction.assign s = some s' → c'.CoversLocals s'
  leads : ∀ {s j s'}, w.HoldsFor c w.cursor s → b.Goes w.cursor s j s' →
    w.cursor < j ∨ (w.cursor, j) ∉ w.flow.taken → next.HoldsFor c' j s'
  back : ∀ {j}, b.Leads w.cursor j → j ≤ w.cursor → (w.cursor, j) ∈ next.flow.taken
  taken : next.flow.taken = w.flow.taken ∨ ∃ j, (w.cursor, j) ∉ w.flow.taken ∧
    next.flow.taken = (w.cursor, j) :: w.flow.taken

theorem Advances.subset (ha : Advances b w c next c') : w.flow.taken ⊆ next.flow.taken := by
  rcases ha.taken with he | ⟨j, _, he⟩
  · exact he ▸ List.Subset.refl _
  · exact he ▸ List.subset_cons_self ..

theorem Passed.advances (hp : Passed b w c i s) (ha : Advances b w c next c') :
    Passed b next c' i s :=
  ⟨fun hi hs => (hp.locals hi hs).gains ha.gains, fun hl hle => ha.subset (hp.back hl hle)⟩

theorem HoldsFor.onward (hh : w.HoldsFor c j t) (ho : b.Onward j t i s)
    (ha : Advances b w c next c') : KeepsUp b next c' i s := by
  by_cases hj : j = w.cursor
  · subst hj
    cases ho with
    | here => exact .inr ⟨ha.locals hh, ha.back⟩
    | goes hg hlt ho => exact .inl ⟨_, _, ha.leads hh hg (.inl hlt), ho⟩
  · obtain ⟨frame, hheld, hv⟩ := hh
    obtain ⟨other, hother, hp⟩ := ha.keeps hheld hj
    exact .inl ⟨j, t, ⟨other, hother, hv.gains ha.gains hp⟩, ho⟩

theorem Covering.cursor_le (hc : Covering b m log w) (hh : w.Holds i frame) : w.cursor ≤ i := by
  rcases hh with hw | ⟨rfl, _⟩
  · exact hc.ahead hw
  · exact Nat.le_refl _

theorem Tracks.advances (ht : Tracks b m w c) (hc : Covering b m log w)
    (ha : Advances b w c next c') : Tracks b m next c' := by
  have hold : ∀ {back i s}, b.Path back i s → back.Sublist w.flow.taken →
      KeepsUp b next c' i s := by
    intro back i s hp hb
    rcases ht.paths hp hb with ⟨j, t, hh, ho⟩ | hpassed
    · exact hh.onward ho ha
    · exact .inr (hpassed.advances ha)
  refine ⟨ha.gains.ready ht.ready, fun {back i s} hp hb => ?_⟩
  rcases ha.taken with he | ⟨k, hnew, he⟩
  · exact hold hp (he ▸ hb)
  · rw [he, List.sublist_cons_iff] at hb
    rcases hb with hb | ⟨back, rfl, hb⟩
    · exact hold hp hb
    · -- the path ends with the jump that was just made, so it came to the cursor before
      obtain ⟨s₀, t, hp₀, hg, hle, ho⟩ := hp.of_cons
      rcases ht.paths hp₀ hb with ⟨j, t₀, hh, ho₀⟩ | hpassed
      · have hj : j = w.cursor := by
          obtain ⟨frame, hheld, _⟩ := hh
          exact Nat.le_antisymm ho₀.le (hc.cursor_le hheld)
        subst hj
        cases ho₀ with
        | here => exact .inl ⟨_, _, ha.leads hh hg (.inr hnew), ho⟩
        | goes _ hlt ho₀ => exact absurd ho₀.le (Nat.not_le.mpr hlt)
      · exact absurd (hpassed.back hg.leads hle) hnew

theorem Tracks.skip (ht : Tracks b m w c) (hnone : ∀ frame, ¬ w.Holds w.cursor frame) :
    Tracks b m (w.cleared.advance none) c := by
  refine ⟨ht.ready, fun {back i s} hp hb => ?_⟩
  rcases ht.paths hp hb with ⟨j, t, ⟨frame, hheld, hv⟩, ho⟩ | hpassed
  · rcases hheld with hw | ⟨rfl, hlt, hcur⟩
    · have hne : j ≠ w.cursor := fun he => hnone frame (he ▸ .inl hw)
      exact .inl ⟨j, t, ⟨frame, .inl (ControlFlow.waits_take.mpr ⟨hne, hw⟩), hv⟩, ho⟩
    · exact absurd (.inr ⟨rfl, hlt, hcur⟩) (hnone frame)
  · exact .inr ⟨hpassed.locals, hpassed.back⟩

/-! Running an instruction. -/

/-- The instruction at the cursor was run on a frame that kept up with all that was held there, and
has left another one. The walk leaves that frame at `joins` and goes on with it. -/
theorem advances_of (taken : List Edge) (joins : List Nat) {flow : ControlFlow} {store : Store}
    (hbody : w.flow.body = b) (hsize : w.flow.waiting.size = w.flow.body.size)
    (hcode : b.code[w.cursor]? = some instruction) (hgains : c.Gains c₁)
    (hcovers : ∀ {s s'}, w.HoldsFor c w.cursor s → instruction.assign s = some s' →
      c₁.Covers frame s')
    (hparked : ({ w.cleared.flow with taken } : ControlFlow).enqueueAll c₁.store frame joins =
      (none, flow, store))
    (hflow : next.flow = flow)
    (hserves : ∀ {j}, b.Leads w.cursor j → w.cursor < j ∨ (w.cursor, j) ∉ w.flow.taken →
      j ∈ joins ∨ j = next.cursor ∧ next.current = some frame)
    (hback : ∀ {j}, b.Leads w.cursor j → j ≤ w.cursor → (w.cursor, j) ∈ taken)
    (htaken : taken = w.flow.taken ∨ ∃ j, (w.cursor, j) ∉ w.flow.taken ∧
      taken = (w.cursor, j) :: w.flow.taken) :
    Advances b w c next { c₁ with store } := by
  obtain ⟨hgrows, hwaits, hjoins⟩ := ControlFlow.keeps_enqueueAll hgains.grows.calm hparked
  have hkeeps := ControlFlow.keeps_of_enqueueAll hparked
  have hmore : c₁.Gains { c₁ with store } := .of_grows hgrows
  have hwidth : w.cleared.flow.waiting.size = b.size :=
    (w.flow.size_setWaiting _ _).trans (hsize.trans (congrArg Body.size hbody))
  have hnextBody : next.flow.body = b := hflow ▸ hkeeps.1.trans hbody
  have hnextTaken : next.flow.taken = taken := hflow ▸ hkeeps.2
  refine ⟨hgains.trans hmore, fun {j other} hh hj => ?_, fun {i s s'} hh hi hs => ?_,
    fun {s j s'} hh hg hnew => ?_, fun hl hle => hnextTaken ▸ hback hl hle, hnextTaken ▸ htaken⟩
  · rcases hh with hw | ⟨rfl, _⟩
    · obtain ⟨joined, hwaiting, hp⟩ := hwaits (ControlFlow.waits_take.mpr ⟨hj, hw⟩)
      exact ⟨joined, .inl (hflow ▸ hwaiting), (hgains.grows.passesAll other).trans hp⟩
    · exact absurd rfl hj
  · cases hcode.symm.trans hi
    exact (hcovers hh hs).locals.gains hmore
  · obtain ⟨_, hi, hs⟩ := hg.assign
    cases hcode.symm.trans hi
    have hv := hcovers hh hs
    rcases hserves hg.leads hnew with hj | ⟨rfl, hcurrent⟩
    · obtain ⟨joined, hwaiting, hp⟩ := hjoins j hj (hwidth ▸ hg.leads.lt_size)
      exact ⟨joined, .inl (hflow ▸ hwaiting), hv.gains hmore hp⟩
    · exact ⟨frame, .inr ⟨rfl, hnextBody ▸ hg.leads.lt_size, hcurrent⟩, hv.gains_self hmore⟩

section Running

variable (hbody : w.flow.body = b) (hsize : w.flow.waiting.size = w.flow.body.size)
  (hcode : b.code[w.cursor]? = some instruction) (hgains : c.Gains c₁)
  (hcovers : ∀ {s s'}, w.HoldsFor c w.cursor s → instruction.assign s = some s' →
    c₁.Covers frame s')

include hbody hsize hcode hgains hcovers

/-- The path goes on behind the instruction, and all jumps from it were made before. -/
theorem advances_advance {current : Option Frame}
    (hcurrent : instruction.fallsThrough = true → current = some frame)
    (hjumps : ∀ o ∈ instruction.targets, ∀ {j}, b.indexOf? o = some j →
      j ≤ w.cursor ∧ (w.cursor, j) ∈ w.flow.taken) :
    Advances b w c (w.cleared.advance current) c₁ := by
  refine advances_of w.flow.taken [] hbody hsize hcode hgains hcovers rfl rfl ?_ ?_ (.inl rfl)
  · intro j hl hnew
    cases hl with
    | next hi hf _ =>
      cases hcode.symm.trans hi
      exact .inr ⟨rfl, hcurrent hf⟩
    | jump hi ho hj =>
      cases hcode.symm.trans hi
      obtain ⟨hle, hin⟩ := hjumps _ ho hj
      rcases hnew with hlt | hnot
      · exact absurd hle (Nat.not_le.mpr hlt)
      · exact absurd hin hnot
  · intro j hl hle
    cases hl with
    | next => exact absurd hle (Nat.not_succ_le_self _)
    | jump hi ho hj =>
      cases hcode.symm.trans hi
      exact (hjumps _ ho hj).2

theorem advances_branch {o : Offset} {k : Nat} {offset : Offset}
    (htargets : instruction.targets = [o]) (ho : b.indexOf? o = some k)
    (h : w.cleared.branch c₁ offset instruction.targets instruction.fallsThrough frame =
      .more next c') : Advances b w c next c' := by
  have ho' : w.cleared.flow.body.indexOf? o = some k := hbody ▸ ho
  have hjump : ∀ {j}, b.Leads w.cursor j →
      j = k ∨ instruction.fallsThrough = true ∧ j = w.cursor + 1 :=
    fun hl => hl.of_target hcode htargets ho
  have hnext : ¬ w.cursor + 1 ≤ w.cursor := Nat.not_succ_le_self _
  cases branches_of_branch h with
  | back hplan _ hback hparked =>
    rw [htargets] at hplan
    obtain ⟨_, rfl⟩ | ⟨_, _, rfl⟩ | ⟨hle, hout, rfl⟩ := Plan.single_cases ho' hplan
    · cases hback
    · cases hback
    · -- the walk jumps back, and leaves the stack behind for the other way
      cases hback
      refine advances_of ((w.cursor, k) :: w.flow.taken) _ hbody hsize hcode hgains hcovers
        hparked rfl ?_ ?_ (.inr ⟨k, hout, rfl⟩)
      · intro j hl _
        rcases hjump hl with rfl | ⟨hf, rfl⟩
        · exact .inr ⟨rfl, rfl⟩
        · exact .inl (by simp [hf, cleared])
      · intro j hl hle
        rcases hjump hl with rfl | ⟨_, rfl⟩
        · exact List.mem_cons_self
        · exact absurd hle hnext
  | ahead hplan _ hback hparked =>
    rw [htargets] at hplan
    obtain ⟨hlt, rfl⟩ | ⟨hle, hin, rfl⟩ | ⟨_, _, rfl⟩ := Plan.single_cases ho' hplan
    · -- the stack is left at the target
      refine advances_of w.flow.taken [k] hbody hsize hcode hgains hcovers hparked rfl
        ?_ ?_ (.inl rfl)
      · intro j hl _
        rcases hjump hl with rfl | ⟨hf, rfl⟩
        · exact .inl (List.mem_singleton_self j)
        · exact .inr ⟨rfl, by simp [advance, hf]⟩
      · intro j hl hle
        rcases hjump hl with rfl | ⟨_, rfl⟩
        · exact absurd hle (Nat.not_le.mpr hlt)
        · exact absurd hle hnext
    · -- the jump back was made before
      cases hparked
      refine advances_advance hbody hsize hcode hgains hcovers (fun hf => by simp [hf]) ?_
      intro o' hm j hj
      rw [htargets, List.mem_singleton] at hm
      cases hm
      cases ho.symm.trans hj
      exact ⟨hle, hin⟩
    · cases hback

end Running

theorem branch_nil (w : Interpreter) (c : Context) (offset : Offset) (conditional : Bool)
    (frame : Frame) : w.branch c offset [] conditional frame =
      .more (w.advance (if conditional then some frame else none)) c := by
  cases conditional <;> rfl

/-- A branch whose targets exist fails for the depth of the stack only. -/
theorem branch_ofDepth {offset : Offset} {targets : List Offset} {conditional : Bool}
    {failure : Failure} (ho : ∀ o ∈ targets, ∃ j, w.flow.body.indexOf? o = some j)
    (h : w.branch c offset targets conditional frame = .failed failure next c') :
    failure.OfDepth := by
  rcases branch_fails_cases h with hdepth | ⟨target, hunknown, -⟩
  · exact hdepth
  · cases (Plan.unknown_ofBranch w.cursor w.flow.taken ho).symm.trans hunknown

theorem gains_counted {store : Store} (hg : c.store.Grows store) :
    c.Gains { c with store, instructions := c.instructions + 1 } :=
  (Context.Gains.of_grows hg).trans ⟨.refl hg.calm, rfl, rfl, fun {_ a} ha => ⟨a, ha, fun _ => id⟩⟩

/-- What is held at the cursor is covered by the frame that the instruction is run on. -/
theorem HoldsFor.covers {store : Store} (hh : w.HoldsFor c w.cursor s) (hc : c.store.Calm)
    (hj : joinPaths c.store w.current (w.flow.take w.cursor).1 = .ok (some frame, store)) :
    ({ c with store, instructions := c.instructions + 1 } : Context).Covers frame s := by
  obtain ⟨hgrows, hpasses⟩ := joinPaths_passes hc hj
  have hg := gains_counted hgrows
  obtain ⟨held, hheld, hv⟩ := hh
  refine hv.gains hg (hpasses held ?_)
  rcases hheld with hw | ⟨_, _, hcurrent⟩
  · exact .inr (ControlFlow.take_fst.mpr hw)
  · exact .inl hcurrent

theorem advances_tick {depth : Nat → Nat} {i : Instruction} {store : Store}
    {result : EStateM.Result Failure Context Flow} (hr : c.Ready m) (hb : b.Plain m)
    (hd : b.Balanced m depth) (hk : Keeps b m (fun i d => b.Reaches i ∧ d = depth i) w)
    (he : w.Executes c i frame store result) :
    ∃ next c', w.tick c = .more next c' ∧ Advances b w c next c' := by
  have hbody := hk.body
  have hcode' : b.code[w.cursor]? = some i := hbody ▸ he.code
  have hgrows := (joinPaths_passes hr.calm he.joined).1
  have hg := gains_counted hgrows
  have hpops : i.pops m ≤ frame.length := by
    obtain ⟨held, hheld, hl⟩ := he.arrives.arrived
    obtain ⟨hreach, hdepth⟩ := hk.held hheld
    exact hl ▸ hdepth ▸ hd.enough hreach hcode'
  obtain ⟨flow, c₁, hrun, hf⟩ := execute_follows (hb.code hcode') (hg.ready hr) hpops
    ((w.flow.take w.cursor).2.isStraight w.cursor)
  rw [← hk.method] at hrun
  obtain rfl := he.result.symm.trans hrun
  have hgains : c.Gains c₁ := hg.trans hf.gains
  have hcovers : ∀ {s s'}, w.HoldsFor c w.cursor s → i.assign s = some s' →
      c₁.Covers flow.frame s' := fun hh hs => hf.covers (hh.covers hr.calm he.joined) hs
  have hsuits := he.suits
  have htick := he.tick_ok
  cases flow with
  | next after =>
    obtain ⟨_, _, htargets, _⟩ := hsuits
    exact ⟨w.cleared.advance (some after), c₁, htick, advances_advance hbody hk.size hcode' hgains
      hcovers (fun _ => rfl) (by simp [htargets])⟩
  | stop =>
    obtain ⟨_, hstops, htargets⟩ := hsuits
    exact ⟨w.cleared.advance none, c₁, htick, advances_advance hbody hk.size hcode' hgains
      hcovers (by simp [hstops]) (by simp [htargets])⟩
  | call e after => exact absurd rfl (hf.stays e after)
  | branch targets conditional after =>
    obtain ⟨_, rfl, rfl, _⟩ := hsuits
    cases hbranch : w.cleared.branch c₁ i.offset i.targets i.fallsThrough after with
    | more next c' =>
      refine ⟨next, c', htick.trans hbranch, ?_⟩
      rcases (hb.code hcode').targets with hnil | ⟨o, htargets⟩
      · rw [hnil, branch_nil] at hbranch
        cases hbranch
        exact advances_advance hbody hk.size hcode' hgains hcovers (fun h => if_pos h)
          (by simp [hnil])
      · obtain ⟨k, ho⟩ := hb.targets hcode' o (by simp [htargets])
        exact advances_branch hbody hk.size hcode' hgains hcovers htargets ho hbranch
    | effect e next c' => exact absurd hbranch (branch_ne_effect _ _ _ _ _ _ _ _ _)
    | done next c' => exact absurd hbranch (branch_ne_done _ _ _ _ _ _ _ _)
    | failed failure next c' =>
      have hdepth : failure.OfDepth :=
        branch_ofDepth (fun o ho => hbody ▸ hb.targets hcode' o ho) hbranch
      exact absurd hdepth (not_ofDepth_tick hd hk (htick.trans hbranch))

theorem Tracks.tick {depth : Nat → Nat} (ht : Tracks b m w c) (hb : b.Plain m)
    (hd : b.Balanced m depth) (hk : Keeps b m (fun i d => b.Reaches i ∧ d = depth i) w)
    (hc : Covering b m log w) :
    (∃ next c', w.tick c = .more next c' ∧ c.Gains c' ∧ Tracks b m next c') ∨
      (∃ next, w.tick c = .done next c ∧ b.size ≤ w.cursor ∧ next.flow = w.flow) ∨
      ∃ next c', w.tick c = .failed .overflow next c' ∧ c'.instructions = largestWord := by
  generalize h : w.tick c = t
  cases ticks_of_tick h with
  | done hend =>
    exact .inr (.inl ⟨_, rfl, hk.body ▸ Array.getElem?_eq_none_iff.mp hend, rfl⟩)
  | full _ _ hfull => exact .inr (.inr ⟨_, _, rfl, hfull⟩)
  | torn _ hj => exact absurd (joinPaths_ofDepth hj) (not_ofDepth_tick hd hk h)
  | skip _ hj =>
    obtain ⟨hcurrent, hincoming⟩ := joinPaths_none hj
    refine .inl ⟨_, c, rfl, .refl ht.ready.calm, ht.skip ?_⟩
    rintro frame (hw | ⟨_, _, hcur⟩)
    · cases (ControlFlow.take_fst.mpr hw).symm.trans hincoming
    · cases hcur.symm.trans hcurrent
  | fail he | next he | stop he | call he | branch he =>
    obtain ⟨next, c', hmore, ha⟩ := advances_tick ht.ready hb hd hk he
    exact .inl ⟨next, c', h.symm.trans hmore, ha.gains, ht.advances hc ha⟩

/-! Whole walks. -/

/-- At the end of the body no frame is held, so all paths that are kept up with have passed. -/
theorem Tracks.passed (ht : Tracks b m w c) (hc : Covering b m log w) (hend : b.size ≤ w.cursor)
    (hp : b.Path back i s) (hb : back.Sublist w.flow.taken) : Passed b w c i s := by
  have hend' : w.flow.body.size ≤ w.cursor := hc.body ▸ hend
  rcases ht.paths hp hb with ⟨j, t, ⟨frame, hw | ⟨_, hlt, _⟩, _⟩, _⟩ | hpassed
  · exact absurd hw (hc.not_waits hend' frame)
  · exact absurd hlt (Nat.not_lt.mpr hend')
  · exact hpassed

/-- A step comes to the end of the body, unless there is no room left to count an instruction. -/
theorem Tracks.step {depth : Nat → Nat} (ht : Tracks b m w c) (hb : b.Plain m)
    (hd : b.Balanced m depth) (hk : Keeps b m (fun i d => b.Reaches i ∧ d = depth i) w)
    (hc : Covering b m log w) :
    (∃ last c', w.step c = (.finished, last, c') ∧ c.Gains c' ∧
      ∀ {back i s}, b.Path back i s → back.Sublist last.flow.taken → Passed b last c' i s) ∨
    ∃ last c', w.step c = (.failed .overflow, last, c') ∧ c'.instructions = largestWord := by
  have htick := ht.tick hb hd hk hc
  fun_induction Interpreter.step w c generalizing log with
  | case1 w c next c₁ hmore ih =>
    rcases htick with ⟨_, _, hsame, hg, ht'⟩ | ⟨_, hdone, _⟩ | ⟨_, _, hfailed, _⟩
    · cases hmore.symm.trans hsame
      have hm := moves_of_tick hk.size (.inl hmore)
      have hk' := hk.moves (allows_balanced hd) hm
      have hc' := hc.moves hm
      refine (ih ht' hk' hc' (ht'.tick hb hd hk' hc')).imp_left ?_
      rintro ⟨last, c', hstep, hg', hpassed⟩
      exact ⟨last, c', hstep, hg.trans hg', hpassed⟩
    · cases hmore.symm.trans hdone
    · cases hmore.symm.trans hfailed
  | case2 w c effect next c₁ heffect =>
    rcases htick with ⟨_, _, hmore, _⟩ | ⟨_, hdone, _⟩ | ⟨_, _, hfailed, _⟩
    · cases heffect.symm.trans hmore
    · cases heffect.symm.trans hdone
    · cases heffect.symm.trans hfailed
  | case3 w c next c₁ hdone =>
    rcases htick with ⟨_, _, hmore, _⟩ | ⟨_, hsame, hend, hflow⟩ | ⟨_, _, hfailed, _⟩
    · cases hdone.symm.trans hmore
    · cases hdone.symm.trans hsame
      refine .inl ⟨next, c, rfl, .refl ht.ready.calm, fun {back i s} hp hback => ?_⟩
      rw [hflow] at hback
      have hpassed := ht.passed hc hend hp hback
      exact ⟨hpassed.locals, fun hl hle => hflow ▸ hpassed.back hl hle⟩
    · cases hdone.symm.trans hfailed
  | case4 w c failure next c₁ hfailed =>
    rcases htick with ⟨_, _, hmore, _⟩ | ⟨_, hdone, _⟩ | ⟨_, _, hsame, hfull⟩
    · cases hfailed.symm.trans hmore
    · cases hfailed.symm.trans hdone
    · cases hfailed.symm.trans hsame
      exact .inr ⟨_, _, rfl, hfull⟩

/-! The beginning. -/

theorem grows_entryFrame (kind : HandlerKind) {store : Store} (hc : store.Calm) :
    store.Grows (kind.entryFrame store).2 := by
  unfold HandlerKind.entryFrame
  split
  · exact hc.fake
  · exact hc.fake
  · exact .refl hc
  · exact .refl hc

theorem gains_start (hc : c.store.Calm) (h : start m b c = .ok (w, c')) : c.Gains c' := by
  have hkept := start_keeps (P := fun state => c.store.Grows state.2) (.refl hc)
    (fun handler _ entry _ state state' index hg _ hq => ?_) h
  · rw [hkept.2]
    exact .of_grows hkept.1
  · have hentry := grows_entryFrame handler.kind hg.calm
    exact hg.trans (hentry.trans (ControlFlow.keeps_enqueue hentry.calm hq).1)

/-- Only the path that has not begun needs to be kept up with. -/
theorem Fresh.tracks (hf : Fresh m b w) (hr : c.Ready m) : Tracks b m w c := by
  refine ⟨hr, fun {back i s} hp hb => .inl ⟨0, {}, ⟨[], ?_, ⟨.nil, nofun⟩⟩, ?_⟩⟩
  all_goals
    rw [hf.taken, List.sublist_nil] at hb
    subst hb
    obtain ⟨hsize, ho⟩ := hp.of_nil
  · exact .inr ⟨hf.cursor.symm, by rwa [hf.cursor, hf.body], hf.current⟩
  · exact ho

theorem instructions_addFormals (ts : List TypeRef) (c : Context) :
    (ts.foldl Context.addFormal c).instructions = c.instructions := by
  induction ts generalizing c with
  | nil => rfl
  | cons t ts ih => exact ih (c.addFormal t)

/-- A body that only moves values about is walked to its end, unless so many instructions are run
that they can no longer be counted. The walk follows every backward edge that a path follows, and if
a path follows its backward edges in the order in which the walk did, then each local may in the end
hold what it holds on the path. -/
theorem walk_covers_paths {locals : List TypeRef} {statics : Bool} (hb : b.Plain m)
    (hd : ∃ depth, b.Balanced m depth)
    (hs : start m b (Context.start m locals statics) = .ok (w, c)) :
    (∃ last c', w.step c = (.finished, last, c') ∧
      (∀ back i s, b.Path back i s → back.length ≤ 1 → back.Sublist last.flow.taken) ∧
      ∀ back i s instruction s', b.Path back i s → back.Sublist last.flow.taken →
        b.code[i]? = some instruction → instruction.assign s = some s' →
        ∀ l a e, s'.locals l = some a → (Context.start m locals statics).formal? a = some e →
          ∃ es, c'.held l = some es ∧ e ∈ es) ∨
    ∃ last c', w.step c = (.failed .overflow, last, c') ∧
      largestWord.toNat ≤ (w.trace c).length := by
  obtain ⟨depth, hd⟩ := hd
  have hf := fresh_start hs
  have hready := Context.ready_start m locals statics
  have hg := gains_start hready.calm hs
  rcases (hf.tracks (hg.ready hready)).step hb hd (hf.keeps (allows_balanced hd)) hf.covering with
    ⟨last, c', hstep, hg', hpassed⟩ | ⟨last, c', hstep, hfull⟩
  · refine .inl ⟨last, c', hstep, fun back i s hp hlen => ?_,
      fun back i s instruction s' hp hback hi hs l a e hl he => ?_⟩
    · cases back with
      | nil => exact List.nil_sublist _
      | cons edge back =>
        obtain rfl : back = [] := List.length_eq_zero_iff.mp (by simpa using hlen)
        obtain ⟨s₀, t, hp₀, hgoes, hle, _⟩ := hp.of_cons
        exact List.singleton_sublist.mpr ((hpassed hp₀ (List.nil_sublist _)).back hgoes.leads hle)
    · rw [← (hg.trans hg').formal? a] at he
      obtain ⟨slot, hslot, hh⟩ := (hpassed hp hback).locals hi hs l a e hl he
      exact ⟨_, by rw [Context.held, hslot, Option.map_some], hh.mem_materialize⟩
  · refine .inr ⟨last, c', hstep, full_of_step hstep ?_ hfull⟩
    obtain ⟨-, hc⟩ :=
      start_keeps (P := fun _ => True) trivial (fun _ _ _ _ _ _ _ _ _ _ => trivial) hs
    rw [hc]
    exact (instructions_addFormals _ _).trans (by cases statics <;> rfl)

/-! A loop that hands a value on from local to local, one in each round. -/

def climb : MethodRef where
  declaring := ⟨"T", false⟩
  name := "Climb"
  parameters := [⟨"System.Object", false⟩, ⟨"System.Boolean", true⟩]
  result := ⟨"System.Object", false⟩
  hasThis := false

def climbBody : Body where
  code := #[⟨0, .ldloc, .local 1⟩, ⟨1, .stloc, .local 2⟩, ⟨2, .ldloc, .local 0⟩,
    ⟨3, .stloc, .local 1⟩, ⟨4, .ldarg, .arg 0⟩, ⟨5, .stloc, .local 0⟩, ⟨6, .ldarg, .arg 1⟩,
    ⟨7, .brIf true, .target 0⟩, ⟨8, .ldloc, .local 2⟩, ⟨9, .ret, .absent⟩]

def climbing : Interpreter where
  method := climb
  flow := ControlFlow.ofBody climbBody

def climbContext : Context := Context.start climb [] false

/-- The locals after one more round. -/
def climbed (f : Nat → Option Nat) : Nat → Option Nat :=
  Function.update (Function.update (Function.update f 2 (f 1)) 1 (f 0)) 0 (some 0)

/-- From the first instruction to the test of the loop. -/
theorem path_climb {back : List Edge} {f : Nat → Option Nat}
    (hp : climbBody.Path back 0 { locals := f }) :
    climbBody.Path back 7 { stack := [some 1], locals := climbed f } := by
  have h₁ := hp.onward ⟨.next rfl rfl (by decide), _, rfl, rfl⟩ (Nat.lt_succ_self 0)
  have h₂ := h₁.onward ⟨.next rfl rfl (by decide), _, rfl, rfl⟩ (Nat.lt_succ_self 1)
  have h₃ := h₂.onward ⟨.next rfl rfl (by decide), _, rfl, rfl⟩ (Nat.lt_succ_self 2)
  have h₄ := h₃.onward ⟨.next rfl rfl (by decide), _, rfl, rfl⟩ (Nat.lt_succ_self 3)
  have h₅ := h₄.onward ⟨.next rfl rfl (by decide), _, rfl, rfl⟩ (Nat.lt_succ_self 4)
  have h₆ := h₅.onward ⟨.next rfl rfl (by decide), _, rfl, rfl⟩ (Nat.lt_succ_self 5)
  exact h₆.onward ⟨.next rfl rfl (by decide), _, rfl, rfl⟩ (Nat.lt_succ_self 6)

theorem path_round {back : List Edge} {f : Nat → Option Nat}
    (hp : climbBody.Path back 0 { locals := f }) :
    climbBody.Path ((7, 0) :: back) 0 { locals := climbed f } :=
  (path_climb hp).jumpBack ⟨.jump rfl (List.mem_singleton_self 0) rfl, _, rfl, rfl⟩ (Nat.zero_le 7)

theorem plain_climbBody : climbBody.Plain climb where
  code {i instruction} hi := by
    obtain ⟨hlt, rfl⟩ := Array.getElem?_eq_some_iff.mp hi
    have hall : ∀ i : Fin 10, climbBody.code[i].Plain climb := by decide
    exact hall ⟨i, hlt⟩
  targets {i instruction} hi o ho := by
    obtain ⟨hlt, rfl⟩ := Array.getElem?_eq_some_iff.mp hi
    have hall : ∀ i : Fin 10, ∀ o ∈ climbBody.code[i].targets, climbBody.indexOf? o = some 0 := by
      decide
    exact ⟨0, hall ⟨i, hlt⟩ o ho⟩

theorem balanced_climbBody : climbBody.Balanced climb fun i => i % 2 where
  first _ := rfl
  handler hh := absurd hh List.not_mem_nil
  enough {i instruction} _ hi := by
    obtain ⟨hlt, rfl⟩ := Array.getElem?_eq_some_iff.mp hi
    have hall : ∀ i : Fin 10, climbBody.code[i].pops climb ≤ i.val % 2 := by decide
    exact hall ⟨i, hlt⟩
  leads {i j instruction} _ hi _ hl := by
    obtain ⟨hlt, rfl⟩ := Array.getElem?_eq_some_iff.mp hi
    cases hl with
    | next hi' hf hn =>
      cases hi.symm.trans hi'
      have hall : ∀ i : Fin 10, climbBody.code[i].fallsThrough = true →
          (i.val + 1) % 2 = climbBody.code[i].depthAfter climb (i.val % 2) := by decide
      exact hall ⟨i, hlt⟩ hf
    | jump hi' ho hj =>
      cases hi.symm.trans hi'
      have hall : ∀ i : Fin 10, ∀ o ∈ climbBody.code[i].targets,
          ∀ j ∈ climbBody.indexOf? o, j % 2 = climbBody.code[i].depthAfter climb (i.val % 2) := by
        decide
      exact hall ⟨i, hlt⟩ _ ho j hj

theorem start_climbing : start climb climbBody climbContext = .ok (climbing, climbContext) := rfl

theorem climbing_ends : (climbing.step climbContext).1 = .finished := by decide +kernel

theorem third_round_missed : (climbing.step climbContext).2.2.held 2 = some [] := by decide +kernel

/-- After the second round the argument is in local 1, and the walk finds it there. After the third
round it is in local 2, but the walk makes only two rounds. -/
theorem climbing_covers_paths :
    climbBody.Plain climb ∧ (∃ depth, climbBody.Balanced climb depth) ∧
    start climb climbBody climbContext = .ok (climbing, climbContext) ∧
    ∃ last c', climbing.step climbContext = (.finished, last, c') ∧
      (∃ s, climbBody.Path [(7, 0)] 7 s ∧ s.locals 1 = some 0) ∧
      (∃ es, c'.held 1 = some es ∧ 0 ∈ es) ∧
      (∃ s, climbBody.Path [(7, 0), (7, 0)] 7 s ∧ s.locals 2 = some 0) ∧
      c'.held 2 = some [] := by
  have hd : ∃ depth, climbBody.Balanced climb depth := ⟨_, balanced_climbBody⟩
  have hends := climbing_ends
  obtain ⟨last, c', hstep, honce, hcovers⟩ | ⟨last, c', hstep, -⟩ :=
    walk_covers_paths plain_climbBody hd start_climbing
  case inr =>
    rw [hstep] at hends
    cases hends
  have hsecond := path_climb (path_round (.enter (by decide)))
  have hthird := path_climb (path_round (path_round (.enter (by decide))))
  have hmissed := third_round_missed
  rw [hstep] at hmissed
  have hback := honce _ _ _ hsecond (Nat.le_refl 1)
  exact ⟨plain_climbBody, hd, start_climbing, last, c', hstep, ⟨_, hsecond, rfl⟩,
    hcovers _ _ _ _ _ hsecond hback rfl rfl 1 0 0 rfl rfl, ⟨_, hthird, rfl⟩, hmissed⟩

end Interpreter

end SinkTrace
