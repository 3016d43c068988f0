import Mathlib.Algebra.Order.Ring.Nat
import Mathlib.Data.List.Nodup
import Mathlib.Logic.Relation
import Mathlib.Tactic.Ring
import SinkTrace.Proofs.Engine.Places

/-!
Every run comes to its end. What matters about an activation is its outline: the key, the stack,
the iteration it is in, and how many calls it can still make. A step takes a call away from the
topmost outline, starts it over in the next iteration, puts an outline with a new key on top of it,
or takes it away. Keys on the stack are distinct, so the stack is never higher than the program has
keys; an outline therefore weighs more than everything that can ever stand on top of it.
-/

namespace SinkTrace

/-! Bounds on the calls of one activation. -/

namespace Machine

theorem le_maximum {ns : List Nat} {n : Nat} (hn : n ∈ ns) : n ≤ maximum ns := by
  have hmax : ∀ (ns : List Nat) (m : Nat), m ≤ ns.foldl max m ∧ ∀ k ∈ ns, k ≤ ns.foldl max m := by
    intro ns
    induction ns with
    | nil => exact fun m => ⟨Nat.le_refl m, fun k hk => absurd hk List.not_mem_nil⟩
    | cons first rest ih =>
      intro m
      obtain ⟨hstart, hall⟩ := ih (max m first)
      refine ⟨Nat.le_trans (Nat.le_max_left m first) hstart, fun k hk => ?_⟩
      rcases List.mem_cons.mp hk with rfl | hk
      · exact Nat.le_trans (Nat.le_max_right m k) hstart
      · exact hall k hk
  exact (hmax ns 0).2 n hn

end Machine

/-- A bound on the calls of an activation that this target answers. -/
def CallTarget.calls : CallTarget → Nat
  | .method d =>
    let size := (d.body.map Body.size).getD 0
    (size * size + 1) * (size + 1)
  | .implementations methods => methods.length

theorem Setup.length_implementationsOf (s : Setup) (createdTypes : NameSet) (d : MethodDef)
    (called : Signature) :
    (s.implementationsOf createdTypes d called).length ≤
      ((s.program.implementations.get? called).getD []).length + 1 := by
  have hfound : (s.program.implementationsOf called (s.filter createdTypes)).length ≤
      ((s.program.implementations.get? called).getD []).length := by
    unfold Program.implementationsOf
    rw [List.length_map]
    exact List.length_filter_le _ _
  unfold Setup.implementationsOf
  simp only
  split
  · exact Nat.succ_le_succ hfound
  · exact Nat.le_succ_of_le hfound

theorem Setup.Offers.calls_le {s : Setup} {key : SummaryKey} {target : CallTarget}
    (ho : s.Offers key target) : target.calls ≤ Machine.callBound s.program := by
  cases ho with
  | @concrete called d hd =>
    have hsize := Machine.le_maximum (List.mem_map.mpr ⟨d, Table.mem_values_of_get? hd, rfl⟩ :
      (d.body.map Body.size).getD 0 ∈
        s.program.methods.values.map fun d => (d.body.map Body.size).getD 0)
    refine Nat.le_trans ?_ (Nat.le_max_left _ _)
    exact Nat.mul_le_mul (Nat.succ_le_succ (Nat.mul_le_mul hsize hsize)) (Nat.succ_le_succ hsize)
  | @virtual called d hd createdTypes =>
    refine Nat.le_trans (s.length_implementationsOf createdTypes d called) ?_
    refine Nat.le_trans (Nat.succ_le_succ ?_) (Nat.le_max_right _ _)
    cases hi : s.program.implementations.get? called with
    | none => exact Nat.zero_le _
    | some listed =>
      exact Machine.le_maximum (List.mem_map.mpr ⟨listed, Table.mem_values_of_get? hi, rfl⟩)

/-- An activation starts with what its target allows. -/
theorem Activation.start_shape {key : SummaryKey} {method : MethodRef} {stack : CallStack}
    {target : CallTarget} {statics : Bool} {a : Activation}
    (hs : start key method stack target statics = .ok a) :
    a = { key, method, stack, target, context := a.context, work := a.work } ∧
      a.work.callsLeft ≤ target.calls := by
  cases starts_of_start hs with
  | @walk d body w c hb hw =>
    refine ⟨rfl, ?_⟩
    have hle := w.distance_le
    rw [Interpreter.body_start hw] at hle
    simpa [CallTarget.calls, Work.callsLeft, hb] using hle
  | dispatch methods => exact ⟨rfl, Nat.le_refl _⟩

/-! Outlines. -/

/-- What an activation looks like from the stack. -/
structure Outline where
  key : SummaryKey
  stack : CallStack
  target : CallTarget
  iteration : Nat
  callsLeft : Nat

def Activation.outline (a : Activation) : Outline :=
  ⟨a.key, a.stack, a.target, a.iteration, a.work.callsLeft⟩

namespace Outline

/-- The moves of the stack of outlines. -/
inductive Move (s : Setup) : List Outline → List Outline → Prop where
  | spends {o : Outline} {below : List Outline} {callsLeft : Nat} (hc : callsLeft < o.callsLeft) :
    Move s (o :: below) ({ o with callsLeft } :: below)
  | enters {o : Outline} {below : List Outline} {callsLeft : Nat} (hc : callsLeft < o.callsLeft)
    {key : SummaryKey} {target : CallTarget} (ho : s.Offers key target)
    (hk : key ∉ (o :: below).map Outline.key) {calls : Nat} (ht : calls ≤ target.calls) :
    Move s (o :: below) (⟨key, o.stack.push key, target, 1, calls⟩ :: { o with callsLeft } :: below)
  | restarts {o : Outline} {below : List Outline} {callsLeft : Nat}
    (hi : o.iteration < s.config.maxRecursionIterations.toNat) (hc : callsLeft ≤ o.target.calls) :
    Move s (o :: below) ({ o with iteration := o.iteration + 1, callsLeft } :: below)
  | leaves {o : Outline} {below : List Outline} : Move s (o :: below) below

end Outline

namespace Machine

variable {s : Setup} {m m' : Machine} {as : List Activation}

def outlines (m : Machine) : List Outline := m.activations.map Activation.outline

theorem map_modifyLevel {β : Type} {view : Activation → β} {f : Activation → Activation}
    (hf : ∀ a, view (f a) = view a) (level : Nat) (as : List Activation) :
    (modifyLevel level f as).map view = as.map view := by
  induction as with
  | nil => rfl
  | cons a below ih =>
    unfold modifyLevel
    split
    · simp only [List.map_cons, hf]
    · simp only [List.map_cons, ih]

theorem map_dependOn {β : Type} {view : Activation → β}
    (hf : ∀ a level, view (Activation.dependOn a level) = view a) (level : Nat)
    (as : List Activation) : (dependOn level as).map view = as.map view := by
  induction as with
  | nil => rfl
  | cons a below ih =>
    unfold dependOn
    split
    · simp only [List.map_cons, hf, ih]
    · rfl

theorem map_onTop {β : Type} {view : Activation → β}
    {f : Activation → Ledger → Activation × Ledger} (hf : ∀ a l, view (f a l).1 = view a)
    (m : Machine) : (m.onTop f).activations.map view = m.activations.map view := by
  obtain ⟨_ | ⟨a, below⟩, l⟩ := m
  · rfl
  · simp only [onTop, List.map_cons, hf]

/-- Opening a loop leaves alone what dependencies and loops do not matter for. -/
theorem map_openLoop {β : Type} {view : Activation → β}
    (hd : ∀ a level, view (Activation.dependOn a level) = view a)
    (hl : ∀ a participants, view (Activation.extendLoop a participants) = view a) (level : Nat)
    (m : Machine) : (openLoop level m).2.activations.map view = m.activations.map view := by
  unfold openLoop
  split
  · rfl
  · simp only
    rw [map_modifyLevel fun a => hl a _, map_dependOn hd]

/-- Filing summaries leaves alone what dependencies and loops do not matter for. -/
theorem map_file {β : Type} {view : Activation → β}
    (hd : ∀ a level, view (Activation.dependOn a level) = view a)
    (hl : ∀ (a : Activation) entries,
      view { a with recursion := a.recursion.map (·.deferAll entries) } = view a)
    (entries : List (SummaryKey × Summary)) (dependency : Option Nat) (m : Machine) :
    (file entries dependency m).activations.map view = m.activations.map view := by
  unfold file
  split
  · rfl
  · simp only
    split
    · rw [map_onTop (fun a _ => hd a _)]
      exact map_modifyLevel (fun a => hl a entries) _ _
    · exact map_modifyLevel (fun a => hl a entries) _ _

theorem outline_extendLoop (a : Activation) (participants : List SummaryKey) :
    (a.extendLoop participants).outline = a.outline := by
  unfold Activation.outline Activation.iteration Activation.extendLoop
  cases a.recursion <;> rfl

theorem iteration_deferAll (loop : RecursionLoop Fingerprint)
    (entries : List (SummaryKey × Summary)) :
    (loop.deferAll entries).iteration = loop.iteration := by
  unfold RecursionLoop.deferAll
  induction entries generalizing loop with
  | nil => rfl
  | cons entry entries ih => exact ih _

theorem outline_deferAll (a : Activation) (entries : List (SummaryKey × Summary)) :
    Activation.outline { a with recursion := a.recursion.map (·.deferAll entries) } =
      a.outline := by
  unfold Activation.outline Activation.iteration
  cases hr : a.recursion with
  | none => rfl
  | some loop => simp [iteration_deferAll]

theorem outline_answer (a : Activation) (l : Ledger) (r : CallRequest) (summary : Summary)
    (provisional : Bool) : (answer a l r summary provisional).1.outline = a.outline := by
  obtain ⟨⟨context, ha⟩, -⟩ := answer_shape a l r summary provisional
  rw [ha]
  rfl

theorem outlines_openLoop (level : Nat) (m : Machine) :
    (openLoop level m).2.outlines = m.outlines :=
  map_openLoop (fun _ _ => rfl) outline_extendLoop level m

theorem outlines_file (entries : List (SummaryKey × Summary)) (dependency : Option Nat)
    (m : Machine) : (file entries dependency m).outlines = m.outlines :=
  map_file (fun _ _ => rfl) outline_deferAll entries dependency m

theorem outlines_resume (summary : Summary) (m : Machine) :
    (resume summary m).outlines = m.outlines := by
  refine map_onTop (fun a l => ?_) m
  split
  · rfl
  · exact outline_answer _ _ _ _ _

theorem levelOf?_eq_none {key : SummaryKey} :
    levelOf? key as = none ↔ key ∉ as.map Activation.key := by
  induction as with
  | nil => simp [levelOf?]
  | cons a below ih =>
    by_cases hk : a.key = key
    · simp [levelOf?, hk]
    · have hk' : key ≠ a.key := fun he => hk he.symm
      simp [levelOf?, hk, hk', ih]

theorem lt_of_levelOf? {key : SummaryKey} {as : List Activation} {level : Nat}
    (hl : levelOf? key as = some level) : level < as.length := by
  induction as with
  | nil => cases hl
  | cons a below ih =>
    unfold levelOf? at hl
    split at hl
    · cases hl
      exact Nat.lt_succ_self _
    · exact Nat.lt_succ_of_lt (ih hl)

/-- The activation with a key is at its level. -/
theorem exists_of_levelOf? {key : SummaryKey} {as : List Activation} {level : Nat}
    (hl : levelOf? key as = some level) :
    ∃ head, atLevel? level as = some head ∧ head.key = key := by
  induction as with
  | nil => cases hl
  | cons a below ih =>
    unfold levelOf? at hl
    unfold atLevel?
    split at hl
    · rename_i hkey
      cases hl
      exact ⟨a, if_pos rfl, hkey⟩
    · rw [if_neg (Nat.ne_of_gt (lt_of_levelOf? hl))]
      exact ih hl

/-- Every move of the machine is a move of the outlines. -/
theorem Move.outlines (hm : Move s m m') : Outline.Move s m.outlines m'.outlines := by
  cases hm with
  | @answered a a' below l l' ha =>
    cases onward_of_advance ha with
    | @answered _ context work hc he => exact .spends hc
  | @served a a' below l l' k r summary cache ha hg hk =>
    cases onward_of_advance ha with
    | @asks _ _ context work hc he ho =>
      unfold Machine.outlines
      rw [List.map_cons, List.map_cons, outline_answer]
      exact .spends hc
  | @looped a a' below l l' r cache level provisional m ha hg hl hopen =>
    cases onward_of_advance ha with
    | @asks _ _ context work hc he ho =>
      have hsame : m.outlines = _ := (congrArg (·.2.outlines) hopen).symm.trans
        (outlines_openLoop level _)
      have htop : (m.onTop fun a l => answer a l r provisional true).outlines = m.outlines :=
        map_onTop (fun a l => outline_answer a l r provisional true) m
      rw [htop, hsame]
      exact .spends hc
  | @entered a a' callee below l l' r cache ha hg hl hs =>
    cases onward_of_advance ha with
    | @asks _ _ context work hc he ho =>
      obtain ⟨hcallee, hcalls⟩ := Activation.start_shape hs
      have hnew : r.key ∉ (a :: below).map Activation.key := levelOf?_eq_none.mp hl
      have hkeys : r.key ∉ (Machine.outlines ⟨a :: below, l⟩).map Outline.key := by
        unfold Machine.outlines
        rwa [List.map_map]
      unfold Machine.outlines
      rw [hcallee]
      exact .enters hc ho hkeys hcalls
  | @restarted a a' again below l l' loop ha hr hu hs =>
    cases onward_of_advance ha with
    | @ends _ context work he =>
      obtain ⟨hagain, hcalls⟩ := Activation.start_shape hs
      have hiteration : a.outline.iteration = loop.iteration := by
        simp only at hr
        simp [Activation.outline, Activation.iteration, hr]
      have hlt : a.outline.iteration < s.config.maxRecursionIterations.toNat := by
        simp only [startsOver, Bool.and_eq_true, decide_eq_true_eq] at hu
        exact hiteration ▸ hu.2
      have hmove : Outline.Move s (a.outline :: below.map Activation.outline) _ :=
        .restarts hlt hcalls
      rw [hiteration] at hmove
      unfold Machine.outlines
      rw [hagain]
      exact hmove
  | @completed a a' below l l' ha hf =>
    rw [outlines_resume, outlines_file]
    exact .leaves

end Machine

/-! What the moves keep. -/

/-- Keys that calls can ask for. -/
def Program.summaryKeys (p : Program) : List SummaryKey :=
  p.methods.values.map (⟨.concrete, ·.signature⟩) ++ p.methods.keys.map (⟨.virtual, ·⟩)

theorem Program.length_summaryKeys (p : Program) : p.summaryKeys.length = 2 * p.methods.size := by
  simp [summaryKeys, Table.values, Table.keys, Table.size]
  omega

theorem Setup.Offers.mem_summaryKeys {s : Setup} {key : SummaryKey} {target : CallTarget}
    (ho : s.Offers key target) : key ∈ s.program.summaryKeys := by
  cases ho with
  | concrete hd =>
    exact List.mem_append_left _ (List.mem_map.mpr ⟨_, Table.mem_values_of_get? hd, rfl⟩)
  | @virtual called d hd =>
    have hkey : called ∈ s.program.methods.keys :=
      List.mem_map.mpr ⟨(called, d), Table.mem_of_find hd, rfl⟩
    exact List.mem_append_right _ (List.mem_map.mpr ⟨called, hkey, rfl⟩)

namespace Outline

variable {s : Setup} {o : Outline} {os os' below : List Outline}

/-- An outline that stands on top of these. -/
structure Standing (s : Setup) (below : List Outline) (o : Outline) : Prop where
  offered : s.Offers o.key o.target
  fresh : o.key ∉ below.map Outline.key
  stack : o.stack = CallStack.ofList ((o :: below).map Outline.key).reverse
  callsLeft : o.callsLeft ≤ Machine.callBound s.program

/-- Every outline stands on those below it. -/
def Stacked (s : Setup) : List Outline → Prop
  | [] => True
  | o :: below => Standing s below o ∧ Stacked s below

theorem Standing.push (h : Standing s below o) {key : SummaryKey} :
    o.stack.push key = CallStack.ofList ((key :: (o :: below).map Outline.key)).reverse := by
  rw [List.reverse_cons, CallStack.ofList, List.foldl_append, h.stack]
  rfl

theorem Stacked.move (hs : Stacked s os) (hm : Move s os os') : Stacked s os' := by
  cases hm with
  | spends hc =>
    obtain ⟨ho, hbelow⟩ := hs
    exact ⟨⟨ho.offered, ho.fresh, ho.stack, Nat.le_trans (Nat.le_of_lt hc) ho.callsLeft⟩, hbelow⟩
  | enters hc hoffer hk ht =>
    obtain ⟨ho, hbelow⟩ := hs
    refine ⟨⟨hoffer, hk, ho.push, Nat.le_trans ht hoffer.calls_le⟩, ?_⟩
    exact ⟨⟨ho.offered, ho.fresh, ho.stack, Nat.le_trans (Nat.le_of_lt hc) ho.callsLeft⟩, hbelow⟩
  | restarts hi hc =>
    obtain ⟨ho, hbelow⟩ := hs
    exact ⟨⟨ho.offered, ho.fresh, ho.stack, Nat.le_trans hc ho.offered.calls_le⟩, hbelow⟩
  | leaves => exact hs.2

theorem Stacked.nodup (hs : Stacked s os) : (os.map Outline.key).Nodup := by
  induction os with
  | nil => exact List.nodup_nil
  | cons o below ih => exact List.nodup_cons.mpr ⟨hs.1.fresh, ih hs.2⟩

theorem Stacked.keys_subset (hs : Stacked s os) : os.map Outline.key ⊆ s.program.summaryKeys := by
  induction os with
  | nil => exact List.nil_subset _
  | cons o below ih => exact List.cons_subset.mpr ⟨hs.1.offered.mem_summaryKeys, ih hs.2⟩

/-- The stack is never higher than the program has keys. -/
theorem Stacked.length_le (hs : Stacked s os) : os.length ≤ 2 * s.program.methods.size := by
  have hle := (List.subperm_of_subset hs.nodup hs.keys_subset).length_le
  rwa [List.length_map, Program.length_summaryKeys] at hle

/-- What one outline can still do: the calls that are left in each of its iterations. -/
def effort (s : Setup) (o : Outline) : Nat :=
  (s.config.maxRecursionIterations.toNat - o.iteration) * (Machine.callBound s.program + 1)
    + o.callsLeft + 1

/-- A bound on the effort of any outline. -/
def effortBound (s : Setup) : Nat :=
  (s.config.maxRecursionIterations.toNat + 1) * (Machine.callBound s.program + 1)

theorem Standing.effort_le (h : Standing s below o) : o.effort s ≤ effortBound s := by
  have hcalls := h.callsLeft
  have hiterations : (s.config.maxRecursionIterations.toNat - o.iteration) *
      (Machine.callBound s.program + 1) ≤
      s.config.maxRecursionIterations.toNat * (Machine.callBound s.program + 1) :=
    Nat.mul_le_mul_right _ (Nat.sub_le _ _)
  unfold effort effortBound
  rw [Nat.add_mul, Nat.one_mul]
  omega

theorem effort_spend {callsLeft : Nat} (hc : callsLeft < o.callsLeft) :
    effort s { o with callsLeft } < effort s o := by
  simp only [effort]
  omega

/-- An outline starts over with less to do than it had. -/
theorem effort_restart {calls : Nat}
    (hi : o.iteration < s.config.maxRecursionIterations.toNat)
    (hc : calls ≤ Machine.callBound s.program) :
    effort s { o with iteration := o.iteration + 1, callsLeft := calls } < effort s o := by
  obtain ⟨rest, hrest⟩ := Nat.exists_eq_add_of_lt hi
  have hbefore : s.config.maxRecursionIterations.toNat - o.iteration = rest + 1 := by omega
  have hafter : s.config.maxRecursionIterations.toNat - (o.iteration + 1) = rest := by omega
  simp only [effort, hbefore, hafter, Nat.add_mul, Nat.one_mul]
  omega

/-- A level weighs more than any outlines on the levels above it together. -/
def levelWeight (s : Setup) (level : Nat) : Nat :=
  (effortBound s + 1) ^ (2 * s.program.methods.size - (level + 1))

def weight (s : Setup) : List Outline → Nat
  | [] => 0
  | o :: below => o.effort s * levelWeight s below.length + weight s below

theorem levelWeight_pos (s : Setup) (level : Nat) : 0 < levelWeight s level :=
  Nat.pow_pos (Nat.succ_pos _)

theorem levelWeight_succ {level : Nat} (hl : level + 1 < 2 * s.program.methods.size) :
    levelWeight s level = (effortBound s + 1) * levelWeight s (level + 1) := by
  unfold levelWeight
  rw [← pow_succ']
  congr 1
  omega

theorem weight_cons_lt {o' : Outline} (he : o'.effort s < o.effort s) :
    weight s (o' :: below) < weight s (o :: below) :=
  Nat.add_lt_add_right (Nat.mul_lt_mul_of_pos_right he (levelWeight_pos s below.length)) _

/-- A new outline weighs less than the call that it answers. -/
theorem weight_enter_lt {o' callee : Outline} (he : o'.effort s < o.effort s)
    (hcallee : callee.effort s ≤ effortBound s)
    (hl : below.length + 1 < 2 * s.program.methods.size) :
    weight s (callee :: o' :: below) < weight s (o :: below) := by
  have hpos := levelWeight_pos s (below.length + 1)
  have htop : callee.effort s * levelWeight s (below.length + 1) ≤
      effortBound s * levelWeight s (below.length + 1) := Nat.mul_le_mul_right _ hcallee
  have hlevel := levelWeight_succ hl
  rw [Nat.add_mul, Nat.one_mul] at hlevel
  have hspent : (o'.effort s + 1) * levelWeight s below.length ≤
      o.effort s * levelWeight s below.length := Nat.mul_le_mul_right _ he
  rw [Nat.add_mul, Nat.one_mul] at hspent
  simp only [weight, List.length_cons]
  omega

/-- Every move takes weight from the stack. -/
theorem weight_move_lt (hs : Stacked s os) (hm : Move s os os') : weight s os' < weight s os := by
  have hs' := hs.move hm
  cases hm with
  | spends hc => exact weight_cons_lt (effort_spend hc)
  | enters hc hoffer hk ht =>
    have hlength := hs'.length_le
    simp only [List.length_cons] at hlength
    exact weight_enter_lt (effort_spend hc) hs'.1.effort_le (by omega)
  | restarts hi hc =>
    exact weight_cons_lt (effort_restart hi (Nat.le_trans hc hs.1.offered.calls_le))
  | @leaves o =>
    have heffort : 0 < o.effort s := Nat.succ_pos _
    have hpos := Nat.mul_pos heffort (levelWeight_pos s os'.length)
    simp only [weight]
    omega

/-- The bound on the steps of a run is above the weight of its first stack. -/
theorem weight_singleton_lt (hs : Stacked s [o]) : weight s [o] < Machine.stepBound s := by
  have hlength : 1 ≤ 2 * s.program.methods.size := hs.length_le
  have hbound : 1 ≤ effortBound s := Nat.mul_pos (Nat.succ_pos _) (Nat.succ_pos _)
  have hexponent : 2 * s.program.methods.size = 2 * s.program.methods.size - 1 + 1 := by omega
  calc weight s [o]
      = o.effort s * (effortBound s + 1) ^ (2 * s.program.methods.size - 1) := rfl
    _ < (effortBound s + 1) ^ (2 * s.program.methods.size) := by
        rw [hexponent, pow_succ', Nat.add_sub_cancel]
        exact Nat.mul_lt_mul_of_pos_right (Nat.lt_succ_of_le hs.1.effort_le)
          (Nat.pow_pos (Nat.succ_pos _))
    _ ≤ (2 * effortBound s) ^ (2 * s.program.methods.size) :=
        Nat.pow_le_pow_left (by omega) _
    _ ≤ (2 * effortBound s) ^ (2 * s.program.methods.size + 1) :=
        Nat.pow_le_pow_right (by omega) (Nat.le_succ _)
    _ = Machine.stepBound s := by
        unfold Machine.stepBound effortBound
        rw [Nat.mul_assoc]
        rfl

end Outline

/-! Runs. -/

namespace Machine

variable {s : Setup} {m m' first : Machine}

/-- The run from this machine ends with this result. -/
inductive Ends (s : Setup) : Machine → Except Failure Unit × Ledger → Prop where
  | finished {m : Machine} {l : Ledger} (hs : step s m = .finished l) : Ends s m (.ok (), l)
  | failed {m : Machine} {failure : Failure} {l : Ledger} (hs : step s m = .failed failure l) :
    Ends s m (.error failure, l)
  | running {m m' : Machine} {result : Except Failure Unit × Ledger}
    (hs : step s m = .running m') (he : Ends s m' result) : Ends s m result

/-- As many steps as the stack weighs are enough. -/
theorem ends_run {fuel : Nat} (hs : Outline.Stacked s m.outlines)
    (hw : Outline.weight s m.outlines < fuel) : Ends s m (m.run s fuel) := by
  induction fuel generalizing m with
  | zero => omega
  | succ fuel ih =>
    unfold run
    cases hstep : step s m with
    | finished l => exact .finished hstep
    | failed failure l => exact .failed hstep
    | running m' =>
      have hmove := (move_of_step hstep).outlines
      have hless := Outline.weight_move_lt hs hmove
      exact .running hstep (ih (hs.move hmove) (by omega))

end Machine

namespace Engine

theorem stacked_boot {s : Setup} {l : Ledger} {called : Signature} {d : MethodDef}
    {required : List String} {first : Machine} (hd : s.program.method? called = some d)
    (hb : boot s l d required = .ok first) :
    ∃ o, first.outlines = [o] ∧ Outline.Stacked s [o] := by
  obtain ⟨root, hs, hact, -⟩ := root_of_boot hb
  obtain ⟨hroot, hcalls⟩ := Activation.start_shape hs
  have hoffer : s.Offers ⟨.concrete, d.signature⟩ (.method d) := .concrete hd
  refine ⟨root.outline, by rw [Machine.outlines, hact]; rfl, ⟨?_, trivial⟩⟩
  rw [hroot]
  exact ⟨hoffer, List.not_mem_nil, rfl, Nat.le_trans hcalls hoffer.calls_le⟩

theorem ends_of_boot (e : Engine) {entry : EntryPoint} {d : MethodDef} {first : Machine}
    (hd : entry? e.setup.program entry.method = some d)
    (hb : boot (e.runSetup d) e.ledger d entry.required = .ok first) :
    Machine.Ends (e.runSetup d) first
      (first.run (e.runSetup d) (Machine.stepBound (e.runSetup d))) := by
  have hmethod : (e.runSetup d).program.method? entry.method = some d :=
    (Option.filter_eq_some_iff.mp hd).1
  obtain ⟨o, hfirst, hstacked⟩ := stacked_boot hmethod hb
  refine Machine.ends_run (hfirst ▸ hstacked) ?_
  rw [hfirst]
  exact Outline.weight_singleton_lt hstacked

/-- A method that calls itself and returns what it gets. -/
def spiral : MethodDef where
  reference := { declaring := ⟨"Spiral", false⟩, name := "Turn"
                 parameters := [⟨"Spiral", false⟩], result := ⟨"Spiral", false⟩, hasThis := false }
  assembly := "spiral"
  module := "spiral.dll"
  body := some { code := #[⟨0, .ldarg, .arg 0⟩,
    ⟨1, .call, .method { declaring := ⟨"Spiral", false⟩, name := "Turn",
                         parameters := [⟨"Spiral", false⟩], result := ⟨"Spiral", false⟩,
                         hasThis := false }⟩,
    ⟨2, .ret, .absent⟩] }

def spiralEngine : Engine := ofSettings (Program.addMethod {} spiral) "sink" 16 true false

end Engine

end SinkTrace
