import SinkTrace.Proofs.Engine.Moves
import SinkTrace.Proofs.Interpreter.Calls
import SinkTrace.Proofs.Table

/-!
What a step leaves alone. Walking on, answering a call and settling change the context and the work
of the topmost activation; its place on the stack, and the summaries that are kept, stay as they
are. Loops are opened by recursive calls alone.
-/

namespace SinkTrace

/-! Settling and answering. -/

namespace Ledger

variable {l l' l'' : Ledger}

/-- The cache stays as it is, and no recursion loop is opened. -/
structure Keeps (l l' : Ledger) : Prop where
  cache : l'.cache = l.cache
  loops : l'.statistics.recursionLoops = l.statistics.recursionLoops

theorem Keeps.refl (l : Ledger) : Keeps l l := ⟨rfl, rfl⟩

theorem Keeps.trans (h₁ : Keeps l l') (h₂ : Keeps l' l'') : Keeps l l'' :=
  ⟨h₂.cache.trans h₁.cache, h₂.loops.trans h₁.loops⟩

theorem keeps_sourceFor (l : Ledger) (call : SinkCall) : Keeps l (l.sourceFor call).2 := by
  unfold sourceFor
  split <;> exact ⟨rfl, rfl⟩

theorem keeps_fireTaints (edges : List DeferredTaint) (state : Heap × Ledger) :
    Keeps state.2 (edges.foldl fireTaint state).2 := by
  induction edges generalizing state with
  | nil => exact .refl _
  | cons edge edges ih =>
    exact (keeps_sourceFor state.2 edge.sink).trans (ih (fireTaint state edge))

theorem keeps_reportCalls (l : Ledger) (taint : TaintId) (calls : List TargetCall) :
    Keeps l (l.reportCalls taint calls) := by
  unfold reportCalls
  split <;> exact ⟨rfl, rfl⟩

theorem keeps_fire (state : Heap × Ledger) (id : EntityId) :
    Keeps state.2 (fire state id).2 := by
  unfold fire
  simp only
  split
  · have hfired := keeps_fireTaints (state.1.takeDeferredTaint id).1
      ((state.1.takeDeferredTaint id).2, state.2)
    exact hfired.trans (keeps_reportCalls _ _ _)
  · exact .refl _

theorem keeps_fires (ids : List EntityId) (state : Heap × Ledger) :
    Keeps state.2 (ids.foldl fire state).2 := by
  induction ids generalizing state with
  | nil => exact .refl _
  | cons id ids ih => exact (keeps_fire state id).trans (ih _)

theorem keeps_settle (state : Heap × Ledger) : Keeps state.2 (settle state).2 := by
  fun_induction settle state with
  | case1 => exact .refl _
  | case2 state _ ih =>
    have hpass := keeps_fires state.1.drainTransitions.1 (state.1.drainTransitions.2, state.2)
    exact hpass.trans ih

end Ledger

namespace Activation

variable {a a' : Activation} {l : Ledger}

theorem settle_shape (a : Activation) (l : Ledger) :
    (∃ context, (a.settle l).1 = { a with context }) ∧ l.Keeps (a.settle l).2 :=
  ⟨⟨_, rfl⟩, Ledger.keeps_settle (a.context.heap, l)⟩

theorem applySummary_shape (a : Activation) (l : Ledger) (r : CallRequest) (summary : Summary)
    (provisional : Bool) :
    (∃ context, (a.applySummary l r summary provisional).1 = { a with context }) ∧
      l.Keeps (a.applySummary l r summary provisional).2 := by
  cases summary with
  | empty => exact ⟨⟨_, rfl⟩, .refl l⟩
  | computed callee => cases provisional <;> exact ⟨⟨_, rfl⟩, rfl, rfl⟩

end Activation

namespace Machine

theorem answer_shape (a : Activation) (l : Ledger) (r : CallRequest) (summary : Summary)
    (provisional : Bool) :
    (∃ context, (answer a l r summary provisional).1 = { a with context }) ∧
      l.Keeps (answer a l r summary provisional).2 := by
  obtain ⟨⟨c, hc⟩, hkeeps⟩ := a.applySummary_shape l r summary provisional
  obtain ⟨⟨c', hc'⟩, hkeeps'⟩ := Activation.settle_shape
    (a.applySummary l r summary provisional).1 (a.applySummary l r summary provisional).2
  refine ⟨⟨c', ?_⟩, hkeeps.trans hkeeps'⟩
  rw [hc] at hc'
  exact (congrArg (fun x => (Activation.settle x
    (a.applySummary l r summary provisional).2).1) hc).trans hc'

theorem keeps_onTop {g : Activation → Ledger → Activation × Ledger}
    (hg : ∀ a l, Ledger.Keeps l (g a l).2) (m : Machine) : m.ledger.Keeps (m.onTop g).ledger := by
  obtain ⟨_ | ⟨a, below⟩, l⟩ := m
  · exact .refl l
  · exact hg a l

theorem keeps_resume (summary : Summary) (m : Machine) :
    m.ledger.Keeps (resume summary m).ledger := by
  refine keeps_onTop (fun a l => ?_) m
  split
  · exact .refl l
  · exact (answer_shape _ _ _ _ _).2

theorem keeps_countWalk (a : Activation) (l : Ledger) : l.Keeps (countWalk a l) := by
  unfold countWalk
  split <;> exact ⟨rfl, rfl⟩

end Machine

/-! Requests. -/

namespace Setup

variable {s : Setup} {types old now : NameSet} {d : MethodDef} {called : Signature} {m : MethodRef}

theorem accepts_filter {name assembly : String} :
    (s.filter types).accepts name assembly = true ↔
      (s.config.useCreatedTypes = true → types.elem name = true) ∧
        s.scope.all (·.elem assembly) = true := by
  unfold filter ImplementationFilter.accepts
  cases s.config.useCreatedTypes <;> simp

/-- A virtual call leads to registered implementations, and to the method itself if it has a
body. -/
theorem mem_implementationsOf :
    m ∈ s.implementationsOf types d called ↔
      (∃ i ∈ (s.program.implementations.get? called).getD [],
        (s.filter types).accepts i.method.declaring.name i.assembly = true ∧ i.method = m) ∨
      (d.hasBody = true ∧
        (s.filter types).accepts d.reference.declaring.name d.assembly = true ∧
        d.reference = m) := by
  have hfound : m ∈ s.program.implementationsOf called (s.filter types) ↔
      ∃ i ∈ (s.program.implementations.get? called).getD [],
        (s.filter types).accepts i.method.declaring.name i.assembly = true ∧ i.method = m := by
    simp [Program.implementationsOf, List.mem_map, List.mem_filter, and_assoc]
  rw [← hfound]
  unfold implementationsOf
  simp only
  split
  · rename_i hself
    simp only [Bool.and_eq_true, Bool.not_eq_true'] at hself
    rw [List.mem_cons, or_comm]
    exact or_congr_right ⟨fun h => ⟨hself.1.1, hself.1.2, h.symm⟩, fun h => h.2.2.symm⟩
  · rename_i hself
    refine ⟨.inl, fun h => h.elim id ?_⟩
    rintro ⟨hbody, haccepts, rfl⟩
    simpa [hbody, haccepts] using hself

/-- What a virtual call leads to now, it led to when the type had been created. -/
theorem mem_implementationsOf_of_created (hm : m ∈ s.implementationsOf now d called)
    (hc : s.config.useCreatedTypes = true → old.elem m.declaring.name = true) :
    m ∈ s.implementationsOf old d called := by
  rw [mem_implementationsOf] at hm ⊢
  refine hm.imp ?_ ?_
  · rintro ⟨i, hi, haccepts, rfl⟩
    exact ⟨i, hi, accepts_filter.mpr ⟨hc, (accepts_filter.mp haccepts).2⟩, rfl⟩
  · rintro ⟨hbody, haccepts, rfl⟩
    exact ⟨hbody, accepts_filter.mpr ⟨hc, (accepts_filter.mp haccepts).2⟩, rfl⟩

end Setup
/-- The calls that a program can ask summaries for, and what answers them. -/
inductive Setup.Offers (s : Setup) : SummaryKey → CallTarget → Prop where
  | concrete {called : Signature} {d : MethodDef} (hd : s.program.method? called = some d) :
    Offers s ⟨.concrete, d.signature⟩ (.method d)
  | virtual {called : Signature} {d : MethodDef} (hd : s.program.method? called = some d)
    (createdTypes : NameSet) :
    Offers s ⟨.virtual, called⟩ (.implementations (s.implementationsOf createdTypes d called))

/-- The same activation with another context, and the ledger with the same summaries. A request is
one that the program can make. -/
structure Activation.Carries (s : Setup) (a : Activation) (l : Ledger)
    (x : Option CallRequest × Activation × Ledger) : Prop where
  activation : ∃ context, x.2.1 = { a with context }
  entries : x.2.2.cache.entries = l.cache.entries
  loops : x.2.2.statistics.recursionLoops = l.statistics.recursionLoops
  offered : ∀ r, x.1 = some r → s.Offers r.key r.target

namespace Activation

variable {s : Setup} {a a' : Activation} {l : Ledger}

/-- A call that was answered on the spot. -/
theorem carries_setHeap {l' : Ledger} (h : Heap) (he : l'.cache.entries = l.cache.entries)
    (hn : l'.statistics.recursionLoops = l.statistics.recursionLoops) :
    Carries s a l (none, a.setHeap h, l') := by
  refine ⟨⟨_, rfl⟩, he, hn, fun r hr => ?_⟩
  cases hr

theorem carries_externalCall (a : Activation) (l : Ledger) (e : CallEffect) :
    Carries s a l (none, a.externalCall l e) := carries_setHeap _ rfl rfl

theorem carries_conservative (a : Activation) (l : Ledger) (e : CallEffect) :
    Carries s a l (none, a.conservative l e) := carries_setHeap _ rfl rfl

theorem carries_interceptSink (a : Activation) (l : Ledger) (inputMode : Bool) (e : CallEffect) :
    Carries s a l (none, a.interceptSink l inputMode e) := by
  unfold interceptSink
  simp only
  split
  · exact carries_setHeap _ rfl rfl
  · have hkeeps := Ledger.keeps_sourceFor l ⟨e.signature, a.stack, e.offset⟩
    exact carries_setHeap _ (congrArg Cache.entries hkeeps.cache) hkeeps.loops

theorem carries_dispatchConcrete (a : Activation) (l : Ledger) (e : CallEffect)
    (mode : GlueMode) : Carries s a l (dispatchConcrete s a l e mode) := by
  unfold dispatchConcrete
  split
  · exact carries_externalCall a l e
  · rename_i d hd
    split
    · exact carries_conservative a l e
    · split
      · exact carries_externalCall a l e
      · refine ⟨⟨_, rfl⟩, rfl, rfl, fun r hr => ?_⟩
        cases hr
        exact .concrete hd

theorem carries_dispatchVirtual (a : Activation) (l : Ledger) (e : CallEffect) {d : MethodDef}
    (hd : s.program.method? e.signature = some d) :
    Carries s a l (dispatchVirtual s a l e d) := by
  unfold dispatchVirtual
  simp only
  split
  · exact carries_setHeap _ rfl rfl
  · refine ⟨⟨_, rfl⟩, rfl, rfl, fun r hr => ?_⟩
    cases hr
    exact .virtual hd _

theorem registerType_shape (l : Ledger) (e : CallEffect) :
    (registerType l e).cache.entries = l.cache.entries ∧
      (registerType l e).statistics = l.statistics := by
  unfold registerType
  split <;> exact ⟨rfl, rfl⟩

theorem method?_of_virtualTarget? {e : CallEffect} {d : MethodDef}
    (hv : virtualTarget? s e = some d) : s.program.method? e.signature = some d := by
  unfold virtualTarget? at hv
  split at hv
  · exact (Option.filter_eq_some_iff.mp hv).1
  · cases hv

theorem carries_dispatch (a : Activation) (l : Ledger) (e : CallEffect) :
    Carries s a l (dispatch s a l e) := by
  obtain ⟨hentries, hstatistics⟩ := registerType_shape l e
  have hloops := congrArg Statistics.recursionLoops hstatistics
  unfold dispatch
  split
  · exact carries_interceptSink a l _ e
  · simp only
    split
    · rename_i d hv
      have hc := carries_dispatchVirtual a (registerType l e) e (method?_of_virtualTarget? hv)
      exact ⟨hc.activation, hc.entries.trans hentries, hc.loops.trans hloops, hc.offered⟩
    · have hc := carries_dispatchConcrete (s := s) a (registerType l e) e .replace
      exact ⟨hc.activation, hc.entries.trans hentries, hc.loops.trans hloops, hc.offered⟩

end Activation

/-! Steps. -/

/-- A bound on the calls that are still to come. -/
def Work.callsLeft : Work → Nat
  | .walk w => w.distance
  | .dispatch remaining _ => remaining.length

namespace Machine

variable {s : Setup} {a a' : Activation} {l l' : Ledger}

/-- What the topmost activation comes to is the same activation, with fewer calls left after a
call. -/
inductive Outcome.Onward (s : Setup) (a : Activation) (l : Ledger) : Outcome → Prop where
  | failed (failure : Failure) (l' : Ledger) : Onward s a l (.failed failure l')
  | answered {l' : Ledger} {context : Context} {work : Work}
    (hc : work.callsLeft < a.work.callsLeft) (he : l'.cache.entries = l.cache.entries)
    (hn : l'.statistics.recursionLoops = l.statistics.recursionLoops) :
    Onward s a l (.answered { a with context, work } l')
  | asks {l' : Ledger} {r : CallRequest} {context : Context} {work : Work}
    (hc : work.callsLeft < a.work.callsLeft) (he : l'.cache.entries = l.cache.entries)
    (ho : s.Offers r.key r.target)
    (hn : l'.statistics.recursionLoops = l.statistics.recursionLoops) :
    Onward s a l (.asks r { a with context, work } l')
  | ends {l' : Ledger} {context : Context} {work : Work}
    (he : l'.cache.entries = l.cache.entries)
    (hn : l'.statistics.recursionLoops = l.statistics.recursionLoops) :
    Onward s a l (.ends { a with context, work } l')

theorem Outcome.onward_ofCall {work : Work} {context : Context}
    {x : Option CallRequest × Activation × Ledger} {k : Ledger}
    (hx : Activation.Carries s { a with context, work } k x)
    (hk : k.cache.entries = l.cache.entries)
    (hkn : k.statistics.recursionLoops = l.statistics.recursionLoops)
    (hc : work.callsLeft < a.work.callsLeft) : Onward s a l (.ofCall x) := by
  obtain ⟨request, a', l'⟩ := x
  obtain ⟨c, hc'⟩ := hx.activation
  have he := hx.entries.trans hk
  have hn := hx.loops.trans hkn
  simp only at hc' he hn
  subst hc'
  cases request with
  | none => exact .answered hc he hn
  | some r => exact .asks hc he (hx.offered r rfl) hn

theorem onward_of_advance {o : Outcome} (h : advance s a l = o) : Outcome.Onward s a l o := by
  cases comes_of_advance h with
  | failed => exact .failed _ _
  | @rests b k hr =>
    obtain ⟨⟨c, hc⟩, hkeeps⟩ := b.settle_shape k
    rw [hc]
    cases hr with
    | dispatched | walked => exact .ends (congrArg Cache.entries hkeeps.cache) hkeeps.loops
  | implementation hw ho =>
    subst ho
    refine Outcome.onward_ofCall (Activation.carries_dispatchConcrete _ l _ _) rfl rfl ?_
    rw [hw]
    exact Nat.lt_succ_self _
  | @call w w' c e _ hw hs ho =>
    subst ho
    have hshape := Activation.settle_shape { a with work := .walk w', context := c }
      (countInstructions a.context.instructions c l)
    unfold settledAt
    generalize Activation.settle _ _ = settled at hshape ⊢
    obtain ⟨⟨c', hc'⟩, hkeeps⟩ := hshape
    have hd := Activation.carries_dispatch (s := s) settled.1 settled.2 e
    rw [hc'] at hd ⊢
    refine Outcome.onward_ofCall hd (congrArg Cache.entries hkeeps.cache) hkeeps.loops ?_
    rw [hw]
    exact Interpreter.distance_step_lt hs

theorem offers_of_asks {r : CallRequest} (ha : advance s a l = .asks r a' l') :
    s.Offers r.key r.target := by
  cases onward_of_advance ha with
  | asks _ _ ho _ => exact ho

/-- The topmost activation where a step has come to a call or to its end. -/
def Outcome.reached : Outcome → Option (Activation × Ledger)
  | .failed _ _ => none
  | .answered a l => some (a, l)
  | .asks _ a l => some (a, l)
  | .ends a l => some (a, l)

theorem Outcome.eq_of_ofCall {x : Option CallRequest × Activation × Ledger} {r : CallRequest}
    (h : Outcome.ofCall x = .asks r a l) : x = (some r, a, l) := by
  obtain ⟨_ | r, x⟩ := x
  · cases h
  · cases h
    rfl

theorem Outcome.reached_ofCall (x : Option CallRequest × Activation × Ledger) :
    (Outcome.ofCall x).reached = some x.2 := by
  obtain ⟨_ | r, x⟩ := x <;> rfl

theorem reached_shape (hr : (advance s a l).reached = some (a', l')) :
    (∃ context work, a' = { a with context, work }) ∧
      l'.cache.entries = l.cache.entries ∧
      l'.statistics.recursionLoops = l.statistics.recursionLoops := by
  generalize ho : advance s a l = o at hr
  cases onward_of_advance ho with
  | failed => cases hr
  | answered _ he hn =>
    cases hr
    exact ⟨⟨_, _, rfl⟩, he, hn⟩
  | asks _ he _ hn =>
    cases hr
    exact ⟨⟨_, _, rfl⟩, he, hn⟩
  | ends he hn =>
    cases hr
    exact ⟨⟨_, _, rfl⟩, he, hn⟩

end Machine

/-! How many loops were opened. -/

namespace Machine

variable {s : Setup} {m m' : Machine} {a a' : Activation} {l l' : Ledger}
  {below : List Activation}

/-- The recursion loops that were opened so far. -/
def loops (m : Machine) : Nat := m.ledger.statistics.recursionLoops

theorem loops_file (entries : List (SummaryKey × Summary)) (dependency : Option Nat)
    (m : Machine) : (file entries dependency m).loops = m.loops := by
  unfold file
  split
  · rfl
  · simp only
    split
    · exact (keeps_onTop (fun _ l => .refl l) _).loops
    · rfl

theorem loops_le_openLoop (level : Nat) (m : Machine) : m.loops ≤ (openLoop level m).2.loops := by
  unfold openLoop
  split
  · exact Nat.le_refl _
  · simp only
    split
    · exact Nat.le_refl _
    · exact Nat.le_succ _

theorem Move.loops_le (hm : Move s m m') : m.loops ≤ m'.loops := by
  have hreached : ∀ {a l a' l'}, (advance s a l).reached = some (a', l') →
      l'.statistics.recursionLoops = l.statistics.recursionLoops :=
    fun hr => (reached_shape hr).2.2
  cases hm with
  | @answered a a' below l l' ha =>
    have hsettle := (a'.settle_shape l').2.loops
    exact Nat.le_of_eq ((hsettle.trans (hreached (by rw [ha]; rfl))).symm)
  | @served a a' below l l' k r summary cache ha hg hk =>
    have hanswer := (answer_shape a' k r summary false).2.loops
    have hcount : k.statistics.recursionLoops = l'.statistics.recursionLoops := by
      rw [hk]
      rfl
    exact Nat.le_of_eq ((hanswer.trans (hcount.trans (hreached (by rw [ha]; rfl)))).symm)
  | @looped a a' below l l' r cache level provisional m ha hg hl ho =>
    have hopen := loops_le_openLoop level ⟨a' :: below, { l' with cache }⟩
    rw [ho] at hopen
    have htop := (keeps_onTop (fun a l => (answer_shape a l r provisional true).2) m).loops
    calc l.statistics.recursionLoops
        = l'.statistics.recursionLoops := (hreached (by rw [ha]; rfl)).symm
      _ ≤ m.loops := hopen
      _ = _ := htop.symm
  | @entered a a' callee below l l' r cache ha hg hl hs =>
    have hcount := (keeps_countWalk callee { l' with cache }).loops
    have hasks : l'.statistics.recursionLoops = l.statistics.recursionLoops :=
      hreached (by rw [ha]; rfl)
    exact Nat.le_of_eq ((hcount.trans hasks).symm)
  | @restarted a a' again below l l' loop ha hr hu hs =>
    have hcount := (keeps_countWalk again l').loops
    exact Nat.le_of_eq ((hcount.trans (hreached (by rw [ha]; rfl))).symm)
  | @completed a a' below l l' ha hf =>
    have hfile := loops_file (a'.pending ++ [(a'.key, a'.summary)]) a'.dependency ⟨below, l'⟩
    have hresume := (keeps_resume a'.summary
      (file (a'.pending ++ [(a'.key, a'.summary)]) a'.dependency ⟨below, l'⟩)).loops
    exact Nat.le_of_eq ((hresume.trans (hfile.trans (hreached (by rw [ha]; rfl)))).symm)

/-- A run finishes when no activation is left, and not otherwise. -/
theorem eq_of_finished (h : step s m = .finished l) : m = ⟨[], l⟩ := by
  cases turns_of_step h with
  | finished => rfl

theorem ledger_of_finished (h : step s m = .finished l) : m.ledger = l := by rw [eq_of_finished h]

theorem loops_le_of_run {fuel : Nat} (hr : m.run s fuel = (.ok (), l)) :
    m.loops ≤ l.statistics.recursionLoops := by
  induction fuel generalizing m with
  | zero =>
    cases hr
    exact Nat.le_refl _
  | succ fuel ih =>
    unfold run at hr
    cases hstep : step s m with
    | finished l' =>
      rw [hstep] at hr
      cases hr
      rw [← ledger_of_finished hstep]
      exact Nat.le_refl _
    | failed failure l' =>
      rw [hstep] at hr
      cases hr
    | running m' =>
      rw [hstep] at hr
      exact Nat.le_trans (move_of_step hstep).loops_le (ih hr)

end Machine

end SinkTrace
