import SinkTrace.Proofs.Engine.CallRoutes
import SinkTrace.Proofs.Engine.Runs
import SinkTrace.Proofs.Engine.Tracing

/-!
The paths of reported sources. As long as no recursion loop is opened, every heap is traced to the
stack of its activation, and every summary is kept under the last frame of its stack. So a source
that was moved to another call site at most once is reported with a path from the entry point down
to the method that called the sink.
-/

namespace SinkTrace

namespace Activation

variable {p : Program} {entry : SummaryKey} {f f' : Findings} {a : Activation} {l : Ledger}

/-- The heap is traced to the stack, and the activation takes part in no recursion. -/
structure Genuine (p : Program) (entry : SummaryKey) (f : Findings) (a : Activation) : Prop where
  heap : a.context.heap.Traced p entry f a.stack
  recursion : a.recursion = none
  dependency : a.dependency = none

theorem Genuine.later (ha : a.Genuine p entry f) (hl : f.Later f') : a.Genuine p entry f' :=
  ⟨ha.heap.later hl, ha.recursion, ha.dependency⟩

theorem Traces.summary (ht : a.Traces p entry f l) (hp : p.Path entry a.stack)
    (htop : a.stack.top? = some a.key) : a.summary.Traced p entry l.findings a.key :=
  ⟨hp, htop, ht.heap.edits ht.sourceless a.context.edits_returnEntity⟩

end Activation

namespace Machine

open Activation

variable {s : Setup} {entry key : SummaryKey} {a a' : Activation} {l l' : Ledger} {f : Findings}
  {m m' : Machine} {below : List Activation} {p : Program}

/-! Moves of the stack. -/

/-- The topmost activation is still traced when it comes to a call or to its end. -/
theorem traces_of_reached (hl : l.Genuine p entry) (hp : p.Path entry a.stack)
    (hh : a.context.heap.Traced p entry l.findings a.stack)
    (hr : (advance s a l).reached = some (a', l')) : a'.Traces p entry l.findings l' := by
  have ht : a.Traces p entry l.findings l := ⟨hl, .refl _, hh⟩
  have hwalked : ∀ {w w' : Interpreter} {pause : Interpreter.Pause} {c : Context},
      w.step a.context = (pause, w', c) →
      Activation.Traces p entry l.findings { a with work := .walk w', context := c }
        (countInstructions a.context.instructions c l) := by
    intro w w' pause c hs
    have hedits := w.edits_step a.context
    rw [hs] at hedits
    exact (ht.withHeap (ht.heap.edits ht.sourceless hedits)).count _
  generalize ho : advance s a l = o at hr
  cases comes_of_advance ho with
  | failed => cases hr
  | rests hrests =>
    cases hr
    cases hrests with
    | dispatched => exact ht.settled
    | walked _ hs => exact (hwalked hs).settled
  | @implementation method rest mode _ hw hx =>
    subst hx
    have hnext : Activation.Traces p entry l.findings
        { (a.implementationCall method).2 with work := .dispatch rest .merge } l :=
      ht.withHeap (ht.heap.edits ht.sourceless a.context.edits_returnEntity)
    rw [Outcome.reached_ofCall] at hr
    have hcall := hnext.dispatchConcrete s (a.implementationCall method).1 mode
    rw [Option.some.inj hr] at hcall
    exact hcall
  | @call w w' c e _ hw hs hx =>
    subst hx
    rw [Outcome.reached_ofCall] at hr
    have hcall := (hwalked hs).settled.dispatch hp s e
    rw [← settledAt, Option.some.inj hr] at hcall
    exact hcall

/-- What the machine keeps is traced. -/
structure Traced (p : Program) (entry : SummaryKey) (m : Machine) : Prop where
  ledger : m.ledger.Genuine p entry
  activations : ∀ a ∈ m.activations, a.Genuine p entry m.ledger.findings

/-- The topmost activation went on. -/
theorem traced_cons (ht : a.Traces p entry f l) (hr : a.recursion = none)
    (hd : a.dependency = none) (hb : ∀ b ∈ below, b.Genuine p entry f) :
    Traced p entry ⟨a :: below, l⟩ := by
  refine ⟨ht.genuine, List.forall_mem_cons.mpr ⟨⟨ht.heap, hr, hd⟩, fun b hm => ?_⟩⟩
  exact (hb b hm).later ht.later

/-- The topmost activation is answered by a summary. -/
theorem traced_answer (ht : a.Traces p entry f l) (hr : a.recursion = none)
    (hd : a.dependency = none) {r : CallRequest} {summary : Summary}
    (hs : summary.Traced p entry l.findings r.key) (hp : p.Path entry (a.stack.push r.key))
    (hb : ∀ b ∈ below, b.Genuine p entry f) :
    Traced p entry
      ⟨(answer a l r summary false).1 :: below, (answer a l r summary false).2⟩ := by
  have htraces := (ht.applySummary hs hp).settle
  obtain ⟨⟨context, hshape⟩, -⟩ := answer_shape a l r summary false
  exact traced_cons htraces (by rw [hshape]; exact hr) (by rw [hshape]; exact hd) hb

/-- A recursive call opens a loop where there is none. -/
theorem loops_openLoop {level : Nat} (hr : ∀ a ∈ m.activations, a.recursion = none)
    (hl : levelOf? key m.activations = some level) :
    (openLoop level m).2.loops = m.loops + 1 := by
  obtain ⟨head, hh, -⟩ := exists_of_levelOf? hl
  have hnone := hr head (mem_of_atLevel? hh)
  unfold openLoop
  rw [hh]
  simp only [hnone, Option.isSome_none, Bool.false_eq_true, ↓reduceIte]
  rfl

theorem traces_countWalk {stack : CallStack} {h : Heap} (a : Activation)
    (ht : Ledger.Traces p entry stack f (h, l)) :
    Ledger.Traces p entry stack f (h, countWalk a l) := by
  unfold countWalk
  split
  · exact ht.count _
  · exact ht

/-- An activation is begun for a call of the topmost one. -/
theorem traced_enter (ht : a.Traces p entry f l) (hr : a.recursion = none)
    (hd : a.dependency = none) {r : CallRequest} {method : MethodRef} {stack : CallStack}
    {target : CallTarget} {statics : Bool} {callee : Activation}
    (hs : start key method stack target statics = .ok callee)
    (hb : ∀ b ∈ below, b.Genuine p entry f) :
    Traced p entry ⟨callee :: { a with waiting := some r } :: below, countWalk callee l⟩ := by
  obtain ⟨hcallee, -⟩ := start_shape hs
  have hheap : callee.context.heap.Traced p entry l.findings callee.stack :=
    Heap.confined_empty.edits (ht.genuine.findings.sourceless _) (start_fresh hs).2.2
  refine traced_cons (traces_countWalk callee ⟨ht.genuine, .refl _, hheap⟩) (by rw [hcallee])
    (by rw [hcallee]) ?_
  exact List.forall_mem_cons.mpr ⟨⟨ht.heap, hr, hd⟩, fun b hm => (hb b hm).later ht.later⟩

/-- The caller is answered by the summary of the activation that was begun for it. -/
theorem Traced.resume (hm : m.Traced p entry) {summary : Summary}
    (hs : ∀ a ∈ m.activations.head?, ∀ r, a.waiting = some r →
      summary.Traced p entry m.ledger.findings r.key ∧ p.Path entry (a.stack.push r.key)) :
    (resume summary m).Traced p entry := by
  obtain ⟨_ | ⟨a, below⟩, l⟩ := m
  · exact hm
  obtain ⟨ha, hbelow⟩ := List.forall_mem_cons.mp hm.activations
  unfold Machine.resume onTop
  simp only
  split
  · exact hm
  · rename_i r hr
    obtain ⟨hsummary, hpath⟩ := hs a rfl r hr
    have ht : Activation.Traces p entry l.findings { a with waiting := none } l :=
      ⟨hm.ledger, .refl _, ha.heap⟩
    exact traced_answer ht ha.recursion ha.dependency hsummary hpath hbelow

/-- The topmost activation has come to its end, and takes part in no recursion. -/
theorem traced_complete (ht : a.Traces p entry f l) (hr : a.recursion = none)
    (hd : a.dependency = none) (hb : ∀ b ∈ below, b.Genuine p entry f)
    (hs : a.summary.Traced p entry l.findings a.key)
    (hc : ∀ b ∈ below.head?, ∀ r, b.waiting = some r →
      a.key = r.key ∧ p.Path entry (b.stack.push r.key)) :
    (Machine.resume a.summary (file (a.pending ++ [(a.key, a.summary)]) a.dependency
      ⟨below, l⟩)).Traced p entry := by
  have hpending : a.pending = [] := by
    unfold pending
    rw [hr]
    rfl
  rw [hpending, hd]
  have hfiled : Traced p entry ⟨below, { l with cache := l.cache.put a.key a.summary }⟩ := by
    refine ⟨⟨ht.genuine.findings, ht.genuine.session, fun e he => ?_⟩, fun b hm => ?_⟩
    · rcases Cache.mem_put he with rfl | he
      · exact hs
      · exact ht.genuine.cache e he
    · exact (hb b hm).later ht.later
  refine hfiled.resume fun b hb r hr => ?_
  obtain ⟨hkey, hpath⟩ := hc b hb r hr
  exact ⟨hkey ▸ hs, hpath⟩

/-- All routes are calls of the program, and all that is kept is traced. -/
structure Genuine (s : Setup) (entry : SummaryKey) (m : Machine) : Prop
    extends m.Traced s.program entry where
  routed : m.Routed s entry

/-- What the topmost activation comes to. -/
theorem Genuine.reached (hm : Genuine s entry ⟨a :: below, l⟩)
    (hr : (advance s a l).reached = some (a', l')) :
    a'.Traces s.program entry l.findings l' ∧ a'.recursion = none ∧ a'.dependency = none ∧
      Routed s entry ⟨a' :: below, l'⟩ ∧ ∀ b ∈ below, b.Genuine s.program entry l.findings := by
  obtain ⟨ha, hbelow⟩ := List.forall_mem_cons.mp hm.activations
  have ht := traces_of_reached hm.ledger (Program.path_of_links hm.routed.top.path) ha.heap hr
  have hrouted := hm.routed.reached hr
  obtain ⟨⟨context, work, rfl⟩, -⟩ := reached_shape hr
  exact ⟨ht, ha.recursion, ha.dependency, hrouted, hbelow⟩

/-- A move after which no loop has been opened keeps all that is traced. -/
theorem Genuine.traced_move (hp : s.program.Keyed) (hm : m.Genuine s entry)
    (hmove : Move s m m') (hloops : m'.loops = 0) : m'.Traced s.program entry := by
  cases hmove with
  | @answered a a' below l l' ha =>
    obtain ⟨ht, hrecursion, hdependency, -, hbelow⟩ := hm.reached (by rw [ha]; rfl)
    exact traced_cons ht.settled hrecursion hdependency hbelow
  | @served a a' below l l' k r summary cache ha hg hk =>
    obtain ⟨ht, hrecursion, hdependency, -, hbelow⟩ := hm.reached (by rw [ha]; rfl)
    have hpath := Program.path_of_links (hm.routed.callee hp ha)
    have hsummary := ht.genuine.cache _ (Cache.mem_of_get_some (congrArg Prod.fst hg))
    have hserved := (ht.withCache fun e he => Cache.mem_of_get hg he).count
      fun s => { s with cacheHits := s.cacheHits + 1 }
    rw [← hk] at hserved
    have hfindings : k.findings = l'.findings := by
      rw [hk]
      rfl
    exact traced_answer hserved hrecursion hdependency (hfindings ▸ hsummary) hpath hbelow
  | @looped a a' below l l' r cache level provisional m ha hg hl ho =>
    obtain ⟨-, hrecursion, -, -, hbelow⟩ := hm.reached (by rw [ha]; rfl)
    have hnone : ∀ b ∈ a' :: below, b.recursion = none :=
      List.forall_mem_cons.mpr ⟨hrecursion, fun b hb => (hbelow b hb).recursion⟩
    have hopen := loops_openLoop (m := ⟨a' :: below, { l' with cache }⟩) hnone hl
    rw [ho] at hopen
    have htop := (keeps_onTop (fun a l => (answer_shape a l r provisional true).2) m).loops
    have hzero : m.loops = 0 := htop.symm.trans hloops
    exact absurd (hopen.symm.trans hzero) (Nat.succ_ne_zero _)
  | @entered a a' callee below l l' r cache ha hg hl hs =>
    obtain ⟨ht, hrecursion, hdependency, -, hbelow⟩ := hm.reached (by rw [ha]; rfl)
    exact traced_enter (ht.withCache fun e he => Cache.mem_of_get hg he) hrecursion hdependency hs
      hbelow
  | @restarted a a' again below l l' loop ha hr hu hs =>
    obtain ⟨-, hrecursion, -, -, -⟩ := hm.reached (by rw [ha]; rfl)
    rw [hrecursion] at hr
    cases hr
  | @completed a a' below l l' ha hf =>
    obtain ⟨ht, hrecursion, hdependency, hrouted, hbelow⟩ := hm.reached (by rw [ha]; rfl)
    have hpath := Program.path_of_links hrouted.top.path
    refine traced_complete ht hrecursion hdependency hbelow (ht.summary hpath hrouted.top.top) ?_
    intro b hb r hr
    cases below with
    | nil => cases hb
    | cons b' rest =>
      cases hb
      have hbrouted := hrouted.errands _ (List.mem_cons_of_mem _ List.mem_cons_self)
      refine ⟨((List.isChain_cons_cons.mp hrouted.linked).1.call r hr).1, ?_⟩
      exact Program.path_of_links (hbrouted.push (hbrouted.waiting r hr))

theorem Genuine.move (hp : s.program.Keyed) (hm : m.Genuine s entry) (hmove : Move s m m')
    (hloops : m'.loops = 0) : m'.Genuine s entry :=
  ⟨hm.traced_move hp hmove hloops, hm.routed.move hp hmove⟩

theorem Genuine.run (hp : s.program.Keyed) (hm : m.Genuine s entry) {fuel : Nat}
    (hr : m.run s fuel = (.ok (), l)) (hl : l.statistics.recursionLoops = 0) :
    l.Genuine s.program entry := by
  induction fuel generalizing m with
  | zero =>
    cases hr
    exact hm.ledger
  | succ fuel ih =>
    unfold Machine.run at hr
    cases hstep : step s m with
    | finished l' =>
      rw [hstep] at hr
      cases hr
      exact ledger_of_finished hstep ▸ hm.ledger
    | failed failure l' =>
      rw [hstep] at hr
      cases hr
    | running m' =>
      rw [hstep] at hr
      have hloops : m'.loops = 0 := Nat.le_zero.mp (hl ▸ loops_le_of_run hr)
      exact ih (hm.move hp (move_of_step hstep) hloops) hr

end Machine

/-! Runs. -/

namespace Engine

open Machine

variable {e e' : Engine} {entry : EntryPoint} {findings : Findings} {source : Source}

theorem Made.genuine (he : e.Made) (hu : e.used = false) (p : Program) (entry : SummaryKey) :
    e.ledger.Genuine p entry := by
  obtain ⟨hf, hs, hc⟩ := he.fresh hu
  refine ⟨hf ▸ Findings.genuine_empty, fun hm => ?_, fun e he => ?_⟩
  · rw [hs] at hm
    cases hm
  · rw [hc] at he
    exact absurd he List.not_mem_nil

theorem traced_markInputs {p : Program} {entry : SummaryKey} {f : Findings} {stack : CallStack}
    {c : Context} (hf : f.Genuine p entry) (required : List String) (m : MethodRef)
    (hh : c.heap.Traced p entry f stack) :
    (markInputs required c m).Traced p entry f stack := by
  refine Heap.Confined.foldl (fun h x hc => ?_) _ hh
  obtain ⟨formal, type⟩ := x
  cases formal with
  | none => exact hc
  | some id =>
    simp only
    split
    · exact hc.markInput (hf.sourceless stack) id
    · exact hc

theorem genuine_boot {s : Setup} {l : Ledger} {d : MethodDef} {required : List String}
    {first : Machine} (hp : s.program.Keyed) (hd : s.program.method? d.signature = some d)
    (hl : l.Genuine s.program ⟨.concrete, d.signature⟩)
    (hb : boot s l d required = .ok first) :
    first.Genuine s ⟨.concrete, d.signature⟩ := by
  refine ⟨?_, routed_boot hp hd hb⟩
  obtain ⟨root, hs, hact, hledger⟩ := root_of_boot hb
  obtain ⟨hroot, -⟩ := Activation.start_shape hs
  have hheap : root.context.heap.Traced s.program ⟨.concrete, d.signature⟩ l.findings
      root.stack :=
    Heap.confined_empty.edits (hl.findings.sourceless _) (Activation.start_fresh hs).2.2
  have hmarked := traced_markInputs hl.findings required d.reference hheap
  have htraces : (root.setHeap (markInputs required root.context d.reference)).Traces s.program
      ⟨.concrete, d.signature⟩ l.findings (Machine.countWalk root l) :=
    Machine.traces_countWalk root ⟨hl, .refl _, hmarked⟩
  have hrecursion : root.recursion = none := by rw [hroot]
  have hdependency : root.dependency = none := by rw [hroot]
  obtain ⟨activations, ledger⟩ := first
  cases hact
  cases hledger
  exact Machine.traced_cons htraces.settled hrecursion hdependency
    fun b hm => absurd hm List.not_mem_nil

/-- Where no recursion loop is opened, every source that was moved to another call site at most once
is reported with a genuine path. Both conditions matter: a second move keeps frames of the first
call site, and a provisional answer leaves the paths of its sources as they are. -/
theorem sources_genuine (he : e.Made) (hp : e.setup.program.Keyed)
    (hx : e.execute entry = (.ok findings, e')) (hl : e'.ledger.statistics.recursionLoops = 0)
    (hs : source ∈ findings.sources) (hm : findings.MovedOnce source.id) :
    source.Genuine e.setup.program ⟨.concrete, entry.method⟩ := by
  unfold execute at hx
  split at hx
  · cases hx
  · rename_i hu
    simp only at hx
    split at hx
    · cases hx
    · rename_i d hd
      have hmethod : e.setup.program.method? entry.method = some d :=
        (Option.filter_eq_some_iff.mp hd).1
      have hsignature := hp entry.method d hmethod
      split at hx
      · cases hx
      · rename_i first hb
        split at hx
        · cases hx
        · rename_i ledger hrun
          obtain ⟨hrun, -⟩ := run_of_runToEnd hrun
          cases hx
          rw [← hsignature] at hmethod ⊢
          have hkeyed : (e.runSetup d).program.Keyed := hp
          have hfirst := genuine_boot hkeyed hmethod
            (he.genuine (Bool.not_eq_true _ ▸ hu) _ _) hb
          exact (hfirst.run hkeyed hrun hl).findings.source source hs hm

/-- The source was found two calls below the entry point, and was moved when the summary with it
answered a call of the entry point. -/
theorem wreckEngine_sources_genuine : ∃ findings e' source,
    wreckEngine.execute ⟨wreck.signature, []⟩ = (.ok findings, e') ∧
      findings.redirects = [(2, 3)] ∧ findings.sources = [source] ∧
      source.forward = wreckStack.push ⟨.concrete, spring.signature⟩ ∧
      source.Genuine wreckEngine.setup.program ⟨.concrete, wreck.signature⟩ := by
  obtain ⟨findings, e', source, hx, hloops, hredirects, hsources, hid, hforward, -⟩ :=
    wreckEngine_execute
  have hmem : source ∈ findings.sources := hsources ▸ List.mem_singleton_self source
  have honce : findings.MovedOnce source.id := by
    simp [Findings.MovedOnce, Findings.Original, hredirects, hid]
  exact ⟨findings, e', source, hx, hredirects, hsources, hforward,
    sources_genuine (.ofSettings ..) (Program.keyed_empty.addMethods _) hx hloops hmem honce⟩

end Engine

end SinkTrace
