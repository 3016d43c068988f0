import SinkTrace.Proofs.Engine.Promises
import SinkTrace.Proofs.Engine.TriggerPaths
import SinkTrace.Proofs.Heap.GluePicture

/-!
What becomes of calls of the sink. One that an instruction makes is answered on the spot: its
receivers become tainted, or wait for an input. An implementation of a virtual method is called
without asking whether it is the sink; as long as none that the entry point leads to is, no frame
is one of the sink, and no call of it is recorded.
-/

namespace SinkTrace

namespace Heap

variable {h : Heap}

/-- What a step brings about for its element, and no other step undoes, holds of all elements in
the end. -/
theorem foldl_brings {α : Type} {step : Heap → α → Heap} {inv : Heap → Prop}
    {brings : α → Heap → Prop} (hinv : ∀ h a, inv h → inv (step h a))
    (hown : ∀ h a, inv h → brings a (step h a))
    (hother : ∀ h a b, inv h → brings b h → brings b (step h a)) (as : List α) (hh : inv h) :
    ∀ a, a ∈ as ∨ brings a h → brings a (as.foldl step h) := by
  induction as generalizing h with
  | nil => exact fun a ha => ha.resolve_left List.not_mem_nil
  | cons b as ih =>
    refine fun a ha => ih (hinv h b hh) a ?_
    rcases ha with ha | ha
    · rcases List.mem_cons.mp ha with rfl | ha
      · exact .inr (hown h a hh)
      · exact .inl ha
    · exact .inr (hother h b a hh ha)

/-- Raising the taint of several entities. -/
theorem Descending.le_taint_raiseAll (hd : h.Descending) (taint : TaintId)
    (stack : Option CallStack) {ids : List EntityId} :
    ∀ id ∈ ids, id < h.size →
      taint ≤ (ids.foldl (fun h id => (h.raiseTaint id taint stack).2) h).taint id := by
  have hbrings := @foldl_brings h EntityId (fun h id => (h.raiseTaint id taint stack).2)
    (fun h' => h'.Descending ∧ h'.size = h.size) (fun id h' => id < h.size → taint ≤ h'.taint id)
    (fun h' id hh => ?_) (fun h' id hh hid => ?_) (fun h' id other _ hb hother => ?_) ids ⟨hd, rfl⟩
  · exact fun id hm => hbrings id (.inl hm)
  · have halike := Ledger.alike_waits_raiseTaint h' id taint stack
    exact ⟨halike.descending hh.1, halike.size.trans hh.2⟩
  · exact hh.1.le_taint_raiseTaint (hh.2 ▸ hid) taint stack
  · exact (hb hother).trans (taint_le_raiseTaint h' id taint stack other)

/-- Every owner has the edges that were added to it. -/
theorem Descending.mem_addDeferredTaints (hd : h.Descending)
    {edges : List (EntityId × DeferredTaint)} : ∀ e ∈ edges, e.1 < h.size →
      e.2 ∈ ((edges.foldl (fun h e => h.addDeferredTaint e.1 e.2) h).entity e.1).deferredTaint := by
  have hbrings := @foldl_brings h (EntityId × DeferredTaint)
    (fun h e => h.addDeferredTaint e.1 e.2) (fun h' => h'.Descending ∧ h'.size = h.size)
    (fun e h' => e.1 < h.size → e.2 ∈ (h'.entity e.1).deferredTaint)
    (fun h' e hh => ?_) (fun h' e hh he => ?_) (fun h' e other hh hb hother => ?_) edges ⟨hd, rfl⟩
  · exact fun e hm => hbrings e (.inl hm)
  · have halike := alike_addDeferredTaint h' e.1 e.2
    exact ⟨halike.descending hh.1, halike.size.trans hh.2⟩
  · exact hh.1.mem_addDeferredTaint (hh.2 ▸ he) e.2
  · exact (heeds_addDeferredTaint hh.1 e.1 e.2).taint (hb hother)

end Heap

namespace Activation

variable {s : Setup} {a : Activation} {l : Ledger} {e : CallEffect}

/-- How a call of the sink is answered: every receiver has the taint of a source, or, where only
input taints and no input of the call is input, every input waits with the call for each
receiver. -/
inductive Intercepted (inputMode : Bool) (a : Activation) (l : Ledger) (e : CallEffect) :
    Activation → Ledger → Prop where
  | raised {a' : Activation} {source : TaintId} {l' : Ledger}
    (hs : l.sourceFor ⟨e.signature, a.stack, e.offset⟩ = (source, l'))
    (hf : TaintId.firstSource ≤ source)
    (ht : ∀ output ∈ e.receivers, output < a.context.heap.size →
      source ≤ a'.context.heap.taint output) : Intercepted inputMode a l e a' l'
  | deferred {a' : Activation} (hm : inputMode = true)
    (hc : anyInput a.context.heap e.inputs = false)
    (hd : ∀ input ∈ e.inputs, input < a.context.heap.size → ∀ output ∈ e.receivers,
      ⟨output, ⟨e.signature, a.stack, e.offset⟩⟩ ∈
        (a'.context.heap.entity input).deferredTaint) : Intercepted inputMode a l e a' l

theorem crossEdges_addDeferredTaint (e : CallEffect) (call : SinkCall) (h : Heap) :
    crossEdges e (fun h input output => h.addDeferredTaint input ⟨output, call⟩) h =
      (e.inputs.flatMap fun input => e.receivers.map fun output =>
        (input, (⟨output, call⟩ : DeferredTaint))).foldl
        (fun h edge => h.addDeferredTaint edge.1 edge.2) h := by
  simp only [crossEdges, List.foldl_flatMap, List.foldl_map]

theorem intercepted_interceptSink (hd : a.context.heap.Descending) (hl : l.Issues)
    (inputMode : Bool) (e : CallEffect) :
    Intercepted inputMode a l e (a.interceptSink l inputMode e).1
      (a.interceptSink l inputMode e).2 := by
  unfold interceptSink
  simp only
  split
  · rename_i hc
    rw [Bool.and_eq_true, Bool.not_eq_true'] at hc
    refine .deferred hc.1 hc.2 fun input hin hlt output hout => ?_
    rw [crossEdges_addDeferredTaint]
    refine hd.mem_addDeferredTaints (input, _) (List.mem_flatMap.mpr ⟨input, hin, ?_⟩) hlt
    exact List.mem_map.mpr ⟨output, hout, rfl⟩
  · exact .raised rfl (hl.sourceFor _).1 fun output hout hlt =>
      hd.le_taint_raiseAll _ _ output hout hlt

/-- A call of the sink asks for nothing. -/
theorem dispatch_sink (hs : e.signature = s.config.sensitiveSink) :
    dispatch s a l e = (none, a.interceptSink l s.config.inputTaintedMode e) :=
  if_pos (beq_iff_eq.mpr hs)

end Activation

/-! Frames of the sink. -/

namespace Program

variable {p : Program} {sink called : Signature} {entry key key' : SummaryKey}

/-- None of the implementations that the entry point leads to is the sink. -/
def Avoids (p : Program) (sink : Signature) (entry : SummaryKey) : Prop :=
  ∀ base m, p.Reaches sink entry ⟨.virtual, base⟩ → p.Implements base m → m.signature ≠ sink

theorem Makes.ne_sink (ha : p.Avoids sink entry) (hr : p.Reaches sink entry key)
    (hk : key.signature ≠ sink) (hm : p.Makes sink key called) : called ≠ sink := by
  cases hm with
  | instruction _ _ _ hs => exact hs
  | implementation hi => exact ha _ _ hr hi
  | itself => exact hk

/-- The sink is on no path from another method. -/
theorem Avoids.ne_sink (ha : p.Avoids sink entry) (he : entry.signature ≠ sink)
    (hr : p.Reaches sink entry key) : key.signature ≠ sink := by
  induction hr with
  | refl => exact he
  | tail hr hl ih =>
    cases hl with
    | concrete hm => exact hm.ne_sink ha hr ih
    | virtual _ _ _ _ _ hs => exact hs

end Program

theorem recordable_ne_sink {s : Setup} {entry : SummaryKey}
    (ha : s.program.Avoids s.config.sensitiveSink entry)
    (he : entry.signature ≠ s.config.sensitiveSink) :
    Recordable s entry fun _ call => call.signature ≠ s.config.sensitiveSink where
  made := by
    intro stack top called hpath htop hmakes
    have hreached := hpath.reached top (CallStack.mem_of_top? htop)
    exact hmakes.ne_sink ha hreached (ha.ne_sink he hreached)
  moved := fun _ _ _ hc => hc

namespace Machine

variable {s : Setup} {entry : SummaryKey} {m : Machine}

/-- No frame is one of the sink, every call of the sink that an instruction makes is intercepted, no
other one is to come, and none is recorded. -/
structure Intercepts (s : Setup) (entry : SummaryKey) (m : Machine) : Prop where
  keys : ∀ a ∈ m.activations, a.key.signature ≠ s.config.sensitiveSink
  calls : ∀ a below l, m = ⟨a :: below, l⟩ → ∀ w w' c e, a.work = .walk w →
    w.step a.context = (.call e, w', c) → e.signature = s.config.sensitiveSink →
      ∃ b k a' l', settledAt a l w' c = (b, k) ∧ advance s a l = .answered a' l' ∧
        Activation.Intercepted s.config.inputTaintedMode b k e a' l'
  implementations : ∀ a ∈ m.activations, ∀ remaining mode, a.work = .dispatch remaining mode →
    ∀ method ∈ remaining, method.signature ≠ s.config.sensitiveSink
  recorded : m.Recorded s entry fun _ call => call.signature ≠ s.config.sensitiveSink

/-- A walk intercepts the sink in any case. -/
theorem Sound.intercepted {a : Activation} {below : List Activation} {l : Ledger}
    {w w' : Interpreter} {c : Context} {e : CallEffect} (hm : Sound ⟨a :: below, l⟩)
    (hw : a.work = .walk w) (hs : w.step a.context = (.call e, w', c))
    (he : e.signature = s.config.sensitiveSink) :
    ∃ b k a' l', settledAt a l w' c = (b, k) ∧ advance s a l = .answered a' l' ∧
      Activation.Intercepted s.config.inputTaintedMode b k e a' l' := by
  have hwalked := continues_walk (hm.activations a List.mem_cons_self) hm.ledger hs
  have hsettled := hwalked.activation.settle hwalked.ledger.sound
  refine ⟨_, _, _, _, rfl, ?_, Activation.intercepted_interceptSink
    hsettled.activation.heap.descending hsettled.ledger.sound.issues _ e⟩
  rw [advance_of_call hw hs, Activation.dispatch_sink he]
  rfl

end Machine

namespace Engine

open Machine

variable {e : Engine} {entry : EntryPoint} {s : Setup} {m : Machine}

/-- Every call of the sink is intercepted, in every machine that a run from another method goes
through, as long as the sink implements no virtual method that the run can call. -/
theorem sink_intercepted (he : e.Made) (hp : e.setup.program.Keyed)
    (hn : entry.method ≠ e.setup.config.sensitiveSink)
    (ha : e.setup.program.Avoids e.setup.config.sensitiveSink ⟨.concrete, entry.method⟩)
    (hm : e.Passes entry s m) : m.Intercepts s ⟨.concrete, entry.method⟩ := by
  have hrecorded := hm.recorded he hp (recordable_ne_sink ha hn) (.inr fun _ _ _ hc => hc)
  rw [← hm.program, ← hm.config] at ha
  rw [← hm.config] at hn hrecorded
  have hroutes := hm.routed hp
  have hkeys : ∀ a ∈ m.activations, s.program.Reaches s.config.sensitiveSink
      ⟨.concrete, entry.method⟩ a.key ∧ a.key.signature ≠ s.config.sensitiveSink := by
    intro a hin
    have hreached := (hroutes.errands _ (List.mem_map_of_mem hin)).reached
    exact ⟨hreached, ha.ne_sink hn hreached⟩
  refine ⟨fun a hin => (hkeys a hin).2, fun a below l hmachine w w' c call hw hs hcall => ?_,
    fun a hin remaining mode hw method hmethod => ?_, hrecorded⟩
  · subst hmachine
    exact (hm.sound he).intercepted hw hs hcall
  · have hserves : a.work.Serves s a.key := (hroutes.errands _ (List.mem_map_of_mem hin)).serves
    obtain ⟨hreached, hkey⟩ := hkeys a hin
    rw [hw] at hserves
    generalize a.key = key at hserves hreached hkey
    cases hserves with
    | dispatch hmakes => exact (hmakes method hmethod).ne_sink ha hreached hkey

/-- Two calls below the entry point the walk comes to a call of the sink, and its result has the
taint of a source. -/
theorem wreckEngine_intercepts : ∃ a below l e b k a' l',
    wreckEngine.machineAt? ⟨wreck.signature, []⟩ 2 = some ⟨a :: below, l⟩ ∧ below.length = 2 ∧
      e.signature = leak.signature ∧
      advance (wreckEngine.runSetup wreck) a l = .answered a' l' ∧
      Activation.Intercepted false b k e a' l' := by
  have hrun : ((wreckEngine.machineAt? ⟨wreck.signature, []⟩ 2).bind fun m =>
      m.pause?.map fun p => (m.activations.length, p.1.call?.map CallEffect.signature)) =
      some (3, some leak.signature) := by decide +kernel
  obtain ⟨m, hm, hrun⟩ := Option.bind_eq_some_iff.mp hrun
  obtain ⟨⟨pause, a', l'⟩, hpause, hrun⟩ := Option.map_eq_some_iff.mp hrun
  obtain ⟨hlength, hcall⟩ := Prod.mk.inj hrun
  obtain ⟨a, below, l, w, w', c, rfl, hw, hs, -, -⟩ := Machine.exists_of_pause? hpause
  cases pause with
  | finished | failed => cases hcall
  | call e =>
    have hsignature : e.signature = leak.signature := Option.some.inj hcall
    have hnone : wreckEngine.setup.program.implementations = {} := by decide +kernel
    have hn : (EntryPoint.mk wreck.signature []).method ≠ leak.signature := by decide +kernel
    have havoids : wreckEngine.setup.program.Avoids leak.signature
        ⟨.concrete, (EntryPoint.mk wreck.signature []).method⟩ := by
      rintro base m - ⟨i, hi, -⟩
      rw [hnone] at hi
      exact absurd hi List.not_mem_nil
    have hintercepts := sink_intercepted (.ofSettings ..) (Program.keyed_empty.addMethods _) hn
      havoids (passes_of_machineAt? rfl entry?_wreck hm)
    obtain ⟨b, k, a', l', -, hadvance, hintercepted⟩ :=
      hintercepts.calls a below l rfl w w' c e hw hs hsignature
    exact ⟨a, below, l, e, b, k, a', l', hm, Nat.succ.inj hlength, hsignature, hadvance,
      hintercepted⟩

end Engine

end SinkTrace
