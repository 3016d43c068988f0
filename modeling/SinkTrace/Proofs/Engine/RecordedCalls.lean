import SinkTrace.Proofs.Engine.Finality
import SinkTrace.Proofs.Engine.Recording
import SinkTrace.Proofs.Engine.Runs

/-!
The calls that are recorded in a run. Every move keeps them to what may be recorded on the stack of
each activation, with one exception: a provisional answer brings calls of the stack of the head into
the heap of an activation above it, and leaves them as they are.
-/

namespace SinkTrace

namespace Activation

variable {s : Setup} {entry : SummaryKey} {held : CallStack → TargetCall → Prop} {a : Activation}
  {l : Ledger}

/-- All that an activation holds was recorded for its stack. -/
structure Recorded (s : Setup) (entry : SummaryKey) (held : CallStack → TargetCall → Prop)
    (a : Activation) : Prop where
  heap : a.context.heap.Recorded (held a.stack)
  provisional : ∀ callee, a.provisional = .computed callee → callee.heap.Recorded (held a.stack)
  pending : ∀ e ∈ a.pending, Summary.Recorded s entry held e

theorem Recorded.dependOn (ha : a.Recorded s entry held) (level : Nat) :
    (a.dependOn level).Recorded s entry held := ⟨ha.heap, ha.provisional, ha.pending⟩

theorem provisional_extendLoop (a : Activation) (participants : List SummaryKey) :
    (a.extendLoop participants).provisional = a.provisional := by
  unfold Activation.provisional extendLoop
  cases a.recursion <;> rfl

theorem Recorded.extendLoop (ha : a.Recorded s entry held) (participants : List SummaryKey) :
    (a.extendLoop participants).Recorded s entry held :=
  ⟨ha.heap, by rw [provisional_extendLoop]; exact ha.provisional,
    by rw [pending_extendLoop]; exact ha.pending⟩

theorem provisional_deferAll (entries : List (SummaryKey × Summary)) (a : Activation) :
    (a.deferAll entries).provisional = a.provisional := by
  have hloop : ∀ (entries : List (SummaryKey × Summary)) (loop : RecursionLoop Fingerprint),
      (loop.deferAll entries).provisional = loop.provisional := by
    intro entries
    induction entries with
    | nil => exact fun _ => rfl
    | cons entry entries ih => exact fun loop => ih (loop.defer entry.1 entry.2)
  unfold Activation.provisional Activation.deferAll
  cases a.recursion with
  | none => rfl
  | some loop => exact congrArg (Option.getD · .empty) (hloop entries loop)

theorem Recorded.deferAll (ha : a.Recorded s entry held) {entries : List (SummaryKey × Summary)}
    (he : ∀ e ∈ entries, Summary.Recorded s entry held e) :
    (a.deferAll entries).Recorded s entry held := by
  refine ⟨ha.heap, by rw [provisional_deferAll]; exact ha.provisional, fun e hin => ?_⟩
  cases hr : a.recursion with
  | none =>
    have hnone : (a.deferAll entries).pending = [] := by
      unfold Activation.pending Activation.deferAll
      rw [hr]
      rfl
    rw [hnone] at hin
    exact absurd hin List.not_mem_nil
  | some loop =>
    rw [pending_deferAll entries (by rw [hr]; rfl)] at hin
    exact (List.mem_append.mp hin).elim (ha.pending e) (he e)

theorem recorded_start {key : SummaryKey} {method : MethodRef} {stack : CallStack}
    {target : CallTarget} {statics : Bool} (hs : start key method stack target statics = .ok a) :
    a.Recorded s entry held := by
  obtain ⟨-, hrecursion, hedits⟩ := start_fresh hs
  refine ⟨Heap.recorded_empty.edits hedits, fun callee hc => ?_, fun e he => ?_⟩
  · unfold Activation.provisional at hc
    rw [hrecursion] at hc
    cases hc
  · unfold Activation.pending at he
    rw [hrecursion] at he
    exact absurd he List.not_mem_nil

/-- The summary of an activation, under its key. -/
theorem Recording.summary (hr : a.Recording s entry held l) (ho : a.errand.Routed s entry) :
    Summary.Recorded s entry held (a.key, a.summary) := by
  intro m hm
  cases hm
  exact ⟨ho.path, ho.top, hr.heap.edits a.context.edits_returnEntity⟩

end Activation

namespace Machine

variable {s : Setup} {entry : SummaryKey} {held : CallStack → TargetCall → Prop}
  {a a' : Activation} {l l' : Ledger} {below : List Activation} {m m' : Machine} {r : CallRequest}

/-- The call that the topmost activation comes to is about to be answered by what an activation
below it has found out in an earlier iteration. -/
inductive Borrows (s : Setup) : Machine → Prop where
  | of {a a' head : Activation} {below : List Activation} {l l' : Ledger} {r : CallRequest}
    {level : Nat} {callee : MethodSummary} (ha : advance s a l = .asks r a' l')
    (hg : (l'.cache.get r.key).1 = none) (hk : a'.key ≠ r.key)
    (hl : levelOf? r.key below = some level) (hh : atLevel? level below = some head)
    (hp : head.provisional = .computed callee) : Borrows s ⟨a :: below, l⟩

/-- The topmost activation when it comes to a call or to its end. -/
theorem recording_of_reached (hh : Recordable s entry held) (ho : a.errand.Routed s entry)
    (ha : a.context.heap.Recorded (held a.stack)) (hl : l.Recorded s entry held)
    (hr : (advance s a l).reached = some (a', l')) : a'.Recording s entry held l' := by
  have hrec : a.Recording s entry held l := ⟨ha, hl⟩
  have hserves : a.work.Serves s a.key := ho.serves
  have hwalked : ∀ {w w' : Interpreter} {pause : Interpreter.Pause} {c : Context},
      w.step a.context = (pause, w', c) →
      Activation.Recording s entry held { a with work := .walk w', context := c }
        (countInstructions a.context.instructions c l) := by
    intro w w' pause c hs
    have hedits := w.edits_step a.context
    rw [hs] at hedits
    exact ⟨hrec.heap.edits hedits, hl.keep hl.findings fun _ he => he⟩
  generalize hc : advance s a l = o at hr
  cases comes_of_advance hc with
  | failed => cases hr
  | rests hrests =>
    cases hr
    cases hrests with
    | dispatched => exact hrec.settled
    | walked _ hs => exact (hwalked hs).settled
  | @implementation method rest mode _ hw hx =>
    subst hx
    have hnext : Activation.Recording s entry held
        { (a.implementationCall method).2 with work := .dispatch rest .merge } l :=
      ⟨hrec.heap.edits a.context.edits_returnEntity, hl⟩
    have hmakes : s.Makes a.key method.signature := by
      rw [hw] at hserves
      generalize a.key = key at hserves
      cases hserves with
      | dispatch hm => exact hm method List.mem_cons_self
    have hcall := hnext.dispatchConcrete (e := (a.implementationCall method).1)
      (hh.made ho.path ho.top hmakes) mode
    rw [Outcome.reached_ofCall] at hr
    rw [Option.some.inj hr] at hcall
    exact hcall
  | @call w w' c e _ hw hs hx =>
    subst hx
    rw [hw] at hserves
    rw [Outcome.reached_ofCall] at hr
    have hcall := (hwalked hs).settled.dispatch (e := e) fun hn => hh.made ho.path ho.top
      (Activation.makes_of_calls hserves (Interpreter.calls_of_step hs) hn)
    rw [← settledAt, Option.some.inj hr] at hcall
    exact hcall

/-- All that the machine holds was recorded for its stacks. -/
structure Recorded (s : Setup) (entry : SummaryKey) (held : CallStack → TargetCall → Prop)
    (m : Machine) : Prop where
  ledger : m.ledger.Recorded s entry held
  activations : ∀ a ∈ m.activations, a.Recorded s entry held

theorem Recorded.reached (hm : Recorded s entry held ⟨a :: below, l⟩)
    (hh : Recordable s entry held) (ho : a.errand.Routed s entry)
    (hr : (advance s a l).reached = some (a', l')) : Recorded s entry held ⟨a' :: below, l'⟩ := by
  obtain ⟨ha, hbelow⟩ := List.forall_mem_cons.mp hm.activations
  obtain ⟨hheap, hledger⟩ := recording_of_reached hh ho ha.heap hm.ledger hr
  obtain ⟨⟨context, work, rfl⟩, -⟩ := reached_shape hr
  exact ⟨hledger, List.forall_mem_cons.mpr ⟨⟨hheap, ha.provisional, ha.pending⟩, hbelow⟩⟩

theorem Recorded.top (hm : Recorded s entry held ⟨a :: below, l⟩) :
    a.Recording s entry held l := ⟨(hm.activations a List.mem_cons_self).heap, hm.ledger⟩

theorem recorded_countWalk (a : Activation) (hl : l.Recorded s entry held) :
    (countWalk a l).Recorded s entry held := by
  unfold countWalk
  split
  · exact hl.keep hl.findings fun _ he => he
  · exact hl

/-- The topmost activation goes on with another heap. -/
theorem Recorded.goOn (hm : Recorded s entry held ⟨a :: below, l⟩) {context : Context}
    (ha : a' = { a with context }) (hr : a'.Recording s entry held l') :
    Recorded s entry held ⟨a' :: below, l'⟩ := by
  obtain ⟨htop, hbelow⟩ := List.forall_mem_cons.mp hm.activations
  subst ha
  exact ⟨hr.ledger, List.forall_mem_cons.mpr ⟨⟨hr.heap, htop.provisional, htop.pending⟩, hbelow⟩⟩

theorem Recorded.answer (hm : Recorded s entry held ⟨a :: below, l⟩) {summary : Summary}
    {provisional : Bool}
    (ha : (a.applySummary l r summary provisional).1.Recording s entry held
      (a.applySummary l r summary provisional).2) :
    Recorded s entry held
      ⟨(answer a l r summary provisional).1 :: below, (answer a l r summary provisional).2⟩ := by
  obtain ⟨⟨context, hshape⟩, -⟩ := answer_shape a l r summary provisional
  exact hm.goOn hshape ha.settled

theorem Recorded.openLoop (hm : m.Recorded s entry held) (level : Nat) :
    (openLoop level m).2.Recorded s entry held := by
  unfold Machine.openLoop
  split
  · exact hm
  · have hall := forall_modifyLevel
      (fun (ha : Activation.Recorded s entry held _) =>
        ha.extendLoop (keysAbove level m.activations))
      (forall_dependOn (fun ha => ha.dependOn level) hm.activations) level
    simp only
    split
    · exact ⟨hm.ledger, hall⟩
    · exact ⟨hm.ledger.keep hm.ledger.findings fun _ he => he, hall⟩

/-- The answer to a recursive call is what the head has found out. -/
theorem provisional_openLoop {level : Nat} {head : Activation}
    (hh : atLevel? level m.activations = some head) :
    (Machine.openLoop level m).1 = head.provisional := by
  unfold Machine.openLoop
  rw [hh]

theorem Recorded.file (hm : m.Recorded s entry held) {entries : List (SummaryKey × Summary)}
    (he : ∀ e ∈ entries, Summary.Recorded s entry held e) (dependency : Option Nat) :
    (file entries dependency m).Recorded s entry held := by
  cases hd : dependency.filter (· < m.activations.length) with
  | none =>
    rw [file_final hd]
    exact ⟨⟨hm.ledger.findings, fun e hin => (Cache.mem_putAll hin).elim (he e)
      (hm.ledger.cache e)⟩, hm.activations⟩
  | some level =>
    rw [file_handDown hd]
    have hall := @forall_modifyLevel (Activation.Recorded s entry held)
      (Activation.deferAll entries) (fun ha => ha.deferAll he) _ hm.activations level
    unfold handDown onTop
    simp only
    generalize modifyLevel level (Activation.deferAll entries) m.activations = as at hall
    cases as with
    | nil => exact ⟨hm.ledger, hall⟩
    | cons b rest =>
      obtain ⟨hb, hrest⟩ := List.forall_mem_cons.mp hall
      refine ⟨hm.ledger, List.forall_mem_cons.mpr ⟨?_, hrest⟩⟩
      split
      · exact hb.dependOn level
      · exact hb

/-- The caller is answered by a summary that was kept under the key of its call. -/
theorem Recorded.resume (hh : Recordable s entry held) (hm : m.Recorded s entry held)
    (hr : m.Routed s entry) {key : SummaryKey} {summary : Summary}
    (hs : Summary.Recorded s entry held (key, summary))
    (hk : ∀ a ∈ m.activations.head?, ∀ r, a.waiting = some r → key = r.key) :
    (resume summary m).Recorded s entry held := by
  obtain ⟨_ | ⟨a, below⟩, l⟩ := m
  · exact hm
  unfold Machine.resume onTop
  simp only
  split
  · exact hm
  · rename_i r hwaits
    obtain rfl := hk a rfl r hwaits
    obtain ⟨ha, hbelow⟩ := List.forall_mem_cons.mp hm.activations
    have hfree : Recorded s entry held ⟨{ a with waiting := none } :: below, l⟩ :=
      ⟨hm.ledger, List.forall_mem_cons.mpr ⟨⟨ha.heap, ha.provisional, ha.pending⟩, hbelow⟩⟩
    have hrecording : Activation.Recording s entry held { a with waiting := none } l :=
      ⟨ha.heap, hm.ledger⟩
    have hpath := hr.top.push (hr.top.waiting r hwaits)
    exact hfree.answer (hrecording.applySummary hh hs hpath)

/-- A provisional answer holds calls of the stack of the activation that it is given to, unless
that one borrows it. -/
theorem provisional_recorded {level : Nat} {provisional : Summary} {cache : Cache}
    (ha : advance s a l = .asks r a' l') (hm : Recorded s entry held ⟨a' :: below, l'⟩)
    (hg : (l'.cache.get r.key).1 = none) (hl : levelOf? r.key (a' :: below) = some level)
    (ho : (Machine.openLoop level ⟨a' :: below, { l' with cache }⟩).1 = provisional)
    (hb : ¬Borrows s ⟨a :: below, l⟩ ∨ ∀ stack stack' call, held stack call → held stack' call) :
    ∀ callee, provisional = .computed callee → callee.heap.Recorded (held a'.stack) := by
  intro callee hcallee
  obtain ⟨head, hhead, -⟩ := exists_of_levelOf? hl
  have hanswer : head.provisional = .computed callee := by
    rw [← hcallee, ← ho, provisional_openLoop (m := ⟨a' :: below, { l' with cache }⟩) hhead]
  have hrecorded := (hm.activations head (mem_of_atLevel? hhead)).provisional callee hanswer
  rcases hb with hb | hshared
  · unfold levelOf? at hl
    split at hl
    · -- The activation calls itself.
      cases hl
      simp only [atLevel?, ↓reduceIte, Option.some.injEq] at hhead
      exact hhead ▸ hrecorded
    · rename_i hk
      have hlt := lt_of_levelOf? hl
      have hbelow : atLevel? level below = some head := by
        simpa [atLevel?, (Nat.ne_of_lt hlt).symm] using hhead
      exact absurd (.of ha hg hk hl hbelow hanswer) hb
  · exact hrecorded.mono fun call hc => hshared head.stack a'.stack call hc

/-- The cache was looked up. -/
theorem Recorded.get (hm : Recorded s entry held ⟨below, l⟩) {key : SummaryKey}
    {found : Option Summary} {cache : Cache} (hg : l.cache.get key = (found, cache)) :
    Recorded s entry held ⟨below, { l with cache }⟩ :=
  ⟨hm.ledger.keep hm.ledger.findings fun _ he => Cache.mem_of_get hg he, hm.activations⟩

/-- The callee of a request is put on top. -/
theorem Recorded.enter (hm : Recorded s entry held ⟨a :: below, l⟩) {callee : Activation}
    (hc : callee.Recorded s entry held) :
    Recorded s entry held
      ⟨callee :: { a with waiting := some r } :: below, countWalk callee l⟩ := by
  obtain ⟨ha, hbelow⟩ := List.forall_mem_cons.mp hm.activations
  have hwaits : Activation.Recorded s entry held { a with waiting := some r } :=
    ⟨ha.heap, ha.provisional, ha.pending⟩
  exact ⟨recorded_countWalk callee hm.ledger,
    List.forall_mem_cons.mpr ⟨hc, List.forall_mem_cons.mpr ⟨hwaits, hbelow⟩⟩⟩

/-- An activation that comes to its end is summarised. -/
theorem Recorded.complete (hh : Recordable s entry held)
    (hm : Recorded s entry held ⟨a :: below, l⟩) (hr : Routed s entry ⟨a :: below, l⟩) :
    (Machine.resume a.summary (Machine.file (a.pending ++ [(a.key, a.summary)]) a.dependency
      ⟨below, l⟩)).Recorded s entry held := by
  obtain ⟨ha, hbelow⟩ := List.forall_mem_cons.mp hm.activations
  have hsummary := hm.top.summary hr.top
  have hentries : ∀ e ∈ a.pending ++ [(a.key, a.summary)], Summary.Recorded s entry held e :=
    fun e he => (List.mem_append.mp he).elim (ha.pending e)
      fun he => List.mem_singleton.mp he ▸ hsummary
  have hrest : Recorded s entry held ⟨below, l⟩ := ⟨hm.ledger, hbelow⟩
  have herrands := errands_file (a.pending ++ [(a.key, a.summary)]) a.dependency ⟨below, l⟩
  have hfiled : Routed s entry (Machine.file _ a.dependency ⟨below, l⟩) :=
    hr.tail.congr herrands
  exact (hrest.file hentries a.dependency).resume hh hfiled hsummary
    (hr.key_of_waiting herrands)

/-- Every move of a machine on its routes keeps its calls recorded, as long as nothing is borrowed,
or if it does not matter which stack a call is recorded for. -/
theorem Recorded.move (hp : s.program.Keyed) (hh : Recordable s entry held)
    (hm : m.Recorded s entry held) (hr : m.Routed s entry)
    (hb : ¬m.Borrows s ∨ ∀ stack stack' call, held stack call → held stack' call)
    (hmove : Move s m m') : m'.Recorded s entry held := by
  cases hmove with
  | @answered a a' below l l' ha =>
    have hreached : Recorded s entry held ⟨a' :: below, l'⟩ :=
      hm.reached hh hr.top (by rw [ha]; rfl)
    obtain ⟨⟨context, hshape⟩, -⟩ := a'.settle_shape l'
    exact hreached.goOn hshape hreached.top.settled
  | @served a a' below l l' k r summary cache ha hg hk =>
    have hreached : Recorded s entry held ⟨a' :: below, l'⟩ :=
      hm.reached hh hr.top (by rw [ha]; rfl)
    have hserved : Recorded s entry held ⟨a' :: below, k⟩ :=
      ⟨hk ▸ (hreached.get hg).ledger.keep hreached.ledger.findings fun _ he => he,
        hreached.activations⟩
    have hsummary := hreached.ledger.cache _ (Cache.mem_of_get_some (congrArg Prod.fst hg))
    exact hserved.answer (hserved.top.applySummary hh hsummary (hr.callee hp ha))
  | @looped a a' below l l' r cache level provisional m ha hg hl ho =>
    have hreached : Recorded s entry held ⟨a' :: below, l'⟩ :=
      hm.reached hh hr.top (by rw [ha]; rfl)
    have hprovisional := provisional_recorded ha hreached (congrArg Prod.fst hg) hl
      (congrArg Prod.fst ho) hb
    have hopened := (hreached.get hg).openLoop level
    have herrands := errands_openLoop level ⟨a' :: below, { l' with cache }⟩
    rw [ho] at hopened herrands
    obtain ⟨_ | ⟨b, rest⟩, k⟩ := m
    · cases herrands
    · have hstack : b.stack = a'.stack := congrArg Errand.stack (List.cons.inj herrands).1
      exact hopened.answer (hopened.top.applyProvisional r (hstack ▸ hprovisional))
  | @entered a a' callee below l l' r cache ha hg hl hs =>
    have hreached : Recorded s entry held ⟨a' :: below, l'⟩ :=
      hm.reached hh hr.top (by rw [ha]; rfl)
    exact (hreached.get hg).enter (Activation.recorded_start hs)
  | @restarted a a' again below l l' loop ha hloop hu hs =>
    have hreached : Recorded s entry held ⟨a' :: below, l'⟩ :=
      hm.reached hh hr.top (by rw [ha]; rfl)
    obtain ⟨-, hbelow⟩ := List.forall_mem_cons.mp hreached.activations
    have hstack : again.stack = a'.stack := (Activation.start_fresh hs).1
    have hagain : Activation.Recorded s entry held again := Activation.recorded_start hs
    refine ⟨recorded_countWalk again hreached.ledger, List.forall_mem_cons.mpr ⟨⟨hagain.heap,
      fun callee hc => ?_, fun e he => absurd he List.not_mem_nil⟩, hbelow⟩⟩
    cases hc
    rw [hstack]
    exact hreached.top.heap.edits a'.context.edits_returnEntity
  | @completed a a' below l l' ha hf =>
    have hreached : Recorded s entry held ⟨a' :: below, l'⟩ :=
      hm.reached hh hr.top (by rw [ha]; rfl)
    exact hreached.complete hh (hr.reached (by rw [ha]; rfl))

end Machine

/-! Runs. -/

namespace Engine

open Machine

variable {e : Engine} {entry : EntryPoint} {s : Setup} {l : Ledger} {m first : Machine}
  {held : CallStack → TargetCall → Prop}

theorem Made.recorded (he : e.Made) (hu : e.used = false) (s : Setup) (entry : SummaryKey)
    (held : CallStack → TargetCall → Prop) : e.ledger.Recorded s entry held := by
  obtain ⟨hf, -, hc⟩ := he.fresh hu
  refine ⟨fun source hs => ?_, fun e he => ?_⟩
  · rw [hf] at hs
    exact absurd hs List.not_mem_nil
  · rw [hc] at he
    exact absurd he List.not_mem_nil

theorem recorded_markInputs {calls : TargetCall → Prop} {c : Context} (required : List String)
    (m : MethodRef) (hc : c.heap.Recorded calls) : (markInputs required c m).Recorded calls := by
  refine Heap.Recorded.foldl (fun h x hh => ?_) _ hc
  obtain ⟨formal, type⟩ := x
  cases formal with
  | none => exact hh
  | some id =>
    simp only
    split
    · exact hh.markInput id
    · exact hh

theorem recorded_boot {entry : SummaryKey} {d : MethodDef} {required : List String}
    (hl : l.Recorded s entry held) (hb : boot s l d required = .ok first) :
    first.Recorded s entry held := by
  obtain ⟨root, hs, hact, hledger⟩ := root_of_boot hb
  have hroot : root.Recorded s entry held := Activation.recorded_start hs
  have hbooted : Recorded s entry held ⟨[root], countWalk root l⟩ :=
    ⟨recorded_countWalk root hl, List.forall_mem_singleton.mpr hroot⟩
  have hmarked : Activation.Recording s entry held
      (root.setHeap (markInputs required root.context d.reference)) (countWalk root l) :=
    ⟨recorded_markInputs required d.reference hroot.heap, hbooted.ledger⟩
  obtain ⟨activations, ledger⟩ := first
  cases hact
  cases hledger
  obtain ⟨⟨context, hshape⟩, -⟩ := Activation.settle_shape
    (root.setHeap (markInputs required root.context d.reference)) (countWalk root l)
  exact hbooted.goOn (hshape.trans rfl) hmarked.settled

theorem Passes.recordable {key : SummaryKey} (hm : e.Passes entry s m)
    (hh : Recordable e.setup key held) : Recordable s key held := by
  obtain ⟨⟩ := hm
  exact ⟨hh.made, hh.moved⟩

/-- All calls that a run has come to hold were recorded for its stacks, if it borrows nothing or it
does not matter for which stack a call is recorded. -/
theorem Passes.recorded (hm : e.Passes entry s m) (he : e.Made) (hp : e.setup.program.Keyed)
    (hh : Recordable e.setup ⟨.concrete, entry.method⟩ held)
    (hb : (∀ s m, e.Passes entry s m → ¬m.Borrows s) ∨
      ∀ stack stack' call, held stack call → held stack' call) :
    m.Recorded s ⟨.concrete, entry.method⟩ held := by
  have hu : e.used = false := by
    obtain ⟨hu, -, -, -⟩ := hm
    exact hu
  refine hm.induct (fun s m => m.Recorded s ⟨.concrete, entry.method⟩ held)
    (fun d first _ hb => recorded_boot (he.recorded hu _ _ _) hb) fun s m m' hm ih hmove => ?_
  exact ih.move (hm.program ▸ hp) (hm.recordable hh) (hm.routed hp)
    (hb.imp_left fun hb => hb s m hm) hmove

end Engine

end SinkTrace
