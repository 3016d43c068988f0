import SinkTrace.Engine.Machine
import SinkTrace.Proofs.Engine.Activations

/-!
Every step keeps all heaps tended: those of the activations, and those of the summaries that are
kept for later calls.
-/

namespace SinkTrace

namespace Cache

variable {c : Cache} {key : SummaryKey} {entry : SummaryKey × Summary}

theorem mem_without (hm : entry ∈ c.without key) : entry ∈ c.entries := (List.mem_filter.mp hm).1

theorem mem_get (hm : entry ∈ (c.get key).2.entries) : entry ∈ c.entries := by
  unfold get at hm
  split at hm
  · rename_i found hf
    rcases List.mem_cons.mp hm with rfl | hm
    · exact List.mem_of_find?_eq_some hf
    · exact mem_without hm
  · exact hm

theorem mem_of_get {cache : Cache} {found : Option Summary} (hg : c.get key = (found, cache))
    (hm : entry ∈ cache.entries) : entry ∈ c.entries := by
  have hcache : (c.get key).2 = cache := congrArg Prod.snd hg
  exact mem_get (hcache ▸ hm)

/-- The summary that is found was kept under the key that is asked for. -/
theorem mem_of_get_some {summary : Summary} (hg : (c.get key).1 = some summary) :
    (key, summary) ∈ c.entries := by
  unfold get at hg
  split at hg
  · rename_i found hf
    have hkey : found.1 = key := by simpa using List.find?_some hf
    cases hg
    exact hkey ▸ List.mem_of_find?_eq_some hf
  · cases hg

theorem mem_put {summary : Summary} (hm : entry ∈ (c.put key summary).entries) :
    entry = (key, summary) ∨ entry ∈ c.entries := by
  rcases List.mem_cons.mp ((c.eviction.sublist _ _).subset hm) with rfl | hm
  · exact .inl rfl
  · exact .inr (mem_without hm)

theorem mem_putAll {entries : List (SummaryKey × Summary)}
    (hm : entry ∈ (entries.foldl (fun c (key, summary) => c.put key summary) c).entries) :
    entry ∈ entries ∨ entry ∈ c.entries := by
  induction entries generalizing c with
  | nil => exact .inr hm
  | cons first entries ih =>
    rcases ih hm with hm | hm
    · exact .inl (List.mem_cons_of_mem _ hm)
    · rcases mem_put hm with rfl | hm
      · exact .inl (List.mem_cons_self ..)
      · exact .inr hm

end Cache

theorem Ledger.Sound.withCache {l : Ledger} (hl : l.Sound) {cache : Cache}
    (hc : ∀ entry ∈ cache.entries, entry.2.Vouched l.findings) : l.Extends { l with cache } :=
  ⟨⟨hl.orderly, hl.session, hc⟩, .refl hl.orderly, [], .revise .refl .refl rfl rfl⟩

/-- Asking for a summary. -/
theorem Ledger.Sound.get {l : Ledger} (hl : l.Sound) {key : SummaryKey} {found : Option Summary}
    {cache : Cache} (hg : l.cache.get key = (found, cache)) :
    l.Extends { l with cache } ∧ ∀ summary, found = some summary → summary.Vouched l.findings := by
  refine ⟨hl.withCache fun entry hm => hl.cache entry (Cache.mem_of_get hg hm), ?_⟩
  intro summary hs
  exact hl.cache _ (Cache.mem_of_get_some ((congrArg Prod.fst hg).trans hs))

namespace Activation

variable {a : Activation} {f : Findings}

theorem Sound.provisional (ha : a.Sound f) : a.provisional.Vouched f := by
  unfold Activation.provisional
  cases hr : a.recursion with
  | none => trivial
  | some loop =>
    cases hp : loop.provisional with
    | none =>
      simp only [Option.bind_some, hp, Option.getD_none]
      trivial
    | some summary =>
      simp only [Option.bind_some, hp, Option.getD_some]
      exact (ha.loop loop hr).provisional summary hp

theorem Sound.dependOn (ha : a.Sound f) (level : Nat) : (a.dependOn level).Sound f :=
  ⟨ha.heap, ha.stack, ha.loop⟩

theorem Sound.extendLoop (ha : a.Sound f) (participants : List SummaryKey) :
    (a.extendLoop participants).Sound f := by
  refine ⟨ha.heap, ha.stack, fun loop hl => ?_⟩
  cases Option.some.inj hl
  cases hr : a.recursion with
  | none => exact ⟨fun _ hs => (nomatch hs), fun _ hm => absurd hm List.not_mem_nil⟩
  | some loop => exact ⟨(ha.loop loop hr).provisional, (ha.loop loop hr).pending⟩

theorem vouched_deferAll {loop : RecursionLoop Fingerprint} (hv : loop.Vouched f)
    {entries : List (SummaryKey × Summary)} (he : ∀ entry ∈ entries, entry.2.Vouched f) :
    (loop.deferAll entries).Vouched f := by
  unfold RecursionLoop.deferAll
  induction entries generalizing loop with
  | nil => exact hv
  | cons entry entries ih =>
    refine ih ⟨hv.provisional, fun e hm => ?_⟩ fun e hm => he e (List.mem_cons_of_mem _ hm)
    rcases List.mem_append.mp hm with hm | hm
    · exact hv.pending e hm
    · exact List.mem_singleton.mp hm ▸ he entry (List.mem_cons_self ..)

theorem Sound.deferAll (ha : a.Sound f) {entries : List (SummaryKey × Summary)}
    (he : ∀ entry ∈ entries, entry.2.Vouched f) :
    Sound f { a with recursion := a.recursion.map (·.deferAll entries) } := by
  refine ⟨ha.heap, ha.stack, fun loop hl => ?_⟩
  obtain ⟨old, hold, rfl⟩ := Option.map_eq_some_iff.mp hl
  exact vouched_deferAll (ha.loop old hold) he

/-- What is left of an activation at its end. -/
theorem Sound.freeze (ha : a.Sound f) :
    (Summary.ofFrozen a.context.freeze a.stack).Vouched f :=
  fun id => (ha.heap.edits a.context.edits_returnEntity).vouched_entity id

end Activation

namespace Machine

variable {m : Machine} {s : Setup} {l l' : Ledger} {below : List Activation} {a a' : Activation}

structure Sound (m : Machine) : Prop where
  ledger : m.ledger.Sound
  activations : ∀ a ∈ m.activations, a.Sound m.ledger.findings

/-- The machine is sound, and its ledger goes on from `l`. -/
structure Continues (l : Ledger) (m : Machine) : Prop where
  ledger : l.Extends m.ledger
  activations : ∀ a ∈ m.activations, a.Sound m.ledger.findings

theorem Continues.sound (hc : Continues l m) : m.Sound := ⟨hc.ledger.sound, hc.activations⟩

theorem Sound.continues (hm : m.Sound) : Continues m.ledger m :=
  ⟨.refl hm.ledger, hm.activations⟩

theorem Continues.after (he : l.Extends l') (hc : Continues l' m) : Continues l m :=
  ⟨he.trans hc.ledger, hc.activations⟩

/-- The topmost activation went on. -/
theorem continues_cons (hc : Activation.Continues l a l')
    (hb : ∀ b ∈ below, b.Sound l.findings) : Continues l ⟨a :: below, l'⟩ := by
  refine ⟨hc.ledger, fun b hm => ?_⟩
  rcases List.mem_cons.mp hm with rfl | hm
  · exact hc.activation
  · exact (hb b hm).mono hc.ledger.findings

theorem forall_modifyLevel {holds : Activation → Prop} {g : Activation → Activation}
    (hg : ∀ {a}, holds a → holds (g a)) {as : List Activation} (has : ∀ a ∈ as, holds a)
    (level : Nat) : ∀ a ∈ modifyLevel level g as, holds a := by
  induction as with
  | nil => exact has
  | cons b bs ih =>
    obtain ⟨hb, hbs⟩ := List.forall_mem_cons.mp has
    unfold modifyLevel
    split
    · exact List.forall_mem_cons.mpr ⟨hg hb, hbs⟩
    · exact List.forall_mem_cons.mpr ⟨hb, ih hbs⟩

theorem forall_dependOn {holds : Activation → Prop} {level : Nat}
    (hd : ∀ {a}, holds a → holds (a.dependOn level)) {as : List Activation}
    (has : ∀ a ∈ as, holds a) : ∀ a ∈ dependOn level as, holds a := by
  induction as with
  | nil => exact has
  | cons b bs ih =>
    obtain ⟨hb, hbs⟩ := List.forall_mem_cons.mp has
    unfold dependOn
    split
    · exact List.forall_mem_cons.mpr ⟨hd hb, ih hbs⟩
    · exact has

theorem mem_of_atLevel? {as : List Activation} {level : Nat} (ha : atLevel? level as = some a) :
    a ∈ as := by
  induction as with
  | nil => cases ha
  | cons b bs ih =>
    unfold atLevel? at ha
    split at ha
    · cases ha
      exact List.mem_cons_self ..
    · exact List.mem_cons_of_mem _ (ih ha)

theorem Sound.openLoop (hm : m.Sound) (level : Nat) :
    Continues m.ledger (openLoop level m).2 ∧
      (openLoop level m).1.Vouched (openLoop level m).2.ledger.findings := by
  unfold Machine.openLoop
  split
  · exact ⟨hm.continues, trivial⟩
  · rename_i head hh
    have hhead := (hm.activations head (mem_of_atLevel? hh)).provisional
    have hall := forall_modifyLevel
      (fun (ha : Activation.Sound m.ledger.findings _) =>
        ha.extendLoop (keysAbove level m.activations))
      (forall_dependOn (fun ha => ha.dependOn level) hm.activations) level
    simp only
    split
    · exact ⟨⟨.refl hm.ledger, hall⟩, hhead⟩
    · have hcount := hm.ledger.count (fun s => { s with recursionLoops := s.recursionLoops + 1 })
        fun _ => rfl
      exact ⟨⟨hcount, hall⟩, hhead⟩

theorem Sound.onTop (hm : m.Sound) {f : Activation → Ledger → Activation × Ledger}
    (hf : ∀ a below, m.activations = a :: below →
      Activation.Continues m.ledger (f a m.ledger).1 (f a m.ledger).2) :
    Continues m.ledger (m.onTop f) := by
  unfold Machine.onTop
  split
  · exact hm.continues
  · rename_i a below hact
    refine continues_cons (hf a below hact) fun b hb => hm.activations b ?_
    exact hact ▸ List.mem_cons_of_mem a hb

theorem Sound.file (hm : m.Sound) {entries : List (SummaryKey × Summary)}
    (he : ∀ entry ∈ entries, entry.2.Vouched m.ledger.findings) (dependency : Option Nat) :
    Continues m.ledger (file entries dependency m) ∧
      (file entries dependency m).ledger.findings = m.ledger.findings := by
  unfold Machine.file
  split
  · have hput : ∀ entry ∈ (entries.foldl (fun c (key, summary) => c.put key summary)
        m.ledger.cache).entries, entry.2.Vouched m.ledger.findings :=
      fun entry hin => (Cache.mem_putAll hin).elim (he entry) (hm.ledger.cache entry)
    exact ⟨⟨hm.ledger.withCache hput, hm.activations⟩, rfl⟩
  · rename_i level _
    have hall := forall_modifyLevel
      (fun (ha : Activation.Sound m.ledger.findings _) => ha.deferAll he) hm.activations level
    have hwaits : Sound ⟨modifyLevel level
        (fun a => { a with recursion := a.recursion.map (·.deferAll entries) }) m.activations,
        m.ledger⟩ := ⟨hm.ledger, hall⟩
    simp only
    split
    · refine ⟨hwaits.onTop fun a below hact => ⟨.refl hm.ledger, ?_⟩, ?_⟩
      · exact (hwaits.activations a (hact ▸ List.mem_cons_self ..)).dependOn level
      · unfold Machine.onTop
        split <;> rfl
    · exact ⟨hwaits.continues, rfl⟩

/-! Answering requests. -/

theorem continues_answer (ha : a.Sound l.findings) (hl : l.Sound) (r : CallRequest)
    {summary : Summary} (hv : summary.Vouched l.findings) (provisional : Bool) :
    Activation.Continues l (answer a l r summary provisional).1
      (answer a l r summary provisional).2 := by
  have happly := ha.applySummary hl r hv provisional
  exact .after happly.ledger (happly.activation.settle happly.ledger.sound)

theorem Sound.resume (hm : m.Sound) {summary : Summary}
    (hv : summary.Vouched m.ledger.findings) : Continues m.ledger (resume summary m) := by
  refine hm.onTop fun a below hact => ?_
  have ha := hm.activations a (hact ▸ List.mem_cons_self ..)
  split
  · exact ⟨.refl hm.ledger, ha⟩
  · rename_i r _
    have hfree : Activation.Sound m.ledger.findings { a with waiting := none } :=
      ⟨ha.heap, ha.stack, ha.loop⟩
    exact continues_answer hfree hm.ledger r hv false

/-! Steps. -/

/-- A machine that goes on is sound, and in any case the ledger goes on from `l`. -/
def TurnSound (l : Ledger) : Turn → Prop
  | .running m => Continues l m
  | .finished l' => l.Extends l'
  | .failed _ l' => l.Extends l'

theorem TurnSound.after {t : Turn} (he : l.Extends l') (ht : TurnSound l' t) : TurnSound l t := by
  cases t with
  | running m => exact Continues.after he ht
  | finished k => exact he.trans ht
  | failed failure k => exact he.trans ht

theorem extends_countWalk (hl : l.Sound) (a : Activation) : l.Extends (countWalk a l) := by
  unfold countWalk
  split
  · exact hl.count _ fun _ => rfl
  · exact .refl hl

theorem sound_push (r : CallRequest) (ha : a.Sound l.findings)
    (hb : ∀ b ∈ below, b.Sound l.findings) (hl : l.Sound) :
    TurnSound l (push s r a below l) := by
  unfold push
  split
  · exact Ledger.Extends.refl hl
  · rename_i callee hs
    have hcount := extends_countWalk hl callee
    have hcallee : callee.Sound (countWalk callee l).findings :=
      Activation.sound_start (CallStack.rooted_push a.stack r.key) hs
    refine continues_cons ⟨hcount, hcallee⟩ (List.forall_mem_cons.mpr ⟨?_, hb⟩)
    exact ⟨ha.heap, ha.stack, ha.loop⟩

theorem sound_enter (r : CallRequest) (ha : a.Sound l.findings)
    (hb : ∀ b ∈ below, b.Sound l.findings) (hl : l.Sound) :
    TurnSound l (enter s r a below l) := by
  unfold enter
  split
  · rename_i summary cache hg
    obtain ⟨hkept, hv⟩ := hl.get hg
    have hcount := hkept.sound.count (fun s => { s with cacheHits := s.cacheHits + 1 })
      fun _ => rfl
    have hanswer := continues_answer (l := Ledger.count { l with cache } _) ha hcount.sound r
      (hv summary rfl) false
    exact continues_cons (.after (hkept.trans hcount) hanswer) hb
  · rename_i cache hg
    obtain ⟨hkept, -⟩ := hl.get hg
    split
    · rename_i level _
      have hsound : Sound ⟨a :: below, { l with cache }⟩ :=
        ⟨hkept.sound, List.forall_mem_cons.mpr ⟨ha, hb⟩⟩
      obtain ⟨hopen, hv⟩ := hsound.openLoop level
      refine Continues.after (hkept.trans hopen.ledger) (hopen.sound.onTop fun a' _ hact => ?_)
      have ha' := hopen.activations a' (hact ▸ List.mem_cons_self ..)
      exact continues_answer ha' hopen.ledger.sound r hv true
    · exact .after hkept (sound_push r ha hb hkept.sound)

theorem sound_restart {loop : RecursionLoop Fingerprint} (hv : loop.Vouched l.findings)
    (ha : a.Sound l.findings) (hb : ∀ b ∈ below, b.Sound l.findings) (hl : l.Sound) :
    TurnSound l (restart s a loop below l) := by
  unfold restart
  split
  · exact Ledger.Extends.refl hl
  · rename_i again hs
    have hcount := extends_countWalk hl again
    have hagain : again.Sound l.findings := Activation.sound_start ha.stack hs
    refine continues_cons ⟨hcount, Activation.Sound.mono ?_ hcount.findings⟩ hb
    exact ⟨hagain.heap, hagain.stack, fun loop' hl' => Option.some.inj hl' ▸ hv⟩

/-- The summary of an activation and those that waited for it are filed. -/
theorem sound_filed (ha : a.Sound l.findings) (hb : ∀ b ∈ below, b.Sound l.findings)
    (hl : l.Sound) {pending : List (SummaryKey × Summary)}
    (hp : ∀ entry ∈ pending, entry.2.Vouched l.findings) {m : Machine} {summary : Summary}
    (hs : summary = .ofFrozen a.context.freeze a.stack)
    (hm : m = file (pending ++ [(a.key, summary)]) a.dependency ⟨below, l⟩) :
    Continues l m ∧ summary.Vouched m.ledger.findings := by
  have hv : summary.Vouched l.findings := hs ▸ ha.freeze
  have hall : ∀ entry ∈ pending ++ [(a.key, summary)], entry.2.Vouched l.findings :=
    fun entry hin => (List.mem_append.mp hin).elim (hp entry)
      fun hin => List.mem_singleton.mp hin ▸ hv
  have hrest : Sound ⟨below, l⟩ := ⟨hl, hb⟩
  obtain ⟨hfile, hsame⟩ := hrest.file hall a.dependency
  rw [← hm] at hfile hsame
  exact ⟨hfile, hsame ▸ hv⟩

theorem sound_complete (ha : a.Sound l.findings) (hb : ∀ b ∈ below, b.Sound l.findings)
    (hl : l.Sound) : TurnSound l (complete s a below l) := by
  unfold complete
  simp only
  split
  · have hnone : ∀ entry ∈ ([] : List (SummaryKey × Summary)), entry.2.Vouched l.findings :=
      fun _ hm => absurd hm List.not_mem_nil
    obtain ⟨hfile, hv⟩ := sound_filed ha hb hl hnone rfl rfl
    exact Continues.after hfile.ledger (hfile.sound.resume hv)
  · rename_i loop hloop
    have hloop := ha.loop loop hloop
    split
    · refine sound_restart ⟨fun summary hs => ?_, fun entry hm => ?_⟩ ha hb hl
      · exact Option.some.inj hs ▸ ha.freeze
      · exact absurd hm List.not_mem_nil
    · obtain ⟨hfile, hv⟩ := sound_filed ha hb hl hloop.pending rfl rfl
      exact Continues.after hfile.ledger (hfile.sound.resume hv)

theorem sound_finish (ha : a.Sound l.findings) (hb : ∀ b ∈ below, b.Sound l.findings)
    (hl : l.Sound) : TurnSound l (finish s a below l) := by
  have hsettle := ha.settle hl
  exact .after hsettle.ledger (sound_complete hsettle.activation
    (fun b hm => (hb b hm).mono hsettle.ledger.findings) hsettle.ledger.sound)

theorem sound_proceed {x : Option CallRequest × Activation × Ledger}
    (hx : Activation.Continues l x.2.1 x.2.2) (hb : ∀ b ∈ below, b.Sound l.findings) :
    TurnSound l (proceed s below x) := by
  obtain ⟨request, a, l'⟩ := x
  cases request with
  | none =>
    have hsettle := hx.activation.settle hx.ledger.sound
    exact continues_cons (.after hx.ledger hsettle) hb
  | some r =>
    exact .after hx.ledger (sound_enter r hx.activation
      (fun b hm => (hb b hm).mono hx.ledger.findings) hx.ledger.sound)

/-- The next implementation of a virtual call is about to be called. -/
theorem sound_implementationCall (ha : a.Sound l.findings) (method : MethodRef) (work : Work) :
    Activation.Sound l.findings { (a.implementationCall method).2 with work } :=
  ⟨ha.heap.edits a.context.edits_returnEntity, ha.stack, ha.loop⟩

/-- The walk went on to its next pause, and its instructions were counted. -/
theorem continues_walk (ha : a.Sound l.findings) (hl : l.Sound) {w w' : Interpreter}
    {pause : Interpreter.Pause} {c : Context} (hs : w.step a.context = (pause, w', c)) :
    Activation.Continues l { a with work := .walk w', context := c }
      (countInstructions a.context.instructions c l) := by
  have hc : (w.step a.context).2.2 = c := congrArg (·.2.2) hs
  have hcount : l.Extends (countInstructions a.context.instructions c l) :=
    hl.count _ fun _ => rfl
  exact ⟨hcount, hc ▸ ha.heap.edits (w.edits_step a.context), ha.stack, ha.loop⟩

theorem Sound.step (hm : m.Sound) : TurnSound m.ledger (step s m) := by
  unfold Machine.step
  split
  · exact Ledger.Extends.refl hm.ledger
  · rename_i a below hact
    obtain ⟨ha, hb⟩ := List.forall_mem_cons.mp (hact ▸ hm.activations)
    split
    · exact sound_finish ha hb hm.ledger
    · rename_i method rest mode _
      have hcall := sound_implementationCall ha method (.dispatch rest .merge)
      exact sound_proceed (hcall.dispatchConcrete s hm.ledger _ mode) hb
    · rename_i w _
      have hwalk := continues_walk ha hm.ledger (w := w) rfl
      have hbelow : ∀ b ∈ below, b.Sound (countInstructions a.context.instructions
          (w.step a.context).2.2 m.ledger).findings := hb
      simp only
      split
      · exact Ledger.Extends.refl hm.ledger
      · exact .after hwalk.ledger (sound_finish hwalk.activation hbelow hwalk.ledger.sound)
      · have hsettle := hwalk.activation.settle hwalk.ledger.sound
        have hdispatch := hsettle.activation.dispatch s hsettle.ledger.sound ‹CallEffect›
        exact .after hwalk.ledger (sound_proceed (.after hsettle.ledger hdispatch) hbelow)

end Machine

end SinkTrace
