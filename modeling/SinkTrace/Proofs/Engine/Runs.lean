import SinkTrace.Proofs.Engine.Machine
import SinkTrace.Proofs.Engine.Moves

/-!
Settling in the runs of an engine: the states in which a run settles an activation, and that
nothing is due afterwards.
-/

namespace SinkTrace

namespace Machine

/-- Answering a request settles the caller: with a summary that is at hand, or with the provisional
answer of a callee that is still on the stack. -/
inductive EnterSettles (r : CallRequest) (caller : Activation) (below : List Activation)
    (l : Ledger) : Activation → Ledger → Prop where
  | cached {summary : Summary} {cache : Cache} (hg : l.cache.get r.key = (some summary, cache))
    {k : Ledger}
    (hk : k = { l with cache }.count fun s => { s with cacheHits := s.cacheHits + 1 }) :
    EnterSettles r caller below l (caller.applySummary k r summary false).1
      (caller.applySummary k r summary false).2
  | looped {cache : Cache} {level : Nat} {provisional : Summary} {m : Machine} {top : Activation}
    {rest : List Activation} (hg : l.cache.get r.key = (none, cache))
    (hl : levelOf? r.key (caller :: below) = some level)
    (ho : openLoop level ⟨caller :: below, { l with cache }⟩ = (provisional, m))
    (hm : m.activations = top :: rest) :
    EnterSettles r caller below l (top.applySummary m.ledger r provisional true).1
      (top.applySummary m.ledger r provisional true).2

/-- Going on after a call settles the caller, with or without a request. -/
inductive ProceedSettles (below : List Activation) :
    Option CallRequest × Activation × Ledger → Activation → Ledger → Prop where
  | answered (a : Activation) (l : Ledger) : ProceedSettles below (none, a, l) a l
  | requested {r : CallRequest} {a a' : Activation} {l l' : Ledger}
    (he : EnterSettles r a below l a' l') : ProceedSettles below (some r, a, l) a' l'

/-- A call that waited for a summary settles its activation. -/
inductive ResumeSettles (summary : Summary) (m : Machine) : Activation → Ledger → Prop where
  | waiting {a : Activation} {rest : List Activation} {r : CallRequest}
    (hm : m.activations = a :: rest) (hw : a.waiting = some r) :
    ResumeSettles summary m ({ a with waiting := none }.applySummary m.ledger r summary false).1
      ({ a with waiting := none }.applySummary m.ledger r summary false).2

/-- An activation that was summarised for good settles the one that waited for it. -/
inductive CompleteSettles (s : Setup) (a : Activation) (below : List Activation) (l : Ledger) :
    Activation → Ledger → Prop where
  | final {summary : Summary} {a' : Activation} {l' : Ledger}
    (hs : summary = .ofFrozen a.context.freeze a.stack) (hr : a.recursion = none)
    (hw : ResumeSettles summary (file [(a.key, summary)] a.dependency ⟨below, l⟩) a' l') :
    CompleteSettles s a below l a' l'
  | stable {summary : Summary} {loop : RecursionLoop Fingerprint} {a' : Activation} {l' : Ledger}
    (hs : summary = .ofFrozen a.context.freeze a.stack) (hr : a.recursion = some loop)
    (he : ¬(!loop.isStable (summary.fingerprint l.findings.resolve)
      && loop.iteration < s.config.maxRecursionIterations.toNat) = true)
    (hw : ResumeSettles summary
      (file (loop.takePending.1 ++ [(a.key, summary)]) a.dependency ⟨below, l⟩) a' l') :
    CompleteSettles s a below l a' l'

/-- An activation that has come to its end is settled, and then the one that waited for it. -/
inductive FinishSettles (s : Setup) (a : Activation) (below : List Activation) (l : Ledger) :
    Activation → Ledger → Prop where
  | itself : FinishSettles s a below l a l
  | caller {a' : Activation} {l' : Ledger}
    (hc : CompleteSettles s (a.settle l).1 below (a.settle l).2 a' l') :
    FinishSettles s a below l a' l'

/-- The states in which a step settles an activation. -/
inductive Settles (s : Setup) : Machine → Activation → Ledger → Prop where
  /-- No implementation is left. -/
  | dispatched {a a' : Activation} {below : List Activation} {l l' : Ledger} {mode : GlueMode}
    (hw : a.work = .dispatch [] mode) (hf : FinishSettles s a below l a' l') :
    Settles s ⟨a :: below, l⟩ a' l'
  /-- The next implementation is called. -/
  | implementation {a a' : Activation} {below : List Activation} {l l' : Ledger}
    {method : MethodRef} {rest : List MethodRef} {mode : GlueMode}
    (hw : a.work = .dispatch (method :: rest) mode)
    (hp : ProceedSettles below (Activation.dispatchConcrete s
      { (a.implementationCall method).2 with work := .dispatch rest .merge } l
      (a.implementationCall method).1 mode) a' l') :
    Settles s ⟨a :: below, l⟩ a' l'
  /-- The walk has come to its end. -/
  | walked {a a' : Activation} {below : List Activation} {l l' : Ledger} {w w' : Interpreter}
    {c : Context} (hw : a.work = .walk w) (hs : w.step a.context = (.finished, w', c))
    (hf : FinishSettles s { a with work := .walk w', context := c } below
      (countInstructions a.context.instructions c l) a' l') :
    Settles s ⟨a :: below, l⟩ a' l'
  /-- The walk has come to a call. -/
  | paused {a : Activation} {below : List Activation} {l : Ledger} {w w' : Interpreter}
    {c : Context} {e : CallEffect} (hw : a.work = .walk w)
    (hs : w.step a.context = (.call e, w', c)) :
    Settles s ⟨a :: below, l⟩ { a with work := .walk w', context := c }
      (countInstructions a.context.instructions c l)
  /-- The call is made. -/
  | called {a a' b : Activation} {below : List Activation} {l l' k : Ledger} {w w' : Interpreter}
    {c : Context} {e : CallEffect} (hw : a.work = .walk w)
    (hs : w.step a.context = (.call e, w', c))
    (hb : { a with work := .walk w', context := c }.settle
      (countInstructions a.context.instructions c l) = (b, k))
    (hp : ProceedSettles below (Activation.dispatch s b k e) a' l') :
    Settles s ⟨a :: below, l⟩ a' l'

variable {s : Setup} {m : Machine} {a a' : Activation} {below : List Activation}
  {l l' k k' : Ledger}

/-! Each of these states is sound, and its ledger goes on from that of the machine. -/

theorem EnterSettles.continues {r : CallRequest} (he : EnterSettles r a below l a' l')
    (ha : a.Sound l.findings) (hb : ∀ b ∈ below, b.Sound l.findings) (hl : l.Sound) :
    Activation.Continues l a' l' := by
  cases he with
  | @cached summary cache hg k hk =>
    subst hk
    obtain ⟨hkept, hv⟩ := hl.get hg
    have hcount := hkept.sound.count (fun s => { s with cacheHits := s.cacheHits + 1 })
      fun _ => rfl
    have happly := Activation.Sound.applySummary (l := Ledger.count { l with cache } _) ha
      hcount.sound r (hv summary rfl) false
    exact .after (hkept.trans hcount) happly
  | @looped cache level provisional m top rest hg _ ho hm =>
    obtain ⟨hkept, -⟩ := hl.get hg
    have hsound : Sound ⟨a :: below, { l with cache }⟩ :=
      ⟨hkept.sound, List.forall_mem_cons.mpr ⟨ha, hb⟩⟩
    obtain ⟨hopen, hv⟩ := hsound.openLoop level
    rw [ho] at hopen hv
    have htop := hopen.activations top (hm ▸ List.mem_cons_self ..)
    exact .after (hkept.trans hopen.ledger) (htop.applySummary hopen.ledger.sound r hv true)

theorem ProceedSettles.continues {x : Option CallRequest × Activation × Ledger}
    (hp : ProceedSettles below x a' l') (hx : Activation.Continues l x.2.1 x.2.2)
    (hb : ∀ b ∈ below, b.Sound l.findings) : Activation.Continues l a' l' := by
  cases hp with
  | answered => exact hx
  | requested he =>
    exact .after hx.ledger (he.continues hx.activation
      (fun b hm => (hb b hm).mono hx.ledger.findings) hx.ledger.sound)

theorem ResumeSettles.continues {summary : Summary} (hr : ResumeSettles summary m a l)
    (hm : m.Sound) (hv : summary.Vouched m.ledger.findings) :
    Activation.Continues m.ledger a l := by
  cases hr with
  | @waiting top rest r hact _ =>
    have htop := hm.activations top (hact ▸ List.mem_cons_self ..)
    have hfree : Activation.Sound m.ledger.findings { top with waiting := none } :=
      ⟨htop.heap, htop.stack, htop.loop⟩
    exact hfree.applySummary hm.ledger r hv false

theorem CompleteSettles.continues (hc : CompleteSettles s a below l a' l')
    (ha : a.Sound l.findings) (hb : ∀ b ∈ below, b.Sound l.findings) (hl : l.Sound) :
    Activation.Continues l a' l' := by
  cases hc with
  | final hs _ hw =>
    have hnone : ∀ entry ∈ ([] : List (SummaryKey × Summary)), entry.2.Vouched l.findings :=
      fun _ hm => absurd hm List.not_mem_nil
    obtain ⟨hfile, hv⟩ := sound_filed ha hb hl hnone hs rfl
    exact .after hfile.ledger (hw.continues hfile.sound hv)
  | stable hs hr _ hw =>
    obtain ⟨hfile, hv⟩ := sound_filed ha hb hl (ha.loop _ hr).pending hs rfl
    exact .after hfile.ledger (hw.continues hfile.sound hv)

theorem FinishSettles.continues (hf : FinishSettles s a below l a' l') (ha : a.Sound l.findings)
    (hb : ∀ b ∈ below, b.Sound l.findings) (hl : l.Sound) : Activation.Continues l a' l' := by
  cases hf with
  | itself => exact ⟨.refl hl, ha⟩
  | caller hc =>
    have hsettle := ha.settle hl
    exact .after hsettle.ledger (hc.continues hsettle.activation
      (fun b hm => (hb b hm).mono hsettle.ledger.findings) hsettle.ledger.sound)

theorem Settles.continues (hs : Settles s m a l) (hm : m.Sound) :
    Activation.Continues m.ledger a l := by
  obtain ⟨hl, hall⟩ := hm
  cases hs with
  | dispatched _ hf =>
    obtain ⟨ha, hb⟩ := List.forall_mem_cons.mp hall
    exact hf.continues ha hb hl
  | @implementation a _ below l _ method rest mode _ hp =>
    obtain ⟨ha, hb⟩ := List.forall_mem_cons.mp hall
    have hcall := sound_implementationCall ha method (.dispatch rest .merge)
    exact hp.continues (hcall.dispatchConcrete s hl _ mode) hb
  | walked _ hstep hf =>
    obtain ⟨ha, hb⟩ := List.forall_mem_cons.mp hall
    have hwalk := continues_walk ha hl hstep
    exact .after hwalk.ledger (hf.continues hwalk.activation hb hwalk.ledger.sound)
  | paused _ hstep =>
    obtain ⟨ha, -⟩ := List.forall_mem_cons.mp hall
    exact continues_walk ha hl hstep
  | @called a _ b below l _ k w w' c e _ hstep hb' hp =>
    obtain ⟨ha, hb⟩ := List.forall_mem_cons.mp hall
    have hwalk := continues_walk ha hl hstep
    have hsettle := hwalk.activation.settle hwalk.ledger.sound
    rw [hb'] at hsettle
    have hdispatch := hsettle.activation.dispatch s hsettle.ledger.sound e
    exact .after hwalk.ledger (hp.continues (.after hsettle.ledger hdispatch) hb)

end Machine

namespace Engine

/-- How engines come about. -/
inductive Made : Engine → Prop where
  | ofConfig {compile : PatternCompiler} {p : Program} {c : Config} {eviction : Eviction}
    {e : Engine} (h : ofConfig compile p c eviction = .ok e) : Made e
  | ofSettings (p : Program) (sink : Signature) (limit : UInt32) (statics inputMode : Bool)
    (eviction : Eviction) : Made (ofSettings p sink limit statics inputMode eviction)
  | reset {e : Engine} (h : Made e) : Made e.reset
  | execute {e : Engine} (h : Made e) (entry : EntryPoint) : Made (e.execute entry).2

/-- The states in which a run of an engine settles an activation: at the entry point, and in any
step from there on. -/
inductive Settles (e : Engine) (entry : EntryPoint) : Activation → Ledger → Prop where
  | entered {d : MethodDef} {key : SummaryKey} {root : Activation} (hu : e.used = false)
    (hd : entry? e.setup.program entry.method = some d) (hk : key = ⟨.concrete, d.signature⟩)
    (hs : Activation.start key d.reference (CallStack.empty.push key) (.method d)
      (e.runSetup d).config.enableStaticFields = .ok root) :
    Settles e entry (root.setHeap (markInputs entry.required root.context d.reference))
      (Machine.countWalk root e.ledger)
  | stepped {d : MethodDef} {first m : Machine} {a : Activation} {l : Ledger}
    (hu : e.used = false) (hd : entry? e.setup.program entry.method = some d)
    (hb : boot (e.runSetup d) e.ledger d entry.required = .ok first)
    (hr : Relation.ReflTransGen (fun m m' => Machine.step (e.runSetup d) m = .running m') first m)
    (hs : Machine.Settles (e.runSetup d) m a l) : Settles e entry a l

variable {e : Engine}

theorem used_execute (e : Engine) (entry : EntryPoint) : (e.execute entry).2.used = true := by
  unfold execute
  split
  · assumption
  · simp only
    split
    · rfl
    · split
      · rfl
      · split <;> rfl

/-- A run starts with nothing but an empty cache. -/
theorem Made.blank (he : e.Made) (hu : e.used = false) :
    ∃ cache : Cache, cache.entries = [] ∧ e.ledger = { cache } := by
  induction he with
  | ofConfig h =>
    unfold Engine.ofConfig at h
    obtain ⟨_, _, hvalid⟩ := bind_ok h
    obtain ⟨externals, _, hengine⟩ := bind_ok hvalid
    cases hengine
    exact ⟨_, rfl, rfl⟩
  | ofSettings => exact ⟨_, rfl, rfl⟩
  | reset => exact ⟨_, rfl, rfl⟩
  | @execute e _ entry => simp [used_execute] at hu

/-- Nothing is kept from one run to the next. -/
theorem Made.fresh (he : e.Made) (hu : e.used = false) :
    e.ledger.findings = {} ∧ e.ledger.session = {} ∧ e.ledger.cache.entries = [] := by
  obtain ⟨cache, hc, hl⟩ := he.blank hu
  rw [hl]
  exact ⟨rfl, rfl, hc⟩

theorem Made.sound (he : e.Made) (hu : e.used = false) : e.ledger.Sound := by
  obtain ⟨hf, hs, hc⟩ := he.fresh hu
  refine ⟨hf ▸ Findings.orderly_empty, fun hm => ?_, fun entry hm => ?_⟩
  · rw [hs] at hm
    cases hm
  · rw [hc] at hm
    exact absurd hm List.not_mem_nil

theorem tended_markInputs {f : Findings} {c : Context} (required : List String) (m : MethodRef)
    (ht : c.heap.Tended f []) : (markInputs required c m).Tended f [] := by
  refine Heap.Tended.foldl (fun x ht => ?_) _ ht
  obtain ⟨formal, type⟩ := x
  cases formal with
  | none => exact ht
  | some id =>
    simp only
    split
    · exact ht.markInput id
    · exact ht

/-- The entry point, with its inputs marked. -/
theorem continues_root {l : Ledger} (hl : l.Sound) {key : SummaryKey} {d : MethodDef}
    {statics : Bool} {root : Activation}
    (hs : Activation.start key d.reference (CallStack.empty.push key) (.method d) statics =
      .ok root) (required : List String) :
    Activation.Continues l (root.setHeap (markInputs required root.context d.reference))
      (Machine.countWalk root l) := by
  have hcount := Machine.extends_countWalk hl root
  have hroot : root.Sound (Machine.countWalk root l).findings :=
    Activation.sound_start (CallStack.rooted_push .empty key) hs
  exact ⟨hcount, hroot.withContext (tended_markInputs required d.reference hroot.heap)
    (.refl hcount.sound.orderly) rfl rfl⟩

theorem continues_boot {s : Setup} {l : Ledger} (hl : l.Sound) {d : MethodDef}
    {required : List String} {m : Machine} (hb : boot s l d required = .ok m) :
    Machine.Continues l m := by
  obtain ⟨root, hs, hact, hledger⟩ := root_of_boot hb
  have hroot := continues_root hl hs required
  have hsettle := hroot.activation.settle hroot.ledger.sound
  obtain ⟨activations, ledger⟩ := m
  cases hact
  cases hledger
  exact Machine.continues_cons (.after hroot.ledger hsettle)
    fun _ hm => absurd hm List.not_mem_nil

/-- Every machine of a run is sound, and its ledger goes on from that of the first. -/
theorem continues_of_steps {s : Setup} {first m : Machine} {l : Ledger}
    (hf : Machine.Continues l first)
    (hr : Relation.ReflTransGen (fun m m' => Machine.step s m = .running m') first m) :
    Machine.Continues l m := by
  induction hr with
  | refl => exact hf
  | tail _ hstep ih =>
    have hturn := @Machine.Sound.step _ s ih.sound
    rw [hstep] at hturn
    exact .after ih.ledger hturn

theorem Settles.continues {entry : EntryPoint} {a : Activation} {l : Ledger}
    (hs : e.Settles entry a l) (he : e.Made) : Activation.Continues e.ledger a l := by
  cases hs with
  | entered hu _ _ hstart => exact continues_root (he.sound hu) hstart entry.required
  | stepped hu _ hb hr hsettle =>
    have hm := continues_of_steps (continues_boot (he.sound hu) hb) hr
    exact .after hm.ledger (hsettle.continues hm.sound)

theorem Settles.sound {entry : EntryPoint} {a : Activation} {l : Ledger}
    (hs : e.Settles entry a l) (he : e.Made) : a.Sound l.findings ∧ l.Sound :=
  have hc := hs.continues he
  ⟨hc.activation, hc.ledger.sound⟩

/-- In every run each settling comes to an end, and it leaves an empty log and nothing due. -/
theorem settles_done (he : e.Made) {entry : EntryPoint} {a : Activation} {l : Ledger}
    (hs : e.Settles entry a l) :
    (∃ n, (Ledger.pass^[n] (a.context.heap, l)).1.drainTransitions.1 = [] ∧
      Ledger.settle (a.context.heap, l) =
        ((Ledger.pass^[n] (a.context.heap, l)).1.drainTransitions.2,
          (Ledger.pass^[n] (a.context.heap, l)).2)) ∧
    (a.settle l).1.context.heap.transitions = #[] ∧
    ∀ (id : EntityId) (entity : Entity),
      (a.settle l).1.context.heap.nodes[id]? = some (.live entity) →
        entity.Settled (a.settle l).2.findings := by
  obtain ⟨ha, hl⟩ := hs.sound he
  obtain ⟨ht, hlog, -⟩ := hl.settle ha.heap
  refine ⟨Ledger.settle_eq_passes _, hlog, fun id entity hlive => ?_⟩
  rcases ht.due (Heap.live?_eq_some.mpr hlive) with hdone | ⟨t, hm, -⟩ | hm
  · exact hdone
  · rw [hlog] at hm
    exact absurd hm (Array.not_mem_empty t)
  · exact absurd hm List.not_mem_nil

/-- The state in which the call that the topmost walk comes to is answered from the cache. -/
def cachedAnswer? (s : Setup) (m : Machine) : Option (Activation × Ledger) := do
  let (.call e, a, l) ← m.pause? | none
  let (a, l) := a.settle l
  let (some r, a, l) := Activation.dispatch s a l e | none
  let (some summary, cache) := l.cache.get r.key | none
  a.applySummary ({ l with cache }.count fun s => { s with cacheHits := s.cacheHits + 1 }) r
    summary false

theorem settles_of_cachedAnswer? {s : Setup} {m : Machine} {a : Activation} {l : Ledger}
    (h : cachedAnswer? s m = some (a, l)) : Machine.Settles s m a l := by
  obtain ⟨⟨pause, settled, k⟩, hpause, h⟩ := Option.bind_eq_some_iff.mp h
  obtain ⟨top, below, first, w, w', c, rfl, hw, hs, rfl, rfl⟩ := Machine.exists_of_pause? hpause
  cases pause with
  | finished => cases h
  | failed => cases h
  | call e =>
    simp only at h
    split at h
    · rename_i r b k hdispatch
      split at h
      · rename_i summary cache hcache
        have hanswer := Option.some.inj h
        obtain rfl := congrArg Prod.fst hanswer
        obtain rfl := congrArg Prod.snd hanswer
        exact .called hw hs rfl (hdispatch ▸ .requested (.cached hcache rfl))
      · cases h
    · cases h

/-! A run with a source and triggers. The source is found two calls below the entry point, its value
is handed on to a method of which no more is known, and both happen once more from summaries. -/

def cargo : TypeRef := ⟨"Cargo", false⟩

/-- The sink. -/
def leak : MethodRef where
  declaring := cargo
  name := "Leak"
  parameters := []
  result := cargo
  hasThis := false

/-- A method of which no more is known. -/
def drift : MethodRef := { leak with name := "Drift", parameters := [cargo] }

def deck (m : MethodRef) (code : Array Instruction) : MethodDef where
  reference := m
  assembly := "sea"
  module := "sea.dll"
  body := some { code }

/-- Returns what the sink does. -/
def spring : MethodDef :=
  deck { leak with name := "Spring" } #[⟨0, .call, .method leak⟩, ⟨1, .ret, .absent⟩]

/-- Hands its argument on. -/
def spill : MethodDef :=
  deck { drift with name := "Spill", result := TypeRef.void } #[⟨0, .ldarg, .arg 0⟩,
    ⟨1, .call, .method drift⟩, ⟨2, .pop, .absent⟩, ⟨3, .ret, .absent⟩]

def ground : MethodDef :=
  deck { leak with name := "Ground", result := TypeRef.void }
    #[⟨0, .call, .method spring.reference⟩, ⟨1, .call, .method spill.reference⟩, ⟨2, .ret, .absent⟩]

def wreck : MethodDef :=
  deck { leak with name := "Wreck", result := TypeRef.void } #[⟨0, .call, .method ground.reference⟩,
    ⟨1, .call, .method spring.reference⟩, ⟨2, .call, .method spill.reference⟩, ⟨3, .ret, .absent⟩]

def wreckEngine : Engine :=
  ofSettings ([spring, spill, ground, wreck].foldl Program.addMethod {}) leak.signature 16 false
    false .leastRecent

def wreckStack : CallStack := .push .empty ⟨.concrete, wreck.signature⟩

/-- The second call of `spill` is answered from the cache. Its argument is from the sink by then, so
the call of the unknown method is a trigger once more, and what that method returned is input. -/
theorem wreckEngine_settles_done :
    ∃ a l, wreckEngine.Made ∧ wreckEngine.Settles ⟨wreck.signature, []⟩ a l ∧
      l.findings.triggers.length = 1 ∧ a.context.heap.taint 1 = 0 ∧
      (a.settle l).2.findings.triggers.length = 2 ∧
      (a.settle l).1.context.heap.taint 1 = TaintId.input ∧
      (a.settle l).1.context.heap.transitions = #[] ∧
      ∀ (id : EntityId) (entity : Entity),
        (a.settle l).1.context.heap.nodes[id]? = some (.live entity) →
          entity.Settled (a.settle l).2.findings := by
  have hrun : (do
      let m ← wreckEngine.machineAt? ⟨wreck.signature, []⟩ 9
      let (a, l) ← cachedAnswer? (wreckEngine.runSetup wreck) m
      some (l.findings.triggers.length, a.context.heap.taint 1,
        (a.settle l).2.findings.triggers.length, (a.settle l).1.context.heap.taint 1)) =
      some (1, 0, 2, TaintId.input) := by decide +kernel
  have hentry : entry? wreckEngine.setup.program wreck.signature = some wreck := by decide +kernel
  obtain ⟨m, hm, hrun⟩ := Option.bind_eq_some_iff.mp hrun
  obtain ⟨⟨a, l⟩, hanswer, hrun⟩ := Option.bind_eq_some_iff.mp hrun
  obtain ⟨d, first, hd, hb, hr⟩ := reaches_of_machineAt? hm
  cases hentry.symm.trans hd
  simp only [Option.some.injEq, Prod.mk.injEq] at hrun
  obtain ⟨hbefore, htaint, hafter, hinput⟩ := hrun
  have hmade : wreckEngine.Made := .ofSettings ..
  have hsettles : wreckEngine.Settles ⟨wreck.signature, []⟩ a l :=
    .stepped rfl hd hb hr (settles_of_cachedAnswer? hanswer)
  exact ⟨a, l, hmade, hsettles, hbefore, htaint, hafter, hinput, (settles_done hmade hsettles).2⟩

end Engine

end SinkTrace
