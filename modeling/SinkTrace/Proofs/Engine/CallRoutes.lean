import SinkTrace.Proofs.Engine.Errands
import SinkTrace.Proofs.Paths

/-!
Where the calls of an activation lead. A walk calls what the instructions of its body call, and a
dispatch calls the implementations of the method it is about; so an activation that comes to a call
asks for a frame that its own frame leads to, and every stack is a chain of calls from the entry
point on. Recursion loops change nothing about this.
-/

namespace SinkTrace

namespace Setup

/-- The calls that a frame makes apart from those of the sink. -/
abbrev Makes (s : Setup) : SummaryKey → Signature → Prop := s.program.Makes s.config.sensitiveSink

/-- The frames that these calls lead to. -/
abbrev Links (s : Setup) : SummaryKey → SummaryKey → Prop := s.program.Links s.config.sensitiveSink

variable {s : Setup} {called : Signature} {d : MethodDef} {m : MethodRef}

theorem makes_of_mem_implementationsOf (hp : s.program.Keyed)
    (hd : s.program.method? called = some d) {types : NameSet}
    (hm : m ∈ s.implementationsOf types d called) : s.Makes ⟨.virtual, called⟩ m.signature := by
  rcases mem_implementationsOf.mp hm with ⟨i, hi, -, rfl⟩ | ⟨hbody, -, rfl⟩
  · exact .implementation ⟨i, hi, rfl⟩
  · have hself : d.reference.signature = called := hp called d hd
    rw [hself]
    exact .itself hd hbody

end Setup

/-- All calls that are still to come are calls that the frame makes. -/
inductive Work.Serves (s : Setup) : SummaryKey → Work → Prop where
  | walk {d : MethodDef} {w : Interpreter} (hd : s.program.method? d.signature = some d)
    (hb : d.body = some w.flow.body) : Serves s ⟨.concrete, d.signature⟩ (.walk w)
  | dispatch {called : Signature} {remaining : List MethodRef} {mode : GlueMode}
    (hm : ∀ m ∈ remaining, s.Makes ⟨.virtual, called⟩ m.signature) :
    Serves s ⟨.virtual, called⟩ (.dispatch remaining mode)

theorem Work.Serves.progress {s : Setup} {key : SummaryKey} {work work' : Work}
    (hs : work.Serves s key) (hp : work.Progress work') : work'.Serves s key := by
  cases hs with
  | walk hd hb =>
    cases hp with
    | walked hsame => exact .walk hd (hb.trans (congrArg some hsame.symm))
  | dispatch hm =>
    cases hp with
    | called method rest mode mode' => exact .dispatch (List.forall_mem_cons.mp hm).2
    | done mode => exact .dispatch hm

namespace Activation

variable {s : Setup} {key : SummaryKey} {a : Activation} {l : Ledger} {e : CallEffect}
  {r : CallRequest}

theorem serves_start (hp : s.program.Keyed) {method : MethodRef} {stack : CallStack}
    {target : CallTarget} {statics : Bool} (ho : s.Offers key target)
    (hs : start key method stack target statics = .ok a) : a.work.Serves s key := by
  cases starts_of_start hs with
  | @walk d body w c hb hw =>
    cases ho with
    | @concrete called _ hd =>
      refine .walk ?_ (hb.trans (congrArg some (Interpreter.body_start hw).symm))
      rw [hp called d hd]
      exact hd
  | dispatch methods =>
    cases ho with
    | virtual hd types => exact .dispatch fun m hm => s.makes_of_mem_implementationsOf hp hd hm

theorem key_of_dispatchConcrete (hp : s.program.Keyed) {mode : GlueMode}
    (hr : (dispatchConcrete s a l e mode).1 = some r) : r.key = ⟨.concrete, e.signature⟩ := by
  unfold dispatchConcrete at hr
  split at hr
  · cases hr
  · rename_i d hd
    split at hr
    · cases hr
    · split at hr
      · cases hr
      · cases hr
        rw [hp _ d hd]

theorem key_of_dispatchVirtual {d : MethodDef} (hr : (dispatchVirtual s a l e d).1 = some r) :
    r.key = ⟨.virtual, e.signature⟩ := by
  unfold dispatchVirtual at hr
  simp only at hr
  split at hr
  · cases hr
  · cases hr
    rfl

/-- A call that is made by an instruction and is not answered as one of the sink. -/
theorem makes_of_calls {w : Interpreter} (hs : (Work.walk w).Serves s key)
    (hc : w.flow.body.Calls e.kind e.method) (hn : ¬s.isSink e.signature = true) :
    s.Makes key e.signature := by
  cases hs with
  | walk hd hb => exact .instruction hd hb hc fun heq => hn (beq_iff_eq.mpr heq)

/-- It asks for what the instruction leads to. -/
theorem links_of_dispatch (hp : s.program.Keyed) {w : Interpreter}
    (hs : (Work.walk w).Serves s key) (hc : w.flow.body.Calls e.kind e.method)
    (hr : (dispatch s a l e).1 = some r) : s.Links key r.key := by
  unfold dispatch at hr
  split at hr
  · cases hr
  · rename_i hn
    simp only at hr
    split at hr
    · rename_i target hv
      unfold virtualTarget? at hv
      split at hv
      · rename_i hkind
        obtain ⟨hm, hvirtual⟩ := Option.filter_eq_some_iff.mp hv
        rw [hkind] at hc
        rw [key_of_dispatchVirtual hr]
        cases hs with
        | walk hd hb =>
          exact .virtual hd hb hc hm (by simpa using hvirtual) fun heq => hn (beq_iff_eq.mpr heq)
      · cases hv
    · rw [key_of_dispatchConcrete hp hr]
      exact .concrete (makes_of_calls hs hc hn)

end Activation

/-- What is left to do leads on from the last frame of a chain of calls. -/
structure Errand.Routed (s : Setup) (entry : SummaryKey) (o : Errand) : Prop where
  offered : s.Offers o.key o.target
  serves : o.work.Serves s o.key
  path : o.stack.Chained s.Links entry
  top : o.stack.top? = some o.key
  waiting : ∀ r, o.waiting = some r → s.Links o.key r.key

namespace Errand

variable {s : Setup} {entry : SummaryKey} {o : Errand}

theorem Routed.progress (ho : o.Routed s entry) {work : Work} (hp : o.work.Progress work) :
    Routed s entry { o with work } :=
  ⟨ho.offered, ho.serves.progress hp, ho.path, ho.top, ho.waiting⟩

theorem Routed.waits (ho : o.Routed s entry) {r : CallRequest} (hl : s.Links o.key r.key) :
    Routed s entry { o with waiting := some r } :=
  ⟨ho.offered, ho.serves, ho.path, ho.top, fun _ hr => Option.some.inj hr ▸ hl⟩

theorem Routed.free (ho : o.Routed s entry) : o.free.Routed s entry :=
  ⟨ho.offered, ho.serves, ho.path, ho.top, fun _ hr => nomatch hr⟩

/-- The entry point leads to the frame. -/
theorem Routed.reached (ho : o.Routed s entry) : Relation.ReflTransGen s.Links entry o.key :=
  ho.path.reached _ (CallStack.mem_of_top? ho.top)

/-- The stack of a callee. -/
theorem Routed.push (ho : o.Routed s entry) {key : SummaryKey} (hl : s.Links o.key key) :
    (o.stack.push key).Chained s.Links entry := ho.path.push ho.top hl

theorem routed_start (hp : s.program.Keyed) {key : SummaryKey} {method : MethodRef}
    {stack : CallStack} {target : CallTarget} {statics : Bool} {a : Activation}
    (hs : Activation.start key method stack target statics = .ok a) (ho : s.Offers key target)
    (hpath : stack.Chained s.Links entry) (htop : stack.top? = some key) :
    a.errand.Routed s entry := by
  rw [Machine.errand_start hs]
  exact ⟨ho, Activation.serves_start hp ho hs, hpath, htop, fun _ hr => nomatch hr⟩

end Errand

namespace Machine

variable {s : Setup} {entry : SummaryKey} {a a' : Activation} {l l' : Ledger} {r : CallRequest}
  {m m' : Machine} {below : List Activation}

theorem routed_of_reached (ho : a.errand.Routed s entry)
    (hr : (advance s a l).reached = some (a', l')) : a'.errand.Routed s entry := by
  obtain ⟨work, hp, herrand⟩ := reached_errand hr
  rw [herrand]
  exact ho.progress hp

/-- The callee of a request comes after the frame of the activation. -/
theorem links_of_asks (hp : s.program.Keyed) (ho : a.errand.Routed s entry)
    (ha : advance s a l = .asks r a' l') : s.Links a.key r.key := by
  have hserves : a.work.Serves s a.key := ho.serves
  have hcall : ∀ {x}, Outcome.ofCall x = .asks r a' l' → x.1 = some r :=
    fun hx => congrArg Prod.fst (Outcome.eq_of_ofCall hx)
  cases comes_of_advance ha with
  | implementation hw ho =>
    rw [Activation.key_of_dispatchConcrete hp (hcall ho)]
    rw [hw] at hserves
    generalize a.key = key at hserves
    cases hserves with
    | dispatch hm => exact .concrete (hm _ List.mem_cons_self)
  | call hw hs ho =>
    rw [hw] at hserves
    exact Activation.links_of_dispatch hp hserves (Interpreter.calls_of_step hs) (hcall ho)

/-- Every activation has its place on a chain of calls, and answers the one below it. -/
structure Routed (s : Setup) (entry : SummaryKey) (m : Machine) : Prop where
  errands : ∀ o ∈ m.errands, o.Routed s entry
  linked : m.errands.IsChain Errand.Answers

theorem Routed.congr (hm : m.Routed s entry) (he : m'.errands = m.errands) :
    m'.Routed s entry := ⟨he ▸ hm.errands, he ▸ hm.linked⟩

theorem Routed.top (hm : Routed s entry ⟨a :: below, l⟩) : a.errand.Routed s entry :=
  hm.errands _ List.mem_cons_self

/-- Another activation with the same key on top. -/
theorem Routed.replace (hm : Routed s entry ⟨a :: below, l⟩) (ha : a'.errand.Routed s entry)
    (hk : a'.key = a.key) (ht : a'.target = a.target) (hs : a'.stack = a.stack) :
    Routed s entry ⟨a' :: below, l'⟩ :=
  ⟨List.forall_mem_cons.mpr ⟨ha, (List.forall_mem_cons.mp hm.errands).2⟩,
    Errand.answers_cons hm.linked hk ht hs⟩

theorem Routed.reached (hm : Routed s entry ⟨a :: below, l⟩)
    (hr : (advance s a l).reached = some (a', l')) : Routed s entry ⟨a' :: below, l'⟩ := by
  have hrouted := routed_of_reached hm.top hr
  obtain ⟨⟨context, work, rfl⟩, -⟩ := reached_shape hr
  exact hm.replace hrouted rfl rfl rfl

/-- The stack of the callee that the topmost activation asks for. -/
theorem Routed.callee (hp : s.program.Keyed) (hm : Routed s entry ⟨a :: below, l⟩)
    (ha : advance s a l = .asks r a' l') : (a'.stack.push r.key).Chained s.Links entry := by
  have hlinks := links_of_asks hp hm.top ha
  obtain ⟨⟨context, work, rfl⟩, -⟩ := reached_shape (s := s) (by rw [ha]; rfl)
  exact hm.top.push hlinks

theorem Routed.enter (hm : Routed s entry ⟨a :: below, l⟩) {callee : Activation}
    (hc : callee.errand.Routed s entry) (hl : s.Links a.key r.key) (hk : callee.key = r.key)
    (ht : callee.target = r.target) (hs : callee.stack = a.stack.push callee.key) :
    Routed s entry ⟨callee :: { a with waiting := some r } :: below, l'⟩ := by
  have hwaits := hm.top.waits hl
  refine ⟨?_, .cons_cons ⟨hs, fun request hw => ?_⟩ (Errand.answers_cons hm.linked rfl rfl rfl)⟩
  · refine List.forall_mem_cons.mpr ⟨hc, List.forall_mem_cons.mpr ⟨hwaits, ?_⟩⟩
    exact (List.forall_mem_cons.mp hm.errands).2
  · cases hw
    exact ⟨hk, ht⟩

/-- The activations below the topmost one. -/
theorem Routed.tail (hm : Routed s entry ⟨a :: below, l⟩) : Routed s entry ⟨below, l'⟩ :=
  ⟨(List.forall_mem_cons.mp hm.errands).2, (List.isChain_cons.mp hm.linked).2⟩

/-- The call that waits below the topmost activation is the one that it was begun for. -/
theorem Routed.key_of_waiting (hm : Routed s entry ⟨a :: below, l⟩)
    (he : m.errands = below.map Activation.errand) :
    ∀ b ∈ m.activations.head?, ∀ r, b.waiting = some r → a.key = r.key := by
  obtain ⟨_ | ⟨b, rest⟩, k⟩ := m
  · exact fun _ hb => nomatch hb
  · intro b' hb r hw
    cases hb
    obtain ⟨hfirst, -⟩ := List.isChain_cons.mp hm.linked
    exact ((hfirst b.errand (he ▸ rfl)).call r hw).1

/-- Every activation below is a frame of the stack on top. -/
theorem Routed.key_mem (hm : Routed s entry ⟨a :: below, l⟩) :
    ∀ b ∈ below, b.key ∈ a.stack.toList := by
  induction below generalizing a with
  | nil => exact fun _ hb => absurd hb List.not_mem_nil
  | cons b below ih =>
    have hrest : Routed s entry ⟨b :: below, l⟩ := hm.tail
    have hstack : a.stack = b.stack.push a.key := (List.isChain_cons_cons.mp hm.linked).1.stack
    rw [hstack, CallStack.toList_push]
    refine List.forall_mem_cons.mpr ⟨?_, fun b' hb' => ?_⟩
    · exact List.mem_append_left _ (CallStack.mem_of_top? hrest.top.top)
    · exact List.mem_append_left _ (ih hrest b' hb')

/-- The topmost activation ends, and the one below goes on. -/
theorem Routed.leave (hm : Routed s entry ⟨a :: below, l⟩)
    (he : m'.errands = (below.map Activation.errand).modifyHead Errand.free) :
    m'.Routed s entry := by
  obtain ⟨hbelow, hlinked⟩ : Routed s entry ⟨below, l⟩ := hm.tail
  cases below with
  | nil => exact ⟨he ▸ fun o ho => absurd ho List.not_mem_nil, he ▸ .nil⟩
  | cons b rest =>
    obtain ⟨hb, hrest⟩ := List.forall_mem_cons.mp hbelow
    refine ⟨?_, ?_⟩
    · rw [he]
      exact List.forall_mem_cons.mpr ⟨hb.free, hrest⟩
    · rw [he]
      exact Errand.answers_cons hlinked rfl rfl rfl

/-- Every move keeps the routes. -/
theorem Routed.move (hp : s.program.Keyed) (hm : m.Routed s entry) (hmove : Move s m m') :
    m'.Routed s entry := by
  cases hmove with
  | @answered a a' below l l' ha =>
    have hr : Routed s entry ⟨a' :: below, l'⟩ := hm.reached (by rw [ha]; rfl)
    exact hr.congr rfl
  | @served a a' below l l' k r summary cache ha hg hk =>
    have hr : Routed s entry ⟨a' :: below, l'⟩ := hm.reached (by rw [ha]; rfl)
    exact hr.congr
      (congrArg (· :: below.map Activation.errand) (errand_answer a' k r summary false))
  | @looped a a' below l l' r cache level provisional m ha hg hl ho =>
    have hr : Routed s entry ⟨a' :: below, l'⟩ := hm.reached (by rw [ha]; rfl)
    have hopen := errands_openLoop level ⟨a' :: below, { l' with cache }⟩
    have htop : (m.onTop fun a l => answer a l r provisional true).errands = m.errands :=
      map_onTop (fun a l => errand_answer a l r provisional true) m
    rw [ho] at hopen
    exact hr.congr (htop.trans hopen)
  | @entered a a' callee below l l' r cache ha hg hl hs =>
    have hr : Routed s entry ⟨a' :: below, l'⟩ := hm.reached (by rw [ha]; rfl)
    have hlinks := links_of_asks hp hm.top ha
    have hpath := hm.callee hp ha
    obtain ⟨⟨context, work, rfl⟩, -⟩ := reached_shape (s := s) (by rw [ha]; rfl)
    obtain ⟨hcallee, -⟩ := Activation.start_shape hs
    refine hr.enter ?_ hlinks (by rw [hcallee]) (by rw [hcallee]) (by rw [hcallee])
    exact Errand.routed_start hp hs (offers_of_asks ha) hpath rfl
  | @restarted a a' again below l l' loop ha hr hu hs =>
    have hr : Routed s entry ⟨a' :: below, l'⟩ := hm.reached (by rw [ha]; rfl)
    have htop := hr.top
    obtain ⟨hagain, -⟩ := Activation.start_shape hs
    have hrouted := Errand.routed_start hp hs htop.offered htop.path htop.top
    exact hr.replace hrouted (by rw [hagain]) (by rw [hagain]) (by rw [hagain])
  | @completed a a' below l l' ha hf =>
    have hr : Routed s entry ⟨a' :: below, l'⟩ := hm.reached (by rw [ha]; rfl)
    refine hr.leave ?_
    rw [errands_resume, errands_file]
    rfl

end Machine

namespace Engine

open Machine

variable {e : Engine} {entry : EntryPoint} {d : MethodDef} {s : Setup} {l : Ledger}
  {required : List String} {first m : Machine}

theorem routed_boot (hp : s.program.Keyed) (hd : s.program.method? d.signature = some d)
    (hb : boot s l d required = .ok first) : first.Routed s ⟨.concrete, d.signature⟩ := by
  obtain ⟨root, hs, hact, -⟩ := root_of_boot hb
  have hrouted := Errand.routed_start hp hs (.concrete hd) (CallStack.chained_entry _ _) rfl
  have herrands : first.errands = [root.errand] := by
    rw [Machine.errands, hact]
    rfl
  refine ⟨fun o ho => ?_, ?_⟩
  · rw [herrands] at ho
    exact List.mem_singleton.mp ho ▸ hrouted
  · rw [herrands]
    exact .singleton _

/-- On every stack of a run, calls of the program lead from the entry point to the top. -/
theorem Passes.routed (hm : e.Passes entry s m) (hp : e.setup.program.Keyed) :
    m.Routed s ⟨.concrete, entry.method⟩ := by
  refine hm.induct (fun s m => m.Routed s ⟨.concrete, entry.method⟩)
    (fun d first hd hb => ?_) fun s m m' hm ih hmove => ih.move (hm.program ▸ hp) hmove
  have hmethod : e.setup.program.method? entry.method = some d :=
    (Option.filter_eq_some_iff.mp hd).1
  have hsignature := hp entry.method d hmethod
  rw [← hsignature] at hmethod ⊢
  exact routed_boot hp hmethod hb

end Engine

end SinkTrace
