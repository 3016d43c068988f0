import SinkTrace.Proofs.Engine.CallRoutes
import SinkTrace.Proofs.Interpreter.Faults
import SinkTrace.Proofs.Programs

/-!
Which opcodes an execution is given up for. Every walk on the stack of a run has come from the
beginning of a body that the program stores. So an opcode that is reported is reached by control
in the stored body of the method that is named, and in a normal body it is no short form.
-/

namespace SinkTrace

/-- A walk has been driven from the beginning of a stored body. -/
inductive Work.Underway (p : Program) : Work → Prop where
  | walk {d : MethodDef} {b : Body} {c c' : Context} {first w : Interpreter} {log : List Nat}
    (hd : p.method? d.signature = some d) (hb : d.body = some b)
    (hs : Interpreter.start d.reference b c = .ok (first, c')) (hw : first.Driven log w) :
    Underway p (.walk w)
  | dispatch (remaining : List MethodRef) (mode : GlueMode) :
    Underway p (.dispatch remaining mode)

/-- An opcode that a walk reports lies in the stored body of the method that is named. -/
theorem Work.Underway.unsupported {p : Program} {w last : Interpreter} {c c' : Context}
    {opcode : Opcode} {offset : Offset} {method : Signature} (h : (Work.walk w).Underway p)
    (hf : w.step c = (.failed (.unsupportedOpcode opcode offset method), last, c')) :
    opcode.isSupported = false ∧
      ∃ d b, p.method? method = some d ∧ d.body = some b ∧ b.ReachesOpcode opcode offset := by
  cases h with
  | walk hd hb hs hw =>
    obtain ⟨rfl, hreaches, hu⟩ := Interpreter.unsupported_of_driven hs hw hf
    exact ⟨hu, _, _, hd, hb, hreaches⟩

theorem Program.Assembled.isForeign {p : Program} {signature : Signature} {d : MethodDef}
    {b : Body} {opcode : Opcode} {offset : Offset} (hp : p.Assembled)
    (hd : p.method? signature = some d) (hb : d.body = some b)
    (hr : b.ReachesOpcode opcode offset) (hu : opcode.isSupported = false) :
    opcode.isForeign = true := by
  obtain ⟨i, instruction, -, hcode, rfl, -⟩ := hr
  exact Opcode.isForeign_iff.mpr ⟨hu, Body.isShort_of_getElem? (hp.normal hd hb) hcode⟩

namespace Activation

variable {s : Setup} {key : SummaryKey} {method : MethodRef} {stack : CallStack}
  {target : CallTarget} {statics : Bool} {a : Activation} {failure : Failure}

theorem underway_start (hp : s.program.Keyed) (ho : s.Offers key target)
    (hs : start key method stack target statics = .ok a) : a.work.Underway s.program := by
  cases starts_of_start hs with
  | @walk d body w c hb hw =>
    cases ho with
    | @concrete called _ hd =>
      have hkept : s.program.method? d.signature = some d := by
        rw [hp called d hd]
        exact hd
      exact .walk hkept hb hw .start
  | dispatch methods => exact .dispatch methods .replace

/-- An activation begins unless there is no body, or its handlers do not fit together. -/
theorem start_fails (hs : start key method stack target statics = .error failure) :
    failure.OfPaths ∨ ∃ called, failure = .missingBody called := by
  unfold start at hs
  split at hs
  · split at hs
    · cases hs
      exact .inr ⟨_, rfl⟩
    · rcases bind_error hs with hw | ⟨walk, -, hbegun⟩
      · exact .inl (Interpreter.ofPaths_start hw)
      · cases hbegun
  · cases hs

end Activation

namespace Machine

variable {s : Setup} {p : Program} {entry : SummaryKey} {m m' : Machine} {a : Activation}
  {l l' : Ledger} {below : List Activation} {failure : Failure} {opcode : Opcode}
  {offset : Offset} {method : Signature} {x : Option CallRequest × Activation × Ledger}

/-- The work goes on behind a call. -/
theorem underway_ofCall (h : a.work.Underway p) (ha : advance s a l = .ofCall x) :
    x.2.1.work.Underway p := by
  have hcall : ∀ {b k y}, Activation.Carries s b k y → Outcome.ofCall y = .ofCall x →
      x.2.1.work = b.work := by
    intro b k y hy he
    obtain ⟨c, hc⟩ := hy.activation
    have hreached := congrArg Outcome.reached he
    rw [Outcome.reached_ofCall, Outcome.reached_ofCall, Option.some.injEq] at hreached
    rw [← hreached, hc]
  generalize hx : Outcome.ofCall x = o at ha
  cases comes_of_advance ha with
  | failed => exact absurd hx (Outcome.ofCall_ne_failed x)
  | rests => exact absurd hx (Outcome.ofCall_ne_ends x)
  | implementation _ ho =>
    rw [hcall (Activation.carries_dispatchConcrete _ _ _ _) (ho.trans hx.symm)]
    exact .dispatch _ _
  | call hw hs ho =>
    rw [hcall (Activation.carries_dispatch _ _ _) (ho.trans hx.symm)]
    rw [hw] at h
    cases h with
    | walk hd hb hstart hdriven => exact .walk hd hb hstart (hdriven.call hs)

/-- All that is under way on the stack. -/
def Underway (p : Program) (m : Machine) : Prop := ∀ o ∈ m.errands, o.work.Underway p

theorem Underway.congr (hm : m.Underway p) (he : m'.errands = m.errands) : m'.Underway p := by
  intro o ho
  exact hm o (he ▸ ho)

theorem underway_cons : Underway p ⟨a :: below, l⟩ ↔
    a.work.Underway p ∧ Underway p ⟨below, l⟩ := List.forall_mem_cons

/-- The call that waits does not matter. -/
theorem Underway.resume (hm : m.Underway p)
    (he : m'.errands = m.errands.modifyHead Errand.free) : m'.Underway p := by
  intro o ho
  rw [he] at ho
  cases hos : m.errands with
  | nil =>
    rw [hos] at ho
    exact absurd ho List.not_mem_nil
  | cons first rest =>
    rw [hos] at ho
    rcases List.mem_cons.mp ho with rfl | ho
    · exact hm first (hos ▸ List.mem_cons_self)
    · exact hm o (hos ▸ List.mem_cons_of_mem _ ho)

/-- Every move keeps what is under way, and begins what the program stores. -/
theorem Underway.move (hp : s.program.Keyed) (hroutes : m.Routed s entry)
    (hm : m.Underway s.program) (hmove : Move s m m') : m'.Underway s.program := by
  have htop : ∀ {a a' : Activation} {below : List Activation} {l l' : Ledger}
      {r : Option CallRequest}, Underway s.program ⟨a :: below, l⟩ →
      advance s a l = .ofCall (r, a', l') → Underway s.program ⟨a' :: below, l'⟩ := by
    intro a a' below l l' r hm ha
    obtain ⟨hfirst, hrest⟩ := underway_cons.mp hm
    exact underway_cons.mpr ⟨underway_ofCall hfirst ha, hrest.congr rfl⟩
  cases hmove with
  | @answered a a' below l l' ha =>
    have hnext : Underway s.program ⟨a' :: below, l'⟩ := htop (r := none) hm ha
    exact hnext.congr rfl
  | @served a a' below l l' k r summary cache ha hg hk =>
    have hnext : Underway s.program ⟨a' :: below, l'⟩ := htop (r := some r) hm ha
    exact hnext.congr
      (congrArg (· :: below.map Activation.errand) (errand_answer a' k r summary false))
  | @looped a a' below l l' r cache level provisional m ha hg hl ho =>
    have hnext : Underway s.program ⟨a' :: below, l'⟩ := htop (r := some r) hm ha
    have hopen := errands_openLoop level ⟨a' :: below, { l' with cache }⟩
    have hanswer : (m.onTop fun a l => answer a l r provisional true).errands = m.errands :=
      map_onTop (fun a l => errand_answer a l r provisional true) m
    rw [ho] at hopen
    exact hnext.congr (hanswer.trans hopen)
  | @entered a a' callee below l l' r cache ha hg hl hs =>
    have hnext : Underway s.program ⟨a' :: below, l'⟩ := htop (r := some r) hm ha
    have hcallee := Activation.underway_start hp (offers_of_asks ha) hs
    obtain ⟨hcaller, hrest⟩ := underway_cons.mp hnext
    exact underway_cons.mpr ⟨hcallee, underway_cons.mpr ⟨hcaller, hrest.congr rfl⟩⟩
  | @restarted a a' again below l l' loop ha hr hu hs =>
    have hreached : Routed s entry ⟨a' :: below, l'⟩ := hroutes.reached (by rw [ha]; rfl)
    have hagain := Activation.underway_start hp hreached.top.offered hs
    exact underway_cons.mpr ⟨hagain, (underway_cons.mp hm).2.congr rfl⟩
  | @completed a a' below l l' ha hf =>
    refine (underway_cons.mp hm).2.resume ?_
    rw [errands_resume, errands_file]
    rfl

/-- A step reports an opcode only for the walk on top. -/
theorem unsupported_of_step
    (h : step s m = .failed (.unsupportedOpcode opcode offset method) l) :
    ∃ a ∈ m.activations, ∃ w last c, a.work = .walk w ∧
      w.step a.context = (.failed (.unsupportedOpcode opcode offset method), last, c) := by
  have hstart : ∀ {key method' stack target statics}, Activation.start key method' stack target
      statics ≠ .error (.unsupportedOpcode opcode offset method) := by
    intro key method' stack target statics hs
    obtain hpaths | ⟨called, hbody⟩ := Activation.start_fails hs
    · exact Failure.not_ofPaths _ _ _ hpaths
    · cases hbody
  cases turns_of_step h with
  | failed hf =>
    cases hf with
    | walk hw hs => exact ⟨_, List.mem_cons_self, _, _, _, hw, hs⟩
    | entered _ hs | restarted _ hs => exact absurd hs hstart

theorem exists_of_run_fails {fuel : Nat} (h : m.run s fuel = (.error failure, l)) :
    ∃ last, Reaches s m last ∧ step s last = .failed failure l := by
  induction fuel generalizing m with
  | zero => cases h
  | succ fuel ih =>
    unfold run at h
    cases hs : step s m with
    | running next =>
      rw [hs] at h
      obtain ⟨last, hr, hlast⟩ := ih h
      exact ⟨last, .head hs hr, hlast⟩
    | finished l' =>
      rw [hs] at h
      cases h
    | failed failure' l' =>
      rw [hs] at h
      cases h
      exact ⟨m, .refl, hs⟩

end Machine

namespace Engine

open Machine

variable {e e' : Engine} {entry : EntryPoint} {s : Setup} {m : Machine} {failure : Failure}

theorem underway_boot {l : Ledger} {d : MethodDef} {required : List String} {first : Machine}
    (hp : s.program.Keyed) (hd : s.program.method? d.signature = some d)
    (hb : boot s l d required = .ok first) : first.Underway s.program := by
  obtain ⟨root, hs, hact, -⟩ := root_of_boot hb
  have hroot := Activation.underway_start hp (.concrete hd) hs
  intro o ho
  have herrands : first.errands = [root.errand] := by
    rw [Machine.errands, hact]
    rfl
  rw [herrands] at ho
  exact List.mem_singleton.mp ho ▸ hroot

/-- All walks on the stacks of a run have come from the beginning of stored bodies. -/
theorem Passes.underway (hm : e.Passes entry s m) (hp : e.setup.program.Keyed) :
    m.Underway e.setup.program := by
  refine hm.induct (fun s m => m.Underway e.setup.program) (fun d first hd hb => ?_)
    fun s m m' hm ih hmove => ?_
  · have hmethod : e.setup.program.method? entry.method = some d :=
      (Option.filter_eq_some_iff.mp hd).1
    rw [← hp entry.method d hmethod] at hmethod
    exact underway_boot (s := e.runSetup d) hp hmethod hb
  · rw [← hm.program] at hp ih ⊢
    exact ih.move hp (hm.routed (hm.program ▸ hp)) hmove

theorem start_of_boot_fails {l : Ledger} {d : MethodDef} {required : List String}
    (hb : boot s l d required = .error failure) :
    Activation.start ⟨.concrete, d.signature⟩ d.reference
      (CallStack.empty.push ⟨.concrete, d.signature⟩) (.method d) s.config.enableStaticFields =
        .error failure := by
  unfold boot at hb
  rcases bind_error hb with hs | ⟨root, -, hbooted⟩
  · exact hs
  · cases hbooted

/-- An execution fails before it begins, when it begins, because the ids run out, or at a step of
its run. -/
theorem fails_of_execute (hx : e.execute entry = (.error failure, e')) :
    failure = .engineUsed ∨ failure = .missingBody entry.method ∨ failure = .overflow ∨
    (∃ key method stack target statics,
      Activation.start key method stack target statics = .error failure) ∨
    ∃ s m l, e.Passes entry s m ∧ m.step s = .failed failure l := by
  unfold execute at hx
  split at hx
  · cases hx
    exact .inl rfl
  · rename_i hu
    simp only at hx
    split at hx
    · cases hx
      exact .inr (.inl rfl)
    · rename_i d hd
      split at hx
      · rename_i hb
        cases hx
        exact .inr (.inr (.inr (.inl ⟨_, _, _, _, _, start_of_boot_fails hb⟩)))
      · rename_i first hb
        split at hx
        · rename_i ledger hrun
          cases hx
          rcases fails_of_runToEnd hrun with hspent | hrun
          · exact .inr (.inr (.inl hspent))
          · obtain ⟨last, hr, hlast⟩ := exists_of_run_fails hrun
            exact .inr (.inr (.inr (.inr ⟨_, last, ledger,
              .of (Bool.not_eq_true _ ▸ hu) hd hb hr, hlast⟩)))
        · cases hx

/-- A program that was put together with short forms expanded. An opcode that an execution reports
is none of them, and not one that has a meaning either: control reaches it in the stored body of
the method that is named. And no walk over a stored body comes to its end if control reaches such
an opcode there, whatever a driver does to the context. -/
theorem unsupported_foreign {p : Program} (hp : p.Assembled) :
    (∀ (e e' : Engine) (entry : EntryPoint) (opcode : Opcode) (offset : Offset)
      (method : Signature), e.setup.program = p →
      e.execute entry = (.error (.unsupportedOpcode opcode offset method), e') →
      opcode.isForeign = true ∧
        ∃ d b, p.method? method = some d ∧ d.body = some b ∧ b.ReachesOpcode opcode offset) ∧
    ∀ (signature : Signature) (d : MethodDef) (b : Body) (opcode : Opcode) (offset : Offset),
      p.method? signature = some d → d.body = some b → b.ReachesOpcode opcode offset →
      opcode.isForeign = true →
      ∀ m c c₁ w, Interpreter.start m b c = .ok (w, c₁) →
      ∀ log w', w.Driven log w' → ∀ c₂, (w'.step c₂).1 ≠ .finished := by
  constructor
  · intro e e' entry opcode offset method hprogram hx
    subst hprogram
    obtain hused | hbody | hspent | ⟨key, method', stack, target, statics, hs⟩ |
      ⟨s, m, l, hm, hstep⟩ := fails_of_execute hx
    · cases hused
    · cases hbody
    · cases hspent
    · obtain hpaths | ⟨called, hbody⟩ := Activation.start_fails hs
      · exact absurd hpaths (Failure.not_ofPaths _ _ _)
      · cases hbody
    · obtain ⟨a, ha, w, last, c, hw, hfails⟩ := unsupported_of_step hstep
      have hunderway : a.work.Underway e.setup.program :=
        hm.underway hp.keyed a.errand (List.mem_map_of_mem ha)
      rw [hw] at hunderway
      obtain ⟨hu, d, b, hd, hb, hreaches⟩ := hunderway.unsupported hfails
      exact ⟨hp.isForeign hd hb hreaches hu, d, b, hd, hb, hreaches⟩
  · intro signature d b opcode offset _ _ hreaches hforeign m c c₁ w hs log w' hdriven c₂
    obtain ⟨hu, -⟩ := Opcode.isForeign_iff.mp hforeign
    exact Interpreter.not_finished_of_reachesOpcode hreaches hu hs hdriven

/-! A method that jumps over an instruction, and then to a method that is not named. -/

def reefBody : Body where
  code := #[⟨0, .short .brS, .target 2⟩, ⟨1, .calli, .absent⟩, ⟨2, .jmp, .absent⟩]

def reef : MethodDef where
  reference := { leak with name := "R", result := TypeRef.void }
  assembly := "sea"
  module := "sea.dll"
  body := some reefBody

/-- The method as it is stored. -/
def charted : MethodDef := { reef with body := some reefBody.normalize }

def reefEngine : Engine :=
  ofSettings (Program.addMethod {} reef) leak.signature 16 false false .leastRecent

def reefWalk : Interpreter where
  method := reef.reference
  flow := { body := reefBody.normalize, waiting := #[none, none, none], straightEnd := 1 }

theorem reefEngine_fails : ∃ e', reefEngine.execute ⟨reef.signature, []⟩ =
    (.error (.unsupportedOpcode .jmp 2 reef.signature), e') := by
  have hrun : (match (reefEngine.execute ⟨reef.signature, []⟩).1 with
      | .error failure => some failure
      | .ok _ => none) = some (.unsupportedOpcode .jmp 2 reef.signature) := by decide +kernel
  split at hrun
  · rename_i hfails
    cases hrun
    exact ⟨_, Prod.ext hfails rfl⟩
  · cases hrun

/-- The short form is no obstacle, nor is the opcode that is jumped over. -/
theorem unsupported_foreign_reef :
    (∃ e', reefEngine.execute ⟨reef.signature, []⟩ =
      (.error (.unsupportedOpcode .jmp 2 reef.signature), e')) ∧
    reefEngine.setup.program.method? reef.signature = some charted ∧
    reefBody.normalize.ReachesOpcode .jmp 2 ∧
    Interpreter.start reef.reference reefBody.normalize {} = .ok (reefWalk, {}) ∧
    ∀ c, (reefWalk.step c).1 ≠ .finished := by
  have hp : (Program.addMethod {} reef).Assembled := .method .empty rfl reef
  have hmethod : (Program.addMethod {} reef).method? reef.signature = some charted := by
    decide +kernel
  have hstart : Interpreter.start reef.reference reefBody.normalize {} = .ok (reefWalk, {}) := by
    refine ok_of_toOption ?_
    cbv
  obtain ⟨e', hx⟩ := reefEngine_fails
  obtain ⟨hreported, hinterpreted⟩ := unsupported_foreign hp
  obtain ⟨hforeign, d, b, hd, hb, hreaches⟩ := hreported _ _ _ _ _ _ rfl hx
  cases hmethod.symm.trans hd
  cases hb
  refine ⟨⟨e', hx⟩, hmethod, hreaches, hstart, fun c => ?_⟩
  exact hinterpreted _ _ _ _ _ hmethod rfl hreaches hforeign _ _ _ _ hstart _ _ .start c

end Engine

end SinkTrace
