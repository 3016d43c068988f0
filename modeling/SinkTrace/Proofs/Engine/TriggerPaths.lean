import SinkTrace.Proofs.Engine.RecordedCalls

/-!
The paths of reported triggers. A call is recorded on the stack of the activation that makes it,
which is a path from the entry point to a frame that makes the call, and to use a summary at another
call site is to replace the front of that path by another path to the same frame. Only a borrowed
answer breaks this: it brings in calls that do not start with the stack they are put on, and when
that stack is replaced, the frames that are cut off are not those that were there.
-/

namespace SinkTrace

namespace Program

/-- Calls lead from the entry point to the frame. -/
abbrev Reaches (p : Program) (sink : Signature) : SummaryKey → SummaryKey → Prop :=
  Relation.ReflTransGen (p.Links sink)

/-- No frame comes to itself again. -/
def Acyclic (p : Program) (sink : Signature) : Prop :=
  ∀ key, ¬Relation.TransGen (p.Links sink) key key

/-- It suffices that calls lead from one rank to lower ones. -/
theorem acyclic_of_lt {p : Program} {sink : Signature} (rank : SummaryKey → Nat)
    (hr : ∀ key key', p.Links sink key key' → rank key' < rank key) : p.Acyclic sink := by
  have hlt : ∀ {key key'}, Relation.TransGen (p.Links sink) key key' → rank key' < rank key := by
    intro key key' hk
    induction hk with
    | single hl => exact hr _ _ hl
    | tail _ hl ih => exact (hr _ _ hl).trans ih
  exact fun key hk => Nat.lt_irrefl _ (hlt hk)

/-- Methods rank above those that they call, apart from the sink, and no implementation ranks above
what it implements. -/
def isRanked (p : Program) (sink : Signature) (rank : Signature → Nat) : Bool :=
  p.methods.entries.all (fun (caller, d) => d.body.all fun b => b.code.all fun i =>
    match i.operand with
    | .method m => m.signature == sink || rank m.signature < rank caller
    | _ => true) &&
  p.implementations.entries.all fun (base, known) =>
    known.all fun i => rank i.method.signature ≤ rank base

section Ranked

variable {p : Program} {sink : Signature} {rank : Signature → Nat}

theorem rank_lt_of_calls (h : p.isRanked sink rank = true) {caller : Signature} {d : MethodDef}
    {b : Body} {kind : EffectKind} {m : MethodRef} (hd : p.method? caller = some d)
    (hb : d.body = some b) (hc : b.Calls kind m) (hs : m.signature ≠ sink) :
    rank m.signature < rank caller := by
  obtain ⟨i, hi, -, hoperand⟩ := hc
  have hall := List.all_eq_true.mp (Bool.and_eq_true_iff.mp h).1 _ (Table.mem_of_find hd)
  simp only [hb, Option.all_some] at hall
  have hcalled := Array.all_eq_true_iff_forall_mem.mp hall i hi
  simpa [hoperand, hs] using hcalled

theorem rank_le_of_implements (h : p.isRanked sink rank = true) {base : Signature} {m : MethodRef}
    (hm : p.Implements base m) : rank m.signature ≤ rank base := by
  obtain ⟨i, hi, rfl⟩ := hm
  cases hk : p.implementations.get? base with
  | none => simp [hk] at hi
  | some known =>
    have hall := List.all_eq_true.mp (Bool.and_eq_true_iff.mp h).2 _ (Table.mem_of_find hk)
    rw [hk] at hi
    simpa using List.all_eq_true.mp hall i hi

theorem acyclic_of_isRanked (h : p.isRanked sink rank = true) : p.Acyclic sink := by
  -- A virtual call ranks right above the method itself.
  refine acyclic_of_lt (fun key => 2 * rank key.signature + if key.kind = .virtual then 1 else 0)
    fun key key' hl => ?_
  cases hl with
  | concrete hm =>
    cases hm with
    | instruction hd hb hc hs =>
      have hlt := rank_lt_of_calls h hd hb hc hs
      simp
      omega
    | implementation hm =>
      have hle := rank_le_of_implements h hm
      simp
      omega
    | itself => simp
  | virtual hd hb hc _ _ hs =>
    have hlt := rank_lt_of_calls h hd hb hc hs
    simp
    omega

end Ranked

end Program

namespace TargetCall

variable {p : Program} {sink : Signature} {entry : SummaryKey} {call : TargetCall}

/-- The stack is a path from the entry point to a frame that makes the call. -/
structure Genuine (p : Program) (sink : Signature) (entry : SummaryKey) (call : TargetCall) :
    Prop where
  path : call.stack.Chained (p.Links sink) entry
  caller : ∃ top, call.stack.top? = some top ∧ p.Makes sink top call.signature

/-- The stack starts at the entry point, and the entry point leads to each of its frames and to one
that makes the call. -/
structure Reached (p : Program) (sink : Signature) (entry : SummaryKey) (call : TargetCall) :
    Prop where
  first : call.stack.toList.head? = some entry
  frames : ∀ k ∈ call.stack.toList, p.Reaches sink entry k
  caller : ∃ k, p.Reaches sink entry k ∧ p.Makes sink k call.signature

end TargetCall

namespace CallStack

variable {leads : SummaryKey → SummaryKey → Prop} {entry : SummaryKey} {s base : CallStack}

/-- The frames of a snapshot that was moved are frames of its new front, or those it had. -/
theorem mem_rebase {depth : Nat} {k : SummaryKey} (hk : k ∈ (s.rebase depth base).toList) :
    k ∈ base.toList ∨ k ∈ s.toList := by
  unfold rebase at hk
  split at hk
  · exact .inl hk
  · rw [toList_pushAll, List.mem_append] at hk
    exact hk.imp_right List.mem_of_mem_drop

theorem Chained.head?_rebase (hb : base.Chained leads entry) (s : CallStack) (depth : Nat) :
    (s.rebase depth base).toList.head? = some entry := by
  unfold CallStack.rebase
  split
  · exact hb.first
  · rw [toList_pushAll, List.head?_append, hb.first]
    rfl

end CallStack

section Recordable

variable (s : Setup) (entry : SummaryKey)

/-- Calls stay genuine as long as they start with the stack they are held on. -/
theorem recordable_genuine : Recordable s entry fun stack call =>
    call.Genuine s.program s.config.sensitiveSink entry ∧
      stack.toList <+: call.stack.toList where
  made hpath htop hmakes := ⟨⟨hpath, _, htop, hmakes⟩, List.prefix_rfl⟩
  moved := by
    rintro stack callee key call hcallee htop hbase ⟨⟨hpath, top, hcaller, hmakes⟩, hpre⟩
    obtain ⟨hmoved, hfront, hsame⟩ := hpath.rebase hcallee.counted hpre hbase htop.symm
    refine ⟨⟨hmoved, top, hsame.trans hcaller, hmakes⟩, .trans ?_ hfront⟩
    rw [CallStack.toList_push]
    exact List.prefix_append _ _

/-- What a call is reached by does not depend on where it is held. -/
theorem recordable_reached : Recordable s entry fun _ call =>
    call.Reached s.program s.config.sensitiveSink entry where
  made := by
    intro stack top called hpath htop hmakes
    have htopmost := hpath.reached top (CallStack.mem_of_top? htop)
    exact ⟨hpath.first, hpath.reached, top, htopmost, hmakes⟩
  moved := by
    rintro stack callee key call hcallee htop hbase ⟨hfirst, hframes, hcaller⟩
    refine ⟨hbase.head?_rebase _ _, fun k hk => ?_, hcaller⟩
    exact (CallStack.mem_rebase hk).elim (hbase.reached k) (hframes k)

end Recordable

namespace Machine

variable {s : Setup} {entry : SummaryKey} {m : Machine}

/-- Only a frame that comes to itself again is given a provisional answer. -/
theorem Routed.not_borrows (hp : s.program.Keyed) (hm : m.Routed s entry)
    (ha : s.program.Acyclic s.config.sensitiveSink) : ¬m.Borrows s := by
  rintro ⟨hasks, -, -, hl, -, -⟩
  obtain ⟨head, hhead, hkey⟩ := exists_of_levelOf? hl
  have hframe := hm.key_mem head (mem_of_atLevel? hhead)
  have hdown := hm.top.path.descends hm.top.top _ hframe
  rw [hkey] at hdown
  exact ha _ (.tail' hdown (links_of_asks hp hm.top hasks))

end Machine

namespace Engine

open Machine

variable {e e' : Engine} {entry : EntryPoint} {s : Setup} {m : Machine} {findings : Findings}
  {source : Source} {trigger : Trigger}

theorem Passes.not_borrows (hm : e.Passes entry s m) (hp : e.setup.program.Keyed)
    (ha : e.setup.program.Acyclic e.setup.config.sensitiveSink) : ¬m.Borrows s := by
  refine (hm.routed hp).not_borrows (hm.program ▸ hp) ?_
  rw [hm.program, hm.config]
  exact ha

/-- Every reported trigger is a call that the entry point leads to, on a stack of frames that it
leads to. In a run that borrows nothing, as is every run of a program without recursion, the stack
is a path of calls, and its last frame makes the call. -/
theorem triggers_genuine (he : e.Made) (hp : e.setup.program.Keyed)
    (hx : e.execute entry = (.ok findings, e')) (hs : source ∈ findings.sources)
    (ht : trigger ∈ source.triggers) :
    trigger.Reached e.setup.program e.setup.config.sensitiveSink ⟨.concrete, entry.method⟩ ∧
      ((∀ s m, e.Passes entry s m → ¬m.Borrows s) →
        trigger.Genuine e.setup.program e.setup.config.sensitiveSink
          ⟨.concrete, entry.method⟩) := by
  obtain ⟨s, m, hm, rfl⟩ := passes_of_execute hx
  refine ⟨?_, fun hb => ?_⟩
  · have hreached := hm.recorded he hp (recordable_reached e.setup _) (.inr fun _ _ _ hc => hc)
    obtain ⟨-, hcall⟩ := hreached.ledger.findings source hs trigger ht
    exact hcall
  · have hgenuine := hm.recorded he hp (recordable_genuine e.setup _) (.inl hb)
    obtain ⟨-, hcall, -⟩ := hgenuine.ledger.findings source hs trigger ht
    exact hcall

/-- The sooner a method is listed, the fewer it calls. -/
def wreckRank (signature : Signature) : Nat :=
  [drift.signature, spring.signature, spill.signature, ground.signature].idxOf signature

theorem wreck_acyclic : wreckEngine.setup.program.Acyclic leak.signature := by
  have hranked : wreckEngine.setup.program.isRanked leak.signature wreckRank = true := by
    decide +kernel
  exact Program.acyclic_of_isRanked hranked

/-- Both triggers are genuine: the one whose call was recorded two calls below the entry point, and
the one whose stack was moved when the summary with it answered a call of the entry point. -/
theorem wreckEngine_triggers_genuine : ∃ findings e' source,
    wreckEngine.execute ⟨wreck.signature, []⟩ = (.ok findings, e') ∧
      source ∈ findings.sources ∧
      source.triggers.map TargetCall.stack =
        [(wreckStack.push ⟨.concrete, ground.signature⟩).push ⟨.concrete, spill.signature⟩,
          wreckStack.push ⟨.concrete, spill.signature⟩] ∧
      ∀ trigger ∈ source.triggers, trigger.signature = drift.signature ∧
        trigger.Genuine wreckEngine.setup.program leak.signature
          ⟨.concrete, wreck.signature⟩ := by
  obtain ⟨findings, e', source, hx, -, -, hsources, -, -, htriggers⟩ := wreckEngine_execute
  have hsource : source ∈ findings.sources := hsources ▸ List.mem_singleton_self source
  have hkeyed : wreckEngine.setup.program.Keyed := Program.keyed_empty.addMethods _
  refine ⟨findings, e', source, hx, hsource, by simp [htriggers], fun trigger htrigger => ⟨?_, ?_⟩⟩
  · rw [htriggers] at htrigger
    simp only [List.mem_cons, List.not_mem_nil, or_false] at htrigger
    rcases htrigger with rfl | rfl <;> rfl
  · exact (triggers_genuine (.ofSettings ..) hkeyed hx hsource htrigger).2
      fun s m hm => hm.not_borrows hkeyed wreck_acyclic

end Engine

end SinkTrace
