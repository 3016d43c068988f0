import SinkTrace.Proofs.Engine.Runs
import SinkTrace.Proofs.Engine.Termination

/-!
What an execution consists of: the machine that the entry point is booted into, the machines that
the run goes through, and the last one, on which no activation is left.
-/

namespace SinkTrace

namespace Machine

variable {s : Setup} {first m m' : Machine} {l : Ledger}

/-- A run that ends well gets rid of all activations. -/
theorem Ends.exists_last {result : Except Failure Unit × Ledger} (he : Ends s m result)
    (hok : result = (.ok (), l)) : Reaches s m ⟨[], l⟩ := by
  induction he with
  | finished hs =>
    cases hok
    exact eq_of_finished hs ▸ .refl
  | failed => cases hok
  | running hs _ ih => exact .head hs (ih hok)

/-- Where ids are left at the end, the result is that of the run. -/
theorem run_of_runToEnd {fuel : Nat} (h : m.runToEnd s fuel = (.ok (), l)) :
    m.run s fuel = (.ok (), l) ∧ l.findings.isSpent = false := by
  simp only [runToEnd] at h
  obtain ⟨hresult, rfl⟩ := Prod.mk.inj h
  split at hresult
  · cases hresult
  · rename_i hspent
    exact ⟨Prod.ext hresult rfl, Bool.eq_false_iff.mpr hspent⟩

theorem fails_of_runToEnd {fuel : Nat} {failure : Failure}
    (h : m.runToEnd s fuel = (.error failure, l)) :
    failure = .overflow ∨ m.run s fuel = (.error failure, l) := by
  simp only [runToEnd] at h
  obtain ⟨hresult, rfl⟩ := Prod.mk.inj h
  split at hresult
  · cases hresult
    exact .inl rfl
  · exact .inr (Prod.ext hresult rfl)

end Machine

namespace Engine

open Machine

variable {e e' : Engine} {entry : EntryPoint} {findings : Findings} {d : MethodDef}
  {first : Machine} {ledger : Ledger}

/-- To boot a machine leaves the cache as it was. -/
theorem cache_of_boot {s : Setup} {l : Ledger} {required : List String}
    (hb : boot s l d required = .ok first) : first.ledger.cache = l.cache := by
  obtain ⟨root, -, -, hledger⟩ := root_of_boot hb
  rw [hledger, (Activation.settle_shape _ _).2.cache, (keeps_countWalk root l).cache]

/-- The machines that a run from the entry point goes through, with what the run works with. -/
inductive Passes (e : Engine) (entry : EntryPoint) : Setup → Machine → Prop where
  | of {d : MethodDef} {first m : Machine} (hu : e.used = false)
    (hd : entry? e.setup.program entry.method = some d)
    (hb : boot (e.runSetup d) e.ledger d entry.required = .ok first)
    (hr : Reaches (e.runSetup d) first m) : Passes e entry (e.runSetup d) m

theorem Passes.program {s : Setup} {m : Machine} (hm : e.Passes entry s m) :
    s.program = e.setup.program := by
  obtain ⟨⟩ := hm
  rfl

theorem Passes.config {s : Setup} {m : Machine} (hm : e.Passes entry s m) :
    s.config = e.setup.config := by
  obtain ⟨⟩ := hm
  rfl

/-- What holds of the first machine and is kept by every move holds all along. -/
theorem Passes.induct {s : Setup} {m : Machine} (hm : e.Passes entry s m)
    (holds : Setup → Machine → Prop)
    (hfirst : ∀ d first, entry? e.setup.program entry.method = some d →
      boot (e.runSetup d) e.ledger d entry.required = .ok first → holds (e.runSetup d) first)
    (hmove : ∀ s m m', e.Passes entry s m → holds s m → Move s m m' → holds s m') :
    holds s m := by
  obtain ⟨hu, hd, hb, hr⟩ := hm
  induction hr with
  | refl => exact hfirst _ _ hd hb
  | tail hr hstep ih => exact hmove _ _ _ (.of hu hd hb hr) ih (move_of_step hstep)

theorem Passes.unused {s : Setup} {m : Machine} (hm : e.Passes entry s m) : e.used = false := by
  obtain ⟨hu, -, -, -⟩ := hm
  exact hu

/-- Every machine of a run is sound, and its ledger goes on from the one that the run began with. -/
theorem Passes.continues {s : Setup} {m : Machine} (hm : e.Passes entry s m) (he : e.Made) :
    Machine.Continues e.ledger m := by
  obtain ⟨hu, _, hb, hr⟩ := hm
  exact continues_of_steps (continues_boot (he.sound hu) hb) hr

theorem Passes.sound {s : Setup} {m : Machine} (hm : e.Passes entry s m) (he : e.Made) :
    m.Sound := (hm.continues he).sound

theorem passes_of_machineAt? {n : Nat} {m : Machine} (hu : e.used = false)
    (hd : entry? e.setup.program entry.method = some d) (hm : e.machineAt? entry n = some m) :
    e.Passes entry (e.runSetup d) m := by
  obtain ⟨d', first, hd', hb, hr⟩ := reaches_of_machineAt? hm
  cases hd.symm.trans hd'
  exact .of hu hd hb hr

theorem execute_of_toOption (h : (e.execute entry).1.toOption = some findings) :
    e.execute entry = (.ok findings, (e.execute entry).2) :=
  Prod.ext (ok_of_toOption h) rfl

/-- An execution that succeeds goes through to a machine without activations, and with ids to
spare. -/
theorem exists_last_of_execute (hx : e.execute entry = (.ok findings, e')) :
    ∃ d first ledger, e.used = false ∧ entry? e.setup.program entry.method = some d ∧
      boot (e.runSetup d) e.ledger d entry.required = .ok first ∧
      Reaches (e.runSetup d) first ⟨[], ledger⟩ ∧ ledger.findings = findings ∧
      findings.isSpent = false ∧ e' = ⟨e.runSetup d, { ledger with findings := {} }, true⟩ := by
  unfold execute at hx
  split at hx
  · cases hx
  · rename_i hu
    simp only at hx
    split at hx
    · cases hx
    · rename_i d hd
      split at hx
      · cases hx
      · rename_i first hb
        split at hx
        · cases hx
        · rename_i ledger hrun
          cases hx
          have hunused : e.used = false := Bool.not_eq_true _ ▸ hu
          have hends := ends_of_boot e hd hb
          obtain ⟨hrun, hspent⟩ := run_of_runToEnd hrun
          exact ⟨d, first, ledger, hunused, hd, hb, hends.exists_last hrun, rfl, hspent, rfl⟩

/-- The findings of an execution are those of the last machine of its run. -/
theorem passes_of_execute (hx : e.execute entry = (.ok findings, e')) :
    ∃ s m, e.Passes entry s m ∧ m.ledger.findings = findings := by
  obtain ⟨d, first, ledger, hu, hd, hb, hr, hf, -, -⟩ := exists_last_of_execute hx
  exact ⟨_, _, .of hu hd hb hr, hf⟩

end Engine

/-! The run with a source and triggers. -/

namespace Engine

theorem entry?_wreck : entry? wreckEngine.setup.program wreck.signature = some wreck := by
  decide +kernel

/-- The source is moved once. One of the triggers comes with the summary that was applied first, the
other one with the summary from the cache. -/
theorem wreckEngine_execute : ∃ findings e' source,
    wreckEngine.execute ⟨wreck.signature, []⟩ = (.ok findings, e') ∧
      e'.ledger.statistics.recursionLoops = 0 ∧ findings.redirects = [(2, 3)] ∧
      findings.sources = [source] ∧ source.id = 3 ∧
      source.forward = wreckStack.push ⟨.concrete, spring.signature⟩ ∧
      source.triggers = [
        ⟨drift.signature, (wreckStack.push ⟨.concrete, ground.signature⟩).push
          ⟨.concrete, spill.signature⟩⟩,
        ⟨drift.signature, wreckStack.push ⟨.concrete, spill.signature⟩⟩] := by
  have hrun : (wreckEngine.execute ⟨wreck.signature, []⟩).1.toOption.map (fun findings =>
      (findings.redirects, findings.sources.map fun s => (s.id, s.forward, s.triggers))) =
      some ([(2, 3)], [(3, wreckStack.push ⟨.concrete, spring.signature⟩,
        [⟨drift.signature, (wreckStack.push ⟨.concrete, ground.signature⟩).push
          ⟨.concrete, spill.signature⟩⟩,
        ⟨drift.signature, wreckStack.push ⟨.concrete, spill.signature⟩⟩])]) := by decide +kernel
  have hloops : (wreckEngine.execute ⟨wreck.signature, []⟩).2.ledger.statistics.recursionLoops =
      0 := by decide +kernel
  obtain ⟨findings, hfindings, hrun⟩ := Option.map_eq_some_iff.mp hrun
  obtain ⟨hredirects, hsources⟩ := Prod.mk.inj hrun
  obtain ⟨source, rest, hs, hsource, hrest⟩ := List.map_eq_cons_iff.mp hsources
  cases List.map_eq_nil_iff.mp hrest
  simp only [Prod.mk.injEq] at hsource
  obtain ⟨hid, hforward, htriggers⟩ := hsource
  exact ⟨findings, _, source, execute_of_toOption hfindings, hloops, hredirects, hs, hid, hforward,
    htriggers⟩

end Engine

end SinkTrace
