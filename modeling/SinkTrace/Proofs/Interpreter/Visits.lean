import SinkTrace.Proofs.Interpreter.Drives

/-!
A walk that comes to its end has run exactly the instructions that the control flow graph of its
body reaches. Whatever is still owed, a target or a handler, waits at an index that the cursor has
not passed.
-/

namespace SinkTrace

namespace Interpreter

variable {b : Body} {m : MethodRef} {w w' next : Interpreter} {c c' : Context} {log : List Nat}
  {i j : Nat} {frame : Frame} {ran : Bool}

/-- The instruction was run, or a frame for it is held. -/
def Met (log : List Nat) (w : Interpreter) (i : Nat) : Prop := i ∈ log ∨ ∃ frame, w.Holds i frame

/-- What was run is reachable; what it leads to, what control enters at, and what edges that were
followed lead to, was run or will be. -/
structure Covering (b : Body) (m : MethodRef) (log : List Nat) (w : Interpreter) : Prop extends
    Keeps b m (fun i _ => b.Reaches i) w where
  sound : ∀ i ∈ log, b.Reaches i
  ahead : ∀ {i frame}, w.flow.Waits i frame → w.cursor ≤ i
  first : 0 < b.size → Met log w 0
  handler : ∀ {h o i}, h ∈ b.handlers → o ∈ h.entries → b.indexOf? o = some i → Met log w i
  leads : ∀ {i j}, i ∈ log → b.Leads i j → Met log w j
  taken : ∀ {e}, e ∈ w.flow.taken → Met log w e.2

theorem Met.moves (h : Met log w i) (hm : Moves w ran next) :
    Met (log ++ if ran then [w.cursor] else []) next i := by
  rcases h with hi | ⟨frame, hf⟩
  · exact .inl (List.mem_append_left _ hi)
  · cases hm with
    | skip _ hnone =>
      -- nothing is held at the cursor, so the frame waits elsewhere
      rcases hf with hw | ⟨rfl, hlt, hc⟩
      · have hne : i ≠ w.cursor := fun he => hnone frame (he ▸ .inl hw)
        exact .inr ⟨frame, .inl (ControlFlow.waits_take.mpr ⟨hne, hw⟩)⟩
      · exact absurd (.inr ⟨rfl, hlt, hc⟩) (hnone frame)
    | run hr =>
      by_cases hi : i = w.cursor
      · exact .inl (by simp [hi])
      · exact .inr (hr.keeps hf hi)

theorem Covering.moves (hc : Covering b m log w) (hm : Moves w ran next) :
    Covering b m (log ++ if ran then [w.cursor] else []) next where
  toKeeps := hc.toKeeps.moves (allows_reaches b m) hm
  sound := by
    intro i hi
    rcases List.mem_append.mp hi with hi | hi
    · exact hc.sound i hi
    · cases hm with
      | skip => exact absurd hi List.not_mem_nil
      | run hr =>
        obtain ⟨frame, harrived, _⟩ := hr.arrived
        exact List.mem_singleton.mp hi ▸ hc.held harrived
  ahead := by
    intro i frame hw
    cases hm with
    | skip =>
      obtain ⟨hne, hw⟩ := ControlFlow.waits_take.mp hw
      have hle := hc.ahead hw
      change w.cursor + 1 ≤ i
      omega
    | run hr =>
      rcases hr.ahead hw with ⟨hw, hne⟩ | hle
      · have hle := hc.ahead hw
        rcases hr.cursor with he | ⟨he, _⟩ <;> omega
      · exact hle
  first hb := (hc.first hb).moves hm
  handler hh ho hi := (hc.handler hh ho hi).moves hm
  leads := by
    intro i j hi hl
    rcases List.mem_append.mp hi with hi | hi
    · exact (hc.leads hi hl).moves hm
    · cases hm with
      | skip => exact absurd hi List.not_mem_nil
      | run hr =>
        cases List.mem_singleton.mp hi
        rcases hr.leads (hc.body.symm ▸ hl) with hf | ht
        · exact .inr hf
        · exact (hc.taken ht).moves (.run hr)
  taken := by
    intro e he
    cases hm with
    | skip hin hnone => exact (hc.taken he).moves (.skip hin hnone)
    | run hr =>
      rcases hr.fresh he with he | ⟨_, hf⟩
      · exact (hc.taken he).moves (.run hr)
      · exact .inr hf

theorem invariant_covering (b : Body) (m : MethodRef) : Invariant (Covering b m) where
  size hc := hc.size
  moves hc hm := hc.moves hm

theorem Fresh.covering (hf : Fresh m b w) : Covering b m [] w where
  toKeeps := hf.keeps (allows_reaches b m)
  sound := nofun
  ahead _ := hf.cursor ▸ Nat.zero_le _
  first hb := .inr ⟨[], .inr ⟨hf.cursor.symm, by rwa [hf.cursor, hf.body], hf.current⟩⟩
  handler hh ho hi := (hf.seeded hh ho hi).elim fun frame hw => .inr ⟨frame, .inl hw⟩
  leads := nofun
  taken he := absurd (hf.taken ▸ he) List.not_mem_nil

/-- Behind the last instruction nothing is held. -/
theorem Covering.not_waits (hc : Covering b m log w) (hend : w.flow.body.size ≤ w.cursor)
    (frame : Frame) : ¬ w.flow.Waits i frame := by
  intro hw
  have hlt := ControlFlow.waiting_lt hw
  have hle := hc.ahead hw
  rw [hc.size] at hlt
  omega

theorem Covering.mem_of_met (hc : Covering b m log w) (hend : w.flow.body.size ≤ w.cursor)
    (hi : Met log w i) : i ∈ log := by
  rcases hi with hi | ⟨frame, hw | ⟨_, hlt, _⟩⟩
  · exact hi
  · exact absurd hw (hc.not_waits hend frame)
  · exact absurd hlt (Nat.not_lt.mpr hend)

theorem Covering.complete (hc : Covering b m log w) (hend : w.flow.body.size ≤ w.cursor)
    (hr : b.Reaches i) : i ∈ log := by
  induction hr with
  | first hb => exact hc.mem_of_met hend (hc.first hb)
  | handler hh ho hi => exact hc.mem_of_met hend (hc.handler hh ho hi)
  | leads _ hl ih => exact hc.mem_of_met hend (hc.leads ih hl)

/-- A driver that steps until the walk has finished has run exactly the reachable instructions,
and no frame is left behind. -/
theorem visits_reachable (hs : start m b c = .ok (w, c')) (hd : Driven w log w')
    {last : Interpreter} {c₁ c₂ : Context} (hf : w'.step c₁ = (.finished, last, c₂)) :
    (∀ i, i ∈ log ++ w'.trace c₁ ↔ b.Reaches i) ∧ ∀ i, last.flow.isWaiting i = false := by
  have hI := invariant_covering b m
  obtain ⟨w₁, hc, hend, hflow⟩ :=
    hI.finished (hI.driven (fresh_start hs).covering hd) hf
  refine ⟨fun i => ⟨hc.sound i, hc.complete hend⟩, fun i => ?_⟩
  rw [hflow, Bool.eq_false_iff]
  intro hw
  obtain ⟨frame, hw⟩ := ControlFlow.isWaiting_iff.mp hw
  exact hc.not_waits hend frame hw

/-- Every instruction but the unreachable one is run. -/
theorem spin_visits : start ping spinBody {} = .ok (spin, {}) ∧
    (spinning.step spinContext).1 = .finished ∧
    ((∀ i, i ∈ spin.trace {} ++ spinning.trace spinContext ↔ spinBody.Reaches i) ∧
      ∀ i, (spinning.step spinContext).2.1.flow.isWaiting i = false) ∧
    spin.trace {} ++ spinning.trace spinContext = [0, 2, 3, 1, 2, 3, 4, 6] :=
  ⟨start_spin, step_spinning,
    visits_reachable start_spin driven_spin (Prod.ext step_spinning rfl), by decide +kernel⟩

end Interpreter

end SinkTrace
