import SinkTrace.Proofs.Interpreter.Drives

/-!
A bound on the instructions that a walk runs: each time the walk jumps back it uses up a backward
pair of the control flow graph, and between two jumps it passes every instruction at most once.
-/

namespace SinkTrace

namespace Interpreter

variable {b : Body} {m : MethodRef} {w w' next : Interpreter} {c c' : Context} {log : List Nat}
  {ran : Bool}

/-- Backward pairs that have not been followed. -/
def pairsLeft (w : Interpreter) : Nat := (w.flow.body.backward \ w.flow.taken.toFinset).card

/-- What is left of this pass, and a whole pass for every jump back that can still be made. -/
def budget (w : Interpreter) : Nat := w.pairsLeft * w.flow.body.size + w.codeLeft

theorem unfollowed_subset (hb : next.flow.body = w.flow.body)
    (ht : w.flow.taken ⊆ next.flow.taken) :
    next.flow.body.backward \ next.flow.taken.toFinset ⊆
      w.flow.body.backward \ w.flow.taken.toFinset := by
  rw [hb]
  refine Finset.sdiff_subset_sdiff (Finset.Subset.refl _) fun e he => ?_
  exact List.mem_toFinset.mpr (ht (List.mem_toFinset.mp he))

theorem pairsLeft_le (hb : next.flow.body = w.flow.body)
    (ht : w.flow.taken ⊆ next.flow.taken) : next.pairsLeft ≤ w.pairsLeft :=
  Finset.card_le_card (unfollowed_subset hb ht)

theorem pairsLeft_lt {e : Edge} (hb : next.flow.body = w.flow.body)
    (ht : w.flow.taken ⊆ next.flow.taken) (he : e ∈ w.flow.body.backward)
    (hin : e ∈ next.flow.taken) (hout : e ∉ w.flow.taken) : next.pairsLeft < w.pairsLeft := by
  have hleft : e ∈ w.flow.body.backward \ w.flow.taken.toFinset :=
    Finset.mem_sdiff.mpr ⟨he, fun hm => hout (List.mem_toFinset.mp hm)⟩
  have hgone : e ∉ next.flow.body.backward \ next.flow.taken.toFinset := fun hm =>
    (Finset.mem_sdiff.mp hm).2 (List.mem_toFinset.mpr hin)
  exact Finset.card_lt_card ((Finset.ssubset_iff_of_subset (unfollowed_subset hb ht)).mpr
    ⟨e, hleft, hgone⟩)

theorem Moves.budget_lt (hm : Moves w ran next) : next.budget < w.budget := by
  cases hm with
  | skip hin _ =>
    change w.pairsLeft * w.flow.body.size + (w.flow.body.size - (w.cursor + 1)) <
      w.pairsLeft * w.flow.body.size + (w.flow.body.size - w.cursor)
    omega
  | run hr =>
    have hin : w.cursor < w.flow.body.size := (Array.getElem?_eq_some_iff.mp hr.code).1
    have hle := pairsLeft_le hr.body hr.taken
    unfold budget codeLeft
    rw [hr.body]
    rcases hr.cursor with hc | ⟨_, hpair, htaken, hnew⟩
    · have hmul := Nat.mul_le_mul_right w.flow.body.size hle
      omega
    · have hlt := pairsLeft_lt hr.body hr.taken hpair htaken hnew
      have hmul : (next.pairsLeft + 1) * w.flow.body.size ≤ w.pairsLeft * w.flow.body.size :=
        Nat.mul_le_mul_right _ hlt
      rw [Nat.add_mul, Nat.one_mul] at hmul
      omega

/-- The instructions that were run and the budget that is left are within the bound. -/
structure Within (bound : Nat) (log : List Nat) (w : Interpreter) : Prop where
  size : w.flow.waiting.size = w.flow.body.size
  within : log.length + w.budget ≤ bound

theorem Within.moves {bound : Nat} (h : Within bound log w) (hm : Moves w ran next) :
    Within bound (log ++ if ran then [w.cursor] else []) next where
  size := by
    cases hm with
    | skip => exact (w.flow.size_setWaiting _ _).trans h.size
    | run hr => exact hr.size.trans (h.size.trans (congrArg Body.size hr.body.symm))
  within := by
    have hlt := hm.budget_lt
    have hw := h.within
    rw [List.length_append]
    cases ran <;> simp <;> omega

theorem invariant_within (bound : Nat) : Invariant (Within bound) where
  size h := h.size
  moves h hm := h.moves hm

/-- The bound of a walk that has not begun. -/
theorem Fresh.within (hf : Fresh m b w) : Within (b.size * (1 + b.backward.card)) [] w where
  size := hf.size.trans (congrArg Body.size hf.body.symm)
  within := by
    have hpairs : w.pairsLeft ≤ b.backward.card :=
      hf.body ▸ Finset.card_le_card Finset.sdiff_subset
    have hmul := Nat.mul_le_mul_right b.size hpairs
    unfold budget codeLeft
    rw [hf.body, List.length_nil, Nat.mul_add, Nat.mul_one, Nat.mul_comm b.size]
    omega

theorem Within.length_le {bound : Nat} (h : Within bound log w) (c : Context) :
    (log ++ w.trace c).length ≤ bound := by
  obtain ⟨log', w', c', h', _, heq⟩ := (invariant_within bound).last h (c := c)
  have hw := h'.within
  rw [heq, List.length_append]
  split
  · -- the instruction that the last tick runs lies before the end of the body
    have hlt := lt_size_of_runs ‹_›
    have hpos : 0 < w'.budget := by
      unfold budget codeLeft
      omega
    simp
    omega
  · simp
    omega

/-- Steps that all come to calls, one after another. -/
theorem driven_of_calls {ws : Nat → Interpreter} {cs : Nat → Context} {n : Nat}
    (hnext : ∀ k e next c', (ws k).step (cs k) = (.call e, next, c') → ws (k + 1) = next)
    (hcalls : ∀ k < n, ∃ e, ((ws k).step (cs k)).1 = .call e) :
    ∃ log, Driven (ws 0) log (ws n) ∧ n ≤ log.length := by
  induction n with
  | zero => exact ⟨[], .start, Nat.zero_le _⟩
  | succ n ih =>
    obtain ⟨log, hd, hle⟩ := ih fun k hk => hcalls k (Nat.lt_succ_of_lt hk)
    obtain ⟨e, he⟩ := hcalls n (Nat.lt_succ_self n)
    have hs : (ws n).step (cs n) = (.call e, ((ws n).step (cs n)).2) := Prod.ext he rfl
    refine ⟨log ++ (ws n).trace (cs n), hnext n e _ _ hs ▸ hd.call hs, ?_⟩
    have hpos := List.length_pos_iff.mpr (trace_ne_nil hs)
    rw [List.length_append]
    omega

theorem instructions_branch (w : Interpreter) (c : Context) (offset : Offset)
    (targets : List Offset) (conditional : Bool) (frame : Frame) :
    (w.branch c offset targets conditional frame).context.instructions = c.instructions := by
  generalize h : w.branch c offset targets conditional frame = t
  cases branches_of_branch h <;> rfl

/-- The context counts the instructions that are run. -/
theorem instructions_tick (w : Interpreter) (c : Context) :
    (w.tick c).context.instructions = c.instructions + if w.runs c then 1 else 0 := by
  have hd := does_tick w c
  generalize w.tick c = t at hd ⊢
  generalize w.runs c = ran at hd ⊢
  cases hd with
  | done | torn | skip | full => exact (UInt32.add_zero _).symm
  | fail _ hcount | next _ hcount | stop _ hcount | call _ hcount => exact hcount
  | branch _ hcount => exact (instructions_branch _ _ _ _ _ _).trans hcount

theorem instructions_step (w : Interpreter) (c : Context) :
    (w.step c).2.2.instructions = c.instructions + UInt32.ofNat (w.trace c).length := by
  have hone : ∀ {w : Interpreter} {c : Context}, (w.tick c).context.instructions =
      c.instructions + UInt32.ofNat (if w.runs c then [w.cursor] else []).length := by
    intro w c
    rw [instructions_tick]
    split <;> rfl
  fun_induction step w c with
  | case1 w c next c₁ ht ih =>
    have hfirst := @hone w c
    rw [ht] at hfirst
    rw [ih, trace_more ht, List.length_append, UInt32.ofNat_add, ← UInt32.add_assoc]
    exact congrArg (· + _) hfirst
  | case2 w c effect next c₁ ht =>
    have hfirst := @hone w c
    rw [ht] at hfirst
    rwa [trace_last (by simp [ht])]
  | case3 w c next c₁ ht =>
    have hfirst := @hone w c
    rw [ht] at hfirst
    rwa [trace_last (by simp [ht])]
  | case4 w c failure next c₁ ht =>
    have hfirst := @hone w c
    rw [ht] at hfirst
    rwa [trace_last (by simp [ht])]

/-- A step that fails because the counter is full has counted up to there. -/
theorem full_of_step (h : w.step c = (.failed .overflow, w', c')) (hc : c.instructions = 0)
    (hfull : c'.instructions = largestWord) : largestWord.toNat ≤ (w.trace c).length := by
  have hcount := instructions_step w c
  rw [h, hc, UInt32.zero_add] at hcount
  have hmod : largestWord.toNat = (w.trace c).length % 2 ^ 32 := by
    rw [← hfull, hcount, UInt32.toNat_ofNat']
  exact hmod ▸ Nat.mod_le _ _

/-- Whatever a driver does between the steps, the walk comes to its end or to a failure, and it
runs each instruction at most once, and once more for every backward pair. What a step runs is what
it adds to the count of the context. -/
theorem walk_ends (hs : start m b c = .ok (w, c')) :
    (∀ log w', Driven w log w' → ∀ c,
      (log ++ w'.trace c).length ≤ b.size * (1 + b.backward.card) ∧
      (w'.step c).2.2.instructions = c.instructions + UInt32.ofNat (w'.trace c).length) ∧
    ∀ (ws : Nat → Interpreter) (cs : Nat → Context), ws 0 = w →
      (∀ k e next c', (ws k).step (cs k) = (.call e, next, c') → ws (k + 1) = next) →
      ∃ k ≤ b.size * (1 + b.backward.card), ∀ e, ((ws k).step (cs k)).1 ≠ .call e := by
  have hbound : ∀ log w', Driven w log w' → ∀ c,
      (log ++ w'.trace c).length ≤ b.size * (1 + b.backward.card) := fun log w' hd c =>
    ((invariant_within _).driven (fresh_start hs).within hd).length_le c
  refine ⟨fun log w' hd c => ⟨hbound log w' hd c, instructions_step w' c⟩,
    fun ws cs hzero hnext => ?_⟩
  by_contra hnone
  push Not at hnone
  obtain ⟨log, hd, hlong⟩ := driven_of_calls (n := b.size * (1 + b.backward.card) + 1) hnext
    fun k hk => hnone k (Nat.le_of_lt_succ hk)
  have hle := hbound log _ (hzero ▸ hd) {}
  rw [List.length_append] at hle
  omega

/-- One backward pair among seven instructions. -/
theorem spin_ends : start ping spinBody {} = .ok (spin, {}) ∧
    (spin.trace {} ++ spinning.trace spinContext).length ≤ 14 ∧
    spinBody.size * (1 + spinBody.backward.card) = 14 := by
  have hbound : spinBody.size * (1 + spinBody.backward.card) = 14 := by decide
  exact ⟨start_spin, hbound ▸ ((walk_ends start_spin).1 _ _ driven_spin spinContext).1, hbound⟩

end Interpreter

end SinkTrace
