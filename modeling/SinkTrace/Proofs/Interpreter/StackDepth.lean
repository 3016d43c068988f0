import SinkTrace.Proofs.Interpreter.Drives

/-!
A body whose instructions agree on the depth of the stack is never given up for its depth: frames
that meet at an instruction have the depth that is assigned to it.
-/

namespace SinkTrace

/-- The depth assigned to each instruction that control reaches: the one with which control enters,
enough for what the instruction takes, and kept along every edge. An instruction that has no meaning
asks for nothing. -/
structure Body.Balanced (b : Body) (m : MethodRef) (depth : Nat → Nat) : Prop where
  first : 0 < b.size → depth 0 = 0
  handler : ∀ {h o i}, h ∈ b.handlers → o ∈ h.entries → b.indexOf? o = some i →
    depth i = h.kind.entryDepth
  enough : ∀ {i instruction}, b.Reaches i → b.code[i]? = some instruction →
    instruction.pops m ≤ depth i
  leads : ∀ {i j instruction}, b.Reaches i → b.code[i]? = some instruction →
    instruction.opcode.isSupported = true → b.Leads i j →
    depth j = instruction.depthAfter m (depth i)

namespace Interpreter

variable {b : Body} {m : MethodRef} {depth : Nat → Nat} {w next : Interpreter} {c c' : Context}
  {failure : Failure}

theorem allows_balanced (hb : b.Balanced m depth) :
    Allows b m fun i d => b.Reaches i ∧ d = depth i where
  first h := ⟨.first h, (hb.first h).symm⟩
  handler hh ho hi := ⟨.handler hh ho hi, (hb.handler hh ho hi).symm⟩
  leads := by
    rintro i j d instruction ⟨hr, rfl⟩ hi happ hl
    exact ⟨.leads hr hl, (hb.leads hr hi happ.supported hl).symm⟩

theorem invariant_keeps {R : Nat → Nat → Prop} (ha : Allows b m R) :
    Invariant fun _ w => Keeps b m R w where
  size hk := hk.size
  moves hk hm := hk.moves ha hm

/-- Frames of the assigned depths fit, and are large enough. -/
theorem not_ofDepth_tick (hb : b.Balanced m depth)
    (hk : Keeps b m (fun i d => b.Reaches i ∧ d = depth i) w)
    (h : w.tick c = .failed failure next c') : ¬ failure.OfDepth := by
  intro hf
  obtain ⟨i, frame, hi, hheld, hfault⟩ := failed_of_tick hk.size hf h
  obtain ⟨hr, hd⟩ := hk.held hheld
  rw [hk.body] at hi hfault
  rw [hk.method, hd] at hfault
  rcases hfault with ⟨other, ho, hne⟩ | hlt | ⟨happ, j, other, hl, ho, hne⟩
  · exact hne (hk.held ho).2
  · exact absurd (hb.enough hr hi) (Nat.not_le.mpr hlt)
  · exact hne ((hk.held ho).2.trans (hb.leads hr hi happ.supported hl))

/-- A body with an assignment of depths is never given up for the depth of the stack: neither when
a walk begins nor at any step of it, whatever a driver does in between. -/
theorem balanced_walks (hb : ∃ depth, b.Balanced m depth) :
    (∀ c failure, start m b c = .error failure → ¬ failure.OfDepth) ∧
    ∀ c c₁ w, start m b c = .ok (w, c₁) → ∀ log w', Driven w log w' →
      ∀ c₂ failure last c₃, w'.step c₂ = (.failed failure, last, c₃) → ¬ failure.OfDepth := by
  obtain ⟨depth, hb⟩ := hb
  constructor
  · intro c failure h hf
    obtain ⟨h₁, hh₁, o₁, ho₁, h₂, hh₂, o₂, ho₂, i, hi₁, hi₂, hne⟩ := start_fails hf h
    exact hne ((hb.handler hh₁ ho₁ hi₁).symm.trans (hb.handler hh₂ ho₂ hi₂))
  · intro c c₁ w hs log w' hd c₂ failure last c₃ hfail
    have ha := allows_balanced hb
    have hI := invariant_keeps ha
    have hk := hI.driven ((fresh_start hs).keeps ha) hd
    obtain ⟨_, w₁, c₄, hk₁, ht⟩ := hI.failed log hk hfail
    exact not_ofDepth_tick hb hk₁ ht

/-- The only value lies on the stack when the loop is tested. -/
theorem balanced_spinBody : spinBody.Balanced ping fun i => if i = 3 then 1 else 0 where
  first _ := rfl
  handler {h o i} hh ho hi := by
    obtain rfl : h = ⟨.finally, 0, 4, 6, none⟩ := by simpa [spinBody] using hh
    obtain rfl : o = 6 := by simpa [Handler.entries] using ho
    cases hi
    rfl
  enough {i instruction} _ hi := by
    obtain ⟨hlt, rfl⟩ := Array.getElem?_eq_some_iff.mp hi
    have hall : ∀ i : Fin 7, spinBody.code[i].pops ping ≤ if i.val = 3 then 1 else 0 := by decide
    exact hall ⟨i, hlt⟩
  leads {i j instruction} _ hi _ hl := by
    obtain ⟨hlt, rfl⟩ := Array.getElem?_eq_some_iff.mp hi
    cases hl with
    | next hi' hf hn =>
      cases hi.symm.trans hi'
      have hall : ∀ i : Fin 7, spinBody.code[i].fallsThrough = true →
          (if i.val + 1 = 3 then 1 else 0) =
            spinBody.code[i].depthAfter ping (if i.val = 3 then 1 else 0) := by decide
      exact hall ⟨i, hlt⟩ hf
    | jump hi' ho hj =>
      cases hi.symm.trans hi'
      have hall : ∀ i : Fin 7, ∀ o ∈ spinBody.code[i].targets, ∀ j ∈ spinBody.indexOf? o,
          (if j = 3 then 1 else 0) =
            spinBody.code[i].depthAfter ping (if i.val = 3 then 1 else 0) := by decide
      exact hall ⟨i, hlt⟩ _ ho j hj

theorem spin_balanced : (∃ depth, spinBody.Balanced ping depth) ∧
    (∀ failure last c, spinning.step spinContext = (.failed failure, last, c) →
      ¬ failure.OfDepth) ∧ spin.trace {} ++ spinning.trace spinContext = [0, 2, 3, 1, 2, 3, 4, 6] :=
  have hb : ∃ depth, spinBody.Balanced ping depth := ⟨_, balanced_spinBody⟩
  ⟨hb, (balanced_walks hb).2 _ _ _ start_spin _ _ driven_spin spinContext, by decide +kernel⟩

end Interpreter

end SinkTrace
