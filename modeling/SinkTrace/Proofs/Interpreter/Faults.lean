import SinkTrace.Proofs.Interpreter.StackDepth
import SinkTrace.Proofs.Interpreter.Visits

/-!
Which opcodes a walk is given up for. An opcode is reported only for an instruction that control
reaches and that has no meaning, and a walk over a body in which control reaches such an
instruction does not come to its end.
-/

namespace SinkTrace

/-- Paths do not fit together where they meet, or one of them leads nowhere. -/
def Failure.OfPaths (failure : Failure) : Prop :=
  failure.OfDepth ∨ ∃ offset target, failure = .invalidBranchTarget offset target

theorem Failure.not_ofPaths (opcode : Opcode) (offset : Offset) (method : Signature) :
    ¬(unsupportedOpcode opcode offset method).OfPaths := by
  intro h
  rcases h with h | ⟨_, _, h⟩
  · exact h
  · cases h

/-- Opcodes that name no callee or are not defined. -/
def Opcode.isForeign : Opcode → Bool
  | .jmp | .calli | .escape _ | .reserved _ => true
  | _ => false

/-- The opcodes without a meaning are these and the short forms. -/
theorem Opcode.isForeign_iff {opcode : Opcode} :
    opcode.isForeign = true ↔ opcode.isSupported = false ∧ opcode.isShort = false := by
  cases opcode <;> simp [isForeign, isSupported, isShort]

/-- Control reaches an instruction with this opcode at this offset. -/
def Body.ReachesOpcode (b : Body) (opcode : Opcode) (offset : Offset) : Prop :=
  ∃ i instruction, b.Reaches i ∧ b.code[i]? = some instruction ∧
    instruction.opcode = opcode ∧ instruction.offset = offset

/-- An opcode without a meaning is reported, whatever the stack and the context are. -/
theorem execute_unsupported {i : Instruction} (hi : i.opcode.isSupported = false) (m : MethodRef)
    (straight : Bool) (frame : Frame) (c : Context) :
    execute m straight i frame c =
      .error (.unsupportedOpcode i.opcode i.offset m.signature) c := by
  obtain ⟨offset, opcode, operand⟩ := i
  cases opcode with
  | short | jmp | calli | escape | reserved => rfl
  | _ => cases hi

namespace Interpreter

variable {b : Body} {m : MethodRef} {w w' next last : Interpreter} {c c' c₁ c₂ c₃ : Context}
  {failure : Failure} {opcode : Opcode} {offset : Offset} {method : Signature} {log : List Nat}
  {i : Nat} {instruction : Instruction}

/-! What can go wrong besides running an instruction. -/

theorem ofPaths_branch {targets : List Offset} {conditional : Bool} {frame : Frame}
    (h : w.branch c offset targets conditional frame = .failed failure next c') :
    failure.OfPaths := by
  rcases branch_fails_cases h with hdepth | ⟨target, -, htarget⟩
  · exact .inl hdepth
  · exact .inr ⟨offset, target, htarget⟩

theorem ofPaths_start (h : start m b c = .error failure) : failure.OfPaths := by
  obtain ⟨entry, -, state, hseed⟩ := exists_of_foldlM_error (seeds_of_start_fails h)
  rcases seedEntry_error hseed with hlost | ⟨index, rest, -, hq⟩
  · exact .inr ⟨_, _, hlost⟩
  · exact .inl (ControlFlow.enqueue_ofDepth hq)

/-! Ticks. -/

/-- An opcode is reported for the instruction at the cursor, where control arrives. -/
theorem unsupported_of_tick
    (h : w.tick c = .failed (.unsupportedOpcode opcode offset method) next c') :
    ∃ i depth, Arrives w i depth ∧ opcode = i.opcode ∧ offset = i.offset ∧
      method = w.method.signature ∧ i.opcode.isSupported = false := by
  have hdoes := does_tick w c
  generalize w.tick c = t at hdoes h
  generalize w.runs c = ran at hdoes
  cases hdoes with
  | torn _ _ _ _ hdepth =>
    cases h
    exact hdepth.elim
  | fail ha _ hlacks =>
    cases h
    exact ⟨_, _, ha, hlacks.opcode rfl⟩
  | branch => exact absurd (ofPaths_branch h) (Failure.not_ofPaths _ _ _)
  | _ => cases h

/-- Where control arrives at an opcode without a meaning, the tick fails. -/
theorem tick_unsupported (hr : w.runs c = true)
    (hcode : w.flow.body.code[w.cursor]? = some instruction)
    (hu : instruction.opcode.isSupported = false) :
    ∃ next c', w.tick c = .failed
      (.unsupportedOpcode instruction.opcode instruction.offset w.method.signature) next c' := by
  obtain ⟨i, frame, store, he⟩ := executes_of_runs hr
  cases hcode.symm.trans he.code
  rw [execute_unsupported hu] at he
  exact ⟨_, _, he.tick_error⟩

/-! Steps and whole walks. -/

/-- A step that does not fail has run no instruction without a meaning. -/
theorem supported_of_mem_trace (hs : ∀ failure, (w.step c).1 ≠ .failed failure)
    (hi : i ∈ w.trace c) (hcode : w.flow.body.code[i]? = some instruction) :
    instruction.opcode.isSupported = true := by
  -- the instruction at the cursor is run by the tick, which has not failed
  have hfirst : ∀ {w : Interpreter} {c : Context},
      (∀ failure next c', w.tick c ≠ .failed failure next c') →
      i ∈ (if w.runs c = true then [w.cursor] else []) →
      w.flow.body.code[i]? = some instruction → instruction.opcode.isSupported = true := by
    intro w c hok hi hcode
    by_contra hu
    split at hi
    · rename_i hr
      cases List.mem_singleton.mp hi
      obtain ⟨next, c', ht⟩ := tick_unsupported hr hcode (Bool.eq_false_iff.mpr hu)
      exact hok _ _ _ ht
    · exact absurd hi List.not_mem_nil
  fun_induction step w c with
  | case1 w c next c₁ ht ih =>
    have hbody := body_tick w c
    rw [ht] at hbody
    rw [trace_more ht] at hi
    rcases List.mem_append.mp hi with hi | hi
    · exact hfirst (by simp [ht]) hi hcode
    · exact ih hs hi (hbody.symm ▸ hcode)
  | case2 w c effect next c₁ ht =>
    rw [trace_last (by simp [ht])] at hi
    exact hfirst (by simp [ht]) hi hcode
  | case3 w c next c₁ ht =>
    rw [trace_last (by simp [ht])] at hi
    exact hfirst (by simp [ht]) hi hcode
  | case4 w c failure next c₁ ht => exact absurd rfl (hs failure)

theorem Driven.body (hd : Driven w log w') : w'.flow.body = w.flow.body := by
  induction hd with
  | start => rfl
  | @call log w₁ w₂ c c' e _ hs ih =>
    have hbody := w₁.body_step c
    rw [hs] at hbody
    exact hbody.trans ih

/-- A walk that still goes on has run no instruction without a meaning. -/
theorem Driven.supported (hd : Driven w log w') (hi : i ∈ log)
    (hcode : w.flow.body.code[i]? = some instruction) : instruction.opcode.isSupported = true := by
  induction hd with
  | start => exact absurd hi List.not_mem_nil
  | call hd hs ih =>
    rcases List.mem_append.mp hi with hi | hi
    · exact ih hi
    · exact supported_of_mem_trace (by simp [hs]) hi (hd.body ▸ hcode)

/-- A walk reports an opcode of its own method, which control reaches and which has no meaning. -/
theorem unsupported_of_driven (hs : start m b c = .ok (w, c₁)) (hd : Driven w log w')
    (hf : w'.step c₂ = (.failed (.unsupportedOpcode opcode offset method), last, c₃)) :
    method = m.signature ∧ b.ReachesOpcode opcode offset ∧ opcode.isSupported = false := by
  have ha := allows_reaches b m
  have hI := invariant_keeps ha
  have hk := hI.driven ((fresh_start hs).keeps ha) hd
  obtain ⟨_, w₁, c₄, hk₁, ht⟩ := hI.failed log hk hf
  obtain ⟨instruction, _, harrives, rfl, rfl, rfl, hu⟩ := unsupported_of_tick ht
  obtain ⟨frame, hheld, _⟩ := harrives.arrived
  have hcode := harrives.code
  rw [hk₁.body] at hcode
  exact ⟨hk₁.method ▸ rfl, ⟨_, _, hk₁.held hheld, hcode, rfl, rfl⟩, hu⟩

/-- A walk over a body that leads to an opcode without a meaning does not come to its end. -/
theorem not_finished_of_reachesOpcode (hr : b.ReachesOpcode opcode offset)
    (hu : opcode.isSupported = false) (hs : start m b c = .ok (w, c₁)) (hd : Driven w log w') :
    (w'.step c₂).1 ≠ .finished := by
  intro hend
  obtain ⟨i, instruction, hreach, hcode, rfl, rfl⟩ := hr
  -- what is reachable was run when a walk has come to its end
  have hI := invariant_covering b m
  have hcovering := hI.driven (fresh_start hs).covering hd
  obtain ⟨_, hlast, hsize, _⟩ := hI.finished hcovering (Prod.ext hend rfl)
  have hbody : w.flow.body = b := (fresh_start hs).body
  rw [← hbody] at hcode
  have hsupported : instruction.opcode.isSupported = true := by
    rcases List.mem_append.mp (hlast.complete hsize hreach) with hi | hi
    · exact hd.supported hi hcode
    · refine supported_of_mem_trace (fun failure hfail => ?_) hi (hd.body.symm ▸ hcode)
      cases hend.symm.trans hfail
  cases hu.symm.trans hsupported

end Interpreter

end SinkTrace
