import SinkTrace.Proofs.Interpreter.Results
import SinkTrace.Proofs.Store

/-!
Walking a body changes the heap through slots only. What an instruction does leaves the count of
instructions alone: it is the walk that counts.
-/

namespace SinkTrace

open Heap (Edits)

/-- What an instruction may have done to the context. -/
structure Context.Worked (c c' : Context) : Prop where
  heap : Edits c.heap c'.heap
  instructions : c'.instructions = c.instructions

theorem Context.Worked.refl (c : Context) : c.Worked c := ⟨.refl _, rfl⟩

theorem Context.Worked.trans {c c' c'' : Context} (h₁ : c.Worked c') (h₂ : c'.Worked c'') :
    c.Worked c'' := ⟨h₁.heap.trans h₂.heap, h₂.instructions.trans h₁.instructions⟩

namespace Exec

variable {α β : Type}

/-- The context of a result, also of a failure. -/
def context : EStateM.Result Failure Context α → Context
  | .ok _ c => c
  | .error _ c => c

/-- The context that a computation leaves behind, also when it fails. -/
def after (x : Exec α) (c : Context) : Context :=
  match x c with
  | .ok _ c => c
  | .error _ c => c

/-- A computation that works on slots only. -/
def OnSlots (x : Exec α) : Prop := ∀ c, Edits c.heap (x.after c).heap

/-- A computation that works on slots only, and does not count instructions. -/
def Works (x : Exec α) : Prop := ∀ c : Context, c.Worked (x.after c)

@[simp]
theorem works_pure (a : α) : Works (pure a) := fun _ => .refl _

@[simp]
theorem works_throw (failure : Failure) : Works (throw failure : Exec α) := fun _ => .refl _

@[simp]
theorem works_get : Works get := fun _ => .refl _

@[simp]
theorem works_bind {x : Exec α} {f : α → Exec β} (hx : Works x) (hf : ∀ a, Works (f a)) :
    Works (x >>= f) := by
  intro c
  have hfirst := hx c
  unfold after at hfirst ⊢
  change c.Worked (match EStateM.bind x f c with | .ok _ c => c | .error _ c => c)
  unfold EStateM.bind
  cases he : x c with
  | ok a c' =>
    rw [he] at hfirst
    exact hfirst.trans (hf a c')
  | error failure c' =>
    rw [he] at hfirst
    exact hfirst

@[simp]
theorem works_map {x : Exec α} {f : α → β} (hx : Works x) : Works (f <$> x) := by
  rw [map_eq_pure_bind]
  exact works_bind hx fun _ => works_pure _

@[simp]
theorem works_ite {p : Prop} [Decidable p] {x y : Exec α} (hx : Works x) (hy : Works y) :
    Works (if p then x else y) := by
  split
  · exact hx
  · exact hy

@[simp]
theorem works_onStore {f : Store → α × Store} (hf : ∀ s, Edits s.heap (f s).2.heap) :
    Works (onStore f) := fun c => ⟨hf c.store, rfl⟩

@[simp]
theorem works_onContext {f : Context → α × Context} (hf : ∀ c, Edits c.heap (f c).2.heap)
    (hi : ∀ c, (f c).2.instructions = c.instructions) : Works (onContext f) :=
  fun c => ⟨hf c, hi c⟩

@[simp]
theorem works_modify {f : Context → Context} (hf : ∀ c, Edits c.heap (f c).heap)
    (hi : ∀ c, (f c).instructions = c.instructions) : Works (modify f) := fun c => ⟨hf c, hi c⟩

theorem works_mapM {f : β → Exec α} (hf : ∀ b, Works (f b)) (bs : List β) :
    Works (bs.mapM f) := by
  induction bs with
  | nil => simp
  | cons b bs ih =>
    rw [List.mapM_cons]
    exact works_bind (hf b) fun _ => works_bind ih fun _ => works_pure _

@[simp]
theorem works_pushFake (frame : Frame) : Works (pushFake frame) := by
  simp [pushFake]

@[simp]
theorem works_pushEntity (frame : Frame) (e : EntityId) : Works (pushEntity frame e) := by
  simp [pushEntity]

@[simp]
theorem works_pushTyped (frame : Frame) (type : TypeRef) (slot : SlotId) :
    Works (pushTyped frame type slot) := by
  simp [pushTyped]

end Exec

namespace Site

open Exec

variable (s : Site)

@[simp]
theorem works_invalid {α : Type} (expected : Expected) : Works (s.invalid expected : Exec α) :=
  works_throw _

@[simp]
theorem works_pop (frame : Frame) : Works (s.pop frame) := by
  cases frame with
  | nil => exact works_throw _
  | cons slot frame => exact works_pure _

@[simp]
theorem works_popMany (n : Nat) (frame : Frame) (popped : List SlotId) :
    Works (s.popMany n frame popped) := by
  induction n generalizing frame popped with
  | zero => exact works_pure _
  | succ n ih => exact works_bind (s.works_pop frame) fun _ => ih _ _

@[simp]
theorem works_argIndex : Works s.argIndex := by
  unfold argIndex
  split <;> simp

@[simp]
theorem works_localIndex : Works s.localIndex := by
  unfold localIndex
  split <;> simp

@[simp]
theorem works_target : Works s.target := by
  unfold target
  split <;> simp

@[simp]
theorem works_table : Works s.table := by
  unfold table
  split <;> simp

@[simp]
theorem works_methodRef : Works s.methodRef := by
  unfold methodRef
  split <;> simp

@[simp]
theorem works_fieldRef : Works s.fieldRef := by
  unfold fieldRef
  split <;> simp

@[simp]
theorem works_typeRef : Works s.typeRef := by
  unfold typeRef
  split <;> simp

@[simp]
theorem works_argumentSlot (index : Nat) : Works (s.argumentSlot index) := by
  refine works_bind works_get fun c => ?_
  split <;> simp

@[simp]
theorem works_handlesReference (kind : ValueKind) : Works (s.handlesReference kind) := by
  unfold handlesReference
  split <;> simp

@[simp]
theorem works_parameter (slot : SlotId) (type : TypeRef) : Works (parameter slot type) := by
  simp [parameter]

@[simp]
theorem works_newValue (type : TypeRef) (origin : Origin) : Works (newValue type origin) := by
  unfold newValue
  split
  · simp
  · refine works_bind ?_ fun e => ?_ <;> simp

theorem works_parameters (slots : List SlotId) (types : List TypeRef) :
    Works ((slots.zip types).mapM fun (slot, type) => parameter slot type) :=
  works_mapM (fun (slot, type) => works_parameter slot type) _

theorem works_countCall : Works countCall := by
  intro c
  rcases countCall_cases c with h | h
  all_goals
    rw [Exec.after, h]
    exact ⟨.refl _, rfl⟩

@[simp]
theorem works_call (kind : EffectKind) (frame : Frame) : Works (s.call kind frame) := by
  refine works_bind s.works_methodRef fun m => works_bind works_countCall fun _ => ?_
  refine works_bind (s.works_popMany _ _ _) fun (slots, frame) => ?_
  refine works_bind (works_parameters _ _) fun parameters => ?_
  split
  · simp
  · split <;> simp

end Site

@[simp]
theorem Exec.works_assign (straight : Bool) (index : Nat) (slot : SlotId) :
    Works (modify fun c : Context =>
      if straight then c.rebindArgument index slot else c.storeArgument index slot) := by
  refine works_modify (fun c => ?_) fun c => ?_
  · split
    · exact .refl _
    · exact c.edits_storeArgument index slot
  · split <;> rfl

theorem works_execute (m : MethodRef) (straight : Bool) (i : Instruction) (frame : Frame) :
    Exec.Works (execute m straight i frame) := by
  unfold execute
  simp only
  -- every instruction is a sequence of reads of its operand, pops, and operations on slots
  split
  all_goals
    repeat' first
      | with_reducible refine Exec.works_bind ?_ fun _ => ?_
      | with_reducible refine Exec.works_ite ?_ ?_
      | (simp; done)
      | split

theorem onSlots_execute (m : MethodRef) (straight : Bool) (i : Instruction) (frame : Frame) :
    Exec.OnSlots (execute m straight i frame) := fun c => (works_execute m straight i frame c).heap

/-! Joining stacks and letting them wait. -/

/-- Kept by all work on slots that makes no entity of its own. -/
structure Store.Closed (R : Store → Store → Prop) : Prop where
  refl : ∀ s, R s s
  trans : ∀ {s s' s''}, R s s' → R s' s'' → R s s''
  fake : ∀ s : Store, R s s.fake.2
  union : ∀ (s : Store) (a b : SlotId), R s (s.union a b).2

theorem Store.closed_edits : Closed fun s s' => Edits s.heap s'.heap where
  refl _ := .refl _
  trans := Edits.trans
  fake := edits_fake
  union := edits_union

section Closed

variable {R : Store → Store → Prop} (hR : Store.Closed R)

include hR

namespace Store.Closed

theorem unionStacks (s : Store) (as bs : Frame) : R s (s.unionStacks as bs).2 := by
  fun_induction Store.unionStacks s as bs with
  | case1 a as b bs rest s₁ hrest c s₂ hunion ih =>
    have hu := hR.union s₁ a b
    rw [hrest] at ih
    rw [hunion] at hu
    exact hR.trans ih hu
  | case2 => exact hR.refl _

theorem joinFrames {s s' : Store} {a b frame : Frame}
    (h : s.joinFrames a b = .ok (frame, s')) : R s s' := by
  unfold Store.joinFrames at h
  split at h
  · have hu := hR.unionStacks s a b
    rwa [Except.ok.inj h] at hu
  · cases h

theorem enqueue (f : ControlFlow) (s : Store) (index : Nat) (frame : Frame) :
    R s (f.enqueue s index frame).2.2 := by
  generalize h : f.enqueue s index frame = result
  cases ControlFlow.enqueues_of_enqueue h with
  | first | torn => exact hR.refl _
  | joins _ hjoin => exact hR.joinFrames hjoin

theorem enqueueAll {f f' : ControlFlow} {s s' : Store} {frame : Frame} {indices : List Nat}
    {failure : Option Failure} (h : f.enqueueAll s frame indices = (failure, f', s')) : R s s' := by
  induction indices generalizing f s with
  | nil =>
    cases h
    exact hR.refl _
  | cons index indices ih =>
    have hfirst := hR.enqueue f s index frame
    unfold ControlFlow.enqueueAll at h
    split at h
    · rename_i he
      cases h
      rwa [he] at hfirst
    · rename_i he
      rw [he] at hfirst
      exact hR.trans hfirst (ih h)

theorem entryFrame (kind : HandlerKind) (s : Store) : R s (kind.entryFrame s).2 := by
  unfold HandlerKind.entryFrame
  split
  · exact hR.fake s
  · exact hR.fake s
  · exact hR.refl s
  · exact hR.refl s

theorem start {m : MethodRef} {b : Body} {c c' : Context} {w : Interpreter}
    (hs : Interpreter.start m b c = .ok (w, c')) : ∃ store, R c.store store ∧
      c' = { c with store } := by
  have hkept := Interpreter.start_keeps (P := fun state => R c.store state.2) (hR.refl _)
    (fun handler _ entry _ state state' index hstate _ hq => ?_) hs
  · exact ⟨c'.store, hkept⟩
  · have henqueue := hR.enqueue state.1 (handler.kind.entryFrame state.2).2 index
      (handler.kind.entryFrame state.2).1
    rw [hq] at henqueue
    exact hR.trans hstate (hR.trans (hR.entryFrame handler.kind state.2) henqueue)

theorem joinPaths {s s' : Store} {current incoming joined : Option Frame}
    (hj : Interpreter.joinPaths s current incoming = .ok (joined, s')) : R s s' := by
  cases Interpreter.joinsPaths_of_joinPaths hj with
  | both hframes => exact hR.joinFrames hframes
  | left | right => exact hR.refl _

theorem branch (w : Interpreter) (c : Context) (offset : Offset) (targets : List Offset)
    (conditional : Bool) (frame : Frame) : ∃ store, R c.store store ∧
      (w.branch c offset targets conditional frame).context = { c with store } := by
  generalize h : w.branch c offset targets conditional frame = t
  cases Interpreter.branches_of_branch h with
  | torn _ _ _ hparked | lost _ _ hparked | back _ _ _ hparked | ahead _ _ _ hparked =>
    exact ⟨_, hR.enqueueAll hparked, rfl⟩

end Store.Closed

end Closed

namespace Interpreter

theorem edits_start {m : MethodRef} {b : Body} {c : Context} {result : Interpreter × Context}
    (hs : start m b c = .ok result) : Edits c.heap result.2.heap := by
  obtain ⟨w, c'⟩ := result
  obtain ⟨store, hedits, rfl⟩ := Store.closed_edits.start hs
  exact hedits

section

variable {w : Interpreter} {c : Context} {i : Instruction} {frame : Frame} {store : Store}
  {result : EStateM.Result Failure Context Flow} (he : Executes w c i frame store result)

include he

/-- What the instruction does, once the paths are joined and it is counted. -/
theorem Executes.worked :
    ({ c with store, instructions := c.instructions + 1 } : Context).Worked (Exec.context result) :=
  he.result ▸ works_execute _ _ _ _ _

theorem Executes.edits : Edits c.heap (Exec.context result).heap := by
  have hpaths := Store.closed_edits.joinPaths he.joined
  have hrun : Edits store.heap (Exec.context result).heap :=
    he.result ▸ onSlots_execute _ _ _ _ { c with store, instructions := c.instructions + 1 }
  exact hpaths.trans hrun

end

theorem edits_tick (w : Interpreter) (c : Context) : Edits c.heap (w.tick c).context.heap := by
  generalize h : w.tick c = t
  cases ticks_of_tick h with
  | done | torn | skip => exact .refl _
  | full _ hjoin => exact Store.closed_edits.joinPaths hjoin
  | fail he | next he | stop he | call he => exact he.edits
  | @branch i _ after _ targets conditional c' _ he hb =>
    obtain ⟨store, hedits, hc⟩ :=
      Store.closed_edits.branch w.cleared c' i.offset targets conditional after
    rw [← hb, hc]
    exact he.edits.trans hedits

theorem edits_step (w : Interpreter) (c : Context) : Edits c.heap (w.step c).2.2.heap :=
  step_keeps (P := fun _ c' => Edits c.heap c'.heap) (fun w c h => h.trans (edits_tick w c))
    (.refl _)

end Interpreter

end SinkTrace
