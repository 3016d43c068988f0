import SinkTrace.Engine.Activation

/-!
What computations that can fail come to. Each lemma takes one of them apart: two paths that meet,
the entries of handlers at which frames are left when a walk begins, and the walk or the
implementations that an activation begins with. What a walk keeps in every tick it keeps in a step,
and what it keeps at every entry holds when it begins.
-/

namespace SinkTrace

section Except

variable {ε α β σ : Type} {e : ε}

theorem bind_ok {x : Except ε α} {f : α → Except ε β} {b : β} (h : (x >>= f) = .ok b) :
    ∃ a, x = .ok a ∧ f a = .ok b := by
  cases x with
  | error e => cases h
  | ok a => exact ⟨a, rfl, h⟩

theorem bind_error {x : Except ε α} {f : α → Except ε β} (h : (x >>= f) = .error e) :
    x = .error e ∨ ∃ a, x = .ok a ∧ f a = .error e := by
  cases x with
  | error e =>
    cases h
    exact .inl rfl
  | ok a => exact .inr ⟨a, rfl, h⟩

variable {f : σ → α → Except ε σ} {a : α} {as : List α} {s s' : σ}

theorem foldlM_cons_ok (h : (a :: as).foldlM f s = .ok s') :
    ∃ next, f s a = .ok next ∧ as.foldlM f next = .ok s' := by
  rw [List.foldlM_cons] at h
  exact bind_ok h

/-- A fold fails at the first element or behind it. -/
theorem foldlM_cons_error (h : (a :: as).foldlM f s = .error e) :
    f s a = .error e ∨ ∃ next, f s a = .ok next ∧ as.foldlM f next = .error e := by
  rw [List.foldlM_cons] at h
  exact bind_error h

/-- What each step keeps holds at the end. -/
theorem foldlM_ok_keeps {P : σ → Prop}
    (hstep : ∀ a ∈ as, ∀ s s', P s → f s a = .ok s' → P s') (hs : P s)
    (h : as.foldlM f s = .ok s') : P s' := by
  induction as generalizing s with
  | nil =>
    cases h
    exact hs
  | cons a as ih =>
    obtain ⟨next, hfirst, hrest⟩ := foldlM_cons_ok h
    obtain ⟨ha, has⟩ := List.forall_mem_cons.mp hstep
    exact ih has (ha s next hs hfirst) hrest

/-- A fold that fails does so at one of the elements. -/
theorem exists_of_foldlM_error (h : as.foldlM f s = .error e) :
    ∃ a ∈ as, ∃ s', f s' a = .error e := by
  induction as generalizing s with
  | nil => cases h
  | cons a as ih =>
    rcases foldlM_cons_error h with hfirst | ⟨next, -, hrest⟩
    · exact ⟨a, List.mem_cons_self, s, hfirst⟩
    · obtain ⟨b, hb, last, hlast⟩ := ih hrest
      exact ⟨b, List.mem_cons_of_mem a hb, last, hlast⟩

end Except

/-- The walk at the end of a step. -/
def Tick.walk : Tick → Interpreter
  | .more w _ | .effect _ w _ | .done w _ | .failed _ w _ => w

/-- The context at the end of a step of the walk. -/
def Tick.context : Tick → Context
  | .more _ c | .effect _ _ c | .done _ c | .failed _ _ c => c

namespace Interpreter

variable {m : MethodRef} {b : Body} {c c' : Context} {w : Interpreter} {failure : Failure}
  {s s' : Store} {current incoming joined : Option Frame}

/-- What every tick keeps, a step keeps. -/
theorem step_keeps {P : Interpreter → Context → Prop}
    (htick : ∀ w c, P w c → P (w.tick c).walk (w.tick c).context) (h : P w c) :
    P (w.step c).2.1 (w.step c).2.2 := by
  fun_induction step w c with
  | case1 w c next c₁ ht ih =>
    have hnext := htick w c h
    rw [ht] at hnext
    exact ih hnext
  | case2 w c _ _ _ ht | case3 w c _ _ ht | case4 w c _ _ _ ht =>
    have hlast := htick w c h
    rwa [ht] at hlast

/-- Two paths meet, or one of them at most has come. -/
inductive JoinsPaths (s : Store) : Option Frame → Option Frame → Option Frame → Store → Prop where
  | both {a b joined : Frame} {s' : Store} (hj : s.joinFrames a b = .ok (joined, s')) :
    JoinsPaths s (some a) (some b) (some joined) s'
  | left (current : Option Frame) : JoinsPaths s current none current s
  | right (incoming : Option Frame) : JoinsPaths s none incoming incoming s

theorem joinsPaths_of_joinPaths (h : joinPaths s current incoming = .ok (joined, s')) :
    JoinsPaths s current incoming joined s' := by
  unfold joinPaths at h
  split at h
  · obtain ⟨both, hj, hboth⟩ := bind_ok h
    cases hboth
    exact .both hj
  · rename_i hnone
    cases h
    cases current with
    | none => exact .right incoming
    | some a =>
      cases incoming with
      | none => exact .left (some a)
      | some b => exact (hnone a b rfl rfl).elim

theorem frames_of_joinPaths (h : joinPaths s current incoming = .error failure) :
    ∃ a b : Frame, current = some a ∧ incoming = some b ∧ s.joinFrames a b = .error failure := by
  unfold joinPaths at h
  split at h
  · rcases bind_error h with hj | ⟨both, -, hboth⟩
    · exact ⟨_, _, rfl, rfl, hj⟩
    · cases hboth
  · cases h

/-- A frame is left at an entry that exists. -/
theorem enqueue_of_seedEntry {handler : Handler} {entry : Offset}
    {state state' : ControlFlow × Store} (h : seedEntry handler state entry = .ok state') :
    ∃ index, state.1.body.indexOf? entry = some index ∧
      state.1.enqueue (handler.kind.entryFrame state.2).2 index
        (handler.kind.entryFrame state.2).1 = (none, state') := by
  unfold seedEntry at h
  simp only at h
  split at h
  · cases h
  · rename_i index hindex
    split at h
    · cases h
    · rename_i he
      cases h
      exact ⟨index, hindex, he⟩

theorem seedEntry_error {handler : Handler} {entry : Offset} {state : ControlFlow × Store}
    (h : seedEntry handler state entry = .error failure) :
    failure = .invalidBranchTarget handler.tryStart entry ∨
      ∃ index rest, state.1.body.indexOf? entry = some index ∧
        state.1.enqueue (handler.kind.entryFrame state.2).2 index
          (handler.kind.entryFrame state.2).1 = (some failure, rest) := by
  unfold seedEntry at h
  simp only at h
  split at h
  · cases h
    exact .inl rfl
  · rename_i index hindex
    split at h
    · rename_i he
      cases h
      exact .inr ⟨index, _, hindex, he⟩
    · cases h

theorem mem_entries {entry : Handler × Offset} :
    entry ∈ (b.handlers.flatMap fun h => h.entries.map fun entry => (h, entry)) ↔
      entry.1 ∈ b.handlers ∧ entry.2 ∈ entry.1.entries := by
  obtain ⟨h, o⟩ := entry
  simp only [List.mem_flatMap, List.mem_map, Prod.mk.injEq]
  constructor
  · rintro ⟨h, hh, o, ho, rfl, rfl⟩
    exact ⟨hh, ho⟩
  · rintro ⟨hh, ho⟩
    exact ⟨h, hh, o, ho, rfl, rfl⟩

theorem seeds_of_start (h : start m b c = .ok (w, c')) :
    ∃ state, (b.handlers.flatMap fun h => h.entries.map fun entry => (h, entry)).foldlM
        (fun state (h, entry) => seedEntry h state entry) (ControlFlow.ofBody b, c.store) =
          .ok state ∧
      w = { method := m, flow := state.1 } ∧ c' = { c with store := state.2 } := by
  unfold start at h
  obtain ⟨state, hseeds, hbegun⟩ := bind_ok h
  cases hbegun
  exact ⟨state, hseeds, rfl, rfl⟩

theorem seeds_of_start_fails (h : start m b c = .error failure) :
    (b.handlers.flatMap fun h => h.entries.map fun entry => (h, entry)).foldlM
      (fun state (h, entry) => seedEntry h state entry) (ControlFlow.ofBody b, c.store) =
        .error failure := by
  unfold start at h
  rcases bind_error h with hseeds | ⟨state, -, hbegun⟩
  · exact hseeds
  · cases hbegun

/-- What is kept when a frame is left at an entry of a handler holds when the walk begins. -/
theorem start_keeps {P : ControlFlow × Store → Prop} (hfirst : P (ControlFlow.ofBody b, c.store))
    (hentry : ∀ handler ∈ b.handlers, ∀ entry ∈ handler.entries, ∀ state state' index, P state →
      state.1.body.indexOf? entry = some index →
      state.1.enqueue (handler.kind.entryFrame state.2).2 index
        (handler.kind.entryFrame state.2).1 = (none, state') → P state')
    (h : start m b c = .ok (w, c')) : P (w.flow, c'.store) ∧ c' = { c with store := c'.store } := by
  obtain ⟨state, hseeds, rfl, rfl⟩ := seeds_of_start h
  refine ⟨foldlM_ok_keeps (fun entry he s s' hs hseed => ?_) hfirst hseeds, rfl⟩
  obtain ⟨hh, ho⟩ := mem_entries.mp he
  obtain ⟨index, hindex, hq⟩ := enqueue_of_seedEntry hseed
  exact hentry entry.1 hh entry.2 ho s s' index hs hindex hq

end Interpreter

namespace Activation

variable {key : SummaryKey} {method : MethodRef} {stack : CallStack} {target : CallTarget}
  {statics : Bool} {a : Activation}

/-- The activation that a target begins with. -/
inductive Starts (key : SummaryKey) (method : MethodRef) (stack : CallStack) (statics : Bool) :
    CallTarget → Activation → Prop where
  | walk {d : MethodDef} {body : Body} {w : Interpreter} {c : Context} (hb : d.body = some body)
    (hw : Interpreter.start d.reference body (Context.start d.reference body.locals statics) =
      .ok (w, c)) :
    Starts key method stack statics (.method d)
      { key, method, stack, context := c, work := .walk w, target := .method d }
  | dispatch (methods : List MethodRef) :
    Starts key method stack statics (.implementations methods)
      { key, method, stack, context := Context.startDispatch method statics
        work := .dispatch methods .replace, target := .implementations methods }

theorem starts_of_start (hs : start key method stack target statics = .ok a) :
    Starts key method stack statics target a := by
  unfold start at hs
  split at hs
  · rename_i d
    split at hs
    · cases hs
    · rename_i body hb
      obtain ⟨walk, hw, hbegun⟩ := bind_ok hs
      cases hbegun
      exact .walk hb hw
  · cases hs
    exact .dispatch _

end Activation

end SinkTrace
