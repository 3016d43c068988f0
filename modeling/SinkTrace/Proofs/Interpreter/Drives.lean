import SinkTrace.Proofs.Interpreter.Ticks

/-!
Whole walks. A driver calls `step` again and again and does what it likes to the context in
between; what every tick keeps holds throughout.
-/

namespace SinkTrace

namespace Interpreter

variable {w w' next : Interpreter} {c c' : Context} {failure : Failure} {frame : Frame}
  {P : List Nat → Interpreter → Prop} {log log' : List Nat}

/-- The instructions that a step runs, in order. -/
def trace (w : Interpreter) (c : Context) : List Nat :=
  (if w.runs c then [w.cursor] else []) ++
    match _ : w.tick c with
    | .more w c => w.trace c
    | _ => []
termination_by w.distance
decreasing_by exact distance_lt_of_tick ‹_›

/-- What a step ends with, if the tick is its last one. -/
def pause? : Tick → Option (Pause × Interpreter × Context)
  | .more _ _ => none
  | .effect e w c => some (.call e, w, c)
  | .done w c => some (.finished, w, c)
  | .failed failure w c => some (.failed failure, w, c)

theorem trace_more (h : w.tick c = .more next c') :
    w.trace c = (if w.runs c then [w.cursor] else []) ++ next.trace c' := by
  rw [trace]
  congr 1
  split
  · rename_i he
    cases h.symm.trans he
    rfl
  · rename_i hne
    exact absurd h (hne _ _)

theorem trace_last (h : ∀ next c', w.tick c ≠ .more next c') :
    w.trace c = if w.runs c then [w.cursor] else [] := by
  rw [trace]
  conv_rhs => rw [← List.append_nil (if w.runs c then [w.cursor] else [])]
  congr 1
  split
  · rename_i he
    exact absurd he (h _ _)
  · rfl

/-- What holds between ticks, of the walk and of the instructions that were run. -/
structure Invariant (P : List Nat → Interpreter → Prop) : Prop where
  size : ∀ {log w}, P log w → w.flow.waiting.size = w.flow.body.size
  moves : ∀ {log w ran next}, P log w → Moves w ran next →
    P (log ++ if ran then [w.cursor] else []) next

/-- The last tick of a step. -/
theorem Invariant.last (hI : Invariant P) (hP : P log w) :
    ∃ log' w' c', P log' w' ∧ pause? (w'.tick c') = some (w.step c) ∧
      log ++ w.trace c = log' ++ if w'.runs c' then [w'.cursor] else [] := by
  fun_induction step w c generalizing log with
  | case1 w c next c₁ ht ih =>
    obtain ⟨log', w', c', hP', hlast, hlog⟩ :=
      ih (hI.moves hP (moves_of_tick (hI.size hP) (.inl ht)))
    refine ⟨log', w', c', hP', hlast, ?_⟩
    rw [trace_more ht, ← hlog, List.append_assoc]
  | case2 w c effect next c₁ ht =>
    exact ⟨log, w, c, hP, by rw [ht, pause?], by rw [trace_last (by simp [ht])]⟩
  | case3 w c next c₁ ht =>
    exact ⟨log, w, c, hP, by rw [ht, pause?], by rw [trace_last (by simp [ht])]⟩
  | case4 w c failure next c₁ ht =>
    exact ⟨log, w, c, hP, by rw [ht, pause?], by rw [trace_last (by simp [ht])]⟩

theorem Invariant.call (hI : Invariant P) (hP : P log w) {e : CallEffect}
    (h : w.step c = (.call e, w', c')) : P (log ++ w.trace c) w' := by
  obtain ⟨log₁, w₁, c₁, hP₁, hlast, hlog⟩ := hI.last hP
  rw [h] at hlast
  rw [hlog]
  cases ht : w₁.tick c₁ with
  | effect effect next c₂ =>
    rw [ht, pause?, Option.some.injEq, Prod.mk.injEq, Prod.mk.injEq] at hlast
    obtain ⟨_, rfl, rfl⟩ := hlast
    exact hI.moves hP₁ (moves_of_tick (hI.size hP₁) (.inr ⟨effect, ht⟩))
  | _ => simp [ht, pause?] at hlast

theorem Invariant.finished (hI : Invariant P) (hP : P log w)
    (h : w.step c = (.finished, w', c')) :
    ∃ last, P (log ++ w.trace c) last ∧ last.flow.body.size ≤ last.cursor ∧
      w'.flow = last.flow := by
  obtain ⟨log₁, w₁, c₁, hP₁, hlast, hlog⟩ := hI.last hP
  rw [h] at hlast
  cases ht : w₁.tick c₁ with
  | done next c₂ =>
    rw [ht, pause?, Option.some.injEq, Prod.mk.injEq, Prod.mk.injEq] at hlast
    obtain ⟨_, rfl, rfl⟩ := hlast
    obtain ⟨hend, hruns, hflow⟩ := done_of_tick ht
    rw [hlog, hruns]
    exact ⟨w₁, by simpa using hP₁, hend, hflow⟩
  | _ => simp [ht, pause?] at hlast

theorem Invariant.failed (hI : Invariant P) (log : List Nat) (hP : P log w)
    (h : w.step c = (.failed failure, w', c')) :
    ∃ log' last c₁, P log' last ∧ last.tick c₁ = .failed failure w' c' := by
  obtain ⟨log₁, w₁, c₁, hP₁, hlast, _⟩ := hI.last hP
  rw [h] at hlast
  cases ht : w₁.tick c₁ with
  | failed failure next c₂ =>
    rw [ht, pause?, Option.some.injEq, Prod.mk.injEq, Prod.mk.injEq] at hlast
    obtain ⟨hf, rfl, rfl⟩ := hlast
    cases hf
    exact ⟨log₁, w₁, c₁, hP₁, ht⟩
  | _ => simp [ht, pause?] at hlast

/-- Any number of steps that come to calls, with the instructions that they run. Every step is
made in any context, since a driver can do what it likes to the context before it. -/
inductive Driven (w : Interpreter) : List Nat → Interpreter → Prop where
  | start : Driven w [] w
  | call {log : List Nat} {w₁ w₂ : Interpreter} {c c' : Context} {e : CallEffect}
    (hd : Driven w log w₁) (hs : w₁.step c = (.call e, w₂, c')) :
    Driven w (log ++ w₁.trace c) w₂

theorem trace_ne_nil {e : CallEffect} (h : w.step c = (.call e, w', c')) : w.trace c ≠ [] := by
  fun_induction step w c with
  | case1 w c next c₁ ht ih =>
    rw [trace_more ht]
    exact List.append_ne_nil_of_right_ne_nil _ (ih h)
  | case2 w c effect next c₁ ht =>
    rw [trace_last (by simp [ht]), runs_of_effect ht]
    exact List.cons_ne_nil _ _
  | case3 => cases h
  | case4 => cases h

theorem Invariant.driven (hI : Invariant P) (hP : P [] w) (hd : Driven w log w') : P log w' := by
  induction hd with
  | start => exact hP
  | call _ hs ih => exact hI.call ih hs

/-! The beginning of a walk. -/

theorem length_entryFrame (kind : HandlerKind) (s : Store) :
    (kind.entryFrame s).1.length = kind.entryDepth := by
  cases kind <;> rfl

/-- `f'` is `f` with a frame left at each of the entries. -/
structure Seeds (entries : List (Handler × Offset)) (f f' : ControlFlow) : Prop where
  body : f'.body = f.body
  taken : f'.taken = f.taken
  size : f'.waiting.size = f.waiting.size
  source : ∀ {i frame}, f'.Waits i frame → f.Waits i frame ∨ ∃ entry ∈ entries,
    f.body.indexOf? entry.2 = some i ∧ frame.length = entry.1.kind.entryDepth
  keeps : ∀ {i frame}, f.Waits i frame → ∃ frame, f'.Waits i frame
  seeded : ∀ entry ∈ entries, ∀ {i}, f.body.indexOf? entry.2 = some i → i < f.waiting.size →
    ∃ frame, f'.Waits i frame

theorem seeds_nil (f : ControlFlow) : Seeds [] f f :=
  ⟨rfl, rfl, rfl, .inl, fun h => ⟨_, h⟩, nofun⟩

theorem Seeds.cons {entry : Handler × Offset} {entries : List (Handler × Offset)}
    {f f' f'' : ControlFlow} (h₁ : Seeds [entry] f f') (h₂ : Seeds entries f' f'') :
    Seeds (entry :: entries) f f'' where
  body := h₂.body.trans h₁.body
  taken := h₂.taken.trans h₁.taken
  size := h₂.size.trans h₁.size
  source h := by
    rcases h₂.source h with h | ⟨e, he, hi, hl⟩
    · refine (h₁.source h).imp_right fun ⟨e, he, hi, hl⟩ => ⟨e, ?_, hi, hl⟩
      exact List.mem_singleton.mp he ▸ List.mem_cons_self ..
    · exact .inr ⟨e, List.mem_cons_of_mem _ he, h₁.body ▸ hi, hl⟩
  keeps h := (h₁.keeps h).elim fun _ h => h₂.keeps h
  seeded e he i hi hlt := by
    rcases List.mem_cons.mp he with rfl | he
    · exact (h₁.seeded e (List.mem_singleton_self e) hi hlt).elim fun _ h => h₂.keeps h
    · exact h₂.seeded e he (h₁.body ▸ hi) (h₁.size ▸ hlt)

theorem seeds_seedEntry {entry : Handler × Offset} {state state' : ControlFlow × Store}
    (h : seedEntry entry.1 state entry.2 = .ok state') : Seeds [entry] state.1 state'.1 := by
  obtain ⟨index, hindex, hq⟩ := enqueue_of_seedEntry h
  have hp := ControlFlow.parks_enqueue hq
  rw [length_entryFrame] at hp
  refine ⟨hp.body, hp.taken, hp.size, fun hw => ?_, hp.keeps, fun e he i hi hlt => ?_⟩
  · refine (hp.source hw).imp_right fun ⟨hi, hl⟩ => ⟨entry, List.mem_singleton_self _, ?_, hl⟩
    exact List.mem_singleton.mp hi ▸ hindex
  · cases List.mem_singleton.mp he
    cases hindex.symm.trans hi
    exact hp.parked (List.mem_singleton_self _) hlt

theorem seedEntry_fails {entry : Handler × Offset} {state : ControlFlow × Store}
    (hf : failure.OfDepth) (h : seedEntry entry.1 state entry.2 = .error failure) :
    ∃ i frame, state.1.body.indexOf? entry.2 = some i ∧ state.1.Waits i frame ∧
      frame.length ≠ entry.1.kind.entryDepth := by
  rcases seedEntry_error h with rfl | ⟨index, rest, hindex, hq⟩
  · exact hf.elim
  · obtain ⟨frame, hw, hne⟩ := ControlFlow.enqueue_fails hq
    exact ⟨index, frame, hindex, hw, length_entryFrame .. ▸ hne⟩

theorem seeds_seedEntries {entries : List (Handler × Offset)} {state state' : ControlFlow × Store}
    (h : entries.foldlM (fun state (h, entry) => seedEntry h state entry) state = .ok state') :
    Seeds entries state.1 state'.1 := by
  induction entries generalizing state with
  | nil =>
    cases h
    exact seeds_nil _
  | cons entry entries ih =>
    obtain ⟨next, hfirst, hrest⟩ := foldlM_cons_ok h
    exact (seeds_seedEntry hfirst).cons (ih hrest)

/-- Two entries at one instruction ask for stacks of different depth. -/
theorem seedEntries_fails {entries : List (Handler × Offset)} {state : ControlFlow × Store}
    (hf : failure.OfDepth)
    (h : entries.foldlM (fun state (h, entry) => seedEntry h state entry) state =
      .error failure) :
    ∃ entry ∈ entries, ∃ i depth, state.1.body.indexOf? entry.2 = some i ∧
      depth ≠ entry.1.kind.entryDepth ∧
      ((∃ frame, state.1.Waits i frame ∧ frame.length = depth) ∨ ∃ other ∈ entries,
        state.1.body.indexOf? other.2 = some i ∧ other.1.kind.entryDepth = depth) := by
  induction entries generalizing state with
  | nil => cases h
  | cons entry entries ih =>
    rcases foldlM_cons_error h with hfirst | ⟨next, hfirst, hrest⟩
    · obtain ⟨i, frame, hi, hw, hne⟩ := seedEntry_fails hf hfirst
      exact ⟨entry, List.mem_cons_self .., i, frame.length, hi, hne, .inl ⟨frame, hw, rfl⟩⟩
    · have hs := seeds_seedEntry hfirst
      obtain ⟨e, he, i, depth, hi, hne, hplace⟩ := ih hrest
      refine ⟨e, List.mem_cons_of_mem _ he, i, depth, hs.body ▸ hi, hne, ?_⟩
      rcases hplace with ⟨frame, hw, hl⟩ | ⟨other, ho, hio, hd⟩
      · rcases hs.source hw with hw | ⟨other, ho, hio, hl'⟩
        · exact .inl ⟨frame, hw, hl⟩
        · refine .inr ⟨other, ?_, hio, hl'.symm.trans hl⟩
          exact List.mem_singleton.mp ho ▸ List.mem_cons_self ..
      · exact .inr ⟨other, List.mem_cons_of_mem _ ho, hs.body ▸ hio, hd⟩

/-- A walk that has not begun. -/
structure Fresh (m : MethodRef) (b : Body) (w : Interpreter) : Prop where
  method : w.method = m
  body : w.flow.body = b
  size : w.flow.waiting.size = b.size
  taken : w.flow.taken = []
  cursor : w.cursor = 0
  current : w.current = some []
  source : ∀ {i frame}, w.flow.Waits i frame → ∃ h ∈ b.handlers, ∃ o ∈ h.entries,
    b.indexOf? o = some i ∧ frame.length = h.kind.entryDepth
  seeded : ∀ {h o i}, h ∈ b.handlers → o ∈ h.entries → b.indexOf? o = some i →
    ∃ frame, w.flow.Waits i frame

theorem waits_ofBody (b : Body) (i : Nat) (frame : Frame) :
    ¬ (ControlFlow.ofBody b).Waits i frame := by
  simp [ControlFlow.Waits, ControlFlow.ofBody, Array.getElem?_replicate]

theorem fresh_start {m : MethodRef} {b : Body} (h : start m b c = .ok (w, c')) : Fresh m b w := by
  obtain ⟨state, hseeds, rfl, -⟩ := seeds_of_start h
  have hs := seeds_seedEntries hseeds
  have hwidth : (ControlFlow.ofBody b).waiting.size = b.size := Array.size_replicate
  refine ⟨rfl, hs.body, hs.size.trans hwidth, hs.taken, rfl, rfl, fun {i frame} hw => ?_,
    fun {h o i} hh ho hi => ?_⟩
  · rcases hs.source hw with hw | ⟨entry, he, hi, hl⟩
    · exact absurd hw (waits_ofBody b i frame)
    · obtain ⟨hh, ho⟩ := mem_entries.mp he
      exact ⟨entry.1, hh, entry.2, ho, hi, hl⟩
  · exact hs.seeded (h, o) (mem_entries.mpr ⟨hh, ho⟩) hi
      (hwidth ▸ Body.lt_size_of_indexOf? hi)

theorem start_fails {m : MethodRef} {b : Body} (hf : failure.OfDepth)
    (h : start m b c = .error failure) :
    ∃ h₁ ∈ b.handlers, ∃ o₁ ∈ h₁.entries, ∃ h₂ ∈ b.handlers, ∃ o₂ ∈ h₂.entries, ∃ i,
      b.indexOf? o₁ = some i ∧ b.indexOf? o₂ = some i ∧
        h₁.kind.entryDepth ≠ h₂.kind.entryDepth := by
  obtain ⟨e, he, i, depth, hi, hne, hplace⟩ := seedEntries_fails hf (seeds_of_start_fails h)
  obtain ⟨hh, ho⟩ := mem_entries.mp he
  rcases hplace with ⟨frame, hw, _⟩ | ⟨other, hm, hio, rfl⟩
  · exact absurd hw (waits_ofBody b i frame)
  · obtain ⟨hh', ho'⟩ := mem_entries.mp hm
    exact ⟨other.1, hh', other.2, ho', e.1, hh, e.2, ho, i, hio, hi, hne⟩

/-! What is known of every frame that is held. -/

/-- A relation between indices and depths of the stack that the body keeps to. -/
structure Allows (b : Body) (m : MethodRef) (R : Nat → Nat → Prop) : Prop where
  first : 0 < b.size → R 0 0
  handler : ∀ {h o i}, h ∈ b.handlers → o ∈ h.entries → b.indexOf? o = some i →
    R i h.kind.entryDepth
  leads : ∀ {i j depth instruction}, R i depth → b.code[i]? = some instruction →
    instruction.Applies m depth → b.Leads i j → R j (instruction.depthAfter m depth)

/-- The walk is on the body, and the relation holds of every frame that it holds. -/
structure Keeps (b : Body) (m : MethodRef) (R : Nat → Nat → Prop) (w : Interpreter) : Prop where
  method : w.method = m
  body : w.flow.body = b
  size : w.flow.waiting.size = w.flow.body.size
  held : ∀ {i frame}, w.Holds i frame → R i frame.length

/-- A frame that a walk holds behind the cursor, after an index was skipped, was held before. -/
theorem holds_of_skip {i : Nat} (h : (w.cleared.advance none).Holds i frame) :
    w.flow.Waits i frame ∧ i ≠ w.cursor := by
  rcases h with hw | ⟨_, _, hc⟩
  · exact (ControlFlow.waits_take.mp hw).symm
  · cases hc

variable {b : Body} {m : MethodRef} {R : Nat → Nat → Prop} {ran : Bool}

theorem Keeps.moves (hk : Keeps b m R w) (ha : Allows b m R) (hm : Moves w ran next) :
    Keeps b m R next := by
  cases hm with
  | skip _ _ =>
    refine ⟨hk.method, hk.body, (w.flow.size_setWaiting _ _).trans hk.size, fun hf => ?_⟩
    exact hk.held (.inl (holds_of_skip hf).1)
  | run hr =>
    refine ⟨hr.method.trans hk.method, hr.body.trans hk.body,
      hr.size.trans (hk.size.trans (congrArg Body.size hr.body.symm)), fun hf => ?_⟩
    rcases hr.source hf with hf | ⟨hl, hlength⟩
    · exact hk.held hf
    · obtain ⟨frame, harrived, rfl⟩ := hr.arrived
      have hcode := hr.code
      have happ := hr.applies
      rw [hk.body] at hl hcode
      rw [hk.method] at happ hlength
      exact hlength ▸ ha.leads (hk.held harrived) hcode happ hl

theorem Fresh.keeps (hf : Fresh m b w) (ha : Allows b m R) : Keeps b m R w where
  method := hf.method
  body := hf.body
  size := hf.size.trans (congrArg Body.size hf.body.symm)
  held := by
    rintro i frame (hw | ⟨rfl, hlt, hc⟩)
    · obtain ⟨h, hh, o, ho, hi, hl⟩ := hf.source hw
      exact hl ▸ ha.handler hh ho hi
    · cases hf.current.symm.trans hc
      rw [hf.cursor, hf.body] at hlt
      exact hf.cursor ▸ ha.first hlt

/-- Only what paths of the control flow graph reach is held. -/
theorem allows_reaches (b : Body) (m : MethodRef) : Allows b m fun i _ => b.Reaches i where
  first := .first
  handler := .handler
  leads hr _ _ hl := .leads hr hl

/-! A walk that jumps back once, over a handler and an instruction that nothing leads to. -/

def ping : MethodRef where
  declaring := ⟨"T", false⟩
  name := "Ping"
  parameters := []
  result := ⟨"System.Void", true⟩
  hasThis := false

def spinBody : Body where
  code := #[⟨0, .br, .target 2⟩, ⟨1, .call, .method ping⟩, ⟨2, .literal .null, .absent⟩,
    ⟨3, .brIf true, .target 1⟩, ⟨4, .ret, .absent⟩, ⟨5, .inert .nop, .absent⟩,
    ⟨6, .endfinally, .absent⟩]
  handlers := [⟨.finally, 0, 4, 6, none⟩]

/-- The walk before its first step. -/
def spin : Interpreter where
  method := ping
  flow := { ControlFlow.ofBody spinBody with
    waiting := #[none, none, none, none, none, none, some []] }

/-- The walk behind its only call, with the way out of the loop still to go. -/
def spinning : Interpreter where
  method := ping
  flow := { ControlFlow.ofBody spinBody with
    waiting := #[none, none, none, none, some [], none, some []]
    taken := [(3, 1)] }
  cursor := 2

def spinCall : CallEffect := ⟨.call, ping, [], none, 1⟩

def spinContext : Context := { store := { slots := #[.constant] }, calls := 1, instructions := 4 }

theorem start_spin : start ping spinBody {} = .ok (spin, {}) := rfl

theorem step_spin : spin.step {} = (.call spinCall, spinning, spinContext) := by cbv

theorem step_spinning : (spinning.step spinContext).1 = .finished := by decide +kernel

theorem driven_spin : Driven spin (spin.trace {}) spinning := .call .start step_spin

end Interpreter

end SinkTrace
