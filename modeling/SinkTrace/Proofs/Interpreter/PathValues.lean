import SinkTrace.Proofs.Interpreter.SlotValues

/-!
What a path through a body does with values, where the body only moves them about: between
arguments, stack and locals. A value that came in as an argument is known by its index; all others
are alike. Running an instruction keeps up with every path that comes to it.
-/

namespace SinkTrace

/-- The stack, from the top, and the locals. -/
structure PathState where
  stack : List (Option Nat) := []
  locals : Nat → Option Nat := fun _ => none

namespace Instruction

/-- The instruction only moves values about, and its operand fits. -/
def Plain (m : MethodRef) (i : Instruction) : Prop :=
  match i.opcode, i.operand with
  | .inert _, _ | .dup, _ | .pop, _ | .literal _, _ | .ret, _ => True
  | .ldarg, .arg index => index < m.formals.length
  | .ldloc, .local _ | .stloc, .local _ | .br, .target _ | .brIf _, .target _ => True
  | _, _ => False

instance (m : MethodRef) (i : Instruction) : Decidable (i.Plain m) := by
  unfold Plain
  split <;> infer_instance

/-- Ordinary assignment. A stack that is too small has no next state. -/
def assign (i : Instruction) (s : PathState) : Option PathState :=
  match i.opcode, i.operand, s.stack with
  | .inert _, _, _ | .br, _, _ => some s
  | .ldarg, .arg index, stack => some { s with stack := some index :: stack }
  | .ldloc, .local index, stack => some { s with stack := s.locals index :: stack }
  | .stloc, .local index, value :: stack =>
    some { stack, locals := Function.update s.locals index value }
  | .literal _, _, stack => some { s with stack := none :: stack }
  | .dup, _, value :: stack => some { s with stack := value :: value :: stack }
  | .pop, _, _ :: stack | .brIf _, _, _ :: stack => some { s with stack }
  | .ret, _, _ => some { s with stack := [] }
  | _, _, _ => none

end Instruction

namespace Body

/-- The body only moves values about, and its branches lead somewhere. -/
structure Plain (b : Body) (m : MethodRef) : Prop where
  code : ∀ {i : Nat} {instruction : Instruction}, b.code[i]? = some instruction →
    instruction.Plain m
  targets : ∀ {i : Nat} {instruction : Instruction}, b.code[i]? = some instruction →
    ∀ o ∈ instruction.targets, ∃ j, b.indexOf? o = some j

/-- One instruction of a path, and the way on to another one. -/
structure Goes (b : Body) (i : Nat) (s : PathState) (j : Nat) (s' : PathState) : Prop where
  leads : b.Leads i j
  assign : ∃ instruction, b.code[i]? = some instruction ∧ instruction.assign s = some s'

/-- The paths from the first instruction on, with the jumps back that they make, the latest one
first, and the values with which they come to an instruction. -/
inductive Path (b : Body) : List Edge → Nat → PathState → Prop where
  | enter (hb : 0 < b.size) : Path b [] 0 {}
  | onward {back : List Edge} {i j : Nat} {s s' : PathState} (hp : Path b back i s)
    (hg : b.Goes i s j s') (hlt : i < j) : Path b back j s'
  | jumpBack {back : List Edge} {i j : Nat} {s s' : PathState} (hp : Path b back i s)
    (hg : b.Goes i s j s') (hle : j ≤ i) : Path b ((i, j) :: back) j s'

end Body

namespace Context

variable {c c' c'' : Context} {m : MethodRef} {s s' : PathState} {frame frame' : Frame}
  {slot : SlotId} {value : Option Nat}

/-- If the value is that of an argument with an entity, the slot holds the entity. -/
def Reads (c : Context) (slot : SlotId) (value : Option Nat) : Prop :=
  ∀ a e, value = some a → c.formal? a = some e → c.store.Holds slot e

/-- The entities that a local may hold, if it was assigned. -/
def held (c : Context) (l : Nat) : Option (List EntityId) :=
  (c.locals.get? l).map fun slot => (c.store.materialize slot).1

/-- The locals hold what they hold on the path. -/
def CoversLocals (c : Context) (s : PathState) : Prop :=
  ∀ l a e, s.locals l = some a → c.formal? a = some e →
    ∃ slot, c.locals.get? l = some slot ∧ c.store.Holds slot e

/-- And so does the stack. -/
structure Covers (c : Context) (frame : Frame) (s : PathState) : Prop where
  stack : List.Forall₂ c.Reads frame s.stack
  locals : c.CoversLocals s

/-- Arguments are bound to what came in, and no load is pending. -/
structure Ready (m : MethodRef) (c : Context) : Prop where
  calm : c.store.Calm
  bound : ∀ a < m.formals.length, ∃ slot, c.argument? a = some slot ∧ c.Reads slot (some a)

/-- Values may have come in addition to what slots and locals held. -/
structure Gains (c c' : Context) : Prop where
  grows : c.store.Grows c'.store
  arguments : c'.arguments = c.arguments
  formals : c'.formals = c.formals
  locals : ∀ {l a}, c.locals.get? l = some a →
    ∃ b, c'.locals.get? l = some b ∧ c.store.Passes a c'.store b

theorem Gains.of_grows {store : Store} (hg : c.store.Grows store) :
    c.Gains { c with store } :=
  ⟨hg, rfl, rfl, fun {_ a} ha => ⟨a, ha, hg.passes a⟩⟩

theorem Gains.refl (hc : c.store.Calm) : c.Gains c := .of_grows (.refl hc)

theorem Gains.trans (h₁ : c.Gains c') (h₂ : c'.Gains c'') : c.Gains c'' where
  grows := h₁.grows.trans h₂.grows
  arguments := h₂.arguments.trans h₁.arguments
  formals := h₂.formals.trans h₁.formals
  locals hl := by
    obtain ⟨b, hb, hp⟩ := h₁.locals hl
    obtain ⟨d, hd, hp'⟩ := h₂.locals hb
    exact ⟨d, hd, hp.trans hp'⟩

theorem Gains.formal? (hg : c.Gains c') (a : Nat) : c'.formal? a = c.formal? a := by
  rw [Context.formal?, Context.formal?, hg.formals]

theorem Gains.reads (hg : c.Gains c') {slot' : SlotId} (hr : c.Reads slot value)
    (hp : c.store.Passes slot c'.store slot') : c'.Reads slot' value :=
  fun a e hv he => hp e (hr a e hv (hg.formal? a ▸ he))

theorem Gains.ready (hg : c.Gains c') (hr : c.Ready m) : c'.Ready m := by
  refine ⟨hg.grows.calm, fun a ha => ?_⟩
  obtain ⟨slot, hs, hread⟩ := hr.bound a ha
  refine ⟨slot, ?_, hg.reads hread (hg.grows.passes slot)⟩
  rw [argument?, hg.arguments]
  exact hs

theorem reads_none : c.Reads slot none := nofun

theorem Gains.readsAll (hg : c.Gains c') {stack : List (Option Nat)}
    (hp : c.store.PassesAll frame c'.store frame') (hs : List.Forall₂ c.Reads frame stack) :
    List.Forall₂ c'.Reads frame' stack := by
  induction hs generalizing frame' with
  | nil =>
    cases hp
    exact .nil
  | cons hread _ ih =>
    cases hp with
    | cons hpass hp => exact .cons (hg.reads hread hpass) (ih hp)

theorem CoversLocals.gains (hv : c.CoversLocals s) (hg : c.Gains c') : c'.CoversLocals s := by
  intro l a e hl he
  obtain ⟨slot, hs, hh⟩ := hv l a e hl (hg.formal? a ▸ he)
  obtain ⟨slot', hs', hp⟩ := hg.locals hs
  exact ⟨slot', hs', hp e hh⟩

/-- The frame passes on what it holds to another one. -/
theorem Covers.gains (hv : c.Covers frame s) (hg : c.Gains c')
    (hp : c.store.PassesAll frame c'.store frame') : c'.Covers frame' s :=
  ⟨hg.readsAll hp hv.stack, hv.locals.gains hg⟩

theorem Covers.gains_self (hv : c.Covers frame s) (hg : c.Gains c') : c'.Covers frame s :=
  hv.gains hg (hg.grows.passesAll frame)

theorem Covers.push (hv : c.Covers frame s) (hr : c.Reads slot value) :
    c.Covers (slot :: frame) { s with stack := value :: s.stack } :=
  ⟨.cons hr hv.stack, hv.locals⟩

theorem Covers.pop {stack : List (Option Nat)} (hv : c.Covers (slot :: frame) s)
    (hs : s.stack = value :: stack) : c.Reads slot value ∧ c.Covers frame { s with stack } := by
  have hstack := hv.stack
  rw [hs] at hstack
  cases hstack with
  | cons hread hrest => exact ⟨hread, hrest, hv.locals⟩

end Context

/-- The stack with which the path goes on. -/
def Flow.frame : Flow → Frame
  | .next frame | .branch _ _ frame | .call _ frame => frame
  | .stop => []

/-- The instruction was run without a call, and with whatever paths do. -/
structure Flow.Follows (i : Instruction) (c : Context) (frame : Frame) (flow : Flow)
    (c' : Context) : Prop where
  gains : c.Gains c'
  stays : ∀ e after, flow ≠ .call e after
  covers : ∀ {s s'}, c.Covers frame s → i.assign s = some s' → c'.Covers flow.frame s'

namespace Context

variable {m : MethodRef} {c : Context} {s : PathState} {frame : Frame}

theorem gains_loadLocal (hc : c.store.Calm) (l : Nat) : c.Gains (c.loadLocal l).2 := by
  unfold loadLocal
  split
  · exact .refl hc
  · refine .of_grows ?_
    split
    · exact hc.fake
    · exact hc.constant

theorem Covers.reads_loadLocal (hv : c.Covers frame s) (hc : c.store.Calm) (l : Nat) :
    (c.loadLocal l).2.Reads (c.loadLocal l).1 (s.locals l) := by
  intro a e ha he
  rw [(gains_loadLocal hc l).formal?] at he
  obtain ⟨slot, hs, hh⟩ := hv.locals l a e ha he
  rw [loadLocal, hs]
  exact hh

theorem gains_storeLocal (hc : c.store.Calm) (l : Nat) (slot : SlotId) :
    c.Gains (c.storeLocal l slot) := by
  obtain ⟨hg, hkept, _⟩ := SlotTable.store_passes (t := c.locals) hc l slot
  exact ⟨hg, rfl, rfl, hkept⟩

theorem gains_recordReturn (hc : c.store.Calm) (slot : SlotId) : c.Gains (c.recordReturn slot) := by
  unfold recordReturn
  split
  · rename_i existing _
    have hg := (hc.union existing slot).1
    exact ⟨hg, rfl, rfl, fun {_ a} ha => ⟨a, ha, hg.passes a⟩⟩
  · exact ⟨.refl hc, rfl, rfl, fun {_ a} ha => ⟨a, ha, fun _ => id⟩⟩

/-- A local that is assigned holds the value in addition. -/
theorem Covers.storeLocal {slot : SlotId} {value : Option Nat} {stack : List (Option Nat)}
    (hv : c.Covers (slot :: frame) s) (hs : s.stack = value :: stack) (hc : c.store.Calm)
    (l : Nat) :
    (c.storeLocal l slot).Covers frame
      { stack, locals := Function.update s.locals l value } := by
  have hgains := gains_storeLocal hc l slot
  obtain ⟨hread, hbefore⟩ := hv.pop hs
  refine ⟨(hbefore.gains_self hgains).stack, fun i a e hi he => ?_⟩
  simp only [Function.update_apply] at hi
  split at hi
  · rename_i hil
    obtain ⟨_, _, b, hb, hp⟩ := SlotTable.store_passes (t := c.locals) hc l slot
    exact ⟨b, hil ▸ hb, hp e (hread a e hi (hgains.formal? a ▸ he))⟩
  · exact (hbefore.gains_self hgains).locals i a e hi he

/-! A fresh activation. -/

/-- The first formals are bound to what came in. -/
structure Bound (n : Nat) (c : Context) : Prop where
  calm : c.store.Calm
  length : c.formals.length = n
  bound : ∀ a < n, ∃ slot, c.argument? a = some slot ∧ c.Reads slot (some a)

theorem Bound.append {n : Nat} (hb : c.Bound n) {store : Store} {slot : SlotId}
    {formal : Option EntityId} (hg : c.store.Grows store)
    (hnew : ∀ e, formal = some e → store.Holds slot e) (types : List TypeRef) :
    Bound (n + 1) { c with store, arguments := c.arguments.insert c.formals.length slot
                           formals := c.formals ++ [formal], formalTypes := types } := by
  refine ⟨hg.calm, by simp [hb.length], fun a ha => ?_⟩
  rcases Nat.lt_succ_iff_lt_or_eq.mp ha with hlt | rfl
  · obtain ⟨old, hs, hread⟩ := hb.bound a hlt
    have hlt' : a < c.formals.length := hb.length.symm ▸ hlt
    refine ⟨old, (Table.get?_insert_of_ne _ (Nat.ne_of_lt hlt') _).trans hs, fun k e hk he => ?_⟩
    cases hk
    rw [formal?, List.getElem?_append_left hlt'] at he
    exact hg.passes old e (hread a e rfl he)
  · refine ⟨slot, ?_, fun k e hk he => ?_⟩
    · rw [argument?, ← hb.length]
      exact Table.get?_insert_self _ _ _
    · cases hk
      rw [formal?, ← hb.length, List.getElem?_concat_length] at he
      exact hnew e he

theorem Bound.addFormal {n : Nat} (hb : c.Bound n) (t : TypeRef) :
    (c.addFormal t).Bound (n + 1) := by
  unfold Context.addFormal
  simp only
  split
  · refine hb.append hb.calm.fake ?_ _
    rintro e ⟨⟩
  · have hg := hb.calm.create (.argument c.formals.length)
    refine hb.append (hg.trans (hg.calm.entitySlot _)) ?_ _
    rintro e ⟨⟩
    exact Store.holds_entitySlot (Store.find_create_self c.store _)

theorem ready_start (m : MethodRef) (locals : List TypeRef) (statics : Bool) :
    (start m locals statics).Ready m := by
  have hall : ∀ (ts : List TypeRef) (n : Nat) (c : Context), c.Bound n →
      (ts.foldl Context.addFormal c).Bound (n + ts.length) := by
    intro ts
    induction ts with
    | nil => exact fun _ _ hb => hb
    | cons t ts ih =>
      intro n c hb
      have hrest := ih (n + 1) (c.addFormal t) (hb.addFormal t)
      rwa [Nat.add_right_comm] at hrest
  have hempty : ∀ c : Context, c.store.slots = #[] → c.formals = [] → c.Bound 0 := by
    intro c hs hf
    refine ⟨fun id loads => ?_, hf ▸ rfl, fun a ha => absurd ha (Nat.not_lt_zero a)⟩
    simp [Store.slot, hs]
  have hb : (start m locals statics).Bound (0 + m.formals.length) := by
    unfold start
    cases statics with
    | true => exact hall m.formals 0 _ (hempty _ rfl rfl)
    | false => exact hall m.formals 0 _ (hempty _ rfl rfl)
  rw [Nat.zero_add] at hb
  exact ⟨hb.calm, hb.bound⟩

end Context

open Context

variable {m : MethodRef} {i : Instruction} {c : Context} {frame : Frame}

/-- What is done with an argument that there is. -/
theorem bind_argumentSlot {α : Type} {index : Nat} {slot : SlotId} (s : Site)
    (h : c.argument? index = some slot) (f : SlotId → Exec α) :
    (s.argumentSlot index >>= f) c = f slot c := by
  have hslot : s.argumentSlot index c = .ok slot c := by
    have hget (g : Context → Exec SlotId) : (get >>= g) c = g c c := rfl
    rw [Site.argumentSlot, hget, h]
    rfl
  change EStateM.bind _ _ c = _
  rw [EStateM.bind, hslot]

/-- A return keeps what was returned before, and leaves no stack. -/
theorem ret_follows {offset : Offset} {operand : Operand} (hr : c.Ready m)
    (hp : Instruction.pops m ⟨offset, .ret, operand⟩ ≤ frame.length) (straight : Bool) :
    ∃ flow c', execute m straight ⟨offset, .ret, operand⟩ frame c = .ok flow c' ∧
      flow.Follows ⟨offset, .ret, operand⟩ c frame c' := by
  cases hvalue : m.returnsValue with
  | false =>
    refine ⟨.stop, c, ?_, .refl hr.calm, by simp, ?_⟩
    · rw [execute, hvalue]
      rfl
    · rintro s _ hv ⟨⟩
      exact ⟨.nil, hv.locals⟩
  | true =>
    cases frame with
    | nil => simp [Instruction.pops, hvalue] at hp
    | cons top frame =>
      have hg : c.Gains (if m.result.isSimple then c else c.recordReturn top) := by
        split
        · exact .refl hr.calm
        · exact gains_recordReturn hr.calm top
      refine ⟨.stop, _, ?_, hg, by simp, ?_⟩
      · rw [execute, hvalue]
        cases m.result.isSimple <;> rfl
      · rintro s _ hv ⟨⟩
        exact ⟨.nil, (hv.gains_self hg).locals⟩

theorem execute_follows (hi : i.Plain m) (hr : c.Ready m) (hp : i.pops m ≤ frame.length)
    (straight : Bool) : ∃ flow c', execute m straight i frame c = .ok flow c' ∧
      flow.Follows i c frame c' := by
  obtain ⟨offset, opcode, operand⟩ := i
  unfold Instruction.Plain at hi
  simp only at hi
  split at hi
  case h_1 => -- inert
    refine ⟨.next frame, c, rfl, .refl hr.calm, by simp, ?_⟩
    rintro s _ hv ⟨⟩
    exact hv
  case h_2 => -- dup
    cases frame with
    | nil => cases hp
    | cons top frame =>
      refine ⟨.next (top :: top :: frame), c, rfl, .refl hr.calm, by simp, ?_⟩
      rintro ⟨_ | ⟨value, stack⟩, locals⟩ s' hv ⟨⟩
      obtain ⟨hread, hrest⟩ := hv.pop rfl
      exact (hrest.push hread).push hread
  case h_3 => -- pop
    cases frame with
    | nil => cases hp
    | cons top frame =>
      refine ⟨.next frame, c, rfl, .refl hr.calm, by simp, ?_⟩
      rintro ⟨_ | ⟨value, stack⟩, locals⟩ s' hv ⟨⟩
      exact (hv.pop rfl).2
  case h_4 => -- literal
    have hg : c.Gains { c with store := c.store.constant.2 } := .of_grows hr.calm.constant
    refine ⟨.next (c.store.constant.1 :: frame), _, rfl, hg, by simp, ?_⟩
    rintro s _ hv ⟨⟩
    exact (hv.gains_self hg).push reads_none
  case h_5 => -- ret
    exact ret_follows hr hp straight
  case h_6 a => -- ldarg
    obtain ⟨slot, hs, hread⟩ := hr.bound a hi
    refine ⟨.next (slot :: frame), c, ?_, .refl hr.calm, by simp, ?_⟩
    · exact bind_argumentSlot ⟨m.signature, ⟨offset, .ldarg, .arg a⟩⟩ hs fun slot =>
        return Flow.next (slot :: frame)
    · rintro s _ hv ⟨⟩
      exact hv.push hread
  case h_7 l => -- ldloc
    have hg := gains_loadLocal hr.calm l
    refine ⟨.next ((c.loadLocal l).1 :: frame), (c.loadLocal l).2, rfl, hg, by simp, ?_⟩
    rintro s _ hv ⟨⟩
    exact (hv.gains_self hg).push (hv.reads_loadLocal hr.calm l)
  case h_8 l => -- stloc
    cases frame with
    | nil => cases hp
    | cons top frame =>
      refine ⟨.next frame, c.storeLocal l top, rfl, gains_storeLocal hr.calm l top, by simp, ?_⟩
      rintro ⟨_ | ⟨value, stack⟩, locals⟩ s' hv ⟨⟩
      exact hv.storeLocal rfl hr.calm l
  case h_9 => -- br
    refine ⟨.branch [_] false frame, c, rfl, .refl hr.calm, by simp, ?_⟩
    rintro s _ hv ⟨⟩
    exact hv
  case h_10 => -- brIf
    cases frame with
    | nil => cases hp
    | cons top frame =>
      refine ⟨.branch [_] true frame, c, rfl, .refl hr.calm, by simp, ?_⟩
      rintro ⟨_ | ⟨value, stack⟩, locals⟩ s' hv ⟨⟩
      exact (hv.pop rfl).2
  case h_11 => -- the others are not plain
    exact hi.elim

end SinkTrace
