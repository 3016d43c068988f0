import SinkTrace.Proofs.Interpreter.CallSites
import SinkTrace.Proofs.Interpreter.CodeGraph

/-!
How many operands each instruction takes off the stack and puts on it, as its kind and operand
tell. Running an instruction agrees with these numbers, and with the control flow graph, whatever
the context holds.
-/

namespace SinkTrace

/-- Running an instruction with this opcode has a meaning. -/
def Opcode.isSupported : Opcode → Bool
  | .short _ | .jmp | .calli | .escape _ | .reserved _ => false
  | _ => true

/-- Operands that the instruction takes off the stack in a method `m`. -/
def Instruction.pops (m : MethodRef) (i : Instruction) : Nat :=
  match i.opcode with
  | .inert _ | .ldarg | .ldarga | .ldloc | .ldloca | .literal _ | .br | .leave | .endfinally
  | .rethrow | .ldsfld | .ldsflda | .token _ => 0
  | .starg | .stloc | .dup | .pop | .brIf _ | .switch | .endfilter | .throw | .unary _ | .inspect _
  | .ldind _ | .ldobj | .unboxAny | .initobj | .ldfld | .ldflda | .stsfld | .retype _
  | .newarr => 1
  | .compare _ | .binary _ | .stind _ | .stobj | .cpobj | .stfld | .ldelema | .ldelem _ => 2
  | .cpblk | .initblk | .stelem _ => 3
  | .ret => if m.returnsValue then 1 else 0
  | .call | .callvirt =>
    match i.operand with
    | .method callee => callee.formals.length
    | _ => 0
  | .newobj =>
    match i.operand with
    | .method callee => callee.parameters.length
    | _ => 0
  | .short _ | .jmp | .calli | .escape _ | .reserved _ => 0

/-- Operands that the instruction puts on the stack. -/
def Instruction.pushes (i : Instruction) : Nat :=
  match i.opcode with
  | .ldarg | .ldarga | .ldloc | .ldloca | .literal _ | .newobj | .binary _ | .unary _ | .inspect _
  | .ldind _ | .ldobj | .unboxAny | .ldfld | .ldflda | .ldsfld | .ldsflda | .retype _ | .token _
  | .newarr | .ldelema | .ldelem _ => 1
  | .dup => 2
  | .call | .callvirt =>
    match i.operand with
    | .method callee => if callee.returnsValue then 1 else 0
    | _ => 0
  | _ => 0

/-- The depth of the stack behind the instruction; `leave` empties the stack. -/
def Instruction.depthAfter (m : MethodRef) (i : Instruction) (depth : Nat) : Nat :=
  if i.opcode = .leave then 0 else depth - i.pops m + i.pushes

/-- The depth of the stack with which control enters a handler. -/
def HandlerKind.entryDepth : HandlerKind → Nat
  | .catch | .filter => 1
  | .finally | .fault => 0

/-- The fault lies in the depth of the stack. -/
def Failure.OfDepth : Failure → Prop
  | .stackUnderflow .. | .stackDepthMismatch .. => True
  | _ => False

namespace Exec

variable {α β : Type} {F : Failure → Prop} {P : α → Prop} {Q : β → Prop}

/-- The computation gives something of one kind, or fails in one way. -/
def Meets (F : Failure → Prop) (P : α → Prop) (x : Exec α) : Prop :=
  ∀ c, match x c with
    | .ok a _ => P a
    | .error failure _ => F failure

theorem meets_pure {a : α} (ha : P a) : Meets F P (pure a) := fun _ => ha

theorem meets_throw {failure : Failure} (hf : F failure) : Meets F P (throw failure : Exec α) :=
  fun _ => hf

theorem meets_imp {R : α → Prop} {x : Exec α} (hx : Meets F P x) (hPR : ∀ a, P a → R a) :
    Meets F R x := by
  intro c
  have hc := hx c
  cases he : x c with
  | ok a c' =>
    rw [he] at hc
    exact hPR a hc
  | error failure c' =>
    rw [he] at hc
    exact hc

theorem meets_bind {x : Exec α} {f : α → Exec β} (hx : Meets F P x)
    (hf : ∀ a, P a → Meets F Q (f a)) : Meets F Q (x >>= f) := by
  intro c
  have hfirst := hx c
  change match EStateM.bind x f c with | .ok b _ => Q b | .error failure _ => F failure
  unfold EStateM.bind
  cases he : x c with
  | ok a c' =>
    rw [he] at hfirst
    exact hf a hfirst c'
  | error failure c' =>
    rw [he] at hfirst
    exact hfirst

theorem meets_ite {p : Prop} [Decidable p] {x y : Exec α} (hx : p → Meets F P x)
    (hy : ¬ p → Meets F P y) : Meets F P (if p then x else y) := by
  split
  · exact hx ‹_›
  · exact hy ‹_›

/-- The computation does not fail. -/
def Succeeds (x : Exec α) : Prop := ∀ F, Meets F (fun _ => True) x

/-- What goes before can be anything that does not fail. -/
theorem meets_after {x : Exec α} {f : α → Exec β} (hx : Succeeds x)
    (hf : ∀ a, Meets F Q (f a)) : Meets F Q (x >>= f) :=
  meets_bind (hx F) fun a _ => hf a

theorem succeeds_onStore (f : Store → α × Store) : Succeeds (onStore f) := fun _ _ => trivial

theorem succeeds_onContext (f : Context → α × Context) : Succeeds (onContext f) :=
  fun _ _ => trivial

theorem succeeds_modify (f : Context → Context) : Succeeds (modify f) := fun _ _ => trivial

theorem succeeds_get : Succeeds (get : Exec Context) := fun _ _ => trivial

theorem succeeds_pure (a : α) : Succeeds (pure a) := fun _ _ => trivial

theorem succeeds_bind {x : Exec α} {f : α → Exec β} (hx : Succeeds x) (hf : ∀ a, Succeeds (f a)) :
    Succeeds (x >>= f) := fun F => meets_after hx fun a => hf a F

theorem succeeds_ite {p : Prop} [Decidable p] {x y : Exec α} (hx : Succeeds x)
    (hy : Succeeds y) : Succeeds (if p then x else y) := by
  split
  · exact hx
  · exact hy

theorem succeeds_mapM {f : β → Exec α} (hf : ∀ b, Succeeds (f b)) (bs : List β) :
    Succeeds (bs.mapM f) := by
  induction bs with
  | nil => exact succeeds_pure _
  | cons b bs ih =>
    rw [List.mapM_cons]
    exact succeeds_bind (hf b) fun _ => succeeds_bind ih fun _ => succeeds_pure _

end Exec

/-- The instruction has a meaning on a stack of this depth. -/
structure Instruction.Applies (m : MethodRef) (i : Instruction) (depth : Nat) : Prop where
  supported : i.opcode.isSupported = true
  enough : i.pops m ≤ depth

/-- What running an instruction on a stack of some depth comes to. -/
def Flow.Suits (m : MethodRef) (i : Instruction) (depth : Nat) (flow : Flow) : Prop :=
  i.Applies m depth ∧ match flow with
    | .next frame | .call _ frame =>
      i.fallsThrough = true ∧ i.targets = [] ∧ frame.length = i.depthAfter m depth
    | .stop => i.fallsThrough = false ∧ i.targets = []
    | .branch targets conditional frame =>
      i.fallsThrough = conditional ∧ i.targets = targets ∧ frame.length = i.depthAfter m depth

/-- What running the instruction on a stack of some depth can fail with. It is no fault of the
stack, unless the stack was too small, and no fault of an opcode but its own. -/
structure Instruction.Lacks (m : MethodRef) (i : Instruction) (depth : Nat) (failure : Failure) :
    Prop where
  depth : failure.OfDepth → depth < i.pops m
  opcode : ∀ {opcode offset method}, failure = .unsupportedOpcode opcode offset method →
    opcode = i.opcode ∧ offset = i.offset ∧ method = m.signature ∧ i.opcode.isSupported = false

namespace Site

open Exec

variable {m : MethodRef} {i : Instruction} {depth : Nat}

theorem meets_invalid {α : Type} {P : α → Prop} (s : Site) (expected : Expected) :
    Meets (i.Lacks m depth) P (s.invalid expected : Exec α) := meets_throw ⟨fun h => h.elim, nofun⟩

theorem meets_argIndex (s : Site) : Meets (i.Lacks m depth) (fun _ => True) s.argIndex := by
  unfold argIndex
  split
  · exact meets_pure trivial
  · exact s.meets_invalid _

theorem meets_localIndex (s : Site) : Meets (i.Lacks m depth) (fun _ => True) s.localIndex := by
  unfold localIndex
  split
  · exact meets_pure trivial
  · exact s.meets_invalid _

theorem meets_target (s : Site) :
    Meets (i.Lacks m depth) (fun o => s.instruction.operand = .target o) s.target := by
  unfold target
  split
  · exact meets_pure ‹_›
  · exact s.meets_invalid _

theorem meets_table (s : Site) :
    Meets (i.Lacks m depth) (fun os => s.instruction.operand = .targets os) s.table := by
  unfold table
  split
  · exact meets_pure ‹_›
  · exact s.meets_invalid _

theorem meets_methodRef (s : Site) :
    Meets (i.Lacks m depth) (fun callee => s.instruction.operand = .method callee) s.methodRef := by
  unfold methodRef
  split
  · exact meets_pure ‹_›
  · exact s.meets_invalid _

theorem meets_fieldRef (s : Site) : Meets (i.Lacks m depth) (fun _ => True) s.fieldRef := by
  unfold fieldRef
  split
  · exact meets_pure trivial
  · exact s.meets_invalid _

theorem meets_typeRef (s : Site) : Meets (i.Lacks m depth) (fun _ => True) s.typeRef := by
  unfold typeRef
  split
  · exact meets_pure trivial
  · exact s.meets_invalid _

theorem meets_argumentSlot (s : Site) (index : Nat) :
    Meets (i.Lacks m depth) (fun _ => True) (s.argumentSlot index) := by
  refine meets_after succeeds_get fun c => ?_
  split
  · exact meets_pure trivial
  · exact s.meets_invalid _

theorem meets_handlesReference (s : Site) (kind : ValueKind) :
    Meets (i.Lacks m depth) (fun _ => True) (s.handlesReference kind) := by
  unfold handlesReference
  split
  · exact meets_pure trivial
  · exact meets_bind s.meets_typeRef fun _ _ => meets_pure trivial
  · exact meets_pure trivial

theorem meets_pop (s : Site) {frame : Frame} (hlack : frame = [] → depth < i.pops m) :
    Meets (i.Lacks m depth) (fun r => frame = r.1 :: r.2) (s.pop frame) := by
  cases frame with
  | nil => exact meets_throw ⟨fun _ => hlack rfl, nofun⟩
  | cons slot frame => exact meets_pure rfl

theorem meets_popMany (s : Site) (n : Nat) (frame : Frame) (popped : List SlotId)
    (hlack : frame.length < n → depth < i.pops m) :
    Meets (i.Lacks m depth) (fun r => frame.length = n + r.2.length)
      (s.popMany n frame popped) := by
  induction n generalizing frame popped with
  | zero => exact meets_pure (Nat.zero_add _).symm
  | succ n ih =>
    refine meets_bind (s.meets_pop fun he => hlack (by simp [he])) ?_
    rintro ⟨slot, rest⟩ rfl
    refine meets_imp (ih rest _ fun hlt => hlack (Nat.succ_lt_succ hlt)) fun r hr => ?_
    rw [List.length_cons, hr]
    omega

theorem meets_countCall : Meets (i.Lacks m depth) (fun _ => True) countCall := by
  intro c
  rcases countCall_cases c with h | h
  · rw [h]
    trivial
  · rw [h]
    exact ⟨fun h => h.elim, nofun⟩

theorem succeeds_parameter (slot : SlotId) (type : TypeRef) : Succeeds (parameter slot type) :=
  succeeds_ite (succeeds_pure _) (succeeds_onStore _)

theorem succeeds_newValue (type : TypeRef) (origin : Origin) :
    Succeeds (newValue type origin) := by
  refine succeeds_ite ?_ ?_
  · exact succeeds_bind (succeeds_onStore _) fun _ => succeeds_pure _
  · exact succeeds_bind (succeeds_onStore _) fun _ =>
      succeeds_bind (succeeds_onStore _) fun _ => succeeds_pure _

end Site

open Exec

section Leaves

variable {m : MethodRef} {i : Instruction} {depth : Nat}

theorem Flow.suits_next {frame : Frame} (hp : i.Applies m depth) (hf : i.fallsThrough = true)
    (ht : i.targets = []) (hl : frame.length = i.depthAfter m depth) :
    Meets (i.Lacks m depth) (Flow.Suits m i depth) (pure (.next frame)) :=
  meets_pure ⟨hp, hf, ht, hl⟩

theorem Flow.suits_pushFake {frame : Frame} (hp : i.Applies m depth) (hf : i.fallsThrough = true)
    (ht : i.targets = []) (hl : frame.length + 1 = i.depthAfter m depth) :
    Meets (i.Lacks m depth) (Flow.Suits m i depth) (pushFake frame) :=
  meets_after (succeeds_onStore _) fun _ => Flow.suits_next hp hf ht hl

theorem Flow.suits_pushEntity {frame : Frame} {e : EntityId} (hp : i.Applies m depth)
    (hf : i.fallsThrough = true) (ht : i.targets = [])
    (hl : frame.length + 1 = i.depthAfter m depth) :
    Meets (i.Lacks m depth) (Flow.Suits m i depth) (pushEntity frame e) :=
  meets_after (succeeds_onStore _) fun _ => Flow.suits_next hp hf ht hl

theorem Flow.suits_pushTyped {frame : Frame} {type : TypeRef} {slot : SlotId}
    (hp : i.Applies m depth) (hf : i.fallsThrough = true) (ht : i.targets = [])
    (hl : frame.length + 1 = i.depthAfter m depth) :
    Meets (i.Lacks m depth) (Flow.Suits m i depth) (pushTyped frame type slot) :=
  meets_ite (fun _ => Flow.suits_pushFake hp hf ht hl) fun _ => Flow.suits_next hp hf ht hl

end Leaves

theorem Site.meets_call (m : MethodRef) (s : Site) (kind : EffectKind) (frame : Frame)
    (hk : s.instruction.opcode = kind.opcode) :
    Meets (s.instruction.Lacks m frame.length) (Flow.Suits m s.instruction frame.length)
      (s.call kind frame) := by
  obtain ⟨method, offset, opcode, operand⟩ := s
  change opcode = kind.opcode at hk
  subst hk
  refine meets_bind (meets_methodRef _) fun callee hcallee => ?_
  change operand = .method callee at hcallee
  subst hcallee
  refine meets_bind meets_countCall fun _ _ => ?_
  have hpops : Instruction.pops m ⟨offset, kind.opcode, .method callee⟩ =
      (if kind = .newobj then callee.parameters else callee.formals).length := by
    cases kind <;> rfl
  refine meets_bind (meets_popMany _ _ frame [] fun hlt => hpops ▸ hlt) fun r hr => ?_
  rw [← hpops] at hr
  refine meets_after (succeeds_mapM (fun _ => succeeds_parameter _ _) _) fun parameters => ?_
  have hafter : Instruction.depthAfter m ⟨offset, kind.opcode, .method callee⟩ frame.length =
      r.2.length + Instruction.pushes ⟨offset, kind.opcode, .method callee⟩ := by
    have hne : kind.opcode ≠ .leave := by cases kind <;> nofun
    rw [Instruction.depthAfter, if_neg hne, hr]
    omega
  have hle : Instruction.Applies m ⟨offset, kind.opcode, .method callee⟩ frame.length :=
    ⟨by cases kind <;> rfl, by omega⟩
  have hfalls : Instruction.fallsThrough ⟨offset, kind.opcode, .method callee⟩ = true := by
    cases kind <;> rfl
  have htargets : Instruction.targets ⟨offset, kind.opcode, .method callee⟩ = [] := by
    cases kind <;> rfl
  refine meets_ite (fun hnew => ?_) fun hold => ?_
  · subst hnew
    refine meets_after (succeeds_newValue _ _) fun _ => meets_pure ⟨hle, hfalls, htargets, ?_⟩
    exact hafter.symm
  · have hpush : Instruction.pushes ⟨offset, kind.opcode, .method callee⟩ =
        if callee.returnsValue then 1 else 0 := by
      cases kind <;> first | rfl | exact absurd rfl hold
    refine meets_ite (fun hvalue => ?_) fun hvoid => ?_
    · refine meets_after (succeeds_newValue _ _) fun _ => meets_pure ⟨hle, hfalls, htargets, ?_⟩
      rw [hafter, hpush, if_pos hvalue]
      rfl
    · refine meets_pure ⟨hle, hfalls, htargets, ?_⟩
      rw [hafter, hpush, if_neg hvoid]
      rfl

theorem meets_execute (m : MethodRef) (straight : Bool) (i : Instruction) (frame : Frame) :
    Meets (i.Lacks m frame.length) (Flow.Suits m i frame.length) (execute m straight i frame) := by
  obtain ⟨offset, opcode, operand⟩ := i
  cases opcode with
  | call => exact Site.meets_call m ⟨m.signature, _⟩ .call frame rfl
  | callvirt => exact Site.meets_call m ⟨m.signature, _⟩ .callvirt frame rfl
  | newobj => exact Site.meets_call m ⟨m.signature, _⟩ .newobj frame rfl
  | ret =>
    have hpops : Instruction.pops m ⟨offset, .ret, operand⟩ = if m.returnsValue then 1 else 0 := rfl
    refine meets_ite (fun hvalue => ?_) fun hvoid => ?_
    · rw [if_pos hvalue] at hpops
      refine meets_bind (Site.meets_pop _ fun he => by simp [he, hpops]) ?_
      rintro ⟨value, rest⟩ rfl
      have hstop : Flow.Suits m ⟨offset, .ret, operand⟩ (value :: rest).length .stop :=
        ⟨⟨rfl, by simp [hpops]⟩, rfl, rfl⟩
      refine meets_ite (fun _ => ?_) fun _ => meets_pure hstop
      exact meets_after (succeeds_modify _) fun _ => meets_pure hstop
    · rw [if_neg hvoid] at hpops
      exact meets_pure ⟨⟨rfl, by simp [hpops]⟩, rfl, rfl⟩
  | br | leave =>
    refine meets_bind (Site.meets_target _) fun o ho => ?_
    obtain rfl : operand = .target o := ho
    exact meets_pure ⟨⟨rfl, Nat.zero_le _⟩, rfl, rfl, rfl⟩
  | brIf onTrue =>
    refine meets_bind (Site.meets_pop _ fun he => by simp [he, Instruction.pops]) ?_
    rintro ⟨test, rest⟩ rfl
    refine meets_bind (Site.meets_target _) fun o ho => ?_
    obtain rfl : operand = .target o := ho
    exact meets_pure ⟨⟨rfl, Nat.le_add_left _ _⟩, rfl, rfl, rfl⟩
  | compare test =>
    refine meets_bind (Site.meets_pop _ fun he => by simp [he, Instruction.pops]) ?_
    rintro ⟨right, rest⟩ rfl
    refine meets_bind (Site.meets_pop _ fun he => by simp [he, Instruction.pops]) ?_
    rintro ⟨left, rest⟩ rfl
    refine meets_bind (Site.meets_target _) fun o ho => ?_
    obtain rfl : operand = .target o := ho
    exact meets_pure ⟨⟨rfl, Nat.le_add_left _ _⟩, rfl, rfl, rfl⟩
  | switch =>
    refine meets_bind (Site.meets_pop _ fun he => by simp [he, Instruction.pops]) ?_
    rintro ⟨index, rest⟩ rfl
    refine meets_bind (Site.meets_table _) fun os hos => ?_
    obtain rfl : operand = .targets os := hos
    exact meets_pure ⟨⟨rfl, Nat.le_add_left _ _⟩, rfl, rfl, rfl⟩
  | endfinally | rethrow => exact meets_pure ⟨⟨rfl, Nat.zero_le _⟩, rfl, rfl⟩
  | endfilter | throw =>
    refine meets_bind (Site.meets_pop _ fun he => by simp [he, Instruction.pops]) ?_
    rintro ⟨value, rest⟩ rfl
    exact meets_pure ⟨⟨rfl, Nat.le_add_left _ _⟩, rfl, rfl⟩
  | short _ | jmp | calli | escape _ | reserved _ =>
    refine meets_throw ⟨fun h => h.elim, fun heq => ?_⟩
    cases heq
    exact ⟨rfl, rfl, rfl, rfl⟩
  | cpblk | initblk =>
    refine meets_bind (Site.meets_popMany _ 3 frame [] id) fun r hr => ?_
    refine Flow.suits_next ⟨rfl, ?_⟩ rfl rfl ?_
    all_goals
      simp only [Instruction.pops, Instruction.depthAfter, Instruction.pushes]
      grind
  | stsfld =>
    refine meets_bind (Site.meets_fieldRef _) fun field _ => ?_
    refine meets_bind (Site.meets_pop _ fun he => by simp [he, Instruction.pops]) ?_
    rintro ⟨value, rest⟩ rfl
    have hnext : Meets (Instruction.Lacks m ⟨offset, .stsfld, operand⟩ (value :: rest).length)
        (Flow.Suits m ⟨offset, .stsfld, operand⟩ (value :: rest).length) (pure (.next rest)) :=
      Flow.suits_next ⟨rfl, Nat.le_add_left _ _⟩ rfl rfl rfl
    refine meets_ite (fun _ => ?_) fun _ => hnext
    refine meets_after (succeeds_onStore _) fun stored => ?_
    cases stored with
    | none => exact hnext
    | some e => exact meets_after (succeeds_modify _) fun _ => hnext
  | _ =>
    -- the others read their operand, pop, work on the context, and push at most one value
    simp only [execute]
    repeat' first
      | with_reducible refine Flow.suits_next ⟨rfl, ?_⟩ rfl rfl ?_
      | with_reducible refine Flow.suits_pushFake ⟨rfl, ?_⟩ rfl rfl ?_
      | with_reducible refine Flow.suits_pushEntity ⟨rfl, ?_⟩ rfl rfl ?_
      | with_reducible refine Flow.suits_pushTyped ⟨rfl, ?_⟩ rfl rfl ?_
      | (with_reducible refine meets_bind (Site.meets_pop _ ?_) ?_
         on_goal 2 => rintro ⟨value, frame⟩ rfl)
      | (rintro rfl; simp [Instruction.pops])
      | with_reducible refine meets_bind (Site.meets_argIndex _) fun _ _ => ?_
      | with_reducible refine meets_bind (Site.meets_localIndex _) fun _ _ => ?_
      | with_reducible refine meets_bind (Site.meets_fieldRef _) fun _ _ => ?_
      | with_reducible refine meets_bind (Site.meets_typeRef _) fun _ _ => ?_
      | with_reducible refine meets_bind (Site.meets_argumentSlot _ _) fun _ _ => ?_
      | with_reducible refine meets_bind (Site.meets_handlesReference _ _) fun _ _ => ?_
      | with_reducible refine meets_after (succeeds_onStore _) fun _ => ?_
      | with_reducible refine meets_after (succeeds_onContext _) fun _ => ?_
      | with_reducible refine meets_after (succeeds_modify _) fun _ => ?_
      | with_reducible refine meets_ite (fun _ => ?_) fun _ => ?_
      | simp [Instruction.pops, Instruction.depthAfter, Instruction.pushes]

end SinkTrace
