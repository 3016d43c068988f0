import SinkTrace.Proofs.Interpreter.Edits
import SinkTrace.Proofs.Slots.Runs

/-!
Contexts that the interpreter can reach. Walking a body works on the store by operations on slots
and by operations of the heap on valid ids, so what runs of a store keep holds of every context.
-/

namespace SinkTrace

open Store (Steps)

namespace Store

variable {s s' s'' : Store} {e : EntityId}

theorem Steps.refl (s : Store) : Steps s s := Relation.ReflTransGen.refl

theorem Steps.trans (h : Steps s s') (h' : Steps s' s'') : Steps s s'' :=
  Relation.ReflTransGen.trans h h'

theorem Step.steps (h : Step s s') : Steps s s' := Relation.ReflTransGen.single h

theorem closed_steps : Closed Steps where
  refl := .refl
  trans := .trans
  fake _ := Step.fake.steps
  union _ a b := (Step.union a b).steps

theorem steps_create (s : Store) (origin : Origin) : Steps s (s.create origin).2 :=
  (Step.heap (.create (some origin))).steps

theorem create_lt (s : Store) (origin : Origin) :
    (s.create origin).1 < (s.create origin).2.heap.size := by
  change s.heap.size < (s.heap.create (some origin)).2.size
  rw [Heap.size_create]
  exact Nat.lt_succ_self _

theorem Sound.steps_storeFields (hs : s.Sound) {owners : List EntityId} {value : EntityId}
    (ho : ∀ owner ∈ owners, owner < s.heap.size) (hv : value < s.heap.size) (key : FieldName) :
    Steps s { s with heap := owners.foldl (fun h o => h.storeField o key value) s.heap } := by
  induction owners generalizing s with
  | nil => exact .refl _
  | cons owner owners ih =>
    have hstep : Heap.Step s.heap (s.heap.storeField owner key value) :=
      .storeField (ho owner (List.mem_cons_self ..)) hv key
    have he := hstep.evolves hs.heap
    exact (Step.heap hstep).steps.trans (ih (hs.withHeap he).sound
      (fun o hm => he.lt_size (ho o (List.mem_cons_of_mem _ hm))) (he.lt_size hv))

/-- The entity that is found in a slot is one of the heap. -/
theorem Sound.materializeSingle_lt (hs : s.Sound) {id : SlotId}
    (he : (s.materializeSingle id).1 = some e) : e < (s.materializeSingle id).2.heap.size := by
  cases hid : (s.slot id).isOpaque with
  | true =>
    rw [materializeSingle_of_isOpaque hid] at he
    cases he
  | false =>
    obtain ⟨e', he', hsingled⟩ := hs.singled_materializeSingle hid
    cases he.symm.trans he'
    exact hsingled.lt

theorem Sound.steps_storeThrough (hs : s.Sound) (address value : SlotId) :
    Steps s (s.storeThrough address value) := by
  have hfirst := hs.materializeSingle address
  have hsteps : Steps s (s.materializeSingle address).2 := (Step.materializeSingle address).steps
  unfold storeThrough
  split
  · rename_i s₁ he
    rwa [he] at hsteps
  · rename_i target s₁ he
    have htarget := @Sound.materializeSingle_lt s target hs address (congrArg Prod.fst he)
    rw [he] at hsteps hfirst htarget
    have hsecond := hfirst.sound.materializeSingle value
    have hsteps' : Steps s₁ (s₁.materializeSingle value).2 := (Step.materializeSingle value).steps
    split
    · rename_i s₂ he'
      rw [he'] at hsteps'
      exact hsteps.trans hsteps'
    · rename_i v s₂ he'
      have hv := @Sound.materializeSingle_lt s₁ v hfirst.sound value (congrArg Prod.fst he')
      rw [he'] at hsteps' hsecond hv
      exact hsteps.trans (hsteps'.trans (Step.heap (.merge
        (Nat.lt_of_lt_of_le htarget hsecond.grows.size) hv)).steps)

theorem Sound.steps_storeInto (hs : s.Sound) (owner : SlotId) (key : FieldName) (value : SlotId) :
    Steps s (s.storeInto owner key value) := by
  have hfirst := hs.materializeSingle value
  have hsteps : Steps s (s.materializeSingle value).2 := (Step.materializeSingle value).steps
  unfold storeInto
  split
  · rename_i s₁ he
    rwa [he] at hsteps
  · rename_i v s₁ he
    have hv := @Sound.materializeSingle_lt s v hs value (congrArg Prod.fst he)
    rw [he] at hsteps hfirst hv
    have hsecond := hfirst.sound.materialize owner
    refine hsteps.trans ((Step.materialize owner).steps.trans ?_)
    exact hsecond.sound.steps_storeFields (fun o hm => hfirst.sound.mem_materialize_lt hm)
      (Nat.lt_of_lt_of_le hv hsecond.grows.size) key

end Store

/-! Contexts. -/

namespace Context

/-- The store is sound, and the root of the static fields is in the heap. -/
structure Sound (c : Context) : Prop where
  store : c.store.Sound
  root : ∀ {r}, c.staticRoot = some r → r < c.heap.size

/-- What the interpreter may have done to a context. -/
structure Develops (c c' : Context) : Prop where
  steps : Steps c.store c'.store
  root : c'.staticRoot = c.staticRoot

variable {c c' c'' : Context}

theorem Develops.refl (c : Context) : Develops c c := ⟨.refl _, rfl⟩

theorem Develops.trans (h : Develops c c') (h' : Develops c' c'') : Develops c c'' :=
  ⟨h.steps.trans h'.steps, h'.root.trans h.root⟩

theorem Develops.sound (h : Develops c c') (hc : c.Sound) : c'.Sound where
  store := (h.steps.evolves hc.store).sound
  root hr := Nat.lt_of_lt_of_le (hc.root (h.root ▸ hr)) (h.steps.evolves hc.store).grows.size

end Context

theorem SlotTable.steps_store (t : SlotTable) (s : Store) (index : Nat) (slot : SlotId) :
    Steps s (t.store s index slot).2 := by
  unfold SlotTable.store
  split
  · exact (Store.Step.union _ slot).steps
  · exact .refl _

namespace Context

variable {c : Context}

theorem develops_storeArgument (c : Context) (index : Nat) (slot : SlotId) :
    Develops c (c.storeArgument index slot) := ⟨c.arguments.steps_store c.store index slot, rfl⟩

theorem develops_storeLocal (c : Context) (index : Nat) (slot : SlotId) :
    Develops c (c.storeLocal index slot) := ⟨c.locals.steps_store c.store index slot, rfl⟩

theorem develops_loadLocal (c : Context) (index : Nat) : Develops c (c.loadLocal index).2 := by
  unfold loadLocal
  split
  · exact .refl c
  · simp only
    split
    · exact ⟨Store.Step.fake.steps, rfl⟩
    · exact ⟨Store.Step.constant.steps, rfl⟩

theorem Sound.localAddress (hc : c.Sound) (index : Nat) : Develops c (c.localAddress index).2 ∧
    (c.localAddress index).1 < (c.localAddress index).2.heap.size := by
  unfold Context.localAddress
  cases c.locals.get? index with
  | some slot =>
    exact ⟨⟨(Store.Step.materializeOrCreate slot _).steps, rfl⟩,
      (hc.store.singled_materializeOrCreate slot _).lt⟩
  | none =>
    have hconstant : Steps c.store c.store.constant.2 := Store.Step.constant.steps
    exact ⟨⟨hconstant.trans (Store.Step.materializeOrCreate _ _).steps, rfl⟩,
      ((hconstant.evolves hc.store).sound.singled_materializeOrCreate _ _).lt⟩

theorem Sound.loadStatic (hc : c.Sound) (key : FieldName) : Develops c (c.loadStatic key).2 ∧
    (c.loadStatic key).1 < (c.loadStatic key).2.heap.size := by
  unfold Context.loadStatic
  cases hr : c.staticRoot with
  | some root =>
    have hroot := hc.root hr
    exact ⟨⟨(Store.Step.heap (.loadField hroot key)).steps, hr.symm ▸ rfl⟩,
      hc.store.heap.wellFormed.loadField_lt hroot key⟩
  | none => exact ⟨⟨c.store.steps_create .static, hr.symm ▸ rfl⟩, c.store.create_lt .static⟩

theorem Sound.storeStatic (hc : c.Sound) (key : FieldName) {value : EntityId}
    (hv : value < c.heap.size) : Develops c (c.storeStatic key value) := by
  unfold Context.storeStatic
  split
  · rename_i root hr
    exact ⟨(Store.Step.heap (.storeField (hc.root hr) hv key)).steps, rfl⟩
  · exact .refl c

theorem develops_recordReturn (c : Context) (slot : SlotId) :
    Develops c (c.recordReturn slot) := by
  unfold recordReturn
  split
  · exact ⟨(Store.Step.union _ slot).steps, rfl⟩
  · exact ⟨.refl _, rfl⟩

end Context

/-! Computations on contexts. -/

namespace Exec

variable {α β : Type}

/-- On a sound context of which `P` holds, the computation makes operations on slots and on valid
ids only, and `Q` holds of what it gives. -/
def Runs (P : Context → Prop) (Q : α → Context → Prop) (x : Exec α) : Prop :=
  ∀ c : Context, c.Sound → P c → c.Develops (x.after c) ∧ ∀ a c', x c = .ok a c' → Q a c'

/-- On every sound context, whatever it gives. -/
abbrev Safe (x : Exec α) : Prop := Runs (fun _ => True) (fun _ _ => True) x

/-- It gives an id of the heap. -/
abbrev Finds (x : Exec EntityId) : Prop := Runs (fun _ => True) (fun e c => e < c.heap.size) x

variable {P : Context → Prop} {Q : α → Context → Prop} {R : β → Context → Prop}

theorem runs_bind {x : Exec α} {f : α → Exec β} (hx : Runs P Q x)
    (hf : ∀ a, Runs (Q a) R (f a)) : Runs P R (x >>= f) := by
  intro c hc hp
  obtain ⟨hfirst, hgives⟩ := hx c hc hp
  have hbind : (x >>= f) c = EStateM.bind x f c := rfl
  unfold after at hfirst ⊢
  rw [hbind]
  unfold EStateM.bind
  cases he : x c with
  | ok a c' =>
    rw [he] at hfirst
    obtain ⟨hrest, hgives'⟩ := hf a c' (hfirst.sound hc) (hgives a c' he)
    exact ⟨hfirst.trans hrest, hgives'⟩
  | error failure c' =>
    rw [he] at hfirst
    exact ⟨hfirst, nofun⟩

theorem runs_pure {a : α} (h : ∀ c, P c → Q a c) : Runs P Q (pure a) := by
  intro c _ hp
  refine ⟨.refl c, ?_⟩
  rintro b c' ⟨⟩
  exact h c hp

theorem runs_modifyGet {f : Context → α × Context}
    (hf : ∀ c : Context, c.Sound → P c → c.Develops (f c).2 ∧ Q (f c).1 (f c).2) :
    Runs P Q (modifyGet f) := by
  intro c hc hp
  refine ⟨(hf c hc hp).1, ?_⟩
  rintro a c' ⟨⟩
  exact (hf c hc hp).2

theorem runs_onStore {f : Store → α × Store}
    (hf : ∀ c : Context, c.Sound → P c → Steps c.store (f c.store).2 ∧
      Q (f c.store).1 { c with store := (f c.store).2 }) : Runs P Q (onStore f) :=
  runs_modifyGet fun c hc hp => ⟨⟨(hf c hc hp).1, rfl⟩, (hf c hc hp).2⟩

@[simp]
theorem safe_pure (a : α) : Safe (pure a) := runs_pure fun _ _ => trivial

@[simp]
theorem safe_throw (failure : Failure) : Safe (throw failure : Exec α) :=
  fun c _ _ => ⟨.refl c, nofun⟩

@[simp]
theorem safe_get : Safe get := fun c _ _ => ⟨.refl c, fun _ _ _ => trivial⟩

@[simp]
theorem safe_bind {x : Exec α} {f : α → Exec β} (hx : Safe x) (hf : ∀ a, Safe (f a)) :
    Safe (x >>= f) := runs_bind hx hf

@[simp]
theorem safe_ite {p : Prop} [Decidable p] {x y : Exec α} (hx : Safe x) (hy : Safe y) :
    Safe (if p then x else y) := by
  split
  · exact hx
  · exact hy

@[simp]
theorem safe_onStore {f : Store → α × Store} (hf : ∀ s : Store, s.Sound → Steps s (f s).2) :
    Safe (onStore f) := runs_onStore fun c hc _ => ⟨hf c.store hc.store, trivial⟩

@[simp]
theorem safe_onContext {f : Context → α × Context}
    (hf : ∀ c : Context, c.Sound → c.Develops (f c).2) : Safe (onContext f) :=
  runs_modifyGet fun c hc _ => ⟨hf c hc, trivial⟩

@[simp]
theorem safe_modify {f : Context → Context} (hf : ∀ c : Context, c.Develops (f c)) :
    Safe (modify f) := runs_modifyGet fun c _ _ => ⟨hf c, trivial⟩

theorem safe_mapM {f : β → Exec α} (hf : ∀ b, Safe (f b)) (bs : List β) : Safe (bs.mapM f) := by
  induction bs with
  | nil => simp
  | cons b bs ih =>
    rw [List.mapM_cons]
    exact safe_bind (hf b) fun _ => safe_bind ih fun _ => safe_pure _

@[simp]
theorem safe_pushFake (frame : Frame) : Safe (pushFake frame) :=
  safe_bind (safe_onStore fun _ _ => Store.Step.fake.steps) fun _ => safe_pure _

@[simp]
theorem safe_pushTyped (frame : Frame) (type : TypeRef) (slot : SlotId) :
    Safe (pushTyped frame type slot) := safe_ite (safe_pushFake frame) (safe_pure _)

/-! Ids that are put on the stack. -/

theorem runs_entitySlot (e : EntityId) :
    Runs (fun c => e < c.heap.size) (fun _ _ => True) (onStore (·.entitySlot e)) :=
  runs_onStore fun _ _ he => ⟨(Store.Step.entitySlot he).steps, trivial⟩

theorem safe_bind_pushEntity {x : Exec EntityId} (hx : Finds x) (frame : Frame) :
    Safe (x >>= fun e => pushEntity frame e) :=
  runs_bind hx fun e => runs_bind (runs_entitySlot e) fun _ => safe_pure _

@[simp]
theorem finds_create (origin : Origin) : Finds (onStore (·.create origin)) :=
  runs_onStore fun c _ _ => ⟨c.store.steps_create origin, c.store.create_lt origin⟩

@[simp]
theorem finds_materializeOrCreate (slot : SlotId) (origin : Origin) :
    Finds (onStore (·.materializeOrCreate slot origin)) :=
  runs_onStore fun _ hc _ => ⟨(Store.Step.materializeOrCreate slot origin).steps,
    (hc.store.singled_materializeOrCreate slot origin).lt⟩

/-- A field of the entity in a slot. -/
theorem finds_fieldOf (slot : SlotId) (origin : Origin) (key : FieldName) :
    Finds (onStore (·.materializeOrCreate slot origin) >>= fun owner =>
      onStore (·.loadField owner key)) :=
  runs_bind (finds_materializeOrCreate slot origin) fun _ => runs_onStore fun _ hc ho =>
    ⟨(Store.Step.heap (.loadField ho key)).steps, hc.store.heap.wellFormed.loadField_lt ho key⟩

theorem safe_pushField (slot : SlotId) (origin : Origin) (key : FieldName) (frame : Frame) :
    Safe (onStore (·.materializeOrCreate slot origin) >>= fun owner =>
      onStore (·.loadField owner key) >>= fun e => pushEntity frame e) := by
  have hfield := safe_bind_pushEntity (finds_fieldOf slot origin key) frame
  rwa [bind_assoc] at hfield

@[simp]
theorem finds_localAddress (index : Nat) : Finds (onContext (·.localAddress index)) :=
  runs_modifyGet fun _ hc _ => hc.localAddress index

@[simp]
theorem finds_loadStatic (key : FieldName) : Finds (onContext (·.loadStatic key)) :=
  runs_modifyGet fun _ hc _ => hc.loadStatic key

end Exec

namespace Site

open Exec

variable (s : Site)

@[simp]
theorem safe_invalid {α : Type} (expected : Expected) : Safe (s.invalid expected : Exec α) :=
  safe_throw _

@[simp]
theorem safe_pop (frame : Frame) : Safe (s.pop frame) := by
  cases frame with
  | nil => exact safe_throw _
  | cons slot frame => exact safe_pure _

@[simp]
theorem safe_popMany (n : Nat) (frame : Frame) (popped : List SlotId) :
    Safe (s.popMany n frame popped) := by
  induction n generalizing frame popped with
  | zero => exact safe_pure _
  | succ n ih => exact safe_bind (s.safe_pop frame) fun _ => ih _ _

@[simp]
theorem safe_argIndex : Safe s.argIndex := by
  unfold argIndex
  split <;> simp

@[simp]
theorem safe_localIndex : Safe s.localIndex := by
  unfold localIndex
  split <;> simp

@[simp]
theorem safe_target : Safe s.target := by
  unfold target
  split <;> simp

@[simp]
theorem safe_table : Safe s.table := by
  unfold table
  split <;> simp

@[simp]
theorem safe_methodRef : Safe s.methodRef := by
  unfold methodRef
  split <;> simp

@[simp]
theorem safe_fieldRef : Safe s.fieldRef := by
  unfold fieldRef
  split <;> simp

@[simp]
theorem safe_typeRef : Safe s.typeRef := by
  unfold typeRef
  split <;> simp

@[simp]
theorem safe_argumentSlot (index : Nat) : Safe (s.argumentSlot index) := by
  refine safe_bind safe_get fun c => ?_
  split <;> simp

@[simp]
theorem safe_handlesReference (kind : ValueKind) : Safe (s.handlesReference kind) := by
  unfold handlesReference
  split
  · exact safe_pure _
  · exact safe_bind s.safe_typeRef fun _ => safe_pure _
  · exact safe_pure _

@[simp]
theorem safe_parameter (slot : SlotId) (type : TypeRef) : Safe (parameter slot type) :=
  safe_ite (safe_pure _) (safe_onStore fun _ _ => (Store.Step.materializeSingle slot).steps)

@[simp]
theorem safe_newValue (type : TypeRef) (origin : Origin) : Safe (newValue type origin) := by
  refine safe_ite ?_ ?_
  · exact safe_bind (safe_onStore fun _ _ => Store.Step.fake.steps) fun _ => safe_pure _
  · exact runs_bind (finds_create origin) fun e => runs_bind (runs_entitySlot e) fun _ =>
      safe_pure _

theorem safe_parameters (slots : List SlotId) (types : List TypeRef) :
    Safe ((slots.zip types).mapM fun (slot, type) => parameter slot type) :=
  safe_mapM (fun (slot, type) => safe_parameter slot type) _

theorem safe_countCall : Safe countCall := by
  intro c _ _
  refine ⟨?_, fun _ _ _ => trivial⟩
  rcases countCall_cases c with h | h
  all_goals
    rw [Exec.after, h]
    exact ⟨.refl _, rfl⟩

@[simp]
theorem safe_call (kind : EffectKind) (frame : Frame) : Safe (s.call kind frame) := by
  refine safe_bind s.safe_methodRef fun m => safe_bind safe_countCall fun _ => ?_
  refine safe_bind (s.safe_popMany _ _ _) fun (slots, frame) => ?_
  refine safe_bind (safe_parameters _ _) fun parameters => ?_
  refine safe_ite ?_ (safe_ite ?_ (safe_pure _))
  · exact safe_bind (safe_newValue _ _) fun _ => safe_pure _
  · exact safe_bind (safe_newValue _ _) fun _ => safe_pure _

end Site

namespace Exec

theorem safe_assign (straight : Bool) (index : Nat) (slot : SlotId) :
    Safe (modify fun c : Context =>
      if straight then c.rebindArgument index slot else c.storeArgument index slot) := by
  refine safe_modify fun c => ?_
  split
  · exact ⟨.refl _, rfl⟩
  · exact c.develops_storeArgument index slot

/-- What is done with the entity that is found in a slot. -/
theorem safe_bind_materializeSingle {slot : SlotId} {f : Option EntityId → Exec Flow}
    (hnone : Safe (f none))
    (hsome : ∀ e, Runs (fun c => e < c.heap.size) (fun _ _ => True) (f (some e))) :
    Safe (onStore (·.materializeSingle slot) >>= f) := by
  have hfind : Runs (fun _ => True) (fun found c => ∀ e, found = some e → e < c.heap.size)
      (onStore (·.materializeSingle slot)) :=
    runs_onStore fun _ hc _ => ⟨(Store.Step.materializeSingle slot).steps,
      fun _ he => hc.store.materializeSingle_lt he⟩
  refine runs_bind hfind fun found => ?_
  cases found with
  | none => exact fun c hc _ => hnone c hc trivial
  | some e => exact fun c hc hp => hsome e c hc (hp e rfl)

theorem runs_storeStatic (key : FieldName) (e : EntityId) :
    Runs (fun c => e < c.heap.size) (fun _ _ => True) (modify (·.storeStatic key e)) :=
  runs_modifyGet fun _ hc he => ⟨hc.storeStatic key he, trivial⟩

@[simp]
theorem safe_load (slot : SlotId) (key : FieldName) : Safe (onStore (·.load slot key)) :=
  safe_onStore fun _ _ => (Store.Step.load slot key).steps

@[simp]
theorem safe_constant : Safe (onStore Store.constant) :=
  safe_onStore fun _ _ => Store.Step.constant.steps

@[simp]
theorem safe_storeThrough (address value : SlotId) :
    Safe (onStore fun st => ((), st.storeThrough address value)) :=
  safe_onStore fun _ hs => hs.steps_storeThrough address value

@[simp]
theorem safe_storeInto (owner : SlotId) (key : FieldName) (value : SlotId) :
    Safe (onStore fun st => ((), st.storeInto owner key value)) :=
  safe_onStore fun _ hs => hs.steps_storeInto owner key value

@[simp]
theorem safe_loadLocal (index : Nat) : Safe (onContext (·.loadLocal index)) :=
  safe_onContext fun c _ => c.develops_loadLocal index

@[simp]
theorem safe_storeLocal (index : Nat) (slot : SlotId) :
    Safe (modify (·.storeLocal index slot)) := safe_modify fun c => c.develops_storeLocal index slot

@[simp]
theorem safe_recordReturn (slot : SlotId) : Safe (modify (·.recordReturn slot)) :=
  safe_modify fun c => c.develops_recordReturn slot

end Exec

theorem safe_execute (m : MethodRef) (straight : Bool) (i : Instruction) (frame : Frame) :
    Exec.Safe (execute m straight i frame) := by
  unfold execute
  simp only
  -- as for edits; where an id is put on the stack or stored, it was found in the step before
  split
  all_goals
    repeat' first
      | with_reducible exact Exec.safe_pushField _ _ _ _
      | with_reducible refine Exec.safe_bind_pushEntity ?_ _
      | with_reducible refine Exec.safe_bind_materializeSingle ?_ fun _ => ?_
      | with_reducible exact Exec.runs_bind (Exec.runs_storeStatic _ _) fun _ => Exec.safe_pure _
      | with_reducible refine Exec.safe_bind ?_ fun _ => ?_
      | with_reducible exact Exec.safe_assign _ _ _
      | with_reducible refine Exec.safe_ite ?_ ?_
      | simp

/-! Walks. -/

namespace Context

/-- One move of a walk, or one operation of the engine on the store of a walk that paused. -/
inductive Step : Context → Context → Prop where
  | start {c c' : Context} {m : MethodRef} {b : Body} {w : Interpreter}
    (hs : Interpreter.start m b c = .ok (w, c')) : Step c c'
  /-- In front of an instruction: the paths that meet there are joined. -/
  | arrive {c : Context} {current incoming joined : Option Frame} {store : Store}
    (hj : Interpreter.joinPaths c.store current incoming = .ok (joined, store)) :
    Step c { c with store }
  /-- Behind an instruction, also behind one that failed. -/
  | tick {c : Context} (w : Interpreter) : Step c (w.tick c).context
  | store {c : Context} {store : Store} (hs : Store.Step c.store store) : Step c { c with store }

def Steps : Context → Context → Prop := Relation.ReflTransGen Step

/-- A fresh activation, of a method with a body or of a stub. -/
inductive Fresh : Context → Prop where
  | start (m : MethodRef) (locals : List TypeRef) (statics : Bool) : Fresh (start m locals statics)
  | dispatch (m : MethodRef) (statics : Bool) : Fresh (startDispatch m statics)

/-- The interpreter can reach the context. -/
def Reached (c : Context) : Prop := ∃ fresh, Fresh fresh ∧ Steps fresh c

variable {c c' : Context}

/-- Running the instruction at the cursor develops the context. -/
theorem develops_of_executes {w : Interpreter} {i : Instruction} {frame : Frame} {store : Store}
    {result : EStateM.Result Failure Context Flow} (hc : c.Sound)
    (he : w.Executes c i frame store result) : c.Develops (Exec.context result) := by
  have hpaths : c.Develops { c with store, instructions := c.instructions + 1 } :=
    ⟨Store.closed_steps.joinPaths he.joined, rfl⟩
  have hrun : ({ c with store, instructions := c.instructions + 1 } : Context).Develops
      (Exec.context result) :=
    he.result ▸ (safe_execute _ _ _ _ _ (hpaths.sound hc) trivial).1
  exact hpaths.trans hrun

theorem develops_of_tick (hc : c.Sound) (w : Interpreter) : c.Develops (w.tick c).context := by
  generalize h : w.tick c = t
  cases Interpreter.ticks_of_tick h with
  | done | torn | skip => exact .refl c
  | full _ hjoin => exact ⟨Store.closed_steps.joinPaths hjoin, rfl⟩
  | fail he | next he | stop he | call he => exact develops_of_executes hc he
  | @branch i _ after _ targets conditional c' _ he hb =>
    obtain ⟨store, hsteps, hstore⟩ :=
      Store.closed_steps.branch w.cleared c' i.offset targets conditional after
    rw [← hb, hstore]
    exact (develops_of_executes hc he).trans ⟨hsteps, rfl⟩

theorem Step.develops (hstep : Step c c') (hc : c.Sound) : c.Develops c' := by
  cases hstep with
  | start hs =>
    obtain ⟨store, hsteps, rfl⟩ := Store.closed_steps.start hs
    exact ⟨hsteps, rfl⟩
  | arrive hj => exact ⟨Store.closed_steps.joinPaths hj, rfl⟩
  | tick w => exact develops_of_tick hc w
  | store hs => exact ⟨hs.steps, rfl⟩

theorem Steps.develops (hsteps : Steps c c') (hc : c.Sound) : c.Develops c' := by
  induction hsteps with
  | refl => exact .refl c
  | tail _ hstep ih => exact ih.trans (hstep.develops (ih.sound hc))

/-! Fresh contexts. -/

theorem develops_addFormal (c : Context) (t : TypeRef) : c.Develops (c.addFormal t) := by
  unfold addFormal
  simp only
  split
  · exact ⟨Store.Step.fake.steps, rfl⟩
  · have hcreate := c.store.steps_create (.argument c.formals.length)
    exact ⟨hcreate.trans (Store.Step.entitySlot (c.store.create_lt _)).steps, rfl⟩

theorem develops_addFormals (c : Context) (ts : List TypeRef) :
    c.Develops (ts.foldl addFormal c) := by
  induction ts generalizing c with
  | nil => exact .refl c
  | cons t ts ih => exact (develops_addFormal c t).trans (ih _)

theorem sound_start (m : MethodRef) (locals : List TypeRef) (statics : Bool) :
    (start m locals statics).Sound := by
  unfold start
  cases statics with
  | true =>
    have hroot := (Store.steps_create {} .static).evolves Store.sound_empty
    have hc : Context.Sound { store := (Store.create {} .static).2, localTypes := locals
                              staticRoot := some (Store.create {} .static).1 } :=
      ⟨hroot.sound, fun hr => Option.some.inj hr ▸ Store.create_lt {} .static⟩
    exact (develops_addFormals _ m.formals).sound hc
  | false =>
    have hc : Context.Sound { localTypes := locals } := ⟨Store.sound_empty, nofun⟩
    exact (develops_addFormals _ m.formals).sound hc

theorem Fresh.sound (hf : Fresh c) : c.Sound := by
  cases hf with
  | start m locals statics => exact sound_start m locals statics
  | dispatch m statics =>
    have hc := sound_start m [] statics
    unfold startDispatch
    generalize Context.start m [] statics = c at hc
    simp only
    split
    · have hcreate := c.store.steps_create (.methodReturn m.signature)
      have hslot := (Store.Step.entitySlot (c.store.create_lt (.methodReturn m.signature))).steps
      exact Develops.sound (c := c) ⟨hcreate.trans hslot, rfl⟩ hc
    · exact hc

theorem Reached.sound (hc : c.Reached) : c.Sound := by
  obtain ⟨fresh, hf, hsteps⟩ := hc
  exact (hsteps.develops hf.sound).sound hf.sound

/-- Between two contexts of a run nothing that a slot denotes is lost. -/
theorem Steps.evolves (hs : Steps c c') (hc : c.Sound) : c.store.Evolves c'.store :=
  (hs.develops hc).steps.evolves hc.store

end Context

end SinkTrace
