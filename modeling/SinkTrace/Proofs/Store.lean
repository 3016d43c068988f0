import Mathlib.Logic.Relation
import SinkTrace.Context

/-!
Slots are evaluated by four operations of the heap: making an entity, loading a field, merging, and
storing into a field. What those four keep is kept by all work on slots and contexts.
-/

namespace SinkTrace

namespace Heap

/-- One operation that evaluating a slot makes. -/
inductive Edit : Heap → Heap → Prop where
  | create (h : Heap) (origin : Option Origin) : Edit h (h.create origin).2
  | loadField (h : Heap) (owner : EntityId) (key : FieldName) : Edit h (h.loadField owner key).2
  | merge (h : Heap) (a b : EntityId) : Edit h (h.merge a b).2
  | storeField (h : Heap) (owner : EntityId) (key : FieldName) (value : EntityId) :
    Edit h (h.storeField owner key value)

/-- Any number of such operations. -/
def Edits : Heap → Heap → Prop := Relation.ReflTransGen Edit

theorem Edits.refl (h : Heap) : Edits h h := Relation.ReflTransGen.refl

theorem Edits.trans {h h' h'' : Heap} (h₁ : Edits h h') (h₂ : Edits h' h'') : Edits h h'' :=
  Relation.ReflTransGen.trans h₁ h₂

theorem Edit.edits {h h' : Heap} (he : Edit h h') : Edits h h' := Relation.ReflTransGen.single he

/-- A fold over a state that holds a heap. -/
theorem Edits.foldl {α β : Type} (heap : β → Heap) {step : β → α → β}
    (hstep : ∀ b a, Edits (heap b) (heap (step b a))) (as : List α) (b : β) :
    Edits (heap b) (heap (as.foldl step b)) := by
  induction as generalizing b with
  | nil => exact .refl _
  | cons a as ih => exact (hstep b a).trans (ih _)

theorem edits_loadPath (h : Heap) (owner : EntityId) (path : List FieldName) :
    Edits h (h.loadPath owner path).2 :=
  Edits.foldl Prod.snd (fun state key => (Edit.loadField state.2 state.1 key).edits) path (owner, h)

end Heap

open Heap (Edits Edit)

namespace Store

variable (s : Store)

@[simp]
theorem edits_fake : Edits s.heap s.fake.2.heap := .refl _

@[simp]
theorem edits_constant : Edits s.heap s.constant.2.heap := .refl _

@[simp]
theorem edits_entitySlot (e : EntityId) : Edits s.heap (s.entitySlot e).2.heap := .refl _

@[simp]
theorem edits_load (base : SlotId) (key : FieldName) : Edits s.heap (s.load base key).2.heap :=
  .refl _

@[simp]
theorem edits_create (origin : Origin) : Edits s.heap (s.create origin).2.heap :=
  (Edit.create s.heap (some origin)).edits

@[simp]
theorem edits_loadField (owner : EntityId) (key : FieldName) :
    Edits s.heap (s.loadField owner key).2.heap := (Edit.loadField s.heap owner key).edits

theorem edits_runLoad (state : List EntityId × Store) (l : PendingLoad) :
    Edits state.2.heap (runLoad state l).2.heap :=
  @Edits.foldl _ _ Prod.snd (followPath l.path)
    (fun st base => Heap.edits_loadPath st.2 base l.path) (state.2.baseValues l.base)
    ([], state.2.heap)

theorem edits_materialize (id : SlotId) : Edits s.heap (s.materialize id).2.heap := by
  unfold materialize
  split
  · exact .refl _
  · exact .refl _
  · exact .refl _
  · rename_i loads _
    exact Edits.foldl (fun state => state.2.heap) edits_runLoad loads ([], s)

theorem edits_mergeAll (h : Heap) (first : EntityId) (rest : List EntityId) :
    Edits h (mergeAll h first rest).2 :=
  Edits.foldl Prod.snd (fun st e => (Edit.merge st.2 st.1 e).edits) rest (first, h)

@[simp]
theorem edits_materializeSingle (id : SlotId) : Edits s.heap (s.materializeSingle id).2.heap := by
  have hm := edits_materialize s id
  unfold materializeSingle
  split
  · rename_i he
    rwa [he] at hm
  · rename_i he
    rwa [he] at hm
  · rename_i he
    rw [he] at hm
    exact hm.trans (edits_mergeAll _ _ _)

@[simp]
theorem edits_materializeOrCreate (id : SlotId) (origin : Origin) :
    Edits s.heap (s.materializeOrCreate id origin).2.heap := by
  have hm := edits_materializeSingle s id
  unfold materializeOrCreate
  split
  · rename_i he
    rwa [he] at hm
  · rename_i he
    rw [he] at hm
    exact hm.trans (edits_create _ origin)

theorem edits_union (a b : SlotId) : Edits s.heap (s.union a b).2.heap := by
  unfold union
  split
  · exact .refl _
  · split
    all_goals first
      | exact .refl _
      | exact (edits_materialize s a).trans (edits_materialize _ b)

@[simp]
theorem edits_storeThrough (address value : SlotId) :
    Edits s.heap (s.storeThrough address value).heap := by
  have ha := edits_materializeSingle s address
  unfold storeThrough
  split
  · rename_i he
    rwa [he] at ha
  · rename_i target s₁ he
    rw [he] at ha
    have hv := edits_materializeSingle s₁ value
    split
    · rename_i he'
      rw [he'] at hv
      exact ha.trans hv
    · rename_i v s₂ he'
      rw [he'] at hv
      exact ha.trans (hv.trans (Edit.merge s₂.heap target v).edits)

@[simp]
theorem edits_storeInto (owner : SlotId) (key : FieldName) (value : SlotId) :
    Edits s.heap (s.storeInto owner key value).heap := by
  have hv := edits_materializeSingle s value
  unfold storeInto
  split
  · rename_i he
    rwa [he] at hv
  · rename_i v s₁ he
    rw [he] at hv
    refine hv.trans ((edits_materialize s₁ owner).trans ?_)
    exact Edits.foldl id (fun h o => (Edit.storeField h o key v).edits)
      (s₁.materialize owner).1 (s₁.materialize owner).2.heap

end Store

theorem SlotTable.edits_store (t : SlotTable) (s : Store) (index : Nat) (slot : SlotId) :
    Edits s.heap (t.store s index slot).2.heap := by
  unfold SlotTable.store
  split
  · exact Store.edits_union s _ slot
  · exact .refl _

namespace Context

variable (c : Context)

theorem edits_addFormal (t : TypeRef) : Edits c.heap (c.addFormal t).heap := by
  unfold addFormal
  simp only
  split
  · exact .refl _
  · exact Store.edits_create c.store _

theorem edits_start (m : MethodRef) (locals : List TypeRef) (statics : Bool) :
    Edits {} (start m locals statics).heap := by
  unfold start
  have hformals := Edits.foldl Context.heap edits_addFormal m.formals
  cases statics with
  | true =>
    have hroot := (Edit.create {} (some .static)).edits
    refine hroot.trans ?_
    exact hformals { store := (Store.create {} .static).2, localTypes := locals
                     staticRoot := some (Store.create {} .static).1 }
  | false => exact hformals { localTypes := locals }

theorem edits_startDispatch (m : MethodRef) (statics : Bool) :
    Edits {} (startDispatch m statics).heap := by
  have hs := edits_start m [] statics
  unfold startDispatch
  simp only
  split
  · exact hs.trans (Store.edits_create _ _)
  · exact hs

@[simp]
theorem edits_storeArgument (index : Nat) (slot : SlotId) :
    Edits c.heap (c.storeArgument index slot).heap :=
  SlotTable.edits_store c.arguments c.store index slot

@[simp]
theorem edits_loadLocal (index : Nat) : Edits c.heap (c.loadLocal index).2.heap := by
  unfold loadLocal
  split
  · exact .refl _
  · simp only
    split <;> exact .refl _

@[simp]
theorem edits_storeLocal (index : Nat) (slot : SlotId) :
    Edits c.heap (c.storeLocal index slot).heap :=
  SlotTable.edits_store c.locals c.store index slot

@[simp]
theorem edits_localAddress (index : Nat) : Edits c.heap (c.localAddress index).2.heap := by
  unfold localAddress
  cases c.locals.get? index with
  | some slot => exact Store.edits_materializeOrCreate c.store slot .uninitialized
  | none => exact Store.edits_materializeOrCreate c.store.constant.2 c.store.constant.1 _

@[simp]
theorem edits_loadStatic (key : FieldName) : Edits c.heap (c.loadStatic key).2.heap := by
  unfold loadStatic
  simp only
  split
  · exact Store.edits_loadField c.store _ key
  · exact Store.edits_create c.store _

@[simp]
theorem edits_storeStatic (key : FieldName) (value : EntityId) :
    Edits c.heap (c.storeStatic key value).heap := by
  unfold storeStatic
  split
  · exact (Edit.storeField c.heap _ key value).edits
  · exact .refl _

@[simp]
theorem edits_recordReturn (slot : SlotId) : Edits c.heap (c.recordReturn slot).heap := by
  unfold recordReturn
  split
  · exact Store.edits_union c.store _ slot
  · exact .refl _

theorem edits_returnEntity : Edits c.heap c.returnEntity.2.heap := by
  unfold returnEntity
  split
  · exact Store.edits_materializeSingle c.store _
  · exact .refl _

/-! None of them counts instructions. -/

@[simp]
theorem instructions_loadLocal (index : Nat) :
    (c.loadLocal index).2.instructions = c.instructions := by
  unfold loadLocal
  split <;> rfl

@[simp]
theorem instructions_storeLocal (index : Nat) (slot : SlotId) :
    (c.storeLocal index slot).instructions = c.instructions := by
  unfold storeLocal
  rfl

@[simp]
theorem instructions_localAddress (index : Nat) :
    (c.localAddress index).2.instructions = c.instructions := by
  unfold localAddress
  cases c.locals.get? index <;> rfl

@[simp]
theorem instructions_loadStatic (key : FieldName) :
    (c.loadStatic key).2.instructions = c.instructions := by
  unfold loadStatic
  rfl

@[simp]
theorem instructions_storeStatic (key : FieldName) (value : EntityId) :
    (c.storeStatic key value).instructions = c.instructions := by
  unfold storeStatic
  split <;> rfl

@[simp]
theorem instructions_recordReturn (slot : SlotId) :
    (c.recordReturn slot).instructions = c.instructions := by
  unfold recordReturn
  split <;> rfl

end Context

end SinkTrace
