import SinkTrace.Proofs.Heap.View
import SinkTrace.Proofs.Interpreter.Ticks
import SinkTrace.Proofs.Table

/-!
Slots while no load is pending. Joining slots, stacks and tables changes no slot that there is, and
the joined slot holds what either side held.
-/

namespace SinkTrace

namespace Store

variable {s s' s'' : Store} {a b c : SlotId} {as bs cs : Frame} {e : EntityId}

/-- No load is pending. -/
def Calm (s : Store) : Prop := ∀ id loads, s.slot id ≠ .pending loads

/-- The entity is live, and the slot may hold it. -/
def Holds (s : Store) (id : SlotId) (e : EntityId) : Prop :=
  s.heap.find e = e ∧ ∃ es, s.slot id = .values es ∧ e ∈ es

theorem mem_distinct_of_mem {h : Heap} {es : List EntityId} (he : h.find e = e) (hm : e ∈ es) :
    e ∈ distinct h es := by
  rw [distinct, IdSet.mem_distinct]
  exact List.mem_map.mpr ⟨e, hm, he⟩

theorem Holds.mem_materialize (hh : s.Holds a e) : e ∈ (s.materialize a).1 := by
  obtain ⟨hlive, es, hs, hm⟩ := hh
  unfold materialize
  rw [hs]
  exact mem_distinct_of_mem hlive hm

/-- There may be more slots, and more entities. -/
structure Grows (s s' : Store) : Prop where
  calm : s'.Calm
  find : ∀ e, s'.heap.find e = s.heap.find e
  kept : ∀ {id es}, s.slot id = .values es → s'.slot id = .values es

theorem Grows.refl (hc : s.Calm) : Grows s s := ⟨hc, fun _ => rfl, id⟩

theorem Grows.trans (h₁ : Grows s s') (h₂ : Grows s' s'') : Grows s s'' :=
  ⟨h₂.calm, fun e => (h₂.find e).trans (h₁.find e), fun h => h₂.kept (h₁.kept h)⟩

/-- What `a` holds in `s`, `b` holds in `s'`. -/
def Passes (s : Store) (a : SlotId) (s' : Store) (b : SlotId) : Prop :=
  ∀ e, s.Holds a e → s'.Holds b e

theorem Passes.trans (h₁ : Passes s a s' b) (h₂ : Passes s' b s'' c) : Passes s a s'' c :=
  fun e he => h₂ e (h₁ e he)

theorem Grows.passes (hg : Grows s s') (a : SlotId) : Passes s a s' a :=
  fun e ⟨hlive, es, hs, hm⟩ => ⟨(hg.find e).trans hlive, es, hg.kept hs, hm⟩

/-- Position by position. -/
def PassesAll (s : Store) (as : Frame) (s' : Store) (bs : Frame) : Prop :=
  List.Forall₂ (fun a b => Passes s a s' b) as bs

theorem PassesAll.trans (h₁ : PassesAll s as s' bs) (h₂ : PassesAll s' bs s'' cs) :
    PassesAll s as s'' cs := by
  induction h₁ generalizing cs with
  | nil =>
    cases h₂
    exact .nil
  | cons hab _ ih =>
    cases h₂ with
    | cons hbc h₂ => exact .cons (hab.trans hbc) (ih h₂)

theorem Grows.passesAll (hg : Grows s s') (as : Frame) : PassesAll s as s' as :=
  List.forall₂_same.mpr fun a _ => hg.passes a

theorem slot_alloc (s : Store) (x : Slot) (id : SlotId) :
    (s.alloc x).2.slot id = if id = s.slots.size then x else s.slot id := by
  unfold alloc slot
  simp only [Array.getElem?_push]
  split <;> rfl

theorem slot_alloc_self (s : Store) (x : Slot) : (s.alloc x).2.slot (s.alloc x).1 = x := by
  rw [slot_alloc]
  exact if_pos rfl

theorem Calm.alloc (hc : s.Calm) {x : Slot} (hx : ∀ loads, x ≠ .pending loads) :
    Grows s (s.alloc x).2 := by
  refine ⟨fun id loads => ?_, fun _ => rfl, fun {id es} hs => ?_⟩
  · rw [slot_alloc]
    split
    · exact hx loads
    · exact hc id loads
  · have hne : id ≠ s.slots.size := by
      rintro rfl
      simp [slot] at hs
    rw [slot_alloc, if_neg hne, hs]

theorem Calm.fake (hc : s.Calm) : Grows s s.fake.2 := hc.alloc nofun

theorem Calm.constant (hc : s.Calm) : Grows s s.constant.2 := hc.alloc nofun

theorem Calm.entitySlot (hc : s.Calm) (e : EntityId) : Grows s (s.entitySlot e).2 := hc.alloc nofun

theorem Calm.create (hc : s.Calm) (origin : Origin) : Grows s (s.create origin).2 :=
  ⟨hc, fun e => Heap.find_create s.heap (some origin) e, id⟩

/-- A new entity is live. -/
theorem find_create_self (s : Store) (origin : Origin) :
    (s.create origin).2.heap.find (s.create origin).1 = (s.create origin).1 := by
  change (s.heap.create (some origin)).2.find s.heap.size = s.heap.size
  rw [Heap.find_create]
  exact Heap.find_of_size_le (Nat.le_refl _)

/-- A slot for one live entity. -/
theorem holds_entitySlot (he : s.heap.find e = e) :
    (s.entitySlot e).2.Holds (s.entitySlot e).1 e :=
  ⟨he, [e], slot_alloc_self s _, List.mem_singleton_self e⟩

/-- A slot that holds no entity passes nothing on. -/
theorem passes_of_opaque (h : ∀ es, s.slot a ≠ .values es) : Passes s a s' b :=
  fun _ ⟨_, es, hs, _⟩ => absurd hs (h es)

/-- A slot for the entities of two slots. -/
theorem passes_alloc_values {xs ys es : List EntityId} (ha : s.slot a = .values es)
    (hsub : es ⊆ xs ++ ys) :
    Passes s a (s.alloc (.values (distinct s.heap (xs ++ ys)))).2 s.slots.size := by
  rintro e ⟨hlive, es', ha', hm⟩
  cases ha.symm.trans ha'
  exact ⟨hlive, _, slot_alloc_self s _, mem_distinct_of_mem hlive (hsub hm)⟩

/-- The union holds what either of the two held. -/
theorem Calm.union (hc : s.Calm) (a b : SlotId) :
    Grows s (s.union a b).2 ∧ Passes s a (s.union a b).2 (s.union a b).1 ∧
      Passes s b (s.union a b).2 (s.union a b).1 := by
  have hsame : ∀ c, Passes s c s c := (Grows.refl hc).passes
  unfold Store.union
  split
  · rename_i hab
    exact ⟨.refl hc, hsame a, hab ▸ hsame a⟩
  · cases ha : s.slot a with
    | pending loads => exact absurd ha (hc a loads)
    | fake | constant =>
      have hpa : ∀ b, Passes s a s b := fun _ => passes_of_opaque (by simp [ha])
      cases hb : s.slot b with
      | pending loads => exact absurd hb (hc b loads)
      | fake | constant => exact ⟨.refl hc, hsame a, passes_of_opaque (by simp [hb])⟩
      | values ys => exact ⟨.refl hc, hpa b, hsame b⟩
    | values xs =>
      cases hb : s.slot b with
      | pending loads => exact absurd hb (hc b loads)
      | fake | constant => exact ⟨.refl hc, hsame a, passes_of_opaque (by simp [hb])⟩
      | values ys =>
        exact ⟨hc.alloc nofun, passes_alloc_values ha (List.subset_append_left xs ys),
          passes_alloc_values hb (List.subset_append_right xs ys)⟩

theorem Calm.unionStacks (hc : s.Calm) (hl : as.length = bs.length) :
    Grows s (s.unionStacks as bs).2 ∧ PassesAll s as (s.unionStacks as bs).2 (s.unionStacks as bs).1
      ∧ PassesAll s bs (s.unionStacks as bs).2 (s.unionStacks as bs).1 := by
  fun_induction Store.unionStacks s as bs with
  | case1 a as b bs rest s₁ hrest c s₂ hunion ih =>
    obtain ⟨hg, has, hbs⟩ := ih (Nat.succ.inj hl)
    rw [hrest] at hg has hbs
    obtain ⟨hg', ha, hb⟩ := hg.calm.union a b
    rw [hunion] at hg' ha hb
    exact ⟨hg.trans hg', .cons ((hg.passes a).trans ha) (has.trans (hg'.passesAll rest)),
      .cons ((hg.passes b).trans hb) (hbs.trans (hg'.passesAll rest))⟩
  | case2 as bs hnone =>
    cases as with
    | nil =>
      cases bs with
      | nil => exact ⟨.refl hc, .nil, .nil⟩
      | cons b bs => cases hl
    | cons a as =>
      cases bs with
      | nil => cases hl
      | cons b bs => exact (hnone a as b bs rfl rfl).elim

theorem Calm.joinFrames {joined : Frame} (hc : s.Calm)
    (h : s.joinFrames as bs = .ok (joined, s')) :
    Grows s s' ∧ PassesAll s as s' joined ∧ PassesAll s bs s' joined := by
  unfold Store.joinFrames at h
  split at h
  · rename_i hl
    have hu := hc.unionStacks hl
    rwa [Except.ok.inj h] at hu
  · cases h

end Store

/-- What is bound stays bound, and the new value is bound beside it. -/
theorem SlotTable.store_passes {t : SlotTable} {s : Store} (hc : s.Calm) (index : Nat)
    (slot : SlotId) :
    s.Grows (t.store s index slot).2 ∧
      (∀ {i a}, t.get? i = some a → ∃ b, (t.store s index slot).1.get? i = some b ∧
        s.Passes a (t.store s index slot).2 b) ∧
      ∃ b, (t.store s index slot).1.get? index = some b ∧
        s.Passes slot (t.store s index slot).2 b := by
  have hsame : ∀ a, s.Passes a s a := (Store.Grows.refl hc).passes
  unfold SlotTable.store
  split
  · rename_i existing he
    obtain ⟨hg, hold, hnew⟩ := hc.union existing slot
    refine ⟨hg, fun {i a} hi => ?_, _, Table.get?_insert_self _ _ _, hnew⟩
    rw [Table.get?_insert]
    split
    · rename_i hii
      cases he.symm.trans (hii ▸ hi)
      exact ⟨_, rfl, hold⟩
    · exact ⟨a, hi, hg.passes a⟩
  · rename_i he
    refine ⟨.refl hc, fun {i a} hi => ?_, _, Table.get?_insert_self _ _ _, hsame slot⟩
    have hne : i ≠ index := by
      rintro rfl
      cases he.symm.trans hi
    exact ⟨a, (Table.get?_insert_of_ne t hne slot).trans hi, hsame a⟩

namespace ControlFlow

variable {f f' : ControlFlow} {s s' : Store} {index : Nat} {frame : Frame} {indices : List Nat}
  {failure : Failure}

/-- A frame that waits at an index holds what the given one holds. -/
def Keeps (f : ControlFlow) (s' : Store) (index : Nat) (s : Store) (frame : Frame) : Prop :=
  ∃ other, f.Waits index other ∧ s.PassesAll frame s' other

theorem keeps_enqueue (hc : s.Calm) (h : f.enqueue s index frame = (none, f', s')) :
    s.Grows s' ∧ (∀ {i other}, f.Waits i other → f'.Keeps s' i s other) ∧
      (index < f.waiting.size → f'.Keeps s' index s frame) := by
  have hsame := (Store.Grows.refl hc).passesAll
  have hput : ∀ joined : Frame, index < f.waiting.size →
      ((f.take index).2.setWaiting index (some joined)).Waits index joined := by
    intro joined hlt
    rw [waits_setWaiting, if_pos rfl]
    exact ⟨rfl, (f.size_setWaiting index none).symm ▸ hlt⟩
  have hkept : ∀ {joined : Frame} {i other}, i ≠ index → f.Waits i other →
      ((f.take index).2.setWaiting index (some joined)).Waits i other := by
    intro joined i other hi hw
    rw [waits_setWaiting, if_neg hi]
    exact waits_take.mpr ⟨hi, hw⟩
  cases enqueues_of_enqueue h with
  | first hnone =>
    refine ⟨.refl hc, fun {i other} hw => ⟨other, hkept ?_ hw, hsame other⟩,
      fun hlt => ⟨frame, hput frame hlt, hsame frame⟩⟩
    rintro rfl
    cases (take_fst.mpr hw).symm.trans hnone
  | @joins existing joined _ hsome hjoin =>
    obtain ⟨hg, hpe, hpf⟩ := hc.joinFrames hjoin
    refine ⟨hg, fun {i other} hw => ?_, fun hlt => ⟨joined, hput joined hlt, hpf⟩⟩
    by_cases hi : i = index
    · subst hi
      cases hsome.symm.trans (take_fst.mpr hw)
      exact ⟨joined, hput joined (waiting_lt hw), hpe⟩
    · exact ⟨other, hkept hi hw, hg.passesAll other⟩

theorem keeps_enqueueAll (hc : s.Calm) (h : f.enqueueAll s frame indices = (none, f', s')) :
    s.Grows s' ∧ (∀ {i other}, f.Waits i other → f'.Keeps s' i s other) ∧
      ∀ i ∈ indices, i < f.waiting.size → f'.Keeps s' i s frame := by
  induction indices generalizing f s with
  | nil =>
    cases h
    have hg := Store.Grows.refl hc
    exact ⟨hg, fun {_ other} hw => ⟨other, hw, hg.passesAll other⟩, nofun⟩
  | cons index indices ih =>
    unfold enqueueAll at h
    split at h
    · cases h
    · rename_i f₁ s₁ he
      obtain ⟨hg, hold, hnew⟩ := keeps_enqueue hc he
      obtain ⟨hg', hold', hnew'⟩ := ih hg.calm h
      have hon : ∀ {i other}, f₁.Keeps s₁ i s other → f'.Keeps s' i s other := by
        rintro i other ⟨joined, hw, hp⟩
        obtain ⟨last, hw', hp'⟩ := hold' hw
        exact ⟨last, hw', hp.trans hp'⟩
      refine ⟨hg.trans hg', fun hw => hon (hold hw), fun i hi hlt => ?_⟩
      rcases List.mem_cons.mp hi with rfl | hi
      · exact hon (hnew hlt)
      · obtain ⟨last, hw, hp⟩ := hnew' i hi ((parks_enqueue he).size ▸ hlt)
        exact ⟨last, hw, (hg.passesAll frame).trans hp⟩

end ControlFlow

/-- The joined frame holds what either path brought. -/
theorem Interpreter.joinPaths_passes {s s' : Store} {current incoming : Option Frame}
    {frame : Frame} (hc : s.Calm) (h : joinPaths s current incoming = .ok (some frame, s')) :
    s.Grows s' ∧ ∀ held : Frame, current = some held ∨ incoming = some held →
      s.PassesAll held s' frame := by
  have hsame := (Store.Grows.refl hc).passesAll
  cases joinsPaths_of_joinPaths h with
  | both hj =>
    obtain ⟨hg, hp, hp'⟩ := hc.joinFrames hj
    refine ⟨hg, ?_⟩
    rintro held (⟨⟨⟩⟩ | ⟨⟨⟩⟩)
    · exact hp
    · exact hp'
  | left =>
    refine ⟨.refl hc, fun held hheld => ?_⟩
    cases hheld.resolve_right nofun
    exact hsame _
  | right =>
    refine ⟨.refl hc, fun held hheld => ?_⟩
    cases hheld.resolve_left nofun
    exact hsame _

end SinkTrace
