import SinkTrace.Proofs.Heap.Marks
import SinkTrace.Proofs.Store

/-!
Properties that every entity of a heap has. Where edges do not matter for a property, and it passes
to entities that are marked or merged, no evaluation of slots takes it away.
-/

namespace SinkTrace

/-- A property that new entities have and that marking and merging keep; edges do not matter. -/
structure Entity.Inherited (P : Entity → Prop) : Prop where
  bare : ∀ {e e'}, e.bare = e'.bare → P e → P e'
  fresh : ∀ e, e.taint ≤ TaintId.input → e.targetCalls = [] → e.deferredTaint = [] → P e
  markDeep : ∀ {e}, P e → P e.markDeep
  takeOver : ∀ {e gone}, P e → P gone → P (e.takeOver gone)

namespace Heap

variable {P Q : Entity → Prop} {h h' : Heap}

/-- All live entities have the property. -/
def Every (P : Entity → Prop) (h : Heap) : Prop := ∀ id e, h.live? id = some e → P e

theorem every_empty : Every P {} :=
  fun _ _ he => absurd (lt_size_of_live? he) (Nat.not_lt_zero _)

theorem Every.mono (hc : h.Every P) (hp : ∀ e, P e → Q e) : h.Every Q :=
  fun id e he => hp e (hc id e he)

theorem Every.of_live (hc : h.Every P)
    (hl : ∀ id e, h'.live? id = some e → h.live? id = some e) : h'.Every P :=
  fun id e he => hc id e (hl id e he)

theorem Every.of_alike {α : Type} {view : Entity → α} (hc : h.Every P)
    (hv : ∀ {e e'}, view e = view e' → P e → P e') (ha : Alike view h h') : h'.Every P := by
  intro id e he
  obtain ⟨e₀, he₀, hb⟩ := ha.of_live? he
  exact hv hb (hc id e₀ he₀)

theorem Every.update (hc : h.Every P) (id : EntityId) {g : Entity → Entity}
    (hg : ∀ e, P e → P (g e)) : (h.update id g).Every P := by
  intro j e he
  rw [live?_update] at he
  split at he
  · obtain ⟨e₀, he₀, rfl⟩ := Option.map_eq_some_iff.mp he
    exact hg e₀ (hc j e₀ he₀)
  · exact hc j e he

theorem Every.foldl {α : Type} {step : Heap → α → Heap}
    (hstep : ∀ h a, Every P h → (step h a).Every P) (as : List α) (hc : h.Every P) :
    (as.foldl step h).Every P := by
  induction as generalizing h with
  | nil => exact hc
  | cons a as ih => exact ih (hstep h a hc)

theorem Every.forward (hc : h.Every P) (id next : EntityId) : (h.forward id next).Every P := by
  refine hc.of_live fun j e he => ?_
  rw [live?_forward] at he
  split at he
  · cases he
  · exact he

theorem every_compress (id root : EntityId) (hc : h.Every P) : (h.compress id root).Every P := by
  fun_induction Heap.compress h id root with
  | case1 h id next _ _ ih => exact ih (hc.forward id root)
  | case2 => exact hc
  | case3 => exact hc

section Inherited

variable (hp : Entity.Inherited P)

include hp

theorem Every.entity (hc : h.Every P) (id : EntityId) : P (h.entity id) := by
  rw [entity_eq]
  cases hl : h.live? (h.find id) with
  | none => exact hp.fresh _ (Nat.zero_le _) rfl rfl
  | some e => exact hc _ e hl

theorem Every.create (hc : h.Every P) (origin : Option Origin) : (h.create origin).2.Every P := by
  intro j e he
  rw [live?_create] at he
  split at he
  · rw [← Option.some.inj he]
    exact hp.fresh _ (Nat.zero_le _) rfl rfl
  · exact hc j e he

theorem Every.markInput (hc : h.Every P) (id : EntityId) : (h.markInput id).Every P := by
  unfold Heap.markInput
  generalize [id] = work
  fun_induction Heap.markAll h work with
  | case1 => exact hc
  | case2 h id rest _ ih => exact ih (hc.update id fun e ha => hp.markDeep ha)
  | case3 h id rest _ ih => exact ih hc

theorem Every.link (hc : h.Every P) (owner : EntityId) (key : FieldName) (child : EntityId) :
    (h.link owner key child).Every P := hc.of_alike hp.bare (alike_link h owner key child)

theorem Every.loadField (hc : h.Every P) (owner : EntityId) (key : FieldName) :
    (h.loadField owner key).2.Every P := by
  cases hg : (h.entity owner).fields.get? key with
  | some child =>
    rw [loadField_of_some hg]
    exact hc
  | none =>
    rw [loadField_of_none hg]
    refine Every.link hp (fun j e he => ?_) _ _ _
    rw [live?_withChild] at he
    split at he
    · rw [← Option.some.inj he]
      refine hp.fresh _ ?_ rfl rfl
      unfold newChild
      simp only
      split
      · exact Nat.le_refl _
      · exact Nat.zero_le _
    · exact hc j e he

theorem Every.absorb (hc : h.Every P) (x y : EntityId) : (h.absorb x y).heap.Every P := by
  have hmoved : (h.rewired x y).1.Every P :=
    (hc.forward y x).of_alike hp.bare (alike_rewired h x y)
  rw [absorb_heap]
  exact hmoved.update x fun e ha => hp.takeOver ha (hc.entity hp y)

theorem Every.mergePairs (hc : h.Every P) (pairs : List (EntityId × EntityId))
    (promoted : List EntityId) : (h.mergePairs pairs promoted).1.Every P := by
  fun_induction Heap.mergePairs h pairs promoted with
  | case1 => exact hc
  | case2 h promoted a b rest x y _ ih => exact ih hc
  | case3 => exact hc
  | case4 h promoted a b rest x y hne _ step ih => exact ih (hc.absorb hp _ _)

theorem Every.merge (hc : h.Every P) (a b : EntityId) : (h.merge a b).2.Every P :=
  Every.foldl (fun _ id hc => hc.markInput hp id) _ (hc.mergePairs hp [(a, b)] [])

theorem Every.storeField (hc : h.Every P) (owner : EntityId) (key : FieldName)
    (value : EntityId) : (h.storeField owner key value).Every P := by
  unfold Heap.storeField
  simp only
  split
  · exact hc.merge hp _ _
  · split
    · exact (hc.link hp _ _ _).markInput hp _
    · exact hc.link hp _ _ _

theorem Every.edits (hc : h.Every P) (he : Edits h h') : h'.Every P := by
  induction he with
  | refl => exact hc
  | tail _ hedit ih =>
    cases hedit with
    | create origin => exact ih.create hp origin
    | loadField owner key => exact ih.loadField hp owner key
    | merge a b => exact ih.merge hp a b
    | storeField owner key value => exact ih.storeField hp owner key value

end Inherited

end Heap

end SinkTrace
