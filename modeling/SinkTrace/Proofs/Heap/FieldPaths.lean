import SinkTrace.Proofs.Heap.Confluence
import SinkTrace.Proofs.Heap.Renaming

/-!
Paths of fields. What a path leads to is found again in all that a heap grows into, and loading a
path brings nothing into the heap but what the path asks for: where the path can be followed in
another heap, that heap still has all there is to see.
-/

namespace SinkTrace

namespace Heap

/-- Where a path of fields leads, if all of them are there. -/
def follow? (h : Heap) (u : EntityId) : List FieldName → Option EntityId
  | [] => some (h.find u)
  | key :: path => (h.field? u key).bind fun child => h.follow? child path

variable {h h' : Heap} {u v w owner : EntityId} {key : FieldName} {path rest : List FieldName}

theorem follow?_congr (hf : h.find u = h.find v) (path : List FieldName) :
    h.follow? u path = h.follow? v path := by
  cases path with
  | nil => exact congrArg some hf
  | cons key path => rw [follow?, follow?, field?_congr hf]

theorem follow?_find (h : Heap) (u : EntityId) (path : List FieldName) :
    h.follow? (h.find u) path = h.follow? u path := follow?_congr (find_find h u) path

theorem follow?_cons_eq_some : h.follow? u (key :: path) = some w ↔
    ∃ child, h.field? u key = some child ∧ h.follow? child path = some w :=
  Option.bind_eq_some_iff

theorem follow?_append (h : Heap) (u : EntityId) (path rest : List FieldName) :
    h.follow? u (path ++ rest) = (h.follow? u path).bind fun w => h.follow? w rest := by
  induction path generalizing u with
  | nil => exact (follow?_find h u rest).symm
  | cons key path ih =>
    rw [List.cons_append, follow?, follow?, Option.bind_assoc]
    exact congrArg (Option.bind (h.field? u key)) (funext ih)

theorem follow?_append_of_some (hf : h.follow? u path = some w) (rest : List FieldName) :
    h.follow? u (path ++ rest) = h.follow? w rest := by
  rw [follow?_append, hf, Option.bind_some]

theorem follow?_concat_of_some (hf : h.follow? u path = some w) (key : FieldName) :
    h.follow? u (path ++ [key]) = h.field? w key := by
  rw [follow?_append_of_some hf, follow?]
  cases hk : h.field? w key with
  | none => rfl
  | some child => exact congrArg some (find_of_field? hk)

theorem Grows.follow? (hg : Grows h h') (hf : h.follow? u path = some w) :
    h'.follow? u path = some (h'.find w) := by
  induction path generalizing u with
  | nil =>
    cases hf
    exact congrArg some (hg.find u).symm
  | cons key path ih =>
    obtain ⟨child, hk, hrest⟩ := follow?_cons_eq_some.mp hf
    refine follow?_cons_eq_some.mpr ⟨_, hg.field hk, ?_⟩
    rw [follow?_find]
    exact ih hrest

/-! Loading a path. -/

theorem loadPath_cons (h : Heap) (owner : EntityId) (key : FieldName) (path : List FieldName) :
    h.loadPath owner (key :: path) =
      (h.loadField owner key).2.loadPath (h.loadField owner key).1 path := rfl

/-- The heap after a path was loaded, and the entity at its end. -/
structure Loaded (h : Heap) (owner : EntityId) (path : List FieldName)
    (result : EntityId × Heap) : Prop where
  evolves : Evolves h result.2
  lt : result.1 < result.2.size
  follow? : result.2.follow? owner path = some (result.2.find result.1)

theorem Proper.loadPath (hp : h.Proper) (ho : owner < h.size) (path : List FieldName) :
    Loaded h owner path (h.loadPath owner path) := by
  induction path generalizing h owner with
  | nil => exact ⟨.refl hp, ho, rfl⟩
  | cons key path ih =>
    have hfirst := hp.loadField ho key
    have hchild := field?_loadField hp.wellFormed ho key
    have hrest := ih hfirst.proper (hp.wellFormed.loadField_lt ho key)
    rw [loadPath_cons]
    refine ⟨hfirst.trans hrest.evolves, hrest.lt, ?_⟩
    refine follow?_cons_eq_some.mpr ⟨_, hrest.evolves.grows.field hchild, ?_⟩
    rw [follow?_find]
    exact hrest.follow?

/-! Heaps that have what a path asks for. -/

variable {φ : EntityId → EntityId}

/-- A path leads to what its end stands for. -/
theorem Shows.follow? (hs : h.Shows h'.drawn φ) (hw : h.WellFormed) (hu : u < h.size)
    (hf : h.follow? u path = some w) : h'.follow? (φ u) path = some (h'.find (φ w)) := by
  induction path generalizing u with
  | nil =>
    cases hf
    exact congrArg some (hs.find hu)
  | cons key path ih =>
    obtain ⟨child, hk, hrest⟩ := follow?_cons_eq_some.mp hf
    refine follow?_cons_eq_some.mpr ⟨_, hs.field hk, ?_⟩
    rw [follow?_find]
    exact ih (hw.field?_lt hk) hrest

/-- `h'` still has all there is to see in `grown`, where old ids stand for what they did. -/
def Redrawn (h' : Heap) (φ : EntityId → EntityId) (h grown : Heap) : Prop :=
  ∃ φ', (∀ u < h.size, φ' u = φ u) ∧ grown.Shows h'.drawn φ'

theorem Redrawn.refl (hs : h.Shows h'.drawn φ) : Redrawn h' φ h h := ⟨φ, fun _ _ => rfl, hs⟩

/-- A new child stands for what the field leads to. -/
theorem Shows.loadField (hs : h.Shows h'.drawn φ) (hp : h.Proper) (hp' : h'.Proper)
    (ho : owner < h.size) (hk : h'.field? (φ owner) key = some w) :
    Redrawn h' φ h (h.loadField owner key).2 := by
  cases hg : (h.entity owner).fields.get? key with
  | some child =>
    rw [loadField_of_some hg]
    exact .refl hs
  | none =>
    have hold : ∀ u < h.size, Function.update φ h.size w u = φ u := fun u hu =>
      Function.update_of_ne (Nat.ne_of_lt hu) w φ
    have hlead : h'.field? (φ owner) key = some (h'.find w) := by rw [find_of_field? hk, hk]
    refine ⟨_, hold, ?_⟩
    apply (hs.congr hp.wellFormed fun u hu => (hold u hu).symm).loadField_of_none
      hp'.lawful_drawn hp.wellFormed ho hg
    · rfl
    · exact Nat.zero_le _
    · rw [hold owner ho, Function.update_self]
      exact hlead

theorem Shows.loadPath (hs : h.Shows h'.drawn φ) (hp : h.Proper) (hp' : h'.Proper)
    (ho : owner < h.size) (hf : h'.follow? (φ owner) path = some w) :
    Redrawn h' φ h (h.loadPath owner path).2 := by
  induction path generalizing h owner φ with
  | nil => exact .refl hs
  | cons key path ih =>
    obtain ⟨child, hk, hrest⟩ := follow?_cons_eq_some.mp hf
    have hfirst := hp.loadField ho key
    obtain ⟨φ₁, hold₁, hs₁⟩ := hs.loadField hp hp' ho hk
    have hchild : h'.field? (φ owner) key = some (h'.find (φ₁ (h.loadField owner key).1)) :=
      hold₁ owner ho ▸ hs₁.field (field?_loadField hp.wellFormed ho key)
    cases hk.symm.trans hchild
    rw [follow?_find] at hrest
    obtain ⟨φ₂, hold₂, hs₂⟩ := ih hs₁ hfirst.proper (hp.wellFormed.loadField_lt ho key) hrest
    refine ⟨φ₂, fun u hu => ?_, hs₂⟩
    rw [hold₂ u (hfirst.lt_size hu), hold₁ u hu]

/-- Heaps that show no more than each other are seen alike from the ids that stand for
themselves. -/
theorem Shows.follows {n : Nat} (hs : h.Shows h'.drawn φ) (hw : h.WellFormed) (hn : n ≤ h.size)
    (hold : ∀ u < n, φ u = u) :
    Follows n (fun d d' => d < h.size ∧ d' = h'.find (φ d)) h h' := by
  constructor
  · intro u hu
    have hlt := Nat.lt_of_lt_of_le hu hn
    refine ⟨find_lt_size hlt, ?_⟩
    have hsame : h'.find (φ u) = h'.find (φ (h.find u)) := hs.find hlt
    rw [← hsame, hold u hu]
  · rintro d d' d'' ⟨-, rfl⟩ ⟨-, rfl⟩
    rfl
  · rintro d d' k w ⟨hd, rfl⟩ hk
    refine ⟨_, ?_, hw.field?_lt hk, rfl⟩
    rw [field?_congr (find_find h' _)]
    exact hs.field hk
  · rintro d d' ⟨hd, rfl⟩ hdeep
    rw [entity_find]
    exact hs.deep hdeep
  · rintro d d' ⟨hd, rfl⟩
    refine Nat.le_trans (hs.taint hd) ?_
    rw [Heap.taint, Heap.taint, entity_find]

end Heap

end SinkTrace
