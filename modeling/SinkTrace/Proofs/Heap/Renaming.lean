import Mathlib.Data.Set.Function
import SinkTrace.Proofs.Heap.Closure

/-!
Heaps that are the same as far as some of their ids see: a renaming of entities takes one to the
other. It exists where the fields of two heaps follow each other, and no mark gets lost either way.
-/

namespace SinkTrace

namespace Heap

/-- Fields lead there from one of the first `n` ids. -/
def Seen (h : Heap) (n : Nat) (d : EntityId) : Prop := ∃ u < n, h.Below (h.find u) d

/-- The first `n` ids see the same heap, up to the names of entities. -/
structure SameFrom (n : Nat) (h h' : Heap) : Prop where
  find : ∀ u v, u < n → v < n → (h.find u = h.find v ↔ h'.find u = h'.find v)
  taint : ∀ u < n, h'.taint u = h.taint u
  deep : ∀ u < n, (h'.entity u).deep = (h.entity u).deep
  graph : ∃ rename : EntityId → EntityId,
    Set.BijOn rename {d | h.Seen n d} {d | h'.Seen n d} ∧
    (∀ u < n, rename (h.find u) = h'.find u) ∧
    ∀ d, h.Seen n d → h'.taint (rename d) = h.taint d ∧
      (h'.entity (rename d)).deep = (h.entity d).deep ∧
      ∀ k, h'.field? (rename d) k = (h.field? d k).map rename

/-- The entity of `h'` that `R` relates to an entity of `h` has all that this one has. -/
structure Follows (n : Nat) (R : EntityId → EntityId → Prop) (h h' : Heap) : Prop where
  old : ∀ {u}, u < n → R (h.find u) (h'.find u)
  unique : ∀ {d d' d''}, R d d' → R d d'' → d' = d''
  field : ∀ {d d' k w}, R d d' → h.field? d k = some w → ∃ w', h'.field? d' k = some w' ∧ R w w'
  deep : ∀ {d d'}, R d d' → (h.entity d).deep = true → (h'.entity d').deep = true
  taint : ∀ {d d'}, R d d' → h.taint d ≤ h'.taint d'

variable {h h' : Heap} {n : Nat} {R R' : EntityId → EntityId → Prop} {d d' : EntityId}

/-- Following the fields that lead to an entity there and back ends at the entity again. -/
theorem Follows.partner (hf : Follows n R h h') (hb : Follows n R' h' h) (hd : h.Seen n d) :
    ∃ d', R d d' ∧ R' d' d ∧ h'.Seen n d' := by
  obtain ⟨u, hu, hpath⟩ := hd
  induction hpath with
  | refl => exact ⟨h'.find u, hf.old hu, hb.old hu, u, hu, .refl⟩
  | tail _ hstep ih =>
    obtain ⟨k, hk⟩ := hstep
    obtain ⟨d', hto, hfrom, v, hv, hpath'⟩ := ih
    obtain ⟨w', hw', hto'⟩ := hf.field hto hk
    obtain ⟨w, hw, hfrom'⟩ := hb.field hfrom hw'
    cases hk.symm.trans hw
    exact ⟨w', hto', hfrom', v, hv, hpath'.tail ⟨k, hw'⟩⟩

theorem seen_find {u : EntityId} (hu : u < n) : h.Seen n (h.find u) := ⟨u, hu, .refl⟩

theorem Seen.field {k : FieldName} {w : EntityId} (hd : h.Seen n d)
    (hk : h.field? d k = some w) : h.Seen n w := by
  obtain ⟨u, hu, hpath⟩ := hd
  exact ⟨u, hu, hpath.tail ⟨k, hk⟩⟩

/-- Entities that follow each other have the same marks. -/
theorem Follows.marks (hf : Follows n R h h') (hb : Follows n R' h' h) (hto : R d d')
    (hfrom : R' d' d) :
    h'.taint d' = h.taint d ∧ (h'.entity d').deep = (h.entity d).deep :=
  ⟨Nat.le_antisymm (hb.taint hfrom) (hf.taint hto),
    Bool.eq_iff_iff.mpr ⟨hb.deep hfrom, hf.deep hto⟩⟩

theorem sameFrom_of_follows (hf : Follows n R h h') (hb : Follows n R' h' h) :
    SameFrom n h h' := by
  have hpartner := fun (d : EntityId) (hd : h.Seen n d) => hf.partner hb hd
  choose! rename hto hfrom hseen using hpartner
  have hold : ∀ u < n, rename (h.find u) = h'.find u := fun u hu =>
    hf.unique (hto _ (seen_find hu)) (hf.old hu)
  have hmarks := fun (d : EntityId) (hd : h.Seen n d) => hf.marks hb (hto d hd) (hfrom d hd)
  have hinj : ∀ d e, h.Seen n d → h.Seen n e → rename d = rename e → d = e :=
    fun d e hd he heq => hb.unique (hfrom d hd) (heq ▸ hfrom e he)
  refine ⟨fun u v hu hv => ?_, fun u hu => ?_, fun u hu => ?_,
    rename, ⟨hseen, fun d hd e he => hinj d e hd he, fun d' hd' => ?_⟩, hold, fun d hd => ?_⟩
  · rw [← hold u hu, ← hold v hv]
    exact ⟨congrArg rename, hinj _ _ (seen_find hu) (seen_find hv)⟩
  · have ht := (hmarks _ (seen_find hu)).1
    rwa [hold u hu, taint, taint, entity_find, entity_find] at ht
  · have hd := (hmarks _ (seen_find hu)).2
    rwa [hold u hu, entity_find, entity_find] at hd
  · obtain ⟨d, hfrom', hto', hd⟩ := hb.partner hf hd'
    exact ⟨d, hd, hf.unique (hto d hd) hto'⟩
  · refine ⟨(hmarks d hd).1, (hmarks d hd).2, fun k => ?_⟩
    cases hk : h.field? d k with
    | some w =>
      obtain ⟨w', hw', hto'⟩ := hf.field (hto d hd) hk
      rw [hw', Option.map_some, hf.unique (hto w (hd.field hk)) hto']
    | none =>
      cases hk' : h'.field? (rename d) k with
      | none => rfl
      | some w' =>
        obtain ⟨w, hw, _⟩ := hb.field (hfrom d hd) hk'
        cases hk.symm.trans hw

end Heap

end SinkTrace
