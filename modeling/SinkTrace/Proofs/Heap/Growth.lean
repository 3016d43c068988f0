import SinkTrace.Proofs.Heap.Marks
import Mathlib.Logic.Relation

/-!
Heaps only grow: what was one entity stays one, fields are found again through merges, and marks
rise. While pairs are still to be merged a field may lead to the partner of what it led to.
-/

namespace SinkTrace

namespace Heap

variable {h h' h'' : Heap}

/-- Nothing is lost from `h` to `h'`. -/
structure Grows (h h' : Heap) : Prop where
  size : h.size ≤ h'.size
  same : ∀ {u v}, h.find u = h.find v → h'.find u = h'.find v
  field : ∀ {u k w}, h.field? u k = some w → h'.field? u k = some (h'.find w)
  taint : ∀ u, h.taint u ≤ h'.taint u
  deep : ∀ {u}, (h.entity u).deep = true → (h'.entity u).deep = true

theorem Grows.refl (h : Heap) : Grows h h :=
  ⟨Nat.le_refl _, id, fun hf => by rw [find_of_field? hf, hf], fun _ => Nat.le_refl _, id⟩

theorem Grows.trans (h₁ : Grows h h') (h₂ : Grows h' h'') : Grows h h'' := by
  refine ⟨Nat.le_trans h₁.size h₂.size, fun hf => h₂.same (h₁.same hf), fun {u k w} hf => ?_,
    fun u => Nat.le_trans (h₁.taint u) (h₂.taint u), fun hd => h₂.deep (h₁.deep hd)⟩
  rw [h₂.field (h₁.field hf), h₂.same (find_find h' w)]

/-- An id stands for what its former representative stands for. -/
theorem Grows.find (hg : Grows h h') (u : EntityId) : h'.find (h.find u) = h'.find u :=
  hg.same (find_find h u)

/-- Changes that leave the edges alone. -/
theorem Grows.of_alike (ha : Alike Entity.edges h h') (ht : ∀ u, h.taint u ≤ h'.taint u)
    (hd : ∀ {u}, (h.entity u).deep = true → (h'.entity u).deep = true) : Grows h h' := by
  refine ⟨Nat.le_of_eq ha.size.symm, fun hf => ?_, fun {u k w} hf => ?_, ht, hd⟩
  · rw [ha.find, ha.find, hf]
  · rw [ha.fields.field?, ha.find, hf, find_of_field? hf]

theorem WellFormed.grows_markAll (hw : h.WellFormed) (work : List EntityId) :
    Grows h (h.markAll work) :=
  Grows.of_alike (alike_markAll h work) (fun u => (hw.markAll_raises work u).1)
    (hw.markAll_raises work _).2

theorem WellFormed.grows_markEach (hw : h.WellFormed) (ids : List EntityId) :
    Grows h (ids.foldl Heap.markInput h) := by
  induction ids generalizing h with
  | nil => exact Grows.refl h
  | cons id ids ih => exact (hw.grows_markAll [id]).trans (ih (hw.markInput id))

/-! Merging. -/

/-- One entity, or to become one when the pairs are merged. -/
def Joins (h : Heap) (pairs : List (EntityId × EntityId)) : EntityId → EntityId → Prop :=
  Relation.EqvGen fun u v => h.find u = h.find v ∨ (u, v) ∈ pairs

theorem Joins.of_find {pairs : List (EntityId × EntityId)} {u v : EntityId}
    (hf : h.find u = h.find v) : h.Joins pairs u v := .rel _ _ (.inl hf)

theorem Joins.of_mem {pairs : List (EntityId × EntityId)} {u v : EntityId}
    (hm : (u, v) ∈ pairs) : h.Joins pairs u v := .rel _ _ (.inr hm)

theorem Joins.lift {pairs pairs' : List (EntityId × EntityId)} {u v : EntityId}
    (hj : h.Joins pairs u v) (hsame : ∀ {u v}, h.find u = h.find v → h'.find u = h'.find v)
    (hpairs : ∀ {u v}, (u, v) ∈ pairs → h'.Joins pairs' u v) : h'.Joins pairs' u v := by
  induction hj with
  | rel u v hr => exact hr.elim (fun hf => .of_find (hsame hf)) hpairs
  | refl u => exact .refl u
  | symm u v _ ih => exact .symm _ _ ih
  | trans u v w _ _ ih₁ ih₂ => exact .trans _ _ _ ih₁ ih₂

theorem find_eq_of_joins_nil {u v : EntityId} (hj : h.Joins [] u v) : h.find u = h.find v := by
  induction hj with
  | rel u v hr => exact hr.resolve_right List.not_mem_nil
  | refl u => rfl
  | symm u v _ ih => exact ih.symm
  | trans u v w _ _ ih₁ ih₂ => exact ih₁.trans ih₂

/-- Nothing is lost from `h` to `h'`, up to the pairs that are left and the entities that are only
promoted. -/
structure GrowsUpTo (h : Heap) (asked : List (EntityId × EntityId)) (h' : Heap)
    (pairs : List (EntityId × EntityId)) (promoted : List EntityId) : Prop where
  size : h'.size = h.size
  same : ∀ {u v}, h.find u = h.find v → h'.find u = h'.find v
  asked : ∀ {u v}, (u, v) ∈ asked → h'.Joins pairs u v
  field : ∀ {u k w}, h.field? u k = some w → ∃ w', h'.field? u k = some w' ∧ h'.Joins pairs w' w
  taint : ∀ u, h.taint u ≤ h'.taint u
  owed : ∀ {u}, (h.entity u).deep = true → h'.Owed promoted u
  closed : h'.InputClosed promoted

theorem GrowsUpTo.refl (hc : h.InputClosed []) (pairs : List (EntityId × EntityId)) :
    GrowsUpTo h pairs h pairs [] :=
  ⟨rfl, id, Joins.of_mem, fun {_ _ w} hf => ⟨w, hf, .refl w⟩, fun _ => Nat.le_refl _,
    owed_nil.mpr, hc⟩

theorem GrowsUpTo.skip {asked rest : List (EntityId × EntityId)} {promoted : List EntityId}
    {a b : EntityId} (hab : h'.find a = h'.find b)
    (hg : GrowsUpTo h asked h' ((a, b) :: rest) promoted) :
    GrowsUpTo h asked h' rest promoted := by
  have hjoin : ∀ {u v}, h'.Joins ((a, b) :: rest) u v → h'.Joins rest u v := by
    intro u v hj
    refine hj.lift id ?_
    intro u v hm
    rcases List.mem_cons.mp hm with he | hm
    · cases he
      exact .of_find hab
    · exact .of_mem hm
  refine { hg with asked := fun hm => hjoin (hg.asked hm), field := fun hf => ?_ }
  obtain ⟨w', hf', hj⟩ := hg.field hf
  exact ⟨w', hf', hjoin hj⟩

section Absorb

variable {x y : EntityId} {ex ey : Entity}

/-- After an absorption a field leads to what it led to, or to something that clashes with it. -/
theorem field?_absorb_joins (hw : h.WellFormed) (hx : h.live? x = some ex)
    (hy : h.live? y = some ey) (hlt : x < y) {u : EntityId} {k : FieldName} {w : EntityId}
    (hf : h.field? u k = some w) : ∃ w', (h.absorb x y).heap.field? u k = some w' ∧
      (h.absorb x y).heap.Joins (h.absorb x y).conflicts w' w := by
  have hnew := field?_absorb hw hx hy hlt u k
  by_cases hu : (h.absorb x y).heap.find u = x
  · rw [if_pos hu] at hnew
    rcases (find_absorb_eq_iff hx hy hlt u).mp hu with hfu | hfu
    · have hxw : h.field? x k = some w := by
        rw [← hf]
        exact field?_congr ((find_of_live? hx).trans hfu.symm) k
      rw [hxw] at hnew
      exact ⟨_, hnew, .of_find (find_find _ w)⟩
    · have hyw : h.field? y k = some w := by
        rw [← hf]
        exact field?_congr ((find_of_live? hy).trans hfu.symm) k
      cases hxc : h.field? x k with
      | none =>
        rw [hxc, hyw] at hnew
        exact ⟨_, hnew, .of_find (find_find _ w)⟩
      | some c =>
        rw [hxc] at hnew
        refine ⟨_, hnew, ?_⟩
        by_cases hcw : (h.absorb x y).heap.find c = (h.absorb x y).heap.find w
        · exact .of_find ((find_find _ c).trans hcw)
        · have hm : ((h.absorb x y).heap.find c, (h.absorb x y).heap.find w) ∈
              (h.absorb x y).conflicts :=
            (mem_conflicts_absorb hw hx hy hlt _ _).mpr ⟨k, c, w, hxc, hyw, rfl, rfl, hcw⟩
          exact .trans _ _ _ (Joins.of_mem hm) (Joins.of_find (find_find _ w))
  · rw [if_neg hu, hf] at hnew
    exact ⟨_, hnew, .of_find (find_find _ w)⟩

theorem taint_absorb_le (hw : h.WellFormed) (hx : h.live? x = some ex)
    (hy : h.live? y = some ey) (hlt : x < y) (u : EntityId) :
    h.taint u ≤ (h.absorb x y).heap.taint u := by
  rw [taint_absorb hw hx hy hlt]
  split
  · rename_i hu
    rcases (find_absorb_eq_iff hx hy hlt u).mp hu with hf | hf
    · rw [taint, ← entity_find, hf, entity_of_live? hx]
      exact Nat.le_max_left ..
    · rw [taint, ← entity_find, hf, entity_of_live? hy]
      exact Nat.le_max_right ..
  · exact Nat.le_refl _

theorem GrowsUpTo.absorb {h₀ : Heap} {asked rest : List (EntityId × EntityId)}
    {promoted : List EntityId} {a b : EntityId} (hw : h.WellFormed) (hx : h.live? x = some ex)
    (hy : h.live? y = some ey) (hlt : x < y)
    (hends : h.find a = x ∧ h.find b = y ∨ h.find a = y ∧ h.find b = x)
    (hg : GrowsUpTo h₀ asked h ((a, b) :: rest) promoted) :
    GrowsUpTo h₀ asked (h.absorb x y).heap ((h.absorb x y).conflicts ++ rest)
      (promoted ++ (h.absorb x y).promoted) := by
  have hsame : ∀ {u v}, h.find u = h.find v →
      (h.absorb x y).heap.find u = (h.absorb x y).heap.find v := find_absorb_congr hx hy hlt
  have hab : (h.absorb x y).heap.find a = (h.absorb x y).heap.find b := by
    have hends' : ∀ v, h.find v = x ∨ h.find v = y → (h.absorb x y).heap.find v = x :=
      fun v => (find_absorb_eq_iff hx hy hlt v).mpr
    rcases hends with ⟨ha, hb⟩ | ⟨ha, hb⟩
    · rw [hends' a (.inl ha), hends' b (.inr hb)]
    · rw [hends' a (.inr ha), hends' b (.inl hb)]
  have hjoin : ∀ {u v}, h.Joins ((a, b) :: rest) u v →
      (h.absorb x y).heap.Joins ((h.absorb x y).conflicts ++ rest) u v := by
    intro u v hj
    refine hj.lift hsame ?_
    intro u v hm
    rcases List.mem_cons.mp hm with he | hm
    · cases he
      exact .of_find hab
    · exact .of_mem (List.mem_append_right _ hm)
  refine ⟨(size_absorb h x y).trans hg.size, fun hf => hsame (hg.same hf),
    fun hm => hjoin (hg.asked hm), fun hf => ?_,
    fun u => Nat.le_trans (hg.taint u) (taint_absorb_le hw hx hy hlt u),
    fun hd => Owed.absorb hw hx hy hlt (hg.owed hd), hg.closed.absorb hw hx hy hlt⟩
  obtain ⟨w, hf, hj⟩ := hg.field hf
  obtain ⟨w', hf', hj'⟩ := field?_absorb_joins hw hx hy hlt hf
  refine ⟨w', hf', .trans _ _ _ ?_ (hjoin hj)⟩
  exact hj'.lift id fun hm => .of_mem (List.mem_append_left _ hm)

end Absorb

/-- A merge loses nothing, joins what it was asked to join and leaves nothing due. -/
theorem WellFormed.grows_merge (hw : h.WellFormed) (hc : h.InputClosed []) {a b : EntityId}
    (ha : a < h.size) (hb : b < h.size) : Grows h (h.merge a b).2 ∧
      (h.merge a b).2.InputClosed [] ∧ (h.merge a b).2.find a = (h.merge a b).2.find b := by
  obtain ⟨hwm, hg⟩ := @WellFormed.mergePairs_keeps h (GrowsUpTo h [(a, b)])
    (fun hab => GrowsUpTo.skip hab)
    (fun hw hx hy hlt hends => GrowsUpTo.absorb hw hx hy hlt hends) _ []
    hw (mem_singleton_pair ha hb) (GrowsUpTo.refl hc _)
  have hm := hwm.grows_markEach (h.mergePairs [(a, b)] []).2
  obtain ⟨hclosed, howed⟩ := hg.closed.markEach hwm
  have hsize := hg.size
  refine ⟨⟨?_, fun hf => hm.same (hg.same hf), fun {u k w} hf => ?_, fun u => ?_,
    fun {u} hd => ?_⟩, hclosed, ?_⟩
  · exact Nat.le_trans (Nat.le_of_eq hsize.symm) hm.size
  · obtain ⟨w', hf', hj⟩ := hg.field hf
    exact (hm.field hf').trans (congrArg some (hm.same (find_eq_of_joins_nil hj)))
  · exact Nat.le_trans (hg.taint u) (hm.taint u)
  · have hu : u < h.size := by
      rcases Nat.lt_or_ge u h.size with hlt | hge
      · exact hlt
      · rw [entity_eq, find_of_size_le hge] at hd
        cases he : h.live? u with
        | none => simp [he] at hd
        | some e => exact lt_size_of_live? he
    exact owed_nil.mp (howed (hsize.symm ▸ hu) (hg.owed hd))
  · exact hm.same (find_eq_of_joins_nil (hg.asked (List.mem_singleton_self _)))

theorem WellFormed.size_merge (hw : h.WellFormed) {a b : EntityId} (ha : a < h.size)
    (hb : b < h.size) : (h.merge a b).2.size = h.size := by
  obtain ⟨_, hs⟩ := @WellFormed.mergePairs_keeps h (fun h' _ _ => h'.size = h.size)
    (fun _ hs => hs) (fun _ _ _ _ _ hs => (size_absorb _ _ _).trans hs) _ []
    hw (mem_singleton_pair ha hb) rfl
  have hm : Alike Entity.edges (h.mergePairs [(a, b)] []).1 (h.merge a b).2 :=
    Alike.foldl (fun h id => alike_markAll h [id]) _ _
  exact hm.size.trans hs

end Heap

end SinkTrace
