import SinkTrace.Proofs.Heap.Absorb

/-!
Merging as a loop. What every absorption keeps, with the pairs that it adds to the work and the
entities that it promotes, holds when no work is left.
-/

namespace SinkTrace

namespace Heap

variable {h : Heap}

theorem live?_of_get? {u : EntityId} {k : FieldName} {c : EntityId}
    (hg : (h.entity u).fields.get? k = some c) : h.live? (h.find u) = some (h.entity u) := by
  rw [entity_eq] at hg ⊢
  cases he : h.live? (h.find u) with
  | some e => rfl
  | none => simp [he, Table.get?, Table.find] at hg

/-- A field leads to a live entity. -/
theorem WellFormed.field?_live (hw : h.WellFormed) {u : EntityId} {k : FieldName} {w : EntityId}
    (hf : h.field? u k = some w) : h.live? w = some (h.entity w) := by
  rw [field?_eq, Option.map_eq_some_iff] at hf
  obtain ⟨c, hg, rfl⟩ := hf
  obtain ⟨e, hc, _⟩ := hw.child (live?_of_get? hg) hg
  rw [find_of_live? hc, entity_of_live? hc, hc]

theorem WellFormed.field?_lt (hw : h.WellFormed) {u : EntityId} {k : FieldName} {w : EntityId}
    (hf : h.field? u k = some w) : w < h.size := lt_size_of_live? (hw.field?_live hf)

theorem find_of_field? {u : EntityId} {k : FieldName} {w : EntityId}
    (hf : h.field? u k = some w) : h.find w = w := by
  rw [field?_eq, Option.map_eq_some_iff] at hf
  obtain ⟨c, _, rfl⟩ := hf
  exact find_find h c

theorem lt_size_of_field? {u : EntityId} {k : FieldName} {w : EntityId}
    (hf : h.field? u k = some w) : u < h.size := by
  rw [field?_eq, Option.map_eq_some_iff] at hf
  obtain ⟨c, hg, rfl⟩ := hf
  rcases Nat.lt_or_ge u h.size with hu | hu
  · exact hu
  · have hl := lt_size_of_live? (live?_of_get? hg)
    rw [find_of_size_le hu] at hl
    exact absurd hl (Nat.not_lt.mpr hu)

/-- Children that clash are in the arena. -/
theorem lt_size_of_mem_conflicts (hw : h.WellFormed) {x y : EntityId} {ex ey : Entity}
    (hx : h.live? x = some ex) (hy : h.live? y = some ey) (hlt : x < y)
    {pair : EntityId × EntityId} (hm : pair ∈ (h.absorb x y).conflicts) :
    pair.1 < h.size ∧ pair.2 < h.size := by
  have hsize := size_absorb h x y
  obtain ⟨k, c, d, hc, hd, ha, hb, _⟩ := (mem_conflicts_absorb hw hx hy hlt _ _).mp hm
  have hca : pair.1 < (h.absorb x y).heap.size :=
    ha ▸ find_lt_size (hsize.symm ▸ hw.field?_lt hc)
  have hdb : pair.2 < (h.absorb x y).heap.size :=
    hb ▸ find_lt_size (hsize.symm ▸ hw.field?_lt hd)
  exact ⟨hsize ▸ hca, hsize ▸ hdb⟩

/-- What one absorption keeps is kept by merging pairs and all that follows from them. -/
theorem WellFormed.mergePairs_keeps
    {hold : Heap → List (EntityId × EntityId) → List EntityId → Prop}
    (hskip : ∀ {h a b rest promoted}, h.find a = h.find b →
      hold h ((a, b) :: rest) promoted → hold h rest promoted)
    (hstep : ∀ {h a b rest promoted x y ex ey}, h.WellFormed → h.live? x = some ex →
      h.live? y = some ey → x < y →
      (h.find a = x ∧ h.find b = y ∨ h.find a = y ∧ h.find b = x) →
      hold h ((a, b) :: rest) promoted →
      hold (h.absorb x y).heap ((h.absorb x y).conflicts ++ rest)
        (promoted ++ (h.absorb x y).promoted))
    {pairs : List (EntityId × EntityId)} {promoted : List EntityId} (hw : h.WellFormed)
    (hin : ∀ pair ∈ pairs, pair.1 < h.size ∧ pair.2 < h.size) (hi : hold h pairs promoted) :
    (h.mergePairs pairs promoted).1.WellFormed ∧
      hold (h.mergePairs pairs promoted).1 [] (h.mergePairs pairs promoted).2 := by
  fun_induction mergePairs h pairs promoted with
  | case1 h promoted => exact ⟨hw, hi⟩
  | case2 h promoted a b rest x y hxy ih =>
    exact ih hw (fun pair hm => hin pair (List.mem_cons_of_mem _ hm)) (hskip hxy hi)
  | case3 h promoted a b rest x y hxy hzero =>
    -- the counter cannot be zero while an entity is live
    have hpos := liveTotal_pos (hw.live? (hin _ (List.mem_cons_self ..)).1)
    rw [← hw.count, hzero] at hpos
    exact absurd hpos (Nat.lt_irrefl 0)
  | case4 h promoted a b rest x y hxy hcount step ih =>
    have ha := hw.live? (hin _ (List.mem_cons_self ..)).1
    have hb := hw.live? (hin _ (List.mem_cons_self ..)).2
    have hends : (h.find a = min x y ∧ h.find b = max x y ∨
        h.find a = max x y ∧ h.find b = min x y) ∧ min x y < max x y := by
      rcases Nat.lt_or_gt_of_ne hxy with hlt | hlt
      · rw [Nat.min_eq_left (Nat.le_of_lt hlt), Nat.max_eq_right (Nat.le_of_lt hlt)]
        exact ⟨.inl ⟨rfl, rfl⟩, hlt⟩
      · rw [Nat.min_eq_right (Nat.le_of_lt hlt), Nat.max_eq_left (Nat.le_of_lt hlt)]
        exact ⟨.inr ⟨rfl, rfl⟩, hlt⟩
    obtain ⟨hends, hlt⟩ := hends
    have hlive : ∃ ex ey, h.live? (min x y) = some ex ∧ h.live? (max x y) = some ey := by
      rcases hends with ⟨hx, hy⟩ | ⟨hy, hx⟩
      · exact ⟨_, _, hx ▸ ha, hy ▸ hb⟩
      · exact ⟨_, _, hx ▸ hb, hy ▸ ha⟩
    obtain ⟨ex, ey, hx, hy⟩ := hlive
    refine ih (wellFormed_absorb hw hx hy hlt) ?_ (hstep hw hx hy hlt hends hi)
    intro pair hm
    rw [size_absorb]
    rcases List.mem_append.mp hm with hm | hm
    · exact lt_size_of_mem_conflicts hw hx hy hlt hm
    · exact hin pair (List.mem_cons_of_mem _ hm)

theorem WellFormed.markEach (hw : h.WellFormed) (ids : List EntityId) :
    (ids.foldl Heap.markInput h).WellFormed := by
  induction ids generalizing h with
  | nil => exact hw
  | cons id ids ih => exact ih (hw.markInput id)

theorem mem_singleton_pair {a b : EntityId} (ha : a < h.size) (hb : b < h.size) :
    ∀ pair ∈ [(a, b)], pair.1 < h.size ∧ pair.2 < h.size := by
  intro pair hm
  rw [List.mem_singleton] at hm
  subst hm
  exact ⟨ha, hb⟩

theorem WellFormed.merge (hw : h.WellFormed) {a b : EntityId} (ha : a < h.size)
    (hb : b < h.size) : (h.merge a b).2.WellFormed := by
  have hm := @WellFormed.mergePairs_keeps h (fun _ _ _ => True) (fun _ _ => trivial)
    (fun _ _ _ _ _ _ => trivial) _ [] hw (mem_singleton_pair ha hb) trivial
  exact hm.1.markEach _

/-- Two entities without a common field, of which none is deep, become one in a single step. -/
theorem merge_of_apart {a b : EntityId} (ha : h.find a = a) (hb : h.find b = b) (hlt : a < b)
    (hlive : h.liveCount ≠ 0) (hc : (h.absorb a b).conflicts = [])
    (hp : (h.absorb a b).promoted = []) : (h.merge a b).2 = (h.absorb a b).heap := by
  have hpairs : h.mergePairs [(a, b)] [] = ((h.absorb a b).heap, []) := by
    rw [mergePairs, ha, hb, if_neg (Nat.ne_of_lt hlt), if_neg hlive]
    simp only [Nat.min_eq_left (Nat.le_of_lt hlt), Nat.max_eq_right (Nat.le_of_lt hlt), hc, hp,
      List.append_nil, mergePairs]
  rw [Heap.merge, hpairs]
  rfl

end Heap

end SinkTrace
