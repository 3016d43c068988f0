import SinkTrace.Proofs.Heap.Merging

/-!
What merging and marking do to the marks. A deep input hands its mark down to its children; while
entities are merged some of them are only promoted, that is due to be marked.
-/

namespace SinkTrace

theorem TaintId.isTainted_iff {t : TaintId} : isTainted t = true ↔ firstSource ≤ t :=
  ⟨of_decide_eq_true, decide_eq_true⟩

theorem TaintId.isInput_iff {t : TaintId} : isInput t = true ↔ input ≤ t :=
  ⟨of_decide_eq_true, decide_eq_true⟩

@[simp]
theorem Entity.taint_markDeep (e : Entity) : e.markDeep.taint = max e.taint TaintId.input := rfl

theorem Entity.marks_of_bare_eq {e e' : Entity} (hb : e.bare = e'.bare) :
    e.taint = e'.taint ∧ e.deep = e'.deep := by
  have ht : e.bare.taint = e'.bare.taint := by rw [hb]
  have hd : e.bare.deep = e'.bare.deep := by rw [hb]
  exact ⟨ht, hd⟩

namespace Heap

variable {h : Heap}

section Absorb

variable {x y : EntityId} {ex ey : Entity}

theorem entity_absorb_self (hw : h.WellFormed) (hx : h.live? x = some ex)
    (hy : h.live? y = some ey) (hlt : x < y) {u : EntityId}
    (hu : (h.absorb x y).heap.find u = x) : ∃ e : Entity, e.bare = ex.bare ∧
      (h.absorb x y).heap.entity u = e.takeOver ey := by
  obtain ⟨e, hb, he⟩ := live?_absorb_self hw hx hy hlt
  refine ⟨e, hb, ?_⟩
  rw [entity_eq, hu, he]
  rfl

theorem entity_absorb_of_ne (hw : h.WellFormed) (hx : h.live? x = some ex)
    (hy : h.live? y = some ey) (hlt : x < y) {u : EntityId}
    (hu : (h.absorb x y).heap.find u ≠ x) :
    ((h.absorb x y).heap.entity u).bare = (h.entity u).bare := by
  have hfind := find_absorb hx hy hlt u
  have hy' : h.find u ≠ y := by
    intro he
    rw [if_pos he] at hfind
    exact hu hfind
  rw [if_neg hy'] at hfind
  have hl := live?_absorb_of_ne hw hx hy hlt (hfind ▸ hu) hy'
  rw [entity_eq, entity_eq, hfind]
  cases he : h.live? (h.find u) <;> cases he' : (h.absorb x y).heap.live? (h.find u) <;>
    simp_all

theorem taint_absorb (hw : h.WellFormed) (hx : h.live? x = some ex)
    (hy : h.live? y = some ey) (hlt : x < y) (u : EntityId) :
    (h.absorb x y).heap.taint u =
      if (h.absorb x y).heap.find u = x then max ex.taint ey.taint else h.taint u := by
  unfold taint
  split
  · rename_i hu
    obtain ⟨e, hb, he⟩ := entity_absorb_self hw hx hy hlt hu
    rw [he, Entity.taint_takeOver, (Entity.marks_of_bare_eq hb).1]
  · rename_i hu
    exact (Entity.marks_of_bare_eq (entity_absorb_of_ne hw hx hy hlt hu)).1

theorem deep_absorb (hw : h.WellFormed) (hx : h.live? x = some ex)
    (hy : h.live? y = some ey) (hlt : x < y) (u : EntityId) :
    ((h.absorb x y).heap.entity u).deep =
      if (h.absorb x y).heap.find u = x then ex.deep else (h.entity u).deep := by
  split
  · rename_i hu
    obtain ⟨e, hb, he⟩ := entity_absorb_self hw hx hy hlt hu
    rw [he, Entity.deep_takeOver, (Entity.marks_of_bare_eq hb).2]
  · rename_i hu
    exact (Entity.marks_of_bare_eq (entity_absorb_of_ne hw hx hy hlt hu)).2

/-- The ids of the survivor are those of the two. -/
theorem find_absorb_eq_iff (hx : h.live? x = some ex) (hy : h.live? y = some ey) (hlt : x < y)
    (u : EntityId) : (h.absorb x y).heap.find u = x ↔ h.find u = x ∨ h.find u = y := by
  rw [find_absorb hx hy hlt]
  split
  · rename_i hu
    simp [hu]
  · rename_i hu
    simp [hu]

/-- What was one entity stays one. -/
theorem find_absorb_congr (hx : h.live? x = some ex) (hy : h.live? y = some ey) (hlt : x < y)
    {u v : EntityId} (huv : h.find u = h.find v) :
    (h.absorb x y).heap.find u = (h.absorb x y).heap.find v := by
  rw [find_absorb hx hy hlt, find_absorb hx hy hlt, huv]

end Absorb

section Marking

theorem isShallow_eq (h : Heap) (id : EntityId) :
    h.isShallow id = (h.live? (h.find id)).any fun e => !e.deep := by
  unfold isShallow live?
  cases h.nodes[h.find id]? with
  | none => rfl
  | some n => cases n <;> rfl

theorem lt_size_of_isShallow {id : EntityId} (hs : h.isShallow id = true) : id < h.size := by
  rcases Nat.lt_or_ge id h.size with hlt | hge
  · exact hlt
  · rw [isShallow_eq, find_of_size_le hge] at hs
    cases he : h.live? id with
    | none => simp [he] at hs
    | some e => exact absurd (lt_size_of_live? he) (Nat.not_lt.mpr hge)

theorem WellFormed.deep_of_not_isShallow (hw : h.WellFormed) {id : EntityId} (hid : id < h.size)
    (hs : ¬h.isShallow id = true) : (h.entity id).deep = true := by
  rw [isShallow_eq, hw.live? hid] at hs
  simpa using hs

theorem alike_markOne (h : Heap) (id : EntityId) :
    Alike Entity.edges h (h.markOne id) := by
  have hu : Alike Entity.edges h (h.update id Entity.markDeep) := alike_update h id fun _ => rfl
  exact hu.trans (alike_note _ _)

theorem alike_markAll (h : Heap) (work : List EntityId) :
    Alike Entity.edges h (h.markAll work) := by
  fun_induction markAll h work with
  | case1 h => exact Alike.refl _ h
  | case2 h id rest _ ih => exact (alike_markOne h id).trans ih
  | case3 h id rest _ ih => exact ih

theorem Alike.fields {h' : Heap} (ha : Alike Entity.edges h h') : Alike Entity.fields h h' :=
  ha.comp Prod.fst

theorem WellFormed.entity_markOne (hw : h.WellFormed) {id : EntityId} (hid : id < h.size)
    (u : EntityId) : (h.markOne id).entity u =
      if h.find id = h.find u then (h.entity u).markDeep else h.entity u := by
  unfold Heap.markOne
  rw [entity_note]
  split
  · rename_i hu
    exact hw.descending.entity_update_self hid _ hu
  · rename_i hu
    exact entity_update_of_ne _ hu

/-- Marking raises marks only. -/
theorem WellFormed.markAll_raises (hw : h.WellFormed) (work : List EntityId) (u : EntityId) :
    h.taint u ≤ (h.markAll work).taint u ∧
      ((h.entity u).deep = true → ((h.markAll work).entity u).deep = true) := by
  fun_induction Heap.markAll h work with
  | case1 => exact ⟨Nat.le_refl _, id⟩
  | case2 h id rest hs ih =>
    obtain ⟨ht, hd⟩ := ih (hw.markOne id)
    have he := hw.entity_markOne (lt_size_of_isShallow hs) u
    constructor
    · refine Nat.le_trans ?_ ht
      unfold taint
      rw [he]
      split
      · exact Nat.le_max_left ..
      · exact Nat.le_refl _
    · intro hu
      apply hd
      rw [he]
      split
      · rfl
      · exact hu
  | case3 h id rest hs ih => exact ih hw

end Marking

/-! Deep inputs that are due. -/

/-- Deep input, or promoted to be. -/
def Owed (h : Heap) (promoted : List EntityId) (u : EntityId) : Prop :=
  (h.entity u).deep = true ∨ ∃ p ∈ promoted, h.find p = h.find u

/-- A deep input is input, and so is everything below it, now or as soon as the promoted entities
are marked. -/
structure InputClosed (h : Heap) (promoted : List EntityId) : Prop where
  children : ∀ {u k w}, (h.entity u).deep = true → h.field? u k = some w → h.Owed promoted w
  taint : ∀ {u}, (h.entity u).deep = true → TaintId.input ≤ h.taint u

theorem Owed.congr {promoted : List EntityId} {u v : EntityId} (ho : h.Owed promoted u)
    (hf : h.find u = h.find v) : h.Owed promoted v := by
  rcases ho with hd | ⟨p, hp, he⟩
  · exact .inl (entity_congr hf ▸ hd)
  · exact .inr ⟨p, hp, he.trans hf⟩

theorem owed_nil {u : EntityId} : h.Owed [] u ↔ (h.entity u).deep = true := by simp [Owed]

section Absorb

variable {x y : EntityId} {ex ey : Entity} {promoted : List EntityId}

theorem Owed.absorb (hw : h.WellFormed) (hx : h.live? x = some ex) (hy : h.live? y = some ey)
    (hlt : x < y) {u : EntityId} (ho : h.Owed promoted u) :
    (h.absorb x y).heap.Owed (promoted ++ (h.absorb x y).promoted) u := by
  rcases ho with hd | ⟨p, hp, he⟩
  · by_cases hu : (h.absorb x y).heap.find u = x
    · cases hex : ex.deep with
      | true => exact .inl (by rw [deep_absorb hw hx hy hlt, if_pos hu, hex])
      | false =>
        -- only the other entity was deep, so the survivor is promoted
        have hey : ey.deep = true := by
          rcases (find_absorb_eq_iff hx hy hlt u).mp hu with hf | hf
          · rw [← entity_find, hf, entity_of_live? hx, hex] at hd
            cases hd
          · rwa [← entity_find, hf, entity_of_live? hy] at hd
        have hm : x ∈ (h.absorb x y).promoted :=
          (mem_promoted_absorb hw hx hy hlt x).mpr (.inr ⟨hey, hex, rfl⟩)
        refine .inr ⟨x, List.mem_append_right _ hm, ?_⟩
        rw [hu, find_absorb_eq_iff hx hy hlt]
        exact .inl (find_of_live? hx)
    · exact .inl (by rw [deep_absorb hw hx hy hlt, if_neg hu, hd])
  · exact .inr ⟨p, List.mem_append_left _ hp, find_absorb_congr hx hy hlt he⟩

theorem InputClosed.absorb (hc : h.InputClosed promoted) (hw : h.WellFormed)
    (hx : h.live? x = some ex) (hy : h.live? y = some ey) (hlt : x < y) :
    (h.absorb x y).heap.InputClosed (promoted ++ (h.absorb x y).promoted) := by
  have hfind : ∀ w, (h.absorb x y).heap.find (h.find w) = (h.absorb x y).heap.find w :=
    fun w => find_absorb_congr hx hy hlt (find_find h w)
  constructor
  · intro u k w hd hf
    rw [field?_absorb hw hx hy hlt, Option.map_eq_some_iff] at hf
    obtain ⟨c, hc', rfl⟩ := hf
    -- what a child owes after the absorption, it owes under its new name too
    have hto : (h.absorb x y).heap.Owed (promoted ++ (h.absorb x y).promoted) c →
        (h.absorb x y).heap.Owed (promoted ++ (h.absorb x y).promoted)
          ((h.absorb x y).heap.find c) := fun ho => ho.congr (find_find _ c).symm
    apply hto
    by_cases hu : (h.absorb x y).heap.find u = x
    · rw [deep_absorb hw hx hy hlt, if_pos hu] at hd
      rw [if_pos hu, Option.or_eq_some_iff] at hc'
      rcases hc' with hxc | ⟨-, hyc⟩
      · exact Owed.absorb hw hx hy hlt (hc.children (by rw [entity_of_live? hx, hd]) hxc)
      · cases hey : ey.deep with
        | true =>
          exact Owed.absorb hw hx hy hlt (hc.children (by rw [entity_of_live? hy, hey]) hyc)
        | false =>
          have hm : (h.absorb x y).heap.find c ∈ (h.absorb x y).promoted :=
            (mem_promoted_absorb hw hx hy hlt _).mpr (.inl ⟨hd, hey, k, c, hyc, rfl⟩)
          exact .inr ⟨_, List.mem_append_right _ hm, find_find _ c⟩
    · rw [deep_absorb hw hx hy hlt, if_neg hu] at hd
      rw [if_neg hu] at hc'
      exact Owed.absorb hw hx hy hlt (hc.children hd hc')
  · intro u hd
    rw [deep_absorb hw hx hy hlt] at hd
    rw [taint_absorb hw hx hy hlt]
    split at hd
    · rename_i hu
      rw [if_pos hu]
      have ht := @InputClosed.taint _ _ hc x (by rw [entity_of_live? hx, hd])
      rw [Heap.taint, entity_of_live? hx] at ht
      exact Nat.le_trans ht (Nat.le_max_left ..)
    · rename_i hu
      rw [if_neg hu]
      exact hc.taint hd

end Absorb

section Marking

variable {work promoted : List EntityId}

theorem Owed.markOne (hw : h.WellFormed) {id : EntityId} (hid : id < h.size) {u : EntityId}
    (children : List EntityId) (ho : h.Owed (id :: promoted) u) :
    (h.markOne id).Owed (children ++ promoted) u := by
  have hfind := (alike_markOne h id).find
  have he := hw.entity_markOne hid u
  rcases ho with hd | ⟨p, hp, hf⟩
  · left
    rw [he]
    split
    · rfl
    · exact hd
  · rcases List.mem_cons.mp hp with rfl | hp
    · left
      rw [he, if_pos hf]
      rfl
    · exact .inr ⟨p, List.mem_append_right _ hp, by rw [hfind, hfind, hf]⟩

theorem InputClosed.markOne (hw : h.WellFormed) {id : EntityId} (hid : id < h.size)
    (hc : h.InputClosed (id :: promoted)) :
    (h.markOne id).InputClosed ((h.entity id).fields.values ++ promoted) := by
  have ha := alike_markOne h id
  constructor
  · intro u k w hd hf
    rw [ha.fields.field?] at hf
    by_cases hu : h.find id = h.find u
    · -- the children of the entity itself are listed
      rw [field?_eq, ← entity_congr hu, Option.map_eq_some_iff] at hf
      obtain ⟨c, hg, rfl⟩ := hf
      refine .inr ⟨c, List.mem_append_left _ (Table.mem_values_of_get? hg), ?_⟩
      rw [ha.find, ha.find, find_find]
    · rw [hw.entity_markOne hid, if_neg hu] at hd
      exact Owed.markOne hw hid _ (hc.children hd hf)
  · intro u hd
    unfold Heap.taint
    rw [hw.entity_markOne hid] at hd ⊢
    split at hd
    · rename_i hu
      rw [if_pos hu]
      exact Nat.le_max_right ..
    · rename_i hu
      rw [if_neg hu]
      exact hc.taint hd

/-- An entity that need not be marked was deep already. -/
theorem Owed.drop (hw : h.WellFormed) {id u : EntityId} (hu : u < h.size)
    (hs : ¬h.isShallow id = true) (ho : h.Owed (id :: promoted) u) : h.Owed promoted u := by
  rcases ho with hd | ⟨p, hp, hf⟩
  · exact .inl hd
  · rcases List.mem_cons.mp hp with rfl | hp
    · left
      have hid : p < h.size := by
        rcases Nat.lt_or_ge p h.size with hlt | hge
        · exact hlt
        · rw [find_of_size_le hge] at hf
          exact absurd (hf ▸ find_lt_size hu) (Nat.not_lt.mpr hge)
      rw [← entity_congr hf]
      exact hw.deep_of_not_isShallow hid hs
    · exact .inr ⟨p, hp, hf⟩

theorem InputClosed.drop (hw : h.WellFormed) {id : EntityId} (hs : ¬h.isShallow id = true)
    (hc : h.InputClosed (id :: promoted)) : h.InputClosed promoted :=
  ⟨fun hd hf => Owed.drop hw (hw.field?_lt hf) hs (hc.children hd hf), hc.taint⟩

/-- Marking does what was due. -/
theorem InputClosed.markAll (hw : h.WellFormed) (hc : h.InputClosed (work ++ promoted)) :
    (h.markAll work).InputClosed promoted ∧
      ∀ {u}, u < h.size → h.Owed (work ++ promoted) u → (h.markAll work).Owed promoted u := by
  fun_induction Heap.markAll h work with
  | case1 h => exact ⟨hc, fun _ ho => ho⟩
  | case2 h id rest hs ih =>
    have hid := lt_size_of_isShallow hs
    have hc' : (h.markOne id).InputClosed
        (((h.entity id).fields.values ++ rest) ++ promoted) := by
      rw [List.append_assoc]
      exact hc.markOne hw hid
    obtain ⟨hdone, howed⟩ := ih (hw.markOne id) hc'
    refine ⟨hdone, fun {u} hu ho => howed ?_ ?_⟩
    · exact (alike_markOne h id).size ▸ hu
    · rw [List.append_assoc]
      exact Owed.markOne hw hid _ ho
  | case3 h id rest hs ih =>
    obtain ⟨hdone, howed⟩ := ih hw (hc.drop hw hs)
    exact ⟨hdone, fun hu ho => howed hu (Owed.drop hw hu hs ho)⟩

theorem InputClosed.markEach (hw : h.WellFormed) (hc : h.InputClosed promoted) :
    (promoted.foldl markInput h).InputClosed [] ∧
      ∀ {u}, u < h.size → h.Owed promoted u → (promoted.foldl markInput h).Owed [] u := by
  induction promoted generalizing h with
  | nil => exact ⟨hc, fun _ ho => ho⟩
  | cons id promoted ih =>
    obtain ⟨hone, howed⟩ := @InputClosed.markAll h [id] promoted hw hc
    obtain ⟨hdone, hrest⟩ := ih (hw.markInput id) hone
    have hsize := (alike_markAll h [id]).size
    exact ⟨hdone, fun hu ho => hrest (hsize.symm ▸ hu) (howed hu ho)⟩

end Marking

end Heap

end SinkTrace
