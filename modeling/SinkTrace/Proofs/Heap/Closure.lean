import SinkTrace.Proofs.Heap.Picture
import SinkTrace.Proofs.Heap.Runs
import Mathlib.Order.Lattice.Nat

/-!
A merge computes the congruence closure: the least equivalence that keeps what was one, makes the
two entities one, and with any two entities their children under one name. Marks are handed on
within a class, and deep input from a class to the classes below it.
-/

namespace SinkTrace

/-- The greatest of some numbers, raised to a bound where that is asked for. -/
theorem exists_greatest_raised {members : Set Nat} {bound t : Nat} {raised : Bool}
    (hne : members.Nonempty) (hle : ∀ m ∈ members, m ≤ t)
    (ht : t ∈ members ∨ raised = true ∧ t = bound) (hb : raised = true → bound ≤ t) :
    ∃ m, IsGreatest members m ∧ t = if raised = true then max m bound else m := by
  rcases ht with ht | ⟨hr, ht⟩
  · refine ⟨t, ⟨ht, hle⟩, ?_⟩
    split
    · rename_i hr
      exact (Nat.max_eq_left (hb hr)).symm
    · rfl
  · have hbdd : BddAbove members := ⟨t, hle⟩
    have hmem := Nat.sSup_mem hne hbdd
    refine ⟨sSup members, ⟨hmem, fun m hm => le_csSup hbdd hm⟩, ?_⟩
    rw [if_pos hr, ← ht]
    exact (Nat.max_eq_right (hle _ hmem)).symm

namespace Heap

/-- The least congruence that contains what is one entity in `h` and makes `a` and `b` one. -/
inductive Closure (h : Heap) (a b : EntityId) : EntityId → EntityId → Prop where
  | same {u v : EntityId} (hf : h.find u = h.find v) : Closure h a b u v
  | pair : Closure h a b a b
  | symm {u v : EntityId} (hc : Closure h a b u v) : Closure h a b v u
  | trans {u v w : EntityId} (h₁ : Closure h a b u v) (h₂ : Closure h a b v w) : Closure h a b u w
  | field {u v u' v' : EntityId} {k : FieldName} (hc : Closure h a b u v)
    (hu : h.field? u k = some u') (hv : h.field? v k = some v') : Closure h a b u' v'

/-- Reached by fields, in any number of steps. -/
def Below (h : Heap) : EntityId → EntityId → Prop :=
  Relation.ReflTransGen fun u v => ∃ k, h.field? u k = some v

/-- `h'` is `h` with the classes of the closure for entities. -/
structure IsClosure (h : Heap) (a b : EntityId) (h' : Heap) : Prop where
  same : ∀ u v, h'.find u = h'.find v ↔ Closure h a b u v
  smallest : ∀ u v, Closure h a b u v → h'.find u ≤ v
  field : ∀ u k w, h'.field? u k = some w ↔
    ∃ v c, Closure h a b u v ∧ h.field? v k = some c ∧ h'.find c = w
  count : h'.liveCount + (h.liveIds.filter fun id => h'.find id ≠ id).length = h.liveCount
  deep : ∀ u, (h'.entity u).deep = true ↔
    ∃ v, (h.entity v).deep = true ∧ h'.Below (h'.find v) (h'.find u)
  taint : ∀ u, u < h.size → ∃ m, IsGreatest {t | ∃ v, Closure h a b u v ∧ h.taint v = t} m ∧
    h'.taint u = if (h'.entity u).deep = true then max m TaintId.input else m

variable {h h' : Heap} {a b : EntityId}

/-- A growing heap that makes `a` and `b` one contains the closure. -/
theorem Closure.find_eq (hg : Grows h h') (hab : h'.find a = h'.find b) {u v : EntityId}
    (hc : Closure h a b u v) : h'.find u = h'.find v := by
  induction hc with
  | same hf => exact hg.same hf
  | pair => exact hab
  | symm _ ih => exact ih.symm
  | trans _ _ ih₁ ih₂ => exact ih₁.trans ih₂
  | @field u v u' v' k _ hu hv ih =>
    have hchild := (hg.field hu).symm.trans ((field?_congr ih k).trans (hg.field hv))
    exact Option.some.inj hchild

/-- Below a deep input everything is deep input. -/
theorem Proper.deep_below (hp : h.Proper) {u v : EntityId} (hb : h.Below u v)
    (hd : (h.entity u).deep = true) : (h.entity v).deep = true := by
  induction hb with
  | refl => exact hd
  | tail _ hstep ih =>
    obtain ⟨k, hf⟩ := hstep
    exact owed_nil.mp (hp.closed.children ih hf)

/-- What a merge of `a` and `b` may show: the classes of the closure, with the fields and taints
of their members. -/
def closurePicture (h h' : Heap) (a b : EntityId) : Picture EntityId where
  same := Closure h a b
  leads u k w := ∃ v c, Closure h a b u v ∧ h.field? v k = some c ∧ Closure h a b c w
  deep u := ∃ v, (h.entity v).deep = true ∧ h'.Below (h'.find v) (h'.find u)
  taint u t := (∃ v, Closure h a b u v ∧ h.taint v = t) ∨
    (∃ v, (h.entity v).deep = true ∧ h'.Below (h'.find v) (h'.find u)) ∧ t = TaintId.input

theorem lawful_closurePicture (hg : Grows h h') (hab : h'.find a = h'.find b) :
    (closurePicture h h' a b).Lawful where
  symm hc := .symm hc
  trans h₁ h₂ := .trans h₁ h₂
  leads_same := by
    rintro s s' k t t' hs ⟨v, c, hv, hf, hc⟩ ht
    exact ⟨v, c, .trans (.symm hs) hv, hf, .trans hc ht⟩
  congruent := by
    rintro s s' k t t' hs ⟨v, c, hv, hf, hc⟩ ⟨v', c', hv', hf', hc'⟩
    have hvv : Closure h a b v v' := .trans (.symm hv) (.trans hs hv')
    exact .trans (.symm hc) (.trans (.field hvv hf hf') hc')
  deep_same := by
    rintro s t hs ⟨v, hd, hb⟩
    exact ⟨v, hd, hs.find_eq hg hab ▸ hb⟩
  deep_leads := by
    rintro s k t ⟨v, hd, hb⟩ ⟨v', c, hv, hf, hc⟩
    have hfield : h'.field? (h'.find s) k = some (h'.find t) := by
      rw [field?_congr ((find_find h' s).trans (hv.find_eq hg hab)), hg.field hf,
        hc.find_eq hg hab]
    exact ⟨v, hd, hb.tail ⟨k, hfield⟩⟩
  taint_same := by
    rintro s t n hs (⟨v, hv, ht⟩ | ⟨⟨v, hd, hb⟩, ht⟩)
    · exact .inl ⟨v, .trans (.symm hs) hv, ht⟩
    · exact .inr ⟨⟨v, hd, hs.find_eq hg hab ▸ hb⟩, ht⟩
  taint_input hd := .inr ⟨hd, rfl⟩

theorem shows_closurePicture (h h' : Heap) (a b : EntityId) :
    h.Shows (closurePicture h h' a b) id where
  same _ _ hf := .same hf
  field {u _ w} hf := ⟨u, w, .same rfl, hf, .same rfl⟩
  deep {u} hd := ⟨u, hd, .refl⟩
  taint {u} _ := .inl ⟨u, .same rfl, rfl⟩

/-- The entities that are live after a heap grew within its arena are the ids that still stand
for themselves. -/
theorem mem_liveIds_of_grows (hw : h.WellFormed) (hw' : h'.WellFormed) (hg : Grows h h')
    (hs : h'.size = h.size) (id : EntityId) :
    id ∈ h'.liveIds ↔ id ∈ h.liveIds ∧ h'.find id = id := by
  rw [mem_liveIds, mem_liveIds]
  constructor
  · rintro ⟨e, he⟩
    have hself := find_of_live? he
    have hid : id < h.size := hs ▸ lt_size_of_live? he
    -- the old representative is no larger, and the new one of both is `id`
    have hold : h.find id = id := by
      refine Nat.le_antisymm (h.find_le id) ?_
      have hto := h'.find_le (h.find id)
      rwa [hg.find, hself] at hto
    exact ⟨⟨_, hold ▸ hw.live? hid⟩, hself⟩
  · rintro ⟨⟨e, he⟩, hself⟩
    have hid : id < h'.size := hs.symm ▸ lt_size_of_live? he
    exact ⟨_, hself ▸ hw'.live? hid⟩

theorem liveIds_of_grows (hw : h.WellFormed) (hw' : h'.WellFormed) (hg : Grows h h')
    (hs : h'.size = h.size) : h'.liveIds = h.liveIds.filter fun id => h'.find id = id := by
  have hmem := mem_liveIds_of_grows hw hw' hg hs
  unfold liveIds at hmem ⊢
  rw [hs, List.filter_filter]
  apply List.filter_congr
  intro id hid
  have hiff := hmem id
  simp only [List.mem_filter, hs, hid, true_and] at hiff
  rw [Bool.eq_iff_iff, hiff]
  simp [and_comm]

/-- An entity that stopped standing for itself is no longer counted. -/
theorem liveCount_of_grows (hw : h.WellFormed) (hw' : h'.WellFormed) (hg : Grows h h')
    (hs : h'.size = h.size) :
    h'.liveCount + (h.liveIds.filter fun id => h'.find id ≠ id).length = h.liveCount := by
  have hcount := hw'.count
  rw [← length_liveIds, liveIds_of_grows hw hw' hg hs] at hcount
  have hsplit := @List.length_eq_length_filter_add _ h.liveIds
    (fun id => decide (h'.find id = id))
  rw [hcount, hw.count, ← length_liveIds, hsplit]
  simp only [decide_not, ne_eq]

/-- Ids behind the arena stand for themselves, so what is one lies within the arena. -/
theorem closure_of_find
    (hin : ∀ {u v}, u < h'.size → v < h'.size → h'.find u = h'.find v → Closure h a b u v)
    {u v : EntityId} (hf : h'.find u = h'.find v) : Closure h a b u v := by
  rcases Nat.lt_or_ge u h'.size with hu | hu
  · rcases Nat.lt_or_ge v h'.size with hv | hv
    · exact hin hu hv hf
    · have hlt := find_lt_size hu
      rw [hf, find_of_size_le hv] at hlt
      exact absurd hlt (Nat.not_lt.mpr hv)
  · rw [find_of_size_le hu] at hf
    rcases Nat.lt_or_ge v h'.size with hv | hv
    · exact absurd (hf ▸ find_lt_size hv) (Nat.not_lt.mpr hu)
    · rw [find_of_size_le hv] at hf
      exact .same (congrArg h.find hf)

theorem deep_of_below (hp : h'.Proper) (hg : Grows h h') {u : EntityId}
    (hu : ∃ v, (h.entity v).deep = true ∧ h'.Below (h'.find v) (h'.find u)) :
    (h'.entity u).deep = true := by
  obtain ⟨v, hd, hb⟩ := hu
  rw [← entity_find]
  refine hp.deep_below hb ?_
  rw [entity_find]
  exact hg.deep hd

/-- A merge computes the closure, on every heap that a run can build. -/
theorem merge_isClosure (hr : h.Reachable) (ha : a < h.size) (hb : b < h.size) :
    IsClosure h a b (h.merge a b).2 := by
  have hp := hr.proper
  have hw := hp.wellFormed
  obtain ⟨hg, -, hab⟩ := hw.grows_merge hp.closed ha hb
  have hp' := (hp.merge ha hb).proper
  have hsize := hw.size_merge ha hb
  -- the merge shows no more than the closure, and a growing heap shows no less
  have hshows := (shows_closurePicture h (h.merge a b).2 a b).merge
    (lawful_closurePicture hg hab) hw ha hb .pair
  have hcount := liveCount_of_grows hw hp'.wellFormed hg hsize
  refine ⟨fun u v => ⟨closure_of_find hshows.same, Closure.find_eq hg hab⟩, fun u v hc => ?_,
    fun u k w => ⟨fun hf => ?_, ?_⟩, hcount,
    fun u => ⟨fun hd => hshows.deep hd, deep_of_below hp' hg⟩, fun u hu => ?_⟩
  · rw [hc.find_eq hg hab]
    exact find_le _ v
  · obtain ⟨v, c, hv, hc, hcw⟩ := hshows.field hf
    exact ⟨v, c, hv, hc, (hcw.find_eq hg hab).trans (find_of_field? hf)⟩
  · rintro ⟨v, c, hv, hc, rfl⟩
    rw [field?_congr (hv.find_eq hg hab), hg.field hc]
  · apply exists_greatest_raised
    · exact ⟨_, u, .same rfl, rfl⟩
    · rintro m ⟨v, hv, rfl⟩
      have hle := hg.taint v
      rwa [taint, taint, ← entity_congr (hv.find_eq hg hab)] at hle
    · have hu' : u < (h.merge a b).2.size := hsize.symm ▸ hu
      exact (hshows.taint hu').imp id fun hraised => ⟨deep_of_below hp' hg hraised.1, hraised.2⟩
    · exact fun hd => hp'.closed.taint hd

/-- Two entities that each have a child of the same name. -/
def forked : Heap :=
  ((((create {} none).2.create none).2.loadField 0 "next").2.loadField 1 "next").2

theorem reachable_forked : forked.Reachable ∧ 1 < forked.size := by
  have h₀ : Reachable {} := .refl
  have h₂ := (h₀.step (.create none)).step (.create none)
  have hsize : 1 < ((create {} none).2.create none).2.size := by decide
  have hleft := Step.loadField (Nat.lt_of_le_of_lt (Nat.zero_le 1) hsize) "next"
  have h₃ := h₂.step hleft
  have hgrown := (hleft.evolves h₂.proper).lt_size hsize
  have hright := Step.loadField hgrown "next"
  exact ⟨h₃.step hright, (hright.evolves h₃.proper).lt_size hgrown⟩

theorem forked_isClosure :
    forked.Reachable ∧ 1 < forked.size ∧ IsClosure forked 0 1 (forked.merge 0 1).2 := by
  obtain ⟨hr, hsize⟩ := reachable_forked
  exact ⟨hr, hsize, merge_isClosure hr (Nat.lt_of_le_of_lt (Nat.zero_le 1) hsize) hsize⟩

end Heap

end SinkTrace
