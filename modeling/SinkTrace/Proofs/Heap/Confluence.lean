import SinkTrace.Proofs.Heap.Closure
import SinkTrace.Proofs.Heap.Coverage

/-!
Updates in any order build one heap. What an update asks for holds once it ran and goes on holding
while the heap grows; and a heap shows nothing that its updates do not ask for. So the heap after a
list of updates is the least one in which all of them hold, whatever their order.
-/

namespace SinkTrace

namespace Heap

/-- An update that makes no new entity. -/
inductive Change where
  | storeField (owner : EntityId) (key : FieldName) (value : EntityId)
  | merge (a b : EntityId)
  | raiseTaint (id : EntityId) (taint : TaintId) (stack : Option CallStack)
  | markInput (id : EntityId)

def Change.apply (h : Heap) : Change → Heap
  | .storeField owner key value => h.storeField owner key value
  | .merge a b => (h.merge a b).2
  | .raiseTaint id taint stack => (h.raiseTaint id taint stack).2
  | .markInput id => h.markInput id

/-- The change is about ids of the heap. -/
def Change.Known (h : Heap) : Change → Prop
  | .storeField owner _ value => owner < h.size ∧ value < h.size
  | .merge a b => a < h.size ∧ b < h.size
  | .raiseTaint id _ _ => id < h.size
  | .markInput id => id < h.size

/-- What the change asks for. -/
def Change.Holds (h : Heap) : Change → Prop
  | .storeField owner key value => h.field? owner key = some (h.find value)
  | .merge a b => h.find a = h.find b
  | .raiseTaint id taint _ => taint ≤ h.taint id
  | .markInput id => (h.entity id).deep = true

/-- The changes one after the other. -/
def applyAll (h : Heap) (changes : List Change) : Heap := changes.foldl Change.apply h

/-- One heap, up to what is recorded beside the fields and the marks. -/
structure Equivalent (h h' : Heap) : Prop where
  size : h.size = h'.size
  find : ∀ id, h.find id = h'.find id
  taint : ∀ id, h.taint id = h'.taint id
  deep : ∀ id, (h.entity id).deep = (h'.entity id).deep
  count : h.liveCount = h'.liveCount
  live : h.liveIds = h'.liveIds
  field : ∀ id key, h.field? id key = h'.field? id key

variable {h h' h₀ : Heap} {changes changes' : List Change} {c : Change}
  {φ : EntityId → EntityId}

/-! Storing. -/

theorem size_storeField (hw : h.WellFormed) {owner value : EntityId} (ho : owner < h.size)
    (hv : value < h.size) (key : FieldName) : (h.storeField owner key value).size = h.size := by
  cases hg : (h.entity owner).fields.get? key with
  | some existing =>
    obtain ⟨e, he, -⟩ := hw.child (hw.live? ho) hg
    rw [storeField_of_some hg, hw.size_merge (lt_size_of_live? he) (find_lt_size hv)]
  | none =>
    have hlink := (alike_link h (h.find owner) key (h.find value)).size
    rw [storeField_of_none hg]
    split
    · exact (alike_markAll _ _).size.trans hlink
    · exact hlink

theorem Proper.field?_storeField (hp : h.Proper) {owner value : EntityId} (ho : owner < h.size)
    (hv : value < h.size) (key : FieldName) : (h.storeField owner key value).field? owner key =
      some ((h.storeField owner key value).find value) := by
  have hw := hp.wellFormed
  cases hg : (h.entity owner).fields.get? key with
  | some existing =>
    obtain ⟨e, he, -⟩ := hw.child (hw.live? ho) hg
    have hfield : h.field? owner key = some existing := by
      rw [field?_eq, hg, Option.map_some, find_of_live? he]
    obtain ⟨hgrows, -, hsame⟩ :=
      hw.grows_merge hp.closed (lt_size_of_live? he) (find_lt_size hv)
    rw [storeField_of_some hg, hgrows.field hfield, hsame, hgrows.find]
  | none =>
    have hown := hw.live? ho
    have hlinked : (h.link (h.find owner) key (h.find value)).field? owner key =
        some (h.find value) := by
      rw [field?_link hown (hw.live? hv), if_pos ⟨rfl, rfl⟩]
    have hfind := (alike_link h (h.find owner) key (h.find value)).find
    rw [storeField_of_none hg]
    split
    · have hgrows := (hw.link hown (hw.live? hv) hg).grows_markAll [h.find value]
      have hmarked := hgrows.find value
      rw [hfind] at hmarked
      exact (hgrows.field hlinked).trans (congrArg some hmarked)
    · rw [hlinked, hfind]

theorem Shows.storeField {S : Type} {P : Picture S} {φ : EntityId → S} (hs : h.Shows P φ)
    (hP : P.Lawful) (hw : h.WellFormed) {owner value : EntityId} (ho : owner < h.size)
    (hv : value < h.size) {key : FieldName} (hl : P.leads (φ owner) key (φ value)) :
    (h.storeField owner key value).Shows P φ := by
  have hown := hw.live? ho
  have hval := hs.find hv
  cases hg : (h.entity owner).fields.get? key with
  | some existing =>
    obtain ⟨e, he, -⟩ := hw.child hown hg
    have hfield : h.field? owner key = some existing := by
      rw [field?_eq, hg, Option.map_some, find_of_live? he]
    have hsame := hP.congruent (hs.refl ho) (hs.field hfield) hl
    rw [storeField_of_some hg]
    exact hs.merge hP hw (lt_size_of_live? he) (find_lt_size hv) (hP.trans hsame hval)
  | none =>
    have hlinked := hs.link hP hown (hw.live? hv) (hP.leads_same (hs.find ho) hl hval)
    rw [storeField_of_none hg]
    split
    · rename_i hd
      have hdeep := hP.deep_same hval (hP.deep_leads (hs.deep hd) hl)
      refine hlinked.markAll hP (hw.link hown (hw.live? hv) hg) fun id hm => ?_
      exact List.mem_singleton.mp hm ▸ hdeep
    · exact hlinked

/-! One change. -/

theorem Change.Known.mono (hc : c.Known h) (hs : h.size ≤ h'.size) : c.Known h' := by
  cases c with
  | storeField => exact ⟨Nat.lt_of_lt_of_le hc.1 hs, Nat.lt_of_lt_of_le hc.2 hs⟩
  | merge => exact ⟨Nat.lt_of_lt_of_le hc.1 hs, Nat.lt_of_lt_of_le hc.2 hs⟩
  | raiseTaint id => exact Nat.lt_of_lt_of_le hc hs
  | markInput id => exact Nat.lt_of_lt_of_le hc hs

theorem Change.Known.step (hc : c.Known h) : Step h (c.apply h) := by
  cases c with
  | storeField owner key value => exact .storeField hc.1 hc.2 key
  | merge a b => exact .merge hc.1 hc.2
  | raiseTaint id taint stack => exact .raiseTaint hc taint stack
  | markInput id => exact .markInput hc

theorem Change.Known.size_apply (hc : c.Known h) (hw : h.WellFormed) :
    (c.apply h).size = h.size := by
  cases c with
  | storeField owner key value => exact size_storeField hw hc.1 hc.2 key
  | merge a b => exact hw.size_merge hc.1 hc.2
  | raiseTaint id taint stack =>
    simp only [apply, Heap.raiseTaint]
    split
    · rfl
    · exact size_update ..
  | markInput id => exact (alike_markAll h [id]).size

theorem Change.Known.holds_apply (hc : c.Known h) (hp : h.Proper) : c.Holds (c.apply h) := by
  cases c with
  | storeField owner key value => exact hp.field?_storeField hc.1 hc.2 key
  | merge a b => exact (hp.wellFormed.grows_merge hp.closed hc.1 hc.2).2.2
  | raiseTaint id taint stack => exact hp.le_taint_raiseTaint hc taint stack
  | markInput id => exact hp.deep_markInput hc

theorem Change.Holds.grows (hc : c.Holds h) (hg : Grows h h') : c.Holds h' := by
  cases c with
  | storeField owner key value => exact (hg.field hc).trans (congrArg some (hg.find value))
  | merge a b => exact hg.same hc
  | raiseTaint id taint stack => exact Nat.le_trans hc (hg.taint id)
  | markInput id => exact hg.deep hc

/-! What a heap shows, as a picture of its own ids. -/

def drawn (h : Heap) : Picture EntityId where
  same u v := h.find u = h.find v
  leads u k w := h.field? u k = some (h.find w)
  deep u := (h.entity u).deep = true
  taint u t := t ≤ h.taint u

theorem Proper.lawful_drawn (hp : h.Proper) : h.drawn.Lawful where
  symm hs := hs.symm
  trans h₁ h₂ := h₁.trans h₂
  leads_same hs hl ht :=
    (field?_congr hs _).symm.trans (hl.trans (congrArg some ht))
  congruent hs hl hl' := Option.some.inj (hl.symm.trans ((field?_congr hs _).trans hl'))
  deep_same hs hd := (congrArg Entity.deep (entity_congr hs)).symm.trans hd
  deep_leads {s k t} hd hl := by
    have hdeep := owed_nil.mp (hp.closed.children hd hl)
    rwa [entity_find] at hdeep
  taint_same {s t n} hs ht := by
    have hle : n ≤ (h.entity s).taint := ht
    rwa [entity_congr hs] at hle
  taint_input hd := hp.closed.taint hd

/-- A heap shows no more than what it grows into. -/
theorem Grows.shows_drawn (hg : Grows h h') : h.Shows h'.drawn id where
  same _ _ hf := hg.same hf
  field hf := hg.field hf
  deep hd := hg.deep hd
  taint _ := hg.taint _

/-- Where what a change asks for holds already, the change brings nothing in. Of what ids stand
for it matters only that the ids of the change stand for themselves. -/
theorem Shows.change (hs : h.Shows h'.drawn φ) (hp : h.Proper) (hp' : h'.Proper)
    (hsize : h₀.size ≤ h.size) (hφ : ∀ u < h₀.size, φ u = u) (hc : c.Known h₀)
    (hh : c.Holds h') : (c.apply h).Shows h'.drawn φ := by
  have hP := hp'.lawful_drawn
  have hw := hp.wellFormed
  have hlt : ∀ {u}, u < h₀.size → u < h.size := fun hu => Nat.lt_of_lt_of_le hu hsize
  cases c with
  | storeField owner key value =>
    refine hs.storeField hP hw (hlt hc.1) (hlt hc.2) ?_
    rw [hφ owner hc.1, hφ value hc.2]
    exact hh
  | merge a b =>
    refine hs.merge hP hw (hlt hc.1) (hlt hc.2) ?_
    rw [hφ a hc.1, hφ b hc.2]
    exact hh
  | raiseTaint id taint stack =>
    refine hs.raiseTaint hP hw (hlt hc) ?_ stack
    rw [hφ id hc]
    exact hh
  | markInput id =>
    refine hs.markAll hP hw fun v hm => ?_
    rw [List.mem_singleton.mp hm, hφ id hc]
    exact hh

/-! Lists of changes. -/

theorem applyAll_evolves (hp : h.Proper) (hc : ∀ c ∈ changes, c.Known h) :
    Evolves h (h.applyAll changes) ∧ (h.applyAll changes).size = h.size ∧
      ∀ c ∈ changes, c.Holds (h.applyAll changes) := by
  induction changes generalizing h with
  | nil => exact ⟨.refl hp, rfl, fun _ hm => absurd hm List.not_mem_nil⟩
  | cons c changes ih =>
    have hhead := hc c (List.mem_cons_self ..)
    have hfirst := hhead.step.evolves hp
    have hsize := hhead.size_apply hp.wellFormed
    obtain ⟨hrest, hsizes, hheld⟩ := ih hfirst.proper fun d hd =>
      (hc d (List.mem_cons_of_mem _ hd)).mono (Nat.le_of_eq hsize.symm)
    refine ⟨hfirst.trans hrest, hsizes.trans hsize, fun d hd => ?_⟩
    rcases List.mem_cons.mp hd with rfl | hd
    · exact (hhead.holds_apply hp).grows hrest.grows
    · exact hheld d hd

theorem Shows.applyAll (hs : h.Shows h'.drawn φ) (hp : h.Proper) (hp' : h'.Proper)
    (hsize : h₀.size ≤ h.size) (hφ : ∀ u < h₀.size, φ u = u) (hc : ∀ c ∈ changes, c.Known h₀)
    (hh : ∀ c ∈ changes, c.Holds h') : (h.applyAll changes).Shows h'.drawn φ := by
  induction changes generalizing h with
  | nil => exact hs
  | cons c changes ih =>
    have hhead := hc c (List.mem_cons_self ..)
    have hstep := (hhead.mono hsize).step.evolves hp
    exact ih (hs.change hp hp' hsize hφ hhead (hh c (List.mem_cons_self ..))) hstep.proper
      (Nat.le_trans hsize hstep.grows.size) (fun d hd => hc d (List.mem_cons_of_mem _ hd))
      fun d hd => hh d (List.mem_cons_of_mem _ hd)

/-- A heap after changes shows no more than one after at least these changes. -/
theorem applyAll_shows (hp : h.Proper) (hc : ∀ c ∈ changes', c.Known h)
    (hsub : changes ⊆ changes') :
    (h.applyAll changes).Shows (h.applyAll changes').drawn id := by
  obtain ⟨hev, -, hheld⟩ := applyAll_evolves hp hc
  exact hev.grows.shows_drawn.applyAll hp hev.proper (Nat.le_refl _) (fun _ _ => rfl)
    (fun c hm => hc c (hsub hm)) fun c hm => hheld c (hsub hm)

/-! Heaps that show no more than each other. -/

/-- What `u` is one with in the first heap it is one with in the second, where its representative
is the smallest of them. -/
theorem Shows.find_le (hs : h.Shows h'.drawn id) {u : EntityId} (hu : u < h.size) :
    h'.find u ≤ h.find u := by
  have hsame : h'.find u = h'.find (h.find u) := hs.find hu
  rw [hsame]
  exact Heap.find_le h' _

theorem Shows.taint_le (hs : h.Shows h'.drawn id) (u : EntityId) : h.taint u ≤ h'.taint u := by
  rcases Nat.lt_or_ge u h.size with hu | hu
  · exact hs.taint hu
  · rw [Heap.taint, entity_of_size_le hu]
    exact Nat.zero_le _

theorem Shows.find_eq (hs : h.Shows h'.drawn id) (hs' : h'.Shows h.drawn id)
    (hsize : h.size = h'.size) (u : EntityId) : h.find u = h'.find u := by
  rcases Nat.lt_or_ge u h.size with hu | hu
  · exact Nat.le_antisymm (hs'.find_le (hsize ▸ hu)) (hs.find_le hu)
  · rw [find_of_size_le hu, find_of_size_le (hsize ▸ hu)]

theorem Shows.field?_of_some (hs : h.Shows h'.drawn id) (hfind : ∀ u, h.find u = h'.find u)
    {u : EntityId} {k : FieldName} {w : EntityId} (hf : h.field? u k = some w) :
    h'.field? u k = some w := by
  have hlead : h'.field? u k = some (h'.find w) := hs.field hf
  rw [hlead, ← hfind, find_of_field? hf]

/-- Changes with the same members build the same heap. -/
theorem applyAll_equivalent (hp : h.Proper) (hc : ∀ c ∈ changes, c.Known h)
    (hmem : ∀ c, c ∈ changes ↔ c ∈ changes') :
    Equivalent (h.applyAll changes) (h.applyAll changes') := by
  have hc' : ∀ c ∈ changes', c.Known h := fun c hm => hc c ((hmem c).mpr hm)
  obtain ⟨hev, hsize, -⟩ := applyAll_evolves hp hc
  obtain ⟨hev', hsize', -⟩ := applyAll_evolves hp hc'
  have hs := applyAll_shows hp hc' fun c hm => (hmem c).mp hm
  have hs' := applyAll_shows hp hc fun c hm => (hmem c).mpr hm
  have heq := hsize.trans hsize'.symm
  have hfind := hs.find_eq hs' heq
  have hlive := liveIds_of_grows hp.wellFormed hev.proper.wellFormed hev.grows hsize
  have hlive' := liveIds_of_grows hp.wellFormed hev'.proper.wellFormed hev'.grows hsize'
  have hids : (h.applyAll changes).liveIds = (h.applyAll changes').liveIds := by
    simp only [hlive, hlive', hfind]
  refine ⟨heq, hfind, fun id => Nat.le_antisymm (hs.taint_le id) (hs'.taint_le id),
    fun id => Bool.eq_iff_iff.mpr ⟨fun hd => hs.deep hd, fun hd => hs'.deep hd⟩, ?_, hids,
    fun id key => Option.ext fun w => ⟨hs.field?_of_some hfind,
      hs'.field?_of_some fun u => (hfind u).symm⟩⟩
  rw [hev.proper.wellFormed.count, hev'.proper.wellFormed.count, ← length_liveIds,
    ← length_liveIds, hids]

/-- On every heap that a run can build, stores, merges, raised taints and input marks on ids of the
heap give one heap in any order. -/
theorem applyAll_confluent (hr : h.Reachable) (hc : ∀ c ∈ changes, c.Known h)
    (hperm : changes.Perm changes') :
    Equivalent (h.applyAll changes) (h.applyAll changes') :=
  applyAll_equivalent hr.proper hc fun _ => hperm.mem_iff

/-- Changes of two entities with a child each, after which all four are one. -/
def tangle : List Change :=
  [.storeField 0 "next" 1, .raiseTaint 1 TaintId.firstSource none, .markInput 0, .merge 0 1]

theorem known_tangle (hsize : 1 < h.size) : ∀ c ∈ tangle, c.Known h := by
  have hzero : 0 < h.size := Nat.lt_of_le_of_lt (Nat.zero_le 1) hsize
  intro c hm
  simp only [tangle, List.mem_cons, List.not_mem_nil, or_false] at hm
  rcases hm with rfl | rfl | rfl | rfl
  · exact ⟨hzero, hsize⟩
  · exact hsize
  · exact hzero
  · exact ⟨hzero, hsize⟩

theorem forked_confluent : forked.Reachable ∧ (∀ c ∈ tangle, c.Known forked) ∧
    Equivalent (forked.applyAll tangle) (forked.applyAll tangle.reverse) :=
  have hknown := known_tangle reachable_forked.2
  ⟨reachable_forked.1, hknown,
    applyAll_confluent reachable_forked.1 hknown (List.reverse_perm tangle).symm⟩

end Heap

end SinkTrace
