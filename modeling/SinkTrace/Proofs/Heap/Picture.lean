import SinkTrace.Proofs.Heap.Evolution

/-!
Operations bring nothing into a heap that is not called for. A picture says which things are one,
where fields lead and which marks are due; a heap that shows no more than the picture goes on
showing no more, as long as only what is one in the picture is merged and only what is due in it
is marked.
-/

namespace SinkTrace

/-- What may be found in a heap whose entities stand for members of `S`. -/
structure Picture (S : Type) where
  same : S → S → Prop
  leads : S → FieldName → S → Prop
  deep : S → Prop
  taint : S → TaintId → Prop

/-- One thing leads to one thing under each name and hands its marks to all that it is the same
as; a deep input hands its mark down. -/
structure Picture.Lawful {S : Type} (P : Picture S) : Prop where
  symm : ∀ {s t}, P.same s t → P.same t s
  trans : ∀ {s t u}, P.same s t → P.same t u → P.same s u
  leads_same : ∀ {s s' k t t'}, P.same s s' → P.leads s k t → P.same t t' → P.leads s' k t'
  congruent : ∀ {s s' k t t'}, P.same s s' → P.leads s k t → P.leads s' k t' → P.same t t'
  deep_same : ∀ {s t}, P.same s t → P.deep s → P.deep t
  deep_leads : ∀ {s k t}, P.deep s → P.leads s k t → P.deep t
  taint_same : ∀ {s t n}, P.same s t → P.taint s n → P.taint t n
  taint_input : ∀ {s}, P.deep s → P.taint s TaintId.input

namespace Heap

variable {S : Type} {P : Picture S} {φ : EntityId → S} {h h' : Heap}

/-- The heap shows no more than the picture, if `φ` says what its ids stand for. -/
structure Shows (h : Heap) (P : Picture S) (φ : EntityId → S) : Prop where
  same : ∀ {u v}, u < h.size → v < h.size → h.find u = h.find v → P.same (φ u) (φ v)
  field : ∀ {u k w}, h.field? u k = some w → P.leads (φ u) k (φ w)
  deep : ∀ {u}, (h.entity u).deep = true → P.deep (φ u)
  taint : ∀ {u}, u < h.size → P.taint (φ u) (h.taint u)

theorem Shows.refl (hs : h.Shows P φ) {u : EntityId} (hu : u < h.size) : P.same (φ u) (φ u) :=
  hs.same hu hu rfl

theorem Shows.find (hs : h.Shows P φ) {u : EntityId} (hu : u < h.size) :
    P.same (φ u) (φ (h.find u)) := hs.same hu (find_lt_size hu) (find_find h u).symm

/-- A stand-in for an id is seen through the id itself. -/
theorem lt_size_of_find {u x : EntityId} {e : Entity} (hf : h.find u = x)
    (hx : h.live? x = some e) : u < h.size := by
  rcases Nat.lt_or_ge u h.size with hlt | hge
  · exact hlt
  · rw [find_of_size_le hge] at hf
    exact hf ▸ lt_size_of_live? hx

/-! Changes of single entities. -/

/-- Only marks change, and they change to what is due. -/
theorem Shows.of_alike (hs : h.Shows P φ) (ha : Alike Entity.fields h h')
    (hd : ∀ {u}, (h'.entity u).deep = true → P.deep (φ u))
    (ht : ∀ {u}, u < h.size → P.taint (φ u) (h'.taint u)) : h'.Shows P φ := by
  refine ⟨fun {u v} hu hv hf => ?_, fun {u k w} hf => ?_, hd, fun {u} hu => ht (ha.size ▸ hu)⟩
  · rw [ha.find, ha.find] at hf
    exact hs.same (ha.size ▸ hu) (ha.size ▸ hv) hf
  · rw [ha.field?] at hf
    exact hs.field hf

/-- A change of one entity that gives it a mark that is due, if any. -/
theorem Shows.update (hs : h.Shows P φ) (hP : P.Lawful) (hw : h.WellFormed) {id : EntityId}
    (hid : id < h.size) {f : Entity → Entity} (hf : ∀ e, (f e).fields = e.fields)
    (hd : (f (h.entity id)).deep = true → P.deep (φ id))
    (ht : P.taint (φ id) (f (h.entity id)).taint) : (h.update id f).Shows P φ := by
  refine hs.of_alike (alike_update h id hf) (fun {u} hu => ?_) (fun {u} hu => ?_)
  · by_cases he : h.find id = h.find u
    · rw [hw.descending.entity_update_self hid f he, ← entity_congr he] at hu
      have hult : u < h.size := lt_size_of_find he.symm (hw.live? hid)
      exact hP.deep_same (hs.same hid hult he) (hd hu)
    · rw [entity_update_of_ne f he] at hu
      exact hs.deep hu
  · unfold Heap.taint
    by_cases he : h.find id = h.find u
    · rw [hw.descending.entity_update_self hid f he, ← entity_congr he]
      exact hP.taint_same (hs.same hid hu he) ht
    · rw [entity_update_of_ne f he]
      exact hs.taint hu

theorem Shows.note (hs : h.Shows P φ) (id : EntityId) : (h.note id).Shows P φ := by
  refine hs.of_alike (alike_note h id) (fun {u} hu => ?_) (fun {u} hu => ?_)
  · rw [entity_note] at hu
    exact hs.deep hu
  · unfold Heap.taint
    rw [entity_note]
    exact hs.taint hu

theorem Shows.raiseTaint (hs : h.Shows P φ) (hP : P.Lawful) (hw : h.WellFormed) {id : EntityId}
    (hid : id < h.size) {taint : TaintId} (ht : P.taint (φ id) taint) (stack : Option CallStack) :
    (h.raiseTaint id taint stack).2.Shows P φ := by
  unfold Heap.raiseTaint
  simp only
  split
  · exact hs
  · apply Shows.note
    apply hs.update hP hw (find_lt_size hid)
    · exact fun _ => rfl
    · intro hd
      exact hs.deep hd
    · exact hP.taint_same (hs.find hid) ht

theorem Shows.markOne (hs : h.Shows P φ) (hP : P.Lawful) (hw : h.WellFormed) {id : EntityId}
    (hid : id < h.size) (hd : P.deep (φ id)) : (h.markOne id).Shows P φ := by
  apply Shows.note
  refine hs.update hP hw hid (fun _ => rfl) (fun _ => hd) ?_
  rw [Entity.taint_markDeep]
  rcases Nat.le_total (h.entity id).taint TaintId.input with hle | hle
  · rw [Nat.max_eq_right hle]
    exact hP.taint_input hd
  · rw [Nat.max_eq_left hle]
    exact hs.taint hid

theorem Shows.markAll (hs : h.Shows P φ) (hP : P.Lawful) (hw : h.WellFormed)
    {work : List EntityId} (hd : ∀ id ∈ work, P.deep (φ id)) : (h.markAll work).Shows P φ := by
  fun_induction Heap.markAll h work with
  | case1 h => exact hs
  | case2 h id rest hshallow ih =>
    have hid := lt_size_of_isShallow hshallow
    have hdeep := hd id (List.mem_cons_self ..)
    refine ih (hs.markOne hP hw hid hdeep) (hw.markOne id) ?_
    intro c hm
    rcases List.mem_append.mp hm with hm | hm
    · -- a child is deep because the entity is
      have hlive := hw.live? hid
      obtain ⟨k, hg⟩ := Table.exists_get?_of_mem_values (hw.keys hlive) hm
      obtain ⟨ec, hc, _⟩ := hw.child hlive hg
      have hfield : h.field? id k = some c := by
        rw [field?_eq, hg, Option.map_some, find_of_live? hc]
      exact hP.deep_leads hdeep (hs.field hfield)
    · exact hd c (List.mem_cons_of_mem _ hm)
  | case3 h id rest _ ih => exact ih hs hw fun c hm => hd c (List.mem_cons_of_mem _ hm)

theorem Shows.markEach (hs : h.Shows P φ) (hP : P.Lawful) (hw : h.WellFormed)
    {ids : List EntityId} (hd : ∀ id ∈ ids, P.deep (φ id)) :
    (ids.foldl markInput h).Shows P φ := by
  induction ids generalizing h with
  | nil => exact hs
  | cons id ids ih =>
    have hone : ∀ c ∈ [id], P.deep (φ c) := fun c hm =>
      hd c (List.mem_singleton.mp hm ▸ List.mem_cons_self ..)
    exact ih (hs.markAll hP hw hone) (hw.markInput id)
      fun c hm => hd c (List.mem_cons_of_mem _ hm)

/-! New entities. -/

/-- What ids outside the arena stand for does not matter. -/
theorem Shows.congr {ψ : EntityId → S} (hs : h.Shows P φ) (hw : h.WellFormed)
    (he : ∀ u, u < h.size → φ u = ψ u) : h.Shows P ψ := by
  refine ⟨fun {u v} hu hv hf => ?_, fun {u k w} hf => ?_, fun {u} hd => ?_, fun {u} hu => ?_⟩
  · rw [← he u hu, ← he v hv]
    exact hs.same hu hv hf
  · rw [← he u (lt_size_of_field? hf), ← he w (hw.field?_lt hf)]
    exact hs.field hf
  · rw [← he u (lt_size_of_deep hd)]
    exact hs.deep hd
  · rw [← he u hu]
    exact hs.taint hu

theorem Shows.create (hs : h.Shows P φ) (origin : Option Origin)
    (hsame : P.same (φ h.size) (φ h.size)) (ht : P.taint (φ h.size) TaintId.clean) :
    (h.create origin).2.Shows P φ := by
  have hcases : ∀ {u}, u < (h.create origin).2.size → u < h.size ∨ u = h.size := fun hu => by
    rw [size_create] at hu
    exact Nat.lt_succ_iff_lt_or_eq.mp hu
  have hnew : h.find h.size = h.size := find_of_size_le (Nat.le_refl _)
  refine ⟨fun {u v} hu hv hf => ?_, fun {u k w} hf => ?_, fun {u} hd => ?_, fun {u} hu => ?_⟩
  · rw [find_create, find_create] at hf
    rcases hcases hu with hu | rfl <;> rcases hcases hv with hv | rfl
    · exact hs.same hu hv hf
    · rw [hnew] at hf
      exact absurd (hf ▸ find_lt_size hu) (Nat.lt_irrefl _)
    · rw [hnew] at hf
      exact absurd (hf.symm ▸ find_lt_size hv) (Nat.lt_irrefl _)
    · exact hsame
  · rw [field?_create] at hf
    exact hs.field hf
  · rcases hcases (lt_size_of_deep hd) with hu | rfl
    · rw [entity_create_of_lt hu] at hd
      exact hs.deep hd
    · rw [entity_create_self] at hd
      cases hd
  · unfold Heap.taint
    rcases hcases hu with hu | rfl
    · rw [entity_create_of_lt hu]
      exact hs.taint hu
    · rw [entity_create_self]
      exact ht

/-- An edge that is in the picture. -/
theorem Shows.link (hs : h.Shows P φ) (hP : P.Lawful) {owner child : EntityId} {eo ec : Entity}
    (ho : h.live? owner = some eo) (hc : h.live? child = some ec) {key : FieldName}
    (hl : P.leads (φ owner) key (φ child)) : (h.link owner key child).Shows P φ := by
  have ha := alike_link h owner key child
  have hmarks : ∀ u, _ := fun u => Entity.marks_of_bare_eq (ha.entity u)
  refine ⟨fun {u v} hu hv hf => ?_, fun {u k w} hf => ?_, fun {u} hd => ?_, fun {u} hu => ?_⟩
  · rw [ha.find, ha.find] at hf
    exact hs.same (ha.size ▸ hu) (ha.size ▸ hv) hf
  · rw [field?_link ho hc] at hf
    split at hf
    · rename_i hin
      cases hf
      obtain ⟨hu, rfl⟩ := hin
      have hown := lt_size_of_live? ho
      have hchild := lt_size_of_live? hc
      have hsame := hs.same hown (lt_size_of_find hu ho) ((find_of_live? ho).trans hu.symm)
      exact hP.leads_same hsame hl (hs.refl hchild)
    · exact hs.field hf
  · rw [(hmarks u).2] at hd
    exact hs.deep hd
  · rw [Heap.taint, (hmarks u).1]
    exact hs.taint (ha.size ▸ hu)

theorem Shows.loadField_of_none (hs : h.Shows P φ) (hP : P.Lawful) (hw : h.WellFormed)
    {owner : EntityId} (ho : owner < h.size) {key : FieldName}
    (hg : (h.entity owner).fields.get? key = none)
    (hsame : P.same (φ h.size) (φ h.size)) (hclean : P.taint (φ h.size) TaintId.clean)
    (hl : P.leads (φ owner) key (φ h.size)) : (h.loadField owner key).2.Shows P φ := by
  rw [Heap.loadField_of_none hg]
  have hown := hw.live?_withChild_owner ho key
  have hchild : (h.withChild owner key).live? h.size = some (h.newChild owner key) := by
    rw [live?_withChild, if_pos rfl]
  have hlead := hP.leads_same (hs.find ho) hl hsame
  refine Shows.link ?_ hP hown hchild hlead
  have hnew := hs.create (some (.unknownField key)) hsame hclean
  have hsize : h.size < (h.create (some (.unknownField key))).2.size := by
    rw [size_create]
    exact Nat.lt_succ_self _
  unfold Heap.withChild
  simp only
  split
  · rename_i hd
    have hdeep := hP.deep_leads (hs.deep hd) hl
    refine hnew.update hP (hw.create _) hsize (fun _ => rfl) (fun _ => hdeep) ?_
    rw [entity_create_self]
    exact hP.taint_input hdeep
  · exact hnew

/-! Merging. -/

section Absorb

variable {x y : EntityId} {ex ey : Entity}

/-- After an absorption an id stands for the same as its new representative. -/
theorem Shows.find_absorb (hs : h.Shows P φ) (hP : P.Lawful) (hx : h.live? x = some ex)
    (hy : h.live? y = some ey) (hlt : x < y) (hxy : P.same (φ x) (φ y)) {u : EntityId}
    (hu : u < h.size) : P.same (φ u) (φ ((h.absorb x y).heap.find u)) := by
  rw [Heap.find_absorb hx hy hlt]
  split
  · rename_i hf
    exact hP.trans (hf ▸ hs.find hu) (hP.symm hxy)
  · exact hs.find hu

theorem Shows.absorb (hs : h.Shows P φ) (hP : P.Lawful) (hw : h.WellFormed)
    (hx : h.live? x = some ex) (hy : h.live? y = some ey) (hlt : x < y)
    (hxy : P.same (φ x) (φ y)) : (h.absorb x y).heap.Shows P φ := by
  have hxs := lt_size_of_live? hx
  have hys := lt_size_of_live? hy
  have hsize := size_absorb h x y
  have hfind : ∀ {u}, u < h.size → P.same (φ u) (φ ((h.absorb x y).heap.find u)) :=
    fun hu => hs.find_absorb hP hx hy hlt hxy hu
  refine ⟨fun {u v} hu hv hf => ?_, fun {u k w} hf => ?_, fun {u} hd => ?_, fun {u} hu => ?_⟩
  · have hu' := hfind (hsize ▸ hu)
    rw [hf] at hu'
    exact hP.trans hu' (hP.symm (hfind (hsize ▸ hv)))
  · have hu : u < h.size := hsize ▸ lt_size_of_field? hf
    rw [field?_absorb hw hx hy hlt, Option.map_eq_some_iff] at hf
    obtain ⟨c, hc, rfl⟩ := hf
    by_cases hux : (h.absorb x y).heap.find u = x
    · have hsame : P.same (φ u) (φ x) := hux ▸ hfind hu
      rw [if_pos hux, Option.or_eq_some_iff] at hc
      rcases hc with hc | ⟨-, hc⟩
      · exact hP.leads_same (hP.symm hsame) (hs.field hc) (hfind (hw.field?_lt hc))
      · exact hP.leads_same (hP.symm (hP.trans hsame hxy)) (hs.field hc)
          (hfind (hw.field?_lt hc))
    · rw [if_neg hux] at hc
      exact hP.leads_same (hs.refl hu) (hs.field hc) (hfind (hw.field?_lt hc))
  · have hu : u < h.size := hsize ▸ lt_size_of_deep hd
    rw [deep_absorb hw hx hy hlt] at hd
    split at hd
    · rename_i hux
      have hdx := @Shows.deep _ _ _ _ hs x (by rw [entity_of_live? hx, hd])
      exact hP.deep_same (hP.symm (hux ▸ hfind hu)) hdx
    · exact hs.deep hd
  · rw [taint_absorb hw hx hy hlt]
    split
    · rename_i hux
      have hsame : P.same (φ x) (φ u) := hP.symm (hux ▸ hfind (hsize ▸ hu))
      rcases Nat.le_total ex.taint ey.taint with hle | hle
      · rw [Nat.max_eq_right hle]
        have hty := hs.taint hys
        rw [Heap.taint, entity_of_live? hy] at hty
        exact hP.taint_same (hP.trans (hP.symm hxy) hsame) hty
      · rw [Nat.max_eq_left hle]
        have htx := hs.taint hxs
        rw [Heap.taint, entity_of_live? hx] at htx
        exact hP.taint_same hsame htx
    · exact hs.taint (hsize ▸ hu)

/-- Children that clash are one in the picture. -/
theorem Shows.conflict (hs : h.Shows P φ) (hP : P.Lawful) (hw : h.WellFormed)
    (hx : h.live? x = some ex) (hy : h.live? y = some ey) (hlt : x < y)
    (hxy : P.same (φ x) (φ y)) {a b : EntityId} (hm : (a, b) ∈ (h.absorb x y).conflicts) :
    P.same (φ a) (φ b) := by
  obtain ⟨k, c, d, hc, hd, rfl, rfl, _⟩ := (mem_conflicts_absorb hw hx hy hlt a b).mp hm
  have hcd := hP.congruent hxy (hs.field hc) (hs.field hd)
  have hfc := hs.find_absorb hP hx hy hlt hxy (hw.field?_lt hc)
  have hfd := hs.find_absorb hP hx hy hlt hxy (hw.field?_lt hd)
  exact hP.trans (hP.symm hfc) (hP.trans hcd hfd)

theorem Shows.promoted (hs : h.Shows P φ) (hP : P.Lawful) (hw : h.WellFormed)
    (hx : h.live? x = some ex) (hy : h.live? y = some ey) (hlt : x < y)
    (hxy : P.same (φ x) (φ y)) {p : EntityId} (hm : p ∈ (h.absorb x y).promoted) :
    P.deep (φ p) := by
  rcases (mem_promoted_absorb hw hx hy hlt p).mp hm with ⟨hd, _, k, c, hc, rfl⟩ | ⟨hd, _, rfl⟩
  · have hdx := @Shows.deep _ _ _ _ hs x (by rw [entity_of_live? hx, hd])
    have hdc := hP.deep_leads (hP.deep_same hxy hdx) (hs.field hc)
    exact hP.deep_same (hs.find_absorb hP hx hy hlt hxy (hw.field?_lt hc)) hdc
  · have hdy := @Shows.deep _ _ _ _ hs y (by rw [entity_of_live? hy, hd])
    exact hP.deep_same (hP.symm hxy) hdy

end Absorb

/-- The heap and the work of a merge show no more than the picture. -/
structure ShowsWork (P : Picture S) (φ : EntityId → S) (h : Heap)
    (pairs : List (EntityId × EntityId)) (promoted : List EntityId) : Prop where
  shows : h.Shows P φ
  pairs : ∀ {a b}, (a, b) ∈ pairs → P.same (φ a) (φ b)
  promoted : ∀ {p}, p ∈ promoted → P.deep (φ p)

theorem ShowsWork.absorb {rest : List (EntityId × EntityId)} {promoted : List EntityId}
    {a b x y : EntityId} {ex ey : Entity} (hP : P.Lawful) (hw : h.WellFormed)
    (hx : h.live? x = some ex) (hy : h.live? y = some ey) (hlt : x < y)
    (hends : h.find a = x ∧ h.find b = y ∨ h.find a = y ∧ h.find b = x)
    (hs : ShowsWork P φ h ((a, b) :: rest) promoted) :
    ShowsWork P φ (h.absorb x y).heap ((h.absorb x y).conflicts ++ rest)
      (promoted ++ (h.absorb x y).promoted) := by
  have hab := hs.pairs (List.mem_cons_self ..)
  have hxy : P.same (φ x) (φ y) := by
    rcases hends with ⟨ha, hb⟩ | ⟨ha, hb⟩
    · have hxa := ha ▸ hs.shows.find (lt_size_of_find ha hx)
      have hyb := hb ▸ hs.shows.find (lt_size_of_find hb hy)
      exact hP.trans (hP.symm hxa) (hP.trans hab hyb)
    · have hya := ha ▸ hs.shows.find (lt_size_of_find ha hy)
      have hxb := hb ▸ hs.shows.find (lt_size_of_find hb hx)
      exact hP.trans (hP.symm hxb) (hP.trans (hP.symm hab) hya)
  refine ⟨hs.shows.absorb hP hw hx hy hlt hxy, fun hm => ?_, fun hm => ?_⟩
  · rcases List.mem_append.mp hm with hm | hm
    · exact hs.shows.conflict hP hw hx hy hlt hxy hm
    · exact hs.pairs (List.mem_cons_of_mem _ hm)
  · rcases List.mem_append.mp hm with hm | hm
    · exact hs.promoted hm
    · exact hs.shows.promoted hP hw hx hy hlt hxy hm

theorem Shows.merge (hs : h.Shows P φ) (hP : P.Lawful) (hw : h.WellFormed) {a b : EntityId}
    (ha : a < h.size) (hb : b < h.size) (hab : P.same (φ a) (φ b)) :
    (h.merge a b).2.Shows P φ := by
  have hstart : ShowsWork P φ h [(a, b)] [] := by
    refine ⟨hs, fun hm => ?_, fun hm => absurd hm List.not_mem_nil⟩
    cases List.mem_singleton.mp hm
    exact hab
  obtain ⟨hwm, hend⟩ := @WellFormed.mergePairs_keeps h (ShowsWork P φ)
    (fun _ hs => ⟨hs.shows, fun hm => hs.pairs (List.mem_cons_of_mem _ hm), hs.promoted⟩)
    (fun hw hx hy hlt hends hs => hs.absorb hP hw hx hy hlt hends) _ []
    hw (mem_singleton_pair ha hb) hstart
  exact hend.shows.markEach hP hwm fun p hm => hend.promoted hm

end Heap

end SinkTrace
