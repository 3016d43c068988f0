import SinkTrace.Proofs.Heap.GlueRuns

/-!
Gluing brings over everything. A callee entity is covered when its marks, its fields and the
targets of its deferred edges have their counterparts in the caller; once the order of matches has
been worked off, every matched entity is covered.
-/

namespace SinkTrace

namespace Heap

variable {h : Heap}

theorem field?_loadField (hw : h.WellFormed) {owner : EntityId} (ho : owner < h.size)
    (key : FieldName) :
    (h.loadField owner key).2.field? owner key = some (h.loadField owner key).1 := by
  cases hg : (h.entity owner).fields.get? key with
  | some child =>
    rw [loadField_of_some hg, field?_eq, hg]
    rfl
  | none =>
    rw [loadField_of_none hg]
    have hchild : (h.withChild owner key).live? h.size = some (h.newChild owner key) := by
      rw [live?_withChild, if_pos rfl]
    rw [field?_link (hw.live?_withChild_owner ho key) hchild, if_pos ⟨find_withChild .., rfl⟩]

theorem Descending.le_taint_raiseTaint (hd : h.Descending) {id : EntityId} (hid : id < h.size)
    (taint : TaintId) (stack : Option CallStack) :
    taint ≤ (h.raiseTaint id taint stack).2.taint id := by
  unfold Heap.raiseTaint
  simp only
  split
  · rename_i hle
    rwa [Heap.taint, entity_find] at hle
  · refine Nat.le_of_eq ?_
    rw [Heap.taint, entity_note, hd.entity_update_self (find_lt_size hid) _ (find_find h id)]

theorem Proper.le_taint_raiseTaint (hp : h.Proper) {id : EntityId} (hid : id < h.size)
    (taint : TaintId) (stack : Option CallStack) :
    taint ≤ (h.raiseTaint id taint stack).2.taint id :=
  hp.wellFormed.descending.le_taint_raiseTaint hid taint stack

/-- No taint is lowered. -/
theorem taint_le_raiseTaint (h : Heap) (id : EntityId) (taint : TaintId)
    (stack : Option CallStack) (u : EntityId) :
    h.taint u ≤ (h.raiseTaint id taint stack).2.taint u := by
  unfold Heap.raiseTaint
  simp only
  split
  · exact Nat.le_refl _
  · rename_i hlt
    rw [Heap.taint, Heap.taint, entity_note]
    exact taint_update_le (Nat.le_of_lt (Nat.lt_of_not_le hlt)) u

theorem Proper.deep_markInput (hp : h.Proper) {id : EntityId} (hid : id < h.size) :
    ((h.markInput id).entity id).deep = true := by
  obtain ⟨_, howed⟩ := @InputClosed.markAll h [id] [] hp.wellFormed (hp.closed.weaken _)
  exact owed_nil.mp (howed hid (.inr ⟨id, List.mem_singleton_self _, rfl⟩))

end Heap

namespace Glue

section Search

variable {callee : Heap} {target : EntityId}

/-- A route leads down from one callee entity to another. -/
def Leads (callee : Heap) : EntityId → Route → EntityId → Prop
  | p, [], t => p = t
  | p, (k, n) :: rest, t => callee.field? p k = some n ∧ Leads callee n rest t

theorem leads_edgesInto (hw : callee.WellFormed) {node : EntityId} {route : Route}
    (hn : node < callee.size) (hself : callee.find node = node)
    (hl : Leads callee node route target) {p : EntityId} {route' : Route}
    (hm : (p, route') ∈ edgesInto callee node route) :
    callee.find p = p ∧ Leads callee p route' target := by
  obtain ⟨⟨parent, key⟩, hin, he⟩ := List.mem_map.mp hm
  cases he
  have hlive := hw.live? hn
  rw [hself] at hlive
  obtain ⟨ep, hp, hg⟩ := hw.parent hlive (List.mem_mergeSort.mp hin)
  refine ⟨Heap.find_find _ _, ?_, hl⟩
  rw [Heap.find_of_live? hp, Heap.field?_of_live? hp, hg, Option.map_some, hself]

/-- What the search upwards finds leads down to where it began. -/
theorem leads_of_searchUp (hw : callee.WellFormed) {isMatched : EntityId → Bool}
    {queue : List (EntityId × Route)} {seen : IdSet} {anchor : EntityId} {route : Route}
    (hq : ∀ {p route}, (p, route) ∈ queue → callee.find p = p ∧ Leads callee p route target)
    (hs : searchUp callee isMatched queue seen = some (anchor, route)) :
    Leads callee anchor route target := by
  fun_induction searchUp callee isMatched queue seen with
  | case1 => cases hs
  | case2 seen parent route' rest hin hm =>
    cases hs
    exact (hq (List.mem_cons_self ..)).2
  | case3 seen parent route' rest hin hm ih =>
    refine ih (fun hmem => ?_) hs
    obtain ⟨hself, hl⟩ := hq (List.mem_cons_self ..)
    rcases List.mem_append.mp hmem with hmem | hmem
    · exact hq (List.mem_cons_of_mem _ hmem)
    · exact leads_edgesInto hw hin.1 hself hl hmem
  | case4 seen parent route' rest hin ih =>
    exact ih (fun hmem => hq (List.mem_cons_of_mem _ hmem)) hs

end Search

variable {σ : Type} {callee : Heap} {r : Rebasing σ} {mode : GlueMode} {g g' : Glue σ}

theorem matched_record (callee : Heap) (g : Glue σ) {c : EntityId} (hc : c < callee.size)
    (d : EntityId) : ∃ m, (g.record callee c d).matched.get? c = some m := by
  rw [get?_record]
  cases hm : g.matched.get? c with
  | none => exact ⟨d, by simp [hc]⟩
  | some m => exact ⟨m, by simp⟩

theorem matched_followAll (hw : callee.WellFormed) {route : Route} {p t current : EntityId}
    (hl : Leads callee p route t) (hp : ∃ m, g.matched.get? p = some m) :
    ∃ m, (route.foldl (follow callee) (current, g)).2.matched.get? t = some m := by
  induction route generalizing g current p with
  | nil => exact hl ▸ hp
  | cons edge route ih =>
    obtain ⟨key, n⟩ := edge
    obtain ⟨hfield, hrest⟩ := hl
    exact ih hrest (matched_record callee _ (hw.field?_lt hfield) _)

/-- The counterpart of an entity, and where the search for it starts. -/
theorem lookup_cases (hw : callee.WellFormed) (g : Glue σ) {id : EntityId}
    (hid : id < callee.size) :
    (∃ d, g.matched.get? (callee.find id) = some d ∧
      g.lookup callee id = (some (g.caller.find d), g)) ∨
    (g.matched.get? (callee.find id) = none ∧ g.lookup callee id = (none, g)) ∨
    ∃ anchor route d, g.matched.get? anchor = some d ∧ Leads callee anchor route (callee.find id) ∧
      g.lookup callee id = (some (route.foldl (follow callee) (g.caller.find d, g)).1,
        (route.foldl (follow callee) (g.caller.find d, g)).2) := by
  unfold lookup
  simp only
  split
  · rename_i d hd
    exact .inl ⟨d, hd, rfl⟩
  · rename_i hnone
    split
    · exact .inr (.inl ⟨hnone, rfl⟩)
    · rename_i anchor route hs
      have hmem := matched_of_searchUp hs
      rw [Std.TreeMap.contains_eq_isSome_getElem?, Option.isSome_iff_exists] at hmem
      obtain ⟨d, hd⟩ := hmem
      have hd : g.matched.get? anchor = some d := hd
      have hstart : Leads callee (callee.find id) [] (callee.find id) := rfl
      have hlead := leads_of_searchUp hw
        (leads_edgesInto hw (Heap.find_lt_size hid) (Heap.find_find _ _) hstart) hs
      refine .inr (.inr ⟨anchor, route, d, hd, hlead, ?_⟩)
      rw [hd]
      rfl

theorem matched_lookupOrCreate (hw : callee.WellFormed) (g : Glue σ) {id : EntityId}
    (hid : id < callee.size) :
    ∃ m, (g.lookupOrCreate callee id).2.matched.get? (callee.find id) = some m := by
  have hroot := @Heap.find_lt_size callee id hid
  unfold lookupOrCreate
  simp only
  rcases lookup_cases hw g hroot with ⟨d, hd, he⟩ | ⟨_, he⟩ | ⟨anchor, route, d, hd, hl, he⟩
  · rw [he]
    rw [Heap.find_find] at hd
    exact ⟨d, hd⟩
  · rw [he]
    exact matched_record callee _ hroot _
  · rw [he]
    rw [Heap.find_find] at hl
    exact matched_followAll hw hl ⟨d, hd⟩

/-! What the loops bring over. -/

/-- What each step of a loop achieves for its element holds of all elements in the end. -/
theorem Advances.foldl_each {α : Type} {f : Glue σ → α → Glue σ} {as : List α}
    {post : Glue σ → α → Prop} (hv : g.Valid)
    (hkeep : ∀ {g₁ g₂ a}, Advances callee g₁ g₂ → post g₁ a → post g₂ a)
    (hstep : ∀ g' a, a ∈ as → Advances callee g g' →
      Advances callee g' (f g' a) ∧ post (f g' a) a) :
    Advances callee g (as.foldl f g) ∧ ∀ a ∈ as, post (as.foldl f g) a := by
  induction as generalizing g with
  | nil => exact ⟨.refl hv, fun a ha => absurd ha List.not_mem_nil⟩
  | cons b as ih =>
    obtain ⟨hadv, hpost⟩ := hstep g b (List.mem_cons_self ..) (.refl hv)
    obtain ⟨hrest, heach⟩ := ih hadv.valid fun g' a ha h =>
      hstep g' a (List.mem_cons_of_mem _ ha) (hadv.trans h)
    refine ⟨hadv.trans hrest, fun a ha => ?_⟩
    rcases List.mem_cons.mp ha with rfl | ha
    · exact hkeep hrest hpost
    · exact heach a ha

/-- An entity of the callee has a counterpart. -/
def Reached (callee : Heap) (g : Glue σ) (id : EntityId) : Prop :=
  ∃ n, g.matched.get? (callee.find id) = some n

/-- The child that an edge of the callee leads to has a counterpart, and `d` leads to it. -/
def Led (callee : Heap) (d : EntityId) (g : Glue σ) (edge : FieldName × EntityId) : Prop :=
  ∃ n, g.matched.get? (callee.find edge.2) = some n ∧
    g.caller.field? d edge.1 = some (g.caller.find n)

theorem Reached.extend {id : EntityId} (hr : Reached callee g id) (he : Extends callee g g') :
    Reached callee g' id := hr.imp fun _ hn => he.matched hn

theorem Led.extend {d : EntityId} {edge : FieldName × EntityId} (hl : Led callee d g edge)
    (he : Extends callee g g') : Led callee d g' edge := by
  obtain ⟨n, hn, hf⟩ := hl
  exact ⟨n, he.matched hn, by rw [he.grows.field hf, he.grows.find]⟩

theorem reached_copyDeferredInputs (hw : callee.WellFormed) (hv : g.Valid) (d : EntityId)
    {targets : List EntityId} (ht : ∀ t ∈ targets, t < callee.size) :
    Advances callee g (targets.foldl (copyDeferredInput callee d) g) ∧
      ∀ t ∈ targets, Reached callee (targets.foldl (copyDeferredInput callee d) g) t :=
  Advances.foldl_each hv (fun ha hr => hr.extend ha.toExtends) fun g' t hm ha =>
    ⟨ha.valid.copyDeferredInput d t, matched_lookupOrCreate hw g' (ht t hm)⟩

theorem reached_copyDeferredTaints (hw : callee.WellFormed) (hv : g.Valid) (r : Rebasing σ)
    (d : EntityId) {edges : List DeferredTaint} (ht : ∀ edge ∈ edges, edge.target < callee.size) :
    Advances callee g (edges.foldl (copyDeferredTaint callee r d) g) ∧
      ∀ edge ∈ edges, Reached callee (edges.foldl (copyDeferredTaint callee r d) g) edge.target :=
  @Advances.foldl_each _ _ _ _ _ _ (fun g (edge : DeferredTaint) => Reached callee g edge.target) hv
    (fun ha hr => hr.extend ha.toExtends) fun g' edge hm ha =>
    ⟨ha.valid.copyDeferredTaint r d edge, matched_lookupOrCreate hw g' (ht edge hm)⟩

theorem led_glueField (hv : g.Valid) {d : EntityId} (hd : d < g.caller.size)
    {edge : FieldName × EntityId} (hin : callee.find edge.2 < callee.size) :
    Led callee d (glueField callee d g edge) edge := by
  have hown := @Heap.find_lt_size g.caller d hd
  have hload := hv.proper.loadField hown edge.1
  have hlt := hv.proper.wellFormed.loadField_lt hown edge.1
  have hfield : (g.caller.loadField (g.caller.find d) edge.1).2.field? d edge.1 =
      some (g.caller.loadField (g.caller.find d) edge.1).1 := by
    rw [← Heap.field?_loadField hv.proper.wellFormed hown]
    exact Heap.field?_congr (hload.grows.find d).symm _
  unfold glueField
  simp only
  split
  · rename_i previous hm
    split
    · rename_i hsame
      exact ⟨previous, hm, by rw [hfield, hsame]⟩
    · have hprev := Heap.find_lt_size (hload.lt_size (hv.matched hm))
      obtain ⟨hgrows, _, hjoin⟩ :=
        hload.proper.wellFormed.grows_merge hload.proper.closed hprev hlt
      refine ⟨previous, hm, ?_⟩
      rw [hgrows.field hfield, ← hjoin, hgrows.find]
  · rename_i hnone
    have hnone' : g.matched.get? (callee.find edge.2) = none := hnone
    refine ⟨(g.caller.loadField (g.caller.find d) edge.1).1, ?_, ?_⟩
    · rw [get?_record, if_pos ⟨rfl, hin, hnone'⟩]
    · rw [caller_record, hfield, Heap.find_of_field? hfield]

theorem led_glueFields (hv : g.Valid) {d : EntityId} (hd : d < g.caller.size)
    {edges : List (FieldName × EntityId)}
    (hin : ∀ edge ∈ edges, callee.find edge.2 < callee.size) :
    Advances callee g (edges.foldl (glueField callee d) g) ∧
      ∀ edge ∈ edges, Led callee d (edges.foldl (glueField callee d) g) edge :=
  Advances.foldl_each hv (fun ha hl => hl.extend ha.toExtends) fun _ edge hm ha =>
    ⟨ha.valid.glueField (ha.lt_size hd) edge,
      led_glueField ha.valid (ha.lt_size hd) (hin edge hm)⟩

theorem le_taint_copyTaint {h : Heap} (hp : h.Proper) (src : Entity) {d : EntityId}
    (hd : d < h.size) :
    src.taint ≤ (copyTaint Rebasing.identity src h d ()).1.taint d := by
  unfold copyTaint
  split
  · exact hp.le_taint_raiseTaint hd src.taint _
  · rename_i hlow
    have hle : src.taint ≤ TaintId.input :=
      Nat.le_of_lt_succ (Nat.lt_of_not_le fun h => hlow (TaintId.isTainted_iff.mpr h))
    split
    · exact Nat.le_trans hle (hp.le_taint_raiseTaint hd TaintId.input none)
    · rename_i hclean
      have hzero : src.taint < TaintId.input :=
        Nat.lt_of_not_le fun h => hclean (TaintId.isInput_iff.mpr h)
      exact Nat.le_trans (Nat.le_of_lt_succ hzero) (Nat.zero_le _)

/-- The marks of a callee entity are brought over. -/
theorem covers_copyMarks {g : Glue Unit} (hv : g.Valid) (mode : GlueMode) (src : Entity)
    {d : EntityId} (hd : d < g.caller.size) :
    src.taint ≤ (g.copyMarks Rebasing.identity mode src d).caller.taint d ∧
      (src.deep = true →
        ((g.copyMarks Rebasing.identity mode src d).caller.entity d).deep = true) := by
  have ho := evolves_copyOrigin hv.proper mode src d
  have hle := le_taint_copyTaint ho.proper src (ho.lt_size hd)
  have ht := evolves_copyTaint ho.proper Rebasing.identity src d ()
  have hdt := (ho.trans ht).lt_size hd
  unfold copyMarks
  cases hdeep : src.deep with
  | false =>
    have hc := evolves_copyCalls ht.proper Rebasing.identity d src.targetCalls ()
    exact ⟨Nat.le_trans hle (hc.grows.taint d), fun hfalse => by cases hfalse⟩
  | true =>
    have hm := ht.proper.markInput d
    have hc := evolves_copyCalls hm.proper Rebasing.identity d src.targetCalls ()
    exact ⟨Nat.le_trans hle (Nat.le_trans (hm.grows.taint d) (hc.grows.taint d)),
      fun _ => hc.grows.deep (ht.proper.deep_markInput hdt)⟩

/-! Covered entities. -/

/-- What the callee has at `c` the caller has at its counterpart. -/
structure Covered (callee : Heap) (g : Glue σ) (c : EntityId) : Prop where
  marks : ∃ m, g.matched.get? c = some m ∧ callee.taint c ≤ g.caller.taint m ∧
    ((callee.entity c).deep = true → (g.caller.entity m).deep = true) ∧
    ∀ {edge}, edge ∈ (callee.entity c).fields.entries → Led callee m g edge
  targets : ∀ {t}, (callee.entity c).Awaits t → Reached callee g t

theorem Covered.extend {c : EntityId} (hc : Covered callee g c) (he : Extends callee g g') :
    Covered callee g' c := by
  obtain ⟨m, hm, ht, hd, hf⟩ := hc.marks
  exact ⟨⟨m, he.matched hm, Nat.le_trans ht (he.grows.taint m),
    fun hdeep => he.grows.deep (hd hdeep), fun hmem => (hf hmem).extend he⟩,
    fun ha => (hc.targets ha).extend he⟩

theorem Led.congr {d d' : EntityId} {edge : FieldName × EntityId} (hl : Led callee d g edge)
    (hf : g.caller.find d = g.caller.find d') : Led callee d' g edge := by
  obtain ⟨n, hn, hfield⟩ := hl
  exact ⟨n, hn, (Heap.field?_congr hf edge.1) ▸ hfield⟩

/-- Copying an entity covers it. -/
theorem covered_copyInto {g : Glue Unit} (hw : callee.WellFormed) (hv : g.Valid)
    (mode : GlueMode) {c m : EntityId} (hc : c < callee.size)
    (hm : g.matched.get? c = some m) :
    Covered callee
      (g.copyInto callee Rebasing.identity mode (callee.entity c) (g.caller.find m)) c := by
  have hd := @Heap.find_lt_size g.caller m (hv.matched hm)
  have hlive := hw.live? hc
  have htarget : ∀ {t}, (callee.entity c).Awaits t → t < callee.size := hw.targets hlive
  have hchild : ∀ edge ∈ (callee.entity c).sortedFields, callee.find edge.2 < callee.size := by
    intro edge hmem
    have hg := (Table.mem_entries_iff (hw.keys hlive) edge.1 edge.2).mp
      (List.mem_mergeSort.mp hmem)
    obtain ⟨e, he, _⟩ := hw.child hlive hg
    exact Heap.find_lt_size (Heap.lt_size_of_live? he)
  obtain ⟨htaint, hdeep⟩ := covers_copyMarks hv mode (callee.entity c) hd
  have hmarks := hv.copyMarks callee Rebasing.identity mode (callee.entity c) (g.caller.find m)
  obtain ⟨hinput, hinputs⟩ := reached_copyDeferredInputs hw hmarks.valid (g.caller.find m)
    fun t ht => htarget (.inl (Std.TreeSet.mem_toList.mp ht))
  obtain ⟨hedge, hedges⟩ := reached_copyDeferredTaints hw hinput.valid Rebasing.identity
    (g.caller.find m) fun edge he => htarget (.inr ⟨edge, he, rfl⟩)
  obtain ⟨hfield, hfields⟩ := led_glueFields hedge.valid
    (((hmarks.trans hinput).trans hedge).lt_size hd) hchild
  have hafter := (hinput.trans hedge).trans hfield
  have hrep := (hmarks.trans hafter).grows.find m
  refine ⟨⟨m, (hmarks.trans hafter).matched hm, ?_, fun hcd => ?_, fun {edge} he => ?_⟩,
    fun {t} ha => ?_⟩
  · have hle := Nat.le_trans htaint (hafter.grows.taint _)
    rwa [Heap.taint, Heap.entity_congr hrep] at hle
  · have hmarked := hafter.grows.deep (hdeep hcd)
    rwa [Heap.entity_congr hrep] at hmarked
  · exact (hfields edge (List.mem_mergeSort.mpr he)).congr hrep
  · rcases ha with ht | ⟨edge, he, rfl⟩
    · exact (hinputs t (Std.TreeSet.mem_toList.mpr ht)).extend (hedge.trans hfield).toExtends
    · exact (hedges edge he).extend hfield.toExtends

/-! Working off the order. -/

/-- Every matched entity is covered, is being copied or still to be copied. -/
structure Tracked (callee : Heap) (current : List EntityId) (g : Glue σ) : Prop where
  bound : g.copied ≤ g.order.size
  keys : ∀ {c m}, g.matched.get? c = some m → c < callee.size
  covered : ∀ {c m}, g.matched.get? c = some m →
    Covered callee g c ∨ c ∈ current ∨ c ∈ g.order.toList.drop g.copied

theorem Tracked.advance {current : List EntityId} (ht : Tracked callee current g)
    (ha : Advances callee g g') : Tracked callee current g' := by
  obtain ⟨more, horder, hnew⟩ := ha.order
  have hbound : g.copied ≤ g.order.toList.length := ht.bound
  have hdrop : g'.order.toList.drop g'.copied = g.order.toList.drop g.copied ++ more := by
    rw [horder, ha.copied, List.drop_append_of_le_length hbound]
  refine ⟨?_, fun {c m} hm => ?_, fun {c m} hm => ?_⟩
  · rw [ha.copied, ← Array.length_toList, horder, List.length_append]
    exact Nat.le_trans hbound (Nat.le_add_right ..)
  · cases hold : g.matched.get? c with
    | none => exact (hnew hm hold).2
    | some m' => exact ht.keys hold
  · rw [hdrop]
    cases hold : g.matched.get? c with
    | none => exact .inr (.inr (List.mem_append_right _ (hnew hm hold).1))
    | some m' =>
      rcases ht.covered hold with hc | hin | hin
      · exact .inl (hc.extend ha.toExtends)
      · exact .inr (.inl hin)
      · exact .inr (.inr (List.mem_append_left _ hin))

/-- The next entity in the order is taken up. -/
theorem Tracked.next (ht : Tracked callee [] g) (hc : g.copied < g.order.size) :
    Tracked callee [g.order[g.copied]] { g with copied := g.copied + 1 } := by
  refine ⟨hc, ht.keys, fun {c m} hm => ?_⟩
  rcases ht.covered hm with hcov | hin | hin
  · exact .inl ⟨hcov.marks, hcov.targets⟩
  · exact absurd hin List.not_mem_nil
  · rw [List.drop_eq_getElem_cons hc, List.mem_cons, Array.getElem_toList] at hin
    exact .inr (hin.imp List.mem_singleton.mpr id)

theorem Tracked.done {c : EntityId} (ht : Tracked callee [c] g)
    (hc : ∀ m, g.matched.get? c = some m → Covered callee g c) : Tracked callee [] g := by
  refine ⟨ht.bound, ht.keys, fun {c' m} hm => ?_⟩
  rcases ht.covered hm with hcov | hin | hin
  · exact .inl hcov
  · cases List.mem_singleton.mp hin
    exact .inl (hc m hm)
  · exact .inr (.inr hin)

/-- Nothing is left to copy. -/
structure Finished (callee : Heap) (g : Glue σ) : Prop extends Tracked callee [] g where
  done : g.order.size ≤ g.copied

theorem Finished.covers (hf : Finished callee g) {c m : EntityId}
    (hm : g.matched.get? c = some m) : Covered callee g c := by
  rcases hf.covered hm with hc | hin | hin
  · exact hc
  · exact absurd hin List.not_mem_nil
  · rw [List.drop_eq_nil_of_le hf.done] at hin
    exact absurd hin List.not_mem_nil

theorem Tracked.copyEntity {g : Glue Unit} (hw : callee.WellFormed) (hv : g.Valid)
    (mode : GlueMode) {c : EntityId} (ht : Tracked callee [c] g) :
    Tracked callee [] (g.copyEntity callee Rebasing.identity mode c) := by
  have hstep := hv.copyEntity callee Rebasing.identity mode c
  refine (ht.advance hstep).done fun m hm => ?_
  unfold Glue.copyEntity at hm ⊢
  cases hold : g.matched.get? c with
  | none =>
    rw [hold] at hm
    simp only at hm
    rw [hold] at hm
    cases hm
  | some m' => exact covered_copyInto hw hv mode (ht.keys hold) hold

theorem Tracked.drain {g : Glue Unit} (hw : callee.WellFormed) (hv : g.Valid) (mode : GlueMode)
    (ht : Tracked callee [] g) : Finished callee (g.drain callee Rebasing.identity mode) := by
  fun_induction Glue.drain callee Rebasing.identity mode g with
  | case1 g hc ih =>
    have hnext : Valid { g with copied := g.copied + 1 } := ⟨hv.proper, hv.matched⟩
    have hstep := hnext.copyEntity callee Rebasing.identity mode g.order[g.copied]
    exact ih hstep.valid ((ht.next hc).copyEntity hw hnext mode)
  | case2 g hc => exact ⟨ht, Nat.le_of_not_lt hc⟩

/-- Everything that is matched after a root was glued is covered. -/
theorem Finished.apply {g : Glue Unit} (hf : Finished callee g) (hw : callee.WellFormed)
    (hv : g.Valid) (mode : GlueMode) (root : EntityId) {actual : EntityId}
    (ha : actual < g.caller.size) :
    Finished callee (g.apply callee Rebasing.identity mode root actual).2 := by
  have hroot := hv.rooted callee root ha
  rw [apply_snd]
  exact (hf.toTracked.advance hroot).drain hw hroot.valid mode

/-- The root is matched with what stands for the actual. -/
theorem matched_rooted (hv : g.Valid) {root actual : EntityId} (hr : root < callee.size)
    (ha : actual < g.caller.size) :
    ∃ m, (rooted callee g root actual).matched.get? (callee.find root) = some m ∧
      (rooted callee g root actual).caller.find m =
        (rooted callee g root actual).caller.find actual := by
  have hact := @Heap.find_lt_size g.caller actual ha
  unfold rooted
  cases hm : g.matched.get? (callee.find root) with
  | some previous =>
    simp only
    split
    · rename_i hsame
      exact ⟨previous, hm, hsame⟩
    · have hprev := Heap.find_lt_size (hv.matched hm)
      obtain ⟨hgrows, _, hjoin⟩ :=
        hv.proper.wellFormed.grows_merge hv.proper.closed hprev hact
      refine ⟨previous, hm, ?_⟩
      rwa [hgrows.find, hgrows.find] at hjoin
  | none =>
    refine ⟨g.caller.find actual, ?_, ?_⟩
    · rw [get?_record, if_pos ⟨rfl, Heap.find_lt_size hr, hm⟩]
    · rw [caller_record, Heap.find_find]

end Glue

end SinkTrace
