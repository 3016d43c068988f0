import SinkTrace.Heap.Glue
import SinkTrace.Proofs.Heap.Evolution

/-!
Gluing is made of operations of the caller's heap, whatever the hooks answer. So the caller stays
proper and only grows, and matched entities stay matched.
-/

namespace SinkTrace

namespace Heap

variable {h : Heap}

/-- A loaded child is in the arena. -/
theorem WellFormed.loadField_lt (hw : h.WellFormed) {owner : EntityId} (ho : owner < h.size)
    (key : FieldName) : (h.loadField owner key).1 < (h.loadField owner key).2.size := by
  cases hg : (h.entity owner).fields.get? key with
  | some child =>
    rw [loadField_of_some hg]
    obtain ⟨e, he, _⟩ := hw.child (hw.live? ho) hg
    exact find_lt_size (lt_size_of_live? he)
  | none =>
    rw [loadField_of_none hg]
    have hsize := (alike_link (h.withChild owner key) (h.find owner) key h.size).size
    rw [size_withChild] at hsize
    rw [hsize]
    exact Nat.lt_succ_self _

end Heap

namespace Glue

variable {σ : Type} {callee : Heap} {r : Rebasing σ} {mode : GlueMode} {g g' g'' : Glue σ}

/-- The caller is proper, and matched entities have ids of its arena. -/
structure Valid (g : Glue σ) : Prop where
  proper : g.caller.Proper
  matched : ∀ {c d}, g.matched.get? c = some d → d < g.caller.size

/-- Gluing may lead from `g` to `g'`. What gets matched joins the end of the order. -/
structure Extends (callee : Heap) (g g' : Glue σ) : Prop where
  valid : g'.Valid
  grows : Heap.Grows g.caller g'.caller
  matched : ∀ {c d}, g.matched.get? c = some d → g'.matched.get? c = some d
  order : ∃ more, g'.order.toList = g.order.toList ++ more ∧
    ∀ {c d}, g'.matched.get? c = some d → g.matched.get? c = none →
      c ∈ more ∧ c < callee.size

/-- As `Extends`, with nothing more copied. -/
structure Advances (callee : Heap) (g g' : Glue σ) : Prop extends Extends callee g g' where
  copied : g'.copied = g.copied

theorem Extends.refl (hv : g.Valid) : Extends callee g g :=
  ⟨hv, Heap.Grows.refl _, id, [], (List.append_nil _).symm, fun hm hn => by
    rw [hm] at hn
    cases hn⟩

theorem Extends.trans (h₁ : Extends callee g g') (h₂ : Extends callee g' g'') :
    Extends callee g g'' := by
  obtain ⟨more₁, he₁, hnew₁⟩ := h₁.order
  obtain ⟨more₂, he₂, hnew₂⟩ := h₂.order
  refine ⟨h₂.valid, h₁.grows.trans h₂.grows, fun hm => h₂.matched (h₁.matched hm),
    more₁ ++ more₂, by rw [he₂, he₁, List.append_assoc], fun {c d} hm hn => ?_⟩
  cases hmid : g'.matched.get? c with
  | none => exact (hnew₂ hm hmid).imp_left (List.mem_append_right _)
  | some d' => exact (hnew₁ hmid hn).imp_left (List.mem_append_left _)

theorem Advances.refl (hv : g.Valid) : Advances callee g g := ⟨.refl hv, rfl⟩

theorem Advances.trans (h₁ : Advances callee g g') (h₂ : Advances callee g' g'') :
    Advances callee g g'' :=
  ⟨h₁.toExtends.trans h₂.toExtends, h₂.copied.trans h₁.copied⟩

theorem Extends.lt_size (ha : Extends callee g g') {d : EntityId} (hd : d < g.caller.size) :
    d < g'.caller.size := Nat.lt_of_lt_of_le hd ha.grows.size

/-- An operation of the caller's heap, with anything that the hooks note about it. -/
theorem Valid.evolve (hv : g.Valid) (callee : Heap) {h : Heap} (he : Heap.Evolves g.caller h)
    (log : σ) : Advances callee g { g with caller := h, log } := by
  refine ⟨⟨⟨he.proper, fun hm => he.lt_size (hv.matched hm)⟩, he.grows, id, [],
    (List.append_nil _).symm, fun {c d} hm hn => ?_⟩, rfl⟩
  rw [hn] at hm
  cases hm

theorem Advances.foldl {α : Type} {f : Glue σ → α → Glue σ} {as : List α} (hv : g.Valid)
    (hf : ∀ g' a, a ∈ as → Advances callee g g' → Advances callee g' (f g' a)) :
    Advances callee g (as.foldl f g) := by
  induction as generalizing g with
  | nil => exact .refl hv
  | cons a as ih =>
    have hstep := hf g a (List.mem_cons_self ..) (.refl hv)
    exact hstep.trans (ih hstep.valid fun g' b hb ha =>
      hf g' b (List.mem_cons_of_mem _ hb) (hstep.trans ha))

theorem get?_record (callee : Heap) (g : Glue σ) (c d c' : EntityId) :
    (g.record callee c d).matched.get? c' =
      if c' = c ∧ c < callee.size ∧ g.matched.get? c = none then some d
      else g.matched.get? c' := by
  have hnone : g.matched.get? c = none ↔ g.matched.contains c = false := by
    change g.matched[c]? = none ↔ _
    rw [Std.TreeMap.contains_eq_isSome_getElem?]
    cases g.matched[c]? <;> simp
  unfold record
  split
  · rename_i hin
    have hc : g.matched.get? c = none := hnone.mpr (by simpa using hin.2)
    by_cases hcc : c' = c
    · subst hcc
      rw [if_pos ⟨rfl, hin.1, hc⟩]
      exact Std.TreeMap.getElem?_insert_self
    · have hne : c ≠ c' := fun he => hcc he.symm
      simp [Std.TreeMap.getElem?_insert, hcc, hne]
  · rename_i hin
    have hno : ¬(c' = c ∧ c < callee.size ∧ g.matched.get? c = none) := by
      rintro ⟨rfl, hlt, hc⟩
      exact hin ⟨hlt, by simp [hnone.mp hc]⟩
    rw [if_neg hno]

@[simp]
theorem caller_record (callee : Heap) (g : Glue σ) (c d : EntityId) :
    (g.record callee c d).caller = g.caller := by
  unfold record
  split <;> rfl

theorem Valid.record (hv : g.Valid) (callee : Heap) (c : EntityId) {d : EntityId}
    (hd : d < g.caller.size) : Advances callee g (g.record callee c d) := by
  have hcaller := caller_record callee g c d
  have hkeep : ∀ {c' d'}, g.matched.get? c' = some d' →
      (g.record callee c d).matched.get? c' = some d' := by
    intro c' d' hm
    rw [get?_record]
    split
    · rename_i hin
      rw [← hin.1, hm] at hin
      cases hin.2.2
    · exact hm
  have hcopied : (g.record callee c d).copied = g.copied := by
    unfold Glue.record
    split <;> rfl
  refine ⟨⟨⟨hcaller ▸ hv.proper, fun {c' d'} hm => ?_⟩, hcaller ▸ Heap.Grows.refl _, hkeep, ?_⟩,
    hcopied⟩
  · rw [hcaller]
    rw [get?_record] at hm
    split at hm
    · cases hm
      exact hd
    · exact hv.matched hm
  · have hnew : ∀ {c' d'}, (g.record callee c d).matched.get? c' = some d' →
        g.matched.get? c' = none → c' = c ∧ c < callee.size ∧ g.matched.get? c = none := by
      intro c' d' hm hn
      rw [get?_record] at hm
      split at hm
      · assumption
      · rw [hn] at hm
        cases hm
    by_cases hin : c < callee.size ∧ (!g.matched.contains c) = true
    · refine ⟨[c], ?_, fun {c' d'} hm hn => ?_⟩
      · unfold Glue.record
        rw [if_pos hin, Array.toList_push]
      · obtain ⟨rfl, hlt, _⟩ := hnew hm hn
        exact ⟨List.mem_singleton_self _, hlt⟩
    · refine ⟨[], ?_, fun {c' d'} hm hn => absurd ?_ hin⟩
      · unfold Glue.record
        rw [if_neg hin, List.append_nil]
      · obtain ⟨rfl, hlt, hnone⟩ := hnew hm hn
        have hno : g.matched[c']? = none := hnone
        exact ⟨hlt, by rw [Std.TreeMap.contains_eq_isSome_getElem?, hno]; rfl⟩

/-! Finding the counterpart of a callee entity. -/

theorem Valid.follow (hv : g.Valid) {current : EntityId} (hc : current < g.caller.size)
    (edge : FieldName × EntityId) :
    Advances callee g (follow callee (current, g) edge).2 ∧
      (follow callee (current, g) edge).1 < (follow callee (current, g) edge).2.caller.size := by
  have hload := hv.proper.loadField hc edge.1
  have hlt := hv.proper.wellFormed.loadField_lt hc edge.1
  have hstep := hv.evolve callee hload g.log
  have hrec := hstep.valid.record callee edge.2 hlt
  exact ⟨hstep.trans hrec, Nat.lt_of_lt_of_le hlt hrec.grows.size⟩

theorem Valid.followAll (hv : g.Valid) {current : EntityId} (hc : current < g.caller.size)
    (route : Route) :
    Advances callee g (route.foldl (Glue.follow callee) (current, g)).2 ∧
      (route.foldl (Glue.follow callee) (current, g)).1 <
        (route.foldl (Glue.follow callee) (current, g)).2.caller.size := by
  induction route generalizing g current with
  | nil => exact ⟨.refl hv, hc⟩
  | cons edge route ih =>
    obtain ⟨hstep, hlt⟩ := @Valid.follow σ callee g hv current hc edge
    obtain ⟨hrest, hend⟩ := ih hstep.valid hlt
    exact ⟨hstep.trans hrest, hend⟩

/-- The search upwards ends at a matched entity. -/
theorem matched_of_searchUp {isMatched : EntityId → Bool} {queue : List (EntityId × Route)}
    {seen : IdSet} {anchor : EntityId} {route : Route}
    (hs : searchUp callee isMatched queue seen = some (anchor, route)) :
    isMatched anchor = true := by
  fun_induction searchUp callee isMatched queue seen with
  | case1 => cases hs
  | case2 seen parent route' rest hin hm =>
    cases hs
    exact hm
  | case3 seen parent route' rest hin hm ih => exact ih hs
  | case4 seen parent route' rest hin ih => exact ih hs

/-- Where the way down starts that a search upwards found. -/
theorem Valid.anchor (hv : g.Valid) {anchor : EntityId}
    (hm : g.matched.contains anchor = true) : ∃ d, g.matched.get? anchor = some d ∧
      g.caller.find ((g.matched.get? anchor).getD anchor) = g.caller.find d ∧
      g.caller.find d < g.caller.size := by
  rw [Std.TreeMap.contains_eq_isSome_getElem?, Option.isSome_iff_exists] at hm
  obtain ⟨d, hd⟩ := hm
  have hd : g.matched.get? anchor = some d := hd
  refine ⟨d, hd, by rw [hd]; rfl, Heap.find_lt_size (hv.matched hd)⟩

theorem Valid.lookup (hv : g.Valid) (callee : Heap) (id : EntityId) :
    Advances callee g (g.lookup callee id).2 ∧
      ∀ d, (g.lookup callee id).1 = some d → d < (g.lookup callee id).2.caller.size := by
  unfold Glue.lookup
  simp only
  split
  · rename_i d hd
    refine ⟨.refl hv, fun d' he => ?_⟩
    cases he
    exact Heap.find_lt_size (hv.matched hd)
  · split
    · exact ⟨.refl hv, fun d' he => by cases he⟩
    · rename_i anchor route hs
      obtain ⟨d, _, hstart, hlt⟩ := hv.anchor (matched_of_searchUp hs)
      rw [hstart]
      obtain ⟨hall, hend⟩ := @Valid.followAll σ callee g hv _ hlt route
      refine ⟨hall, fun d' he => ?_⟩
      cases he
      exact hend

theorem Valid.lookupOrCreate (hv : g.Valid) (callee : Heap) (id : EntityId) :
    Advances callee g (g.lookupOrCreate callee id).2 ∧
      (g.lookupOrCreate callee id).1 < (g.lookupOrCreate callee id).2.caller.size := by
  obtain ⟨hlook, hfound⟩ := hv.lookup callee (callee.find id)
  unfold Glue.lookupOrCreate
  simp only
  split
  · rename_i d g₁ he
    rw [he] at hlook hfound
    exact ⟨hlook, hfound d rfl⟩
  · rename_i g₁ he
    rw [he] at hlook
    have hnew := hlook.valid.proper.create (callee.entity (callee.find id)).origin
    have hstep := hlook.valid.evolve callee hnew g₁.log
    have hlt : g₁.caller.size <
        (g₁.caller.create (callee.entity (callee.find id)).origin).2.size := by
      rw [Heap.size_create]
      exact Nat.lt_succ_self _
    have hrec := hstep.valid.record callee (callee.find id) hlt
    exact ⟨hlook.trans (hstep.trans hrec), Nat.lt_of_lt_of_le hlt hrec.grows.size⟩

/-! Copying one entity. -/

theorem evolves_copyOrigin {h : Heap} (hp : h.Proper) (mode : GlueMode) (src : Entity)
    (d : EntityId) : Heap.Evolves h (copyOrigin mode src h d) := by
  unfold copyOrigin
  split
  · split
    · exact hp.setOrigin d _
    · exact .refl hp
  · exact .refl hp

theorem evolves_copyTaint {h : Heap} (hp : h.Proper) (r : Rebasing σ) (src : Entity)
    (d : EntityId) (log : σ) : Heap.Evolves h (copyTaint r src h d log).1 := by
  unfold copyTaint
  split
  · exact hp.raiseTaint d _ _
  · split
    · exact hp.raiseTaint d _ _
    · exact .refl hp

theorem evolves_copyCalls {h : Heap} (hp : h.Proper) (r : Rebasing σ) (d : EntityId)
    (calls : List TargetCall) (log : σ) :
    Heap.Evolves h (calls.foldl (copyCall r d) (h, log)).1 := by
  induction calls generalizing h log with
  | nil => exact .refl hp
  | cons call calls ih =>
    have hstep := hp.addTargetCall d { call with stack := (r.stack log call.stack).1 }
    exact hstep.trans (ih hstep.proper _)

theorem Valid.copyMarks (hv : g.Valid) (callee : Heap) (r : Rebasing σ) (mode : GlueMode)
    (src : Entity) (d : EntityId) : Advances callee g (g.copyMarks r mode src d) := by
  have ho := evolves_copyOrigin hv.proper mode src d
  have ht := evolves_copyTaint ho.proper r src d g.log
  have hd : Heap.Evolves (copyTaint r src (copyOrigin mode src g.caller d) d g.log).1
      (if src.deep then
        (copyTaint r src (copyOrigin mode src g.caller d) d g.log).1.markInput d
      else (copyTaint r src (copyOrigin mode src g.caller d) d g.log).1) := by
    split
    · exact ht.proper.markInput d
    · exact .refl ht.proper
  have hc := evolves_copyCalls hd.proper r d src.targetCalls
    (copyTaint r src (copyOrigin mode src g.caller d) d g.log).2
  exact hv.evolve callee (((ho.trans ht).trans hd).trans hc) _

theorem Valid.copyDeferredInput (hv : g.Valid) (d target : EntityId) :
    Advances callee g (copyDeferredInput callee d g target) := by
  obtain ⟨hlook, hlt⟩ := hv.lookupOrCreate callee target
  exact hlook.trans (hlook.valid.evolve callee (hlook.valid.proper.addDeferredInput d hlt) _)

theorem Valid.copyDeferredTaint (hv : g.Valid) (r : Rebasing σ) (d : EntityId)
    (edge : DeferredTaint) : Advances callee g (copyDeferredTaint callee r d g edge) := by
  obtain ⟨hlook, hlt⟩ := hv.lookupOrCreate callee edge.target
  exact hlook.trans (hlook.valid.evolve callee (hlook.valid.proper.addDeferredTaint d hlt) _)

theorem Valid.glueField (hv : g.Valid) {d : EntityId} (hd : d < g.caller.size)
    (edge : FieldName × EntityId) : Advances callee g (glueField callee d g edge) := by
  have hown := @Heap.find_lt_size g.caller d hd
  have hload := hv.proper.loadField hown edge.1
  have hlt := hv.proper.wellFormed.loadField_lt hown edge.1
  unfold Glue.glueField
  simp only
  split
  · rename_i previous hm
    split
    · exact hv.evolve callee hload _
    · have hprev := Heap.find_lt_size (hload.lt_size (hv.matched hm))
      exact hv.evolve callee (hload.trans (hload.proper.merge hprev hlt)) _
  · have hstep := hv.evolve callee hload g.log
    exact hstep.trans (hstep.valid.record callee _ hlt)

theorem Valid.copyInto (hv : g.Valid) (r : Rebasing σ) (mode : GlueMode) (src : Entity)
    {d : EntityId} (hd : d < g.caller.size) :
    Advances callee g (g.copyInto callee r mode src d) := by
  have hmarks := hv.copyMarks callee r mode src d
  have hinput : Advances callee (g.copyMarks r mode src d)
      (src.deferredInput.toList.foldl (Glue.copyDeferredInput callee d)
        (g.copyMarks r mode src d)) :=
    .foldl hmarks.valid fun g' target _ ha => ha.valid.copyDeferredInput d target
  have htaint : Advances callee
      (src.deferredInput.toList.foldl (Glue.copyDeferredInput callee d) (g.copyMarks r mode src d))
      (src.deferredTaint.foldl (Glue.copyDeferredTaint callee r d)
        (src.deferredInput.toList.foldl (Glue.copyDeferredInput callee d)
          (g.copyMarks r mode src d))) :=
    .foldl hinput.valid fun g' edge _ ha => ha.valid.copyDeferredTaint r d edge
  have hedges := (hmarks.trans hinput).trans htaint
  exact hedges.trans (.foldl hedges.valid fun g' edge _ ha =>
    ha.valid.glueField ((hedges.trans ha).lt_size hd) edge)

theorem Valid.copyEntity (hv : g.Valid) (callee : Heap) (r : Rebasing σ) (mode : GlueMode)
    (c : EntityId) : Advances callee g (g.copyEntity callee r mode c) := by
  unfold Glue.copyEntity
  split
  · exact .refl hv
  · rename_i d hm
    exact hv.copyInto r mode _ (Heap.find_lt_size (hv.matched hm))

theorem Valid.drain (hv : g.Valid) (callee : Heap) (r : Rebasing σ) (mode : GlueMode) :
    Extends callee g (g.drain callee r mode) := by
  fun_induction Glue.drain callee r mode g with
  | case1 g hc ih =>
    have hnext : Valid { g with copied := g.copied + 1 } := ⟨hv.proper, hv.matched⟩
    have hstep := (hnext.copyEntity callee r mode g.order[g.copied]).toExtends
    have hcopy : Extends callee g
        ({ g with copied := g.copied + 1 }.copyEntity callee r mode g.order[g.copied]) :=
      ⟨hstep.valid, hstep.grows, hstep.matched, hstep.order⟩
    exact hcopy.trans (ih hcopy.valid)
  | case2 g hc => exact .refl hv

/-- The context right after its root was matched, before anything is copied. -/
def rooted (callee : Heap) (g : Glue σ) (root actual : EntityId) : Glue σ :=
  match g.matched.get? (callee.find root) with
  | some previous =>
    if g.caller.find previous = g.caller.find actual then g
    else { g with caller := (g.caller.merge (g.caller.find previous) (g.caller.find actual)).2 }
  | none => g.record callee (callee.find root) (g.caller.find actual)

theorem apply_snd (callee : Heap) (r : Rebasing σ) (mode : GlueMode) (g : Glue σ)
    (root actual : EntityId) :
    (g.apply callee r mode root actual).2 = (rooted callee g root actual).drain callee r mode := by
  unfold Glue.apply rooted
  simp only
  cases g.matched.get? (callee.find root) with
  | some previous => by_cases hf : g.caller.find previous = g.caller.find actual <;> simp [hf]
  | none => rfl

theorem Valid.rooted (hv : g.Valid) (callee : Heap) (root : EntityId) {actual : EntityId}
    (ha : actual < g.caller.size) : Advances callee g (rooted callee g root actual) := by
  have hact := @Heap.find_lt_size g.caller actual ha
  unfold Glue.rooted
  split
  · rename_i previous hm
    split
    · exact .refl hv
    · have hmerge := hv.proper.merge (Heap.find_lt_size (hv.matched hm)) hact
      exact hv.evolve callee hmerge g.log
  · exact hv.record callee (callee.find root) hact

theorem Valid.apply (hv : g.Valid) (callee : Heap) (r : Rebasing σ) (mode : GlueMode)
    (root : EntityId) {actual : EntityId} (ha : actual < g.caller.size) :
    Extends callee g (g.apply callee r mode root actual).2 := by
  have hroot := hv.rooted callee root ha
  rw [apply_snd]
  exact hroot.toExtends.trans (hroot.valid.drain callee r mode)

theorem Valid.matchedValue (hv : g.Valid) (callee : Heap) (r : Rebasing σ) (mode : GlueMode)
    (id : EntityId) : Extends callee g (g.matchedValue callee r mode id).2 := by
  obtain ⟨hlook, _⟩ := hv.lookup callee id
  exact hlook.toExtends.trans (hlook.valid.drain callee r mode)

end Glue

end SinkTrace
