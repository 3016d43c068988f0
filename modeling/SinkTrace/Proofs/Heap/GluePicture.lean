import SinkTrace.Proofs.Heap.Coverage
import SinkTrace.Proofs.Heap.Picture
import Mathlib.Logic.Function.Basic

/-!
Gluing brings over nothing else. In a picture in which callee entities and ids of the caller are
things side by side, a matched pair is one; every step of a gluing keeps to such a picture, and an
entity that it makes stands for the callee entity it was made for.
-/

namespace SinkTrace

/-- An entity of the callee, or an id of the caller from before the gluing. -/
inductive Side where
  | caller (id : EntityId)
  | callee (id : EntityId)
deriving DecidableEq

/-- What a heap shows of an entity. -/
def Entity.seen (e : Entity) : Table FieldName EntityId × Bool × TaintId :=
  (e.fields, e.deep, e.taint)

namespace Heap

variable {S : Type} {P : Picture S} {φ : EntityId → S} {h h' : Heap}

theorem Shows.of_seen (hs : h.Shows P φ) (ha : Alike Entity.seen h h') : h'.Shows P φ := by
  have hmarks : ∀ u, (h'.entity u).deep = (h.entity u).deep ∧
      (h'.entity u).taint = (h.entity u).taint := by
    intro u
    have hseen := ha.entity u
    exact ⟨congrArg (·.2.1) hseen, congrArg (·.2.2) hseen⟩
  refine hs.of_alike (ha.comp Prod.fst) (fun {u} hd => ?_) (fun {u} hu => ?_)
  · rw [(hmarks u).1] at hd
    exact hs.deep hd
  · rw [Heap.taint, (hmarks u).2]
    exact hs.taint hu

theorem alike_addTargetCall (h : Heap) (id : EntityId) (call : TargetCall) :
    Alike Entity.seen h (h.addTargetCall id call) := by
  have hkeep : ∀ e : Entity, (e.addTargetCall call).seen = e.seen := by
    intro e
    unfold Entity.addTargetCall
    split <;> rfl
  unfold addTargetCall
  simp only
  split
  · exact .refl _ _
  · have hu : Alike Entity.seen h (h.update (h.find id) (·.addTargetCall call)) :=
      alike_update h _ hkeep
    exact hu.trans (alike_note _ _)

theorem alike_addDeferredInput (h : Heap) (owner target : EntityId) :
    Alike Entity.seen h (h.addDeferredInput owner target) := by
  unfold addDeferredInput
  simp only
  split
  · exact .refl _ _
  · have hu : Alike Entity.seen h
        (h.update (h.find owner) (·.addDeferredInput (h.find target))) :=
      alike_update h _ fun _ => rfl
    exact hu.trans (alike_note _ _)

theorem alike_addDeferredTaint (h : Heap) (owner : EntityId) (edge : DeferredTaint) :
    Alike Entity.seen h (h.addDeferredTaint owner edge) := by
  have hu : Alike Entity.seen h (h.update (h.find owner) (·.addDeferredTaint edge)) :=
    alike_update h _ fun _ => rfl
  exact hu.trans (alike_note _ _)

end Heap

namespace Glue

/-- The picture holds what the callee has at the entities that may be brought over, and these are
closed under fields and deferred edges. -/
structure Admits (P : Picture Side) (callee : Heap) (touched : EntityId → Prop) : Prop where
  lawful : P.Lawful
  refl : ∀ {c}, touched c → P.same (.callee c) (.callee c)
  leads : ∀ {c k w}, touched c → callee.field? c k = some w →
    P.leads (.callee c) k (.callee w)
  deep : ∀ {c}, touched c → (callee.entity c).deep = true → P.deep (.callee c)
  taint : ∀ {c}, touched c → P.taint (.callee c) (callee.taint c)
  clean : ∀ {c}, touched c → P.taint (.callee c) TaintId.clean
  field : ∀ {c k w}, touched c → callee.field? c k = some w → touched w
  target : ∀ {c t}, touched c → (callee.entity c).Awaits t → touched (callee.find t)

/-- The caller shows no more than the picture, and matched entities are one in it. The first `n`
ids stand for themselves. -/
structure Pictured (P : Picture Side) (touched : EntityId → Prop) (n : Nat) {σ : Type}
    (g : Glue σ) (φ : EntityId → Side) : Prop where
  bound : n ≤ g.caller.size
  old : ∀ {u}, u < n → φ u = .caller u
  shows : g.caller.Shows P φ
  matched : ∀ {c m}, g.matched.get? c = some m → touched c ∧ P.same (φ m) (.callee c)

/-- The new context is pictured as well, and the ids of the old one stand for what they did. -/
def Redraws (P : Picture Side) (touched : EntityId → Prop) (n : Nat) {σ : Type} (g : Glue σ)
    (φ : EntityId → Side) (g' : Glue σ) (φ' : EntityId → Side) : Prop :=
  Pictured P touched n g' φ' ∧ ∀ {u}, u < g.caller.size → φ' u = φ u

variable {σ : Type} {P : Picture Side} {callee : Heap} {touched : EntityId → Prop} {n : Nat}
  {r : Rebasing σ} {mode : GlueMode} {g g' g'' : Glue σ} {φ φ' φ'' : EntityId → Side}

theorem Redraws.refl (hp : Pictured P touched n g φ) : Redraws P touched n g φ g φ :=
  ⟨hp, fun _ => rfl⟩

theorem Redraws.trans (h₁ : Redraws P touched n g φ g' φ')
    (h₂ : Redraws P touched n g' φ' g'' φ'') (hs : g.caller.size ≤ g'.caller.size) :
    Redraws P touched n g φ g'' φ'' :=
  ⟨h₂.1, fun hu => (h₂.2 (Nat.lt_of_lt_of_le hu hs)).trans (h₁.2 hu)⟩

/-- An operation on the caller that shows nothing new. -/
theorem Pictured.evolve (hp : Pictured P touched n g φ) {h : Heap} (hs : h.Shows P φ)
    (hsize : g.caller.size ≤ h.size) (log : σ) :
    Pictured P touched n { g with caller := h, log } φ :=
  ⟨Nat.le_trans hp.bound hsize, hp.old, hs, hp.matched⟩

theorem Pictured.record (hp : Pictured P touched n g φ) {c d : EntityId} (hc : touched c)
    (hd : P.same (φ d) (.callee c)) : Pictured P touched n (g.record callee c d) φ := by
  have hcaller := caller_record callee g c d
  refine ⟨hcaller ▸ hp.bound, hp.old, hcaller ▸ hp.shows, fun {c' m} hm => ?_⟩
  rw [get?_record] at hm
  split at hm
  · rename_i hin
    cases hm
    exact hin.1 ▸ ⟨hc, hd⟩
  · exact hp.matched hm

/-- What a new entity of the caller stands for can be chosen. -/
theorem Pictured.redraw (hp : Pictured P touched n g φ) (hv : g.Valid) (s : Side) :
    Redraws P touched n g φ g (Function.update φ g.caller.size s) := by
  have hold : ∀ u, u < g.caller.size → φ u = Function.update φ g.caller.size s u := by
    intro u hu
    rw [Function.update_of_ne (Nat.ne_of_lt hu)]
  refine ⟨⟨hp.bound, fun {u} hu => ?_, hp.shows.congr hv.proper.wellFormed hold,
    fun {c m} hm => ?_⟩, fun hu => (hold _ hu).symm⟩
  · rw [← hold u (Nat.lt_of_lt_of_le hu hp.bound)]
    exact hp.old hu
  · rw [← hold m (hv.matched hm)]
    exact hp.matched hm

/-- Loading what the callee has under a field. -/
theorem Pictured.load (hA : Admits P callee touched) (hv : g.Valid)
    (hp : Pictured P touched n g φ) {owner c w : EntityId} {k : FieldName}
    (ho : owner < g.caller.size) (hc : touched c) (hsame : P.same (φ owner) (.callee c))
    (hf : callee.field? c k = some w) :
    ∃ φ', Redraws P touched n g φ { g with caller := (g.caller.loadField owner k).2 } φ' ∧
      P.same (φ' (g.caller.loadField owner k).1) (.callee w) := by
  have hP := hA.lawful
  have hw := hv.proper.wellFormed
  have hlead := hA.leads hc hf
  have hsize := (hv.proper.loadField ho k).grows.size
  cases hg : (g.caller.entity owner).fields.get? k with
  | some child =>
    refine ⟨φ, ⟨hp.evolve ?_ hsize g.log, fun _ => rfl⟩, ?_⟩
    · rw [Heap.loadField_of_some hg]
      exact hp.shows
    · rw [Heap.loadField_of_some hg]
      have hfield : g.caller.field? owner k = some (g.caller.find child) := by
        rw [Heap.field?_eq, hg]
        rfl
      exact hP.congruent hsame (hp.shows.field hfield) hlead
  | none =>
    have hw' := hA.field hc hf
    obtain ⟨hnew, hold⟩ := hp.redraw hv (.callee w)
    have hself : Function.update φ g.caller.size (.callee w) g.caller.size = .callee w :=
      Function.update_self ..
    have hloaded := hnew.shows.loadField_of_none hP hw ho hg
    rw [hself, hold ho] at hloaded
    have hleads : P.leads (φ owner) k (.callee w) :=
      hP.leads_same (hP.symm hsame) hlead (hA.refl hw')
    refine ⟨_, ⟨hnew.evolve (hloaded (hA.refl hw') (hA.clean hw') hleads) hsize g.log, hold⟩, ?_⟩
    rw [Heap.loadField_of_none hg, hself]
    exact hA.refl hw'

theorem Pictured.follow (hA : Admits P callee touched) (hv : g.Valid)
    (hp : Pictured P touched n g φ) {current c w : EntityId} {k : FieldName}
    (hcur : current < g.caller.size) (hc : touched c) (hsame : P.same (φ current) (.callee c))
    (hf : callee.field? c k = some w) :
    ∃ φ', Redraws P touched n g φ (follow callee (current, g) (k, w)).2 φ' ∧
      P.same (φ' (follow callee (current, g) (k, w)).1) (.callee w) := by
  obtain ⟨φ', ⟨hp', hold⟩, hsame'⟩ := hp.load hA hv hcur hc hsame hf
  exact ⟨φ', ⟨hp'.record (hA.field hc hf) hsame', hold⟩, hsame'⟩

theorem Pictured.followAll (hA : Admits P callee touched) {route : Route} {current c t : EntityId}
    (hv : g.Valid) (hp : Pictured P touched n g φ) (hcur : current < g.caller.size)
    (hc : touched c) (hsame : P.same (φ current) (.callee c)) (hl : Leads callee c route t) :
    ∃ φ', Redraws P touched n g φ (route.foldl (Glue.follow callee) (current, g)).2 φ' ∧
      P.same (φ' (route.foldl (Glue.follow callee) (current, g)).1) (.callee t) := by
  induction route generalizing g current c φ with
  | nil =>
    cases (show c = t from hl)
    exact ⟨φ, .refl hp, hsame⟩
  | cons edge route ih =>
    obtain ⟨k, w⟩ := edge
    obtain ⟨hf, hrest⟩ := hl
    obtain ⟨φ₁, hr₁, hsame₁⟩ := hp.follow hA hv hcur hc hsame hf
    obtain ⟨hstep, hlt⟩ := @Valid.follow σ callee g hv current hcur (k, w)
    obtain ⟨φ₂, hr₂, hsame₂⟩ := ih hstep.valid hr₁.1 hlt (hA.field hc hf) hsame₁ hrest
    exact ⟨φ₂, hr₁.trans hr₂ hstep.grows.size, hsame₂⟩

theorem Pictured.create (hA : Admits P callee touched) (hv : g.Valid)
    (hp : Pictured P touched n g φ) (origin : Option Origin) {c : EntityId} (hc : touched c) :
    ∃ φ', Redraws P touched n g φ { g with caller := (g.caller.create origin).2 } φ' ∧
      P.same (φ' g.caller.size) (.callee c) := by
  obtain ⟨hnew, hold⟩ := hp.redraw hv (.callee c)
  have hself : Function.update φ g.caller.size (.callee c) g.caller.size = .callee c :=
    Function.update_self ..
  have hcreated := hnew.shows.create origin
  rw [hself] at hcreated
  refine ⟨_, ⟨hnew.evolve (hcreated (hA.refl hc) (hA.clean hc)) ?_ g.log, hold⟩, ?_⟩
  · exact (hv.proper.create origin).grows.size
  · rw [hself]
    exact hA.refl hc

theorem Pictured.lookupOrCreate (hA : Admits P callee touched) (hw : callee.WellFormed)
    (hv : g.Valid) (hp : Pictured P touched n g φ) {id : EntityId} (hid : id < callee.size)
    (ht : touched (callee.find id)) :
    ∃ φ', Redraws P touched n g φ (g.lookupOrCreate callee id).2 φ' := by
  have hroot := @Heap.find_lt_size callee id hid
  unfold Glue.lookupOrCreate
  simp only
  rcases lookup_cases hw g hroot with ⟨d, hd, he⟩ | ⟨_, he⟩ | ⟨anchor, route, d, hd, hl, he⟩
  · rw [he]
    exact ⟨φ, .refl hp⟩
  · rw [he]
    obtain ⟨φ', ⟨hp', hold⟩, hsame⟩ :=
      hp.create hA hv (callee.entity (callee.find id)).origin ht
    exact ⟨φ', hp'.record ht hsame, hold⟩
  · rw [he]
    rw [Heap.find_find] at hl
    obtain ⟨hanchor, hsame⟩ := hp.matched hd
    have hm := hv.matched hd
    have hstart := hA.lawful.trans (hA.lawful.symm (hp.shows.find hm)) hsame
    obtain ⟨φ', hr, _⟩ := hp.followAll hA hv (Heap.find_lt_size hm) hanchor hstart hl
    exact ⟨φ', hr⟩

/-! Copying one entity. -/

theorem shows_copyTaint (hP : P.Lawful) {h : Heap} (hp : h.Proper) (hs : h.Shows P φ)
    {src : Entity} {d : EntityId} (hd : d < h.size) (ht : P.taint (φ d) src.taint) :
    (copyTaint Rebasing.identity src h d ()).1.Shows P φ := by
  unfold copyTaint
  split
  · exact hs.raiseTaint hP hp.wellFormed hd ht _
  · rename_i hlow
    split
    · rename_i hin
      have hle : src.taint ≤ TaintId.input :=
        Nat.le_of_lt_succ (Nat.lt_of_not_le fun h => hlow (TaintId.isTainted_iff.mpr h))
      have heq : src.taint = TaintId.input := Nat.le_antisymm hle (TaintId.isInput_iff.mp hin)
      exact hs.raiseTaint hP hp.wellFormed hd (heq ▸ ht) none
    · exact hs

theorem shows_copyCalls {h : Heap} (hs : h.Shows P φ) (d : EntityId) (calls : List TargetCall) :
    (calls.foldl (copyCall Rebasing.identity d) (h, ())).1.Shows P φ := by
  induction calls generalizing h with
  | nil => exact hs
  | cons call calls ih => exact ih (hs.of_seen (Heap.alike_addTargetCall h d call))

theorem Pictured.copyMarks {g : Glue Unit} (hA : Admits P callee touched) (hv : g.Valid)
    (hp : Pictured P touched n g φ) (mode : GlueMode) {c d : EntityId} (hd : d < g.caller.size)
    (hc : touched c) (hsame : P.same (φ d) (.callee c)) :
    Pictured P touched n (g.copyMarks Rebasing.identity mode (callee.entity c) d) φ := by
  have hP := hA.lawful
  have ho := evolves_copyOrigin hv.proper mode (callee.entity c) d
  have hos : (copyOrigin mode (callee.entity c) g.caller d).Shows P φ := by
    unfold copyOrigin
    split
    · split
      · exact hp.shows.of_seen (Heap.alike_update _ _ fun _ => rfl)
      · exact hp.shows
    · exact hp.shows
  have ht := evolves_copyTaint ho.proper Rebasing.identity (callee.entity c) d ()
  have hts := shows_copyTaint hP ho.proper hos (ho.lt_size hd)
    (hP.taint_same (hP.symm hsame) (hA.taint hc))
  have hsize := (hv.copyMarks callee Rebasing.identity mode (callee.entity c) d).grows.size
  have hds : (if (callee.entity c).deep then
        (copyTaint Rebasing.identity (callee.entity c)
          (copyOrigin mode (callee.entity c) g.caller d) d ()).1.markInput d
      else (copyTaint Rebasing.identity (callee.entity c)
        (copyOrigin mode (callee.entity c) g.caller d) d ()).1).Shows P φ := by
    split
    · rename_i hdeep
      refine hts.markAll hP ht.proper.wellFormed fun id hm => ?_
      cases List.mem_singleton.mp hm
      exact hP.deep_same (hP.symm hsame) (hA.deep hc hdeep)
    · exact hts
  exact hp.evolve (shows_copyCalls hds d (callee.entity c).targetCalls) hsize _

theorem Pictured.foldl {α : Type} {f : Glue σ → α → Glue σ} {as : List α} (hv : g.Valid)
    (hp : Pictured P touched n g φ)
    (hstep : ∀ g' φ' a, a ∈ as → Advances callee g g' → Redraws P touched n g φ g' φ' →
      Advances callee g' (f g' a) ∧ ∃ φ'', Redraws P touched n g' φ' (f g' a) φ'') :
    ∃ φ', Redraws P touched n g φ (as.foldl f g) φ' := by
  induction as generalizing g φ with
  | nil => exact ⟨φ, .refl hp⟩
  | cons a as ih =>
    obtain ⟨ha, φ₁, hr₁⟩ := hstep g φ a (List.mem_cons_self ..) (.refl hv) (.refl hp)
    obtain ⟨φ₂, hr₂⟩ := ih ha.valid hr₁.1 fun g' φ' b hb hadv hr =>
      hstep g' φ' b (List.mem_cons_of_mem _ hb) (ha.trans hadv) (hr₁.trans hr ha.grows.size)
    exact ⟨φ₂, hr₁.trans hr₂ ha.grows.size⟩

theorem Pictured.copyDeferredInput (hA : Admits P callee touched) (hw : callee.WellFormed)
    (hv : g.Valid) (hp : Pictured P touched n g φ) (d : EntityId) {target : EntityId}
    (hid : target < callee.size) (ht : touched (callee.find target)) :
    ∃ φ', Redraws P touched n g φ (copyDeferredInput callee d g target) φ' := by
  obtain ⟨φ', hp', hold⟩ := hp.lookupOrCreate hA hw hv hid ht
  have ha := Heap.alike_addDeferredInput (g.lookupOrCreate callee target).2.caller d
    (g.lookupOrCreate callee target).1
  exact ⟨φ', hp'.evolve (hp'.shows.of_seen ha) (Nat.le_of_eq ha.size.symm) _, hold⟩

theorem Pictured.copyDeferredTaint (hA : Admits P callee touched) (hw : callee.WellFormed)
    (hv : g.Valid) (hp : Pictured P touched n g φ) (r : Rebasing σ) (d : EntityId)
    {edge : DeferredTaint} (hid : edge.target < callee.size)
    (ht : touched (callee.find edge.target)) :
    ∃ φ', Redraws P touched n g φ (copyDeferredTaint callee r d g edge) φ' := by
  obtain ⟨φ', hp', hold⟩ := hp.lookupOrCreate hA hw hv hid ht
  have ha := Heap.alike_addDeferredTaint (g.lookupOrCreate callee edge.target).2.caller d
    ⟨(g.lookupOrCreate callee edge.target).1, { edge.sink with
      stack := (r.stack (g.lookupOrCreate callee edge.target).2.log edge.sink.stack).1 }⟩
  exact ⟨φ', hp'.evolve (hp'.shows.of_seen ha) (Nat.le_of_eq ha.size.symm) _, hold⟩

theorem Pictured.glueField (hA : Admits P callee touched) (hv : g.Valid)
    (hp : Pictured P touched n g φ) {c d : EntityId} (hd : d < g.caller.size) (hc : touched c)
    (hsame : P.same (φ d) (.callee c)) {edge : FieldName × EntityId}
    (hf : callee.field? c edge.1 = some (callee.find edge.2)) :
    ∃ φ', Redraws P touched n g φ (glueField callee d g edge) φ' := by
  have hP := hA.lawful
  have hown := @Heap.find_lt_size g.caller d hd
  have hload := hv.proper.loadField hown edge.1
  have hlt := hv.proper.wellFormed.loadField_lt hown edge.1
  have hstart := hP.trans (hP.symm (hp.shows.find hd)) hsame
  obtain ⟨φ', ⟨hp', hold⟩, hsame'⟩ := hp.load hA hv hown hc hstart hf
  unfold Glue.glueField
  simp only
  split
  · rename_i previous hm
    split
    · exact ⟨φ', hp', hold⟩
    · have hprev := hload.lt_size (hv.matched hm)
      have hone := hP.trans (hP.symm (hp'.shows.find hprev)) (hp'.matched hm).2
      have hmerged := hp'.shows.merge hP hload.proper.wellFormed (Heap.find_lt_size hprev) hlt
        (hP.trans hone (hP.symm hsame'))
      have hsize := (hload.proper.merge (Heap.find_lt_size hprev) hlt).grows.size
      exact ⟨φ', hp'.evolve hmerged hsize _, hold⟩
  · exact ⟨φ', hp'.record (hA.field hc hf) hsame', hold⟩

theorem Pictured.copyDeferredInputs (hA : Admits P callee touched) (hw : callee.WellFormed)
    (hv : g.Valid) (hp : Pictured P touched n g φ) (d : EntityId) {targets : List EntityId}
    (ht : ∀ t ∈ targets, t < callee.size ∧ touched (callee.find t)) :
    ∃ φ', Redraws P touched n g φ (targets.foldl (Glue.copyDeferredInput callee d) g) φ' :=
  hp.foldl hv fun _ _ t hm ha hr =>
    ⟨ha.valid.copyDeferredInput d t,
      hr.1.copyDeferredInput hA hw ha.valid d (ht t hm).1 (ht t hm).2⟩

theorem Pictured.copyDeferredTaints (hA : Admits P callee touched) (hw : callee.WellFormed)
    (hv : g.Valid) (hp : Pictured P touched n g φ) (r : Rebasing σ) (d : EntityId)
    {edges : List DeferredTaint}
    (ht : ∀ edge ∈ edges, edge.target < callee.size ∧ touched (callee.find edge.target)) :
    ∃ φ', Redraws P touched n g φ (edges.foldl (Glue.copyDeferredTaint callee r d) g) φ' :=
  hp.foldl hv fun _ _ edge hm ha hr =>
    ⟨ha.valid.copyDeferredTaint r d edge,
      hr.1.copyDeferredTaint hA hw ha.valid r d (ht edge hm).1 (ht edge hm).2⟩

theorem Pictured.glueFields (hA : Admits P callee touched) (hv : g.Valid)
    (hp : Pictured P touched n g φ) {c d : EntityId} (hd : d < g.caller.size) (hc : touched c)
    (hsame : P.same (φ d) (.callee c)) {edges : List (FieldName × EntityId)}
    (hf : ∀ edge ∈ edges, callee.field? c edge.1 = some (callee.find edge.2)) :
    ∃ φ', Redraws P touched n g φ (edges.foldl (Glue.glueField callee d) g) φ' :=
  hp.foldl hv fun _ _ edge hm ha hr =>
    ⟨ha.valid.glueField (ha.lt_size hd) edge, hr.1.glueField hA ha.valid (ha.lt_size hd) hc
      ((hr.2 hd).symm ▸ hsame) (hf edge hm)⟩

theorem Pictured.copyInto {g : Glue Unit} (hA : Admits P callee touched)
    (hw : callee.WellFormed) (hv : g.Valid) (hp : Pictured P touched n g φ) (mode : GlueMode)
    {c d : EntityId} (hin : c < callee.size) (hd : d < g.caller.size) (hc : touched c)
    (hsame : P.same (φ d) (.callee c)) :
    ∃ φ', Redraws P touched n g φ
      (g.copyInto callee Rebasing.identity mode (callee.entity c) d) φ' := by
  have hlive := hw.live? hin
  have htarget : ∀ {t}, (callee.entity c).Awaits t → t < callee.size ∧ touched (callee.find t) :=
    fun ha => ⟨hw.targets hlive ha, hA.target hc ha⟩
  have hfield : ∀ edge ∈ (callee.entity c).sortedFields,
      callee.field? c edge.1 = some (callee.find edge.2) := by
    intro edge hm
    have hg := (Table.mem_entries_iff (hw.keys hlive) edge.1 edge.2).mp
      (List.mem_mergeSort.mp hm)
    rw [Heap.field?_eq, hg]
    rfl
  have hmarks := hv.copyMarks callee Rebasing.identity mode (callee.entity c) d
  have hp₁ := hp.copyMarks hA hv mode hd hc hsame
  obtain ⟨hinput, _⟩ := reached_copyDeferredInputs hw hmarks.valid d
    fun t ht => (htarget (.inl (Std.TreeSet.mem_toList.mp ht))).1
  obtain ⟨φ₂, hr₂⟩ := hp₁.copyDeferredInputs hA hw hmarks.valid d
    fun t ht => htarget (.inl (Std.TreeSet.mem_toList.mp ht))
  obtain ⟨hedge, _⟩ := reached_copyDeferredTaints hw hinput.valid Rebasing.identity d
    fun edge he => (htarget (.inr ⟨edge, he, rfl⟩)).1
  obtain ⟨φ₃, hr₃⟩ := hr₂.1.copyDeferredTaints hA hw hinput.valid Rebasing.identity d
    fun edge he => htarget (.inr ⟨edge, he, rfl⟩)
  have hr := Redraws.trans ⟨hp₁, fun _ => rfl⟩ (hr₂.trans hr₃ hinput.grows.size)
    hmarks.grows.size
  have hbefore := (hmarks.trans hinput).trans hedge
  obtain ⟨φ₄, hr₄⟩ := hr.1.glueFields hA hedge.valid (hbefore.lt_size hd) hc
    ((hr.2 hd).symm ▸ hsame) hfield
  exact ⟨φ₄, hr.trans hr₄ hbefore.grows.size⟩

theorem Pictured.copyEntity {g : Glue Unit} (hA : Admits P callee touched)
    (hw : callee.WellFormed) (hv : g.Valid) (hp : Pictured P touched n g φ) (mode : GlueMode)
    {current : List EntityId} (ht : Tracked callee current g) (c : EntityId) :
    ∃ φ', Redraws P touched n g φ (g.copyEntity callee Rebasing.identity mode c) φ' := by
  unfold Glue.copyEntity
  split
  · exact ⟨φ, .refl hp⟩
  · rename_i m hm
    obtain ⟨hc, hsame⟩ := hp.matched hm
    have hlt := hv.matched hm
    exact hp.copyInto hA hw hv mode (ht.keys hm) (Heap.find_lt_size hlt) hc
      (hA.lawful.trans (hA.lawful.symm (hp.shows.find hlt)) hsame)

theorem Pictured.drain {g : Glue Unit} (hA : Admits P callee touched) (hw : callee.WellFormed)
    (hv : g.Valid) (hp : Pictured P touched n g φ) (mode : GlueMode)
    (ht : Tracked callee [] g) :
    ∃ φ', Pictured P touched n (g.drain callee Rebasing.identity mode) φ' := by
  fun_induction Glue.drain callee Rebasing.identity mode g generalizing φ with
  | case1 g hc ih =>
    have hnext : Valid { g with copied := g.copied + 1 } := ⟨hv.proper, hv.matched⟩
    have hp' : Pictured P touched n { g with copied := g.copied + 1 } φ :=
      ⟨hp.bound, hp.old, hp.shows, hp.matched⟩
    have hstep := hnext.copyEntity callee Rebasing.identity mode g.order[g.copied]
    obtain ⟨φ', hr⟩ := hp'.copyEntity hA hw hnext mode (ht.next hc) g.order[g.copied]
    exact ih hstep.valid hr.1 ((ht.next hc).copyEntity hw hnext mode)
  | case2 g hc => exact ⟨φ, hp⟩

/-- Gluing a root that the picture matches with its actual. -/
theorem Pictured.apply {g : Glue Unit} (hA : Admits P callee touched) (hw : callee.WellFormed)
    (hv : g.Valid) (hp : Pictured P touched n g φ) (hf : Finished callee g) (mode : GlueMode)
    {root actual : EntityId} (ha : actual < n) (ht : touched (callee.find root))
    (hsame : P.same (.caller actual) (.callee (callee.find root))) :
    ∃ φ', Pictured P touched n (g.apply callee Rebasing.identity mode root actual).2 φ' := by
  have hP := hA.lawful
  have hact := Nat.lt_of_lt_of_le ha hp.bound
  have hadv := hv.rooted callee root hact
  have hone : P.same (φ (g.caller.find actual)) (.callee (callee.find root)) := by
    have hfind := hp.shows.find hact
    rw [hp.old ha] at hfind
    exact hP.trans (hP.symm hfind) hsame
  have hroot : Pictured P touched n (rooted callee g root actual) φ := by
    unfold rooted
    split
    · rename_i previous hm
      split
      · exact hp
      · have hprev := hv.matched hm
        have hmatch := hP.trans (hP.symm (hp.shows.find hprev)) (hp.matched hm).2
        have hmerge := hv.proper.merge (Heap.find_lt_size hprev) (Heap.find_lt_size hact)
        refine hp.evolve ?_ hmerge.grows.size g.log
        exact hp.shows.merge hP hv.proper.wellFormed (Heap.find_lt_size hprev)
          (Heap.find_lt_size hact) (hP.trans hmatch (hP.symm hone))
    · exact hp.record ht hone
  rw [apply_snd]
  exact hroot.drain hA hw hadv.valid mode (hf.toTracked.advance hadv)

end Glue

end SinkTrace
