import SinkTrace.Proofs.Heap.Closure
import SinkTrace.Proofs.Heap.GluePicture

/-!
Gluing computes the union of the callee's part below the roots and the caller's heap, with the
roots matched and made a congruence: too little merging would lose flow, too much would bring in
aliases that neither heap has.
-/

namespace SinkTrace

namespace Glue

/-- Callee entities that are brought over: the roots, and what their fields and the edges deferred
on them lead to. -/
inductive Touched (callee : Heap) (pairs : List (EntityId × EntityId)) : EntityId → Prop where
  | root {c d : EntityId} (hm : (c, d) ∈ pairs) : Touched callee pairs (callee.find c)
  | field {c w : EntityId} {k : FieldName} (ht : Touched callee pairs c)
    (hf : callee.field? c k = some w) : Touched callee pairs w
  | deferred {c t : EntityId} (ht : Touched callee pairs c)
    (ha : (callee.entity c).Awaits t) : Touched callee pairs (callee.find t)

/-- What takes part in a gluing: the ids that the caller had, and the entities brought over. -/
def Member (callee caller : Heap) (pairs : List (EntityId × EntityId)) : Side → Prop
  | .caller u => u < caller.size
  | .callee c => Touched callee pairs c

/-- The child on the same side. -/
def sideField? (callee caller : Heap) : Side → FieldName → Option Side
  | .caller u, k => (caller.field? u k).map .caller
  | .callee c, k => (callee.field? c k).map .callee

/-- The entity before the gluing. -/
def sideEntity (callee caller : Heap) : Side → Entity
  | .caller u => caller.entity u
  | .callee c => callee.entity c

/-- The least congruence on the members that keeps what was one in the caller and makes each root
and its actual one. -/
inductive Joined (callee caller : Heap) (pairs : List (EntityId × EntityId)) :
    Side → Side → Prop where
  | refl {s : Side} (hs : Member callee caller pairs s) : Joined callee caller pairs s s
  | same {u v : EntityId} (hu : u < caller.size) (hv : v < caller.size)
    (hf : caller.find u = caller.find v) : Joined callee caller pairs (.caller u) (.caller v)
  | pair {c d : EntityId} (hm : (c, d) ∈ pairs) :
    Joined callee caller pairs (.callee (callee.find c)) (.caller d)
  | symm {s t : Side} (hj : Joined callee caller pairs s t) : Joined callee caller pairs t s
  | trans {s t u : Side} (h₁ : Joined callee caller pairs s t)
    (h₂ : Joined callee caller pairs t u) : Joined callee caller pairs s u
  | field {s t s' t' : Side} {k : FieldName} (hj : Joined callee caller pairs s t)
    (hs : sideField? callee caller s k = some s') (ht : sideField? callee caller t k = some t') :
    Joined callee caller pairs s' t'

/-- The entity of the glued caller that a member is part of. -/
def entityOf? {σ : Type} (g : Glue σ) : Side → Option EntityId
  | .caller u => some (g.caller.find u)
  | .callee c => (g.matched.get? c).map g.caller.find

/-- `g` is `caller` with the callee glued on at the pairs, and with nothing else. -/
structure IsGluing (callee caller : Heap) (pairs : List (EntityId × EntityId)) {σ : Type}
    (g : Glue σ) : Prop where
  matched : ∀ s, Member callee caller pairs s → ∃ d, g.entityOf? s = some d
  same : ∀ s t, Member callee caller pairs s → Member callee caller pairs t →
    (g.entityOf? s = g.entityOf? t ↔ Joined callee caller pairs s t)
  field : ∀ s d, Member callee caller pairs s → g.entityOf? s = some d → ∀ k w,
    (g.caller.field? d k = some w ↔ ∃ t t', Joined callee caller pairs s t ∧
      sideField? callee caller t k = some t' ∧ g.entityOf? t' = some w)
  deep : ∀ s d, Member callee caller pairs s → g.entityOf? s = some d →
    ((g.caller.entity d).deep = true ↔ ∃ t d', Member callee caller pairs t ∧
      (sideEntity callee caller t).deep = true ∧ g.entityOf? t = some d' ∧ g.caller.Below d' d)
  taint : ∀ s d, Member callee caller pairs s → g.entityOf? s = some d →
    ∃ m, IsGreatest {n | ∃ t, Joined callee caller pairs s t ∧
        (sideEntity callee caller t).taint = n} m ∧
      g.caller.taint d = if (g.caller.entity d).deep = true then max m TaintId.input else m

/-- Glues the pairs one after another in one context, with everything recorded left as it is. -/
def applyAll (callee : Heap) (mode : GlueMode) (pairs : List (EntityId × EntityId))
    (g : Glue Unit) : Glue Unit :=
  pairs.foldl (fun g pair => (g.apply callee Rebasing.identity mode pair.1 pair.2).2) g

/-- The context has what the callee and the caller had, and the pairs are one in it. -/
structure Holds (callee caller : Heap) (pairs : List (EntityId × EntityId)) {σ : Type}
    (g : Glue σ) : Prop where
  valid : g.Valid
  grows : Heap.Grows caller g.caller
  covered : ∀ {c}, Touched callee pairs c → Covered callee g c
  pairs : ∀ {c d}, (c, d) ∈ pairs →
    g.entityOf? (.callee (callee.find c)) = g.entityOf? (.caller d)

variable {callee caller : Heap} {pairs : List (EntityId × EntityId)} {σ : Type} {g g' : Glue σ}

theorem entityOf?_extend (he : Extends callee g g') {s t : Side}
    (hm : ∃ d, g.entityOf? s = some d) (hst : g.entityOf? s = g.entityOf? t) :
    g'.entityOf? s = g'.entityOf? t := by
  -- both sides are seen through an id that the old context knew
  have hid : ∀ s d, g.entityOf? s = some d → ∃ m, g.caller.find m = d ∧
      g'.entityOf? s = some (g'.caller.find m) := by
    intro s d hs
    cases s with
    | caller u => exact ⟨u, Option.some.inj hs, rfl⟩
    | callee c =>
      obtain ⟨m, hm, rfl⟩ := Option.map_eq_some_iff.mp hs
      exact ⟨m, rfl, by rw [entityOf?, he.matched hm]; rfl⟩
  obtain ⟨d, hd⟩ := hm
  obtain ⟨m, hmd, hms⟩ := hid s d hd
  obtain ⟨m', hmd', hmt⟩ := hid t d (hst ▸ hd)
  rw [hms, hmt, he.grows.same (hmd.trans hmd'.symm)]

/-! Nothing is lost. -/

namespace Holds

theorem member_entity (hh : Holds callee caller pairs g) {s : Side}
    (hs : Member callee caller pairs s) : ∃ d, g.entityOf? s = some d := by
  cases s with
  | caller u => exact ⟨_, rfl⟩
  | callee c =>
    obtain ⟨m, hm, _⟩ := (hh.covered hs).marks
    exact ⟨g.caller.find m, by rw [entityOf?, hm]; rfl⟩

/-- A field of a member leads to the entity of the child. -/
theorem field (hh : Holds callee caller pairs g) {s t : Side} {k : FieldName} {d : EntityId}
    (hs : Member callee caller pairs s) (hd : g.entityOf? s = some d)
    (hf : sideField? callee caller s k = some t) : g.entityOf? t = g.caller.field? d k := by
  cases s with
  | caller u =>
    obtain ⟨w, hw, rfl⟩ := Option.map_eq_some_iff.mp hf
    cases hd
    rw [Heap.field?_congr (Heap.find_find g.caller u), hh.grows.field hw]
    rfl
  | callee c =>
    obtain ⟨w, hw, rfl⟩ := Option.map_eq_some_iff.mp hf
    obtain ⟨m, hm, _, _, hedges⟩ := (hh.covered hs).marks
    rw [entityOf?, hm] at hd
    cases hd
    rw [Heap.field?_eq, Option.map_eq_some_iff] at hw
    obtain ⟨child, hg, rfl⟩ := hw
    obtain ⟨n, hn, hfield⟩ := hedges (Table.mem_of_find hg)
    rw [Heap.field?_congr (Heap.find_find g.caller m), hfield, entityOf?, hn]
    rfl

theorem member_field {s t : Side} {k : FieldName} (hw : caller.WellFormed)
    (hs : Member callee caller pairs s) (hf : sideField? callee caller s k = some t) :
    Member callee caller pairs t := by
  cases s with
  | caller u =>
    obtain ⟨w, hfw, rfl⟩ := Option.map_eq_some_iff.mp hf
    exact hw.field?_lt hfw
  | callee c =>
    obtain ⟨w, hfw, rfl⟩ := Option.map_eq_some_iff.mp hf
    exact .field hs hfw

/-- Only members are joined, and joined members are one entity. -/
theorem joined (hh : Holds callee caller pairs g) (hw : caller.WellFormed)
    (hpairs : ∀ pair ∈ pairs, pair.2 < caller.size) {s t : Side}
    (hj : Joined callee caller pairs s t) :
    (Member callee caller pairs s ∧ Member callee caller pairs t) ∧
      g.entityOf? s = g.entityOf? t := by
  induction hj with
  | refl hs => exact ⟨⟨hs, hs⟩, rfl⟩
  | same hu hv hf => exact ⟨⟨hu, hv⟩, congrArg some (hh.grows.same hf)⟩
  | pair hm => exact ⟨⟨.root hm, hpairs _ hm⟩, hh.pairs hm⟩
  | symm _ ih => exact ⟨ih.1.symm, ih.2.symm⟩
  | trans _ _ ih₁ ih₂ => exact ⟨⟨ih₁.1.1, ih₂.1.2⟩, ih₁.2.trans ih₂.2⟩
  | @field s t s' t' k _ hs ht ih =>
    obtain ⟨⟨hms, hmt⟩, heq⟩ := ih
    obtain ⟨d, hd⟩ := hh.member_entity hms
    refine ⟨⟨member_field hw hms hs, member_field hw hmt ht⟩, ?_⟩
    exact (hh.field hms hd hs).trans (hh.field hmt (heq ▸ hd) ht).symm

/-- The marks of a member do not get lost. -/
theorem marks (hh : Holds callee caller pairs g) {s : Side} {d : EntityId}
    (hs : Member callee caller pairs s) (hd : g.entityOf? s = some d) :
    (sideEntity callee caller s).taint ≤ g.caller.taint d ∧
      ((sideEntity callee caller s).deep = true → (g.caller.entity d).deep = true) := by
  cases s with
  | caller u =>
    cases hd
    have ht := hh.grows.taint u
    rw [Heap.taint, Heap.taint, ← Heap.entity_find g.caller] at ht
    exact ⟨ht, fun hdeep => (Heap.entity_find g.caller u).symm ▸ hh.grows.deep hdeep⟩
  | callee c =>
    obtain ⟨m, hm, ht, hdeep, _⟩ := (hh.covered hs).marks
    rw [entityOf?, hm] at hd
    cases hd
    rw [Heap.taint, Heap.taint, ← Heap.entity_find g.caller] at ht
    exact ⟨ht, fun hd => (Heap.entity_find g.caller m).symm ▸ hdeep hd⟩

end Holds

/-- What is brought over is covered as soon as all that is matched is. -/
theorem covered_of_touched (hf : Finished callee g)
    (hroots : ∀ {c d}, (c, d) ∈ pairs → ∃ m, g.matched.get? (callee.find c) = some m)
    {c : EntityId} (ht : Touched callee pairs c) : Covered callee g c := by
  induction ht with
  | root hm =>
    obtain ⟨m, hm⟩ := hroots hm
    exact hf.covers hm
  | @field c w k _ hfield ih =>
    obtain ⟨m, _, _, _, hedges⟩ := ih.marks
    rw [Heap.field?_eq, Option.map_eq_some_iff] at hfield
    obtain ⟨child, hg, rfl⟩ := hfield
    obtain ⟨n, hn, _⟩ := hedges (Table.mem_of_find hg)
    exact hf.covers hn
  | deferred _ ha ih =>
    obtain ⟨n, hn⟩ := ih.targets ha
    exact hf.covers hn

/-- Gluing one pair after another. -/
theorem finished_applyAll {g : Glue Unit} (hw : callee.WellFormed) (mode : GlueMode)
    (hpairs : ∀ pair ∈ pairs, pair.1 < callee.size ∧ pair.2 < g.caller.size) (hv : g.Valid)
    (hf : Finished callee g) :
    Extends callee g (g.applyAll callee mode pairs) ∧
      Finished callee (g.applyAll callee mode pairs) ∧
      ∀ {c d}, (c, d) ∈ pairs →
        (∃ m, (g.applyAll callee mode pairs).matched.get? (callee.find c) = some m) ∧
        (g.applyAll callee mode pairs).entityOf? (.callee (callee.find c)) =
          (g.applyAll callee mode pairs).entityOf? (.caller d) := by
  induction pairs generalizing g with
  | nil => exact ⟨.refl hv, hf, fun hm => absurd hm List.not_mem_nil⟩
  | cons pair pairs ih =>
    obtain ⟨root, actual⟩ := pair
    obtain ⟨hr, ha⟩ := hpairs _ (List.mem_cons_self ..)
    have hstep := hv.apply callee Rebasing.identity mode root ha
    obtain ⟨hrest, hfin, heach⟩ := ih (fun pair hm =>
      have hlater := hpairs pair (List.mem_cons_of_mem _ hm)
      ⟨hlater.1, hstep.lt_size hlater.2⟩) hstep.valid (hf.apply hw hv mode root ha)
    refine ⟨hstep.trans hrest, hfin, fun {c d} hm => ?_⟩
    rcases List.mem_cons.mp hm with he | hm
    · cases he
      have hroot := hv.rooted callee root ha
      obtain ⟨m, hmr, hsame⟩ := matched_rooted hv hr ha
      have hlater : Extends callee (rooted callee g root actual)
          (g.applyAll callee mode ((root, actual) :: pairs)) := by
        have hdrain := hroot.valid.drain callee Rebasing.identity mode
        rw [← apply_snd] at hdrain
        exact hdrain.trans hrest
      refine ⟨⟨m, hlater.matched hmr⟩, ?_⟩
      have hone : (rooted callee g root actual).entityOf? (.callee (callee.find root)) =
          (rooted callee g root actual).entityOf? (.caller actual) := by
        simp only [entityOf?, hmr, Option.map_some, hsame]
      exact entityOf?_extend hlater ⟨_, by rw [entityOf?, hmr]; rfl⟩ hone
    · exact heach hm

/-! Nothing is added. -/

/-- What a gluing may show. -/
def gluePicture (callee caller : Heap) (pairs : List (EntityId × EntityId)) (g : Glue σ) :
    Picture Side where
  same := Joined callee caller pairs
  leads s k t := ∃ s' t', Joined callee caller pairs s s' ∧
    sideField? callee caller s' k = some t' ∧ Joined callee caller pairs t' t
  deep s := ∃ t d d', Member callee caller pairs t ∧ (sideEntity callee caller t).deep = true ∧
    g.entityOf? t = some d' ∧ g.entityOf? s = some d ∧ g.caller.Below d' d
  taint s n := n = TaintId.clean ∨
    (∃ t, Joined callee caller pairs s t ∧ (sideEntity callee caller t).taint = n) ∨
    (∃ t d d', Member callee caller pairs t ∧ (sideEntity callee caller t).deep = true ∧
      g.entityOf? t = some d' ∧ g.entityOf? s = some d ∧ g.caller.Below d' d) ∧ n = TaintId.input

theorem lawful_gluePicture (hh : Holds callee caller pairs g) (hw : caller.WellFormed)
    (hpairs : ∀ pair ∈ pairs, pair.2 < caller.size) :
    (gluePicture callee caller pairs g).Lawful where
  symm hj := .symm hj
  trans h₁ h₂ := .trans h₁ h₂
  leads_same := by
    rintro s s' k t t' hs ⟨v, c, hv, hf, hc⟩ ht
    exact ⟨v, c, .trans (.symm hs) hv, hf, .trans hc ht⟩
  congruent := by
    rintro s s' k t t' hs ⟨v, c, hv, hf, hc⟩ ⟨v', c', hv', hf', hc'⟩
    have hvv := Joined.trans (.symm hv) (.trans hs hv')
    exact .trans (.symm hc) (.trans (.field hvv hf hf') hc')
  deep_same := by
    rintro s t hs ⟨v, d, d', hv, hd, hv', hs', hb⟩
    exact ⟨v, d, d', hv, hd, hv', (hh.joined hw hpairs hs).2 ▸ hs', hb⟩
  deep_leads := by
    rintro s k t ⟨v, d, d', hv, hd, hv', hs', hb⟩ ⟨s', c, hss, hf, hct⟩
    obtain ⟨⟨_, hms⟩, heq⟩ := hh.joined hw hpairs hss
    obtain ⟨⟨hmc, _⟩, heqc⟩ := hh.joined hw hpairs hct
    obtain ⟨e, he⟩ := hh.member_entity hmc
    have hstep := hh.field hms (heq ▸ hs') hf
    exact ⟨v, e, d', hv, hd, hv', heqc ▸ he, hb.tail ⟨k, hstep.symm.trans he⟩⟩
  taint_same := by
    rintro s t n hs (hn | ⟨v, hv, hn⟩ | ⟨⟨v, d, d', hv, hd, hv', hs', hb⟩, hn⟩)
    · exact .inl hn
    · exact .inr (.inl ⟨v, .trans (.symm hs) hv, hn⟩)
    · exact .inr (.inr ⟨⟨v, d, d', hv, hd, hv', (hh.joined hw hpairs hs).2 ▸ hs', hb⟩, hn⟩)
  taint_input hd := .inr (.inr ⟨hd, rfl⟩)

theorem admits_gluePicture (hh : Holds callee caller pairs g) (hw : caller.WellFormed)
    (hpairs : ∀ pair ∈ pairs, pair.2 < caller.size) :
    Admits (gluePicture callee caller pairs g) callee (Touched callee pairs) where
  lawful := lawful_gluePicture hh hw hpairs
  refl hc := .refl hc
  leads := fun {c k w} hc hf =>
    ⟨.callee c, .callee w, .refl hc, by simp only [sideField?, hf, Option.map_some],
      .refl (.field hc hf)⟩
  deep := fun {c} hc hd => by
    have hm : Member callee caller pairs (.callee c) := hc
    obtain ⟨d, he⟩ := hh.member_entity hm
    exact ⟨.callee c, d, d, hc, hd, he, he, .refl⟩
  taint := fun {c} hc => .inr (.inl ⟨.callee c, .refl hc, rfl⟩)
  clean _ := .inl rfl
  field hc hf := .field hc hf
  target hc ha := .deferred hc ha

/-- The caller before the gluing, every id standing for itself. -/
theorem shows_gluePicture (g : Glue σ) (hw : caller.WellFormed) :
    caller.Shows (gluePicture callee caller pairs g) .caller where
  same hu hv hf := .same hu hv hf
  field {u k w} hf := ⟨.caller u, .caller w, .refl (Heap.lt_size_of_field? hf),
    by simp only [sideField?, hf, Option.map_some], .refl (hw.field?_lt hf)⟩
  deep {u} hd := by
    have hu : Member callee caller pairs (.caller u) := Heap.lt_size_of_deep hd
    exact ⟨.caller u, _, _, hu, hd, rfl, rfl, .refl⟩
  taint {u} hu := .inr (.inl ⟨.caller u, .refl hu, rfl⟩)

theorem pictured_applyAll {P : Picture Side} {touched : EntityId → Prop} {n : Nat}
    {g : Glue Unit} {φ : EntityId → Side} (hA : Admits P callee touched)
    (hw : callee.WellFormed) (mode : GlueMode)
    (hpairs : ∀ pair ∈ pairs, pair.2 < n ∧ touched (callee.find pair.1) ∧
      P.same (.caller pair.2) (.callee (callee.find pair.1)))
    (hv : g.Valid) (hf : Finished callee g) (hp : Pictured P touched n g φ) :
    ∃ φ', Pictured P touched n (g.applyAll callee mode pairs) φ' := by
  induction pairs generalizing g φ with
  | nil => exact ⟨φ, hp⟩
  | cons pair pairs ih =>
    obtain ⟨ha, ht, hsame⟩ := hpairs pair (List.mem_cons_self ..)
    have hact := Nat.lt_of_lt_of_le ha hp.bound
    have hstep := hv.apply callee Rebasing.identity mode pair.1 hact
    obtain ⟨φ', hp'⟩ := hp.apply hA hw hv hf mode ha ht hsame
    exact ih (fun later hm => hpairs later (List.mem_cons_of_mem _ hm)) hstep.valid
      (hf.apply hw hv mode pair.1 hact) hp'

/-- In a picture of the glued caller every member is seen at an id that stands for it. -/
theorem seen_at {P : Picture Side} (hh : Holds callee caller pairs g)
    {φ : EntityId → Side} {touched : EntityId → Prop}
    (hp : Pictured P touched caller.size g φ) {s : Side} {d : EntityId}
    (hs : Member callee caller pairs s) (hd : g.entityOf? s = some d) :
    ∃ u, u < g.caller.size ∧ g.caller.find u = d ∧ P.same (φ u) s := by
  cases s with
  | caller u =>
    have hu := Nat.lt_of_lt_of_le hs hp.bound
    exact ⟨u, hu, Option.some.inj hd, hp.old hs ▸ hp.shows.refl hu⟩
  | callee c =>
    obtain ⟨m, hm, rfl⟩ := Option.map_eq_some_iff.mp hd
    exact ⟨m, hh.valid.matched hm, rfl, (hp.matched hm).2⟩

section Shown

variable {φ : EntityId → Side} (hh : Holds callee caller pairs g) (hw : caller.WellFormed)
  (hpairs : ∀ pair ∈ pairs, pair.2 < caller.size)
  (hp : Pictured (gluePicture callee caller pairs g) (Touched callee pairs) caller.size g φ)

include hh hw hpairs hp

theorem same_iff_joined {s t : Side} (hs : Member callee caller pairs s)
    (ht : Member callee caller pairs t) :
    g.entityOf? s = g.entityOf? t ↔ Joined callee caller pairs s t := by
  constructor
  · intro heq
    obtain ⟨d, hd⟩ := hh.member_entity hs
    obtain ⟨u, hu, hud, hus⟩ := seen_at hh hp hs hd
    obtain ⟨v, hv, hvd, hvt⟩ := seen_at hh hp ht (heq ▸ hd)
    exact .trans (.symm hus) (.trans (hp.shows.same hu hv (hud.trans hvd.symm)) hvt)
  · exact fun hj => (hh.joined hw hpairs hj).2

theorem field_iff_member {s : Side} {d : EntityId} (hs : Member callee caller pairs s)
    (hd : g.entityOf? s = some d) (k : FieldName) (w : EntityId) :
    g.caller.field? d k = some w ↔ ∃ t t', Joined callee caller pairs s t ∧
      sideField? callee caller t k = some t' ∧ g.entityOf? t' = some w := by
  constructor
  · intro hf
    obtain ⟨u, hu, rfl, hus⟩ := seen_at hh hp hs hd
    rw [Heap.field?_congr (Heap.find_find g.caller u)] at hf
    obtain ⟨t, t', hut, hft, _⟩ := hp.shows.field hf
    have hst : Joined callee caller pairs s t := .trans (.symm hus) hut
    obtain ⟨⟨_, hmt⟩, heq⟩ := hh.joined hw hpairs hst
    refine ⟨t, t', hst, hft, ?_⟩
    rw [hh.field hmt (heq ▸ hd) hft, Heap.field?_congr (Heap.find_find g.caller u), hf]
  · rintro ⟨t, t', hst, hft, hw'⟩
    obtain ⟨⟨_, hmt⟩, heq⟩ := hh.joined hw hpairs hst
    rw [← hh.field hmt (heq ▸ hd) hft, hw']

theorem deep_iff_below {s : Side} {d : EntityId} (hs : Member callee caller pairs s)
    (hd : g.entityOf? s = some d) :
    (g.caller.entity d).deep = true ↔ ∃ t d', Member callee caller pairs t ∧
      (sideEntity callee caller t).deep = true ∧ g.entityOf? t = some d' ∧
        g.caller.Below d' d := by
  constructor
  · intro hdd
    obtain ⟨u, hu, rfl, hus⟩ := seen_at hh hp hs hd
    rw [Heap.entity_find] at hdd
    obtain ⟨t, e, d', ht, htd, hte, hse, hb⟩ :=
      (lawful_gluePicture hh hw hpairs).deep_same hus (hp.shows.deep hdd)
    rw [hd] at hse
    cases hse
    exact ⟨t, d', ht, htd, hte, hb⟩
  · rintro ⟨t, d', ht, htd, hte, hb⟩
    exact hh.valid.proper.deep_below hb ((hh.marks ht hte).2 htd)

theorem taint_eq_greatest {s : Side} {d : EntityId} (hs : Member callee caller pairs s)
    (hd : g.entityOf? s = some d) :
    ∃ m, IsGreatest {n | ∃ t, Joined callee caller pairs s t ∧
        (sideEntity callee caller t).taint = n} m ∧
      g.caller.taint d = if (g.caller.entity d).deep = true then max m TaintId.input else m := by
  have hle : ∀ m ∈ {n | ∃ t, Joined callee caller pairs s t ∧
      (sideEntity callee caller t).taint = n}, m ≤ g.caller.taint d := by
    rintro m ⟨t, hst, rfl⟩
    obtain ⟨⟨_, hmt⟩, heq⟩ := hh.joined hw hpairs hst
    exact (hh.marks hmt (heq ▸ hd)).1
  refine exists_greatest_raised ⟨_, s, .refl hs, rfl⟩ hle ?_
    fun hdd => hh.valid.proper.closed.taint hdd
  obtain ⟨u, hu, rfl, hus⟩ := seen_at hh hp hs hd
  have ht := (lawful_gluePicture hh hw hpairs).taint_same hus (hp.shows.taint hu)
  have hrep : g.caller.taint (g.caller.find u) = g.caller.taint u := by
    rw [Heap.taint, Heap.taint, Heap.entity_find]
  rw [hrep] at hle ⊢
  rcases ht with hclean | hmember | ⟨⟨t, e, d', ht, htd, hte, hse, hb⟩, hin⟩
  · -- a clean entity has clean members only
    have hz := hle _ ⟨s, .refl hs, rfl⟩
    rw [hclean] at hz ⊢
    exact .inl ⟨s, .refl hs, Nat.le_zero.mp hz⟩
  · exact .inl hmember
  · rw [hd] at hse
    cases hse
    exact .inr ⟨(deep_iff_below hh hw hpairs hp hs hd).mpr ⟨t, d', ht, htd, hte, hb⟩, hin⟩

end Shown

theorem isGluing_applyAll (hcallee : callee.Proper) (hcaller : caller.Proper)
    (mode : GlueMode) (hpairs : ∀ pair ∈ pairs, pair.1 < callee.size ∧ pair.2 < caller.size) :
    IsGluing callee caller pairs (applyAll callee mode pairs { caller, log := () }) := by
  have hw := hcallee.wellFormed
  have hw' := hcaller.wellFormed
  have hnone : ∀ {c d}, (∅ : IdMap EntityId).get? c ≠ some d := by
    intro c d hm
    cases Std.TreeMap.getElem?_emptyc.symm.trans hm
  have hv : Valid ({ caller, log := () } : Glue Unit) :=
    ⟨hcaller, fun hm => absurd hm hnone⟩
  have hf : Finished callee ({ caller, log := () } : Glue Unit) :=
    ⟨⟨Nat.le_refl _, fun hm => absurd hm hnone, fun hm => absurd hm hnone⟩, Nat.le_refl _⟩
  obtain ⟨hext, hfin, heach⟩ := finished_applyAll hw mode hpairs hv hf
  have hh : Holds callee caller pairs (applyAll callee mode pairs { caller, log := () }) :=
    ⟨hext.valid, hext.grows, covered_of_touched hfin fun hm => (heach hm).1,
      fun hm => (heach hm).2⟩
  have hactual : ∀ pair ∈ pairs, pair.2 < caller.size := fun pair hm => (hpairs pair hm).2
  have hstart : Pictured (gluePicture callee caller pairs
      (applyAll callee mode pairs { caller, log := () })) (Touched callee pairs) caller.size
      ({ caller, log := () } : Glue Unit) .caller :=
    ⟨Nat.le_refl _, fun _ => rfl, shows_gluePicture _ hw',
      fun hm => absurd hm hnone⟩
  obtain ⟨φ, hp⟩ := pictured_applyAll (admits_gluePicture hh hw' hactual) hw mode
    (fun pair hm => ⟨hactual pair hm, .root hm, .symm (.pair hm)⟩) hv hf hstart
  exact ⟨fun s hs => hh.member_entity hs,
    fun s t hs ht => same_iff_joined hh hw' hactual hp hs ht,
    fun s d hs hd k w => field_iff_member hh hw' hactual hp hs hd k w,
    fun s d hs hd => deep_iff_below hh hw' hactual hp hs hd,
    fun s d hs hd => taint_eq_greatest hh hw' hactual hp hs hd⟩

/-- Gluing a callee onto a caller at any number of pairs computes exactly the glued heap. -/
theorem applyAll_isGluing (hcallee : callee.Reachable) (hcaller : caller.Reachable)
    (mode : GlueMode) (hpairs : ∀ pair ∈ pairs, pair.1 < callee.size ∧ pair.2 < caller.size) :
    IsGluing callee caller pairs (applyAll callee mode pairs { caller, log := () }) :=
  isGluing_applyAll hcallee.proper hcaller.proper mode hpairs

/-- Two separate entities of the caller become one with the loop of the callee. -/
theorem knot_isGluing : Heap.knot.Reachable ∧ Heap.forked.Reachable ∧
    IsGluing Heap.knot Heap.forked [(1, 0), (0, 1)]
      (applyAll Heap.knot .merge [(1, 0), (0, 1)] { caller := Heap.forked, log := () }) := by
  obtain ⟨hk, hks⟩ := Heap.reachable_knot
  obtain ⟨hf, hfs⟩ := Heap.reachable_forked
  refine ⟨hk, hf, applyAll_isGluing hk hf .merge fun pair hm => ?_⟩
  rcases List.mem_cons.mp hm with rfl | hm
  · exact ⟨hks, Nat.lt_of_le_of_lt (Nat.zero_le 1) hfs⟩
  · cases List.mem_singleton.mp hm
    exact ⟨Nat.lt_of_le_of_lt (Nat.zero_le 1) hks, hfs⟩

end Glue

end SinkTrace
