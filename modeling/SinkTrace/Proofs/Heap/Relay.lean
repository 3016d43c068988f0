import SinkTrace.Proofs.Heap.Echoes

/-!
Gluing by way of a heap of blanks. A callee is glued onto fresh entities, one for each place where
it has a root, and what comes of that is glued onto the caller. The callee is not changed on the
way: its entities stay apart from each other, and keep their fields and marks.
-/

namespace SinkTrace

namespace Heap

/-- Every id stands for itself, and has neither fields nor marks. -/
def Blank (h : Heap) : Prop := ∀ u, h.find u = u ∧ (h.entity u).seen = ({}, false, TaintId.clean)

variable {h : Heap}

theorem blank_empty : Blank {} := by
  intro u
  have hfind : find {} u = u := find_of_size_le (Nat.zero_le u)
  exact ⟨hfind, by rw [entity_eq, hfind]; rfl⟩

theorem Blank.create (hb : h.Blank) (origin : Option Origin) : (h.create origin).2.Blank := by
  intro u
  refine ⟨(find_create h origin u).trans (hb u).1, ?_⟩
  rw [entity_eq, find_create, live?_create]
  split
  · rfl
  · rw [← entity_eq]
    exact (hb u).2

end Heap

namespace Glue

/-- Gluing is a run of the caller's heap. -/
theorem reachable_applyAll (callee : Heap) (mode : GlueMode) {caller : Heap}
    {pairs : List (EntityId × EntityId)} (hr : caller.Reachable)
    (hpairs : ∀ pair ∈ pairs, pair.2 < caller.size) :
    (applyAll callee mode pairs { caller, log := () }).caller.Reachable ∧
      caller.size ≤ (applyAll callee mode pairs { caller, log := () }).caller.size := by
  have hall : ∀ (rest : List (EntityId × EntityId)) (g : Glue Unit), g.Valid →
      g.caller.Reachable → (∀ pair ∈ rest, pair.2 < g.caller.size) →
      (g.applyAll callee mode rest).caller.Reachable ∧
        g.caller.size ≤ (g.applyAll callee mode rest).caller.size := by
    intro rest
    induction rest with
    | nil => exact fun _ _ hg _ => ⟨hg, Nat.le_refl _⟩
    | cons pair rest ih =>
      intro g hv hg hlt
      have ha := hlt pair (List.mem_cons_self ..)
      have hstep := hv.apply callee Rebasing.identity mode pair.1 ha
      have hnext := hg.step (.glue callee Rebasing.identity mode g hv.matched pair.1 ha)
      obtain ⟨hend, hsize⟩ := ih _ hstep.valid hnext fun later hm =>
        hstep.lt_size (hlt later (List.mem_cons_of_mem _ hm))
      exact ⟨hend, Nat.le_trans hstep.grows.size hsize⟩
  have hnone : ∀ {c d}, (∅ : IdMap EntityId).get? c ≠ some d := by
    intro c d hm
    cases Std.TreeMap.getElem?_emptyc.symm.trans hm
  exact hall pairs _ ⟨hr.proper, fun hm => absurd hm hnone⟩ hr hpairs

/-- The callee is glued onto blanks at the inner pairs, the blanks onto the caller at the outer
ones; the direct pairs leave out the blanks. -/
structure Relay {P : Type} (callee blank caller : Heap) (root formal actual : P → Option EntityId)
    (inner outer direct : List (EntityId × EntityId)) {σ : Type} (g : Glue σ) : Prop where
  proper : callee.Proper
  bare : blank.Blank
  gluing : IsGluing callee blank inner g
  fits : ∀ {p c}, root p = some c → ∃ f, formal p = some f
  apart : ∀ {p q f}, formal p = some f → formal q = some f → p = q
  formal_lt : ∀ {p f}, formal p = some f → f < blank.size
  actual_lt : ∀ {p d}, actual p = some d → d < caller.size
  mem_inner : ∀ {c f}, (c, f) ∈ inner ↔ ∃ p, root p = some c ∧ formal p = some f
  mem_outer : ∀ {e d}, (e, d) ∈ outer ↔
    ∃ p f, formal p = some f ∧ g.caller.find f = e ∧ actual p = some d
  mem_direct : ∀ {c d}, (c, d) ∈ direct ↔ ∃ p, root p = some c ∧ actual p = some d

/-- What a member of the inner gluing is hooked to: callee entities to themselves, and blanks to
the root at their place, if there is one. -/
inductive Hooked {P : Type} (callee : Heap) (root formal : P → Option EntityId) :
    Side → Side → Prop where
  | callee (c : EntityId) : Hooked callee root formal (.callee c) (.callee c)
  | matched {p : P} {c f : EntityId} (hc : root p = some c) (hf : formal p = some f) :
    Hooked callee root formal (.caller f) (.callee (callee.find c))
  | free {f : EntityId} (hn : ∀ p, formal p = some f → root p = none) :
    Hooked callee root formal (.caller f) (.caller f)

/-- The callee entity and what it has become on the blanks; the caller's ids stay. -/
inductive Relayed (callee : Heap) (inner : List (EntityId × EntityId)) {σ : Type} (g : Glue σ) :
    Side → Side → Prop where
  | old (u : EntityId) : Relayed callee inner g (.caller u) (.caller u)
  | callee {c e : EntityId} (ht : Touched callee inner c) (he : g.entityOf? (.callee c) = some e) :
    Relayed callee inner g (.callee c) (.callee e)

/-- The way back. A blank where the callee has no root leads to the entity at its place. -/
inductive Traced {P : Type} (callee : Heap) (root formal actual : P → Option EntityId)
    (inner : List (EntityId × EntityId)) {σ : Type} (g : Glue σ) : Side → Side → Prop where
  | back {s s' : Side} (hr : Relayed callee inner g s s') :
    Traced callee root formal actual inner g s' s
  | free {p : P} {f d : EntityId} (hf : formal p = some f) (hn : root p = none)
    (hd : actual p = some d) :
    Traced callee root formal actual inner g (.callee (g.caller.find f)) (.caller d)

variable {P : Type} {callee blank caller : Heap} {root formal actual : P → Option EntityId}
  {inner outer direct : List (EntityId × EntityId)} {σ : Type} {g : Glue σ} {s t a : Side}
  {c c' d e f w : EntityId} {k : FieldName} {p : P}

namespace Relay

variable (hr : Relay callee blank caller root formal actual inner outer direct g)

include hr

theorem hooked_unique {b : Side} (ha : Hooked callee root formal s a)
    (hb : Hooked callee root formal s b) : a = b := by
  cases ha with
  | callee c =>
    cases hb
    rfl
  | matched hc hf =>
    cases hb with
    | matched hc' hf' =>
      cases hr.apart hf hf'
      cases hc.symm.trans hc'
      rfl
    | free hn => cases hc.symm.trans (hn _ hf)
  | free hn =>
    cases hb with
    | matched hc hf => cases hc.symm.trans (hn _ hf)
    | free => rfl

theorem field_blank (u : EntityId) (k : FieldName) : blank.field? u k = none := by
  have hfields : (blank.entity u).fields = {} := congrArg Prod.fst (hr.bare u).2
  rw [Heap.field?_eq, hfields]
  rfl

/-- Members that become one are hooked to the same. -/
theorem hooked_iff (hj : Joined callee blank inner s t) :
    Hooked callee root formal s a ↔ Hooked callee root formal t a := by
  induction hj generalizing a with
  | refl _ => exact Iff.rfl
  | @same u v _ _ hf =>
    rw [(hr.bare u).1, (hr.bare v).1] at hf
    rw [hf]
  | pair hm =>
    obtain ⟨p, hc, hf⟩ := hr.mem_inner.mp hm
    constructor
    · intro h
      cases h
      exact .matched hc hf
    · intro h
      cases hr.hooked_unique h (.matched hc hf)
      exact .callee _
  | symm _ ih => exact ih.symm
  | trans _ _ ih₁ ih₂ => exact ih₁.trans ih₂
  | @field s t s' t' k _ hs ht ih =>
    -- blanks have no fields, so both are the same callee entity
    cases s with
    | caller u => simp [sideField?, hr.field_blank] at hs
    | callee c =>
      cases t with
      | caller u => simp [sideField?, hr.field_blank] at ht
      | callee c' =>
        cases ih.mp (.callee c)
        cases hs.symm.trans ht
        exact Iff.rfl

theorem hooked_of_entity (hs : Member callee blank inner s) (ht : Member callee blank inner t)
    (heq : g.entityOf? s = g.entityOf? t) (ha : Hooked callee root formal s a) :
    Hooked callee root formal t a :=
  (hr.hooked_iff ((hr.gluing.same s t hs ht).mp heq)).mp ha

/-- Different callee entities stay apart. -/
theorem callee_inj (hc : Touched callee inner c) (hc' : Touched callee inner c')
    (heq : g.entityOf? (.callee c) = g.entityOf? (.callee c')) : c = c' := by
  have hm : Member callee blank inner (.callee c) := hc
  have hm' : Member callee blank inner (.callee c') := hc'
  cases hr.hooked_of_entity hm hm' heq (.callee c)
  rfl

theorem free_of_formal (hf : formal p = some f) (hn : root p = none) :
    Hooked callee root formal (.caller f) (.caller f) :=
  .free fun _ hq => hr.apart hf hq ▸ hn

/-- A free blank is no callee entity. -/
theorem callee_ne_free (hc : Touched callee inner c) (hf : formal p = some f)
    (hn : root p = none) : g.entityOf? (.callee c) ≠ some (g.caller.find f) := by
  intro heq
  have hm : Member callee blank inner (.callee c) := hc
  have hm' : Member callee blank inner (.caller f) := hr.formal_lt hf
  cases hr.hooked_of_entity hm' hm heq.symm (hr.free_of_formal hf hn)

theorem free_inj {q : P} {f' : EntityId} (hf : formal p = some f) (hn : root p = none)
    (hf' : formal q = some f') (hn' : root q = none)
    (heq : g.caller.find f = g.caller.find f') : p = q := by
  have hmem : ∀ {q f}, formal q = some f → Member callee blank inner (.caller f) :=
    fun h => hr.formal_lt h
  have hfree := hr.free_of_formal hf' hn'
  have hhook := hr.hooked_of_entity (hmem hf) (hmem hf') (congrArg some heq)
    (hr.free_of_formal hf hn)
  cases hr.hooked_unique hfree hhook
  exact hr.apart hf hf'

/-! A callee entity keeps its fields and marks. -/

theorem field_iff (hc : Touched callee inner c) (he : g.entityOf? (.callee c) = some e) :
    g.caller.field? e k = some w ↔
      ∃ c', callee.field? c k = some c' ∧ g.entityOf? (.callee c') = some w := by
  rw [hr.gluing.field (.callee c) e hc he]
  constructor
  · rintro ⟨t, t', hj, hf, hw⟩
    cases t with
    | caller u => simp [sideField?, hr.field_blank] at hf
    | callee c' =>
      cases (hr.hooked_iff hj).mp (.callee c)
      obtain ⟨x, hx, rfl⟩ := Option.map_eq_some_iff.mp hf
      exact ⟨x, hx, hw⟩
  · rintro ⟨c', hf, hw⟩
    exact ⟨.callee c, .callee c', .refl hc, by rw [sideField?, hf, Option.map_some], hw⟩

theorem below (hc : Touched callee inner c) (he : g.entityOf? (.callee c) = some e)
    (hb : g.caller.Below e w) :
    ∃ c', Touched callee inner c' ∧ callee.Below c c' ∧ g.entityOf? (.callee c') = some w := by
  induction hb with
  | refl => exact ⟨c, hc, .refl, he⟩
  | tail _ hstep ih =>
    obtain ⟨k, hk⟩ := hstep
    obtain ⟨c', ht, hb, hm⟩ := ih
    obtain ⟨x, hx, hw⟩ := (hr.field_iff ht hm).mp hk
    exact ⟨x, .field ht hx, hb.tail ⟨k, hx⟩, hw⟩

/-- Whatever is deep input comes from the callee. -/
theorem deep_source (hs : Member callee blank inner s) (he : g.entityOf? s = some e)
    (hd : (g.caller.entity e).deep = true) : ∃ c, Touched callee inner c ∧
      (callee.entity c).deep = true ∧ g.entityOf? (.callee c) = some e := by
  obtain ⟨t, d', hm, htd, htd', hb⟩ := (hr.gluing.deep s e hs he).mp hd
  cases t with
  | caller u =>
    have hblank : (blank.entity u).deep = false := congrArg (·.2.1) (hr.bare u).2
    rw [sideEntity, hblank] at htd
    cases htd
  | callee c =>
    obtain ⟨c', hc', hbelow, hm'⟩ := hr.below hm htd' hb
    exact ⟨c', hc', hr.proper.deep_below hbelow htd, hm'⟩

theorem deep_iff (hc : Touched callee inner c) (he : g.entityOf? (.callee c) = some e) :
    (g.caller.entity e).deep = true ↔ (callee.entity c).deep = true := by
  constructor
  · intro hd
    have hm : Member callee blank inner (.callee c) := hc
    obtain ⟨c', hc', hdeep, he'⟩ := hr.deep_source hm he hd
    exact hr.callee_inj hc hc' (he.trans he'.symm) ▸ hdeep
  · intro hd
    exact (hr.gluing.deep (.callee c) e hc he).mpr ⟨.callee c, e, hc, hd, he, .refl⟩

theorem taint_eq (hc : Touched callee inner c) (he : g.entityOf? (.callee c) = some e) :
    g.caller.taint e = callee.taint c := by
  obtain ⟨n, ⟨⟨t, hj, ht⟩, hgreatest⟩, hn⟩ := hr.gluing.taint (.callee c) e hc he
  have hle : callee.taint c ≤ n := hgreatest ⟨.callee c, .refl hc, rfl⟩
  have hn' : n = callee.taint c := by
    refine Nat.le_antisymm ?_ hle
    cases t with
    | caller u =>
      have hclean : (blank.entity u).taint = 0 := congrArg (·.2.2) (hr.bare u).2
      rw [← ht, sideEntity, hclean]
      exact Nat.zero_le _
    | callee c' =>
      cases (hr.hooked_iff hj).mp (.callee c)
      exact Nat.le_of_eq ht.symm
  rw [hn, hn']
  split
  · rename_i hd
    have hin := hr.proper.closed.taint ((hr.deep_iff hc he).mp hd)
    exact Nat.max_eq_left hin
  · rfl

/-! A free blank stays as it is. -/

theorem free_field (hf : formal p = some f) (hn : root p = none) :
    g.caller.field? (g.caller.find f) k = none := by
  have hm : Member callee blank inner (.caller f) := hr.formal_lt hf
  rw [Option.eq_none_iff_forall_ne_some]
  intro w hw
  obtain ⟨t, t', hj, hft, _⟩ := (hr.gluing.field (.caller f) _ hm rfl k w).mp hw
  cases t with
  | caller u => simp [sideField?, hr.field_blank] at hft
  | callee c => cases (hr.hooked_iff hj).mp (hr.free_of_formal hf hn)

theorem free_deep (hf : formal p = some f) (hn : root p = none) :
    (g.caller.entity (g.caller.find f)).deep = false := by
  rw [Bool.eq_false_iff]
  intro hd
  have hm : Member callee blank inner (.caller f) := hr.formal_lt hf
  obtain ⟨c, hc, _, he⟩ := hr.deep_source hm rfl hd
  exact hr.callee_ne_free hc hf hn he

theorem free_taint (hf : formal p = some f) (hn : root p = none) :
    g.caller.taint (g.caller.find f) = TaintId.clean := by
  obtain ⟨n, ⟨⟨t, hj, ht⟩, _⟩, hn'⟩ := hr.gluing.taint (.caller f) _ (hr.formal_lt hf) rfl
  rw [hn', hr.free_deep hf hn]
  cases t with
  | caller u => exact ht.symm.trans (congrArg (·.2.2) (hr.bare u).2)
  | callee c => cases (hr.hooked_iff hj).mp (hr.free_of_formal hf hn)

/-! Both ways to the caller have the same. -/

theorem entityOf?_root {p : P} {r : EntityId} (hc : root p = some r) (hf : formal p = some f) :
    Touched callee inner (callee.find r) ∧
      g.entityOf? (.callee (callee.find r)) = some (g.caller.find f) := by
  have hm := hr.mem_inner.mpr ⟨p, hc, hf⟩
  have hroot : Member callee blank inner (.callee (callee.find r)) := .root hm
  exact ⟨.root hm, (hr.gluing.same _ (.caller f) hroot (hr.formal_lt hf)).mpr (.pair hm)⟩

theorem relayed_root {p : P} {r : EntityId} (hc : root p = some r) (hf : formal p = some f) :
    Relayed callee inner g (.callee (callee.find r)) (.callee (g.caller.find f)) :=
  .callee (hr.entityOf?_root hc hf).1 (hr.entityOf?_root hc hf).2

theorem echoes_relayed :
    Echoes callee g.caller caller direct outer (Relayed callee inner g) where
  old := .old
  unique h₁ h₂ := by
    cases h₁ with
    | old u =>
      cases h₂
      rfl
    | callee _ he =>
      cases h₂ with
      | callee _ he' =>
        cases he.symm.trans he'
        rfl
  pair hm := by
    obtain ⟨p, hc, hd⟩ := hr.mem_direct.mp hm
    obtain ⟨f, hf⟩ := hr.fits hc
    refine ⟨_, hr.relayed_root hc hf, ?_⟩
    have hj := @Joined.pair g.caller caller outer _ _ (hr.mem_outer.mpr ⟨p, f, hf, rfl, hd⟩)
    rwa [Heap.find_find] at hj
  field h hf := by
    cases h with
    | old u =>
      obtain ⟨w, hw, rfl⟩ := Option.map_eq_some_iff.mp hf
      exact ⟨.caller w, .old w, hf⟩
    | callee ht he =>
      obtain ⟨x, hx, rfl⟩ := Option.map_eq_some_iff.mp hf
      have htx : Touched callee inner x := .field ht hx
      obtain ⟨w, hw⟩ := hr.gluing.matched (.callee x) htx
      refine ⟨.callee w, .callee htx hw, ?_⟩
      rw [sideField?, (hr.field_iff ht he).mpr ⟨x, hx, hw⟩, Option.map_some]
  deep h hd := by
    cases h with
    | old u => exact hd
    | callee ht he => exact (hr.deep_iff ht he).mpr hd
  taint h := by
    cases h with
    | old u => exact Nat.le_refl _
    | callee ht he => exact Nat.le_of_eq (hr.taint_eq ht he).symm

theorem traced_unique {s' s'' : Side} (h₁ : Traced callee root formal actual inner g s s')
    (h₂ : Traced callee root formal actual inner g s s'') : s' = s'' := by
  cases h₁ with
  | back h₁ =>
    cases h₁ with
    | old u =>
      cases h₂ with
      | back h₂ =>
        cases h₂
        rfl
    | callee ht he =>
      cases h₂ with
      | back h₂ =>
        cases h₂ with
        | callee ht' he' => rw [hr.callee_inj ht ht' (he.trans he'.symm)]
      | free hf hn _ => exact absurd he (hr.callee_ne_free ht hf hn)
  | free hf hn hd =>
    generalize hs : Side.callee (g.caller.find _) = s at h₂
    cases h₂ with
    | back h₂ =>
      cases h₂ with
      | old u => cases hs
      | callee ht he =>
        cases hs
        exact absurd he (hr.callee_ne_free ht hf hn)
    | free hf' hn' hd' =>
      cases hr.free_inj hf hn hf' hn' (Side.callee.inj hs)
      cases hd.symm.trans hd'
      rfl

theorem echoes_traced : Echoes g.caller callee caller outer direct
    (Traced callee root formal actual inner g) where
  old u := .back (.old u)
  unique := hr.traced_unique
  pair {e d} hm := by
    obtain ⟨p, f, hf, rfl, hd⟩ := hr.mem_outer.mp hm
    rw [Heap.find_find]
    cases hc : root p with
    | some r =>
      exact ⟨_, .back (hr.relayed_root hc hf), .pair (hr.mem_direct.mpr ⟨p, hc, hd⟩)⟩
    | none => exact ⟨.caller d, .free hf hc hd, .refl (hr.actual_lt hd)⟩
  field h hf := by
    cases h with
    | back h =>
      cases h with
      | old u =>
        obtain ⟨w, hw, rfl⟩ := Option.map_eq_some_iff.mp hf
        exact ⟨.caller w, .back (.old w), hf⟩
      | callee ht he =>
        obtain ⟨w, hw, rfl⟩ := Option.map_eq_some_iff.mp hf
        obtain ⟨x, hx, hxw⟩ := (hr.field_iff ht he).mp hw
        refine ⟨.callee x, .back (.callee (.field ht hx) hxw), ?_⟩
        rw [sideField?, hx, Option.map_some]
    | free hformal hn _ => simp [sideField?, hr.free_field hformal hn] at hf
  deep h hd := by
    cases h with
    | back h =>
      cases h with
      | old u => exact hd
      | callee ht he => exact (hr.deep_iff ht he).mp hd
    | free hf hn _ =>
      rw [sideEntity, hr.free_deep hf hn] at hd
      cases hd
  taint h := by
    cases h with
    | back h =>
      cases h with
      | old u => exact Nat.le_refl _
      | callee ht he => exact Nat.le_of_eq (hr.taint_eq ht he)
    | free hf hn _ =>
      rw [sideEntity]
      exact Nat.le_trans (Nat.le_of_eq (hr.free_taint hf hn)) (Nat.zero_le _)

/-- The caller sees the same heap, whether the callee comes by way of the blanks or directly. -/
theorem sameFrom {direct' outer' : Glue σ} (hcaller : caller.Proper) (hmiddle : g.caller.Proper)
    (hdirect : IsGluing callee caller direct direct') (hd : direct'.caller.Proper)
    (houter : IsGluing g.caller caller outer outer') (ho : outer'.caller.Proper) :
    Heap.SameFrom caller.size direct'.caller outer'.caller := by
  have hpairs : ∀ pair ∈ direct, pair.2 < caller.size := by
    intro pair hm
    obtain ⟨p, _, hd⟩ := hr.mem_direct.mp hm
    exact hr.actual_lt hd
  have hpairs' : ∀ pair ∈ outer, pair.2 < caller.size := by
    intro pair hm
    obtain ⟨p, _, _, _, hd⟩ := hr.mem_outer.mp hm
    exact hr.actual_lt hd
  exact Heap.sameFrom_of_follows
    (hr.echoes_relayed.follows hr.proper hcaller hpairs hpairs' hdirect houter ho)
    (hr.echoes_traced.follows hmiddle hcaller hpairs' hpairs houter hdirect hd)

end Relay

end Glue

end SinkTrace
