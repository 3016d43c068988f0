import SinkTrace.Proofs.Heap.Gluing
import SinkTrace.Proofs.Heap.Renaming

/-!
Two callees glued onto one caller. Where the second callee has all that the first one has, at its
roots and below them, the heap with the second callee has all that the heap with the first one has.
-/

namespace SinkTrace

namespace Glue

/-- What `T` relates the members of a gluing to are members of another gluing onto the same caller,
with all that they have. -/
structure Echoes (callee callee' caller : Heap) (pairs pairs' : List (EntityId × EntityId))
    (T : Side → Side → Prop) : Prop where
  old : ∀ u, T (.caller u) (.caller u)
  unique : ∀ {s s' s''}, T s s' → T s s'' → s' = s''
  pair : ∀ {c d}, (c, d) ∈ pairs → ∃ s', T (.callee (callee.find c)) s' ∧
    Joined callee' caller pairs' s' (.caller d)
  field : ∀ {s s' t k}, T s s' → sideField? callee caller s k = some t → ∃ t', T t t' ∧
    sideField? callee' caller s' k = some t'
  deep : ∀ {s s'}, T s s' → (sideEntity callee caller s).deep = true →
    (sideEntity callee' caller s').deep = true
  taint : ∀ {s s'}, T s s' →
    (sideEntity callee caller s).taint ≤ (sideEntity callee' caller s').taint

variable {callee callee' caller : Heap} {pairs pairs' : List (EntityId × EntityId)}
  {T : Side → Side → Prop} {σ : Type} {g g' : Glue σ} {s t s' t' : Side} {d d' : EntityId}

theorem Joined.members (hw : caller.WellFormed) (hpairs : ∀ pair ∈ pairs, pair.2 < caller.size)
    (hj : Joined callee caller pairs s t) :
    Member callee caller pairs s ∧ Member callee caller pairs t := by
  induction hj with
  | refl hs => exact ⟨hs, hs⟩
  | same hu hv _ => exact ⟨hu, hv⟩
  | pair hm => exact ⟨.root hm, hpairs _ hm⟩
  | symm _ ih => exact ih.symm
  | trans _ _ ih₁ ih₂ => exact ⟨ih₁.1, ih₂.2⟩
  | field _ hs ht ih => exact ⟨Holds.member_field hw ih.1 hs, Holds.member_field hw ih.2 ht⟩

/-- Members that become one are related to members that become one. A member that stays alone need
not be related to any: only deferred edges may lead there. -/
theorem Echoes.joined (hT : Echoes callee callee' caller pairs pairs' T)
    (hj : Joined callee caller pairs s t) :
    s = t ∨ ∃ s' t', T s s' ∧ T t t' ∧ Joined callee' caller pairs' s' t' := by
  induction hj with
  | refl _ => exact .inl rfl
  | same hu hv hf => exact .inr ⟨_, _, hT.old _, hT.old _, .same hu hv hf⟩
  | pair hm =>
    obtain ⟨s', hs', hj'⟩ := hT.pair hm
    exact .inr ⟨s', _, hs', hT.old _, hj'⟩
  | symm _ ih =>
    rcases ih with rfl | ⟨s', t', hs', ht', hj'⟩
    · exact .inl rfl
    · exact .inr ⟨t', s', ht', hs', .symm hj'⟩
  | trans _ _ ih₁ ih₂ =>
    rcases ih₁ with rfl | ⟨s', t', hs', ht', hj₁⟩
    · exact ih₂
    · rcases ih₂ with rfl | ⟨t'', u', ht'', hu', hj₂⟩
      · exact .inr ⟨s', t', hs', ht', hj₁⟩
      · cases hT.unique ht' ht''
        exact .inr ⟨s', u', hs', hu', .trans hj₁ hj₂⟩
  | field _ hs ht ih =>
    rcases ih with rfl | ⟨s', t', hs', ht', hj'⟩
    · exact .inl (Option.some.inj (hs.symm.trans ht))
    · obtain ⟨v', hv', hfs⟩ := hT.field hs' hs
      obtain ⟨w', hw', hft⟩ := hT.field ht' ht
      exact .inr ⟨v', w', hv', hw', .field hj' hfs hft⟩

/-- Entities of two glued callers that related members are part of. -/
def Partners (callee callee' caller : Heap) (pairs pairs' : List (EntityId × EntityId))
    (T : Side → Side → Prop) (g g' : Glue σ) (d d' : EntityId) : Prop :=
  ∃ s s', T s s' ∧ (Member callee caller pairs s ∧ g.entityOf? s = some d) ∧
    Member callee' caller pairs' s' ∧ g'.entityOf? s' = some d'

theorem deep_field {h : Heap} (hp : h.Proper) {k : FieldName} {u w : EntityId}
    (hd : (h.entity u).deep = true) (hf : h.field? u k = some w) : (h.entity w).deep = true :=
  hp.deep_below (.single ⟨k, hf⟩) hd

theorem sideDeep_field {k : FieldName} (hcallee : callee.Proper) (hcaller : caller.Proper)
    (hd : (sideEntity callee caller s).deep = true) (hf : sideField? callee caller s k = some t) :
    (sideEntity callee caller t).deep = true := by
  cases s with
  | caller u =>
    obtain ⟨w, hw, rfl⟩ := Option.map_eq_some_iff.mp hf
    exact deep_field hcaller hd hw
  | callee c =>
    obtain ⟨w, hw, rfl⟩ := Option.map_eq_some_iff.mp hf
    exact deep_field hcallee hd hw

section Gluings

variable (hT : Echoes callee callee' caller pairs pairs' T)
  (hcallee : callee.Proper) (hcaller : caller.Proper)
  (hpairs : ∀ pair ∈ pairs, pair.2 < caller.size) (hpairs' : ∀ pair ∈ pairs', pair.2 < caller.size)
  (hg : IsGluing callee caller pairs g) (hg' : IsGluing callee' caller pairs' g')

include hT hcaller hpairs' hg'

/-- A member that is joined with a related one is related to one of the same entity. -/
theorem Echoes.across (hs : T s s') (hm : Member callee' caller pairs' s')
    (hj : Joined callee caller pairs s t) :
    ∃ t', T t t' ∧ Member callee' caller pairs' t' ∧ g'.entityOf? t' = g'.entityOf? s' := by
  rcases hT.joined hj with rfl | ⟨s'', t', hs'', ht', hj'⟩
  · exact ⟨s', hs, hm, rfl⟩
  · cases hT.unique hs hs''
    have ht := (hj'.members hcaller.wellFormed hpairs').2
    exact ⟨t', ht', ht, ((hg'.same _ _ hm ht).mpr hj').symm⟩

include hg

theorem Echoes.partners_unique {d'' : EntityId}
    (h₁ : Partners callee callee' caller pairs pairs' T g g' d d')
    (h₂ : Partners callee callee' caller pairs pairs' T g g' d d'') : d' = d'' := by
  obtain ⟨s, s', hs, ⟨hms, hds⟩, hms', hds'⟩ := h₁
  obtain ⟨t, t', ht, ⟨hmt, hdt⟩, hmt', hdt'⟩ := h₂
  have hj := (hg.same s t hms hmt).mp (hds.trans hdt.symm)
  obtain ⟨t'', ht'', _, heq⟩ := hT.across hcaller hpairs' hg' hs hms' hj
  cases hT.unique ht ht''
  exact Option.some.inj (hds'.symm.trans (heq.symm.trans hdt'))

include hpairs

theorem Echoes.partners_field {k : FieldName} {w : EntityId}
    (h : Partners callee callee' caller pairs pairs' T g g' d d')
    (hf : g.caller.field? d k = some w) :
    ∃ w', g'.caller.field? d' k = some w' ∧
      Partners callee callee' caller pairs pairs' T g g' w w' := by
  obtain ⟨s, s', hs, ⟨hms, hds⟩, hms', hds'⟩ := h
  obtain ⟨t, v, hj, hv, hw⟩ := (hg.field s d hms hds k w).mp hf
  obtain ⟨t', ht', hmt', heq⟩ := hT.across hcaller hpairs' hg' hs hms' hj
  obtain ⟨v', hv', hfv'⟩ := hT.field ht' hv
  have hmt := (hj.members hcaller.wellFormed hpairs).2
  have hmv := Holds.member_field hcaller.wellFormed hmt hv
  have hmv' := Holds.member_field hcaller.wellFormed hmt' hfv'
  obtain ⟨w', hw'⟩ := hg'.matched v' hmv'
  refine ⟨w', (hg'.field t' d' hmt' (heq.trans hds') k w').mpr ⟨t', v', .refl hmt', hfv', hw'⟩,
    v, v', hv', ⟨hmv, hw⟩, hmv', hw'⟩

include hcallee

/-- The entity is deep input in the second heap, or will be known to be: it stands for a member of
the first gluing that is deep input, which need not be related to any of the second one. -/
def DeepOver (callee callee' caller : Heap) (pairs pairs' : List (EntityId × EntityId))
    (T : Side → Side → Prop) (g g' : Glue σ) (d : EntityId) : Prop :=
  (∃ t, Member callee caller pairs t ∧ (sideEntity callee caller t).deep = true ∧
    g.entityOf? t = some d) ∨
  ∃ d', Partners callee callee' caller pairs pairs' T g g' d d' ∧
    (g'.caller.entity d').deep = true

theorem Echoes.deepOver_field (hp' : g'.caller.Proper) {k : FieldName} {w : EntityId}
    (h : DeepOver callee callee' caller pairs pairs' T g g' d)
    (hf : g.caller.field? d k = some w) :
    DeepOver callee callee' caller pairs pairs' T g g' w := by
  -- what is deep in the second heap hands it on to what the field leads to there
  have hright : ∀ {d'}, Partners callee callee' caller pairs pairs' T g g' d d' →
      (g'.caller.entity d').deep = true →
      DeepOver callee callee' caller pairs pairs' T g g' w := by
    intro d' hd' hdeep
    obtain ⟨w', hw', hww⟩ := hT.partners_field hcaller hpairs hpairs' hg hg' hd' hf
    exact .inr ⟨w', hww, deep_field hp' hdeep hw'⟩
  rcases h with ⟨t, hm, hdeep, ht⟩ | ⟨d', hd', hdeep⟩
  · obtain ⟨v, x, hj, hx, hw⟩ := (hg.field t d hm ht k w).mp hf
    rcases hT.joined hj with rfl | ⟨t', v', ht', hv', hj'⟩
    · have hmx := Holds.member_field hcaller.wellFormed hm hx
      exact .inl ⟨x, hmx, sideDeep_field hcallee hcaller hdeep hx, hw⟩
    · have hm' := (hj'.members hcaller.wellFormed hpairs').1
      obtain ⟨d', hd'⟩ := hg'.matched t' hm'
      refine hright ⟨t, t', ht', ⟨hm, ht⟩, hm', hd'⟩ ?_
      exact (hg'.deep t' d' hm' hd').mpr ⟨t', d', hm', hT.deep ht' hdeep, hd', .refl⟩
  · exact hright hd' hdeep

theorem Echoes.deepOver_below (hp' : g'.caller.Proper) {e : EntityId}
    (h : DeepOver callee callee' caller pairs pairs' T g g' e) (hb : g.caller.Below e d) :
    DeepOver callee callee' caller pairs pairs' T g g' d := by
  induction hb with
  | refl => exact h
  | tail _ hstep ih =>
    obtain ⟨k, hk⟩ := hstep
    exact hT.deepOver_field hcallee hcaller hpairs hpairs' hg hg' hp' ih hk

theorem Echoes.partners_deep (hp' : g'.caller.Proper)
    (h : Partners callee callee' caller pairs pairs' T g g' d d')
    (hdeep : (g.caller.entity d).deep = true) : (g'.caller.entity d').deep = true := by
  obtain ⟨s, s', hs, ⟨hms, hds⟩, hms', hds'⟩ := id h
  obtain ⟨t, e, hm, htd, he, hb⟩ := (hg.deep s d hms hds).mp hdeep
  have hover := hT.deepOver_below hcallee hcaller hpairs hpairs' hg hg' hp'
    (.inl ⟨t, hm, htd, he⟩) hb
  rcases hover with ⟨t, hm, htd, ht⟩ | ⟨d'', hd'', hdeep'⟩
  · have hj := (hg.same s t hms hm).mp (hds.trans ht.symm)
    obtain ⟨t', ht', hmt', heq⟩ := hT.across hcaller hpairs' hg' hs hms' hj
    exact (hg'.deep s' d' hms' hds').mpr
      ⟨t', d', hmt', hT.deep ht' htd, heq.trans hds', .refl⟩
  · exact hT.partners_unique hcaller hpairs' hg hg' h hd'' ▸ hdeep'

theorem Echoes.partners_taint (hp' : g'.caller.Proper)
    (h : Partners callee callee' caller pairs pairs' T g g' d d') :
    g.caller.taint d ≤ g'.caller.taint d' := by
  obtain ⟨s, s', hs, ⟨hms, hds⟩, hms', hds'⟩ := id h
  obtain ⟨n, ⟨⟨t, hj, ht⟩, _⟩, hn⟩ := hg.taint s d hms hds
  obtain ⟨t', ht', hmt', heq⟩ := hT.across hcaller hpairs' hg' hs hms' hj
  obtain ⟨n', ⟨_, hgreatest⟩, hn'⟩ := hg'.taint s' d' hms' hds'
  have hle : n ≤ n' := by
    have hj' := (hg'.same s' t' hms' hmt').mp heq.symm
    exact ht ▸ Nat.le_trans (hT.taint ht') (hgreatest ⟨t', hj', rfl⟩)
  have hdeep := hT.partners_deep hcallee hcaller hpairs hpairs' hg hg' hp' h
  rw [hn, hn']
  split
  · rename_i hd
    rw [if_pos (hdeep hd)]
    exact max_le_max hle (Nat.le_refl _)
  · split
    · exact Nat.le_trans hle (Nat.le_max_left _ _)
    · exact hle

theorem Echoes.follows (hp' : g'.caller.Proper) :
    Heap.Follows caller.size (Partners callee callee' caller pairs pairs' T g g') g.caller
      g'.caller where
  old {u} hu := ⟨.caller u, .caller u, hT.old u, ⟨hu, rfl⟩, hu, rfl⟩
  unique h₁ h₂ := hT.partners_unique hcaller hpairs' hg hg' h₁ h₂
  field h hf := hT.partners_field hcaller hpairs hpairs' hg hg' h hf
  deep h hd := hT.partners_deep hcallee hcaller hpairs hpairs' hg hg' hp' h hd
  taint h := hT.partners_taint hcallee hcaller hpairs hpairs' hg hg' hp' h

end Gluings

end Glue

end SinkTrace
