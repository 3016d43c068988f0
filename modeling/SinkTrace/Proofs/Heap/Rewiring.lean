import SinkTrace.Proofs.Heap.Operations

/-!
Moving the edges of an entity that was forwarded. They are moved one at a time, and in between some
of them are known at one end only; `Rewiring` says which, and each move settles one.
-/

namespace SinkTrace

namespace Heap

variable {h : Heap} {x y : EntityId}

theorem field?_eq (h : Heap) (u : EntityId) (k : FieldName) :
    h.field? u k = ((h.entity u).fields.get? k).map h.find := rfl

theorem field?_of_live? {u : EntityId} {e : Entity} (he : h.live? u = some e) (k : FieldName) :
    h.field? u k = (e.fields.get? k).map h.find := by
  rw [field?_eq, entity_of_live? he]

theorem field?_congr {u v : EntityId} (hf : h.find u = h.find v) (k : FieldName) :
    h.field? u k = h.field? v k := by
  rw [field?_eq, field?_eq, entity_congr hf]

/-- Heaps with the same fields and forwards. -/
theorem Alike.field? {h' : Heap} (ha : Alike Entity.fields h h') (u : EntityId) (k : FieldName) :
    h'.field? u k = h.field? u k := by
  rw [field?_eq, field?_eq, ha.entity]
  congr 1
  exact funext ha.find

theorem field?_link {owner child : EntityId} {eo ec : Entity} (ho : h.live? owner = some eo)
    (hc : h.live? child = some ec) (key : FieldName) (u : EntityId) (k : FieldName) :
    (h.link owner key child).field? u k =
      if h.find u = owner ∧ k = key then some child else h.field? u k := by
  have hfind := (alike_link h owner key child).find
  have hlive := live?_link (find_of_live? ho) (find_of_live? hc) key
  rw [field?_eq, field?_eq, entity_eq, entity_eq, hfind, hlive]
  by_cases hu : h.find u = owner
  · rw [hu, ho]
    by_cases hk : k = key
    · simp [hk, hfind, find_of_live? hc]
    · simp [hk, Table.get?_insert_of_ne, funext hfind]
  · cases h.live? (h.find u) with
    | none => simp [hu, funext hfind]
    | some e => simp [hu, funext hfind]

/-! Moving edges. -/

/-- `y` was forwarded to `x`, and what it held is still to be moved: the fields that led to it,
listed in `parents`, and the back references that name it, at the `children`. -/
structure Rewiring (h : Heap) (x y : EntityId) (parents : List (EntityId × FieldName))
    (children : List EntityId) : Prop where
  descending : h.Descending
  survivor : ∃ e, h.live? x = some e
  gone : h.next? y = some x
  keys : ∀ {i e}, h.live? i = some e → e.fields.keys.Nodup
  linked : h.Linked (fun i k => (i, k) ∈ parents) (fun p i => p = y ∧ i ∈ children)
  led : ∀ {p k}, (p, k) ∈ parents → p ≠ y →
    ∃ e, h.live? p = some e ∧ (e.fields.get? k = some y ∨ e.fields.get? k = some x)
  below : ∀ {c}, c ∈ children → ∃ e, h.live? c = some e

namespace Rewiring

variable {parents : List (EntityId × FieldName)} {children : List EntityId}

theorem not_live (hr : Rewiring h x y parents children) : h.live? y = none := by
  cases he : h.live? y with
  | none => rfl
  | some e =>
    have hn := hr.gone
    rw [next?_of_live? he] at hn
    cases hn

theorem find_gone (hr : Rewiring h x y parents children) : h.find y = x := by
  obtain ⟨e, he⟩ := hr.survivor
  rw [find_of_next? hr.gone (hr.descending _ _ hr.gone), find_of_live? he]

/-- Adding an edge keeps everything that is not about the edges. -/
theorem of_link (hr : Rewiring h x y parents children) {owner child : EntityId} {eo ec : Entity}
    (ho : h.live? owner = some eo) (hc : h.live? child = some ec) {key : FieldName}
    {rest : List (EntityId × FieldName)}
    (hk : ∀ c, eo.fields.get? key = some c → c = child ∨ h.live? c = none)
    (hrest : ∀ {i k}, (i, k) ∈ parents → ¬(i = owner ∧ k = key) → (i, k) ∈ rest)
    (hled : ∀ {p k}, (p, k) ∈ rest → (p, k) ∈ parents ∧ (p = owner → k = key → child = x)) :
    Rewiring (h.link owner key child) x y rest children := by
  have ha := alike_link h owner key child
  have hl := hr.linked.link ho hc hk
  refine ⟨ha.descending hr.descending, ?_, (ha.next y).trans hr.gone,
    nodup_keys_link ho hc key hr.keys,
    ⟨fun he hg => (hl.fields he hg).imp id fun hloose => hrest hloose.1 hloose.2, hl.parents⟩,
    ?_, ?_⟩
  · obtain ⟨e, he⟩ := hr.survivor
    obtain ⟨e', he', _⟩ := ha.to_live? he
    exact ⟨e', he'⟩
  · intro p k hm hne
    obtain ⟨hm, hsame⟩ := hled hm
    obtain ⟨e, he, hg⟩ := hr.led hm hne
    obtain ⟨e', he', _⟩ := ha.to_live? he
    refine ⟨e', he', ?_⟩
    rw [get?_fields_link (find_of_live? ho) (find_of_live? hc) he he']
    split
    · rename_i hpk
      exact .inr (congrArg some (hsame hpk.1 hpk.2))
    · exact hg
  · intro c hm
    obtain ⟨e, he⟩ := hr.below hm
    obtain ⟨e', he', _⟩ := ha.to_live? he
    exact ⟨e', he'⟩

/-- One edge that led to `y` is pointed at `x`. -/
theorem redirect {p : EntityId} {k : FieldName}
    (hr : Rewiring h x y ((p, k) :: parents) children) :
    Rewiring (redirectParent x y h (p, k)) x y parents children := by
  unfold redirectParent
  split
  · rename_i hp
    refine { hr with linked := ⟨fun he hg => ?_, hr.linked.parents⟩
                     led := fun hm hne => hr.led (List.mem_cons_of_mem _ hm) hne }
    refine (hr.linked.fields he hg).imp id fun hm => ?_
    rcases List.mem_cons.mp hm with heq | hm
    · -- `y` itself is not live any more and has no fields to look at
      cases heq
      rw [show p = y from hp, hr.not_live] at he
      cases he
    · exact hm
  · rename_i hp
    obtain ⟨e, he, hg⟩ := hr.led (List.mem_cons_self ..) hp
    obtain ⟨ex, hx⟩ := hr.survivor
    simp only [find_of_live? he]
    apply hr.of_link he hx
    · intro c hc
      rcases hg with hg | hg <;> rw [hg] at hc <;> cases hc
      · exact .inr hr.not_live
      · exact .inl rfl
    · intro i j hm hne
      rcases List.mem_cons.mp hm with heq | hm
      · cases heq
        exact absurd ⟨rfl, rfl⟩ hne
      · exact hm
    · intro q j hm
      exact ⟨List.mem_cons_of_mem _ hm, fun _ _ => rfl⟩

theorem alike_redirect (x y : EntityId) (h : Heap) (edge : EntityId × FieldName) :
    Alike Entity.bare h (redirectParent x y h edge) := by
  unfold redirectParent
  split
  · exact Alike.refl _ _
  · exact alike_link h _ _ x

/-- What the fields lead to was settled when `y` was forwarded. -/
theorem field?_redirect {p : EntityId} {k : FieldName}
    (hr : Rewiring h x y ((p, k) :: parents) children) (u : EntityId) (key : FieldName) :
    (redirectParent x y h (p, k)).field? u key = h.field? u key := by
  unfold redirectParent
  split
  · rfl
  · rename_i hp
    obtain ⟨e, he, hg⟩ := hr.led (List.mem_cons_self ..) hp
    obtain ⟨ex, hx⟩ := hr.survivor
    simp only [find_of_live? he]
    refine (field?_link he hx k u key).trans ?_
    split
    · rename_i hu
      obtain ⟨hu, rfl⟩ := hu
      rw [field?_congr (hu.trans (find_of_live? he).symm), field?_of_live? he]
      rcases hg with hg | hg
      · rw [hg, Option.map_some, hr.find_gone]
      · rw [hg, Option.map_some, find_of_live? hx]
    · rfl

theorem redirectAll (hr : Rewiring h x y parents children) :
    Rewiring (parents.foldl (redirectParent x y) h) x y [] children := by
  induction parents generalizing h with
  | nil => exact hr
  | cons edge parents ih => exact ih hr.redirect

theorem field?_redirectAll (hr : Rewiring h x y parents children) (u : EntityId)
    (key : FieldName) :
    (parents.foldl (redirectParent x y) h).field? u key = h.field? u key := by
  induction parents generalizing h with
  | nil => rfl
  | cons edge parents ih => exact (ih hr.redirect).trans (hr.field?_redirect u key)

/-- An entity after `c` has forgotten the edges of `y`. -/
theorem of_dropParent {c : EntityId} {ec : Entity} (hc : h.live? c = some ec) {i : EntityId}
    {e : Entity} (he : (h.update c (·.dropParent y)).live? i = some e) :
    ∃ e₀, h.live? i = some e₀ ∧ e.fields = e₀.fields ∧
      ∀ q, q ∈ e.parents ↔ q ∈ e₀.parents ∧ (i = c → q.1 ≠ y) := by
  rw [live?_update, find_of_live? hc] at he
  split at he
  · rename_i hi
    obtain ⟨e₀, he₀, rfl⟩ := Option.map_eq_some_iff.mp he
    exact ⟨e₀, he₀, rfl, fun q => by simp [Entity.dropParent, hi]⟩
  · rename_i hi
    exact ⟨e, he, rfl, fun q => ⟨fun hm => ⟨hm, fun hi' => absurd hi'.symm hi⟩, And.left⟩⟩

theorem to_dropParent {c : EntityId} {ec : Entity} (hc : h.live? c = some ec) {i : EntityId}
    {e₀ : Entity} (he₀ : h.live? i = some e₀) :
    ∃ e, (h.update c (·.dropParent y)).live? i = some e ∧ e.fields = e₀.fields ∧
      ∀ q, q ∈ e.parents ↔ q ∈ e₀.parents ∧ (i = c → q.1 ≠ y) := by
  have ha : Alike Entity.fields h (h.update c (·.dropParent y)) := alike_update h c fun _ => rfl
  obtain ⟨e, he, _⟩ := ha.to_live? he₀
  obtain ⟨e₁, he₁, hf, hp⟩ := of_dropParent hc he
  rw [he₀] at he₁
  cases he₁
  exact ⟨e, he, hf, hp⟩

/-- A child forgets that `y` led to it. -/
theorem dropParent {c : EntityId} (hr : Rewiring h x y [] (c :: children)) :
    Rewiring (h.update c (·.dropParent y)) x y [] children := by
  obtain ⟨ec, hc⟩ := hr.below (List.mem_cons_self ..)
  have ha : Alike Entity.fields h (h.update c (·.dropParent y)) := alike_update h c fun _ => rfl
  refine ⟨ha.descending hr.descending, ?_, (ha.next y).trans hr.gone, ?_, ⟨?_, ?_⟩, ?_, ?_⟩
  · obtain ⟨e, he⟩ := hr.survivor
    obtain ⟨e', he', _⟩ := ha.to_live? he
    exact ⟨e', he'⟩
  · intro i e he
    obtain ⟨e₀, he₀, hf, _⟩ := of_dropParent hc he
    exact hf ▸ hr.keys he₀
  · intro i e k d he hg
    obtain ⟨e₀, he₀, hf, _⟩ := of_dropParent hc he
    rw [hf] at hg
    rcases hr.linked.fields he₀ hg with ⟨ed, hd, hm⟩ | hm
    · obtain ⟨ed', hd', _, hp⟩ := to_dropParent hc hd
      refine .inl ⟨ed', hd', (hp _).mpr ⟨hm, ?_⟩⟩
      rintro - rfl
      rw [hr.not_live] at he₀
      cases he₀
    · exact absurd hm (List.not_mem_nil)
  · intro i e p k he hm
    obtain ⟨e₀, he₀, _, hp⟩ := of_dropParent hc he
    obtain ⟨hm, hne⟩ := (hp _).mp hm
    rcases hr.linked.parents he₀ hm with ⟨ep, hep, hg⟩ | ⟨rfl, hi⟩
    · obtain ⟨ep', hep', hf, _⟩ := to_dropParent hc hep
      exact .inl ⟨ep', hep', hf ▸ hg⟩
    · rcases List.mem_cons.mp hi with rfl | hi
      · exact absurd rfl (hne rfl)
      · exact .inr ⟨rfl, hi⟩
  · intro p k hm
    exact absurd hm (List.not_mem_nil)
  · intro d hd
    obtain ⟨e, he⟩ := hr.below (List.mem_cons_of_mem _ hd)
    obtain ⟨e', he', _⟩ := ha.to_live? he
    exact ⟨e', he'⟩

/-! One edge of `y` moves to `x`. -/

theorem alike_move (x y : EntityId) (state : Heap × List (EntityId × EntityId))
    (edge : FieldName × EntityId) : Alike Entity.bare state.1 (moveField x y state edge).1 := by
  have hd : Alike Entity.bare state.1
      (state.1.update (state.1.find edge.2) (·.dropParent y)) := alike_update _ _ fun _ => rfl
  unfold moveField
  simp only
  split
  · exact hd
  · exact hd.trans (alike_link _ _ _ _)

/-- The field of `x` that is in the way, if there is one, is seen as before. -/
theorem field_dropParent (h : Heap) (x y c : EntityId) (k : FieldName) :
    (((h.update c (·.dropParent y)).entity x).fields.get? k).map h.find = h.field? x k := by
  have ha : Alike Entity.fields h (h.update c (·.dropParent y)) := alike_update h c fun _ => rfl
  rw [← ha.field? x k, field?_eq, funext ha.find]

theorem move {k : FieldName} {c : EntityId} (hr : Rewiring h x y [] (h.find c :: children))
    (conflicts : List (EntityId × EntityId)) :
    Rewiring (moveField x y (h, conflicts) (k, c)).1 x y [] children := by
  have hd := hr.dropParent
  obtain ⟨ex, hx⟩ := hd.survivor
  unfold moveField
  simp only
  split
  · exact hd
  · rename_i hg
    rw [entity_of_live? hx] at hg
    obtain ⟨ec, hc⟩ := hr.below (List.mem_cons_self ..)
    have ha : Alike Entity.fields h (h.update (h.find c) (·.dropParent y)) :=
      alike_update h _ fun _ => rfl
    obtain ⟨ec', hc', _⟩ := ha.to_live? hc
    apply hd.of_link hx hc'
    · intro d hd
      rw [hg] at hd
      cases hd
    · exact fun hm _ => hm
    · exact fun hm => absurd hm List.not_mem_nil

/-- `x` has a field afterwards if it or `y` had one, its own taking precedence. -/
theorem field?_move {k : FieldName} {c : EntityId}
    (hr : Rewiring h x y [] (h.find c :: children)) (conflicts : List (EntityId × EntityId))
    (u : EntityId) (key : FieldName) :
    (moveField x y (h, conflicts) (k, c)).1.field? u key =
      if h.find u = x ∧ key = k then some ((h.field? x k).getD (h.find c))
      else h.field? u key := by
  have hd := hr.dropParent
  obtain ⟨ex, hx⟩ := hd.survivor
  have ha : Alike Entity.fields h (h.update (h.find c) (·.dropParent y)) :=
    alike_update h _ fun _ => rfl
  have hown := field_dropParent h x y (h.find c) k
  unfold moveField
  simp only
  split
  · rename_i existing hg
    rw [hg, Option.map_some] at hown
    rw [ha.field?]
    split
    · rename_i hu
      obtain ⟨hu, rfl⟩ := hu
      obtain ⟨ex₀, hx₀⟩ := hr.survivor
      rw [field?_congr (hu.trans (find_of_live? hx₀).symm), ← hown]
      rfl
    · rfl
  · rename_i hg
    rw [hg, Option.map_none] at hown
    obtain ⟨ec, hc⟩ := hr.below (List.mem_cons_self ..)
    obtain ⟨ec', hc', _⟩ := ha.to_live? hc
    rw [field?_link hx hc', ha.find, ha.field?, ← hown]
    rfl

theorem conflicts_move (h : Heap) (x y c : EntityId) (k : FieldName)
    (conflicts : List (EntityId × EntityId)) :
    (moveField x y (h, conflicts) (k, c)).2 = match h.field? x k with
      | some a => if a = h.find c then conflicts else (a, h.find c) :: conflicts
      | none => conflicts := by
  have hown := field_dropParent h x y (h.find c) k
  unfold moveField
  simp only
  split
  · rename_i existing hg
    rw [hg, Option.map_some] at hown
    rw [← hown, find_update]
  · rename_i hg
    rw [hg, Option.map_none] at hown
    rw [← hown]

/-! All edges of `y` move to `x`. -/

theorem alike_moveAll (x y : EntityId) (es : List (FieldName × EntityId))
    (state : Heap × List (EntityId × EntityId)) :
    Alike Entity.bare state.1 (es.foldl (moveField x y) state).1 := by
  induction es generalizing state with
  | nil => exact Alike.refl _ _
  | cons edge es ih => exact (alike_move x y state edge).trans (ih _)

theorem moveAll {es : List (FieldName × EntityId)}
    (hr : Rewiring h x y [] (es.map fun edge => h.find edge.2))
    (conflicts : List (EntityId × EntityId)) :
    Rewiring (es.foldl (moveField x y) (h, conflicts)).1 x y [] [] := by
  induction es generalizing h conflicts with
  | nil => exact hr
  | cons edge es ih =>
    have hm := hr.move (k := edge.1) conflicts
    rw [← funext (alike_move x y (h, conflicts) edge).find] at hm
    exact ih hm _

theorem field?_moveAll {es : List (FieldName × EntityId)} (hd : (es.map Prod.fst).Nodup)
    (hr : Rewiring h x y [] (es.map fun edge => h.find edge.2))
    (conflicts : List (EntityId × EntityId)) (u : EntityId) (key : FieldName) :
    (es.foldl (moveField x y) (h, conflicts)).1.field? u key =
      if h.find u = x then (h.field? x key).or ((Table.find key es).map h.find)
      else h.field? u key := by
  induction es generalizing h conflicts with
  | nil =>
    obtain ⟨ex, hx⟩ := hr.survivor
    simp only [List.foldl_nil, Table.find, Option.map_none, Option.or_none]
    split
    · rename_i hu
      exact field?_congr (hu.trans (find_of_live? hx).symm) key
    · rfl
  | cons edge es ih =>
    obtain ⟨k, c⟩ := edge
    obtain ⟨ex, hx⟩ := hr.survivor
    simp only [List.map_cons, List.nodup_cons] at hd
    have hfind := (alike_move x y (h, conflicts) (k, c)).find
    have hm := hr.move (k := k) conflicts
    rw [← funext hfind] at hm
    rw [List.foldl_cons, ih hd.2 hm, hfind, hr.field?_move, hr.field?_move, find_of_live? hx,
      funext hfind]
    by_cases hk : key = k
    · subst hk
      have hnone : Table.find key es = none := (Table.find_eq_none_iff key es).mpr hd.1
      simp only [and_true, ↓reduceIte, hnone, Table.find, Option.map_none, Option.or_none,
        Option.map_some]
      by_cases hu : h.find u = x <;> cases h.field? x key <;> simp [hu]
    · have hne : ¬k = key := fun he => hk he.symm
      simp only [hk, and_false, ↓reduceIte, Table.find, hne]

/-- A moved edge clashes with a field of that name that leads elsewhere. -/
theorem mem_conflicts_move (h : Heap) (x y : EntityId) (conflicts : List (EntityId × EntityId))
    (k : FieldName) (c a b : EntityId) :
    (a, b) ∈ (moveField x y (h, conflicts) (k, c)).2 ↔ (a, b) ∈ conflicts ∨
      (h.field? x k = some a ∧ h.find c = b ∧ a ≠ b) := by
  rw [conflicts_move]
  cases h.field? x k with
  | none => simp
  | some d =>
    simp only [Option.some.injEq]
    split
    · rename_i he
      subst he
      constructor
      · exact .inl
      · rintro (hm | ⟨rfl, rfl, hne⟩)
        · exact hm
        · exact absurd rfl hne
    · rename_i he
      rw [List.mem_cons, Prod.mk.injEq]
      constructor
      · rintro (⟨rfl, rfl⟩ | hm)
        · exact .inr ⟨rfl, rfl, he⟩
        · exact .inl hm
      · rintro (hm | ⟨rfl, rfl, -⟩)
        · exact .inr hm
        · exact .inl ⟨rfl, rfl⟩

/-- The pairs that clash: both had a field of that name, leading elsewhere. -/
theorem mem_conflicts_moveAll {es : List (FieldName × EntityId)} (hd : (es.map Prod.fst).Nodup)
    (hr : Rewiring h x y [] (es.map fun edge => h.find edge.2))
    (conflicts : List (EntityId × EntityId)) (a b : EntityId) :
    (a, b) ∈ (es.foldl (moveField x y) (h, conflicts)).2 ↔ (a, b) ∈ conflicts ∨
      ∃ k c, (k, c) ∈ es ∧ h.field? x k = some a ∧ h.find c = b ∧ a ≠ b := by
  induction es generalizing h conflicts with
  | nil => simp
  | cons edge es ih =>
    obtain ⟨k, c⟩ := edge
    obtain ⟨ex, hx⟩ := hr.survivor
    simp only [List.map_cons, List.nodup_cons] at hd
    have hfind := (alike_move x y (h, conflicts) (k, c)).find
    have hm := hr.move (k := k) conflicts
    rw [← funext hfind] at hm
    -- later keys differ from `k`, so the fields they meet at `x` are the old ones
    have hlater : ∀ k' c', (k', c') ∈ es →
        (moveField x y (h, conflicts) (k, c)).1.field? x k' = h.field? x k' := by
      intro k' c' hin
      rw [hr.field?_move, if_neg]
      rintro ⟨-, rfl⟩
      exact hd.1 (List.mem_map.mpr ⟨(k', c'), hin, rfl⟩)
    rw [List.foldl_cons, ih hd.2 hm, mem_conflicts_move, or_assoc]
    apply or_congr_right
    constructor
    · rintro (⟨ha, hb, hne⟩ | ⟨k', c', hin, ha, hb, hne⟩)
      · exact ⟨k, c, List.mem_cons_self .., ha, hb, hne⟩
      · rw [hlater k' c' hin] at ha
        rw [hfind] at hb
        exact ⟨k', c', List.mem_cons_of_mem _ hin, ha, hb, hne⟩
    · rintro ⟨k', c', hin, ha, hb, hne⟩
      rcases List.mem_cons.mp hin with he | hin
      · cases he
        exact .inl ⟨ha, hb, hne⟩
      · exact .inr ⟨k', c', hin, (hlater k' c' hin).trans ha, (hfind c').trans hb, hne⟩

end Rewiring

end Heap

end SinkTrace
