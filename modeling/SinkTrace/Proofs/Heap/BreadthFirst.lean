import SinkTrace.Heap.Reach
import SinkTrace.Proofs.Heap.Closure
import Mathlib.Data.Set.Function
import Mathlib.Data.String.Basic

/-!
The search below some roots finds every entity that fields lead to, and each once. In which order
it finds them rests on the names of the fields alone: a renaming that keeps the fields takes the
order of one heap to the order of the other.
-/

namespace SinkTrace

theorem take_succ_of_extends {α : Type} {xs ys : List α} (hp : xs <+: ys) {k : Nat}
    (hk : k < xs.length) : ys.take (k + 1) = xs.take k ++ [xs[k]] := by
  obtain ⟨rest, rfl⟩ := hp
  rw [List.take_append_of_le_length hk, List.take_succ_eq_append_getElem hk]

theorem nodup_addNew {α : Type} [BEq α] [LawfulBEq α] {xs : List α} (hd : xs.Nodup) (x : α) :
    (addNew xs x).Nodup := by
  unfold addNew
  split
  · exact hd
  · rename_i hx
    have hx : x ∉ xs := by simpa using hx
    refine List.nodup_append.mpr ⟨hd, by simp, fun a ha b hb => ?_⟩
    rw [List.mem_singleton.mp hb]
    exact fun he => hx (he ▸ ha)

theorem prefix_addNew {α : Type} [BEq α] (xs : List α) (x : α) : xs <+: addNew xs x := by
  unfold addNew
  split
  · exact List.prefix_rfl
  · exact List.prefix_append _ _

theorem prefix_foldl_addNew {α : Type} [BEq α] (ys xs : List α) : xs <+: ys.foldl addNew xs := by
  induction ys generalizing xs with
  | nil => exact List.prefix_rfl
  | cons x ys ih => exact (prefix_addNew xs x).trans (ih _)

/-- A renaming that keeps the listed members apart commutes with adding one. -/
theorem map_addNew {α β : Type} [BEq α] [LawfulBEq α] [BEq β] [LawfulBEq β] {φ : α → β}
    {R : Set α} (hφ : Set.InjOn φ R) {xs : List α} {x : α} (hxs : ∀ y ∈ xs, y ∈ R) (hx : x ∈ R) :
    (addNew xs x).map φ = addNew (xs.map φ) (φ x) := by
  have hiff : φ x ∈ xs.map φ ↔ x ∈ xs := by
    rw [List.mem_map]
    refine ⟨?_, fun hm => ⟨x, hm, rfl⟩⟩
    rintro ⟨y, hy, he⟩
    exact hφ (hxs y hy) hx he ▸ hy
  unfold addNew
  by_cases hm : x ∈ xs
  · simp [hm, hiff.mpr hm]
  · simp [hm, mt hiff.mp hm]

theorem map_foldl_addNew {α β : Type} [BEq α] [LawfulBEq α] [BEq β] [LawfulBEq β] {φ : α → β}
    {R : Set α} (hφ : Set.InjOn φ R) {ys xs : List α} (hxs : ∀ y ∈ xs, y ∈ R)
    (hys : ∀ y ∈ ys, y ∈ R) :
    (ys.foldl addNew xs).map φ = (ys.map φ).foldl addNew (xs.map φ) := by
  induction ys generalizing xs with
  | nil => rfl
  | cons x ys ih =>
    have hx : x ∈ R := hys x (by simp)
    rw [List.foldl_cons, List.map_cons, List.foldl_cons, ← map_addNew hφ hxs hx]
    exact ih (fun y hy => (mem_addNew.mp hy).elim (hxs y) fun he => he ▸ hx)
      fun y hy => hys y (by simp [hy])

namespace Heap

variable {h h' : Heap}

/-! The fields of an entity in the order of their names. -/

/-- The names of the fields, in order, and the entities they lead to. -/
def outline (h : Heap) (id : EntityId) : List (FieldName × EntityId) :=
  (h.entity id).sortedFields.map fun (key, child) => (key, h.find child)

theorem children_eq (h : Heap) (id : EntityId) : h.children id = (h.outline id).map Prod.snd := by
  simp [children, outline]

theorem WellFormed.nodup_keys (hw : h.WellFormed) (id : EntityId) :
    (h.entity id).fields.keys.Nodup := by
  rw [entity_eq]
  cases he : h.live? (h.find id) with
  | none => exact List.nodup_nil
  | some e => exact hw.keys he

theorem WellFormed.mem_outline (hw : h.WellFormed) {id c : EntityId} {k : FieldName} :
    (k, c) ∈ h.outline id ↔ h.field? id k = some c := by
  simp only [outline, Entity.sortedFields, List.mem_map, List.mem_mergeSort, Prod.exists,
    Prod.mk.injEq, Table.mem_entries_iff (hw.nodup_keys id), field?, Option.map_eq_some_iff]
  constructor
  · rintro ⟨_, b, hg, rfl, hf⟩
    exact ⟨b, hg, hf⟩
  · rintro ⟨b, hg, hf⟩
    exact ⟨k, b, hg, rfl, hf⟩

theorem WellFormed.mem_children (hw : h.WellFormed) {id c : EntityId} :
    c ∈ h.children id ↔ ∃ k, h.field? id k = some c := by
  simp [children_eq, hw.mem_outline]

theorem WellFormed.nodup_outline_keys (hw : h.WellFormed) (id : EntityId) :
    ((h.outline id).map Prod.fst).Nodup := by
  have hmap : (h.outline id).map Prod.fst = (h.entity id).sortedFields.map Prod.fst := by
    simp [outline]
  rw [hmap]
  exact ((List.mergeSort_perm _ _).map Prod.fst).nodup_iff.mpr (hw.nodup_keys id)

theorem outline_sorted (h : Heap) (id : EntityId) :
    (h.outline id).Pairwise fun a b => a.1 ≤ b.1 := by
  have hsorted : (h.entity id).sortedFields.Pairwise fun a b => fieldLe a b = true :=
    List.pairwise_mergeSort
      (fun a b c hab hbc => by
        simp only [fieldLe, decide_eq_true_eq] at hab hbc ⊢
        exact le_trans hab hbc)
      (fun a b => by simpa [fieldLe] using le_total a.1 b.1) _
  exact List.pairwise_map.mpr (hsorted.imp fun hle => by simpa [fieldLe] using hle)

/-- Two entities have the same names in the same order, with `φ` between the entities they lead
to, as soon as every single field agrees. -/
theorem outline_map_iff (hw : h.WellFormed) (hw' : h'.WellFormed) {φ : EntityId → EntityId}
    {d d' : EntityId} : h'.outline d' = (h.outline d).map (Prod.map id φ) ↔
      ∀ k, h'.field? d' k = (h.field? d k).map φ := by
  have hmem : ∀ {k c'}, (k, c') ∈ (h.outline d).map (Prod.map id φ) ↔
      (h.field? d k).map φ = some c' := by
    intro k c'
    simp only [List.mem_map, Prod.exists, Prod.map_apply, id_eq, Prod.mk.injEq, hw.mem_outline,
      Option.map_eq_some_iff]
    constructor
    · rintro ⟨_, c, hf, rfl, he⟩
      exact ⟨c, hf, he⟩
    · rintro ⟨c, hf, he⟩
      exact ⟨k, c, hf, rfl, he⟩
  constructor
  · intro he k
    ext c'
    rw [← hw'.mem_outline, he, hmem]
  · intro hf
    have hkeys : (((h.outline d).map (Prod.map id φ)).map Prod.fst).Nodup := by
      simpa [Function.comp_def] using hw.nodup_outline_keys d
    have hperm : (h'.outline d').Perm ((h.outline d).map (Prod.map id φ)) := by
      refine (List.perm_ext_iff_of_nodup (hw'.nodup_outline_keys d').of_map hkeys.of_map).mpr ?_
      rintro ⟨k, c'⟩
      rw [hw'.mem_outline, hmem, hf]
    refine hperm.eq_of_pairwise ?_ (outline_sorted h' d') ?_
    · rintro ⟨k, a⟩ ⟨k', b⟩ ha hb hle hge
      obtain rfl : k = k' := le_antisymm hle hge
      have hab := (hw'.mem_outline.mp ha).symm.trans (hw'.mem_outline.mp (hperm.mem_iff.mpr hb))
      rw [Option.some.inj hab]
    · exact List.pairwise_map.mpr (outline_sorted h d)

/-! What the search finds. -/

/-- What was found is what is marked, and it was found once. -/
structure Search.Orderly (s : Search) : Prop where
  seen : ∀ {id}, s.seen.contains id = true ↔ id ∈ s.order.toList
  nodup : s.order.toList.Nodup

variable {s s' : Search}

theorem Search.orderly_empty : Search.Orderly {} := ⟨by simp, List.nodup_nil⟩

theorem Search.Orderly.order_discover (ho : s.Orderly) {id : EntityId} (hid : id < h.size) :
    (s.discover h id).order.toList = addNew s.order.toList id := by
  unfold Search.discover addNew
  by_cases hm : id ∈ s.order.toList
  · simp [ho.seen.mpr hm, hm]
  · simp [mt ho.seen.mp hm, hm, hid]

theorem Search.Orderly.discover (ho : s.Orderly) {id : EntityId} (hid : id < h.size) :
    (s.discover h id).Orderly := by
  refine ⟨fun {j} => ?_, ho.order_discover hid ▸ nodup_addNew ho.nodup id⟩
  rw [ho.order_discover hid, mem_addNew, ← ho.seen]
  unfold Search.discover
  split
  · rw [Std.TreeSet.contains_insert, Bool.or_eq_true, beq_iff_eq, Nat.compare_eq_eq, or_comm,
      eq_comm (a := id)]
  · rename_i hn
    have hseen : s.seen.contains id = true := by simpa [hid] using hn
    exact ⟨.inl, fun hj => hj.elim (fun hm => hm) fun he => he ▸ hseen⟩

theorem Search.Orderly.discoverAll (ho : s.Orderly) {ids : List EntityId}
    (hids : ∀ id ∈ ids, id < h.size) : (ids.foldl (Search.discover h) s).Orderly ∧
      (ids.foldl (Search.discover h) s).order.toList = ids.foldl addNew s.order.toList := by
  induction ids generalizing s with
  | nil => exact ⟨ho, rfl⟩
  | cons id ids ih =>
    have hid : id < h.size := hids id (by simp)
    rw [List.foldl_cons, List.foldl_cons, ← ho.order_discover hid]
    exact ih (ho.discover hid) fun j hj => hids j (by simp [hj])

/-- `found` lists what fields lead to from `start`, each entity once. -/
structure Exhausts (h : Heap) (start found : List EntityId) : Prop where
  nodup : found.Nodup
  holds : start ⊆ found
  closed : ∀ {d}, d ∈ found → h.children d ⊆ found
  least : ∀ {d}, d ∈ found → ∃ root ∈ start, h.Below root d

theorem WellFormed.child_lt (hw : h.WellFormed) {d c : EntityId} (hc : c ∈ h.children d) :
    c < h.size := by
  obtain ⟨k, hf⟩ := hw.mem_children.mp hc
  exact hw.field?_lt hf

theorem Exhausts.mem_iff (hw : h.WellFormed) {start found : List EntityId}
    (he : h.Exhausts start found) {d : EntityId} :
    d ∈ found ↔ ∃ root ∈ start, h.Below root d := by
  refine ⟨he.least, ?_⟩
  rintro ⟨root, hroot, hb⟩
  induction hb with
  | refl => exact he.holds hroot
  | tail _ hstep ih => exact he.closed ih (hw.mem_children.mpr hstep)

/-- A search that starts at `d` and its children as well finds nothing more. -/
theorem Exhausts.of_children (hw : h.WellFormed) {start found : List EntityId} {d : EntityId}
    (hd : d ∈ start) (he : h.Exhausts ((h.children d).foldl addNew start) found) :
    h.Exhausts start found where
  nodup := he.nodup
  holds _ hx := he.holds (mem_foldl_addNew.mpr (.inl hx))
  closed := he.closed
  least hx := by
    obtain ⟨root, hroot, hb⟩ := he.least hx
    rcases mem_foldl_addNew.mp hroot with hroot | hroot
    · exact ⟨root, hroot, hb⟩
    · exact ⟨d, hd, .head (hw.mem_children.mp hroot) hb⟩

/-- The invariant: the children of what was looked at, the first `k` entities, are found. -/
theorem exhausts_visit (hw : h.WellFormed) (k : Nat) (s : Search) (ho : s.Orderly)
    (hk : ∀ d ∈ s.order.toList.take k, h.children d ⊆ s.order.toList) :
    h.Exhausts s.order.toList (h.visit k s) := by
  fun_induction visit h k s with
  | case1 k s hv ih =>
    have hmem : s.order[k] ∈ s.order.toList := Array.getElem_mem_toList hv
    obtain ⟨ho', horder⟩ := ho.discoverAll fun _ hc => hw.child_lt hc
    rw [horder] at ih
    refine .of_children hw hmem (ih ho' fun d hd c hc => mem_foldl_addNew.mpr ?_)
    rw [take_succ_of_extends (prefix_foldl_addNew _ _) hv, List.mem_append,
      List.mem_singleton] at hd
    rcases hd with hd | rfl
    · exact .inl (hk d hd hc)
    · exact .inr hc
  | case2 k s hv =>
    have hall : s.order.toList.take k = s.order.toList :=
      List.take_of_length_le (by simpa using hv)
    rw [hall] at hk
    exact ⟨ho.nodup, fun _ hx => hx, fun hd => hk _ hd, fun {d} hd => ⟨d, hd, .refl⟩⟩

theorem finds_lt {roots : List EntityId} (hr : ∀ root ∈ roots, root < h.size) :
    ∀ id ∈ roots.map h.find, id < h.size := by
  intro id hm
  obtain ⟨root, hroot, rfl⟩ := List.mem_map.mp hm
  exact find_lt_size (hr root hroot)

theorem exhausts_reachableFrom (hw : h.WellFormed) {roots : List EntityId}
    (hr : ∀ root ∈ roots, root < h.size) :
    h.Exhausts (roots.map h.find) (h.reachableFrom roots) := by
  obtain ⟨ho, horder⟩ := Search.orderly_empty.discoverAll (finds_lt hr)
  have he := exhausts_visit hw 0 _ ho (by simp)
  rw [horder] at he
  exact ⟨he.nodup, fun _ hm => he.holds (mem_foldl_addNew.mpr (.inr hm)), he.closed, fun hd => by
    simpa [mem_foldl_addNew] using he.least hd⟩

/-! A renaming that keeps the fields. -/

/-- `φ` renames the entities of `R`, a part of `h` that fields do not leave. -/
structure Renames (h h' : Heap) (R : Set EntityId) (φ : EntityId → EntityId) : Prop where
  inj : Set.InjOn φ R
  closed : ∀ {d k c}, d ∈ R → h.field? d k = some c → c ∈ R
  field : ∀ {d}, d ∈ R → ∀ k, h'.field? (φ d) k = (h.field? d k).map φ

variable {R : Set EntityId} {φ : EntityId → EntityId}

theorem Renames.map_children (hr : h.Renames h' R φ) (hw : h.WellFormed) (hw' : h'.WellFormed)
    {d : EntityId} (hd : d ∈ R) : h'.children (φ d) = (h.children d).map φ := by
  rw [children_eq, children_eq, (outline_map_iff hw hw').mpr (hr.field hd)]
  simp

/-- Two searches that are at one stage up to the renaming end at one order up to it. -/
theorem Renames.map_visit (hr : h.Renames h' R φ) (hw : h.WellFormed) (hw' : h'.WellFormed)
    (k : Nat) (s s' : Search) (ho : s.Orderly) (ho' : s'.Orderly)
    (hR : ∀ d ∈ s.order.toList, d ∈ R) (hs : s'.order.toList = s.order.toList.map φ) :
    h'.visit k s' = (h.visit k s).map φ := by
  have hsize : s'.order.size = s.order.size := by simpa using congrArg List.length hs
  fun_induction visit h k s generalizing s' with
  | case1 k s hv ih =>
    have hd : s.order[k] ∈ R := hR _ (Array.getElem_mem_toList hv)
    have hv' : k < s'.order.size := hsize ▸ hv
    have hget : s'.order[k] = φ s.order[k] := by
      simp [← Array.getElem_toList, hs]
    have hmap : h'.children s'.order[k] = (h.children s.order[k]).map φ := by
      rw [hget, hr.map_children hw hw' hd]
    have hchild : ∀ c ∈ h.children s.order[k], c ∈ R := fun c hc =>
      (hw.mem_children.mp hc).elim fun _ hf => hr.closed hd hf
    obtain ⟨ho₁, horder⟩ := ho.discoverAll fun _ hc => hw.child_lt hc
    obtain ⟨ho₁', horder'⟩ := ho'.discoverAll fun _ hc => hw'.child_lt hc
    have hstep : ((h'.children s'.order[k]).foldl (Search.discover h') s').order.toList =
        ((h.children s.order[k]).foldl (Search.discover h) s).order.toList.map φ := by
      rw [horder', horder, hmap, hs, map_foldl_addNew hr.inj hR hchild]
    rw [Heap.visit, dif_pos hv']
    refine ih _ ho₁ ho₁' (fun c hc => ?_) hstep (by simpa using congrArg List.length hstep)
    rw [horder, mem_foldl_addNew] at hc
    exact hc.elim (hR c) (hchild c)
  | case2 k s hv =>
    rw [Heap.visit, dif_neg (hsize ▸ hv), hs]

/-- The renaming takes the order of one search to the order of the other. -/
theorem Renames.map_reachableFrom (hr : h.Renames h' R φ) (hw : h.WellFormed)
    (hw' : h'.WellFormed) {roots roots' : List EntityId} (hlt : ∀ root ∈ roots, root < h.size)
    (hlt' : ∀ root ∈ roots', root < h'.size) (hR : ∀ root ∈ roots.map h.find, root ∈ R)
    (hroots : roots'.map h'.find = (roots.map h.find).map φ) :
    h'.reachableFrom roots' = (h.reachableFrom roots).map φ := by
  obtain ⟨ho, horder⟩ := Search.orderly_empty.discoverAll (finds_lt hlt)
  obtain ⟨ho', horder'⟩ := Search.orderly_empty.discoverAll (finds_lt hlt')
  refine hr.map_visit hw hw' 0 _ _ ho ho' (fun d hd => ?_) ?_
  · rw [horder, mem_foldl_addNew] at hd
    exact hd.elim (fun hm => absurd hm (by simp)) (hR d)
  · rw [horder', horder, hroots]
    exact (map_foldl_addNew hr.inj (List.forall_mem_nil _) hR).symm

end Heap

end SinkTrace
