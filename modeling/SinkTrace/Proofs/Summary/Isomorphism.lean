import SinkTrace.Proofs.Heap.Runs
import SinkTrace.Proofs.Summary.Marks

/-!
The marks of a summary decide isomorphism. The order in which the entities below the roots are
numbered is the same for isomorphic summaries, and the marks tell the shape of every entity in that
order; so two summaries with as many roots have the same marks exactly if one is a renaming of the
other, whatever the ids, the order of the tables and the merges that led there.
-/

namespace SinkTrace

/-- Two lists with the same images are images of each other where their members are. -/
theorem map_eq_map_iff_of {α β γ : Type} {f : α → γ} {g : β → γ} {e : β → α} {xs : List α}
    {ys : List β} (h : ∀ x ∈ xs, ∀ y ∈ ys, f x = g y ↔ x = e y) :
    xs.map f = ys.map g ↔ xs = ys.map e := by
  induction xs generalizing ys with
  | nil => simp [eq_comm]
  | cons x xs ih =>
    cases ys with
    | nil => simp
    | cons y ys =>
      rw [List.map_cons, List.map_cons, List.map_cons, List.cons.injEq, List.cons.injEq,
        h x (by simp) y (by simp), ih fun a ha b hb => h a (by simp [ha]) b (by simp [hb])]

/-- Lists of one length match position by position. -/
theorem exists_eq_map {xs ys : List EntityId} (hd : xs.Nodup) (hl : ys.length = xs.length) :
    ∃ φ : EntityId → EntityId, ys = xs.map φ := by
  refine ⟨fun d => ys.getD (xs.idxOf d) 0, List.ext_getElem (by simpa using hl) fun i hi hi' => ?_⟩
  have hxs : i < xs.length := hl ▸ hi
  simp [hd.idxOf_getElem i hxs, hi]

namespace Fingerprint

theorem numbering_concat (order : List EntityId) (id : EntityId) :
    numbering (order ++ [id]) = (numbering order).insert id order.length := by
  simp [numbering, List.zipIdx_append]

theorem getElem?_concat_eq_some {α : Type} {xs : List α} {x y : α} {i : Nat} :
    (xs ++ [x])[i]? = some y ↔ xs[i]? = some y ∨ i = xs.length ∧ x = y := by
  rcases Nat.lt_trichotomy i xs.length with hlt | rfl | hgt
  · simp [List.getElem?_append_left hlt, Nat.ne_of_lt hlt]
  · simp
  · have hi : ¬i < xs.length + 1 := by omega
    simp [hi, Nat.not_lt_of_gt hgt, Nat.ne_of_gt hgt]

theorem numbering_get? {order : List EntityId} (hd : order.Nodup) {id i : Nat} :
    (numbering order).get? id = some i ↔ order[i]? = some id := by
  induction order using List.reverseRecOn with
  | nil => simp [numbering]
  | append_singleton order x ih =>
    obtain ⟨hd, hx⟩ : order.Nodup ∧ x ∉ order := by
      simpa [List.nodup_append, and_comm, imp_not_comm] using hd
    have hnone : ∀ j, order[j]? ≠ some x := fun j hj => hx (List.mem_of_getElem? hj)
    rw [numbering_concat, getElem?_concat_eq_some, Std.TreeMap.get?_eq_getElem?,
      Std.TreeMap.getElem?_insert]
    by_cases he : x = id
    · subst he
      simp [hnone, eq_comm]
    · simpa [he] using ih hd

/-- Where one order renames another, equal numbers are those of corresponding entities. -/
theorem number_eq_iff {order order' : List EntityId} (hd : order.Nodup) (hd' : order'.Nodup)
    {φ : EntityId → EntityId} (ho : order' = order.map φ) {c c' : EntityId} (hc : c ∈ order) :
    (numbering order').get? c' = (numbering order).get? c ↔ c' = φ c := by
  obtain ⟨i, hi⟩ := List.mem_iff_getElem?.mp hc
  rw [(numbering_get? hd).mpr hi, numbering_get? hd', ho, List.getElem?_map, hi]
  simp [eq_comm]

theorem targetNames_eq_iff {e e' : Entity} : targetNames e = targetNames e' ↔
    (e.targetCalls.map TargetCall.signature).Perm (e'.targetCalls.map TargetCall.signature) := by
  have hsorted : ∀ e : Entity, (targetNames e).Pairwise (· ≤ ·) := fun e =>
    (List.pairwise_mergeSort (by simpa using fun a b c => le_trans)
      (by simpa using fun a b => le_total a b) _).imp fun hle => by simpa using hle
  have hperm : ∀ e : Entity, (targetNames e).Perm (e.targetCalls.map TargetCall.signature) :=
    fun e => List.mergeSort_perm _ _
  refine ⟨fun he => (hperm e).symm.trans (he ▸ hperm e'), fun hp => ?_⟩
  exact ((hperm e).trans (hp.trans (hperm e').symm)).eq_of_pairwise
    (fun _ _ _ _ => le_antisymm) (hsorted e) (hsorted e')

end Fingerprint

namespace MethodSummary

/-- The heap keeps its invariant, and the roots are in it. -/
structure Rooted (s : MethodSummary) : Prop where
  heap : s.heap.WellFormed
  root_lt : ∀ {root}, some root ∈ s.roots → root < s.heap.size

theorem rooted_of_reachable {s : MethodSummary} (hr : s.heap.Reachable)
    (hlt : ∀ {root}, some root ∈ s.roots → root < s.heap.size) : s.Rooted :=
  ⟨hr.proper.wellFormed, hlt⟩

/-- Fields lead to it from a root. -/
def Reaches (s : MethodSummary) (d : EntityId) : Prop :=
  ∃ root, some root ∈ s.anchors ∧ s.heap.Below root d

/-- `φ` takes with it the fields of `d` and what is recorded on it. -/
structure Matches (canonical canonical' : TaintId → TaintId) (h h' : Heap)
    (φ : EntityId → EntityId) (d : EntityId) : Prop where
  field : ∀ k, h'.field? (φ d) k = (h.field? d k).map φ
  taint : canonical' (h'.taint (φ d)) = canonical (h.taint d)
  deep : (h'.entity (φ d)).deep = (h.entity d).deep
  calls : ((h'.entity (φ d)).targetCalls.map TargetCall.signature).Perm
    ((h.entity d).targetCalls.map TargetCall.signature)
  inputs : (h'.entity (φ d)).deferredInput.size = (h.entity d).deferredInput.size
  taints : (h'.entity (φ d)).deferredTaint.length = (h.entity d).deferredTaint.length

/-- `φ` renames the entities below the roots of `s` to those below the roots of `s'`, root for
root. -/
structure Isomorphism (canonical canonical' : TaintId → TaintId) (s s' : MethodSummary)
    (φ : EntityId → EntityId) : Prop where
  bijective : Set.BijOn φ {d | s.Reaches d} {d | s'.Reaches d}
  roots : s'.anchors = s.anchors.map (Option.map φ)
  entities : ∀ {d}, s.Reaches d → Matches canonical canonical' s.heap s'.heap φ d

variable {canonical canonical' : TaintId → TaintId} {s s' : MethodSummary}
  {φ : EntityId → EntityId}

theorem map_find_roots (s : MethodSummary) :
    (s.roots.filterMap id).map s.heap.find = s.anchors.filterMap id := by
  simp [anchors, List.map_filterMap, List.filterMap_map]

theorem Rooted.exhausts (hs : s.Rooted) :
    s.heap.Exhausts (s.anchors.filterMap id) s.order := by
  rw [← map_find_roots]
  exact Heap.exhausts_reachableFrom hs.heap fun root hm => hs.root_lt (by simpa using hm)

theorem Rooted.mem_order (hs : s.Rooted) {d : EntityId} : d ∈ s.order ↔ s.Reaches d := by
  rw [hs.exhausts.mem_iff hs.heap]
  simp [Reaches]

theorem Rooted.anchor_mem (hs : s.Rooted) {root : EntityId} (hm : some root ∈ s.anchors) :
    root ∈ s.order := hs.exhausts.holds (by simpa using hm)

theorem Rooted.child_mem (hs : s.Rooted) {d c : EntityId} {k : FieldName} (hd : d ∈ s.order)
    (hf : s.heap.field? d k = some c) : c ∈ s.order :=
  hs.exhausts.closed hd (hs.heap.mem_children.mpr ⟨k, hf⟩)

/-- Isomorphic summaries number their entities in the same order. -/
theorem Isomorphism.order_eq (hi : Isomorphism canonical canonical' s s' φ) (hs : s.Rooted)
    (hs' : s'.Rooted) : s'.order = s.order.map φ := by
  have hr : s.heap.Renames s'.heap {d | s.Reaches d} φ := by
    refine ⟨hi.bijective.injOn, fun {d k c} hd hf => ?_, fun hd => (hi.entities hd).field⟩
    exact hs.mem_order.mp (hs.child_mem (hs.mem_order.mpr hd) hf)
  refine hr.map_reachableFrom hs.heap hs'.heap (fun root hm => hs.root_lt (by simpa using hm))
    (fun root hm => hs'.root_lt (by simpa using hm)) (fun root hm => ?_) ?_
  · rw [map_find_roots] at hm
    exact hs.mem_order.mp (hs.anchor_mem (by simpa using hm))
  · rw [map_find_roots, map_find_roots, hi.roots]
    simp [List.filterMap_map, List.map_filterMap]

/-- Where the order is the same, shapes are the same exactly for entities that match. -/
theorem shape_eq_iff (hs : s.Rooted) (hs' : s'.Rooted) (ho : s'.order = s.order.map φ)
    {d : EntityId} (hd : d ∈ s.order) :
    Fingerprint.shape canonical' s'.heap s'.numbers (φ d) =
      Fingerprint.shape canonical s.heap s.numbers d ↔
        Matches canonical canonical' s.heap s'.heap φ d := by
  have hfields : (s'.heap.outline (φ d)).map (Prod.map id s'.numbers.get?) =
      (s.heap.outline d).map (Prod.map id s.numbers.get?) ↔
        ∀ k, s'.heap.field? (φ d) k = (s.heap.field? d k).map φ := by
    rw [← Heap.outline_map_iff hs.heap hs'.heap]
    refine map_eq_map_iff_of ?_
    rintro ⟨k', c'⟩ - ⟨k, c⟩ hm
    have hc : c ∈ s.order := hs.child_mem hd (hs.heap.mem_outline.mp hm)
    rw [Prod.map_apply, Prod.map_apply, Prod.map_apply, Prod.mk.injEq, Prod.mk.injEq, numbers,
      numbers, Fingerprint.number_eq_iff hs.exhausts.nodup hs'.exhausts.nodup ho hc]
    rfl
  simp only [Fingerprint.shape, Fingerprint.Shape.mk.injEq]
  rw [hfields, Fingerprint.targetNames_eq_iff]
  refine ⟨?_, fun hm => ⟨hm.taint, hm.deep, hm.field, hm.calls, hm.inputs, hm.taints⟩⟩
  rintro ⟨htaint, hdeep, hfield, hcalls, hinputs, htaints⟩
  exact ⟨hfield, htaint, hdeep, hcalls, hinputs, htaints⟩

theorem rootNumbers_eq_iff (hs : s.Rooted) (hs' : s'.Rooted) (ho : s'.order = s.order.map φ) :
    s'.rootNumbers = s.rootNumbers ↔ s'.anchors = s.anchors.map (Option.map φ) := by
  refine map_eq_map_iff_of ?_
  rintro (_ | root') hm' (_ | root) hm
  · simp
  · simp
  · simp
  · simp only [Option.map_some, Option.some.injEq]
    exact Fingerprint.number_eq_iff hs.exhausts.nodup hs'.exhausts.nodup ho (hs.anchor_mem hm)

/-- Where the order is the same, its renaming is an isomorphism exactly if the roots have the same
numbers and the entities the same shapes. -/
theorem isomorphism_iff (hs : s.Rooted) (hs' : s'.Rooted) (ho : s'.order = s.order.map φ) :
    Isomorphism canonical canonical' s s' φ ↔
      s'.rootNumbers = s.rootNumbers ∧ s'.shapes canonical' = s.shapes canonical := by
  have hshapes : s'.shapes canonical' = s.shapes canonical ↔
      ∀ d ∈ s.order, Matches canonical canonical' s.heap s'.heap φ d := by
    rw [shapes, shapes, ho, List.map_map, List.map_inj_left]
    exact forall₂_congr fun d hd => shape_eq_iff hs hs' ho hd
  rw [rootNumbers_eq_iff hs hs' ho, hshapes]
  constructor
  · exact fun hi => ⟨hi.roots, fun d hd => hi.entities (hs.mem_order.mp hd)⟩
  · rintro ⟨hr, hm⟩
    have hreach : ∀ {d'}, s'.Reaches d' ↔ ∃ d, s.Reaches d ∧ φ d = d' := by
      intro d'
      simp only [← hs'.mem_order, ← hs.mem_order, ho, List.mem_map]
    have hinj : Set.InjOn φ {d | s.Reaches d} := fun a ha b hb =>
      List.inj_on_of_nodup_map (ho ▸ hs'.exhausts.nodup) (hs.mem_order.mpr ha)
        (hs.mem_order.mpr hb)
    exact ⟨⟨fun d hd => hreach.mpr ⟨d, hd, rfl⟩, hinj, fun d' hd' => hreach.mp hd'⟩, hr,
      fun hd => hm _ (hs.mem_order.mpr hd)⟩

/-- The marks of two summaries with as many roots are the same exactly if the summaries are
isomorphic. -/
theorem fingerprint_eq_iff (hs : s.Rooted) (hs' : s'.Rooted)
    (hl : s.roots.length = s'.roots.length) :
    (Summary.computed s).fingerprint canonical = (Summary.computed s').fingerprint canonical' ↔
      ∃ φ, Isomorphism canonical canonical' s s' φ := by
  rw [eq_comm, fingerprint_eq_iff_shapes hl.symm]
  constructor
  · rintro ⟨hr, hsh⟩
    have hlength : s'.order.length = s.order.length := by
      simpa [shapes] using congrArg List.length hsh
    -- the entities with the same number correspond
    obtain ⟨φ, ho⟩ := exists_eq_map hs.exhausts.nodup hlength
    exact ⟨φ, (isomorphism_iff hs hs' ho).mpr ⟨hr, hsh⟩⟩
  · rintro ⟨φ, hi⟩
    exact (isomorphism_iff hs hs' (hi.order_eq hs hs')).mp hi

/-- A summary of a method that returns its argument. -/
def echo (heap : Heap) (argument : EntityId) : MethodSummary where
  heap
  staticRoot := none
  arguments := [some argument]
  result := some argument
  calls := 0
  instructions := 0
  stack := .empty

theorem rooted_echo {h : Heap} {argument : EntityId} (hr : h.Reachable) (ha : argument < h.size) :
    (echo h argument).Rooted := by
  refine rooted_of_reachable hr fun {root} hm => ?_
  obtain rfl : root = argument := by simpa [echo, roots] using hm
  exact ha

/-- An entity that is its own successor. -/
def loop : Heap := (Heap.create {} none).2.storeField 0 "next" 0

theorem reachable_loop : loop.Reachable ∧ 0 < loop.size := by
  have hstart : (Heap.create {} none).2.Reachable :=
    Relation.ReflTransGen.single (.create none)
  have hsize : 0 < (Heap.create {} none).2.size := by decide
  have hstore := Heap.Step.storeField hsize hsize "next"
  exact ⟨hstart.step hstore, (hstore.evolves hstart.proper).lt_size hsize⟩

/-- In the second summary the loop came about by a merge, and the root is the id that was merged
away. -/
theorem echo_isomorphic : (echo loop 0).Rooted ∧ (echo Heap.knot 1).Rooted ∧
    (echo loop 0).roots.length = (echo Heap.knot 1).roots.length ∧
    ∃ φ, Isomorphism id id (echo loop 0) (echo Heap.knot 1) φ := by
  have hring := rooted_echo reachable_loop.1 reachable_loop.2
  have hknot := rooted_echo Heap.reachable_knot.1 Heap.reachable_knot.2
  refine ⟨hring, hknot, rfl, (fingerprint_eq_iff hring hknot rfl).mp ?_⟩
  rw [Heap.knot_eq]
  decide +kernel

end MethodSummary

end SinkTrace
