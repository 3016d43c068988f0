import SinkTrace.Proofs.Heap.GlueRuns
import SinkTrace.Heap.Reach

/-!
Whole runs of the heap. Any sequence of operations on valid ids, gluing with any hooks included,
leaves an arena whose forwards descend and whose edges are known at both ends.
-/

namespace SinkTrace

namespace Heap

/-- One operation on valid ids. A context that glues callees may have been used before; all that
is asked of it is that its matched entities are ids of the heap. -/
inductive Step : Heap → Heap → Prop where
  | create {h : Heap} (origin : Option Origin) : Step h (h.create origin).2
  | setOrigin {h : Heap} {id : EntityId} (hid : id < h.size) (origin : Origin) :
    Step h (h.setOrigin id origin)
  | resolve {h : Heap} {id : EntityId} (hid : id < h.size) : Step h (h.resolve id).2
  | loadField {h : Heap} {owner : EntityId} (ho : owner < h.size) (key : FieldName) :
    Step h (h.loadField owner key).2
  | storeField {h : Heap} {owner value : EntityId} (ho : owner < h.size) (hv : value < h.size)
    (key : FieldName) : Step h (h.storeField owner key value)
  | merge {h : Heap} {a b : EntityId} (ha : a < h.size) (hb : b < h.size) : Step h (h.merge a b).2
  | raiseTaint {h : Heap} {id : EntityId} (hid : id < h.size) (taint : TaintId)
    (stack : Option CallStack) : Step h (h.raiseTaint id taint stack).2
  | markInput {h : Heap} {id : EntityId} (hid : id < h.size) : Step h (h.markInput id)
  | addTargetCall {h : Heap} {id : EntityId} (hid : id < h.size) (call : TargetCall) :
    Step h (h.addTargetCall id call)
  | addDeferredInput {h : Heap} {owner target : EntityId} (ho : owner < h.size)
    (ht : target < h.size) : Step h (h.addDeferredInput owner target)
  | addDeferredTaint {h : Heap} {owner : EntityId} {edge : DeferredTaint} (ho : owner < h.size)
    (ht : edge.target < h.size) : Step h (h.addDeferredTaint owner edge)
  | takeDeferredInput {h : Heap} {id : EntityId} (hid : id < h.size) :
    Step h (h.takeDeferredInput id).2
  | takeDeferredTaint {h : Heap} {id : EntityId} (hid : id < h.size) :
    Step h (h.takeDeferredTaint id).2
  | drainTransitions {h : Heap} : Step h h.drainTransitions.2
  | glue {σ : Type} (callee : Heap) (r : Rebasing σ) (mode : GlueMode) (g : Glue σ)
    (hm : ∀ {c d}, g.matched.get? c = some d → d < g.caller.size) (root : EntityId)
    {actual : EntityId} (ha : actual < g.caller.size) :
    Step g.caller (g.apply callee r mode root actual).2.caller
  | matchedValue {σ : Type} (callee : Heap) (r : Rebasing σ) (mode : GlueMode) (g : Glue σ)
    (hm : ∀ {c d}, g.matched.get? c = some d → d < g.caller.size) (id : EntityId) :
    Step g.caller (g.matchedValue callee r mode id).2.caller

/-- Built by operations from nothing. -/
def Reachable (h : Heap) : Prop := Relation.ReflTransGen Step {} h

variable {h h' : Heap}

theorem Step.evolves (hs : Step h h') (hp : h.Proper) : Evolves h h' := by
  cases hs with
  | create origin => exact hp.create origin
  | setOrigin _ origin => exact hp.setOrigin _ origin
  | resolve _ => exact hp.resolve _
  | loadField ho key => exact hp.loadField ho key
  | storeField ho hv key => exact hp.storeField ho hv key
  | merge ha hb => exact hp.merge ha hb
  | raiseTaint _ taint stack => exact hp.raiseTaint _ taint stack
  | markInput _ => exact hp.markInput _
  | addTargetCall _ call => exact hp.addTargetCall _ call
  | addDeferredInput _ ht => exact hp.addDeferredInput _ ht
  | addDeferredTaint _ ht => exact hp.addDeferredTaint _ ht
  | takeDeferredInput _ => exact hp.takeDeferredInput _
  | takeDeferredTaint _ => exact hp.takeDeferredTaint _
  | drainTransitions => exact hp.drainTransitions
  | glue callee r mode g hm root ha =>
    have hstep := (Glue.Valid.mk hp hm).apply callee r mode root ha
    exact ⟨hstep.valid.proper, hstep.grows⟩
  | matchedValue callee r mode g hm id =>
    have hstep := (Glue.Valid.mk hp hm).matchedValue callee r mode id
    exact ⟨hstep.valid.proper, hstep.grows⟩

theorem Reachable.proper (hr : h.Reachable) : h.Proper := by
  induction hr with
  | refl => exact proper_empty
  | tail _ hs ih => exact (hs.evolves ih).proper

theorem Reachable.step (hr : h.Reachable) (hs : Step h h') : h'.Reachable := hr.tail hs

/-- Ids, and with them contexts that glue callees, stay valid during a run. -/
theorem Reachable.grows (hr : h.Reachable) (hs : Relation.ReflTransGen Step h h') :
    Grows h h' := by
  induction hs with
  | refl => exact Grows.refl h
  | tail hpre hs ih =>
    have hmid : Reachable _ := Relation.ReflTransGen.trans hr hpre
    exact ih.trans (hs.evolves hmid.proper).grows

/-! The checks of a heap as they are computed. -/

theorem countP_range_getElem? (l : List Node) :
    (List.range l.length).countP (fun i => l[i]?.any Node.isLive) = l.countP Node.isLive := by
  induction l with
  | nil => rfl
  | cons n l ih =>
    rw [List.length_cons, List.range_succ_eq_map, List.countP_cons, List.countP_map,
      List.countP_cons]
    simp only [Function.comp_def, List.getElem?_cons_succ, List.getElem?_cons_zero, ih,
      Option.any_some]

theorem length_liveIds (h : Heap) : h.liveIds.length = h.liveTotal := by
  have hcount := countP_range_getElem? h.nodes.toList
  simp only [Array.length_toList, Array.getElem?_toList, Array.countP_toList] at hcount
  rw [liveTotal, ← hcount, liveIds, ← List.countP_eq_length_filter, size]

theorem mem_liveIds {id : EntityId} : id ∈ h.liveIds ↔ ∃ e, h.live? id = some e := by
  have hlive : h.nodes[id]?.any Node.isLive = true ↔ ∃ e, h.live? id = some e := by
    unfold live?
    cases h.nodes[id]? with
    | none => simp
    | some n => cases n <;> simp [Node.isLive]
  rw [liveIds, List.mem_filter, List.mem_range, hlive]
  exact ⟨And.right, fun he => ⟨lt_size_of_live? he.choose_spec, he⟩⟩

theorem WellFormed.isConsistent (hw : h.WellFormed) : h.isConsistent = true := by
  unfold Heap.isConsistent
  rw [List.all_eq_true]
  intro id hid
  obtain ⟨e, he⟩ := mem_liveIds.mp hid
  rw [entity_of_live? he, Bool.and_eq_true, List.all_eq_true, List.all_eq_true]
  constructor
  · rintro ⟨key, child⟩ hm
    obtain ⟨ec, hc, hback⟩ := hw.child he ((Table.mem_entries_iff (hw.keys he) key child).mp hm)
    simp [fieldAgrees, find_of_live? hc, entity_of_live? hc, hback]
  · rintro ⟨parent, key⟩ hm
    obtain ⟨ep, hp, hg⟩ := hw.parent he hm
    simp [parentAgrees, find_of_live? hp, entity_of_live? hp, hg]

/-- After any run forwards lead to smaller ids and every id to a live entity, the counter counts
the live entities, and every edge leads to a live entity that has its counterpart. -/
theorem reachable_consistent (hr : h.Reachable) :
    (∀ id next : EntityId, h.nodes[id]? = some (.forwarded next) → next < id) ∧
    (∀ id, id < h.size → ∃ e : Entity, h.nodes[h.find id]? = some (.live e)) ∧
    h.liveCount = h.liveIds.length ∧
    h.isConsistent = true ∧
    ∀ (id : EntityId) (e : Entity), h.nodes[id]? = some (.live e) →
      (∀ key child, (key, child) ∈ e.fields.entries →
        ∃ e' : Entity, h.nodes[child]? = some (.live e') ∧ (id, key) ∈ e'.parents) ∧
      ∀ parent key, (parent, key) ∈ e.parents →
        ∃ e' : Entity, h.nodes[parent]? = some (.live e') ∧ e'.fields.get? key = some id := by
  have hw := hr.proper.wellFormed
  refine ⟨fun id next hn => ?_, fun id hid => ?_, ?_, hw.isConsistent, fun id e he => ?_⟩
  · exact hw.descending id next (next?_eq_some.mpr hn)
  · obtain ⟨e, he⟩ := hw.descending.live?_find hid
    exact ⟨e, live?_eq_some.mp he⟩
  · rw [length_liveIds]
    exact hw.count
  · have hlive := live?_eq_some.mpr he
    constructor
    · intro key child hm
      have hg := (Table.mem_entries_iff (hw.keys hlive) key child).mp hm
      obtain ⟨ec, hc, hback⟩ := hw.child hlive hg
      exact ⟨ec, live?_eq_some.mp hc, hback⟩
    · intro parent key hm
      obtain ⟨ep, hp, hg⟩ := hw.parent hlive hm
      exact ⟨ep, live?_eq_some.mp hp, hg⟩

/-- An entity that was stored into a field of its own and merged with another one. -/
def knot : Heap :=
  ((((create {} none).2.create none).2.storeField 1 "next" 1).merge 0 1).2

theorem knot_eq : knot =
    ((((create {} none).2.create none).2.storeField 1 "next" 1).absorb 0 1).heap := by
  refine merge_of_apart ?_ ?_ ?_ ?_ ?_ ?_ <;> decide +kernel

theorem reachable_knot : knot.Reachable ∧ 1 < knot.size := by
  have h₀ : Reachable {} := .refl
  have h₁ := h₀.step (.create none)
  have h₂ := h₁.step (.create none)
  have hown : 1 < ((create {} none).2.create none).2.size := by decide
  have hstore := Step.storeField hown hown "next"
  have h₃ := h₂.step hstore
  have hgrown := (hstore.evolves h₂.proper).lt_size hown
  have hmerge := Step.merge (Nat.lt_of_le_of_lt (Nat.zero_le 1) hgrown) hgrown
  exact ⟨h₃.step hmerge, (hmerge.evolves h₃.proper).lt_size hgrown⟩

theorem knot_consistent :
    knot.Reachable ∧ knot.liveCount = knot.liveIds.length ∧ knot.isConsistent = true :=
  have hc := reachable_consistent reachable_knot.1
  ⟨reachable_knot.1, hc.2.2.1, hc.2.2.2.1⟩

end Heap

end SinkTrace
