import SinkTrace.Proofs.Heap.FieldPaths
import SinkTrace.Proofs.Interpreter.SlotValues

/-!
What slots denote. A slot stands for accesses: entities with the fields that are still to be
followed from them. Materializing a slot loads what its accesses lead to. A slot may be overwritten
by then, but only by the rest of the accesses that it had.
-/

namespace SinkTrace

/-- The fields `path` one after another, from an entity. -/
structure Access where
  start : EntityId
  path : List FieldName

namespace Access

/-- What the access leads to, if all its fields are there. -/
def end? (a : Access) (h : Heap) : Option EntityId := h.follow? a.start a.path

/-- `b` is the rest of `a`: the fields that `a` has before it lead to where `b` starts. -/
def Rest (h : Heap) (a b : Access) : Prop :=
  ∃ path, a.path = path ++ b.path ∧ h.follow? a.start path = some (h.find b.start)

variable {h h' : Heap} {a b c : Access}

theorem Rest.refl (h : Heap) (a : Access) : Rest h a a := ⟨[], rfl, rfl⟩

theorem Rest.trans (hab : Rest h a b) (hbc : Rest h b c) : Rest h a c := by
  obtain ⟨p, hp, hfp⟩ := hab
  obtain ⟨q, hq, hfq⟩ := hbc
  refine ⟨p ++ q, by rw [hp, hq, List.append_assoc], ?_⟩
  rw [Heap.follow?_append_of_some hfp, Heap.follow?_find, hfq]

theorem Rest.grows (hr : Rest h a b) (hg : Heap.Grows h h') : Rest h' a b := by
  obtain ⟨p, hp, hf⟩ := hr
  exact ⟨p, hp, (hg.follow? hf).trans (congrArg some (hg.find b.start))⟩

theorem Rest.end?_eq (hr : Rest h a b) : a.end? h = b.end? h := by
  obtain ⟨p, hp, hf⟩ := hr
  rw [end?, end?, hp, Heap.follow?_append_of_some hf, Heap.follow?_find]

theorem rest_entity {e : EntityId} : Rest h a ⟨e, []⟩ ↔ a.end? h = some (h.find e) := by
  simp [Rest, end?]

theorem rest_of_find {u v : EntityId} (hf : h.find u = h.find v) (path : List FieldName) :
    Rest h ⟨u, path⟩ ⟨v, path⟩ := ⟨[], rfl, congrArg some hf⟩

end Access

namespace Heap

open Access

variable {h h' h'' grown : Heap} {φ : EntityId → EntityId} {as bs : List Access}
  {found more : List EntityId}

/-- `grown` is the heap after all the accesses were loaded, with `found` at their ends. -/
structure Gathers (h : Heap) (as : List Access) (found : List EntityId) (grown : Heap) :
    Prop where
  starts : ∀ a ∈ as, a.start < h.size
  evolves : Evolves h grown
  lt : ∀ e ∈ found, e < grown.size
  reached : ∀ a ∈ as, ∃ e ∈ found, a.end? grown = some (grown.find e)
  only : ∀ e ∈ found, ∃ a ∈ as, a.end? grown = some (grown.find e)
  redrawn : ∀ {h' φ}, h'.Proper → h.Shows h'.drawn φ →
    (∀ a ∈ as, ∃ w, h'.follow? (φ a.start) a.path = some w) → Redrawn h' φ h grown

theorem Gathers.nil (hp : h.Proper) : Gathers h [] [] h where
  starts := nofun
  evolves := .refl hp
  lt := nofun
  reached := nofun
  only := nofun
  redrawn _ hs _ := .refl hs

theorem Gathers.append (hg : Gathers h as found h') (hg' : Gathers h' bs more grown)
    (hb : ∀ b ∈ bs, b.start < h.size) : Gathers h (as ++ bs) (found ++ more) grown := by
  have hrest := hg'.evolves.grows
  have hlift : ∀ {a : Access} {e}, a.end? h' = some (h'.find e) →
      a.end? grown = some (grown.find e) := fun hend =>
    (hrest.follow? hend).trans (congrArg some (hrest.find _))
  refine ⟨fun a hm => ?_, hg.evolves.trans hg'.evolves, fun e hm => ?_, fun a hm => ?_,
    fun e hm => ?_, fun {k φ} hk hs hends => ?_⟩
  · exact (List.mem_append.mp hm).elim (hg.starts a) (hb a)
  · exact (List.mem_append.mp hm).elim (fun hm => hg'.evolves.lt_size (hg.lt e hm)) (hg'.lt e)
  · rcases List.mem_append.mp hm with hm | hm
    · obtain ⟨e, he, hend⟩ := hg.reached a hm
      exact ⟨e, List.mem_append_left _ he, hlift hend⟩
    · obtain ⟨e, he, hend⟩ := hg'.reached a hm
      exact ⟨e, List.mem_append_right _ he, hend⟩
  · rcases List.mem_append.mp hm with hm | hm
    · obtain ⟨a, ha, hend⟩ := hg.only e hm
      exact ⟨a, List.mem_append_left _ ha, hlift hend⟩
    · obtain ⟨a, ha, hend⟩ := hg'.only e hm
      exact ⟨a, List.mem_append_right _ ha, hend⟩
  · obtain ⟨φ₁, hold₁, hs₁⟩ := hg.redrawn hk hs fun a hm => hends a (List.mem_append_left _ hm)
    obtain ⟨φ₂, hold₂, hs₂⟩ := hg'.redrawn hk hs₁ fun b hm => by
      rw [hold₁ _ (hb b hm)]
      exact hends b (List.mem_append_right _ hm)
    exact ⟨φ₂, fun u hu => (hold₂ u (hg.evolves.lt_size hu)).trans (hold₁ u hu), hs₂⟩

/-- Accesses may start anywhere in an entity that is one. -/
theorem Gathers.congr (hg : Gathers h as found grown) (hb : ∀ b ∈ bs, b.start < h.size)
    (hab : ∀ a ∈ as, ∃ b ∈ bs, h.find b.start = h.find a.start ∧ b.path = a.path)
    (hba : ∀ b ∈ bs, ∃ a ∈ as, h.find b.start = h.find a.start ∧ b.path = a.path) :
    Gathers h bs found grown := by
  have hend : ∀ {a b : Access}, h.find b.start = h.find a.start → b.path = a.path →
      b.end? grown = a.end? grown := by
    intro a b hf hp
    rw [end?, end?, hp, follow?_congr (hg.evolves.grows.same hf)]
  refine ⟨hb, hg.evolves, hg.lt, fun b hm => ?_, fun e hm => ?_, fun {k φ} hk hs hends => ?_⟩
  · obtain ⟨a, ha, hf, hp⟩ := hba b hm
    rw [hend hf hp]
    exact hg.reached a ha
  · obtain ⟨a, ha, hend'⟩ := hg.only e hm
    obtain ⟨b, hm, hf, hp⟩ := hab a ha
    exact ⟨b, hm, (hend hf hp).trans hend'⟩
  · refine hg.redrawn hk hs fun a ha => ?_
    obtain ⟨b, hm, hf, hp⟩ := hab a ha
    obtain ⟨w, hw⟩ := hends b hm
    have hsame : k.find (φ b.start) = k.find (φ a.start) := hs.same (hb b hm) (hg.starts a ha) hf
    exact ⟨w, by rw [← hp, ← follow?_congr hsame, hw]⟩

theorem Proper.gathers_loadPath (hp : h.Proper) {u : EntityId} (hu : u < h.size)
    (path : List FieldName) :
    Gathers h [⟨u, path⟩] [(h.loadPath u path).1] (h.loadPath u path).2 := by
  have hl := hp.loadPath hu path
  refine ⟨fun a hm => ?_, hl.evolves, fun e hm => ?_, fun a hm => ?_, fun e hm => ?_,
    fun {k φ} hk hs hends => ?_⟩
  · exact List.mem_singleton.mp hm ▸ hu
  · exact List.mem_singleton.mp hm ▸ hl.lt
  · exact ⟨_, List.mem_singleton_self _, List.mem_singleton.mp hm ▸ hl.follow?⟩
  · exact ⟨_, List.mem_singleton_self _, List.mem_singleton.mp hm ▸ hl.follow?⟩
  · obtain ⟨w, hw⟩ := hends _ (List.mem_singleton_self _)
    exact hs.loadPath hp hk hu hw

/-- One path from several entities. -/
theorem Gathers.followPaths {path : List FieldName} {us : List EntityId}
    (hg : Gathers h as found h') (hu : ∀ u ∈ us, u < h.size) :
    Gathers h (as ++ us.map (Access.mk · path))
      (us.foldl (Store.followPath path) (found, h')).1
      (us.foldl (Store.followPath path) (found, h')).2 := by
  induction us generalizing as found h' with
  | nil =>
    rw [List.map_nil, List.append_nil]
    exact hg
  | cons u us ih =>
    have hlt := hu u (List.mem_cons_self ..)
    have hone := hg.evolves.proper.gathers_loadPath (hg.evolves.lt_size hlt) path
    have hnext := hg.append hone fun b hm => List.mem_singleton.mp hm ▸ hlt
    have hrest := ih hnext fun v hv => hu v (List.mem_cons_of_mem _ hv)
    rw [List.append_assoc] at hrest
    exact hrest

end Heap

end SinkTrace
