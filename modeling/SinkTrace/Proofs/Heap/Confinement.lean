import SinkTrace.Proofs.Heap.Every
import SinkTrace.Proofs.Heap.Heeding

/-!
Confined heaps: every taint and every call of the sink that is waited for is one of those allowed.
No operation brings others than the ones it is given, whether or not its ids are ids of the heap.
-/

namespace SinkTrace

variable {taints taints' : TaintId → Prop} {sinks sinks' : SinkCall → Prop}

namespace Entity

variable {e e' gone : Entity}

structure Admitted (taints : TaintId → Prop) (sinks : SinkCall → Prop) (e : Entity) : Prop where
  taint : taints e.taint
  sink : ∀ edge ∈ e.deferredTaint, sinks edge.sink

/-- What a heap is confined in: the taint, and the edges that wait to bring one. -/
def burden (e : Entity) : TaintId × List DeferredTaint := (e.taint, e.deferredTaint)

theorem Admitted.congr (ha : e.Admitted taints sinks) (hb : e.burden = e'.burden) :
    e'.Admitted taints sinks := by
  obtain ⟨ht, hs⟩ := Prod.mk.inj hb
  obtain ⟨htaint, hsink⟩ := ha
  rw [ht] at htaint
  rw [hs] at hsink
  exact ⟨htaint, hsink⟩

theorem Admitted.mono (ha : e.Admitted taints sinks) (ht : ∀ t, taints t → taints' t)
    (hs : ∀ s, sinks s → sinks' s) : e.Admitted taints' sinks' :=
  ⟨ht _ ha.taint, fun edge hm => hs _ (ha.sink edge hm)⟩

theorem admitted_of_sourceless (hz : ∀ t, TaintId.Sourceless t → taints t)
    (ht : TaintId.Sourceless e.taint) (hd : e.deferredTaint = []) : e.Admitted taints sinks := by
  refine ⟨hz _ ht, fun edge hm => ?_⟩
  rw [hd] at hm
  exact absurd hm List.not_mem_nil

theorem Admitted.markDeep (hz : ∀ t, TaintId.Sourceless t → taints t)
    (ha : e.Admitted taints sinks) : e.markDeep.Admitted taints sinks := by
  refine ⟨?_, ha.sink⟩
  have hmax : e.markDeep.taint = max e.taint TaintId.input := rfl
  rw [hmax]
  rcases Nat.le_total e.taint TaintId.input with hle | hle
  · rw [Nat.max_eq_right hle]
    exact hz _ (Nat.le_refl _)
  · rw [Nat.max_eq_left hle]
    exact ha.taint

theorem Admitted.takeOver (ha : e.Admitted taints sinks) (hg : gone.Admitted taints sinks) :
    (e.takeOver gone).Admitted taints sinks := by
  refine ⟨?_, fun edge hm => ?_⟩
  · rw [taint_takeOver]
    rcases Nat.le_total e.taint gone.taint with hle | hle
    · rw [Nat.max_eq_right hle]
      exact hg.taint
    · rw [Nat.max_eq_left hle]
      exact ha.taint
  · exact (mem_deferredTaint_takeOver.mp hm).elim (ha.sink edge) (hg.sink edge)

/-- What names no source is always allowed. -/
theorem inherited_admitted (hz : ∀ t, TaintId.Sourceless t → taints t) :
    Inherited (Admitted taints sinks) where
  bare hb ha := by
    have hsame := congrArg burden hb
    exact ha.congr hsame
  fresh _ ht _ hd := admitted_of_sourceless hz ht hd
  markDeep ha := ha.markDeep hz
  takeOver ha hg := ha.takeOver hg

end Entity

namespace Heap

variable {h h' : Heap}

def Confined (taints : TaintId → Prop) (sinks : SinkCall → Prop) (h : Heap) : Prop :=
  ∀ id e, h.live? id = some e → e.Admitted taints sinks

theorem confined_empty : Confined taints sinks {} := every_empty

theorem Confined.mono (hc : h.Confined taints sinks) (ht : ∀ t, taints t → taints' t)
    (hs : ∀ s, sinks s → sinks' s) : h.Confined taints' sinks' :=
  Every.mono hc fun _ ha => ha.mono ht hs

theorem Confined.of_alike (hc : h.Confined taints sinks) (ha : Alike Entity.burden h h') :
    h'.Confined taints sinks := Every.of_alike hc (fun hb ha => ha.congr hb) ha

theorem Confined.update (hc : h.Confined taints sinks) (id : EntityId) {g : Entity → Entity}
    (hg : ∀ e, e.Admitted taints sinks → (g e).Admitted taints sinks) :
    (h.update id g).Confined taints sinks := Every.update hc id hg

theorem Confined.foldl {α : Type} {step : Heap → α → Heap}
    (hstep : ∀ h a, Confined taints sinks h → (step h a).Confined taints sinks) (as : List α)
    (hc : h.Confined taints sinks) : (as.foldl step h).Confined taints sinks :=
  Every.foldl hstep as hc

theorem Confined.raiseTaint (hc : h.Confined taints sinks) (id : EntityId) {taint : TaintId}
    (ht : taints taint) (stack : Option CallStack) :
    (h.raiseTaint id taint stack).2.Confined taints sinks := by
  unfold Heap.raiseTaint
  simp only
  split
  · exact hc
  · exact hc.update _ fun e ha => ⟨ht, ha.sink⟩

theorem Confined.addDeferredTaint (hc : h.Confined taints sinks) (owner : EntityId)
    {edge : DeferredTaint} (hs : sinks edge.sink) :
    (h.addDeferredTaint owner edge).Confined taints sinks := by
  refine hc.update _ fun e ha => ⟨ha.taint, fun other hm => ?_⟩
  rcases mem_addNew.mp hm with hm | rfl
  · exact ha.sink other hm
  · exact hs

theorem Confined.addDeferredInput (hc : h.Confined taints sinks) (owner target : EntityId) :
    (h.addDeferredInput owner target).Confined taints sinks := by
  unfold Heap.addDeferredInput
  simp only
  split
  · exact hc
  · exact hc.update _ fun e ha => ⟨ha.taint, ha.sink⟩

theorem Confined.addTargetCall (hc : h.Confined taints sinks) (id : EntityId)
    (call : TargetCall) : (h.addTargetCall id call).Confined taints sinks := by
  unfold Heap.addTargetCall
  simp only
  split
  · exact hc
  · refine hc.update _ fun e ha => ?_
    unfold Entity.addTargetCall
    split
    · exact ha
    · exact ⟨ha.taint, ha.sink⟩

theorem Confined.takeDeferredInput (hc : h.Confined taints sinks) (id : EntityId) :
    (h.takeDeferredInput id).2.Confined taints sinks :=
  hc.update id fun _ ha => ⟨ha.taint, ha.sink⟩

theorem Confined.takeDeferredTaint (hc : h.Confined taints sinks) (id : EntityId) :
    (h.takeDeferredTaint id).2.Confined taints sinks :=
  hc.update id fun _ ha => ⟨ha.taint, fun _ hm => absurd hm List.not_mem_nil⟩

/-! Operations that make or mark entities. -/

section Sourceless

variable (hz : ∀ t, TaintId.Sourceless t → taints t)

include hz

theorem Confined.entity (hc : h.Confined taints sinks) (id : EntityId) :
    (h.entity id).Admitted taints sinks := Every.entity (Entity.inherited_admitted hz) hc id

theorem Confined.within (hc : h.Confined taints sinks) : h.Within taints sinks :=
  ⟨fun id => (hc.entity hz id).taint, fun id => (hc.entity hz id).sink⟩

theorem Confined.markInput (hc : h.Confined taints sinks) (id : EntityId) :
    (h.markInput id).Confined taints sinks :=
  Every.markInput (Entity.inherited_admitted hz) hc id

theorem Confined.edits (hc : h.Confined taints sinks) (he : Edits h h') :
    h'.Confined taints sinks := Every.edits (Entity.inherited_admitted hz) hc he

theorem Confined.act {bounded : Prop} (hc : h.Confined taints sinks)
    (ha : Act bounded taints sinks h h') : h'.Confined taints sinks := by
  have hinherited : Entity.Inherited (Entity.Admitted taints sinks) := Entity.inherited_admitted hz
  cases ha with
  | create origin => exact Every.create hinherited hc origin
  | setOrigin id origin => exact hc.of_alike (alike_update h id fun _ => rfl)
  | resolve id => exact every_compress _ _ hc
  | loadField _ key => exact Every.loadField hinherited hc _ key
  | storeField _ _ key => exact Every.storeField hinherited hc _ key _
  | merge _ _ => exact Every.merge hinherited hc _ _
  | raiseTaint id ht stack => exact hc.raiseTaint id ht stack
  | markInput id => exact hc.markInput hz id
  | addTargetCall id call => exact hc.addTargetCall id call
  | addDeferredInput owner _ => exact hc.addDeferredInput owner _
  | addDeferredTaint owner _ hs => exact hc.addDeferredTaint owner hs

end Sourceless

end Heap

end SinkTrace
