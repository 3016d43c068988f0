import SinkTrace.Engine.Session
import SinkTrace.Engine.Statistics
import SinkTrace.Findings.Basic
import SinkTrace.Heap.Deferred
import SinkTrace.Summary.Cache

/-!
What a run gathers, and settling a heap. A change of a taint can make edges due, and firing them
changes further taints; settling goes on until the log of changes is empty. It ends because every
round with something to fire uses edges up.
-/

namespace SinkTrace

structure Ledger where
  cache : Cache := {}
  session : Session := {}
  findings : Findings := {}
  statistics : Statistics := {}
deriving Inhabited

namespace Ledger

def count (l : Ledger) (f : Statistics → Statistics) : Ledger :=
  { l with statistics := f l.statistics }

/-- The source of a call of the sink, registered when it comes up for the first time in a run. -/
def sourceFor (l : Ledger) (call : SinkCall) : TaintId × Ledger :=
  match l.session.source? call.stack call.offset with
  | some id => (l.findings.resolve id, l)
  | none =>
    let caller := (call.stack.top?.map SummaryKey.signature).getD call.signature
    let (id, findings) := l.findings.addSource caller call.stack
    (id, { l with
      findings
      session := l.session.remember call.stack call.offset id
      statistics := { l.statistics with sinkInterceptions := l.statistics.sinkInterceptions + 1 } })

/-- Gives the target of an edge the taint of the sink call. -/
def fireTaint (state : Heap × Ledger) (edge : DeferredTaint) : Heap × Ledger :=
  let (h, l) := state
  let (source, l) := l.sourceFor edge.sink
  ((h.raiseTaint edge.target source (some edge.sink.stack)).2, l)

/-- Reports the calls recorded on a tainted entity. -/
def reportCalls (l : Ledger) (taint : TaintId) (calls : List TargetCall) : Ledger :=
  if TaintId.isTainted taint then
    { l with findings := calls.foldl (fun f call => (f.addTrigger taint call).2) l.findings }
  else l

/-- Fires all that waits for an entity, if it is input by now. -/
def fire (state : Heap × Ledger) (id : EntityId) : Heap × Ledger :=
  let (h, l) := state
  let taint := h.taint id
  if TaintId.isInput taint then
    let (edges, h) := h.takeDeferredTaint id
    let (h, l) := edges.foldl fireTaint (h, l)
    let (targets, h) := h.takeDeferredInput id
    let h := targets.foldl Heap.markInput h
    (h, l.reportCalls taint (h.entity id).targetCalls)
  else (h, l)

theorem deferred_fireTaint_le (state : Heap × Ledger) (edge : DeferredTaint) :
    (fireTaint state edge).1.deferred ≤ state.1.deferred :=
  Heap.deferred_raiseTaint_le _ _ _ _

theorem deferred_fireTaints_le (edges : List DeferredTaint) (state : Heap × Ledger) :
    (edges.foldl fireTaint state).1.deferred ≤ state.1.deferred := by
  induction edges generalizing state with
  | nil => exact Nat.le_refl _
  | cons edge edges ih => exact Nat.le_trans (ih _) (deferred_fireTaint_le state edge)

theorem deferred_markInputs_le (targets : List EntityId) (h : Heap) :
    (targets.foldl Heap.markInput h).deferred ≤ h.deferred := by
  induction targets generalizing h with
  | nil => exact Nat.le_refl _
  | cons t targets ih => exact Nat.le_trans (ih _) (Heap.deferred_markInput_le h t)

/-- Taking the taint edges and firing them. -/
theorem fired_takeDeferredTaint (h : Heap) (l : Ledger) (id : EntityId) :
    Heap.Fired ((h.takeDeferredTaint id).1.foldl fireTaint
      ((h.takeDeferredTaint id).2, l)).1 h := by
  have hu : (h.takeDeferredTaint id).2.deferred ≤ h.deferred :=
    Heap.deferred_update_le h id _ (fun e => Nat.le_add_right _ _)
  cases he : (h.takeDeferredTaint id).1 with
  | nil => exact .inr ⟨hu, rfl⟩
  | cons edge edges =>
    apply Or.inl
    refine Nat.lt_of_le_of_lt (deferred_fireTaints_le _ _) (Heap.deferred_update_lt h id _ ?_)
    have : (h.entity id).deferredTaint = edge :: edges := he
    simp [Entity.deferred, this]

/-- Taking the input edges and marking their targets. -/
theorem fired_takeDeferredInput (h : Heap) (id : EntityId) :
    Heap.Fired ((h.takeDeferredInput id).1.foldl Heap.markInput (h.takeDeferredInput id).2) h := by
  have hu : (h.takeDeferredInput id).2.deferred ≤ h.deferred :=
    Heap.deferred_update_le h id _ (fun e => by simp [Entity.deferred])
  by_cases hd : (h.entity id).deferredInput.toList = []
  · have ht : (h.takeDeferredInput id).1 = [] := by
      simp [Heap.takeDeferredInput, IdSet.ofIds, hd, IdSet.toList_empty]
    rw [ht]
    exact .inr ⟨hu, rfl⟩
  · apply Or.inl
    refine Nat.lt_of_le_of_lt (deferred_markInputs_le _ _) (Heap.deferred_update_lt h id _ ?_)
    have hs := IdSet.size_pos_of_toList hd
    simp only [Entity.deferred, IdSet.size_empty]
    omega

theorem fired_fire (state : Heap × Ledger) (id : EntityId) :
    Heap.Fired (fire state id).1 state.1 := by
  unfold fire
  simp only
  split
  · exact (fired_takeDeferredInput _ id).trans (fired_takeDeferredTaint state.1 state.2 id)
  · exact Heap.Fired.refl _

theorem fired_fires (ids : List EntityId) (state : Heap × Ledger) :
    Heap.Fired (ids.foldl fire state).1 state.1 := by
  induction ids generalizing state with
  | nil => exact Heap.Fired.refl _
  | cons id ids ih => exact (ih _).trans (fired_fire state id)

/-- Fires edges and reports calls until no change is left. -/
def settle (state : Heap × Ledger) : Heap × Ledger :=
  if state.1.drainTransitions.1 = [] then (state.1.drainTransitions.2, state.2)
  else settle (state.1.drainTransitions.1.foldl fire (state.1.drainTransitions.2, state.2))
termination_by state.1.unsettled
decreasing_by exact (fired_fires _ _).drained ‹_›

end Ledger

end SinkTrace
