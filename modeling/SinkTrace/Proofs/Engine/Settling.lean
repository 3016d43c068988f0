import Mathlib.Logic.Function.Iterate
import SinkTrace.Engine.Ledger
import SinkTrace.Proofs.Heap.Tending

/-!
Settling does all that is due. One pass over the log fires each entity in it once; what a firing
makes due, be it at the entity itself, is logged and left to the next pass.
-/

namespace SinkTrace

/-- The taints in a summary name sources. -/
def Summary.Vouched (f : Findings) : Summary → Prop
  | .empty => True
  | .computed s => ∀ id, (s.heap.entity id).Vouched f

theorem Summary.Vouched.mono {f f' : Findings} {summary : Summary} (hv : summary.Vouched f)
    (he : f.Extends f') : summary.Vouched f' := by
  cases summary with
  | empty => trivial
  | computed s => exact fun id => (hv id).mono he

namespace Heap

variable {h h' h'' : Heap}

/-- What is due at an entity stays the same unless the entity gets logged. -/
structure Spares (h h' : Heap) : Prop where
  size : h'.size = h.size
  find : ∀ id, h'.find id = h.find id
  logged : ∀ {id}, h.Logged id → h'.Logged id
  dues : ∀ id, (h'.entity id).dues = (h.entity id).dues ∨ h'.Logged (h.find id)

theorem Spares.refl (h : Heap) : Spares h h :=
  ⟨rfl, fun _ => rfl, fun hl => hl, fun _ => .inl rfl⟩

theorem Spares.trans (h₁ : Spares h h') (h₂ : Spares h' h'') : Spares h h'' := by
  refine ⟨h₂.size.trans h₁.size, fun id => (h₂.find id).trans (h₁.find id),
    fun hl => h₂.logged (h₁.logged hl), fun id => ?_⟩
  rcases h₂.dues id with hd₂ | hl
  · exact (h₁.dues id).imp hd₂.trans h₂.logged
  · exact .inr (h₁.find id ▸ hl)

theorem Spares.foldl {α : Type} {step : Heap → α → Heap} (hstep : ∀ h a, Spares h (step h a))
    (as : List α) (h : Heap) : Spares h (as.foldl step h) := by
  induction as generalizing h with
  | nil => exact .refl h
  | cons a as ih => exact (hstep h a).trans (ih _)

theorem spares_updateNote (h : Heap) {id n : EntityId} (hn : h.find n = h.find id)
    (g : Entity → Entity) : Spares h ((h.update id g).note n) := by
  have hfind : ∀ j, ((h.update id g).note n).find j = h.find j := fun j => by
    rw [find_note, find_update]
  refine ⟨size_update h id g, hfind, ?_, fun j => ?_⟩
  · rintro j ⟨t, hm, hf⟩
    exact ⟨t, Array.mem_push_of_mem _ hm, (hfind t).trans hf⟩
  · by_cases hj : h.find id = h.find j
    · exact .inr ⟨n, Array.mem_push_self, (hfind n).trans (hn.trans hj)⟩
    · rw [entity_note, entity_update_of_ne g hj]
      exact .inl rfl

theorem spares_raiseTaint (h : Heap) (id : EntityId) (taint : TaintId) (stack : Option CallStack) :
    Spares h (h.raiseTaint id taint stack).2 := by
  unfold raiseTaint
  simp only
  split
  · exact .refl h
  · exact spares_updateNote h rfl _

theorem spares_markInput (h : Heap) (id : EntityId) : Spares h (h.markInput id) := by
  unfold markInput
  generalize [id] = work
  fun_induction markAll h work with
  | case1 => exact .refl _
  | case2 h id rest _ ih => exact (spares_updateNote h (find_find h id) _).trans ih
  | case3 h id rest _ ih => exact ih

/-- The edges of an entity are taken, and both times only logged entities change afterwards. -/
theorem taken_of_spares {fired last : Heap} {id : EntityId} {e : Entity} (hd : h.Descending)
    (hd' : fired.Descending) (h₁ : Spares (h.takeDeferredTaint id).2 fired)
    (h₂ : Spares (fired.takeDeferredInput id).2 last) (he : last.live? id = some e) :
    last.Logged id ∨
      e.taint = h.taint id ∧ e.deferredInput = ∅ ∧ e.deferredTaint = [] := by
  have hin : id < fired.size := by
    rw [← size_update fired id fun e => { e with deferredInput := ∅ }]
    exact h₂.size ▸ lt_size_of_live? he
  have hin' : id < h.size := by
    rw [← size_update h id fun e => { e with deferredTaint := [] }]
    exact h₁.size ▸ hin
  have hself : (fired.takeDeferredInput id).2.find id = id :=
    (h₂.find id).symm.trans (find_of_live? he)
  have hself' : (h.takeDeferredTaint id).2.find id = id :=
    ((h₁.find id).symm.trans (find_update fired id _ id).symm).trans hself
  rcases h₂.dues id with hlast | hlog
  · rcases h₁.dues id with hfired | hlog
    · right
      have hmid : (fired.takeDeferredInput id).2.entity id =
          { fired.entity id with deferredInput := ∅ } := hd'.entity_update_self hin _ rfl
      have hfirst : (h.takeDeferredTaint id).2.entity id =
          { h.entity id with deferredTaint := [] } := hd.entity_update_self hin' _ rfl
      rw [entity_of_live? he, hmid] at hlast
      rw [hfirst] at hfired
      obtain ⟨ht, -, hi, hdt⟩ := Entity.dues_inj hlast
      obtain ⟨ht', -, -, hdt'⟩ := Entity.dues_inj hfired
      exact ⟨ht.trans ht', hi, hdt.trans hdt'⟩
    · obtain ⟨t, hm, hf⟩ := hlog
      rw [hself'] at hf
      exact .inl (h₂.logged ⟨t, hm, (find_update fired id _ t).trans hf⟩)
  · exact .inl (hself ▸ hlog)

/-- An entity that was attended to. -/
theorem Tended.done {f : Findings} {id : EntityId} {todo : List EntityId}
    (ht : h.Tended f (id :: todo))
    (hd : ∀ e, h.live? id = some e → e.Settled f ∨ h.Logged id) : h.Tended f todo := by
  refine ⟨ht.descending, fun {j e} he => ?_, ht.vouched⟩
  rcases ht.due he with hs | hl | hm
  · exact .inl hs
  · exact .inr (.inl hl)
  · rcases List.mem_cons.mp hm with rfl | hm
    · exact (hd e he).imp_right .inl
    · exact .inr (.inr hm)

end Heap

/-- Where the sink is called: the frames from the entry point on, and the offset of the call. -/
abbrev SinkSite := List SummaryKey × Nat

def SinkCall.site (call : SinkCall) : SinkSite := (call.stack.toList, call.offset)

namespace Ledger

variable {l l' l'' : Ledger} {h : Heap} {sites sites' : List SinkSite}

/-- Every id that is kept names a source. -/
structure Sound (l : Ledger) : Prop where
  orderly : l.findings.Orderly
  session : ∀ {key id}, l.session.sources.get? key = some id →
    ∃ s, l.findings.source? id = some s
  cache : ∀ entry ∈ l.cache.entries, entry.2.Vouched l.findings

/-- How a ledger comes about. A source is registered for a call of the sink, which has a path and
was not remembered; `sites` are these calls in order. All else leaves the sources, their memo and
their number alone. -/
inductive Registers (l : Ledger) : List SinkSite → Ledger → Prop where
  | refl : Registers l [] l
  | revise {sites : List SinkSite} {l' l'' : Ledger} (hr : Registers l sites l')
    (hf : l'.findings.Revises l''.findings)
    (hs : l''.session.sources = l'.session.sources)
    (hi : l''.statistics.sinkInterceptions = l'.statistics.sinkInterceptions) :
    Registers l sites l''
  | source {sites : List SinkSite} {l' : Ledger} (hr : Registers l sites l') {call : SinkCall}
    (hroot : call.stack.Rooted) (hnew : l'.session.source? call.stack call.offset = none) :
    Registers l (sites ++ [call.site]) (l'.sourceFor call).2

theorem Registers.trans (h₁ : Registers l sites l') (h₂ : Registers l' sites' l'') :
    Registers l (sites ++ sites') l'' := by
  induction h₂ with
  | refl => rwa [List.append_nil]
  | revise _ hf hs hi ih => exact ih.revise hf hs hi
  | source _ hroot hnew ih => exact List.append_assoc .. ▸ ih.source hroot hnew

theorem sourceFor_of_none {call : SinkCall}
    (hnew : l.session.source? call.stack call.offset = none) :
    l.sourceFor call = (l.findings.nextId, { l with
      findings := (l.findings.addSource
        ((call.stack.top?.map SummaryKey.signature).getD call.signature) call.stack).2
      session := l.session.remember call.stack call.offset l.findings.nextId
      statistics :=
        { l.statistics with sinkInterceptions := l.statistics.sinkInterceptions + 1 } }) := by
  simp only [Ledger.sourceFor, hnew]
  rfl

/-- The calls of the sink that are remembered. -/
theorem Registers.keys (hr : Registers l sites l') :
    l'.session.sources.keys = l.session.sources.keys ++ sites := by
  induction hr with
  | refl => exact (List.append_nil _).symm
  | revise _ _ hs _ ih => rw [hs, ih]
  | @source _ l' _ call _ hnew ih =>
    rw [sourceFor_of_none hnew, ← List.append_assoc, ← ih]
    exact Table.keys_insert_of_get?_none hnew l'.findings.nextId

/-- No call is registered that is remembered. -/
theorem Registers.nodup (hr : Registers l sites l') (hd : l.session.sources.keys.Nodup) :
    l'.session.sources.keys.Nodup := by
  induction hr with
  | refl => exact hd
  | revise _ _ hs _ ih => exact hs ▸ ih
  | source _ _ hnew ih =>
    rw [sourceFor_of_none hnew]
    exact Table.nodup_keys_insert ih _ _

/-- As many sources come in as calls are registered, and so many are counted. -/
theorem Registers.extends (hr : Registers l sites l') (ho : l.findings.Orderly) :
    l.findings.Extends l'.findings ∧
      l'.findings.sources.length = l.findings.sources.length + sites.length ∧
      l'.statistics.sinkInterceptions = l.statistics.sinkInterceptions + sites.length := by
  induction hr with
  | refl => exact ⟨.refl ho, rfl, rfl⟩
  | revise _ hf _ hi ih =>
    obtain ⟨hext, hsources, hcount⟩ := ih
    obtain ⟨hstep, hlength⟩ := hf.extends hext.orderly
    exact ⟨hext.trans hstep, hlength.trans hsources, hi.trans hcount⟩
  | source _ hroot hnew ih =>
    obtain ⟨hext, hsources, hcount⟩ := ih
    rw [sourceFor_of_none hnew, List.length_append]
    refine ⟨hext.trans (hext.orderly.addSource _ hroot).1, ?_, congrArg Nat.succ hcount⟩
    rw [Findings.sources_addSource hext.orderly.ids, List.length_append, hsources]
    rfl

structure Extends (l l' : Ledger) : Prop where
  sound : l'.Sound
  findings : l.findings.Extends l'.findings
  registers : ∃ sites, l.Registers sites l'

theorem Extends.refl (hl : l.Sound) : Extends l l := ⟨hl, .refl hl.orderly, [], .refl⟩

theorem Extends.trans (h₁ : Extends l l') (h₂ : Extends l' l'') : Extends l l'' := by
  obtain ⟨sites, hr⟩ := h₁.registers
  obtain ⟨sites', hr'⟩ := h₂.registers
  exact ⟨h₂.sound, h₁.findings.trans h₂.findings, _, hr.trans hr'⟩

/-- Findings that go on leave the rest as sound as it was. -/
theorem Sound.withFindings (hl : l.Sound) (hf : l.findings.Revises l'.findings)
    (hs : l'.session.sources = l.session.sources) (hc : l'.cache.entries = l.cache.entries)
    (hi : l'.statistics.sinkInterceptions = l.statistics.sinkInterceptions) : Extends l l' := by
  obtain ⟨hext, -⟩ := hf.extends hl.orderly
  refine ⟨⟨hext.orderly, fun hm => hext.known (hl.session (hs ▸ hm)), fun entry hm => ?_⟩, hext,
    [], .revise .refl hf hs hi⟩
  exact (hl.cache entry (hc ▸ hm)).mono hext

/-- Counting anything but calls of the sink. -/
theorem Sound.count (hl : l.Sound) (g : Statistics → Statistics)
    (hg : ∀ s, (g s).sinkInterceptions = s.sinkInterceptions) : Extends l (l.count g) :=
  hl.withFindings .refl rfl rfl (hg _)

/-- The source of a sink call, old or new, is there. -/
theorem Sound.sourceFor (hl : l.Sound) {call : SinkCall} (hroot : call.stack.Rooted) :
    Extends l (l.sourceFor call).2 ∧
      ∃ s, (l.sourceFor call).2.findings.source? (l.sourceFor call).1 = some s := by
  cases hm : l.session.source? call.stack call.offset with
  | some id =>
    simp only [Ledger.sourceFor, hm]
    exact ⟨.refl hl, hl.orderly.source?_resolve id ▸ hl.session hm⟩
  | none =>
    have hreg : Registers l [call.site] (l.sourceFor call).2 := .source .refl hroot hm
    obtain ⟨hf, hnew⟩ := hl.orderly.addSource
      ((call.stack.top?.map SummaryKey.signature).getD call.signature) hroot
    rw [sourceFor_of_none hm] at hreg ⊢
    refine ⟨⟨⟨hf.orderly, fun {key id} hm => ?_, fun entry hm => (hl.cache entry hm).mono hf⟩,
      hf, _, hreg⟩, hnew⟩
    have hm' : (l.session.sources.insert (call.stack.toList, call.offset) _).get? key = some id :=
      hm
    rw [Table.get?_insert] at hm'
    split at hm'
    · cases hm'
      exact hnew
    · exact hf.known (hl.session hm')

theorem Sound.fireTaints (hl : l.Sound) {todo : List EntityId} (ht : h.Tended l.findings todo)
    (edges : List DeferredTaint) (hroot : ∀ edge ∈ edges, edge.sink.stack.Rooted) :
    (edges.foldl fireTaint (h, l)).1.Tended (edges.foldl fireTaint (h, l)).2.findings todo ∧
      Extends l (edges.foldl fireTaint (h, l)).2 ∧
      Heap.Spares h (edges.foldl fireTaint (h, l)).1 := by
  induction edges generalizing h l with
  | nil => exact ⟨ht, .refl hl, .refl h⟩
  | cons edge edges ih =>
    obtain ⟨hfirst, hothers⟩ := List.forall_mem_cons.mp hroot
    obtain ⟨hsource, hk⟩ := hl.sourceFor hfirst
    have hraise := (ht.mono hsource.findings).raiseTaint edge.target (fun _ => hk)
      (some edge.sink.stack)
    obtain ⟨hrest, hext, hspare⟩ := ih hsource.sound hraise hothers
    exact ⟨hrest, hsource.trans hext, (Heap.spares_raiseTaint h _ _ _).trans hspare⟩

theorem Sound.reportCalls (hl : l.Sound) {taint : TaintId}
    (hk : TaintId.firstSource ≤ taint → ∃ s, l.findings.source? taint = some s)
    (calls : List TargetCall) :
    Extends l (l.reportCalls taint calls) ∧ (TaintId.firstSource ≤ taint →
      ∀ call ∈ calls, (l.reportCalls taint calls).findings.Reported taint call) := by
  unfold Ledger.reportCalls
  split
  · rename_i htainted
    obtain ⟨hf, heach⟩ :=
      hl.orderly.addTriggers (hk (of_decide_eq_true htainted)) htainted calls
    exact ⟨hl.withFindings hf rfl rfl rfl, fun _ => heach⟩
  · rename_i htainted
    exact ⟨.refl hl, fun hle => absurd (decide_eq_true hle) htainted⟩

/-- A firing leaves nothing due at the entity, unless it gets logged meanwhile. The taint is read
before the edges fire; if they raise it, the entity comes up again with the new one. -/
theorem Sound.fire (hl : l.Sound) {id : EntityId} {todo : List EntityId}
    (ht : h.Tended l.findings (id :: todo)) :
    (fire (h, l) id).1.Tended (fire (h, l) id).2.findings todo ∧
      Extends l (fire (h, l) id).2 := by
  unfold Ledger.fire
  simp only
  split
  · have hroot := (ht.vouched_entity id).rooted
    have htake := ht.takeDeferredTaint id
    obtain ⟨hfired, hext, hspare⟩ := hl.fireTaints htake (h.takeDeferredTaint id).1 hroot
    generalize hstate : (h.takeDeferredTaint id).1.foldl fireTaint
      ((h.takeDeferredTaint id).2, l) = state at hfired hext hspare
    have hmarked := Heap.Tended.foldl (fun id ht => ht.markInput id)
      (state.1.takeDeferredInput id).1 (hfired.takeDeferredInput id)
    have hspare' := Heap.Spares.foldl Heap.spares_markInput (state.1.takeDeferredInput id).1
      (state.1.takeDeferredInput id).2
    generalize hlast : (state.1.takeDeferredInput id).1.foldl Heap.markInput
      (state.1.takeDeferredInput id).2 = last at hmarked hspare'
    obtain ⟨hreport, heach⟩ := hext.sound.reportCalls
      (fun hle => hext.findings.known ((ht.vouched_entity id).source hle))
      (last.entity id).targetCalls
    refine ⟨(hmarked.mono hreport.findings).done fun e he => ?_, hext.trans hreport⟩
    rcases Heap.taken_of_spares ht.descending hfired.descending hspare hspare' he with
      hlog | ⟨htaint, hi, hdt⟩
    · exact .inr hlog
    · refine .inl ⟨fun _ => ⟨by rw [hi]; exact Std.TreeSet.isEmpty_emptyc, hdt⟩, fun hle => ?_⟩
      rw [Heap.entity_of_live? he] at heach ⊢
      rw [htaint] at hle ⊢
      exact heach hle
  · rename_i hclean
    refine ⟨ht.done fun e he => .inl ?_, .refl hl⟩
    have htaint : h.taint id = e.taint := by rw [Heap.taint, Heap.entity_of_live? he]
    rw [htaint] at hclean
    have hlow : ¬TaintId.input ≤ e.taint := fun hle => hclean (decide_eq_true hle)
    exact ⟨fun hle => absurd hle hlow,
      fun hle => absurd (Nat.le_trans (Nat.le_succ _) hle) hlow⟩

theorem Sound.fires (hl : l.Sound) {todo : List EntityId} (ht : h.Tended l.findings todo) :
    (todo.foldl Ledger.fire (h, l)).1.Tended (todo.foldl Ledger.fire (h, l)).2.findings [] ∧
      Extends l (todo.foldl Ledger.fire (h, l)).2 := by
  induction todo generalizing h l with
  | nil => exact ⟨ht, .refl hl⟩
  | cons id todo ih =>
    obtain ⟨hfirst, hext⟩ := hl.fire ht
    obtain ⟨hrest, hext'⟩ := ih hext.sound hfirst
    exact ⟨hrest, hext.trans hext'⟩

/-- One pass over the log. -/
def pass (state : Heap × Ledger) : Heap × Ledger :=
  state.1.drainTransitions.1.foldl fire (state.1.drainTransitions.2, state.2)

/-- Settling comes to an end: after some passes the log leads nowhere. -/
theorem settle_eq_passes (state : Heap × Ledger) :
    ∃ n, (pass^[n] state).1.drainTransitions.1 = [] ∧
      settle state = ((pass^[n] state).1.drainTransitions.2, (pass^[n] state).2) := by
  fun_induction settle state with
  | case1 state hdone => exact ⟨0, hdone, rfl⟩
  | case2 state _ ih =>
    obtain ⟨n, hdone, heq⟩ := ih
    exact ⟨n + 1, hdone, heq⟩

/-- Settling leaves an empty log and nothing due. -/
theorem Sound.settle (hl : l.Sound) (ht : h.Tended l.findings []) :
    (settle (h, l)).1.Tended (settle (h, l)).2.findings [] ∧
      (settle (h, l)).1.transitions = #[] ∧ Extends l (settle (h, l)).2 := by
  generalize hstate : (h, l) = state
  fun_induction Ledger.settle state generalizing h l with
  | case1 state hdone =>
    subst hstate
    have hdrained := ht.drainTransitions
    simp only at hdone
    rw [hdone] at hdrained
    exact ⟨hdrained, rfl, .refl hl⟩
  | case2 state _ ih =>
    subst hstate
    obtain ⟨hfired, hext⟩ := hl.fires ht.drainTransitions
    obtain ⟨hrest, hlog, hext'⟩ := ih hext.sound hfired rfl
    exact ⟨hrest, hlog, hext.trans hext'⟩

end Ledger

end SinkTrace
