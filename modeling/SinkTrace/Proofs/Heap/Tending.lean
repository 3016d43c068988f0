import SinkTrace.Proofs.Findings
import SinkTrace.Proofs.Heap.Absorb

/-!
Whatever is due is logged. An edge is due when its owner is input, and a recorded call when the
entity is tainted; every operation that makes something due logs the entity. No operation needs
its ids to be valid for that, only that forwards descend.
-/

namespace SinkTrace

namespace Entity

variable {f f' : Findings} {e e' : Entity}

/-- What decides whether something is due. -/
def dues (e : Entity) : TaintId × List TargetCall × IdSet × List DeferredTaint :=
  (e.taint, e.targetCalls, e.deferredInput, e.deferredTaint)

/-- Nothing is due: an input has no edges left, and the calls on a tainted entity are reported. -/
structure Settled (f : Findings) (e : Entity) : Prop where
  edges : TaintId.input ≤ e.taint → e.deferredInput.isEmpty = true ∧ e.deferredTaint = []
  calls : TaintId.firstSource ≤ e.taint → ∀ call ∈ e.targetCalls, f.Reported e.taint call

/-- The taint names a source, and the calls of the sink that wait have a path. -/
structure Vouched (f : Findings) (e : Entity) : Prop where
  source : TaintId.firstSource ≤ e.taint → ∃ s, f.source? e.taint = some s
  rooted : ∀ edge ∈ e.deferredTaint, edge.sink.stack.Rooted

theorem Settled.mono (hs : e.Settled f) (he : f.Extends f') : e.Settled f' :=
  ⟨hs.edges, fun ht call hm => he.reported (hs.calls ht call hm)⟩

theorem Vouched.mono (hv : e.Vouched f) (he : f.Extends f') : e.Vouched f' :=
  ⟨fun ht => he.known (hv.source ht), hv.rooted⟩

theorem dues_inj (hd : e.dues = e'.dues) : e.taint = e'.taint ∧ e.targetCalls = e'.targetCalls ∧
    e.deferredInput = e'.deferredInput ∧ e.deferredTaint = e'.deferredTaint := by
  simpa only [dues, Prod.mk.injEq] using hd

theorem Settled.congr (hs : e.Settled f) (hd : e.dues = e'.dues) : e'.Settled f := by
  obtain ⟨ht, hc, hi, hdt⟩ := dues_inj hd
  obtain ⟨hedges, hcalls⟩ := hs
  rw [ht, hi, hdt] at hedges
  rw [ht, hc] at hcalls
  exact ⟨hedges, hcalls⟩

theorem Vouched.congr (hv : e.Vouched f) (hd : e.dues = e'.dues) : e'.Vouched f := by
  obtain ⟨ht, -, -, hdt⟩ := dues_inj hd
  obtain ⟨hsource, hrooted⟩ := hv
  rw [ht] at hsource
  rw [hdt] at hrooted
  exact ⟨hsource, hrooted⟩

/-- An entity that is at most input and that nothing waits for. -/
theorem settled_of_idle (ht : e.taint ≤ TaintId.input) (hi : e.deferredInput = ∅)
    (hdt : e.deferredTaint = []) : e.Settled f ∧ e.Vouched f := by
  have hlow : ¬TaintId.firstSource ≤ e.taint := Nat.not_le.mpr (Nat.lt_succ_of_le ht)
  refine ⟨⟨fun _ => ⟨?_, hdt⟩, fun h => absurd h hlow⟩, ⟨fun h => absurd h hlow, ?_⟩⟩
  · rw [hi]
    exact Std.TreeSet.isEmpty_emptyc
  · rw [hdt]
    exact fun _ hm => absurd hm List.not_mem_nil

theorem Vouched.markDeep (hv : e.Vouched f) : e.markDeep.Vouched f := by
  refine ⟨fun ht => ?_, hv.rooted⟩
  have hmax : e.markDeep.taint = e.taint := by
    rcases Nat.le_total e.taint TaintId.input with hle | hle
    · have hlow : e.markDeep.taint = TaintId.input := Nat.max_eq_right hle
      rw [hlow] at ht
      exact absurd ht (by decide)
    · exact Nat.max_eq_left hle
  rw [hmax] at ht ⊢
  exact hv.source ht

theorem Vouched.takeOver {gone : Entity} (hv : e.Vouched f) (hg : gone.Vouched f) :
    (e.takeOver gone).Vouched f := by
  refine ⟨fun ht => ?_, fun edge hm => ?_⟩
  · rw [taint_takeOver] at ht ⊢
    rcases Nat.le_total e.taint gone.taint with hle | hle
    · rw [Nat.max_eq_right hle] at ht ⊢
      exact hg.source ht
    · rw [Nat.max_eq_left hle] at ht ⊢
      exact hv.source ht
  · exact (mem_deferredTaint_takeOver.mp hm).elim (hv.rooted edge) (hg.rooted edge)

end Entity

namespace Heap

variable {h h' : Heap} {f f' : Findings} {todo : List EntityId}

/-- The log leads to `id`. -/
def Logged (h : Heap) (id : EntityId) : Prop := ∃ t ∈ h.transitions, h.find t = id

/-- Where something may be due, the entity is logged or still `todo`. -/
structure Tended (h : Heap) (f : Findings) (todo : List EntityId) : Prop where
  descending : h.Descending
  due : ∀ {id e}, h.live? id = some e → e.Settled f ∨ h.Logged id ∨ id ∈ todo
  vouched : ∀ {id e}, h.live? id = some e → e.Vouched f

theorem tended_empty (f : Findings) (todo : List EntityId) : Tended {} f todo :=
  ⟨wellFormed_empty.descending, fun he => absurd (lt_size_of_live? he) (Nat.not_lt_zero _),
    fun he => absurd (lt_size_of_live? he) (Nat.not_lt_zero _)⟩

theorem Tended.mono (ht : h.Tended f todo) (he : f.Extends f') : h.Tended f' todo :=
  ⟨ht.descending, fun hl => (ht.due hl).imp (fun hs => hs.mono he) id,
    fun hl => (ht.vouched hl).mono he⟩

theorem Tended.vouched_entity (ht : h.Tended f todo) (id : EntityId) : (h.entity id).Vouched f := by
  rw [entity_eq]
  cases hl : h.live? (h.find id) with
  | none => exact (Entity.settled_of_idle (by decide) rfl rfl).2
  | some e => exact ht.vouched hl

/-- The counter of live entities does not matter. -/
theorem Tended.of_nodes (ht : h.Tended f todo) (hn : h'.nodes = h.nodes)
    (hl : h'.transitions = h.transitions) : h'.Tended f todo := by
  have hlive : ∀ j, h'.live? j = h.live? j := fun j => by simp only [live?, hn]
  refine ⟨fun j next hj => ht.descending j next ?_, fun {id e} he => ?_, fun he => ?_⟩
  · simpa only [next?, hn] using hj
  · refine (ht.due (hlive id ▸ he)).imp (fun hs => hs) fun hlog => hlog.imp ?_ (fun hm => hm)
    rintro ⟨t, hm, hf⟩
    exact ⟨t, hl ▸ hm, (find_of_nodes hn t).trans hf⟩
  · exact ht.vouched (hlive _ ▸ he)

theorem Tended.of_alike (ht : h.Tended f todo) (ha : Alike Entity.dues h h')
    (hl : h'.transitions = h.transitions) : h'.Tended f todo := by
  refine ⟨ha.descending ht.descending, fun he => ?_, fun he => ?_⟩
  · obtain ⟨e, he₀, hd⟩ := ha.of_live? he
    refine (ht.due he₀).imp (fun hs => hs.congr hd) fun hlog => hlog.imp ?_ (fun hm => hm)
    rintro ⟨t, hm, hf⟩
    exact ⟨t, hl ▸ hm, (ha.find t).trans hf⟩
  · obtain ⟨e, he₀, hd⟩ := ha.of_live? he
    exact (ht.vouched he₀).congr hd

/-- A change after which nothing more is due at an entity than before. -/
theorem Tended.update (ht : h.Tended f todo) (id : EntityId) {g : Entity → Entity}
    (hs : ∀ e, e.Settled f → (g e).Settled f) (hv : ∀ e, e.Vouched f → (g e).Vouched f) :
    (h.update id g).Tended f todo := by
  have hlog : ∀ {j}, h.Logged j → (h.update id g).Logged j :=
    fun ⟨t, hm, hf⟩ => ⟨t, hm, (find_update h id g t).trans hf⟩
  refine ⟨ht.descending.update id g, fun {j e} he => ?_, fun {j e} he => ?_⟩
  · rw [live?_update] at he
    split at he
    · obtain ⟨e₀, he₀, rfl⟩ := Option.map_eq_some_iff.mp he
      exact (ht.due he₀).imp (hs e₀) (Or.imp_left hlog)
    · exact (ht.due he).imp_right (Or.imp_left hlog)
  · rw [live?_update] at he
    split at he
    · obtain ⟨e₀, he₀, rfl⟩ := Option.map_eq_some_iff.mp he
      exact hv e₀ (ht.vouched he₀)
    · exact ht.vouched he

/-- A change that is logged. -/
theorem Tended.updateNote (ht : h.Tended f todo) {id n : EntityId} {g : Entity → Entity}
    (hn : h.find n = h.find id) (hv : ∀ e, e.Vouched f → (g e).Vouched f) :
    ((h.update id g).note n).Tended f todo := by
  have hlog : ∀ {j}, h.Logged j ∨ h.find id = j → ((h.update id g).note n).Logged j := by
    rintro j (⟨t, hm, hf⟩ | hf)
    · exact ⟨t, Array.mem_push_of_mem _ hm, by rw [find_note, find_update, hf]⟩
    · exact ⟨n, Array.mem_push_self, by rw [find_note, find_update, hn, hf]⟩
  refine ⟨ht.descending.update id g, fun {j e} he => ?_, fun {j e} he => ?_⟩
  · rw [live?_note, live?_update] at he
    split at he
    · exact .inr (.inl (hlog (.inr ‹_›)))
    · exact (ht.due he).imp_right (Or.imp_left fun hl => hlog (.inl hl))
  · rw [live?_note, live?_update] at he
    split at he
    · obtain ⟨e₀, he₀, rfl⟩ := Option.map_eq_some_iff.mp he
      exact hv e₀ (ht.vouched he₀)
    · exact ht.vouched he

/-! The operations. -/

theorem Tended.create (ht : h.Tended f todo) (origin : Option Origin) :
    (h.create origin).2.Tended f todo := by
  have hidle := @Entity.settled_of_idle f { origin } (Nat.zero_le _) rfl rfl
  refine ⟨ht.descending.create origin, fun {j e} he => ?_, fun {j e} he => ?_⟩
  · rw [live?_create] at he
    split at he
    · exact .inl (Option.some.inj he ▸ hidle.1)
    · refine (ht.due he).imp_right (Or.imp_left ?_)
      rintro ⟨t, hm, hf⟩
      exact ⟨t, hm, (find_create h origin t).trans hf⟩
  · rw [live?_create] at he
    split at he
    · exact Option.some.inj he ▸ hidle.2
    · exact ht.vouched he

theorem Tended.setOrigin (ht : h.Tended f todo) (id : EntityId) (origin : Origin) :
    (h.setOrigin id origin).Tended f todo :=
  ht.of_alike (alike_update h id fun _ => rfl) rfl

theorem Tended.link (ht : h.Tended f todo) (owner : EntityId) (key : FieldName)
    (child : EntityId) : (h.link owner key child).Tended f todo :=
  ht.of_alike ((alike_link h owner key child).comp Entity.dues) rfl

theorem Tended.raiseTaint (ht : h.Tended f todo) (id : EntityId) {taint : TaintId}
    (hk : TaintId.firstSource ≤ taint → ∃ s, f.source? taint = some s)
    (stack : Option CallStack) : (h.raiseTaint id taint stack).2.Tended f todo := by
  unfold Heap.raiseTaint
  simp only
  split
  · exact ht
  · exact ht.updateNote rfl fun _ hv => ⟨hk, hv.rooted⟩

theorem Tended.markOne (ht : h.Tended f todo) (id : EntityId) : (h.markOne id).Tended f todo :=
  ht.updateNote (find_find h id) fun _ hv => hv.markDeep

theorem Tended.markAll (ht : h.Tended f todo) (work : List EntityId) :
    (h.markAll work).Tended f todo := by
  fun_induction Heap.markAll h work with
  | case1 => exact ht
  | case2 h id rest _ ih => exact ih (ht.markOne id)
  | case3 h id rest _ ih => exact ih ht

theorem Tended.foldl {α : Type} {step : Heap → α → Heap}
    (hstep : ∀ {h} a, Tended h f todo → (step h a).Tended f todo) (as : List α)
    (ht : h.Tended f todo) : (as.foldl step h).Tended f todo := by
  induction as generalizing h with
  | nil => exact ht
  | cons a as ih => exact ih (hstep a ht)

theorem Tended.markInput (ht : h.Tended f todo) (id : EntityId) :
    (h.markInput id).Tended f todo := ht.markAll [id]

theorem Tended.addTargetCall (ht : h.Tended f todo) (id : EntityId) (call : TargetCall) :
    (h.addTargetCall id call).Tended f todo := by
  unfold Heap.addTargetCall
  simp only
  split
  · exact ht
  · refine ht.updateNote rfl fun e hv => ?_
    unfold Entity.addTargetCall
    split
    · exact hv
    · exact ⟨hv.source, hv.rooted⟩

theorem Tended.addDeferredInput (ht : h.Tended f todo) (owner target : EntityId) :
    (h.addDeferredInput owner target).Tended f todo := by
  unfold Heap.addDeferredInput
  simp only
  split
  · exact ht
  · exact ht.updateNote rfl fun _ hv => ⟨hv.source, hv.rooted⟩

theorem Tended.addDeferredTaint (ht : h.Tended f todo) (owner : EntityId) {edge : DeferredTaint}
    (hr : edge.sink.stack.Rooted) : (h.addDeferredTaint owner edge).Tended f todo := by
  refine ht.updateNote rfl fun e hv => ⟨hv.source, fun d hm => ?_⟩
  rcases mem_addNew.mp hm with hm | rfl
  · exact hv.rooted d hm
  · exact hr

theorem Tended.takeDeferredInput (ht : h.Tended f todo) (id : EntityId) :
    (h.takeDeferredInput id).2.Tended f todo :=
  ht.update id (fun _ hs => ⟨fun hi => ⟨Std.TreeSet.isEmpty_emptyc, (hs.edges hi).2⟩, hs.calls⟩)
    fun _ hv => ⟨hv.source, hv.rooted⟩

theorem Tended.takeDeferredTaint (ht : h.Tended f todo) (id : EntityId) :
    (h.takeDeferredTaint id).2.Tended f todo :=
  ht.update id (fun _ hs => ⟨fun hi => ⟨(hs.edges hi).1, rfl⟩, hs.calls⟩)
    fun _ hv => ⟨hv.source, fun _ hm => absurd hm List.not_mem_nil⟩

/-- Where nothing is logged, nothing is due. -/
theorem Tended.settled (ht : h.Tended f []) (hl : h.transitions = #[]) {id : EntityId} {e : Entity}
    (he : h.live? id = some e) : e.Settled f := by
  rcases ht.due he with hs | ⟨t, hm, -⟩ | hm
  · exact hs
  · rw [hl] at hm
    exact absurd hm (Array.not_mem_empty t)
  · exact absurd hm List.not_mem_nil

/-- What was in the log is to be done. -/
theorem Tended.drainTransitions (ht : h.Tended f []) :
    h.drainTransitions.2.Tended f h.drainTransitions.1 := by
  refine ⟨ht.descending, fun {id e} he => ?_, fun he => ht.vouched he⟩
  rcases ht.due he with hs | ⟨t, hm, hf⟩ | hm
  · exact .inl hs
  · refine .inr (.inr ((IdSet.mem_distinct _ id).mpr ?_))
    exact List.mem_map.mpr ⟨t, Array.mem_toList_iff.mpr hm, hf⟩
  · exact absurd hm List.not_mem_nil

theorem Tended.loadField (ht : h.Tended f todo) (owner : EntityId) (key : FieldName) :
    (h.loadField owner key).2.Tended f todo := by
  cases hg : (h.entity owner).fields.get? key with
  | some child =>
    rw [loadField_of_some hg]
    exact ht
  | none =>
    rw [loadField_of_none hg]
    apply Tended.link
    have hlow : (h.newChild owner key).taint ≤ TaintId.input := by
      unfold newChild
      simp only
      split <;> decide
    have hidle := @Entity.settled_of_idle f _ hlow rfl rfl
    have hlog : (h.withChild owner key).transitions = h.transitions := by
      unfold withChild
      simp only
      split <;> rfl
    refine ⟨fun j next hn => ht.descending j next (next?_withChild h owner key j ▸ hn),
      fun {j e} he => ?_, fun {j e} he => ?_⟩
    · rw [live?_withChild] at he
      split at he
      · exact .inl (Option.some.inj he ▸ hidle.1)
      · refine (ht.due he).imp_right (Or.imp_left ?_)
        rintro ⟨t, hm, hf⟩
        exact ⟨t, hlog ▸ hm, (find_withChild h owner key t).trans hf⟩
    · rw [live?_withChild] at he
      split at he
      · exact Option.some.inj he ▸ hidle.2
      · exact ht.vouched he

/-! Merging. -/

theorem Tended.forward (ht : h.Tended f todo) {x y : EntityId} (hx : h.find x = x)
    (hy : h.find y = y) (hlt : x < y) : (h.forward y x).Tended f todo := by
  rcases Nat.lt_or_ge y h.size with hin | hout
  · obtain ⟨ex, hex⟩ := ht.descending.live?_of_find (Nat.lt_trans hlt hin) hx
    obtain ⟨ey, hey⟩ := ht.descending.live?_of_find hin hy
    have hkept : ∀ {j e}, (h.forward y x).live? j = some e → y ≠ j ∧ h.live? j = some e := by
      intro j e he
      rw [live?_forward] at he
      split at he
      · cases he
      · exact ⟨‹_›, he⟩
    refine ⟨ht.descending.forward hin hlt, fun he => ?_, fun he => ht.vouched (hkept he).2⟩
    obtain ⟨hne, he₀⟩ := hkept he
    refine (ht.due he₀).imp_right (Or.imp_left ?_)
    rintro ⟨t, hm, rfl⟩
    exact ⟨t, hm, by rw [find_forward hex hey hlt, if_neg hne.symm]⟩
  · exact ht.of_nodes (Array.setIfInBounds_eq_of_size_le hout) rfl

/-- The survivor is logged; the other entities keep what is due at them. -/
theorem Tended.absorb (ht : h.Tended f todo) {x y : EntityId} (hx : h.find x = x)
    (hy : h.find y = y) (hlt : x < y) : (h.absorb x y).heap.Tended f todo := by
  have hmoved : (h.rewired x y).1.Tended f todo :=
    (ht.forward hx hy hlt).of_alike ((alike_rewired h x y).comp Entity.dues)
      (transitions_rewired h x y)
  rw [absorb_heap]
  refine Tended.of_nodes (hmoved.updateNote rfl ?_) rfl rfl
  exact fun e hv => hv.takeOver (ht.vouched_entity y)

theorem Tended.mergePairs (ht : h.Tended f todo) (pairs : List (EntityId × EntityId))
    (promoted : List EntityId) : (h.mergePairs pairs promoted).1.Tended f todo := by
  fun_induction Heap.mergePairs h pairs promoted with
  | case1 => exact ht
  | case2 h promoted a b rest x y _ ih => exact ih ht
  | case3 => exact ht
  | case4 h promoted a b rest x y hne _ step ih =>
    apply ih
    rcases Nat.lt_or_gt_of_ne hne with hlt | hlt
    · have hstep : step = h.absorb x y := by
        simp only [step, Nat.min_eq_left (Nat.le_of_lt hlt), Nat.max_eq_right (Nat.le_of_lt hlt)]
      rw [hstep]
      exact ht.absorb (find_find h a) (find_find h b) hlt
    · have hstep : step = h.absorb y x := by
        simp only [step, Nat.min_eq_right (Nat.le_of_lt hlt), Nat.max_eq_left (Nat.le_of_lt hlt)]
      rw [hstep]
      exact ht.absorb (find_find h b) (find_find h a) hlt

theorem Tended.merge (ht : h.Tended f todo) (a b : EntityId) : (h.merge a b).2.Tended f todo :=
  Tended.foldl (fun id ht => ht.markInput id) _ (ht.mergePairs [(a, b)] [])

theorem Tended.storeField (ht : h.Tended f todo) (owner : EntityId) (key : FieldName)
    (value : EntityId) : (h.storeField owner key value).Tended f todo := by
  unfold Heap.storeField
  simp only
  split
  · exact ht.merge _ _
  · split
    · exact (ht.link _ _ _).markInput _
    · exact ht.link _ _ _

end Heap

end SinkTrace
