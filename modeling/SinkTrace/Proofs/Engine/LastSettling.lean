import SinkTrace.Proofs.Engine.Executions
import SinkTrace.Proofs.Engine.Finality
import SinkTrace.Proofs.Paths

/-!
What is left due at the end of a run. An activation is settled when it has come to its end, and
freezing it then makes one entity of all that it may return. What that makes due is logged, and a
caller settles it; the entry point has no caller.
-/

namespace SinkTrace

/-! Evaluating slots. -/

theorem Heap.transitions_loadField (h : Heap) (owner : EntityId) (key : FieldName) :
    (h.loadField owner key).2.transitions = h.transitions := by
  unfold Heap.loadField
  simp only
  split
  · rfl
  · split <;> rfl

theorem Heap.transitions_loadPath (h : Heap) (owner : EntityId) (path : List FieldName) :
    (h.loadPath owner path).2.transitions = h.transitions :=
  @foldl_keeps (EntityId × Heap) _ _ _ (·.2.transitions)
    (fun state key => state.2.transitions_loadField state.1 key) path (owner, h)

namespace Store

variable (s : Store)

theorem transitions_runLoad (state : List EntityId × Store) (l : PendingLoad) :
    (runLoad state l).2.heap.transitions = state.2.heap.transitions :=
  @foldl_keeps (List EntityId × Heap) _ _ (followPath l.path) (·.2.transitions)
    (fun state base => state.2.transitions_loadPath base l.path) _ _

/-- To find out what a slot may hold makes nothing due. -/
theorem transitions_materialize (id : SlotId) :
    (s.materialize id).2.heap.transitions = s.heap.transitions := by
  unfold materialize
  split
  · rfl
  · rfl
  · rfl
  · exact @foldl_keeps (List EntityId × Store) _ _ _ (·.2.heap.transitions) transitions_runLoad _ _

/-- Only several entities are merged. -/
theorem transitions_materializeSingle {id : SlotId} (h : (s.materialize id).1.length ≤ 1) :
    (s.materializeSingle id).2.heap.transitions = s.heap.transitions := by
  have hsame := s.transitions_materialize id
  unfold materializeSingle
  split
  · rename_i he
    rwa [he] at hsame
  · rename_i he
    rwa [he] at hsame
  · rename_i first rest s' hmany he
    rw [he, List.length_cons] at h
    exact absurd (List.length_eq_zero_iff.mp (by omega)) hmany

end Store

namespace Context

variable {c : Context}

/-- The entities that may be returned. -/
def returned (c : Context) : List EntityId :=
  (c.returnSlot.map fun slot => (c.store.materialize slot).1).getD []

theorem transitions_freeze (h : c.returned.length ≤ 1) :
    c.freeze.heap.transitions = c.heap.transitions := by
  change c.returnEntity.2.heap.transitions = c.heap.transitions
  unfold returned at h
  unfold returnEntity
  cases hs : c.returnSlot with
  | none => rfl
  | some slot =>
    rw [hs] at h
    exact c.store.transitions_materializeSingle h

end Context

/-! The last activation. -/

/-- The lowest outline keeps its key as long as it is there. -/
theorem Outline.Move.lowest {s : Setup} {os os' : List Outline} (hm : Move s os os')
    (hn : os' ≠ []) :
    os'.getLast?.map Outline.key = os.getLast?.map Outline.key := by
  cases hm with
  | @spends o below callsLeft hc => cases below <;> rfl
  | @enters o below callsLeft hc key target ho hk calls ht => cases below <;> rfl
  | @restarts o below callsLeft hi hc => cases below <;> rfl
  | @leaves o =>
    cases os' with
    | nil => exact absurd rfl hn
    | cons _ _ => rfl

namespace Machine

variable {s : Setup} {m first : Machine} {a : Activation} {l : Ledger}

/-- The activation of the entry point as it comes to its end for good. -/
inductive Concludes (s : Setup) : Machine → Activation → Ledger → Prop where
  | ends {b a : Activation} {k l : Ledger} (ha : advance s b k = .ends a l)
    (hf : ∀ loop, a.recursion = some loop → startsOver s a l loop = false) :
    Concludes s ⟨[b], k⟩ a l

/-- The last step of a run takes the last activation away, and keeps its summary. -/
theorem Move.concludes {m' : Machine} (hm : Move s m m') (hn : m'.activations = []) :
    ∃ a l, Concludes s m a l ∧ m' = ⟨[], { l with
      cache := (a.pending ++ [(a.key, a.summary)]).foldl
        (fun c (key, summary) => c.put key summary) l.cache }⟩ := by
  cases hm with
  | answered => cases hn
  | served => cases hn
  | @looped a a' below l l' r cache level provisional m ha hg hl ho =>
    have hopen := outlines_openLoop level ⟨a' :: below, { l' with cache }⟩
    have htop : (m.onTop fun a l => answer a l r provisional true).outlines = m.outlines :=
      map_onTop (fun a l => outline_answer a l r provisional true) m
    rw [ho] at hopen
    rw [Machine.outlines, hn, hopen] at htop
    cases htop
  | entered => cases hn
  | restarted => cases hn
  | @completed a a' below l l' ha hf =>
    have hbelow : below.map Activation.outline = [] := by
      have houtlines := outlines_resume a'.summary
        (file (a'.pending ++ [(a'.key, a'.summary)]) a'.dependency ⟨below, l'⟩)
      rw [outlines_file, Machine.outlines, hn] at houtlines
      exact houtlines.symm
    obtain rfl := List.map_eq_nil_iff.mp hbelow
    refine ⟨a', l', .ends ha hf, ?_⟩
    rw [file_final (by cases a'.dependency <;> rfl)]
    rfl

/-- It is the only one. -/
theorem Concludes.outlines (hc : Concludes s m a l) : m.outlines.map Outline.key = [a.key] := by
  obtain ⟨ha, -⟩ := hc
  obtain ⟨⟨context, work, rfl⟩, -⟩ := reached_shape (s := s) (by rw [ha]; rfl)
  rfl

theorem Rests.continues {b : Activation} {k : Ledger} (hr : Rests a l b k)
    (ha : a.Sound l.findings) (hl : l.Sound) : Activation.Continues l b k := by
  cases hr with
  | dispatched => exact ⟨.refl hl, ha⟩
  | walked _ hs => exact continues_walk ha hl hs

/-- The activation that has come to its end is settled. -/
theorem Concludes.settled (hc : Concludes s m a l) (hm : m.Sound) :
    a.context.heap.Tended l.findings [] ∧ a.context.heap.transitions = #[] := by
  obtain ⟨ha, -⟩ := hc
  obtain ⟨b, k, hrests, rfl, rfl⟩ := rests_of_ends ha
  have hb := hrests.continues (hm.activations _ (List.mem_singleton_self _)) hm.ledger
  obtain ⟨ht, hlog, -⟩ := hb.ledger.sound.settle hb.activation.heap
  exact ⟨ht, hlog⟩

end Machine

namespace Engine

open Machine

variable {e e' : Engine} {entry : EntryPoint} {findings : Findings}

/-- The lowest activation of a run is that of the entry point. -/
theorem Passes.lowest {s : Setup} {m : Machine} (hm : e.Passes entry s m)
    (hp : e.setup.program.Keyed) (hn : m.outlines ≠ []) :
    m.outlines.getLast?.map Outline.key = some ⟨.concrete, entry.method⟩ := by
  refine hm.induct (fun _ m => m.outlines ≠ [] →
    m.outlines.getLast?.map Outline.key = some ⟨.concrete, entry.method⟩) ?_ ?_ hn
  · intro d first hd hb _
    obtain ⟨root, hs, hact, -⟩ := root_of_boot hb
    obtain ⟨hroot, -⟩ := Activation.start_shape hs
    have hsignature := hp entry.method d (Option.filter_eq_some_iff.mp hd).1
    rw [Machine.outlines, hact, ← hsignature, hroot]
    rfl
  · intro s m m' _ ih hmove hn
    have hmove := hmove.outlines
    refine (hmove.lowest hn).trans (ih fun hnil => ?_)
    rw [hnil] at hmove
    cases hmove

/-- An execution ends with the activation of the entry point. -/
theorem concludes_of_execute (hx : e.execute entry = (.ok findings, e')) :
    ∃ s m a l, e.Passes entry s m ∧ Concludes s m a l ∧ l.findings = findings ∧
      e'.ledger.cache = (a.pending ++ [(a.key, a.summary)]).foldl
        (fun c (key, summary) => c.put key summary) l.cache := by
  obtain ⟨d, first, ledger, hu, hd, hb, hr, hf, -, rfl⟩ := exists_last_of_execute hx
  obtain ⟨root, hs, hact, -⟩ := root_of_boot hb
  generalize hlast : (⟨[], ledger⟩ : Machine) = last at hr
  cases hr with
  | refl =>
    rw [← hlast] at hact
    cases hact
  | @tail m _ hr hstep =>
    obtain ⟨a, l, hc, heq⟩ := (move_of_step hstep).concludes (hlast ▸ rfl)
    obtain rfl := (Machine.mk.inj (hlast.trans heq)).2
    exact ⟨_, m, a, l, .of hu hd hb hr, hc, hf, rfl⟩

/-- What is left due at the end of a run. The summary of the entry point, the last one that is kept,
is that of an activation in which nothing is due. To freeze it merges all that the entry point may
return, and that may make something due, which is logged; where that is one entity at most, nothing
is due in the summary either. -/
theorem entry_settled (he : e.Made) (hp : e.setup.program.Keyed)
    (hx : e.execute entry = (.ok findings, e')) :
    ∃ s m a l, ∃ cache : Cache, e.Passes entry s m ∧ Concludes s m a l ∧ l.findings = findings ∧
      e'.ledger.cache = cache.put ⟨.concrete, entry.method⟩ a.summary ∧
      (∀ id entity, a.context.heap.live? id = some entity → entity.Settled findings) ∧
      (∀ id entity, a.context.freeze.heap.live? id = some entity →
        entity.Settled findings ∨ a.context.freeze.heap.Logged id) ∧
      (a.context.returned.length ≤ 1 →
        ∀ id entity, a.context.freeze.heap.live? id = some entity → entity.Settled findings) := by
  obtain ⟨s, m, a, l, hm, hc, rfl, hcache⟩ := concludes_of_execute hx
  obtain ⟨htended, hlog⟩ := hc.settled (hm.sound he)
  have hfrozen : a.context.freeze.heap.Tended l.findings [] :=
    htended.edits a.context.edits_returnEntity
  have hkey : a.key = ⟨.concrete, entry.method⟩ := by
    have hkeys := hc.outlines
    have hlowest := hm.lowest hp fun hnil => by rw [hnil] at hkeys; cases hkeys
    rw [← List.getLast?_map, hkeys] at hlowest
    exact Option.some.inj hlowest
  rw [List.foldl_append, hkey] at hcache
  refine ⟨s, m, a, l, _, hm, hc, rfl, hcache, fun id entity hlive => htended.settled hlog hlive,
    fun id entity hlive => ?_, fun hone id entity hlive => ?_⟩
  · rcases hfrozen.due hlive with hsettled | hlogged | htodo
    · exact .inl hsettled
    · exact .inr hlogged
    · exact absurd htodo List.not_mem_nil
  · exact hfrozen.settled ((Context.transitions_freeze hone).trans hlog) hlive

theorem wreckEngine_settled : ∃ findings e' s m a l, ∃ cache : Cache,
    wreckEngine.execute ⟨wreck.signature, []⟩ = (.ok findings, e') ∧
      findings.sources.map (·.triggers.length) = [2] ∧
      Concludes s m a l ∧ e'.ledger.cache = cache.put ⟨.concrete, wreck.signature⟩ a.summary ∧
      (∀ id entity, a.context.heap.live? id = some entity → entity.Settled findings) := by
  obtain ⟨findings, e', source, hx, -, -, hsources, -, -, htriggers⟩ := wreckEngine_execute
  obtain ⟨s, m, a, l, cache, -, hc, -, hcache, hsettled, -⟩ :=
    entry_settled (.ofSettings ..) (Program.keyed_empty.addMethods _) hx
  exact ⟨findings, e', s, m, a, l, cache, hx, by simp [hsources, htriggers], hc, hcache, hsettled⟩

end Engine

end SinkTrace
