import SinkTrace.Proofs.Findings

/-!
Findings under any operations on any ids, known or not. An id that was given out names a source
ever after, whatever id the source has by then; no source is lost or doubled, and no trigger that
was accepted for it is. The program stops where it would have to count past the last word; up to
there no id is given out twice.
-/

namespace SinkTrace

namespace Findings

variable {f f' : Findings} {id : TaintId}

/-- What the id was replaced by, if it was. -/
def replacement? (f : Findings) (id : TaintId) : Option TaintId :=
  (f.redirects.reverse.find? (·.1 == id)).map Prod.snd

/-- Going on from each id to its replacement comes to an end, at the second id. -/
inductive Settles (f : Findings) : TaintId → TaintId → Prop where
  | stop {id : TaintId} (hn : f.replacement? id = none) : Settles f id id
  | follow {id next last : TaintId} (hn : f.replacement? id = some next)
    (hs : Settles f next last) : Settles f id last

theorem replacement?_congr (hr : f'.redirects = f.redirects) (id : TaintId) :
    f'.replacement? id = f.replacement? id := by
  rw [replacement?, replacement?, hr]

theorem resolve_congr (hr : f'.redirects = f.redirects) (id : TaintId) :
    f'.resolve id = f.resolve id := by
  rw [resolve, resolve, hr]

theorem Settles.congr {last : TaintId} (hs : f.Settles id last)
    (hr : f'.redirects = f.redirects) : f'.Settles id last := by
  induction hs with
  | stop hn => exact .stop (replacement?_congr hr _ ▸ hn)
  | follow hn _ ih => exact .follow (replacement?_congr hr _ ▸ hn) ih

/-- Only ids that were given out are replaced. -/
theorem replacement?_fresh (hr : ∀ r ∈ f.redirects, r.1 < id) : f.replacement? id = none := by
  rw [replacement?, Option.map_eq_none_iff, List.find?_eq_none]
  intro r hm he
  exact Nat.ne_of_lt (hr r (List.mem_reverse.mp hm)) (beq_iff_eq.mp he)

theorem replacement?_moved (f : Findings) (old : TaintId) (s : Source) (id : TaintId) :
    (f.moved old s).replacement? id =
      if id = f.resolve old then some f.nextId else f.replacement? id := by
  unfold replacement? moved
  rw [List.reverse_append, List.reverse_singleton, List.singleton_append, List.find?_cons]
  by_cases hid : id = f.resolve old
  · simp [hid]
  · have hne : (f.resolve old == id) = false := beq_eq_false_iff_ne.mpr (Ne.symm hid)
    rw [if_neg hid]
    simp only [hne]

/-- The last id of a chain, where a source leaves it, leads on to the new one. -/
theorem Settles.moved {old last : TaintId} (hs : f.Settles id last) (s : Source)
    (hold : f.replacement? (f.resolve old) = none)
    (hnew : (f.moved old s).replacement? f.nextId = none) :
    (f.moved old s).Settles id (if last = f.resolve old then f.nextId else last) := by
  induction hs with
  | @stop id hn =>
    by_cases hid : id = f.resolve old
    · rw [if_pos hid]
      exact .follow (by rw [replacement?_moved, if_pos hid]) (.stop hnew)
    · rw [if_neg hid]
      exact .stop (by rw [replacement?_moved, if_neg hid, hn])
  | @follow id next last hn _ ih =>
    have hne : id ≠ f.resolve old := by
      rintro rfl
      cases hold.symm.trans hn
    exact .follow (by rw [replacement?_moved, if_neg hne, hn]) ih

/-! What the operations answered. -/

/-- One operation, on any id. -/
inductive Operation where
  | register (method : Signature) (forward : CallStack)
  | reidentify (old : TaintId) (forward : CallStack)
  | trigger (taint : TaintId) (call : Trigger)
  | observe (taint : TaintId) (caller : SummaryKey)
  | externalCall

/-- The answers so far. -/
structure Journal where
  /-- Registered sources. -/
  registered : Nat := 0
  /-- Ids that were given out. -/
  issued : List TaintId := []
  /-- Triggers that were news, with the ids for which they were noted. -/
  accepted : List (TaintId × Trigger) := []

/-- Performs the operation and enters its answer in the journal. -/
def perform (f : Findings) (j : Journal) : Operation → Findings × Journal
  | .register method forward =>
    ((f.addSource method forward).2,
      { j with registered := j.registered + 1
               issued := j.issued ++ [(f.addSource method forward).1] })
  | .reidentify old forward =>
    ((f.reidentify old forward).2,
      if (f.source? old).isSome then
        { j with issued := j.issued ++ [(f.reidentify old forward).1] }
      else j)
  | .trigger taint call =>
    ((f.addTrigger taint call).2,
      if (f.addTrigger taint call).1 then { j with accepted := j.accepted ++ [(taint, call)] }
      else j)
  | .observe taint caller => (f.observe taint caller, j)
  | .externalCall => (f.recordExternalCall, j)

/-- All of the operations, one after another, from no findings on, as if there were ids without
end. -/
def performAll (ops : List Operation) : Findings × Journal :=
  ops.foldl (fun state op => state.1.perform state.2 op) ({}, {})

/-- Performs the operation, unless the program stops in it because it counts past the last word. -/
def perform? (f : Findings) (j : Journal) (op : Operation) : Option (Findings × Journal) :=
  let state := f.perform j op
  if state.1.isSpent then none else some state

/-- All of the operations, one after another, from no findings on. -/
def performAll? (ops : List Operation) : Option (Findings × Journal) :=
  ops.foldlM (fun state op => state.1.perform? state.2 op) ({}, {})

/-- The findings agree with the journal. -/
structure Accounts (f : Findings) (j : Journal) : Prop extends Keyed f where
  follows : ∀ id, f.Settles id (f.resolve id)
  current : ∀ s ∈ f.sources, f.replacement? s.id = none
  named : ∀ id ∈ j.issued, ∃ s, f.source? id = some s
  registered : f.sources.length = j.registered
  listed : ∀ entry ∈ j.accepted, ∃ s, f.source? entry.1 = some s ∧ entry.2 ∈ s.triggers
  once : ∀ s ∈ f.sources, s.triggers.Nodup
  pattern : f.hasPattern = f.sources.any Source.hasPattern

variable {j : Journal}

theorem accounts_empty : Accounts {} {} where
  toKeyed := keyed_empty
  follows _ := .stop rfl
  current _ hs := absurd hs List.not_mem_nil
  named _ hm := absurd hm List.not_mem_nil
  registered := rfl
  listed _ hm := absurd hm List.not_mem_nil
  once _ hs := absurd hs List.not_mem_nil
  pattern := rfl

/-- What names a source before names one after, and what is listed stays listed. -/
theorem Accounts.retained (ha : Accounts f j) (hr : Retains f f') :
    (∀ id ∈ j.issued, ∃ s, f'.source? id = some s) ∧
      ∀ entry ∈ j.accepted, ∃ s, f'.source? entry.1 = some s ∧ entry.2 ∈ s.triggers := by
  refine ⟨fun id hm => hr.known (ha.named id hm), fun entry hm => ?_⟩
  obtain ⟨s, hs, ht⟩ := ha.listed entry hm
  obtain ⟨s', hs', hsub⟩ := hr entry.1 s hs
  exact ⟨s', hs', hsub entry.2 ht⟩

/-- A change that gives out no id and replaces none. -/
theorem Accounts.edit (ha : Accounts f j) (hk : f'.Keyed) (hr : f'.redirects = f.redirects)
    (hids : f'.sources.map Source.id = f.sources.map Source.id) (hkeep : Retains f f')
    (honce : ∀ s ∈ f'.sources, s.triggers.Nodup)
    (hpattern : f'.hasPattern = f'.sources.any Source.hasPattern) : Accounts f' j where
  toKeyed := hk
  follows id := resolve_congr hr id ▸ (ha.follows id).congr hr
  current s hs := by
    have hm : s.id ∈ f'.sources.map Source.id := List.mem_map_of_mem hs
    rw [hids] at hm
    obtain ⟨s₀, hs₀, hid⟩ := List.mem_map.mp hm
    rw [replacement?_congr hr, ← hid]
    exact ha.current s₀ hs₀
  named := (ha.retained hkeep).1
  registered := by
    rw [← ha.registered, ← List.length_map (f := Source.id), hids, List.length_map]
  listed := (ha.retained hkeep).2
  once := honce
  pattern := hpattern

theorem Accounts.complain (ha : Accounts f j) (c : Complaint) : Accounts (f.complain c) j :=
  ha.edit ⟨ha.ids, ha.distinct, ha.replaced, ha.settled, ha.issued, ha.given⟩ rfl rfl (.refl f)
    ha.once ha.pattern

theorem Accounts.recordExternalCall (ha : Accounts f j) : Accounts f.recordExternalCall j :=
  ha.edit ⟨ha.ids, ha.distinct, ha.replaced, ha.settled, ha.issued, ha.given⟩ rfl rfl (.refl f)
    ha.once ha.pattern

theorem Accounts.observe (ha : Accounts f j) (taint : TaintId) (caller : SummaryKey) :
    Accounts (f.observe taint caller) j := by
  have hkeep : ∀ s : Source, (if s.id = f.resolve taint then s.observe caller else s).triggers =
      s.triggers := by
    intro s
    split
    · exact (s.keeps_observe caller).2
    · rfl
  have hid : ∀ s : Source, (s.observe caller).id = s.id := fun s => (s.keeps_observe caller).1
  refine ha.edit (ha.toKeyed.modify _ hid) rfl (ids_modify f _ hid)
    (f.retains_modify _ hid fun s _ hx => (s.keeps_observe caller).2 ▸ hx) ?_ ?_
  · intro s hs
    obtain ⟨s₀, hs₀, rfl⟩ := List.mem_map.mp hs
    exact hkeep s₀ ▸ ha.once s₀ hs₀
  · have hsame : (fun s : Source =>
        (if s.id = f.resolve taint then s.observe caller else s).hasPattern) =
        Source.hasPattern := by
      funext s
      rw [Source.hasPattern, hkeep, Source.hasPattern]
    change f.hasPattern = (f.sources.map _).any Source.hasPattern
    rw [List.any_map, ha.pattern]
    exact congrArg f.sources.any hsame.symm

/-- The new source has an id that was not given out before, and no trigger. -/
theorem Accounts.register (ha : Accounts f j) (method : Signature) (forward : CallStack) :
    Accounts (f.addSource method forward).2
      { j with registered := j.registered + 1
               issued := j.issued ++ [(f.addSource method forward).1] } := by
  have hr := redirects_addSource f method forward
  have hsources := sources_addSource ha.ids method forward
  have hkeep := ha.retained (ha.toKeyed.retains_addSource method forward)
  refine ⟨ha.toKeyed.addSource method forward, fun id => ?_, fun s hs => ?_, fun id hm => ?_, ?_,
    hkeep.2, fun s hs => ?_, ?_⟩
  · exact resolve_congr hr id ▸ (ha.follows id).congr hr
  · rw [replacement?_congr hr]
    rcases mem_sources_addSource hs with hs | rfl
    · exact ha.current s hs
    · exact replacement?_fresh ha.replaced
  · rcases List.mem_append.mp hm with hm | hm
    · exact hkeep.1 id hm
    · cases List.mem_singleton.mp hm
      exact ⟨_, ha.toKeyed.source?_addSource method forward⟩
  · rw [hsources, List.length_append, ha.registered]
    rfl
  · rcases mem_sources_addSource hs with hs | rfl
    · exact ha.once s hs
    · exact List.nodup_nil
  · rw [hsources, List.any_append, ← ha.pattern, hasPattern_addSource]
    exact (Bool.or_false _).symm

/-- No two sources have the same id. -/
theorem Keyed.unique (hk : f.Keyed) {s s' : Source} (hs : s ∈ f.sources) (hs' : s' ∈ f.sources)
    (hid : s.id = s'.id) : s = s' := List.inj_on_of_nodup_map hk.distinct hs hs' hid

theorem Keyed.any_moved (hk : f.Keyed) {old : TaintId} {s : Source} (forward : CallStack)
    (hs : f.sources.find? (·.id == f.resolve old) = some s) :
    (f.moved old { s with id := f.nextId, forward }).sources.any Source.hasPattern =
      f.sources.any Source.hasPattern := by
  have hid : s.id = f.resolve old := by simpa using List.find?_some hs
  have hm : s ∈ f.sources := List.mem_of_find?_eq_some hs
  rw [Bool.eq_iff_iff, List.any_eq_true, List.any_eq_true]
  constructor
  · rintro ⟨x, hx, hp⟩
    rcases mem_sources_moved hx with ⟨hx, _⟩ | rfl
    · exact ⟨x, hx, hp⟩
    · exact ⟨s, hm, hp⟩
  · rintro ⟨x, hx, hp⟩
    by_cases hxid : x.id = f.resolve old
    · cases hk.unique hx hm (hxid.trans hid.symm)
      exact ⟨_, List.mem_append_right _ (List.mem_singleton_self _), hp⟩
    · refine ⟨x, List.mem_append_left _ (List.mem_filter.mpr ⟨hx, ?_⟩), hp⟩
      simpa using hxid

theorem Accounts.moved (ha : Accounts f j) {old : TaintId} {s : Source} (forward : CallStack)
    (hs : f.sources.find? (·.id == f.resolve old) = some s) :
    Accounts (f.moved old { s with id := f.nextId, forward })
      { j with issued := j.issued ++ [f.nextId] } := by
  have hid : s.id = f.resolve old := by simpa using List.find?_some hs
  have hm : s ∈ f.sources := List.mem_of_find?_eq_some hs
  have hkeep := ha.retained (ha.toKeyed.retains_moved forward hs)
  have hnew : (f.moved old { s with id := f.nextId, forward }).replacement? f.nextId = none := by
    rw [replacement?_moved, if_neg (Nat.ne_of_gt (ha.toKeyed.resolve_lt hs))]
    exact replacement?_fresh ha.replaced
  refine ⟨ha.toKeyed.moved hs, fun id => ?_, fun x hx => ?_, fun id hi => ?_,
    (ha.toKeyed.length_moved hs _).trans ha.registered, hkeep.2, fun x hx => ?_, ?_⟩
  · rw [resolve_moved]
    exact (ha.follows id).moved _ (hid ▸ ha.current s hm) hnew
  · rcases mem_sources_moved hx with ⟨hx, hne⟩ | rfl
    · rw [replacement?_moved, if_neg hne]
      exact ha.current x hx
    · exact hnew
  · rcases List.mem_append.mp hi with hi | hi
    · exact hkeep.1 id hi
    · cases List.mem_singleton.mp hi
      exact ⟨_, ha.toKeyed.source?_moved forward hs⟩
  · rcases mem_sources_moved hx with ⟨hx, _⟩ | rfl
    · exact ha.once x hx
    · exact ha.once s hm
  · exact ha.pattern.trans (ha.toKeyed.any_moved forward hs).symm

theorem reidentify_of_none {id : TaintId} (hn : f.source? id = none) (forward : CallStack) :
    f.reidentify id forward = (f.resolve id, f.complain (.unknownId (f.resolve id))) := by
  rw [source?] at hn
  simp only [Findings.reidentify, hn]

/-- A trigger that is news goes to the one source that the id names. -/
theorem Accounts.trigger (ha : Accounts f j) {taint : TaintId} {call : Trigger} {s : Source}
    (hs : f.source? taint = some s) (hnew : s.hasTrigger call = false) :
    Accounts { f.modify (f.resolve taint) (·.addTrigger call) with hasPattern := true }
      { j with accepted := j.accepted ++ [(taint, call)] } := by
  have hsid : s.id = f.resolve taint := by simpa using List.find?_some hs
  have hm : s ∈ f.sources := List.mem_of_find?_eq_some hs
  have hadd : ∀ x : Source, (x.addTrigger call).id = x.id := fun _ => rfl
  have hkeep := f.retains_modify (f.resolve taint) hadd
    fun x _ ht => List.mem_append_left [call] ht
  have hk := ha.toKeyed.modify (f.resolve taint) hadd
  have hfound : (f.modify (f.resolve taint) (·.addTrigger call)).source? taint =
      some (s.addTrigger call) := by
    rw [source?_modify f _ hadd, hs, Option.map_some, if_pos hsid]
  have hedit : Accounts { f.modify (f.resolve taint) (·.addTrigger call) with hasPattern := true }
      j := by
    refine ha.edit ⟨hk.ids, hk.distinct, hk.replaced, hk.settled, hk.issued, hk.given⟩ rfl
      (ids_modify f _ hadd) hkeep ?_ ?_
    · intro x hx
      obtain ⟨x₀, hx₀, rfl⟩ := List.mem_map.mp hx
      split
      · rename_i hxid
        cases ha.toKeyed.unique hx₀ hm (hxid.trans hsid.symm)
        refine List.nodup_append.mpr ⟨ha.once s hm, List.nodup_singleton _, ?_⟩
        intro t ht t' ht' he
        have hsame : t = call := he.trans (List.mem_singleton.mp ht')
        refine absurd ?_ (Bool.eq_false_iff.mp hnew)
        exact List.any_eq_true.mpr ⟨t, ht, TargetCall.sameCall_iff.mpr hsame⟩
      · exact ha.once x₀ hx₀
    · refine (List.any_eq_true.mpr ⟨s.addTrigger call, ?_, ?_⟩).symm
      · exact List.mem_of_find?_eq_some hfound
      · simp [Source.hasPattern, Source.addTrigger]
  refine { hedit with listed := fun entry he => ?_ }
  rcases List.mem_append.mp he with he | he
  · exact hedit.listed entry he
  · cases List.mem_singleton.mp he
    exact ⟨_, hfound, List.mem_append_right _ (List.mem_singleton_self call)⟩

/-- Each operation, whatever its id. -/
theorem Accounts.perform (ha : Accounts f j) (op : Operation) :
    Accounts (f.perform j op).1 (f.perform j op).2 := by
  cases op with
  | register method forward => exact ha.register method forward
  | reidentify old forward =>
    simp only [Findings.perform]
    cases hs : f.source? old with
    | none =>
      rw [reidentify_of_none hs]
      exact ha.complain _
    | some s =>
      rw [reidentify_of_some hs]
      exact ha.moved forward hs
  | trigger taint call =>
    simp only [Findings.perform]
    rcases f.addTrigger_answer taint call with he | ⟨c, he⟩ | ⟨s, hs, hnew, he⟩
    · rw [he]
      exact ha
    · rw [he]
      exact ha.complain c
    · rw [he]
      exact ha.trigger hs hnew
  | observe taint caller => exact ha.observe taint caller
  | externalCall => exact ha.recordExternalCall

theorem accounts_performAll (ops : List Operation) :
    Accounts (performAll ops).1 (performAll ops).2 := by
  unfold performAll
  generalize hs : (({}, {}) : Findings × Journal) = state
  have ha : Accounts state.1 state.2 := hs ▸ accounts_empty
  clear hs
  induction ops generalizing state with
  | nil => exact ha
  | cons op ops ih => exact ih _ (ha.perform op)

/-! How far the ids go. -/

/-- An operation counts on by the ids that it gives out. -/
theorem nextId_perform (f : Findings) (j : Journal) (op : Operation) :
    ∃ n, (f.perform j op).1.nextId = f.nextId + n ∧
      (f.perform j op).2.issued.length = j.issued.length + n := by
  cases op with
  | register method forward =>
    exact ⟨1, nextId_addSource f method forward, List.length_append⟩
  | reidentify old forward =>
    simp only [Findings.perform]
    cases hs : f.source? old with
    | none =>
      rw [reidentify_of_none hs]
      exact ⟨0, rfl, rfl⟩
    | some s =>
      rw [reidentify_of_some hs]
      exact ⟨1, rfl, List.length_append⟩
  | trigger taint call =>
    simp only [Findings.perform]
    rcases f.addTrigger_answer taint call with he | ⟨c, he⟩ | ⟨s, -, -, he⟩ <;> rw [he] <;>
      exact ⟨0, rfl, rfl⟩
  | observe taint caller => exact ⟨0, rfl, rfl⟩
  | externalCall => exact ⟨0, rfl, rfl⟩

theorem nextId_performAll (ops : List Operation) :
    (performAll ops).1.nextId = TaintId.firstSource + (performAll ops).2.issued.length := by
  unfold performAll
  generalize hs : (({}, {}) : Findings × Journal) = state
  have hcount : state.1.nextId = TaintId.firstSource + state.2.issued.length := hs ▸ rfl
  clear hs
  induction ops generalizing state with
  | nil => exact hcount
  | cons op ops ih =>
    obtain ⟨n, hnext, hissued⟩ := nextId_perform state.1 state.2 op
    exact ih _ (by rw [hnext, hissued, hcount, Nat.add_assoc])

theorem isSpent_perform {j : Journal} {op : Operation} (hf : f.isSpent = true) :
    (f.perform j op).1.isSpent = true := by
  obtain ⟨n, hnext, -⟩ := nextId_perform f j op
  rw [isSpent, decide_eq_true_eq] at hf ⊢
  exact hnext ▸ Nat.le_add_right_of_le hf

/-- Findings that are spent remain so, so it is enough to look at the end. -/
theorem performAll?_eq (ops : List Operation) :
    performAll? ops =
      if (performAll ops).1.isSpent then none else some (performAll ops) := by
  unfold performAll? performAll
  generalize hs : (({}, {}) : Findings × Journal) = state
  have hspent : state.1.isSpent = false := hs ▸ rfl
  clear hs
  induction ops generalizing state with
  | nil => simp [hspent]
  | cons op ops ih =>
    rw [List.foldlM_cons, List.foldl_cons, perform?]
    cases hop : (state.1.perform state.2 op).1.isSpent with
    | false => simpa [hop] using ih _ hop
    | true =>
      have hend := List.foldlRecOn (motive := fun s : Findings × Journal => s.1.isSpent = true)
        ops (fun state op => state.1.perform state.2 op) hop fun _ h _ _ => isSpent_perform h
      simp [hend]

/-- The program stops at the first id that has no successor. -/
theorem isSpent_performAll (ops : List Operation) :
    (performAll ops).1.isSpent = true ↔ UInt32.size - 2 ≤ (performAll ops).2.issued.length := by
  rw [isSpent, decide_eq_true_eq, nextId_performAll, UInt32.size, TaintId.firstSource]
  omega

theorem observe_of_none {id : TaintId} (hn : f.source? id = none) (caller : SummaryKey) :
    f.observe id caller = f := by
  have hmap : f.sources.map (fun s => if s.id = f.resolve id then s.observe caller else s) =
      f.sources.map fun s => s := by
    refine List.map_congr_left fun s hs => if_neg fun hid => ?_
    exact List.find?_eq_none.mp hn s hs (beq_iff_eq.mpr hid)
  rw [List.map_id'] at hmap
  rw [Findings.observe, Findings.modify, hmap]

theorem addTrigger_of_none {id : TaintId} (hn : f.source? id = none) (call : Trigger) :
    f.addTrigger id call = (false,
      if TaintId.isTainted id then f.complain (.unknownTrigger (f.resolve id) call.signature)
      else f) := by
  rw [source?] at hn
  unfold Findings.addTrigger
  split
  · simp only [hn]
  · rfl

/-! The laws. -/

/-- What holds of the findings after the operations of a journal. -/
structure Lawful (f : Findings) (j : Journal) : Prop where
  /-- Every id, given out or not, has a last replacement, the one that `resolve` answers. -/
  resolves : ∀ id, f.Settles id (f.resolve id)
  /-- An id that was given out leads to a source, which is under its own id. -/
  present : ∀ id ∈ j.issued, ∃ s ∈ f.sources, s.id = f.resolve id ∧ f.source? id = some s
  /-- The sources have different ids, none of which is replaced. -/
  current : (f.sources.map Source.id).Nodup ∧ ∀ s ∈ f.sources, f.replacement? s.id = none
  counted : f.sources.length = j.registered
  /-- A trigger that was news for an id is noted once for the source that the id leads to. -/
  listed : ∀ entry ∈ j.accepted, ∃ s, f.source? entry.1 = some s ∧
    s.triggers.countP (·.sameCall entry.2) = 1
  /-- For an id without a source there is at most a complaint. -/
  unknown : ∀ id, f.source? id = none →
    (∀ forward, f.reidentify id forward =
      (f.resolve id, f.complain (.unknownId (f.resolve id)))) ∧
    (∀ call : Trigger, f.addTrigger id call = (false,
      if TaintId.isTainted id then f.complain (.unknownTrigger (f.resolve id) call.signature)
      else f)) ∧
    ∀ caller, f.observe id caller = f
  pattern : f.hasPattern = true ↔ 1 ≤ f.patternCount

theorem lawful_performAll (ops : List Operation) :
    Lawful (performAll ops).1 (performAll ops).2 := by
  have ha := accounts_performAll ops
  refine ⟨ha.follows, fun id hm => ?_, ⟨ha.distinct, ha.current⟩, ha.registered,
    fun entry hm => ?_, fun id hn => ⟨reidentify_of_none hn, addTrigger_of_none hn,
      observe_of_none hn⟩, ?_⟩
  · obtain ⟨s, hs⟩ := ha.named id hm
    have hid : s.id = (performAll ops).1.resolve id := by simpa using List.find?_some hs
    exact ⟨s, List.mem_of_find?_eq_some hs, hid, hs⟩
  · obtain ⟨s, hs, ht⟩ := ha.listed entry hm
    refine ⟨s, hs, ?_⟩
    have hcount := List.count_eq_one_of_mem (ha.once s (List.mem_of_find?_eq_some hs)) ht
    rw [← hcount, List.count]
    refine List.countP_congr fun t _ => ?_
    rw [TargetCall.sameCall_iff, beq_iff_eq]
  · rw [ha.pattern, List.any_eq_true]
    exact List.countP_pos_iff.symm

/-- The laws of the findings: they hold after any operations on any ids. The program gets to the
end of the operations exactly if they do not take more ids than there are. -/
theorem performAll?_lawful (ops : List Operation) :
    match performAll? ops with
    | some (f, j) => Lawful f j ∧ j.issued.length < UInt32.size - 2
    | none => UInt32.size - 2 ≤ (performAll ops).2.issued.length := by
  rw [performAll?_eq]
  cases hspent : (performAll ops).1.isSpent with
  | true => exact (isSpent_performAll ops).mp hspent
  | false =>
    refine ⟨lawful_performAll ops, Nat.lt_of_not_le fun h => ?_⟩
    rw [(isSpent_performAll ops).mpr h] at hspent
    cases hspent

-- The first id still leads to the source, and to its trigger, after two moves.
example :
    (performAll? [.register "M" .empty, .reidentify 2 .empty, .trigger 2 ⟨"N", .empty⟩,
      .reidentify 2 .empty, .trigger 3 ⟨"N", .empty⟩]).any (fun (f, j) =>
        f.resolve 2 = 4 ∧ j.issued = [2, 3, 4] ∧ j.accepted.length = 1 ∧
          (f.source? 2).map Source.triggers = some [⟨"N", .empty⟩]) := by decide

end Findings

end SinkTrace
