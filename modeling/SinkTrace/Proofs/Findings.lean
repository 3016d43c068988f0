import Mathlib.Data.List.Nodup
import SinkTrace.Engine.Provenance
import SinkTrace.Proofs.Table

/-!
What is once found stays found. A taint may name another id later, but it keeps naming a source,
and that source keeps its triggers.
-/

namespace SinkTrace

namespace CallStack

/-- There is a frame. -/
def Rooted (s : CallStack) : Prop := s.isEmpty = false

theorem rooted_push (s : CallStack) (key : SummaryKey) : (s.push key).Rooted := rfl

theorem Rooted.rebase {base : CallStack} (hb : base.Rooted) (s : CallStack) (depth : Nat) :
    (s.rebase depth base).Rooted := by
  unfold CallStack.rebase
  split
  · exact hb
  · generalize s.toList.drop depth = keys
    induction keys generalizing base with
    | nil => exact hb
    | cons key keys ih => exact ih (rooted_push base key)

/-- The depth is the number of frames. -/
def Counted (s : CallStack) : Prop := s.depth = s.frames.length

theorem counted_empty : empty.Counted := rfl

theorem Counted.push {s : CallStack} (hs : s.Counted) (key : SummaryKey) : (s.push key).Counted :=
  congrArg Nat.succ hs

theorem Counted.rebase {base : CallStack} (hb : base.Counted) (s : CallStack) (depth : Nat) :
    (s.rebase depth base).Counted := by
  unfold CallStack.rebase
  split
  · exact hb
  · generalize s.toList.drop depth = keys
    induction keys generalizing base with
    | nil => exact hb
    | cons key keys ih => exact ih (hb.push key)

end CallStack

theorem Source.keeps_observe (s : Source) (caller : SummaryKey) :
    (s.observe caller).id = s.id ∧ (s.observe caller).triggers = s.triggers := by
  unfold Source.observe
  split <;> exact ⟨rfl, rfl⟩

namespace Findings

variable {f f' f'' : Findings}

/-- The call is a trigger of the source that a taint names. -/
def Reported (f : Findings) (taint : TaintId) (call : TargetCall) : Prop :=
  ∃ s, f.source? taint = some s ∧
    ∃ t ∈ s.triggers, t.signature = call.signature ∧ t.stack.frames = call.stack.frames

/-- Ids are given out in ascending order from the first source on, one for each source and one for
each replacement, and a replaced id is not given out again. -/
structure Keyed (f : Findings) : Prop where
  ids : ∀ s ∈ f.sources, s.id < f.nextId
  distinct : (f.sources.map Source.id).Nodup
  replaced : ∀ r ∈ f.redirects, r.1 < f.nextId
  settled : ∀ t, f.resolve (f.resolve t) = f.resolve t
  issued : ∀ s ∈ f.sources, TaintId.firstSource ≤ s.id
  given : f.nextId = TaintId.firstSource + f.redirects.length + f.sources.length

/-- Moreover there was nothing to complain about. -/
structure Orderly (f : Findings) : Prop extends Keyed f where
  quiet : f.complaints = []

/-- Taints name the same sources, which have at least their triggers. -/
def Retains (f f' : Findings) : Prop :=
  ∀ t s, f.source? t = some s → ∃ s', f'.source? t = some s' ∧ ∀ x ∈ s.triggers, x ∈ s'.triggers

/-- `f'` has what `f` has. -/
structure Extends (f f' : Findings) : Prop where
  orderly : f'.Orderly
  retains : Retains f f'

theorem keyed_empty : Keyed {} :=
  ⟨fun _ hs => absurd hs List.not_mem_nil, List.nodup_nil, fun _ hr => absurd hr List.not_mem_nil,
    fun _ => rfl, fun _ hs => absurd hs List.not_mem_nil, rfl⟩

theorem orderly_empty : Orderly {} := ⟨keyed_empty, rfl⟩

theorem Keyed.first (hk : f.Keyed) : TaintId.firstSource ≤ f.nextId := by
  rw [hk.given, Nat.add_assoc]
  exact Nat.le_add_right ..

theorem Retains.refl (f : Findings) : Retains f f := fun _ _ hs => ⟨_, hs, fun _ hx => hx⟩

theorem Retains.trans (h₁ : Retains f f') (h₂ : Retains f' f'') : Retains f f'' := by
  intro t s hs
  obtain ⟨s', hs', hsub⟩ := h₁ t s hs
  obtain ⟨s'', hs'', hsub'⟩ := h₂ t s' hs'
  exact ⟨s'', hs'', fun x hx => hsub' x (hsub x hx)⟩

theorem Retains.known (hr : Retains f f') {t : TaintId} (hk : ∃ s, f.source? t = some s) :
    ∃ s, f'.source? t = some s := by
  obtain ⟨s, hs⟩ := hk
  obtain ⟨s', hs', _⟩ := hr t s hs
  exact ⟨s', hs'⟩

theorem Extends.refl (ho : f.Orderly) : Extends f f := ⟨ho, .refl f⟩

theorem Extends.trans (h₁ : Extends f f') (h₂ : Extends f' f'') : Extends f f'' :=
  ⟨h₂.orderly, h₁.retains.trans h₂.retains⟩

theorem Extends.source (he : Extends f f') {t : TaintId} {s : Source} (hs : f.source? t = some s) :
    ∃ s', f'.source? t = some s' ∧ ∀ x ∈ s.triggers, x ∈ s'.triggers := he.retains t s hs

theorem Extends.known (he : Extends f f') {t : TaintId} (hk : ∃ s, f.source? t = some s) :
    ∃ s, f'.source? t = some s := he.retains.known hk

theorem Extends.reported (he : Extends f f') {t : TaintId} {call : TargetCall}
    (hr : f.Reported t call) : f'.Reported t call := by
  obtain ⟨s, hs, trigger, hm, hsame⟩ := hr
  obtain ⟨s', hs', hsub⟩ := he.source hs
  exact ⟨s', hs', trigger, hsub trigger hm, hsame⟩

theorem resolve_of_lt {id : TaintId} (hr : ∀ r ∈ f.redirects, r.1 < id) : f.resolve id = id := by
  unfold resolve
  generalize f.redirects = rs at hr
  induction rs with
  | nil => rfl
  | cons r rs ih =>
    obtain ⟨hfirst, hrest⟩ := List.forall_mem_cons.mp hr
    simp only [List.foldl_cons, if_neg (Nat.ne_of_gt hfirst)]
    exact ih hrest

/-- An id that was not given out names itself. -/
theorem Keyed.resolve_fresh (hk : f.Keyed) {id : TaintId} (hid : f.nextId ≤ id) :
    f.resolve id = id := resolve_of_lt fun r hr => Nat.lt_of_lt_of_le (hk.replaced r hr) hid

/-- A taint and the id it resolves to name one source. -/
theorem Keyed.source?_resolve (hk : f.Keyed) (t : TaintId) :
    f.source? (f.resolve t) = f.source? t := by
  rw [source?, source?, hk.settled]

/-- What names a source resolves to the id of one. -/
theorem Orderly.firstSource_le (ho : f.Orderly) {t : TaintId} (hk : ∃ s, f.source? t = some s) :
    TaintId.firstSource ≤ f.resolve t := by
  obtain ⟨s, hs⟩ := hk
  have hid : s.id = f.resolve t := by simpa using List.find?_some hs
  exact hid ▸ ho.issued s (List.mem_of_find?_eq_some hs)

/-! Changing a source in place. -/

theorem find?_map_id {xs : List Source} {g : Source → Source} (hg : ∀ s, (g s).id = s.id)
    (id : TaintId) : (xs.map g).find? (·.id == id) = (xs.find? (·.id == id)).map g := by
  induction xs with
  | nil => rfl
  | cons s xs ih =>
    by_cases hs : s.id = id
    · simp [hg, hs]
    · simp [hg, hs, ih]

theorem source?_modify (f : Findings) (id : TaintId) {g : Source → Source}
    (hg : ∀ s, (g s).id = s.id) (t : TaintId) :
    (f.modify id g).source? t = (f.source? t).map fun s => if s.id = id then g s else s := by
  apply find?_map_id
  intro s
  split
  · exact hg s
  · rfl

theorem ids_modify (f : Findings) (id : TaintId) {g : Source → Source}
    (hg : ∀ s, (g s).id = s.id) :
    (f.modify id g).sources.map Source.id = f.sources.map Source.id := by
  unfold Findings.modify
  rw [List.map_map]
  refine List.map_congr_left fun s _ => ?_
  simp only [Function.comp_apply]
  split
  · exact hg s
  · rfl

theorem length_modify (f : Findings) (id : TaintId) (g : Source → Source) :
    (f.modify id g).sources.length = f.sources.length := List.length_map _

theorem Keyed.modify (hk : f.Keyed) (id : TaintId) {g : Source → Source}
    (hg : ∀ s, (g s).id = s.id) : (f.modify id g).Keyed := by
  have hids : ∀ s ∈ (f.modify id g).sources, ∃ s₀ ∈ f.sources, s.id = s₀.id := by
    intro s hs
    have hm : s.id ∈ (f.modify id g).sources.map Source.id := List.mem_map_of_mem hs
    rw [ids_modify f id hg] at hm
    obtain ⟨s₀, hs₀, hid⟩ := List.mem_map.mp hm
    exact ⟨s₀, hs₀, hid.symm⟩
  refine ⟨?_, ?_, hk.replaced, hk.settled, ?_, ?_⟩
  · intro s hs
    obtain ⟨s₀, hs₀, hid⟩ := hids s hs
    exact hid ▸ hk.ids s₀ hs₀
  · rw [ids_modify f id hg]
    exact hk.distinct
  · intro s hs
    obtain ⟨s₀, hs₀, hid⟩ := hids s hs
    exact hid ▸ hk.issued s₀ hs₀
  · rw [length_modify]
    exact hk.given

theorem retains_modify (f : Findings) (id : TaintId) {g : Source → Source}
    (hg : ∀ s, (g s).id = s.id) (hsub : ∀ s, ∀ x ∈ s.triggers, x ∈ (g s).triggers) :
    Retains f (f.modify id g) := by
  intro t s hs
  refine ⟨_, by rw [source?_modify f id hg, hs]; rfl, fun x hx => ?_⟩
  simp only
  split
  · exact hsub s x hx
  · exact hx

/-- A change that keeps the id and the triggers of a source. -/
theorem Orderly.modify (ho : f.Orderly) (id : TaintId) {g : Source → Source}
    (hg : ∀ s, (g s).id = s.id) (hsub : ∀ s, ∀ x ∈ s.triggers, x ∈ (g s).triggers) :
    Extends f (f.modify id g) :=
  ⟨⟨ho.toKeyed.modify id hg, ho.quiet⟩, f.retains_modify id hg hsub⟩

theorem Orderly.observe (ho : f.Orderly) (taint : TaintId) (caller : SummaryKey) :
    Extends f (f.observe taint caller) :=
  ho.modify _ (fun s => (s.keeps_observe caller).1) fun s _ hx => (s.keeps_observe caller).2 ▸ hx

theorem Orderly.recordExternalCall (ho : f.Orderly) : Extends f f.recordExternalCall :=
  ⟨⟨⟨ho.ids, ho.distinct, ho.replaced, ho.settled, ho.issued, ho.given⟩, ho.quiet⟩, .refl f⟩

/-! New ids. -/

theorem find?_none_of_lt {xs : List Source} {id : TaintId} (hlt : ∀ s ∈ xs, s.id < id) :
    xs.find? (·.id == id) = none := by
  rw [List.find?_eq_none]
  intro s hs he
  exact absurd (beq_iff_eq.mp he) (Nat.ne_of_lt (hlt s hs))

/-- An id behind all that are taken. -/
theorem nodup_ids_concat {xs : List Source} {id : TaintId} (hd : (xs.map Source.id).Nodup)
    (hlt : ∀ s ∈ xs, s.id < id) : (xs.map Source.id ++ [id]).Nodup := by
  refine List.nodup_append.mpr ⟨hd, List.nodup_singleton _, fun i hi j hj he => ?_⟩
  obtain ⟨s, hs, rfl⟩ := List.mem_map.mp hi
  exact Nat.ne_of_lt (hlt s hs) (he.trans (List.mem_singleton.mp hj))

theorem nextId_addSource (f : Findings) (method : Signature) (forward : CallStack) :
    (f.addSource method forward).2.nextId = f.nextId + 1 := by
  unfold Findings.addSource complain
  simp only
  split <;> split <;> rfl

theorem redirects_addSource (f : Findings) (method : Signature) (forward : CallStack) :
    (f.addSource method forward).2.redirects = f.redirects := by
  unfold Findings.addSource complain
  simp only
  split <;> split <;> rfl

theorem hasPattern_addSource (f : Findings) (method : Signature) (forward : CallStack) :
    (f.addSource method forward).2.hasPattern = f.hasPattern := by
  unfold Findings.addSource complain
  simp only
  split <;> split <;> rfl

theorem mem_sources_addSource {method : Signature} {forward : CallStack} {s : Source}
    (hs : s ∈ (f.addSource method forward).2.sources) :
    s ∈ f.sources ∨ s = { id := f.nextId, method, forward } := by
  have hcases : (f.addSource method forward).2.sources = f.sources ∨
      (f.addSource method forward).2.sources =
        f.sources ++ [{ id := f.nextId, method, forward }] := by
    unfold Findings.addSource complain
    simp only
    split
    · split
      · exact .inl rfl
      · exact .inr rfl
    · split
      · exact .inl rfl
      · exact .inr rfl
  rcases hcases with hsame | hnew
  · exact .inl (hsame ▸ hs)
  · rw [hnew] at hs
    exact (List.mem_append.mp hs).imp_right List.mem_singleton.mp

/-- A new id belongs to no source yet. -/
theorem sources_addSource (hlt : ∀ s ∈ f.sources, s.id < f.nextId) (method : Signature)
    (forward : CallStack) : (f.addSource method forward).2.sources =
      f.sources ++ [{ id := f.nextId, method, forward }] := by
  have hfresh : f.sources.any (·.id == f.nextId) = false := by
    rw [List.any_eq_false]
    exact fun s hs he => Nat.ne_of_lt (hlt s hs) (beq_iff_eq.mp he)
  unfold Findings.addSource complain
  simp only
  split <;> simp [hfresh]

theorem complaints_addSource (hlt : ∀ s ∈ f.sources, s.id < f.nextId) (method : Signature)
    {forward : CallStack} (hr : forward.Rooted) :
    (f.addSource method forward).2.complaints = f.complaints := by
  have hfresh : f.sources.any (·.id == f.nextId) = false := by
    rw [List.any_eq_false]
    exact fun s hs he => Nat.ne_of_lt (hlt s hs) (beq_iff_eq.mp he)
  have hempty : forward.isEmpty = false := hr
  unfold Findings.addSource complain
  simp [hempty, hfresh]

theorem resolve_addSource (f : Findings) (method : Signature) (forward : CallStack) (t : TaintId) :
    (f.addSource method forward).2.resolve t = f.resolve t := by
  unfold resolve
  rw [redirects_addSource]

theorem Keyed.addSource (hk : f.Keyed) (method : Signature) (forward : CallStack) :
    (f.addSource method forward).2.Keyed := by
  have hsources := sources_addSource hk.ids method forward
  have hnext := nextId_addSource f method forward
  refine ⟨fun s hs => ?_, ?_, fun r hm => ?_, fun t => ?_, fun s hs => ?_, ?_⟩
  · rw [hnext]
    rcases mem_sources_addSource hs with hs | rfl
    · exact Nat.lt_succ_of_lt (hk.ids s hs)
    · exact Nat.lt_succ_self _
  · rw [hsources, List.map_append, List.map_singleton]
    exact nodup_ids_concat hk.distinct hk.ids
  · rw [redirects_addSource] at hm
    exact hnext ▸ Nat.lt_succ_of_lt (hk.replaced r hm)
  · rw [resolve_addSource, resolve_addSource, hk.settled]
  · rcases mem_sources_addSource hs with hs | rfl
    · exact hk.issued s hs
    · exact hk.first
  · rw [hnext, redirects_addSource, hsources, hk.given, List.length_append]
    rfl

theorem Keyed.retains_addSource (hk : f.Keyed) (method : Signature) (forward : CallStack) :
    Retains f (f.addSource method forward).2 := by
  intro t s hs
  have hfound : f.sources.find? (·.id == f.resolve t) = some s := hs
  refine ⟨s, ?_, fun _ hx => hx⟩
  rw [source?, resolve_addSource, sources_addSource hk.ids, List.find?_append, hfound]
  rfl

/-- The id that is given out names the new source. -/
theorem Keyed.source?_addSource (hk : f.Keyed) (method : Signature) (forward : CallStack) :
    (f.addSource method forward).2.source? (f.addSource method forward).1 =
      some { id := f.nextId, method, forward } := by
  have hself : f.resolve f.nextId = f.nextId := hk.resolve_fresh (Nat.le_refl _)
  change (f.addSource method forward).2.source? f.nextId = some _
  rw [source?, resolve_addSource, hself, sources_addSource hk.ids, List.find?_append,
    find?_none_of_lt hk.ids]
  simp

theorem Orderly.addSource (ho : f.Orderly) (method : Signature) {forward : CallStack}
    (hr : forward.Rooted) :
    Extends f (f.addSource method forward).2 ∧
      ∃ s, (f.addSource method forward).2.source? (f.addSource method forward).1 = some s :=
  ⟨⟨⟨ho.toKeyed.addSource method forward, (complaints_addSource ho.ids method hr).trans ho.quiet⟩,
    ho.toKeyed.retains_addSource method forward⟩, _, ho.toKeyed.source?_addSource method forward⟩

/-- What remains where a source is given a new id. -/
def moved (f : Findings) (old : TaintId) (s : Source) : Findings :=
  { f with sources := f.sources.filter (·.id != f.resolve old) ++ [s]
           redirects := f.redirects ++ [(f.resolve old, f.nextId)], nextId := f.nextId + 1 }

theorem reidentify_of_some {old : TaintId} {forward : CallStack} {s : Source}
    (hs : f.sources.find? (·.id == f.resolve old) = some s) :
    f.reidentify old forward = (f.nextId, f.moved old { s with id := f.nextId, forward }) := by
  simp only [reidentify, hs, moved]

theorem resolve_moved (f : Findings) (old : TaintId) (s : Source) (t : TaintId) :
    (f.moved old s).resolve t =
      if f.resolve t = f.resolve old then f.nextId else f.resolve t := by
  unfold resolve moved
  rw [List.foldl_append]
  rfl

theorem Keyed.source?_moved_of_eq (hk : f.Keyed) {old t : TaintId} {s : Source}
    (hid : s.id = f.nextId) (ht : (f.moved old s).resolve t = f.nextId) :
    (f.moved old s).source? t = some s := by
  have hnone := @find?_none_of_lt (f.sources.filter (·.id != f.resolve old)) f.nextId
    fun s hs => hk.ids s (List.mem_filter.mp hs).1
  rw [source?, ht]
  simp only [moved, List.find?_append, hnone, Option.none_or]
  simp [hid]

theorem source?_moved_of_ne {old t : TaintId} {s s' : Source}
    (ht : f.resolve t ≠ f.resolve old) (hs : f.source? t = some s') :
    (f.moved old s).source? t = some s' := by
  have hkept : (f.sources.filter (·.id != f.resolve old)).find? (·.id == f.resolve t) =
      f.sources.find? (·.id == f.resolve t) := by
    rw [List.find?_filter]
    congr 1
    funext x
    by_cases hx : x.id = f.resolve t
    · simp [hx, ht]
    · simp [hx]
  rw [source?, resolve_moved, if_neg ht]
  simp only [moved, List.find?_append, hkept]
  rw [source?] at hs
  rw [hs]
  rfl

theorem length_filter_ne {xs : List Source} {id : TaintId} (hd : (xs.map Source.id).Nodup)
    (hm : id ∈ xs.map Source.id) : (xs.filter (·.id != id)).length + 1 = xs.length := by
  induction xs with
  | nil => exact absurd hm List.not_mem_nil
  | cons s xs ih =>
    obtain ⟨hnew, hrest⟩ := List.nodup_cons.mp hd
    by_cases hs : s.id = id
    · -- no other source has the id
      have hkept : xs.filter (·.id != id) = xs := by
        refine List.filter_eq_self.mpr fun x hx => ?_
        have hne : x.id ≠ id := fun he => hnew (hs ▸ he ▸ List.mem_map_of_mem hx)
        simpa using hne
      simp [hs, hkept]
    · have hin : id ∈ xs.map Source.id :=
        (List.mem_cons.mp hm).resolve_left fun he => hs he.symm
      simp [hs, ih hrest hin]

/-- A source that moves is replaced. -/
theorem Keyed.length_moved (hk : f.Keyed) {old : TaintId} {s : Source}
    (hs : f.sources.find? (·.id == f.resolve old) = some s) (s' : Source) :
    (f.moved old s').sources.length = f.sources.length := by
  have hid : s.id = f.resolve old := by simpa using List.find?_some hs
  have hm : f.resolve old ∈ f.sources.map Source.id :=
    hid ▸ List.mem_map_of_mem (List.mem_of_find?_eq_some hs)
  rw [← length_filter_ne hk.distinct hm]
  exact List.length_append

theorem mem_sources_moved {old : TaintId} {s x : Source} (hx : x ∈ (f.moved old s).sources) :
    x ∈ f.sources ∧ x.id ≠ f.resolve old ∨ x = s := by
  rcases List.mem_append.mp hx with hm | hm
  · obtain ⟨hin, hne⟩ := List.mem_filter.mp hm
    exact .inl ⟨hin, by simpa using hne⟩
  · exact .inr (List.mem_singleton.mp hm)

/-- The id that is replaced was given out. -/
theorem Keyed.resolve_lt (hk : f.Keyed) {old : TaintId} {s : Source}
    (hs : f.sources.find? (·.id == f.resolve old) = some s) : f.resolve old < f.nextId := by
  have hid : s.id = f.resolve old := by simpa using List.find?_some hs
  exact hid ▸ hk.ids s (List.mem_of_find?_eq_some hs)

theorem Keyed.moved (hk : f.Keyed) {old : TaintId} {s : Source} {forward : CallStack}
    (hs : f.sources.find? (·.id == f.resolve old) = some s) :
    (f.moved old { s with id := f.nextId, forward }).Keyed := by
  have holdlt := hk.resolve_lt hs
  have hself : f.resolve f.nextId = f.nextId := hk.resolve_fresh (Nat.le_refl _)
  refine ⟨fun x hx => ?_, ?_, fun r hr => ?_, fun t => ?_, fun x hx => ?_, ?_⟩
  · rcases mem_sources_moved hx with ⟨hx, _⟩ | rfl
    · exact Nat.lt_succ_of_lt (hk.ids x hx)
    · exact Nat.lt_succ_self _
  · have hkept : (f.sources.filter (·.id != f.resolve old)).Sublist f.sources :=
      List.filter_sublist
    have hfresh := nodup_ids_concat (hk.distinct.sublist (hkept.map _))
      fun x hx => hk.ids x (hkept.subset hx)
    simpa only [Findings.moved, List.map_append, List.map_cons, List.map_nil] using hfresh
  · rcases List.mem_append.mp hr with hr | hr
    · exact Nat.lt_succ_of_lt (hk.replaced r hr)
    · cases List.mem_singleton.mp hr
      exact Nat.lt_succ_of_lt holdlt
  · by_cases ht : f.resolve t = f.resolve old
    · rw [resolve_moved f old _ t, if_pos ht, resolve_moved, hself,
        if_neg (Nat.ne_of_gt holdlt)]
    · rw [resolve_moved f old _ t, if_neg ht, resolve_moved, hk.settled, if_neg ht]
  · rcases mem_sources_moved hx with ⟨hx, _⟩ | rfl
    · exact hk.issued x hx
    · exact hk.first
  · rw [hk.length_moved hs]
    simp only [Findings.moved, List.length_append, List.length_singleton]
    exact (congrArg Nat.succ hk.given).trans (Nat.add_right_comm _ f.sources.length 1)

theorem Keyed.retains_moved (hk : f.Keyed) {old : TaintId} {s : Source} (forward : CallStack)
    (hs : f.sources.find? (·.id == f.resolve old) = some s) :
    Retains f (f.moved old { s with id := f.nextId, forward }) := by
  intro t x hx
  by_cases ht : f.resolve t = f.resolve old
  · have hsame : x = s := by
      rw [source?, ht, hs] at hx
      exact (Option.some.inj hx).symm
    have hnew := (resolve_moved f old { s with id := f.nextId, forward } t).trans (if_pos ht)
    exact ⟨_, hk.source?_moved_of_eq rfl hnew, fun _ hm => hsame ▸ hm⟩
  · exact ⟨x, source?_moved_of_ne ht hx, fun _ hm => hm⟩

/-- The id that is given out names the source that moved. -/
theorem Keyed.source?_moved (hk : f.Keyed) {old : TaintId} {s : Source} (forward : CallStack)
    (hs : f.sources.find? (·.id == f.resolve old) = some s) :
    (f.moved old { s with id := f.nextId, forward }).source? f.nextId =
      some { s with id := f.nextId, forward } := by
  refine hk.source?_moved_of_eq rfl ?_
  rw [resolve_moved, hk.resolve_fresh (Nat.le_refl _), if_neg (Nat.ne_of_gt (hk.resolve_lt hs))]

theorem Orderly.reidentify (ho : f.Orderly) {old : TaintId} (hk : ∃ s, f.source? old = some s)
    (forward : CallStack) :
    Extends f (f.reidentify old forward).2 ∧
      ∃ s, (f.reidentify old forward).2.source? (f.reidentify old forward).1 = some s := by
  obtain ⟨s, hs⟩ := hk
  rw [reidentify_of_some hs]
  exact ⟨⟨⟨ho.toKeyed.moved hs, ho.quiet⟩, ho.toKeyed.retains_moved forward hs⟩, _,
    ho.toKeyed.source?_moved forward hs⟩

theorem Orderly.length_reidentify (ho : f.Orderly) {old : TaintId}
    (hk : ∃ s, f.source? old = some s) (forward : CallStack) :
    (f.reidentify old forward).2.sources.length = f.sources.length := by
  obtain ⟨s, hs⟩ := hk
  rw [reidentify_of_some hs]
  exact ho.length_moved hs _

/-! Reporting. -/

/-- A call that is reported for a known source is one of its triggers from then on. -/
theorem Orderly.addTrigger (ho : f.Orderly) {taint : TaintId} (hk : ∃ s, f.source? taint = some s)
    (ht : TaintId.isTainted taint = true) (call : TargetCall) :
    Extends f (f.addTrigger taint call).2 ∧ (f.addTrigger taint call).2.Reported taint call := by
  obtain ⟨s, hs⟩ := hk
  have hfind : f.sources.find? (·.id == f.resolve taint) = some s := hs
  have hid : s.id = f.resolve taint := by simpa using List.find?_some hs
  unfold Findings.addTrigger
  simp only [ht, ↓reduceIte, hfind]
  split
  · rename_i hhas
    obtain ⟨t, htm, hsame⟩ := List.any_eq_true.mp hhas
    have heq := TargetCall.sameCall_iff.mp hsame
    exact ⟨Extends.refl ho, s, hs, t, htm, congrArg TargetCall.signature heq,
      congrArg (fun c => c.stack.frames) heq⟩
  · have hm : Extends f (f.modify (f.resolve taint) (·.addTrigger call)) :=
      ho.modify _ (fun _ => rfl) fun s x hx => List.mem_append_left _ hx
    have ho' := hm.orderly
    refine ⟨⟨⟨⟨ho'.ids, ho'.distinct, ho'.replaced, ho'.settled, ho'.issued, ho'.given⟩,
      ho'.quiet⟩, hm.retains⟩, s.addTrigger call, ?_, call, ?_, rfl, rfl⟩
    · have hsource := source?_modify f (f.resolve taint) (g := (·.addTrigger call))
        (fun _ => rfl) taint
      rw [hs, Option.map_some, if_pos hid] at hsource
      exact hsource
    · exact List.mem_append_right _ (List.mem_singleton_self call)

/-- What is reported, and whether that was news: only for a source without the trigger. -/
theorem addTrigger_answer (f : Findings) (taint : TaintId) (call : TargetCall) :
    f.addTrigger taint call = (false, f) ∨ (∃ c, f.addTrigger taint call = (false, f.complain c)) ∨
      ∃ s, f.source? taint = some s ∧ s.hasTrigger call = false ∧ f.addTrigger taint call =
        (true, { f.modify (f.resolve taint) (·.addTrigger call) with hasPattern := true }) := by
  unfold Findings.addTrigger
  split
  · simp only
    split
    · exact .inr (.inl ⟨_, rfl⟩)
    · rename_i s hs
      split
      · exact .inl rfl
      · rename_i hhas
        exact .inr (.inr ⟨s, hs, Bool.eq_false_iff.mpr hhas, rfl⟩)
  · exact .inl rfl

theorem addTrigger_cases (f : Findings) (taint : TaintId) (call : TargetCall) :
    (f.addTrigger taint call).2 = f ∨ (∃ c, (f.addTrigger taint call).2 = f.complain c) ∨
      (f.addTrigger taint call).2 =
        { f.modify (f.resolve taint) (·.addTrigger call) with hasPattern := true } := by
  rcases f.addTrigger_answer taint call with he | ⟨c, he⟩ | ⟨_, _, _, he⟩
  · exact .inl (congrArg Prod.snd he)
  · exact .inr (.inl ⟨c, congrArg Prod.snd he⟩)
  · exact .inr (.inr (congrArg Prod.snd he))

theorem length_addTrigger (f : Findings) (taint : TaintId) (call : TargetCall) :
    (f.addTrigger taint call).2.sources.length = f.sources.length := by
  rcases f.addTrigger_cases taint call with he | ⟨c, he⟩ | he
  · rw [he]
  · rw [he]
    rfl
  · rw [he]
    exact length_modify ..

/-- Reporting gives out no ids. -/
theorem ids_addTrigger (f : Findings) (taint : TaintId) (call : TargetCall) :
    (f.addTrigger taint call).2.nextId = f.nextId ∧
      (f.addTrigger taint call).2.redirects = f.redirects := by
  rcases f.addTrigger_cases taint call with he | ⟨c, he⟩ | he
  all_goals
    rw [he]
    exact ⟨rfl, rfl⟩

/-! All that happens to findings apart from the registration of sources. -/

/-- Changes that register nothing, each made for an id that names a source. -/
inductive Revises (f : Findings) : Findings → Prop where
  | refl : Revises f f
  | observe {f' : Findings} {taint : TaintId} (hr : Revises f f')
    (hk : ∃ s, f'.source? taint = some s) (caller : SummaryKey) :
    Revises f (f'.observe taint caller)
  | recordExternalCall {f' : Findings} (hr : Revises f f') : Revises f f'.recordExternalCall
  | reidentify {f' : Findings} {old : TaintId} (hr : Revises f f')
    (hk : ∃ s, f'.source? old = some s) (forward : CallStack) :
    Revises f (f'.reidentify old forward).2
  | addTrigger {f' : Findings} {taint : TaintId} (hr : Revises f f')
    (hk : ∃ s, f'.source? taint = some s) (ht : TaintId.isTainted taint = true)
    (call : TargetCall) : Revises f (f'.addTrigger taint call).2

theorem Revises.trans (h₁ : Revises f f') (h₂ : Revises f' f'') : Revises f f'' := by
  induction h₂ with
  | refl => exact h₁
  | observe _ hk caller ih => exact ih.observe hk caller
  | recordExternalCall _ ih => exact ih.recordExternalCall
  | reidentify _ hk forward ih => exact ih.reidentify hk forward
  | addTrigger _ hk ht call ih => exact ih.addTrigger hk ht call

/-- Nothing is lost, and there are as many sources as before. -/
theorem Revises.extends (hr : Revises f f') (ho : f.Orderly) :
    Extends f f' ∧ f'.sources.length = f.sources.length := by
  induction hr with
  | refl => exact ⟨.refl ho, rfl⟩
  | observe _ _ caller ih =>
    exact ⟨ih.1.trans (ih.1.orderly.observe _ caller), (length_modify ..).trans ih.2⟩
  | recordExternalCall _ ih => exact ⟨ih.1.trans ih.1.orderly.recordExternalCall, ih.2⟩
  | reidentify _ hk forward ih =>
    exact ⟨ih.1.trans (ih.1.orderly.reidentify hk forward).1,
      (ih.1.orderly.length_reidentify hk forward).trans ih.2⟩
  | addTrigger _ hk ht call ih =>
    exact ⟨ih.1.trans (ih.1.orderly.addTrigger hk ht call).1,
      (length_addTrigger ..).trans ih.2⟩

/-- All calls that are reported for a known source are among its triggers. -/
theorem Orderly.addTriggers (ho : f.Orderly) {taint : TaintId}
    (hk : ∃ s, f.source? taint = some s) (ht : TaintId.isTainted taint = true)
    (calls : List TargetCall) :
    Revises f (calls.foldl (fun f call => (f.addTrigger taint call).2) f) ∧
      ∀ call ∈ calls, (calls.foldl (fun f call => (f.addTrigger taint call).2) f).Reported
        taint call := by
  induction calls generalizing f with
  | nil => exact ⟨.refl, fun _ hm => absurd hm List.not_mem_nil⟩
  | cons call calls ih =>
    obtain ⟨hfirst, hrep⟩ := ho.addTrigger hk ht call
    obtain ⟨hrest, heach⟩ := ih hfirst.orderly (hfirst.known hk)
    have hnew : Revises f (f.addTrigger taint call).2 := .addTrigger .refl hk ht call
    refine ⟨hnew.trans hrest, fun c hm => ?_⟩
    rcases List.mem_cons.mp hm with rfl | hm
    · exact (hrest.extends hfirst.orderly).1.reported hrep
    · exact heach c hm

end Findings

namespace Provenance

/-- The findings are orderly and a revision of those before, and taints were only moved to ids that
name a source. -/
structure Sound (before : Findings) (p : Provenance) : Prop where
  orderly : p.findings.Orderly
  remapped : ∀ {t moved}, p.remapped.get? t = some moved →
    ∃ s, p.findings.source? moved = some s
  revised : before.Revises p.findings

theorem revises_relocate {f : Findings} (ho : f.Orderly) (depth : Nat) (base : CallStack)
    {taint : TaintId} (hk : ∃ s, f.source? taint = some s) :
    f.Revises (relocate f depth base taint).2 ∧
      ∃ s, (relocate f depth base taint).2.source? (relocate f depth base taint).1 = some s := by
  have hk' : ∃ s, f.source? (f.resolve taint) = some s := ho.source?_resolve taint ▸ hk
  unfold relocate
  simp only
  split
  · exact ⟨.refl, hk'⟩
  · split
    · exact ⟨.refl, hk'⟩
    · exact ⟨.reidentify .refl hk' _, (ho.reidentify hk' _).2⟩

theorem Sound.rebaseTaint {before : Findings} {p : Provenance} (hp : p.Sound before) (depth : Nat)
    (base : CallStack) (caller : SummaryKey) {taint : TaintId}
    (hk : ∃ s, p.findings.source? taint = some s) :
    (p.rebaseTaint depth base caller taint).2.Sound before ∧
      Findings.Extends p.findings (p.rebaseTaint depth base caller taint).2.findings ∧
      ∃ s, (p.rebaseTaint depth base caller taint).2.findings.source?
        (p.rebaseTaint depth base caller taint).1 = some s := by
  unfold Provenance.rebaseTaint
  split
  · rename_i moved hm
    exact ⟨hp, .refl hp.orderly, hp.remapped hm⟩
  · obtain ⟨hmove, hnew⟩ := revises_relocate hp.orderly depth base hk
    have hobs := hmove.observe hnew caller
    have hall := (hobs.extends hp.orderly).1
    have hnew' := ((hmove.extends hp.orderly).1.orderly.observe
      (relocate p.findings depth base taint).1 caller).known hnew
    refine ⟨⟨hall.orderly, fun {t m} hm => ?_, hp.revised.trans hobs⟩, hall, hnew'⟩
    rw [Table.get?_insert] at hm
    split at hm
    · cases hm
      exact hnew'
    · exact hall.known (hp.remapped hm)

end Provenance

end SinkTrace
