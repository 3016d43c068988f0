import Mathlib.Data.List.Chain
import Mathlib.Data.List.Nodup
import SinkTrace.Program
import SinkTrace.Proofs.Findings
import SinkTrace.Proofs.Interpreter.CallSites

/-!
Paths of calls through a program, and the paths of sources. A source starts with the path on which
its sink call came up. To move it to another call site is to replace the front of its path, and
that gives a path again if the front is the stack of the summary that is moved. So it is for a
source that has not been moved before; one that has need not start with that stack.
-/

namespace SinkTrace

namespace CallStack

variable {s t : CallStack}

@[simp] theorem toList_push (s : CallStack) (key : SummaryKey) :
    (s.push key).toList = s.toList ++ [key] := List.reverse_cons

theorem toList_pushAll (keys : List SummaryKey) (s : CallStack) :
    (keys.foldl push s).toList = s.toList ++ keys := by
  induction keys generalizing s with
  | nil => exact (List.append_nil _).symm
  | cons key keys ih => simp [ih]

theorem top?_eq_getLast? (s : CallStack) : s.top? = s.toList.getLast? :=
  List.getLast?_reverse.symm

theorem Counted.length_toList (hs : s.Counted) : s.toList.length = s.depth :=
  List.length_reverse.trans hs.symm

/-- A snapshot that is deep enough keeps its frames above the ones that are replaced. -/
theorem toList_rebase_of_le {depth : Nat} (h : depth ≤ s.depth) (base : CallStack) :
    (s.rebase depth base).toList = base.toList ++ s.toList.drop depth := by
  unfold rebase
  rw [if_neg (Nat.not_lt_of_le h), toList_pushAll]

/-- A snapshot that starts with `t` starts with `base` instead after it was moved. -/
theorem toList_rebase (hs : s.Counted) (ht : t.Counted) {rest : List SummaryKey}
    (h : s.toList = t.toList ++ rest) (base : CallStack) :
    (s.rebase t.depth base).toList = base.toList ++ rest := by
  have hdepth : t.depth ≤ s.depth := by
    rw [← hs.length_toList, ← ht.length_toList, h, List.length_append]
    exact Nat.le_add_right ..
  rw [toList_rebase_of_le hdepth, h, List.drop_left' ht.length_toList]

/-- A snapshot that was moved to `base` and is moved once more, as if it still started with `t`,
keeps the frames of `base` that lie deeper than `t`. -/
theorem toList_rebase_rebase (hs : s.Counted) (ht : t.Counted) {rest : List SummaryKey}
    (h : s.toList = t.toList ++ rest) {base : CallStack} (hb : base.Counted)
    (hd : t.depth ≤ base.depth) (other : CallStack) :
    ((s.rebase t.depth base).rebase t.depth other).toList =
      other.toList ++ (base.toList.drop t.depth ++ rest) := by
  have hmoved := toList_rebase hs ht h base
  have hcounted := hb.rebase s t.depth
  have hdepth : t.depth ≤ (s.rebase t.depth base).depth := by
    rw [← hcounted.length_toList, hmoved, List.length_append, hb.length_toList]
    exact Nat.le_add_right_of_le hd
  rw [toList_rebase_of_le hdepth, hmoved, List.drop_append_of_le_length]
  rw [hb.length_toList]
  exact hd

/-- So the last frame of `base` stands twice if `base` is one frame deeper than `t`. -/
example :
    ((ofList [⟨.concrete, "E"⟩, ⟨.concrete, "S"⟩]).rebase 2
      (ofList [⟨.concrete, "E"⟩, ⟨.concrete, "A"⟩, ⟨.concrete, "S"⟩])).rebase 2
      (ofList [⟨.concrete, "E"⟩, ⟨.concrete, "B"⟩, ⟨.concrete, "S"⟩]) =
    ofList [⟨.concrete, "E"⟩, ⟨.concrete, "B"⟩, ⟨.concrete, "S"⟩, ⟨.concrete, "S"⟩] := rfl

/-- The frames lead on from the entry point, each of them to the next one. -/
structure Chained (leads : SummaryKey → SummaryKey → Prop) (entry : SummaryKey) (s : CallStack) :
    Prop where
  counted : s.Counted
  first : s.toList.head? = some entry
  calls : s.toList.IsChain leads

section Chained

variable {leads leads' : SummaryKey → SummaryKey → Prop} {entry key : SummaryKey} {base : CallStack}

theorem chained_entry (leads : SummaryKey → SummaryKey → Prop) (entry : SummaryKey) :
    (push .empty entry).Chained leads entry :=
  ⟨counted_empty.push entry, rfl, List.isChain_singleton entry⟩

theorem Chained.mono (hs : s.Chained leads entry) (hl : ∀ k k', leads k k' → leads' k k') :
    s.Chained leads' entry := ⟨hs.counted, hs.first, hs.calls.imp hl⟩

theorem Chained.push (hs : s.Chained leads entry) {top : SummaryKey} (ht : s.top? = some top)
    (hl : leads top key) : (s.push key).Chained leads entry := by
  refine ⟨hs.counted.push key, ?_, ?_⟩
  · rw [toList_push, List.head?_append, hs.first]
    rfl
  · rw [toList_push]
    refine List.isChain_append.mpr ⟨hs.calls, List.isChain_singleton key, fun x hx y hy => ?_⟩
    rw [top?_eq_getLast?] at ht
    cases ht.symm.trans hx
    cases Option.some.inj hy
    exact hl

/-- A chain that starts with `t` is moved to one that starts with `base`, if both end alike. -/
theorem Chained.rebase (hs : s.Chained leads entry) (ht : t.Counted)
    (hpre : t.toList <+: s.toList) (hb : base.Chained leads entry) (htop : base.top? = t.top?) :
    (s.rebase t.depth base).Chained leads entry ∧
      base.toList <+: (s.rebase t.depth base).toList ∧
      (s.rebase t.depth base).top? = s.top? := by
  obtain ⟨rest, hrest⟩ := hpre
  have hmoved := toList_rebase hs.counted ht hrest.symm base
  have hchain := hs.calls
  rw [← hrest] at hchain
  obtain ⟨-, hcalls, hjoint⟩ := List.isChain_append.mp hchain
  simp only [top?_eq_getLast?] at htop ⊢
  refine ⟨⟨hb.counted.rebase s _, ?_, ?_⟩, ?_, ?_⟩
  · rw [hmoved, List.head?_append, hb.first]
    rfl
  · rw [hmoved]
    exact List.isChain_append.mpr ⟨hb.calls, hcalls, htop ▸ hjoint⟩
  · rw [hmoved]
    exact List.prefix_append _ _
  · rw [hmoved, ← hrest, List.getLast?_append, List.getLast?_append, htop]

/-- What holds of the entry point and passes to every frame that one leads to holds of all
frames. -/
theorem Chained.forall_of_leads (hs : s.Chained leads entry) {holds : SummaryKey → Prop}
    (hentry : holds entry) (hl : ∀ k k', leads k k' → holds k → holds k') :
    ∀ k ∈ s.toList, holds k := by
  refine hs.calls.induction holds _ (fun k k' => hl k k') fun hne => ?_
  rw [List.head_of_mem_head? hs.first]
  exact hentry

/-- The entry point leads to every frame. -/
theorem Chained.reached (hs : s.Chained leads entry) :
    ∀ k ∈ s.toList, Relation.ReflTransGen leads entry k :=
  hs.forall_of_leads .refl fun _ _ hl hr => hr.tail hl

theorem mem_of_top? {top : SummaryKey} (ht : s.top? = some top) : top ∈ s.toList := by
  rw [top?_eq_getLast?] at ht
  exact List.mem_of_getLast? ht

/-- Every frame comes down to the topmost one. -/
theorem Chained.descends (hs : s.Chained leads entry) {top : SummaryKey} (ht : s.top? = some top) :
    ∀ k ∈ s.toList, Relation.ReflTransGen leads k top := by
  rw [top?_eq_getLast?] at ht
  refine hs.calls.backwards_induction (Relation.ReflTransGen leads · top) _
    (fun _ _ hl hr => .head hl hr) fun hne => ?_
  rw [List.getLast_of_mem_getLast? ht]

end Chained

end CallStack

namespace Program

/-- Definitions are kept under their own signatures. -/
def Keyed (p : Program) : Prop :=
  ∀ signature d, p.method? signature = some d → d.signature = signature

theorem keyed_empty : Keyed {} := by
  intro signature d hd
  cases hd

theorem Keyed.addMethod {p : Program} (hp : p.Keyed) (d : MethodDef) : (p.addMethod d).Keyed := by
  intro signature d' hd'
  have hstored : ∃ stored : MethodDef,
      (p.addMethod d).methods = p.methods.insert stored.signature stored := ⟨_, rfl⟩
  obtain ⟨stored, hs⟩ := hstored
  rw [method?, hs, Table.get?_insert] at hd'
  split at hd'
  · rename_i heq
    cases hd'
    exact heq.symm
  · exact hp signature d' hd'

theorem Keyed.addMethods {p : Program} (hp : p.Keyed) (ds : List MethodDef) :
    (ds.foldl Program.addMethod p).Keyed := by
  induction ds generalizing p with
  | nil => exact hp
  | cons d ds ih => exact ih (hp.addMethod d)

/-- The method is known to implement `base`. -/
def Implements (p : Program) (base : Signature) (m : MethodRef) : Prop :=
  ∃ i ∈ (p.implementations.get? base).getD [], i.method = m

/-- A frame can be followed by another one. A method calls what its instructions call: a known
method, or whatever implements a virtual one; a virtual call leads to an implementation or to the
method itself. -/
inductive Leads (p : Program) : SummaryKey → SummaryKey → Prop where
  | calls {caller : Signature} {d : MethodDef} {b : Body} {kind : EffectKind} {m : MethodRef}
    (hd : p.method? caller = some d) (hb : d.body = some b) (hc : b.Calls kind m) :
    Leads p ⟨.concrete, caller⟩ ⟨.concrete, m.signature⟩
  | callsVirtual {caller : Signature} {d target : MethodDef} {b : Body} {m : MethodRef}
    (hd : p.method? caller = some d) (hb : d.body = some b) (hc : b.Calls .callvirt m)
    (hm : p.method? m.signature = some target) (hv : target.isVirtual ∨ target.isAbstract) :
    Leads p ⟨.concrete, caller⟩ ⟨.virtual, m.signature⟩
  | implements {base : Signature} {m : MethodRef} (hm : p.Implements base m) :
    Leads p ⟨.virtual, base⟩ ⟨.concrete, m.signature⟩
  | itself (base : Signature) : Leads p ⟨.virtual, base⟩ ⟨.concrete, base⟩

/-- The frame makes a call of the method that is not answered as one of the sink. The instructions
of a method do, and a virtual call does of each implementation that is known, and of the method
itself if it has a body. -/
inductive Makes (p : Program) (sink : Signature) : SummaryKey → Signature → Prop where
  | instruction {caller : Signature} {d : MethodDef} {b : Body} {kind : EffectKind} {m : MethodRef}
    (hd : p.method? caller = some d) (hb : d.body = some b) (hc : b.Calls kind m)
    (hs : m.signature ≠ sink) : Makes p sink ⟨.concrete, caller⟩ m.signature
  | implementation {base : Signature} {m : MethodRef} (hm : p.Implements base m) :
    Makes p sink ⟨.virtual, base⟩ m.signature
  | itself {base : Signature} {d : MethodDef} (hd : p.method? base = some d)
    (hb : d.hasBody = true) : Makes p sink ⟨.virtual, base⟩ base

/-- The frames that a frame leads to by the calls it makes. -/
inductive Links (p : Program) (sink : Signature) : SummaryKey → SummaryKey → Prop where
  | concrete {key : SummaryKey} {called : Signature} (hm : p.Makes sink key called) :
    Links p sink key ⟨.concrete, called⟩
  | virtual {caller : Signature} {d target : MethodDef} {b : Body} {m : MethodRef}
    (hd : p.method? caller = some d) (hb : d.body = some b) (hc : b.Calls .callvirt m)
    (hm : p.method? m.signature = some target) (hv : target.isVirtual ∨ target.isAbstract)
    (hs : m.signature ≠ sink) : Links p sink ⟨.concrete, caller⟩ ⟨.virtual, m.signature⟩

theorem Makes.leads {p : Program} {sink called : Signature} {key : SummaryKey}
    (hm : p.Makes sink key called) : p.Leads key ⟨.concrete, called⟩ := by
  cases hm with
  | instruction hd hb hc _ => exact .calls hd hb hc
  | implementation hm => exact .implements hm
  | itself => exact .itself called

theorem Links.leads {p : Program} {sink : Signature} {key key' : SummaryKey}
    (hl : p.Links sink key key') : p.Leads key key' := by
  cases hl with
  | concrete hm => exact hm.leads
  | virtual hd hb hc hm hv _ => exact .callsVirtual hd hb hc hm hv

/-- The stack is a chain of calls from the entry point on. -/
structure Path (p : Program) (entry : SummaryKey) (s : CallStack) : Prop where
  counted : s.Counted
  first : s.toList.head? = some entry
  calls : s.toList.IsChain p.Leads

variable {p : Program} {entry : SummaryKey} {s t base : CallStack}

theorem path_iff_chained : p.Path entry s ↔ s.Chained p.Leads entry :=
  ⟨fun h => ⟨h.counted, h.first, h.calls⟩, fun h => ⟨h.counted, h.first, h.calls⟩⟩

theorem path_of_links {sink : Signature} (hs : s.Chained (p.Links sink) entry) : p.Path entry s :=
  path_iff_chained.mpr (hs.mono fun _ _ hl => hl.leads)

theorem Path.exists_top (hs : p.Path entry s) : ∃ top, s.top? = some top := by
  cases htop : s.top? with
  | some top => exact ⟨top, rfl⟩
  | none =>
    rw [CallStack.top?_eq_getLast?, List.getLast?_eq_none_iff] at htop
    have hfirst := hs.first
    rw [htop] at hfirst
    cases hfirst

theorem Path.rebase (hs : p.Path entry s) (ht : t.Counted) (hpre : t.toList <+: s.toList)
    (hb : p.Path entry base) (htop : base.top? = t.top?) :
    p.Path entry (s.rebase t.depth base) ∧
      base.toList <+: (s.rebase t.depth base).toList ∧
      (s.rebase t.depth base).top? = s.top? := by
  rw [path_iff_chained] at hs hb ⊢
  exact hs.rebase ht hpre hb htop

end Program

/-- The path leads from the entry point down to the method that called the sink. -/
structure Source.Genuine (p : Program) (entry : SummaryKey) (s : Source) : Prop where
  path : p.Path entry s.forward
  caller : s.forward.top?.map SummaryKey.signature = some s.method

namespace Findings

variable {p : Program} {entry : SummaryKey} {f f' f'' : Findings} {stack base callee : CallStack}
  {t : TaintId}

/-- No source was given this id instead of another one. -/
def Original (f : Findings) (id : TaintId) : Prop := ∀ old, (old, id) ∉ f.redirects

/-- The source with this id was moved once or not at all. -/
def MovedOnce (f : Findings) (id : TaintId) : Prop :=
  ∀ old, (old, id) ∈ f.redirects → f.Original old

/-- Ids are given once, and sources that were moved at most once are genuine. -/
structure Genuine (p : Program) (entry : SummaryKey) (f : Findings) : Prop where
  distinct : (f.sources.map Source.id).Nodup
  ids : ∀ s ∈ f.sources, s.id < f.nextId
  issued : ∀ s ∈ f.sources, TaintId.firstSource ≤ s.id
  first : TaintId.firstSource ≤ f.nextId
  redirects : ∀ r ∈ f.redirects, r.2 < f.nextId
  source : ∀ s ∈ f.sources, f.MovedOnce s.id → s.Genuine p entry

/-- Sources keep their paths as long as they keep their ids. -/
structure Later (f f' : Findings) : Prop where
  nextId : f.nextId ≤ f'.nextId
  redirects : ∀ r ∈ f.redirects, r ∈ f'.redirects
  source : ∀ s' ∈ f'.sources, s'.id < f.nextId →
    ∃ s ∈ f.sources, s.id = s'.id ∧ s.forward = s'.forward

/-- Where the taint names a source that was not moved, the path of that source starts with the
stack. -/
structure Traced (f : Findings) (stack : CallStack) (t : TaintId) : Prop where
  lt : t < f.nextId
  starts : ∀ s ∈ f.sources, s.id = t → f.Original t → stack.toList <+: s.forward.toList

theorem genuine_empty : Genuine p entry {} :=
  ⟨List.nodup_nil, fun _ hs => absurd hs List.not_mem_nil, fun _ hs => absurd hs List.not_mem_nil,
    Nat.le_refl _, fun _ hr => absurd hr List.not_mem_nil, fun _ hs => absurd hs List.not_mem_nil⟩

theorem Later.refl (f : Findings) : Later f f :=
  ⟨Nat.le_refl _, fun _ hr => hr, fun s hs _ => ⟨s, hs, rfl, rfl⟩⟩

theorem Later.trans (h₁ : Later f f') (h₂ : Later f' f'') : Later f f'' := by
  refine ⟨Nat.le_trans h₁.nextId h₂.nextId, fun r hr => h₂.redirects r (h₁.redirects r hr),
    fun s'' hs'' hlt => ?_⟩
  obtain ⟨s', hs', hid', hforward'⟩ := h₂.source s'' hs'' (Nat.lt_of_lt_of_le hlt h₁.nextId)
  obtain ⟨s, hs, hid, hforward⟩ := h₁.source s' hs' (hid' ▸ hlt)
  exact ⟨s, hs, hid.trans hid', hforward.trans hforward'⟩

theorem Original.of_later (ho : f'.Original t) (hl : Later f f') : f.Original t :=
  fun old hm => ho old (hl.redirects _ hm)

theorem MovedOnce.of_later (hm : f'.MovedOnce t) (hl : Later f f') : f.MovedOnce t :=
  fun old hr => (hm old (hl.redirects _ hr)).of_later hl

theorem Original.movedOnce (ho : f.Original t) : f.MovedOnce t := fun old hm => absurd hm (ho old)

theorem Traced.later (ht : f.Traced stack t) (hl : Later f f') : f'.Traced stack t := by
  refine ⟨Nat.lt_of_lt_of_le ht.lt hl.nextId, fun s' hs' hid ho => ?_⟩
  obtain ⟨s, hs, hsame, hforward⟩ := hl.source s' hs' (hid ▸ ht.lt)
  exact hforward ▸ ht.starts s hs (hsame.trans hid) (ho.of_later hl)

theorem Traced.shorten (ht : f.Traced base t) (hpre : stack.toList <+: base.toList) :
    f.Traced stack t := ⟨ht.lt, fun s hs hid ho => hpre.trans (ht.starts s hs hid ho)⟩

/-- A taint that names no source is traced in any way. -/
theorem Genuine.traced_of_sourceless (hf : f.Genuine p entry) (ht : t < TaintId.firstSource) :
    f.Traced stack t := by
  refine ⟨Nat.lt_of_lt_of_le ht hf.first, fun s hs hid _ => ?_⟩
  exact absurd (hid ▸ hf.issued s hs) (Nat.not_le.mpr ht)

/-! What an id resolves to. -/

theorem resolve_eq_or_mem (f : Findings) (t : TaintId) :
    f.resolve t = t ∨ ∃ old, (old, f.resolve t) ∈ f.redirects := by
  unfold resolve
  generalize f.redirects = rs
  induction rs generalizing t with
  | nil => exact .inl rfl
  | cons r rs ih =>
    rw [List.foldl_cons]
    rcases ih (if t = r.1 then r.2 else t) with hsame | ⟨old, hm⟩
    · rw [hsame]
      split
      · exact .inr ⟨r.1, List.mem_cons_self ..⟩
      · exact .inl rfl
    · exact .inr ⟨old, List.mem_cons_of_mem _ hm⟩

theorem Original.resolve_eq (ho : f.Original (f.resolve t)) : f.resolve t = t := by
  rcases f.resolve_eq_or_mem t with hsame | ⟨old, hm⟩
  · exact hsame
  · exact absurd hm (ho old)

theorem Original.resolve_resolve (ho : f.Original (f.resolve t)) :
    f.resolve (f.resolve t) = f.resolve t := by rw [ho.resolve_eq, ho.resolve_eq]

theorem Genuine.resolve_lt (hf : f.Genuine p entry) (ht : t < f.nextId) :
    f.resolve t < f.nextId := by
  rcases f.resolve_eq_or_mem t with hsame | ⟨old, hm⟩
  · exact hsame.symm ▸ ht
  · exact hf.redirects _ hm

/-! Changes of the findings. -/

/-- Only sources, replacements and the next id matter. -/
theorem Genuine.of_same (hf : f.Genuine p entry) (hs : f'.sources = f.sources)
    (hr : f'.redirects = f.redirects) (hn : f'.nextId = f.nextId) :
    f'.Genuine p entry ∧ Later f f' := by
  cases f
  cases f'
  cases hs
  cases hr
  cases hn
  exact ⟨⟨hf.distinct, hf.ids, hf.issued, hf.first, hf.redirects, hf.source⟩, Nat.le_refl _,
    fun _ hr => hr, fun s hs _ => ⟨s, hs, rfl, rfl⟩⟩

/-- A change of sources in place that keeps their ids and their paths. -/
theorem Genuine.modify (hf : f.Genuine p entry) (id : TaintId) {g : Source → Source}
    (hid : ∀ s, (g s).id = s.id) (hforward : ∀ s, (g s).forward = s.forward)
    (hmethod : ∀ s, (g s).method = s.method) :
    (f.modify id g).Genuine p entry ∧ Later f (f.modify id g) := by
  have hback : ∀ s' ∈ (f.modify id g).sources, ∃ s ∈ f.sources,
      s.id = s'.id ∧ s.forward = s'.forward ∧ s.method = s'.method := by
    intro s' hs'
    obtain ⟨s, hs, rfl⟩ := List.mem_map.mp hs'
    refine ⟨s, hs, ?_⟩
    split
    · exact ⟨(hid s).symm, (hforward s).symm, (hmethod s).symm⟩
    · exact ⟨rfl, rfl, rfl⟩
  refine ⟨⟨ids_modify f id hid ▸ hf.distinct, fun s' hs' => ?_, fun s' hs' => ?_, hf.first,
    hf.redirects, fun s' hs' hm => ?_⟩, Nat.le_refl _, fun _ hr => hr, fun s' hs' _ => ?_⟩
  · obtain ⟨s, hs, hsame, -, -⟩ := hback s' hs'
    exact hsame ▸ hf.ids s hs
  · obtain ⟨s, hs, hsame, -, -⟩ := hback s' hs'
    exact hsame ▸ hf.issued s hs
  · obtain ⟨s, hs, hsame, hpath, hcaller⟩ := hback s' hs'
    obtain ⟨hp, hc⟩ := hf.source s hs (hsame ▸ hm)
    exact ⟨hpath ▸ hp, hpath ▸ hcaller ▸ hc⟩
  · obtain ⟨s, hs, hsame, hpath, -⟩ := hback s' hs'
    exact ⟨s, hs, hsame, hpath⟩

theorem Genuine.observe (hf : f.Genuine p entry) (taint : TaintId) (caller : SummaryKey) :
    (f.observe taint caller).Genuine p entry ∧ Later f (f.observe taint caller) := by
  have hkeeps : ∀ s : Source, (s.observe caller).id = s.id ∧
      (s.observe caller).forward = s.forward ∧ (s.observe caller).method = s.method := by
    intro s
    unfold Source.observe
    split <;> exact ⟨rfl, rfl, rfl⟩
  exact hf.modify _ (fun s => (hkeeps s).1) (fun s => (hkeeps s).2.1) fun s => (hkeeps s).2.2

theorem Genuine.addTrigger (hf : f.Genuine p entry) (taint : TaintId) (call : TargetCall) :
    (f.addTrigger taint call).2.Genuine p entry ∧ Later f (f.addTrigger taint call).2 := by
  obtain ⟨hm, hl⟩ := hf.modify (f.resolve taint) (g := (·.addTrigger call)) (fun _ => rfl)
    (fun _ => rfl) fun _ => rfl
  rcases f.addTrigger_cases taint call with he | ⟨c, he⟩ | he
  · rw [he]
    exact ⟨hf, .refl f⟩
  · rw [he]
    exact hf.of_same rfl rfl rfl
  · rw [he]
    refine And.imp_right hl.trans (hm.of_same ?_ ?_ ?_)
    all_goals rfl

theorem Genuine.addTriggers (hf : f.Genuine p entry) (taint : TaintId)
    (calls : List TargetCall) :
    (calls.foldl (fun f call => (f.addTrigger taint call).2) f).Genuine p entry ∧
      Later f (calls.foldl (fun f call => (f.addTrigger taint call).2) f) := by
  induction calls generalizing f with
  | nil => exact ⟨hf, .refl f⟩
  | cons call calls ih =>
    obtain ⟨hfirst, hl⟩ := hf.addTrigger taint call
    obtain ⟨hrest, hl'⟩ := ih hfirst
    exact ⟨hrest, hl.trans hl'⟩

theorem Genuine.recordExternalCall (hf : f.Genuine p entry) :
    f.recordExternalCall.Genuine p entry ∧ Later f f.recordExternalCall :=
  hf.of_same rfl rfl rfl

/-- A source of a new id, next to sources that were there before. -/
theorem Genuine.extend (hf : f.Genuine p entry) {kept : List Source} {s : Source}
    (hkept : kept.Sublist f.sources) (hsources : f'.sources = kept ++ [s])
    (hr : ∀ r ∈ f.redirects, r ∈ f'.redirects)
    (hto : ∀ r ∈ f'.redirects, r.2 < f.nextId + 1) (hnext : f'.nextId = f.nextId + 1)
    (hid : s.id = f.nextId)
    (hs : (∀ old, (old, s.id) ∈ f'.redirects → f.Original old) → s.Genuine p entry) :
    f'.Genuine p entry ∧ Later f f' := by
  have hcases : ∀ s' ∈ f'.sources, s' ∈ f.sources ∨ s' = s := by
    rw [hsources]
    exact fun s' hs' => (List.mem_append.mp hs').imp (hkept.subset ·) List.mem_singleton.mp
  have hlater : Later f f' := by
    refine ⟨hnext ▸ Nat.le_succ _, hr, fun s' hs' hlt => ?_⟩
    rcases hcases s' hs' with hs' | rfl
    · exact ⟨s', hs', rfl, rfl⟩
    · rw [hid] at hlt
      exact absurd hlt (Nat.lt_irrefl _)
  refine ⟨⟨?_, fun s' hs' => ?_, fun s' hs' => ?_, ?_, ?_, fun s' hs' hm => ?_⟩, hlater⟩
  · rw [hsources, List.map_append, List.map_singleton, hid]
    exact nodup_ids_concat (hf.distinct.sublist (hkept.map _))
      fun s' hs' => hf.ids s' (hkept.subset hs')
  · rw [hnext]
    rcases hcases s' hs' with hs' | rfl
    · exact Nat.lt_succ_of_lt (hf.ids s' hs')
    · exact hid ▸ Nat.lt_succ_self _
  · rcases hcases s' hs' with hs' | rfl
    · exact hf.issued s' hs'
    · exact hid ▸ hf.first
  · exact hnext ▸ Nat.le_succ_of_le hf.first
  · exact hnext ▸ hto
  · rcases hcases s' hs' with hs' | rfl
    · exact hf.source s' hs' (hm.of_later hlater)
    · exact hs fun old hr' => (hm old hr').of_later hlater

/-- A new source, whose path is that of its sink call. -/
theorem Genuine.addSource (hf : f.Genuine p entry) {method : Signature} {forward : CallStack}
    (hp : p.Path entry forward) (hc : forward.top?.map SummaryKey.signature = some method) :
    (f.addSource method forward).2.Genuine p entry ∧ Later f (f.addSource method forward).2 ∧
      ∀ s ∈ (f.addSource method forward).2.sources, s.id = f.nextId → s.forward = forward := by
  have hsources := sources_addSource hf.ids method forward
  have hredirects := redirects_addSource f method forward
  have hadd : (f.addSource method forward).2.Genuine p entry ∧
      Later f (f.addSource method forward).2 :=
    hf.extend (List.Sublist.refl _) hsources (fun _ hr => hredirects ▸ hr)
      (fun r hr => Nat.lt_succ_of_lt (hf.redirects r (hredirects ▸ hr)))
      (nextId_addSource f method forward) rfl fun _ => ⟨hp, hc⟩
  refine ⟨hadd.1, hadd.2, fun s hs hid => ?_⟩
  rw [hsources] at hs
  rcases List.mem_append.mp hs with hs | hs
  · exact absurd hid (Nat.ne_of_lt (hf.ids s hs))
  · rw [List.mem_singleton.mp hs]

/-- A source that gets another path. If it had not been moved before, the path is a genuine one. -/
theorem Genuine.moved (hf : f.Genuine p entry) (old : TaintId) (s : Source) (forward : CallStack)
    (hs : f.Original (f.resolve old) →
      Source.Genuine p entry { s with id := f.nextId, forward }) :
    (f.moved old { s with id := f.nextId, forward }).Genuine p entry ∧
      Later f (f.moved old { s with id := f.nextId, forward }) := by
  refine hf.extend List.filter_sublist rfl (fun r hr => List.mem_append_left _ hr)
    (fun r hr => ?_) rfl rfl fun ho => hs (ho _ ?_)
  · rcases List.mem_append.mp hr with hr | hr
    · exact Nat.lt_succ_of_lt (hf.redirects r hr)
    · rw [List.mem_singleton.mp hr]
      exact Nat.lt_succ_self _
  · exact List.mem_append_right _ (List.mem_singleton_self _)

end Findings

namespace Provenance

open Findings

variable {p : Program} {entry : SummaryKey} {f f₀ : Findings} {q : Provenance}
  {base callee : CallStack} {t : TaintId}

/-- A taint whose path starts with the stack of the callee is moved to one whose path starts with
the base, and sources that were moved at most once stay genuine. -/
theorem genuine_relocate (hf : f.Genuine p entry) (hc : callee.Counted) (hb : p.Path entry base)
    (htop : base.top? = callee.top?) (ht : f.Traced callee t) :
    (relocate f callee.depth base t).2.Genuine p entry ∧
      Later f (relocate f callee.depth base t).2 ∧
      (relocate f callee.depth base t).2.Traced base (relocate f callee.depth base t).1 := by
  have hlt := hf.resolve_lt ht.lt
  unfold relocate
  simp only
  split
  · rename_i hnone
    refine ⟨hf, .refl f, hlt, fun s hs hid ho => ?_⟩
    have hfound := List.find?_eq_none.mp hnone s hs
    rw [ho.resolve_resolve, hid] at hfound
    exact absurd (beq_self_eq_true _) hfound
  · rename_i s hsome
    have hs := List.mem_of_find?_eq_some hsome
    have hid : s.id = f.resolve (f.resolve t) := by simpa using List.find?_some hsome
    -- Only an id that leads nowhere else is that of a source that was not moved.
    have hself : f.Original (f.resolve (f.resolve t)) → f.resolve (f.resolve t) = t := by
      intro ho
      have hfirst := ho.resolve_eq
      rw [hfirst] at ho
      exact hfirst.trans ho.resolve_eq
    have hgenuine : f.Original (f.resolve (f.resolve t)) → s.Genuine p entry :=
      fun ho => hf.source s hs (hid ▸ ho.movedOnce)
    have hmove : f.Original (f.resolve (f.resolve t)) →
        p.Path entry (s.forward.rebase callee.depth base) ∧
          base.toList <+: (s.forward.rebase callee.depth base).toList ∧
          (s.forward.rebase callee.depth base).top? = s.forward.top? := by
      intro ho
      have hstarts := ht.starts s hs (hid.trans (hself ho)) (hself ho ▸ ho)
      exact (hgenuine ho).path.rebase hc hstarts hb htop
    split
    · rename_i hframes
      refine ⟨hf, .refl f, hlt, fun s' hs' hid' ho => ?_⟩
      rw [ho.resolve_resolve] at hid hgenuine hmove
      have heq : s' = s := List.inj_on_of_nodup_map hf.distinct hs' hs (hid'.trans hid.symm)
      obtain ⟨hpath, hpre, -⟩ := hmove ho
      rw [heq, ← CallStack.sameFrames_iff.mp hframes]
      exact hpre
    · rw [reidentify_of_some hsome]
      obtain ⟨hmoved, hlater⟩ := hf.moved (f.resolve t) s (s.forward.rebase callee.depth base)
        fun ho => ⟨(hmove ho).1, (hmove ho).2.2 ▸ (hgenuine ho).caller⟩
      refine ⟨hmoved, hlater, Nat.lt_succ_self _, fun s' _ _ ho => ?_⟩
      exact absurd (List.mem_append_right _ (List.mem_singleton_self _))
        (ho (f.resolve (f.resolve t)))

/-- The findings are genuine and go on from `f₀`; taints were moved to ones whose paths start with
the base. -/
structure Genuine (p : Program) (entry : SummaryKey) (f₀ : Findings) (base : CallStack)
    (q : Provenance) : Prop where
  findings : q.findings.Genuine p entry
  later : Later f₀ q.findings
  remapped : ∀ {t moved}, q.remapped.get? t = some moved → q.findings.Traced base moved

theorem Genuine.rebaseTaint (hq : q.Genuine p entry f₀ base) (hc : callee.Counted)
    (hb : p.Path entry base) (htop : base.top? = callee.top?) (ht : q.findings.Traced callee t)
    (caller : SummaryKey) :
    (q.rebaseTaint callee.depth base caller t).2.Genuine p entry f₀ base ∧
      Later q.findings (q.rebaseTaint callee.depth base caller t).2.findings ∧
      (q.rebaseTaint callee.depth base caller t).2.findings.Traced base
        (q.rebaseTaint callee.depth base caller t).1 := by
  unfold Provenance.rebaseTaint
  split
  · rename_i moved hm
    exact ⟨hq, .refl _, hq.remapped hm⟩
  · obtain ⟨hmove, hlater, htraced⟩ := genuine_relocate hq.findings hc hb htop ht
    obtain ⟨hobserve, hlater'⟩ :=
      hmove.observe (relocate q.findings callee.depth base t).1 caller
    have hall := hlater.trans hlater'
    refine ⟨⟨hobserve, hq.later.trans hall, fun {t' moved} hm => ?_⟩, hall, htraced.later hlater'⟩
    rw [Table.get?_insert] at hm
    split at hm
    · cases hm
      exact htraced.later hlater'
    · exact (hq.remapped hm).later hall

end Provenance

end SinkTrace
