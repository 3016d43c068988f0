import SinkTrace.Proofs.Engine.Executions

/-!
The books of a run. The id of a source is copied by value into many heaps and summaries, while the
source itself gets new ids; still every such id names a source of the findings. A call of the sink
is registered once, however often it is reached, and what was registered, counted and remembered
agrees in number.
-/

namespace SinkTrace

/-- A live entity of the summary has the id. -/
inductive Summary.Bears : Summary → TaintId → Prop where
  | entity {m : MethodSummary} {id : EntityId} {e : Entity}
    (he : m.heap.nodes[id]? = some (.live e)) : Bears (.computed m) e.taint

theorem Summary.Vouched.named {f : Findings} {summary : Summary} {t : TaintId}
    (hv : summary.Vouched f) (hc : summary.Bears t) (ht : TaintId.firstSource ≤ t) :
    ∃ s, f.source? t = some s := by
  obtain @⟨m, id, e, he⟩ := hc
  have hentity := hv id
  rw [Heap.entity_of_live? (Heap.live?_eq_some.mpr he)] at hentity
  exact hentity.source ht

namespace Activation

/-- Ids on the heap of an activation, in its provisional answer, and in the summaries that wait for
its loop. -/
inductive Bears (a : Activation) : TaintId → Prop where
  | entity {id : EntityId} {e : Entity} (he : a.context.heap.nodes[id]? = some (.live e)) :
    Bears a e.taint
  | provisional {loop : RecursionLoop Fingerprint} {summary : Summary} {t : TaintId}
    (hl : a.recursion = some loop) (hp : loop.provisional = some summary)
    (hc : summary.Bears t) : Bears a t
  | pending {loop : RecursionLoop Fingerprint} {entry : SummaryKey × Summary} {t : TaintId}
    (hl : a.recursion = some loop) (hm : entry ∈ loop.pending) (hc : entry.2.Bears t) :
    Bears a t

theorem Sound.named {a : Activation} {f : Findings} {t : TaintId} (ha : a.Sound f)
    (hc : a.Bears t) (ht : TaintId.firstSource ≤ t) : ∃ s, f.source? t = some s := by
  cases hc with
  | entity he => exact (ha.heap.vouched (Heap.live?_eq_some.mpr he)).source ht
  | provisional hl hp hc => exact ((ha.loop _ hl).provisional _ hp).named hc ht
  | pending hl hm hc => exact ((ha.loop _ hl).pending _ hm).named hc ht

end Activation

namespace Ledger

variable {first l : Ledger} {activations : List Activation}

/-- Ids at work where these activations are on the stack: theirs, those of the cached summaries, and
those that are remembered for calls of the sink. -/
inductive AtWork (activations : List Activation) (l : Ledger) : TaintId → Prop where
  | active {a : Activation} {t : TaintId} (ha : a ∈ activations) (hc : a.Bears t) :
    AtWork activations l t
  | cached {entry : SummaryKey × Summary} {t : TaintId} (hm : entry ∈ l.cache.entries)
    (hc : entry.2.Bears t) : AtWork activations l t
  | remembered {site : SinkSite} {t : TaintId} (hm : l.session.sources.get? site = some t) :
    AtWork activations l t

theorem Sound.named (hl : l.Sound) (ha : ∀ a ∈ activations, a.Sound l.findings) {t : TaintId}
    (hw : AtWork activations l t) (ht : TaintId.firstSource ≤ t) :
    ∃ s, l.findings.source? t = some s := by
  cases hw with
  | active hm hc => exact (ha _ hm).named hc ht
  | cached hm hc => exact (hl.cache _ hm).named hc ht
  | remembered hm => exact hl.session hm

/-- The books of a run that began with the ledger `first` balance. -/
structure Balanced (first : Ledger) (activations : List Activation) (l : Ledger) : Prop where
  /-- An id of a source that is at work names one. -/
  named : ∀ {t}, AtWork activations l t → TaintId.firstSource ≤ t →
    ∃ s, l.findings.source? t = some s
  /-- The calls that are remembered are those that were registered, in the same order. -/
  registers : first.Registers l.session.sources.keys l
  once : l.session.sources.keys.Nodup
  sources : l.findings.sources.length = l.session.sources.size
  interceptions : l.statistics.sinkInterceptions = l.session.sources.size
  /-- Every id was given out for a call that is remembered or in place of another id. -/
  issued : l.findings.nextId =
    TaintId.firstSource + l.findings.redirects.length + l.session.sources.size
  /-- The findings were never misused. -/
  quiet : l.findings.complaints = []

/-- A ledger that goes on from a blank one. -/
theorem Extends.balanced (he : first.Extends l) {cache : Cache} (hfirst : first = { cache })
    (ha : ∀ a ∈ activations, a.Sound l.findings) : Balanced first activations l := by
  subst hfirst
  obtain ⟨sites, hr⟩ := he.registers
  have hkeys : l.session.sources.keys = sites := hr.keys
  obtain ⟨-, hsources, hcount⟩ := hr.extends Findings.orderly_empty
  have hsize : l.session.sources.size = sites.length := by
    rw [← hkeys, Table.keys, List.length_map]
    rfl
  have hlength : l.findings.sources.length = l.session.sources.size := by
    rw [hsources, hsize]
    exact Nat.zero_add _
  refine ⟨he.sound.named ha, hkeys.symm ▸ hr, hr.nodup List.nodup_nil, hlength, ?_,
    hlength ▸ he.sound.orderly.given, he.sound.orderly.quiet⟩
  rw [hcount, hsize]
  exact Nat.zero_add _

end Ledger

namespace Engine

variable {e e' : Engine} {entry : EntryPoint} {activations : List Activation} {l : Ledger}
  {findings : Findings}

/-- The states of a run, each with the activations there are: before and after every step, where an
activation is about to be settled, and where a step fails. An activation that is settled within a
step stands above the stack that the step began with. -/
inductive Visits (e : Engine) (entry : EntryPoint) : List Activation → Ledger → Prop where
  | enters {a : Activation} {l : Ledger} (hs : e.Settles entry a l) : Visits e entry [a] l
  | passes {s : Setup} {m : Machine} (hm : e.Passes entry s m) :
    Visits e entry m.activations m.ledger
  | settles {s : Setup} {m : Machine} {a : Activation} {l : Ledger} (hm : e.Passes entry s m)
    (hs : Machine.Settles s m a l) : Visits e entry (a :: m.activations) l
  | fails {s : Setup} {m : Machine} {failure : Failure} {l : Ledger} (hm : e.Passes entry s m)
    (hf : m.step s = .failed failure l) : Visits e entry m.activations l

theorem Settles.unused {a : Activation} (hs : e.Settles entry a l) : e.used = false := by
  cases hs with
  | entered hu => exact hu
  | stepped hu => exact hu

theorem Visits.unused (hv : e.Visits entry activations l) : e.used = false := by
  cases hv with
  | enters hs => exact hs.unused
  | passes hm => exact hm.unused
  | settles hm => exact hm.unused
  | fails hm => exact hm.unused

/-- Every state is sound. What lies on the stack stays so while the ledger goes on. -/
theorem Visits.sound (hv : e.Visits entry activations l) (he : e.Made) :
    e.ledger.Extends l ∧ ∀ a ∈ activations, a.Sound l.findings := by
  cases hv with
  | enters hs =>
    obtain ⟨hext, ha⟩ := hs.continues he
    exact ⟨hext, fun b hb => List.mem_singleton.mp hb ▸ ha⟩
  | passes hm =>
    obtain ⟨hext, hall⟩ := hm.continues he
    exact ⟨hext, hall⟩
  | settles hm hs =>
    have hsound := hm.continues he
    obtain ⟨hext, ha⟩ := hs.continues hsound.sound
    refine ⟨hsound.ledger.trans hext, List.forall_mem_cons.mpr ⟨ha, fun b hb => ?_⟩⟩
    exact (hsound.activations b hb).mono hext.findings
  | @fails s m failure l hm hf =>
    have hsound := hm.continues he
    have hext : m.ledger.Extends l := by
      have hturn := @Machine.Sound.step _ s hsound.sound
      rwa [hf] at hturn
    exact ⟨hsound.ledger.trans hext, fun b hb => (hsound.activations b hb).mono hext.findings⟩

/-- In every state of a run the books balance. -/
theorem visits_balanced (he : e.Made) (hv : e.Visits entry activations l) :
    Ledger.Balanced e.ledger activations l := by
  obtain ⟨cache, -, hblank⟩ := he.blank hv.unused
  obtain ⟨hext, hall⟩ := hv.sound he
  exact hext.balanced hblank hall

/-- A summary from the cache has been applied, and the source has a new id. The old one, which is
remembered for the call of the sink, still names it. -/
theorem wreckEngine_balanced : ∃ m source,
    wreckEngine.machineAt? ⟨wreck.signature, []⟩ 9 = some m ∧
      Ledger.Balanced wreckEngine.ledger m.activations m.ledger ∧
      m.ledger.session.sources.size = 1 ∧ m.ledger.findings.redirects = [(2, 3)] ∧
      m.ledger.findings.source? 2 = some source := by
  have hrun : (wreckEngine.machineAt? ⟨wreck.signature, []⟩ 9).map (fun m =>
      (m.ledger.session.sources.entries.map Prod.snd, m.ledger.findings.redirects)) =
      some ([2], [(2, 3)]) := by decide +kernel
  obtain ⟨m, hm, hrun⟩ := Option.map_eq_some_iff.mp hrun
  obtain ⟨hids, hredirects⟩ := Prod.mk.inj hrun
  have hpasses := passes_of_machineAt? rfl entry?_wreck hm
  have hbalanced := visits_balanced (.ofSettings ..) (.passes hpasses)
  obtain ⟨site, rest, hentries, hsite, hrest⟩ := List.map_eq_cons_iff.mp hids
  cases List.map_eq_nil_iff.mp hrest
  have hremembered : m.ledger.session.sources.get? site.1 = some 2 := by
    simp [Table.get?, Table.find, hentries, hsite]
  obtain ⟨source, hsource⟩ := hbalanced.named (.remembered hremembered) (by decide)
  refine ⟨m, source, hm, hbalanced, ?_, hredirects, hsource⟩
  simp [Table.size, hentries]

/-- What an execution returns has a source for each call of the sink that was counted. -/
theorem Made.balanced_execute (he : e.Made) (hx : e.execute entry = (.ok findings, e')) :
    findings.sources.length = e'.ledger.statistics.sinkInterceptions ∧
      e'.ledger.session.sources.size = e'.ledger.statistics.sinkInterceptions ∧
      e'.ledger.session.sources.keys.Nodup ∧ findings.complaints = [] := by
  obtain ⟨d, first, ledger, hu, hd, hb, hr, rfl, -, rfl⟩ := exists_last_of_execute hx
  have hlast : e.Passes entry (e.runSetup d) ⟨[], ledger⟩ := .of hu hd hb hr
  obtain ⟨cache, -, hblank⟩ := he.blank hu
  obtain ⟨hext, hall⟩ := hlast.continues he
  have hbalanced := hext.balanced hblank hall
  exact ⟨hbalanced.sources.trans hbalanced.interceptions.symm, hbalanced.interceptions.symm,
    hbalanced.once, hbalanced.quiet⟩

end Engine

end SinkTrace
