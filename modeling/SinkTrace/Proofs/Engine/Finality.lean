import SinkTrace.Proofs.Engine.Grounding
import SinkTrace.Proofs.Engine.Machine

/-!
Only final summaries are cached: no summary in the cache rests on a loop whose head is still on the
stack. Those that do wait for a head below them.
-/

namespace SinkTrace

namespace Machine

variable {s : Setup} {level : Nat} {a a' : Activation} {below : List Activation} {l l' : Ledger}
  {m : Machine}

theorem openLoop_shape {provisional : Summary} {m' : Machine} (hl : level < m.activations.length)
    (ho : openLoop level m = (provisional, m')) :
    ∃ participants, m'.activations =
        modifyLevel level (·.extendLoop participants) (dependOn level m.activations) ∧
      m'.ledger.cache = m.ledger.cache := by
  unfold openLoop at ho
  split at ho
  · rename_i hnone
    rw [atLevel?_eq, List.getElem?_eq_none_iff, List.length_reverse] at hnone
    omega
  · simp only [Prod.mk.injEq] at ho
    obtain ⟨-, rfl⟩ := ho
    refine ⟨_, rfl, ?_⟩
    simp only
    split <;> rfl

theorem onTop_ite (c : Prop) [Decidable c] (g : Activation → Activation) (m : Machine) :
    (m.onTop fun a l => (if c then g a else a, l)) =
      if c then m.onTop fun a l => (g a, l) else m := by
  obtain ⟨_ | ⟨a, below⟩, l⟩ := m
  · simp [onTop]
  · simp only [onTop]
    split <;> rfl

/-- Summaries that rest on no loop of the stack are put into the cache. -/
theorem file_final {entries : List (SummaryKey × Summary)} {dependency : Option Nat}
    (hd : dependency.filter (· < m.activations.length) = none) :
    file entries dependency m = { m with ledger := { m.ledger with
      cache := entries.foldl (fun c (key, summary) => c.put key summary) m.ledger.cache } } := by
  unfold file
  rw [hd]

theorem cache_handDown (entries : List (SummaryKey × Summary)) (level : Nat) (m : Machine) :
    (handDown entries level m).ledger.cache = m.ledger.cache :=
  (keeps_onTop (fun _ l => .refl l) _).cache

theorem file_handDown {entries : List (SummaryKey × Summary)} {dependency : Option Nat}
    (hd : dependency.filter (· < m.activations.length) = some level) :
    file entries dependency m = handDown entries level m := by
  unfold file handDown
  rw [hd, onTop_ite, ← length_modifyLevel level (Activation.deferAll entries) m.activations]
  rfl

theorem atLevel?_modifyLevel (g : Activation → Activation) (as : List Activation) :
    atLevel? level (modifyLevel level g as) = (atLevel? level as).map g := by
  induction as with
  | nil => rfl
  | cons a below ih =>
    unfold modifyLevel
    split
    · rename_i htop
      simp [atLevel?, htop]
    · rename_i htop
      simp [atLevel?, htop, length_modifyLevel, ih]

/-- Handing summaries down and answering the caller changes what waits at the one level. -/
theorem pending_handDown (entries : List (SummaryKey × Summary)) (summary : Summary)
    {head : Activation} (hh : atLevel? level below = some head) (hr : head.recursion.isSome) :
    ∃ head', atLevel? level (resume summary (handDown entries level ⟨below, l⟩)).activations =
      some head' ∧ head'.pending = head.pending ++ entries := by
  have hanswer : ∀ m : Machine, (resume summary m).activations.map Activation.pending =
      m.activations.map Activation.pending := by
    refine fun m => map_onTop (fun a l => ?_) m
    split
    · rfl
    · obtain ⟨⟨c, hc⟩, -⟩ := answer_shape { a with waiting := none } l _ summary false
      rw [hc]
      rfl
  have hdepend : (handDown entries level ⟨below, l⟩).activations.map Activation.pending =
      (modifyLevel level (Activation.deferAll entries) below).map Activation.pending := by
    refine map_onTop (fun a l => ?_) _
    split <;> rfl
  have hsame := congrArg (·.reverse[level]?) ((hanswer _).trans hdepend)
  simp only [← List.map_reverse, List.getElem?_map, ← atLevel?_eq, atLevel?_modifyLevel, hh,
    Option.map_some, Activation.pending_deferAll entries hr] at hsame
  obtain ⟨head', hhead', hpending⟩ := Option.map_eq_some_iff.mp hsame
  exact ⟨head', hhead', hpending⟩

end Machine

namespace Trail

open Machine (advance answer startsOver)

variable {s : Setup} {first m m' : Machine} {t : Trail} {a a' : Activation}
  {below : List Activation} {l l' : Ledger}

/-! The trail after a move. -/

theorem after_answered (ha : advance s a l = .answered a' l') : t.after s ⟨a :: below, l⟩ = t := by
  simp [after, ha]

variable {r : CallRequest} {summary : Summary} {cache : Cache} {level : Nat}

theorem after_served (ha : advance s a l = .asks r a' l')
    (hg : l'.cache.get r.key = (some summary, cache)) : t.after s ⟨a :: below, l⟩ = t := by
  simp [after, ha, hg]

theorem after_looped (ha : advance s a l = .asks r a' l')
    (hg : l'.cache.get r.key = (none, cache))
    (hl : Machine.levelOf? r.key (a' :: below) = some level) :
    t.after s ⟨a :: below, l⟩ = t.rely level := by simp [after, ha, hg, hl]

theorem after_entered (ha : advance s a l = .asks r a' l')
    (hg : l'.cache.get r.key = (none, cache))
    (hl : Machine.levelOf? r.key (a' :: below) = none) : t.after s ⟨a :: below, l⟩ = t.enter := by
  simp [after, ha, hg, hl]

theorem after_restarted {loop : RecursionLoop Fingerprint} (ha : advance s a l = .ends a' l')
    (hr : a'.recursion = some loop) (hu : startsOver s a' l' loop = true) :
    t.after s ⟨a :: below, l⟩ = t.restart := by simp [after, ha, hr, hu]

theorem after_completed (ha : advance s a l = .ends a' l')
    (hf : ∀ loop, a'.recursion = some loop → startsOver s a' l' loop = false) :
    t.after s ⟨a :: below, l⟩ = t.complete a' := by
  have hstays : a'.recursion.any (startsOver s a' l') = false := by
    cases hloop : a'.recursion with
    | none => rfl
    | some loop => exact hf loop hloop
  simp [after, ha, hstays]

/-- The trail tells what the machine did. -/
structure Faithful (first m : Machine) (t : Trail) : Prop where
  numbered : t.Numbered
  grounded : Grounded m.activations t.frames
  /-- What was kept rests on no loop whose head is on the stack. -/
  closed : ∀ r ∈ t.kept, ∀ n ∈ r.rests, n ∉ t.stack
  /-- What is in the cache was there before the run or was kept. -/
  cached : ∀ entry ∈ m.ledger.cache.entries,
    entry ∈ first.ledger.cache.entries ∨ ∃ r ∈ t.kept, r.entry = entry

namespace Faithful

theorem exists_frame (h : Faithful first ⟨a :: below, l⟩ t) : ∃ f fs, t.frames = f :: fs := by
  have hg := h.grounded
  cases hframes : t.frames with
  | nil =>
    rw [hframes] at hg
    cases hg
  | cons f fs => exact ⟨f, fs, rfl⟩

/-- The topmost activation goes on, and nothing new is cached. -/
theorem goOn (h : Faithful first ⟨a :: below, l⟩ t) (hd : a'.dependency = a.dependency)
    (hr : a'.recursion = a.recursion)
    (hc : ∀ entry ∈ l'.cache.entries, entry ∈ l.cache.entries) :
    Faithful first ⟨a' :: below, l'⟩ t := by
  obtain ⟨f, fs, hframes⟩ := h.exists_frame
  have hg := h.grounded
  rw [hframes] at hg
  refine ⟨h.numbered, ?_, h.closed, fun entry hin => h.cached entry (hc entry hin)⟩
  rw [hframes]
  exact ⟨hg.1.congr hd hr, hg.2⟩

theorem reached (h : Faithful first ⟨a :: below, l⟩ t)
    (hr : (advance s a l).reached = some (a', l')) : Faithful first ⟨a' :: below, l'⟩ t := by
  obtain ⟨⟨context, work, rfl⟩, he, -⟩ := Machine.reached_shape hr
  exact h.goOn rfl rfl fun entry hin => he ▸ hin

theorem start (hb : first.activations = [a]) (hd : a.dependency = none)
    (hp : a.pending = []) : Faithful first first Trail.start := by
  refine ⟨.start, ?_, fun r hr => absurd hr List.not_mem_nil, fun entry hin => .inl hin⟩
  rw [hb]
  refine ⟨⟨fun n hn => absurd hn List.not_mem_nil, fun d hdep => ?_,
    fun r hr => absurd hr List.not_mem_nil, hp.symm⟩, trivial⟩
  rw [hd] at hdep
  cases hdep

/-- A provisional answer is given to the topmost activation. -/
theorem rely {level : Nat} {l' : Ledger} (h : Faithful first ⟨a :: below, l⟩ t)
    (participants : List SummaryKey) (hl : level < (a :: below).length)
    (hc : ∀ entry ∈ l'.cache.entries, entry ∈ l.cache.entries) :
    Faithful first ⟨Machine.modifyLevel level (·.extendLoop participants)
      (Machine.dependOn level (a :: below)), l'⟩ (t.rely level) := by
  obtain ⟨f, fs, hframes⟩ := h.exists_frame
  have hg := h.grounded
  have hn := h.numbered.stack_nodup
  have hstack : (t.rely level).stack = t.stack := map_serial_relyOnTop _ t.frames
  rw [stack, hframes] at hn
  rw [hframes] at hg
  refine ⟨h.numbered.rely level, ?_, fun r hr n hin => ?_,
    fun entry hin => h.cached entry (hc entry hin)⟩
  · unfold Trail.rely stack
    rw [hframes]
    exact hg.rely participants hl hn
  · rw [hstack]
    exact h.closed r hr n hin

/-- A new activation rests on nothing, and nothing rests on it. -/
theorem enter {callee : Activation} {l' : Ledger} (h : Faithful first m t)
    (hd : callee.dependency = none) (hp : callee.pending = [])
    (hc : ∀ entry ∈ l'.cache.entries, entry ∈ m.ledger.cache.entries) :
    Faithful first ⟨callee :: m.activations, l'⟩ t.enter := by
  refine ⟨h.numbered.enter, ⟨⟨fun n hn => absurd hn List.not_mem_nil, fun d hdep => ?_,
    fun r hr => absurd hr List.not_mem_nil, hp.symm⟩, h.grounded⟩, fun r hr n hin => ?_,
    fun entry hin => h.cached entry (hc entry hin)⟩
  · rw [hd] at hdep
    cases hdep
  · intro hmem
    rcases List.mem_cons.mp hmem with rfl | hmem
    · exact Nat.lt_irrefl _ ((h.numbered.kept r hr).rests t.next hin)
    · exact h.closed r hr n hin hmem

theorem restart {l' : Ledger} (h : Faithful first ⟨a :: below, l⟩ t)
    (hd : a'.dependency = a.dependency) (hp : a'.pending = [])
    (hc : ∀ entry ∈ l'.cache.entries, entry ∈ l.cache.entries) :
    Faithful first ⟨a' :: below, l'⟩ t.restart := by
  obtain ⟨f, fs, hframes⟩ := h.exists_frame
  have hg := h.grounded
  rw [hframes] at hg
  have hstack : t.restart.stack = t.stack := by
    unfold Trail.restart stack
    rw [hframes]
    rfl
  refine ⟨h.numbered.restart, ?_, fun r hr n hin => ?_,
    fun entry hin => h.cached entry (hc entry hin)⟩
  · unfold Trail.restart
    rw [hframes]
    refine ⟨⟨?_, ?_, fun r hr => absurd hr List.not_mem_nil, hp.symm⟩, hg.2⟩
    · rw [hd]
      exact hg.1.rests
    · rw [hd]
      exact hg.1.headed
  · rw [hstack]
    exact h.closed r hr n hin

/-- An activation comes to its end. -/
theorem complete (h : Faithful first ⟨a :: below, l⟩ t) :
    Faithful first (Machine.resume a.summary
      (Machine.file (a.pending ++ [(a.key, a.summary)]) a.dependency ⟨below, l⟩))
      (t.complete a) := by
  obtain ⟨next, frames, kept⟩ := t
  obtain ⟨f, fs, hframes⟩ := h.exists_frame
  cases hframes
  have hg := h.grounded
  have hlength : below.length = fs.length := hg.2.length
  have hclosed : ∀ r ∈ kept, ∀ n ∈ r.rests, n ∉ fs.map Frame.serial :=
    fun r hr n hin hmem => h.closed r hr n hin (List.mem_cons_of_mem _ hmem)
  have hnumbered := h.numbered.complete a
  rw [← hg.map_entry_records]
  cases hd : a.dependency.filter (· < fs.length) with
  | none =>
    have hcomplete : Trail.complete a ⟨next, f :: fs, kept⟩ =
        ⟨next, fs.modifyHead (·.relyOn f.rests), kept ++ f.records a⟩ := by
      simp only [Trail.complete, hd]
    rw [Machine.file_final (by rw [← hd, ← hlength])]
    rw [hcomplete] at hnumbered ⊢
    refine ⟨hnumbered, .resume (hg.final hd) _, fun r hr n hin => ?_, fun entry hin => ?_⟩
    · rw [stack, map_serial_relyOnTop]
      rcases List.mem_append.mp hr with hr | hr
      · exact hclosed r hr n hin
      · exact hg.records_closed hd r hr n hin
    · rw [(Machine.keeps_resume _ _).cache] at hin
      rcases Cache.mem_putAll hin with hin | hin
      · obtain ⟨r, hr, rfl⟩ := List.mem_map.mp hin
        exact .inr ⟨r, List.mem_append_right _ hr, rfl⟩
      · rcases h.cached entry hin with hold | ⟨r, hr, rfl⟩
        · exact .inl hold
        · exact .inr ⟨r, List.mem_append_left _ hr, rfl⟩
  | some level =>
    have hcomplete : Trail.complete a ⟨next, f :: fs, kept⟩ =
        ⟨next, (modifyLevel level (·.await (f.records a)) fs).modifyHead (·.relyOn f.rests),
          kept⟩ := by
      simp only [Trail.complete, hd]
    have hdep := (Option.filter_eq_some_iff.mp hd).1
    rw [Machine.file_handDown (by rw [← hd, ← hlength])]
    rw [hcomplete] at hnumbered ⊢
    refine ⟨hnumbered, .resume (hg.handedDown hdep l) _, fun r hr n hin => ?_,
      fun entry hin => ?_⟩
    · rw [stack, map_serial_relyOnTop, map_serial_await]
      exact hclosed r hr n hin
    · rw [(Machine.keeps_resume _ _).cache, Machine.cache_handDown] at hin
      exact h.cached entry hin

theorem move (h : Faithful first m t) (hm : Machine.Move s m m') :
    Faithful first m' (t.after s m) := by
  cases hm with
  | @answered a a' below l l' ha =>
    have hr : Faithful first ⟨a' :: below, l'⟩ t := h.reached (by rw [ha]; rfl)
    obtain ⟨⟨c, hsettle⟩, hkeeps⟩ := a'.settle_shape l'
    rw [after_answered ha, hsettle]
    exact hr.goOn rfl rfl fun entry hin => hkeeps.cache ▸ hin
  | @served a a' below l l' k r summary cache ha hg hk =>
    have hr : Faithful first ⟨a' :: below, l'⟩ t := h.reached (by rw [ha]; rfl)
    obtain ⟨⟨c, hanswer⟩, hkeeps⟩ := Machine.answer_shape a' k r summary false
    rw [after_served ha hg, hanswer]
    refine hr.goOn rfl rfl fun entry hin => ?_
    rw [hkeeps.cache, hk] at hin
    exact Cache.mem_of_get hg hin
  | @looped a a' below l l' r cache level provisional m ha hg hl hopen =>
    have hr : Faithful first ⟨a' :: below, l'⟩ t := h.reached (by rw [ha]; rfl)
    have hlt := Machine.lt_of_levelOf? hl
    obtain ⟨participants, hact, hcache⟩ := Machine.openLoop_shape hlt hopen
    have hlooped : Faithful first m (t.rely level) := by
      obtain ⟨activations, k⟩ := m
      cases hact
      refine hr.rely participants hlt fun entry hin => ?_
      simp only at hcache
      exact Cache.mem_of_get hg (hcache ▸ hin)
    rw [after_looped ha hg hl]
    refine ⟨hlooped.numbered, hlooped.grounded.onTop fun a l => ?_, hlooped.closed, ?_⟩
    · obtain ⟨⟨c, hanswer⟩, -⟩ := Machine.answer_shape a l r provisional true
      rw [hanswer]
      exact ⟨rfl, rfl⟩
    · have hkeeps := Machine.keeps_onTop
        (fun a l => (Machine.answer_shape a l r provisional true).2) m
      rw [hkeeps.cache]
      exact hlooped.cached
  | @entered a a' callee below l l' r cache ha hg hl hs =>
    have hr : Faithful first ⟨a' :: below, l'⟩ t := h.reached (by rw [ha]; rfl)
    have hwaits : Faithful first ⟨{ a' with waiting := some r } :: below, l'⟩ t :=
      hr.goOn rfl rfl fun _ hin => hin
    obtain ⟨hcallee, -⟩ := Activation.start_shape hs
    rw [after_entered ha hg hl]
    refine hwaits.enter (by rw [hcallee]) (by rw [hcallee]; rfl) fun entry hin => ?_
    rw [(Machine.keeps_countWalk _ _).cache] at hin
    exact Cache.mem_of_get hg hin
  | @restarted a a' again below l l' loop ha hloop hu hs =>
    have hr : Faithful first ⟨a' :: below, l'⟩ t := h.reached (by rw [ha]; rfl)
    rw [after_restarted ha hloop hu]
    refine hr.restart rfl rfl fun entry hin => ?_
    rwa [(Machine.keeps_countWalk _ _).cache] at hin
  | @completed a a' below l l' ha hf =>
    have hr : Faithful first ⟨a' :: below, l'⟩ t := h.reached (by rw [ha]; rfl)
    rw [after_completed ha hf]
    exact hr.complete

/-- The trail of every run is faithful. -/
theorem of_follows (h : Faithful first first Trail.start) (hf : Follows s first m t) :
    Faithful first m t := by
  induction hf with
  | start => exact h
  | step _ hs ih => exact ih.move (Machine.move_of_step hs)

end Faithful

/-- What becomes of the summaries that an activation leaves behind. It ends as `a` on top of
`below`, with the frame `f` on top of `fs`; the machine goes on as `m`. -/
inductive Disposed (a : Activation) (below : List Activation) (l : Ledger) (f : Frame)
    (fs : List Frame) (m : Machine) : Prop where
  /-- They rest on no loop of the stack, and are put into the cache. -/
  | cached (hn : ∀ r ∈ f.records a, ∀ n ∈ r.rests, n ∉ fs.map Frame.serial)
    (hc : m.ledger.cache = ((f.records a).map Record.entry).foldl
      (fun c (key, summary) => c.put key summary) l.cache)
  /-- They wait for the head of an open loop below, and the cache stays as it is. -/
  | handedDown {level : Nat} {head head' : Activation}
    (hh : Machine.atLevel? level below = some head) (hr : head.recursion.isSome)
    (hh' : Machine.atLevel? level m.activations = some head')
    (hp : head'.pending = head.pending ++ (f.records a).map Record.entry)
    (hc : m.ledger.cache = l.cache)

theorem Faithful.disposed (h : Faithful first ⟨a :: below, l⟩ t)
    (ha : advance s a l = .ends a' l') (hf : a'.recursion.any (startsOver s a' l') = false) :
    ∃ f fs m', t.frames = f :: fs ∧ Machine.step s ⟨a :: below, l⟩ = .running m' ∧
      Disposed a' below l' f fs m' := by
  have hr : Faithful first ⟨a' :: below, l'⟩ t := h.reached (by rw [ha]; rfl)
  obtain ⟨f, fs, hframes⟩ := hr.exists_frame
  have hg := hr.grounded
  rw [hframes] at hg
  have hstep : Machine.conclude s below (.ends a' l') = .running (Machine.resume a'.summary
      (Machine.file (a'.pending ++ [(a'.key, a'.summary)]) a'.dependency ⟨below, l'⟩)) := by
    refine Machine.complete_eq fun loop hloop => ?_
    rw [hloop] at hf
    exact hf
  rw [Machine.step_eq, ha]
  refine ⟨f, fs, _, hframes, hstep, ?_⟩
  rw [← hg.map_entry_records]
  have hlength : below.length = fs.length := hg.2.length
  cases hd : a'.dependency.filter (· < fs.length) with
  | none =>
    refine .cached (hg.records_closed hd) ?_
    rw [(Machine.keeps_resume _ _).cache, Machine.file_final (by rw [← hd, ← hlength])]
  | some level =>
    obtain ⟨head, hhead, hloop⟩ := hg.1.headed level (Option.filter_eq_some_iff.mp hd).1
    obtain ⟨head', hhead', hpending⟩ := @Machine.pending_handDown level below l'
      ((f.records a').map Record.entry) a'.summary head hhead hloop
    rw [Machine.file_handDown (by rw [← hd, ← hlength])]
    refine .handedDown hhead hloop hhead' hpending ?_
    rw [(Machine.keeps_resume _ _).cache, Machine.cache_handDown]

/-- What holds of the cache in a machine with its trail. -/
structure Final (s : Setup) (first m : Machine) (t : Trail) : Prop where
  aligned : t.frames.length = m.activations.length
  /-- A summary in the cache was there before the run or was kept in it. -/
  cached : ∀ entry ∈ m.ledger.cache.entries,
    entry ∈ first.ledger.cache.entries ∨ ∃ r ∈ t.kept, r.entry = entry
  /-- What was kept rests on no loop whose head is on the stack. -/
  kept : ∀ r ∈ t.kept, ∀ n ∈ r.rests, n ∉ t.stack
  /-- What waits for a head has not been kept. -/
  waiting : ∀ f ∈ t.frames, ∀ r ∈ f.pending, r ∉ t.kept
  /-- An activation that ends for good leaves its summaries to the cache or to a head. -/
  disposed : ∀ a below l a' l', m = ⟨a :: below, l⟩ → advance s a l = .ends a' l' →
    a'.recursion.any (startsOver s a' l') = false →
    ∃ f fs m', t.frames = f :: fs ∧ Machine.step s m = .running m' ∧ Disposed a' below l' f fs m'

theorem Faithful.final (h : Faithful first m t) : Final s first m t where
  aligned := h.grounded.length.symm
  cached := h.cached
  kept := h.closed
  waiting _ hf _ hr := h.numbered.not_kept hf hr
  disposed := by
    rintro a below l a' l' rfl ha hstays
    exact h.disposed ha hstays

/-- Every machine of a run has its trail. -/
theorem exists_of_reaches (hr : Machine.Reaches s first m) : ∃ t, Follows s first m t := by
  induction hr with
  | refl => exact ⟨_, .start⟩
  | tail _ hs ih =>
    obtain ⟨t, ht⟩ := ih
    exact ⟨_, .step ht hs⟩

end Trail

namespace Engine

open Machine Trail

theorem faithful_boot {s : Setup} {l : Ledger} {d : MethodDef} {required : List String}
    {first : Machine} (hb : boot s l d required = .ok first) :
    Faithful first first Trail.start := by
  obtain ⟨root, hs, hact, -⟩ := root_of_boot hb
  obtain ⟨hroot, -⟩ := Activation.start_shape hs
  refine .start hact ?_ ?_
  · rw [hroot]
    rfl
  · rw [hroot]
    rfl

/-- Only final summaries are cached. Every machine of a run has its trail, and what the trail says
about the loops that a summary rests on, the cache observes. -/
theorem cached_final {s : Setup} {l : Ledger} {d : MethodDef} {required : List String}
    {first : Machine} (hb : boot s l d required = .ok first) :
    (∀ m, Reaches s first m → ∃ t, Follows s first m t) ∧
    ∀ m t, Follows s first m t → Final s first m t := by
  refine ⟨fun m hr => exists_of_reaches hr, fun m t hf => ?_⟩
  exact ((faithful_boot hb).of_follows hf).final

theorem spiralEngine_cached_final :
    ∃ first, boot (spiralEngine.runSetup spiral) spiralEngine.ledger spiral ["Spiral"] = .ok first ∧
      (∀ m, Reaches (spiralEngine.runSetup spiral) first m →
        ∃ t, Follows (spiralEngine.runSetup spiral) first m t) ∧
      ∀ m t, Follows (spiralEngine.runSetup spiral) first m t →
        Final (spiralEngine.runSetup spiral) first m t := by
  have hb : ∃ first, boot (spiralEngine.runSetup spiral) spiralEngine.ledger spiral ["Spiral"] =
      .ok first := ⟨_, rfl⟩
  obtain ⟨first, hfirst⟩ := hb
  exact ⟨first, hfirst, cached_final hfirst⟩

end Engine

end SinkTrace
