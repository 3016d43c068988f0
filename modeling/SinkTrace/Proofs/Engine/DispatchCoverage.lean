import SinkTrace.Proofs.Engine.CallRoutes
import SinkTrace.Proofs.Engine.Finality
import SinkTrace.Proofs.Engine.Runs

/-!
Which implementations the answer to a virtual call covers. An activation that dispatches a virtual
call calls the implementations that the call resolved to when the activation began, one after the
other. A caller that waits for it gets a summary of all of these. A summary from the cache is that
of an earlier activation: types that were constructed since are not in it.
-/

namespace SinkTrace

/-- The virtual call that a request is about, resolved by the types that had been created. -/
def CallRequest.Resolved (s : Setup) (types : NameSet) (r : CallRequest) : Prop :=
  ∀ methods, r.target = .implementations methods → ∃ d,
    s.program.method? r.key.signature = some d ∧ r.key.kind = .virtual ∧
      methods = s.implementationsOf types d r.key.signature

namespace Activation

variable {s : Setup} {a : Activation} {l : Ledger} {e : CallEffect} {r : CallRequest}

theorem resolved_of_dispatchConcrete {mode : GlueMode} {types : NameSet}
    (hr : (dispatchConcrete s a l e mode).1 = some r) : r.Resolved s types := by
  unfold dispatchConcrete at hr
  split at hr
  · cases hr
  · split at hr
    · cases hr
    · split at hr
      · cases hr
      · cases hr
        intro methods hm
        cases hm

theorem resolved_of_dispatchVirtual {d : MethodDef} (hd : s.program.method? e.signature = some d)
    (hr : (dispatchVirtual s a l e d).1 = some r) :
    r.Resolved s (dispatchVirtual s a l e d).2.2.cache.createdTypes := by
  unfold dispatchVirtual at hr ⊢
  simp only at hr ⊢
  split at hr
  · cases hr
  · rename_i hfew
    cases hr
    rw [if_neg hfew]
    intro methods hm
    cases hm
    exact ⟨d, hd, rfl, rfl⟩

theorem resolved_of_dispatch (hr : (dispatch s a l e).1 = some r) :
    r.Resolved s (dispatch s a l e).2.2.cache.createdTypes := by
  unfold dispatch at hr ⊢
  split at hr
  · cases hr
  · rename_i hsink
    rw [if_neg hsink]
    simp only at hr ⊢
    split at hr
    · rename_i d hv
      exact resolved_of_dispatchVirtual (method?_of_virtualTarget? hv) hr
    · exact resolved_of_dispatchConcrete hr

end Activation

namespace Machine

variable {s : Setup} {a a' : Activation} {l l' : Ledger} {r : CallRequest}

theorem resolved_of_asks (ha : advance s a l = .asks r a' l') :
    r.Resolved s l'.cache.createdTypes := by
  cases comes_of_advance ha with
  | implementation _ ho =>
    exact Activation.resolved_of_dispatchConcrete (congrArg Prod.fst (Outcome.eq_of_ofCall ho))
  | call _ _ ho =>
    have hx := Outcome.eq_of_ofCall ho
    have hresolved := Activation.resolved_of_dispatch (congrArg Prod.fst hx)
    rwa [hx] at hresolved

/-- The call that waits for the topmost activation, which has come to its end. -/
def ended? (m : Machine) (s : Setup) : Option CallRequest := do
  let a :: b :: _ := m.activations | none
  let .ends _ _ := advance s a m.ledger | none
  b.waiting

theorem exists_of_ended? {m : Machine} {s : Setup} {r : CallRequest} (h : m.ended? s = some r) :
    ∃ a b below l a' l', m = ⟨a :: b :: below, l⟩ ∧ advance s a l = .ends a' l' ∧
      b.waiting = some r := by
  obtain ⟨activations, l⟩ := m
  unfold ended? at h
  split at h
  · rename_i a b below hactivations
    cases hactivations
    split at h
    · rename_i a' l' hadvance
      exact ⟨a, b, below, l, a', l', rfl, hadvance, h⟩
    · cases h
  · cases h

/-- The call that the topmost activation comes to, which has a summary in the cache. -/
def served? (m : Machine) (s : Setup) : Option CallRequest := do
  let a :: _ := m.activations | none
  let .asks r _ l := advance s a m.ledger | none
  if (l.cache.get r.key).1.isSome then some r else none

theorem exists_of_served? {m : Machine} {s : Setup} {r : CallRequest} (h : m.served? s = some r) :
    ∃ a below l a' l' summary, m = ⟨a :: below, l⟩ ∧ advance s a l = .asks r a' l' ∧
      (l'.cache.get r.key).1 = some summary := by
  obtain ⟨activations, l⟩ := m
  unfold served? at h
  split at h
  · rename_i a below hactivations
    cases hactivations
    split at h
    · rename_i r' a' l' hadvance
      split at h
      · rename_i hfound
        obtain ⟨summary, hsummary⟩ := Option.isSome_iff_exists.mp hfound
        cases h
        exact ⟨a, below, l, a', l', summary, rfl, hadvance, hsummary⟩
      · cases h
    · cases h
  · cases h

end Machine

/-! Serial numbers and implementations. -/

namespace Trail

open Machine (advance)

/-- The activation with this serial number was begun for the request, when these types had been
created. -/
inductive Opened (s : Setup) (first : Machine) : Nat → CallRequest → NameSet → Prop where
  | entered {a a' : Activation} {below : List Activation} {l l' : Ledger} {r : CallRequest}
    {t : Trail} (hf : Follows s first ⟨a :: below, l⟩ t) (ha : advance s a l = .asks r a' l')
    (hg : (l'.cache.get r.key).1 = none) (hl : Machine.levelOf? r.key (a' :: below) = none) :
    Opened s first t.next r l'.cache.createdTypes

/-- The activation with this serial number called the implementation. -/
inductive Called (s : Setup) (first : Machine) : Nat → MethodRef → Prop where
  | calls {a : Activation} {below : List Activation} {l : Ledger} {t : Trail} {n : Nat}
    {method : MethodRef} {rest : List MethodRef} {mode : GlueMode}
    (hf : Follows s first ⟨a :: below, l⟩ t) (hn : t.stack.head? = some n)
    (hw : a.work = .dispatch (method :: rest) mode) : Called s first n method

/-- The request was resolved then. -/
theorem Opened.resolved {s : Setup} {first : Machine} {n : Nat} {r : CallRequest} {types : NameSet}
    (h : Opened s first n r types) : r.Resolved s types := by
  obtain ⟨-, ha, -, -⟩ := h
  exact Machine.resolved_of_asks ha

/-- The activation was begun for a request, and calls its implementations one after the other. -/
structure Attested (s : Setup) (first : Machine) (n : Nat) (o : Errand) : Prop where
  opened : ∀ methods, o.target = .implementations methods →
    ∃ r types, Opened s first n r types ∧ r.key = o.key ∧ r.target = o.target
  called : ∀ methods, o.target = .implementations methods → ∃ done rest mode,
    o.work = .dispatch rest mode ∧ methods = done ++ rest ∧ ∀ method ∈ done, Called s first n method

/-- The summary of a virtual call covers all that the call resolved to when it was begun. -/
def Record.Covers (s : Setup) (first : Machine) (r : Record) : Prop :=
  r.entry.1.kind = .virtual → ∃ request types methods, Opened s first r.serial request types ∧
    request.key = r.entry.1 ∧ request.target = .implementations methods ∧
    ∀ method ∈ methods, Called s first r.serial method

/-- The trail still holds the record. -/
def Holds (t : Trail) (r : Record) : Prop := (∃ f ∈ t.frames, r ∈ f.pending) ∨ r ∈ t.kept

variable {s : Setup} {first m m' : Machine} {t : Trail} {a a' : Activation}
  {below : List Activation} {l l' : Ledger} {r : Record} {f : Frame} {fs : List Frame}
  {o : Errand} {n : Nat}

theorem holds_rely {level : Nat} (h : (t.rely level).Holds r) : t.Holds r := by
  refine h.imp_left ?_
  rintro ⟨f, hf, hr⟩
  rcases mem_modifyHead hf with hf | ⟨g, hg, rfl⟩
  · exact ⟨f, hf, hr⟩
  · exact ⟨g, hg, hr⟩

theorem holds_enter (h : t.enter.Holds r) : t.Holds r := by
  refine h.imp_left ?_
  rintro ⟨f, hf, hr⟩
  rcases List.mem_cons.mp hf with rfl | hf
  · exact absurd hr List.not_mem_nil
  · exact ⟨f, hf, hr⟩

theorem holds_restart (h : t.restart.Holds r) : t.Holds r := by
  refine h.imp_left ?_
  rintro ⟨f, hf, hr⟩
  rcases mem_modifyHead hf with hf | ⟨g, hg, rfl⟩
  · exact ⟨f, hf, hr⟩
  · exact absurd hr List.not_mem_nil

theorem holds_relyOn {serials : List Nat} (hf : f ∈ fs.modifyHead (·.relyOn serials))
    (hr : r ∈ f.pending) : ∃ g ∈ fs, r ∈ g.pending := by
  rcases mem_modifyHead hf with hf | ⟨g, hg, rfl⟩
  · exact ⟨f, hf, hr⟩
  · exact ⟨g, hg, hr⟩

/-- The one new record is the summary of the activation that ends. -/
theorem holds_complete (hframes : t.frames = f :: fs) (h : (t.complete a).Holds r) :
    t.Holds r ∨ r = ⟨f.serial, (a.key, a.summary), f.rests⟩ := by
  have hbelow : ∀ g ∈ fs, r ∈ g.pending → t.Holds r := fun g hg hr =>
    .inl ⟨g, hframes ▸ List.mem_cons_of_mem _ hg, hr⟩
  have hown : r ∈ f.records a → t.Holds r ∨ r = ⟨f.serial, (a.key, a.summary), f.rests⟩ := by
    intro hr
    rcases List.mem_append.mp hr with hr | hr
    · exact .inl (.inl ⟨f, hframes ▸ List.mem_cons_self, hr⟩)
    · exact .inr (List.mem_singleton.mp hr)
  unfold Trail.complete at h
  rw [hframes] at h
  simp only at h
  split at h
  · rcases h with ⟨g, hg, hr⟩ | hr
    · obtain ⟨g, hg, hr⟩ := holds_relyOn hg hr
      exact .inl (hbelow g hg hr)
    · exact (List.mem_append.mp hr).elim (fun hr => .inl (.inr hr)) hown
  · rcases h with ⟨g, hg, hr⟩ | hr
    · obtain ⟨g, hg, hr⟩ := holds_relyOn hg hr
      rcases mem_modifyLevel hg with hg | ⟨g', hg', rfl⟩
      · exact .inl (hbelow g hg hr)
      · exact (List.mem_append.mp hr).elim (fun hr => .inl (hbelow g' hg' hr)) hown
    · exact .inl (.inr hr)

theorem stack_complete (hframes : t.frames = f :: fs) :
    (t.complete a).stack = fs.map Frame.serial := by
  unfold Trail.complete stack
  rw [hframes]
  simp only
  split
  · rw [map_serial_relyOnTop]
  · rw [map_serial_relyOnTop, map_serial_await]

theorem Attested.free (h : Attested s first n o) : Attested s first n o.free :=
  ⟨h.opened, h.called⟩

theorem Attested.waits (h : Attested s first n o) (waiting : Option CallRequest) :
    Attested s first n { o with waiting } := ⟨h.opened, h.called⟩

/-- A dispatch goes on to its next implementation. -/
theorem Attested.progress (h : Attested s first n a.errand) (hf : Follows s first ⟨a :: below, l⟩ t)
    (hn : t.stack.head? = some n) {work : Work} (hp : a.work.Progress work) :
    Attested s first n { a.errand with work } := by
  refine ⟨h.opened, fun methods hm => ?_⟩
  obtain ⟨done, rest, mode, hw, hsplit, hdone⟩ := h.called methods hm
  change a.work = .dispatch rest mode at hw
  have hcalls := fun method rest' mode' h =>
    @Called.calls s first a below l t n method rest' mode' hf hn h
  rw [hw] at hp
  cases hp with
  | called method rest mode mode' =>
    refine ⟨done ++ [method], rest, mode', rfl, by rw [hsplit, List.append_assoc]; rfl, ?_⟩
    intro other hin
    rcases List.mem_append.mp hin with hin | hin
    · exact hdone other hin
    · exact List.mem_singleton.mp hin ▸ hcalls method rest mode hw
  | done mode => exact ⟨done, [], mode, rfl, hsplit, hdone⟩

/-- A new activation has called nothing yet. -/
theorem attested_start {key : SummaryKey} {method : MethodRef} {stack : CallStack}
    {target : CallTarget} {statics : Bool} (hs : Activation.start key method stack target statics =
      .ok a)
    (hopen : ∀ methods, target = .implementations methods →
      ∃ r types, Opened s first n r types ∧ r.key = key ∧ r.target = target) :
    Attested s first n a.errand := by
  rw [Machine.errand_start hs]
  refine ⟨hopen, fun methods hm => ?_⟩
  change target = .implementations methods at hm
  subst hm
  cases hs
  exact ⟨[], methods, .replace, rfl, rfl, fun _ hin => absurd hin List.not_mem_nil⟩

/-- All implementations have been called when a dispatch ends. -/
theorem Attested.all_called (h : Attested s first n a.errand) {b : Activation} {k : Ledger}
    (ha : advance s b k = .ends a l) {methods : List MethodRef}
    (hm : a.target = .implementations methods) : ∀ method ∈ methods, Called s first n method := by
  obtain ⟨done, rest, mode, hw, rfl, hdone⟩ := h.called methods hm
  rw [Machine.nil_of_ends ha hw, List.append_nil]
  exact hdone

/-- What the trail says about implementations: of the activations, and of the records. -/
structure Covering (s : Setup) (first m : Machine) (t : Trail) : Prop where
  errands : List.Forall₂ (Attested s first) t.stack m.errands
  records : ∀ r, t.Holds r → r.Covers s first

namespace Covering

variable {entry : SummaryKey}

/-- The topmost frame is that of the topmost activation. -/
theorem top (h : Covering s first ⟨a :: below, l⟩ t) :
    ∃ f fs, t.frames = f :: fs ∧ Attested s first f.serial a.errand ∧
      List.Forall₂ (Attested s first) (fs.map Frame.serial) (below.map Activation.errand) := by
  have herrands := h.errands
  unfold stack at herrands
  generalize t.frames = frames at herrands
  cases frames with
  | nil => cases herrands
  | cons f fs =>
    cases herrands with
    | cons hf hfs => exact ⟨f, fs, rfl, hf, hfs⟩

/-- The topmost activation goes on. -/
theorem goOn {t' : Trail} (h : Covering s first ⟨a :: below, l⟩ t) (o' : Errand)
    (hstack : t'.stack = t.stack) (he : m.errands = o' :: below.map Activation.errand)
    (ha : ∀ n, t.stack.head? = some n → Attested s first n a.errand → Attested s first n o')
    (hr : ∀ r, t'.Holds r → t.Holds r) :
    Covering s first m t' := by
  obtain ⟨f, fs, hframes, hattested, hrest⟩ := h.top
  have hserials : t.stack = f.serial :: fs.map Frame.serial := by rw [stack, hframes]; rfl
  refine ⟨?_, fun r hin => h.records r (hr r hin)⟩
  rw [hstack, hserials, he]
  exact .cons (ha f.serial (by rw [hserials]; rfl) hattested) hrest

/-- The topmost activation comes to a call or to its end. -/
theorem reached (h : Covering s first ⟨a :: below, l⟩ t) (hf : Follows s first ⟨a :: below, l⟩ t)
    (hr : (advance s a l).reached = some (a', l')) : Covering s first ⟨a' :: below, l'⟩ t := by
  obtain ⟨work, hp, herrand⟩ := Machine.reached_errand hr
  refine h.goOn a'.errand rfl rfl (fun n hn hattested => ?_) fun _ hin => hin
  rw [herrand]
  exact hattested.progress hf hn hp

theorem start (hb : first.activations = [a])
    (hm : ∀ methods, a.target ≠ .implementations methods) :
    Covering s first first Trail.start := by
  refine ⟨?_, fun r hr => ?_⟩
  · rw [Machine.errands, hb]
    exact .cons ⟨fun methods h => absurd h (hm methods), fun methods h => absurd h (hm methods)⟩
      .nil
  · rcases hr with ⟨f, hf, hr⟩ | hr
    · rw [List.mem_singleton.mp hf] at hr
      exact absurd hr List.not_mem_nil
    · exact absurd hr List.not_mem_nil

theorem enter {callee : Activation} {r : CallRequest} (h : Covering s first ⟨a :: below, l⟩ t)
    (hcallee : Attested s first t.next callee.errand) :
    Covering s first ⟨callee :: { a with waiting := some r } :: below, l'⟩ t.enter := by
  obtain ⟨f, fs, hframes, hattested, hrest⟩ := h.top
  refine ⟨?_, fun r hin => h.records r (holds_enter hin)⟩
  have hstack : t.enter.stack = t.next :: f.serial :: fs.map Frame.serial := by
    rw [stack, Trail.enter, hframes]
    rfl
  rw [hstack]
  exact .cons hcallee (.cons (hattested.waits (some r)) hrest)

/-- The summary of an activation that ends covers what the activation called. -/
theorem covers_own {b : Activation} {k : Ledger} (h : Attested s first f.serial a.errand)
    (hoffered : s.Offers a.key a.target) (ha : advance s b k = .ends a l) :
    Record.Covers s first ⟨f.serial, (a.key, a.summary), f.rests⟩ := by
  intro hvirtual
  obtain ⟨methods, htarget⟩ : ∃ methods, a.target = .implementations methods := by
    change a.key.kind = .virtual at hvirtual
    generalize a.key = key, a.target = target at hoffered hvirtual
    cases hoffered with
    | concrete => cases hvirtual
    | virtual => exact ⟨_, rfl⟩
  obtain ⟨r, types, hopened, hkey, hsame⟩ := h.opened methods htarget
  exact ⟨r, types, methods, hopened, hkey, hsame.trans htarget, h.all_called ha htarget⟩

theorem complete {b : Activation} {k : Ledger} {entries : List (SummaryKey × Summary)}
    (h : Covering s first ⟨a :: below, l⟩ t) (ho : s.Offers a.key a.target)
    (ha : advance s b k = .ends a l) :
    Covering s first (Machine.resume a.summary (Machine.file entries a.dependency ⟨below, l⟩))
      (t.complete a) := by
  obtain ⟨f, fs, hframes, hattested, hrest⟩ := h.top
  have herrands : (Machine.resume a.summary
      (Machine.file entries a.dependency ⟨below, l⟩)).errands =
        (below.map Activation.errand).modifyHead Errand.free := by
    rw [Machine.errands_resume, Machine.errands_file]
    rfl
  refine ⟨?_, fun r hin => ?_⟩
  · rw [stack_complete hframes, herrands]
    generalize below.map Activation.errand = os, fs.map Frame.serial = serials at hrest
    cases hrest with
    | nil => exact .nil
    | cons hb hbs => exact .cons hb.free hbs
  · rcases holds_complete hframes hin with hin | rfl
    · exact h.records r hin
    · exact covers_own hattested ho ha

theorem move (h : Covering s first m t) (hf : Follows s first m t) (hroutes : m.Routed s entry)
    (hm : Machine.Move s m m') :
    Covering s first m' (t.after s m) := by
  cases hm with
  | @answered a a' below l l' ha =>
    have hr : Covering s first ⟨a' :: below, l'⟩ t := h.reached hf (by rw [ha]; rfl)
    obtain ⟨⟨c, hsettle⟩, -⟩ := a'.settle_shape l'
    rw [after_answered ha, hsettle]
    exact ⟨hr.errands, hr.records⟩
  | @served a a' below l l' k r summary cache ha hg hk =>
    have hr : Covering s first ⟨a' :: below, l'⟩ t := h.reached hf (by rw [ha]; rfl)
    obtain ⟨⟨c, hanswer⟩, -⟩ := Machine.answer_shape a' k r summary false
    rw [after_served ha hg, hanswer]
    exact ⟨hr.errands, hr.records⟩
  | @looped a a' below l l' r cache level provisional m ha hg hl hopen =>
    have hr : Covering s first ⟨a' :: below, l'⟩ t := h.reached hf (by rw [ha]; rfl)
    have hlooped := Machine.errands_openLoop level ⟨a' :: below, { l' with cache }⟩
    have htop : (m.onTop fun a l => Machine.answer a l r provisional true).errands = m.errands :=
      Machine.map_onTop (fun a l => Machine.errand_answer a l r provisional true) m
    rw [hopen] at hlooped
    rw [after_looped ha hg hl]
    refine hr.goOn _ (map_serial_relyOnTop _ t.frames) (htop.trans hlooped)
      (fun _ _ hattested => hattested) fun _ hin => holds_rely hin
  | @entered a a' callee below l l' r cache ha hg hl hs =>
    have hr : Covering s first ⟨a' :: below, l'⟩ t := h.reached hf (by rw [ha]; rfl)
    have hopened := Opened.entered hf ha (congrArg Prod.fst hg) hl
    rw [after_entered ha hg hl]
    exact hr.enter (attested_start hs fun _ _ => ⟨r, _, hopened, rfl, rfl⟩)
  | @restarted a a' again below l l' loop ha hloop hu hs =>
    have hr : Covering s first ⟨a' :: below, l'⟩ t := h.reached hf (by rw [ha]; rfl)
    have hstack : t.restart.stack = t.stack := by
      unfold Trail.restart stack
      cases t.frames <;> rfl
    rw [after_restarted ha hloop hu]
    exact hr.goOn again.errand hstack rfl
      (fun n _ hattested => attested_start hs hattested.opened) fun _ hin => holds_restart hin
  | @completed a a' below l l' ha hstays =>
    have hr : Covering s first ⟨a' :: below, l'⟩ t := h.reached hf (by rw [ha]; rfl)
    have hroutes' : Machine.Routed s entry ⟨a' :: below, l'⟩ := hroutes.reached (by rw [ha]; rfl)
    rw [after_completed ha hstays]
    exact hr.complete hroutes'.top.offered ha

theorem of_follows (hp : s.program.Keyed) (hroutes : first.Routed s entry)
    (h : Covering s first first Trail.start) (hf : Follows s first m t) :
    m.Routed s entry ∧ Covering s first m t := by
  induction hf with
  | start => exact ⟨hroutes, h⟩
  | step hf hs ih =>
    have hmove := Machine.move_of_step hs
    exact ⟨ih.1.move hp hmove, ih.2.move hf ih.1 hmove⟩

end Covering

end Trail

namespace Engine

open Machine Trail

variable {e : Engine} {entry : EntryPoint} {d : MethodDef} {first : Machine}

theorem covering_boot {s : Setup} {l : Ledger} {required : List String}
    (hb : boot s l d required = .ok first) : Covering s first first Trail.start := by
  obtain ⟨root, hs, hact, -⟩ := root_of_boot hb
  obtain ⟨hroot, -⟩ := Activation.start_shape hs
  refine .start hact ?_
  rw [hroot]
  exact fun _ h => nomatch h

/-- What a summary that answers a virtual call covers. When the activation that the call waited for
ends, it is the summary of a dispatch that called every implementation the call resolved to. When it
comes from the cache, it is that of an earlier dispatch of the same virtual method, which called
those of the implementations whose types had been created when it was begun. -/
theorem implementations_called (he : e.Made) (hu : e.used = false) (hp : e.setup.program.Keyed)
    (hd : entry? e.setup.program entry.method = some d)
    (hb : boot (e.runSetup d) e.ledger d entry.required = .ok first) {a a' : Activation}
    {below : List Activation} {l l' : Ledger} {t : Trail} {r : CallRequest}
    {methods : List MethodRef} (hf : Follows (e.runSetup d) first ⟨a :: below, l⟩ t)
    (hm : r.target = .implementations methods) :
    (∀ summary, advance (e.runSetup d) a l = .asks r a' l' →
      (l'.cache.get r.key).1 = some summary →
      ∃ record ∈ t.kept, record.entry = (r.key, summary) ∧
        ∃ request types, Opened (e.runSetup d) first record.serial request types ∧
          request.key = r.key ∧ ∀ method ∈ methods,
            (e.setup.config.useCreatedTypes = true →
              types.elem method.declaring.name = true) →
            Called (e.runSetup d) first record.serial method) ∧
    (∀ b rest, below = b :: rest → b.waiting = some r →
      advance (e.runSetup d) a l = .ends a' l' →
      ∃ f fs, t.frames = f :: fs ∧ a'.key = r.key ∧
        ∀ method ∈ methods, Called (e.runSetup d) first f.serial method) := by
  have hmethod : e.setup.program.method? entry.method = some d :=
    (Option.filter_eq_some_iff.mp hd).1
  have hown : (e.runSetup d).program.method? d.signature = some d := hp _ _ hmethod ▸ hmethod
  have hkeyed : (e.runSetup d).program.Keyed := hp
  obtain ⟨hroutes, hcovering⟩ :=
    (covering_boot hb).of_follows hkeyed (routed_boot hkeyed hown hb) hf
  refine ⟨fun summary ha hg => ?_, fun b rest hbelow hw ha => ?_⟩
  · obtain ⟨callee, hcallee, hvirtual, rfl⟩ := resolved_of_asks ha methods hm
    have hcached := Cache.mem_of_get_some hg
    obtain ⟨-, hentries, -⟩ := reached_shape (s := e.runSetup d) (by rw [ha]; rfl)
    rw [hentries] at hcached
    obtain ⟨record, hkept, hentry⟩ :
        ∃ record ∈ t.kept, record.entry = (r.key, summary) := by
      refine (((faithful_boot hb).of_follows hf).cached _ hcached).resolve_left ?_
      rw [cache_of_boot hb, (he.fresh hu).2.2]
      exact List.not_mem_nil
    obtain ⟨request, types, methods, hopened, hkey, htarget, hcalled⟩ :=
      hcovering.records record (.inr hkept) (by rw [hentry]; exact hvirtual)
    rw [hentry] at hkey
    obtain ⟨callee', hcallee', -, rfl⟩ := hopened.resolved methods htarget
    rw [hkey] at hcallee' hcalled
    obtain rfl := Option.some.inj (hcallee.symm.trans hcallee')
    exact ⟨record, hkept, hentry, request, types, hopened, hkey, fun method hin hcreated =>
      hcalled method (Setup.mem_implementationsOf_of_created hin hcreated)⟩
  · have hreached := hcovering.reached hf (by rw [ha]; rfl)
    obtain ⟨f, fs, hframes, hattested, -⟩ := hreached.top
    have hroutes' : Routed (e.runSetup d) ⟨.concrete, d.signature⟩ ⟨a' :: below, l'⟩ :=
      hroutes.reached (by rw [ha]; rfl)
    subst hbelow
    obtain ⟨hkey, htarget⟩ := (List.isChain_cons_cons.mp hroutes'.linked).1.call r hw
    exact ⟨f, fs, hframes, hkey, hattested.all_called ha (htarget.trans hm)⟩

/-! A method that makes a virtual call with two implementations twice. -/

def tideTurn : MethodRef where
  declaring := ⟨"Tide", false⟩
  name := "Turn"
  parameters := []
  result := TypeRef.void
  hasThis := true

def ebb : MethodRef := { tideTurn with declaring := ⟨"Ebb", false⟩ }

def flood : MethodRef := { tideTurn with declaring := ⟨"Flood", false⟩ }

def tideTurns : MethodDef :=
  deck { leak with name := "Turns", result := TypeRef.void }
    #[⟨0, .literal .null, .absent⟩, ⟨1, .callvirt, .method tideTurn⟩, ⟨2, .literal .null, .absent⟩,
      ⟨3, .callvirt, .method tideTurn⟩, ⟨4, .ret, .absent⟩]

def tideProgram : Program :=
  (([{ deck tideTurn #[] with isVirtual := true, isAbstract := true, body := none },
    { deck ebb #[⟨0, .ret, .absent⟩] with isVirtual := true },
    { deck flood #[⟨0, .ret, .absent⟩] with isVirtual := true }, tideTurns].foldl
      Program.addMethod {}).addImplementation tideTurn.signature ebb "sea").addImplementation
        tideTurn.signature flood "sea"

/-- Virtual calls are resolved to all types, constructed or not. -/
def tideSettings : Config :=
  { sensitiveSink := leak.signature, enableStaticFields := false, useCreatedTypes := false }

def tideEngine : Engine where
  setup := { program := tideProgram, config := tideSettings, isExternal := fun _ => false }
  ledger := emptyLedger tideSettings .leastRecent

/-- After five steps the dispatch of the first call has nothing left to do, and the caller waits for
it. One step later the second call finds a summary in the cache. -/
theorem tide_runs :
    (((tideEngine.machineAt? ⟨tideTurns.signature, []⟩ 5).bind
      (Machine.ended? · (tideEngine.runSetup tideTurns))).bind fun r => r.target.methods?) =
        some [ebb, flood] ∧
    (((tideEngine.machineAt? ⟨tideTurns.signature, []⟩ 6).bind
      (Machine.served? · (tideEngine.runSetup tideTurns))).bind fun r => r.target.methods?) =
        some [ebb, flood] := by
  decide +kernel

/-- Both implementations are called for the first call, and the summary that answers the second one
is that of a dispatch that called both of them. -/
theorem tideEngine_implementations_called : ∃ first,
    boot (tideEngine.runSetup tideTurns) tideEngine.ledger tideTurns [] = .ok first ∧
    (∃ a below l t f fs, Follows (tideEngine.runSetup tideTurns) first ⟨a :: below, l⟩ t ∧
      t.frames = f :: fs ∧
      ∀ method ∈ [ebb, flood], Called (tideEngine.runSetup tideTurns) first f.serial method) ∧
    ∃ a a' below l l' t r summary record,
      Follows (tideEngine.runSetup tideTurns) first ⟨a :: below, l⟩ t ∧
      advance (tideEngine.runSetup tideTurns) a l = .asks r a' l' ∧
      (l'.cache.get r.key).1 = some summary ∧ record ∈ t.kept ∧ record.entry = (r.key, summary) ∧
      ∀ method ∈ [ebb, flood],
        Called (tideEngine.runSetup tideTurns) first record.serial method := by
  have hmade : tideEngine.Made :=
    @Made.ofConfig (fun _ => none) tideProgram tideSettings .leastRecent _ rfl
  have hkeyed : tideEngine.setup.program.Keyed := Program.keyed_empty.addMethods _
  have hentry : entry? tideEngine.setup.program tideTurns.signature = some tideTurns := by
    decide +kernel
  obtain ⟨hended, hasked⟩ := tide_runs
  obtain ⟨r, hended, hmethods⟩ := Option.bind_eq_some_iff.mp hended
  obtain ⟨r', hasked, hmethods'⟩ := Option.bind_eq_some_iff.mp hasked
  obtain ⟨m, hm, hended⟩ := Option.bind_eq_some_iff.mp hended
  obtain ⟨m', hm', hasked⟩ := Option.bind_eq_some_iff.mp hasked
  obtain ⟨d, first, hd, hb, hr⟩ := reaches_of_machineAt? hm
  obtain ⟨d', first', hd', hb', hr'⟩ := reaches_of_machineAt? hm'
  cases hentry.symm.trans hd
  cases hentry.symm.trans hd'
  cases hb.symm.trans hb'
  obtain ⟨t, ht⟩ := exists_of_reaches hr
  obtain ⟨t', ht'⟩ := exists_of_reaches hr'
  rw [CallTarget.methods?_eq_some] at hmethods hmethods'
  refine ⟨first, hb, ?_, ?_⟩
  · obtain ⟨a, b, below, l, a', l', rfl, hadvance, hwaits⟩ := Machine.exists_of_ended? hended
    obtain ⟨f, fs, hframes, -, hcalled⟩ := (implementations_called hmade rfl hkeyed hentry hb ht
      hmethods).2 b below rfl hwaits hadvance
    exact ⟨a, b :: below, l, t, f, fs, ht, hframes, hcalled⟩
  · obtain ⟨a, below, l, a', l', summary, rfl, hadvance, hsummary⟩ :=
      Machine.exists_of_served? hasked
    obtain ⟨record, hkept, hrecord, _, types, -, -, hcalled⟩ := (implementations_called hmade rfl
      hkeyed hentry hb ht' hmethods').1 summary hadvance hsummary
    exact ⟨a, a', below, l, l', t', r', summary, record, ht', hadvance, hsummary, hkept, hrecord,
      fun method hin => hcalled method hin nofun⟩

end Engine

end SinkTrace
