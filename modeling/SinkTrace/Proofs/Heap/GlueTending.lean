import SinkTrace.Heap.Glue
import SinkTrace.Proofs.Heap.Tending

/-!
Gluing logs what it makes due. The findings may change meanwhile, since a taint that is moved to
the call site can get a new id; they are a `view` of the state that the rebasing threads through.
-/

namespace SinkTrace

variable {σ : Type} {view : σ → Findings} {inv : σ → Prop} {r : Rebasing σ}

/-- Taints that name a source are moved to ids that do, a path stays one, and nothing found is
lost. -/
structure Rebasing.Sound (r : Rebasing σ) (view : σ → Findings) (inv : σ → Prop) : Prop where
  taint : ∀ {log t}, inv log → (∃ s, (view log).source? t = some s) →
    inv (r.taint log t).2 ∧ (view log).Extends (view (r.taint log t).2) ∧
      ∃ s, (view (r.taint log t).2).source? (r.taint log t).1 = some s
  stack : ∀ {log} stack, inv log →
    inv (r.stack log stack).2 ∧ (view log).Extends (view (r.stack log stack).2) ∧
      (stack.Rooted → (r.stack log stack).1.Rooted)

theorem Rebasing.sound_identity {f : Findings} (ho : f.Orderly) :
    Rebasing.identity.Sound (fun _ => f) (fun _ => True) :=
  ⟨fun hi hk => ⟨hi, .refl ho, hk⟩, fun _ hi => ⟨hi, .refl ho, fun hc => hc⟩⟩

theorem Provenance.sound_rebasing (before : Findings) (depth : Nat) {base : CallStack}
    (hb : base.Rooted) (caller : SummaryKey) :
    (Provenance.rebasing depth base caller).Sound Provenance.findings (Provenance.Sound before) :=
  ⟨fun hp hk => hp.rebaseTaint depth base caller hk,
    fun stack hp => ⟨hp, .refl hp.orderly, fun _ => hb.rebase stack depth⟩⟩

namespace Glue

variable {callee caller caller' caller'' : Heap} {log log' log'' : σ} {g : Glue σ}

/-- The caller is tended, and the findings vouch for the callee. -/
structure Attended (view : σ → Findings) (inv : σ → Prop) (callee caller : Heap) (log : σ) :
    Prop where
  inv : inv log
  orderly : (view log).Orderly
  caller : caller.Tended (view log) []
  callee : ∀ id, (callee.entity id).Vouched (view log)

/-- Going on from `log` loses nothing that was found. -/
structure Carries (view : σ → Findings) (inv : σ → Prop) (callee : Heap) (log : σ)
    (caller' : Heap) (log' : σ) : Prop where
  attended : Attended view inv callee caller' log'
  findings : (view log).Extends (view log')

theorem Carries.refl (ha : Attended view inv callee caller log) :
    Carries view inv callee log caller log := ⟨ha, .refl ha.orderly⟩

theorem Carries.trans (h₁ : Carries view inv callee log caller' log')
    (h₂ : Carries view inv callee log' caller'' log'') :
    Carries view inv callee log caller'' log'' :=
  ⟨h₂.attended, h₁.findings.trans h₂.findings⟩

/-- A change of the caller alone. -/
theorem Attended.withCaller (ha : Attended view inv callee caller log)
    (hc : caller'.Tended (view log) []) : Carries view inv callee log caller' log :=
  ⟨⟨ha.inv, ha.orderly, hc, ha.callee⟩, .refl ha.orderly⟩

/-- A change of the state alone. -/
theorem Attended.withLog (ha : Attended view inv callee caller log) (hi : inv log')
    (he : (view log).Extends (view log')) : Carries view inv callee log caller log' :=
  ⟨⟨hi, he.orderly, ha.caller.mono he, fun id => (ha.callee id).mono he⟩, he⟩

theorem Attended.foldl {α : Type} {step : Glue σ → α → Glue σ}
    (hstep : ∀ {g} a, Attended view inv callee g.caller g.log →
      Carries view inv callee g.log (step g a).caller (step g a).log)
    (as : List α) (ha : Attended view inv callee g.caller g.log) :
    Carries view inv callee g.log (as.foldl step g).caller (as.foldl step g).log := by
  induction as generalizing g with
  | nil => exact .refl ha
  | cons a as ih =>
    have hfirst := hstep a ha
    exact hfirst.trans (ih hfirst.attended)

/-! Matching. -/

theorem record_keeps (callee : Heap) (g : Glue σ) (c d : EntityId) :
    (g.record callee c d).caller = g.caller ∧ (g.record callee c d).log = g.log := by
  unfold record
  split <;> exact ⟨rfl, rfl⟩

theorem Attended.record (ha : Attended view inv callee g.caller g.log) (c d : EntityId) :
    Carries view inv callee g.log (g.record callee c d).caller (g.record callee c d).log := by
  obtain ⟨hc, hl⟩ := record_keeps callee g c d
  rw [hc, hl]
  exact .refl ha

theorem Attended.follow (ha : Attended view inv callee g.caller g.log) (current : EntityId)
    (edge : FieldName × EntityId) : Carries view inv callee g.log
      (follow callee (current, g) edge).2.caller (follow callee (current, g) edge).2.log := by
  have hload := ha.withCaller (ha.caller.loadField current edge.1)
  exact hload.trans (@Attended.record _ _ _ _
    { g with caller := (g.caller.loadField current edge.1).2 } hload.attended _ _)

theorem Attended.followAll {current : EntityId} (ha : Attended view inv callee g.caller g.log)
    (route : Route) : Carries view inv callee g.log
      (route.foldl (Glue.follow callee) (current, g)).2.caller
      (route.foldl (Glue.follow callee) (current, g)).2.log := by
  induction route generalizing g current with
  | nil => exact .refl ha
  | cons edge route ih =>
    have hfirst := ha.follow current edge
    exact hfirst.trans (ih hfirst.attended)

theorem Attended.lookup (ha : Attended view inv callee g.caller g.log) (id : EntityId) :
    Carries view inv callee g.log (g.lookup callee id).2.caller (g.lookup callee id).2.log := by
  unfold Glue.lookup
  simp only
  split
  · exact .refl ha
  · split
    · exact .refl ha
    · exact ha.followAll _

theorem Attended.lookupOrCreate (ha : Attended view inv callee g.caller g.log) (id : EntityId) :
    Carries view inv callee g.log (g.lookupOrCreate callee id).2.caller
      (g.lookupOrCreate callee id).2.log := by
  have hlook := ha.lookup (callee.find id)
  unfold Glue.lookupOrCreate
  simp only
  split
  · rename_i d g₁ he
    rwa [he] at hlook
  · rename_i g₁ he
    rw [he] at hlook
    have hnew := hlook.attended.withCaller
      (hlook.attended.caller.create (callee.entity (callee.find id)).origin)
    exact hlook.trans (hnew.trans (@Attended.record _ _ _ _ { g₁ with caller := _ }
      hnew.attended _ _))

/-! Copying. -/

theorem Attended.copyOrigin (ha : Attended view inv callee caller log) (mode : GlueMode)
    (src : Entity) (d : EntityId) :
    Carries view inv callee log (copyOrigin mode src caller d) log := by
  unfold Glue.copyOrigin
  split
  · split
    · exact ha.withCaller (ha.caller.setOrigin d _)
    · exact .refl ha
  · exact .refl ha

theorem Attended.copyTaint (hr : r.Sound view inv) (ha : Attended view inv callee caller log)
    {src : Entity} (hv : src.Vouched (view log)) (d : EntityId) :
    Carries view inv callee log (copyTaint r src caller d log).1
      (copyTaint r src caller d log).2 := by
  unfold Glue.copyTaint
  split
  · rename_i htainted
    obtain ⟨hi, he, hk⟩ := hr.taint ha.inv (hv.source (of_decide_eq_true htainted))
    have htaint := ha.withLog hi he
    have hstack : Carries view inv callee (r.taint log src.taint).2 caller
        (r.stack? (r.taint log src.taint).2 src.taintStack).2 := by
      cases src.taintStack with
      | none => exact .refl htaint.attended
      | some stack =>
        obtain ⟨hi', he', -⟩ := hr.stack stack hi
        exact htaint.attended.withLog hi' he'
    exact htaint.trans (hstack.trans (hstack.attended.withCaller
      (hstack.attended.caller.raiseTaint d (fun _ => hstack.findings.known hk) _)))
  · split
    · exact ha.withCaller (ha.caller.raiseTaint d (fun hle => absurd hle (by decide)) none)
    · exact .refl ha

theorem Attended.copyCall (hr : r.Sound view inv) (ha : Attended view inv callee caller log)
    (d : EntityId) (call : TargetCall) :
    Carries view inv callee log (copyCall r d (caller, log) call).1
      (copyCall r d (caller, log) call).2 := by
  obtain ⟨hi, he, -⟩ := hr.stack call.stack ha.inv
  have hlog := ha.withLog hi he
  exact hlog.trans (hlog.attended.withCaller (hlog.attended.caller.addTargetCall d _))

theorem Attended.copyCalls (hr : r.Sound view inv) (ha : Attended view inv callee caller log)
    (d : EntityId) (calls : List TargetCall) :
    Carries view inv callee log (calls.foldl (Glue.copyCall r d) (caller, log)).1
      (calls.foldl (Glue.copyCall r d) (caller, log)).2 := by
  induction calls generalizing caller log with
  | nil => exact .refl ha
  | cons call calls ih =>
    have hfirst := ha.copyCall hr d call
    exact hfirst.trans (ih hfirst.attended)

theorem Attended.copyDeep (ha : Attended view inv callee caller log) (deep : Bool)
    (d : EntityId) :
    Carries view inv callee log (if deep then caller.markInput d else caller) log := by
  split
  · exact ha.withCaller (ha.caller.markInput d)
  · exact .refl ha

theorem Attended.copyMarks (hr : r.Sound view inv)
    (ha : Attended view inv callee g.caller g.log) (mode : GlueMode) {src : Entity}
    (hv : src.Vouched (view g.log)) (d : EntityId) :
    Carries view inv callee g.log (g.copyMarks r mode src d).caller
      (g.copyMarks r mode src d).log := by
  have horigin := ha.copyOrigin mode src d
  have htaint := horigin.attended.copyTaint hr hv d
  have hmark := htaint.attended.copyDeep src.deep d
  exact horigin.trans (htaint.trans (hmark.trans (hmark.attended.copyCalls hr d _)))

theorem Attended.copyDeferredInput (ha : Attended view inv callee g.caller g.log) (d : EntityId)
    (target : EntityId) : Carries view inv callee g.log
      (copyDeferredInput callee d g target).caller (copyDeferredInput callee d g target).log := by
  have hlook := ha.lookupOrCreate target
  exact hlook.trans (hlook.attended.withCaller (hlook.attended.caller.addDeferredInput d _))

theorem Attended.copyDeferredTaint (hr : r.Sound view inv)
    (ha : Attended view inv callee g.caller g.log) (d : EntityId) {edge : DeferredTaint}
    (hroot : edge.sink.stack.Rooted) :
    Carries view inv callee g.log (copyDeferredTaint callee r d g edge).caller
      (copyDeferredTaint callee r d g edge).log := by
  have hlook := ha.lookupOrCreate edge.target
  obtain ⟨hi, he, hpath⟩ := hr.stack edge.sink.stack hlook.attended.inv
  have hlog := hlook.attended.withLog hi he
  exact hlook.trans (hlog.trans
    (hlog.attended.withCaller (hlog.attended.caller.addDeferredTaint d (hpath hroot))))

theorem Attended.copyDeferredTaints (hr : r.Sound view inv)
    (ha : Attended view inv callee g.caller g.log) (d : EntityId) {edges : List DeferredTaint}
    (hroot : ∀ edge ∈ edges, edge.sink.stack.Rooted) :
    Carries view inv callee g.log (edges.foldl (Glue.copyDeferredTaint callee r d) g).caller
      (edges.foldl (Glue.copyDeferredTaint callee r d) g).log := by
  induction edges generalizing g with
  | nil => exact .refl ha
  | cons edge edges ih =>
    have hfirst := ha.copyDeferredTaint hr d (hroot edge (List.mem_cons_self ..))
    exact hfirst.trans (ih hfirst.attended fun edge hm => hroot edge (List.mem_cons_of_mem _ hm))

theorem Attended.glueField (ha : Attended view inv callee g.caller g.log) (d : EntityId)
    (edge : FieldName × EntityId) : Carries view inv callee g.log
      (glueField callee d g edge).caller (glueField callee d g edge).log := by
  have hload := ha.withCaller (ha.caller.loadField (g.caller.find d) edge.1)
  unfold Glue.glueField
  simp only
  split
  · split
    · exact hload
    · exact hload.trans (hload.attended.withCaller (hload.attended.caller.merge _ _))
  · exact hload.trans (@Attended.record _ _ _ _ { g with caller := _ } hload.attended _ _)

theorem Attended.copyInto (hr : r.Sound view inv)
    (ha : Attended view inv callee g.caller g.log) (mode : GlueMode) {src : Entity}
    (hv : src.Vouched (view g.log)) (d : EntityId) :
    Carries view inv callee g.log (g.copyInto callee r mode src d).caller
      (g.copyInto callee r mode src d).log := by
  have hmarks := ha.copyMarks hr mode hv d
  have hinput := hmarks.attended.foldl (fun target ha => ha.copyDeferredInput d target)
    src.deferredInput.toList
  have htaint := hinput.attended.copyDeferredTaints hr d hv.rooted
  have hfields := htaint.attended.foldl (fun edge ha => ha.glueField d edge) src.sortedFields
  exact hmarks.trans (hinput.trans (htaint.trans hfields))

theorem Attended.copyEntity (hr : r.Sound view inv)
    (ha : Attended view inv callee g.caller g.log) (mode : GlueMode) (c : EntityId) :
    Carries view inv callee g.log (g.copyEntity callee r mode c).caller
      (g.copyEntity callee r mode c).log := by
  unfold Glue.copyEntity
  split
  · exact .refl ha
  · exact ha.copyInto hr mode (ha.callee c) _

theorem Attended.drain (hr : r.Sound view inv) (ha : Attended view inv callee g.caller g.log)
    (mode : GlueMode) : Carries view inv callee g.log (g.drain callee r mode).caller
      (g.drain callee r mode).log := by
  fun_induction Glue.drain callee r mode g with
  | case1 g hc ih =>
    have hcopy := @Attended.copyEntity _ _ _ _ _ { g with copied := g.copied + 1 } hr ha mode
      g.order[g.copied]
    exact hcopy.trans (ih hcopy.attended)
  | case2 g hc => exact .refl ha

theorem Attended.apply (hr : r.Sound view inv) (ha : Attended view inv callee g.caller g.log)
    (mode : GlueMode) (root actual : EntityId) :
    Carries view inv callee g.log (g.apply callee r mode root actual).2.caller
      (g.apply callee r mode root actual).2.log := by
  unfold Glue.apply
  simp only
  split
  · rename_i previous _
    split
    · exact ha.drain hr mode
    · have hmerge := ha.withCaller
        (ha.caller.merge (g.caller.find previous) (g.caller.find actual))
      exact hmerge.trans (@Attended.drain _ _ _ _ _ { g with caller := _ } hr
        hmerge.attended mode)
  · have hrecord := ha.record (callee.find root) (g.caller.find actual)
    exact hrecord.trans (hrecord.attended.drain hr mode)

end Glue

end SinkTrace
