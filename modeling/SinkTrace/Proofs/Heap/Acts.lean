import SinkTrace.Proofs.Heap.GlueRuns

/-!
Acts: the operations that add to a heap. Gluing consists of acts of the caller's heap, between
which the rebasing notes what it makes of the taints and stacks of the callee; so what every act
keeps is kept by gluing. Which taints and which calls of the sink an act may bring is a parameter.
-/

namespace SinkTrace

/-- A taint that names no source. -/
def TaintId.Sourceless (t : TaintId) : Prop := t ≤ TaintId.input

namespace Heap

variable {bounded : Prop} {taints taints' : TaintId → Prop} {sinks sinks' : SinkCall → Prop}
  {h h' h'' : Heap}

/-- One operation that adds to the heap. Where acts are `bounded`, the ids that matter are ids of
the heap. -/
inductive Act (bounded : Prop) (taints : TaintId → Prop) (sinks : SinkCall → Prop) :
    Heap → Heap → Prop where
  | create {h : Heap} (origin : Option Origin) : Act bounded taints sinks h (h.create origin).2
  | setOrigin {h : Heap} (id : EntityId) (origin : Origin) :
    Act bounded taints sinks h (h.setOrigin id origin)
  | resolve {h : Heap} (id : EntityId) : Act bounded taints sinks h (h.resolve id).2
  | loadField {h : Heap} {owner : EntityId} (ho : bounded → owner < h.size) (key : FieldName) :
    Act bounded taints sinks h (h.loadField owner key).2
  | storeField {h : Heap} {owner value : EntityId} (ho : bounded → owner < h.size)
    (hv : bounded → value < h.size) (key : FieldName) :
    Act bounded taints sinks h (h.storeField owner key value)
  | merge {h : Heap} {a b : EntityId} (ha : bounded → a < h.size) (hb : bounded → b < h.size) :
    Act bounded taints sinks h (h.merge a b).2
  | raiseTaint {h : Heap} (id : EntityId) {taint : TaintId} (ht : taints taint)
    (stack : Option CallStack) : Act bounded taints sinks h (h.raiseTaint id taint stack).2
  | markInput {h : Heap} (id : EntityId) : Act bounded taints sinks h (h.markInput id)
  | addTargetCall {h : Heap} (id : EntityId) (call : TargetCall) :
    Act bounded taints sinks h (h.addTargetCall id call)
  | addDeferredInput {h : Heap} (owner : EntityId) {target : EntityId}
    (ht : bounded → target < h.size) :
    Act bounded taints sinks h (h.addDeferredInput owner target)
  | addDeferredTaint {h : Heap} (owner : EntityId) {edge : DeferredTaint}
    (ht : bounded → edge.target < h.size) (hs : sinks edge.sink) :
    Act bounded taints sinks h (h.addDeferredTaint owner edge)

def Acts (bounded : Prop) (taints : TaintId → Prop) (sinks : SinkCall → Prop) :
    Heap → Heap → Prop := Relation.ReflTransGen (Act bounded taints sinks)

theorem Act.evolves (ha : Act bounded taints sinks h h') (hb : bounded) (hp : h.Proper) :
    Evolves h h' := by
  cases ha with
  | create origin => exact hp.create origin
  | setOrigin id origin => exact hp.setOrigin id origin
  | resolve id => exact hp.resolve id
  | loadField ho key => exact hp.loadField (ho hb) key
  | storeField ho hv key => exact hp.storeField (ho hb) (hv hb) key
  | merge hx hy => exact hp.merge (hx hb) (hy hb)
  | raiseTaint id _ stack => exact hp.raiseTaint id _ stack
  | markInput id => exact hp.markInput id
  | addTargetCall id call => exact hp.addTargetCall id call
  | addDeferredInput owner ht => exact hp.addDeferredInput owner (ht hb)
  | addDeferredTaint owner ht _ => exact hp.addDeferredTaint owner (ht hb)

theorem Acts.evolves (ha : Acts bounded taints sinks h h') (hb : bounded) (hp : h.Proper) :
    Evolves h h' := by
  induction ha with
  | refl => exact .refl hp
  | tail _ hact ih => exact ih.trans (hact.evolves hb ih.proper)

theorem Act.mono (ha : Act bounded taints sinks h h') (ht : ∀ t, taints t → taints' t)
    (hs : ∀ s, sinks s → sinks' s) : Act bounded taints' sinks' h h' := by
  cases ha with
  | create origin => exact .create origin
  | setOrigin id origin => exact .setOrigin id origin
  | resolve id => exact .resolve id
  | loadField ho key => exact .loadField ho key
  | storeField ho hv key => exact .storeField ho hv key
  | merge ha hb => exact .merge ha hb
  | raiseTaint id hk stack => exact .raiseTaint id (ht _ hk) stack
  | markInput id => exact .markInput id
  | addTargetCall id call => exact .addTargetCall id call
  | addDeferredInput owner hin => exact .addDeferredInput owner hin
  | addDeferredTaint owner hin hk => exact .addDeferredTaint owner hin (hs _ hk)

/-- All taints and all sink calls that are waited for are of these. -/
structure Within (taints : TaintId → Prop) (sinks : SinkCall → Prop) (h : Heap) : Prop where
  taint : ∀ id, taints (h.entity id).taint
  sink : ∀ id, ∀ edge ∈ (h.entity id).deferredTaint, sinks edge.sink

theorem within_any (h : Heap) : h.Within (fun _ => True) (fun _ => True) :=
  ⟨fun _ => trivial, fun _ _ _ => trivial⟩

end Heap

open Heap

/-- One move of gluing, on the caller and the log of the rebasing: an act that brings no source and
no call of the sink, or what the rebasing makes of one in the callee. -/
inductive Rebasing.Stroke {σ : Type} (r : Rebasing σ) (bounded : Prop) (taints : TaintId → Prop)
    (sinks : SinkCall → Prop) : Heap × σ → Heap × σ → Prop where
  | act {h h' : Heap} {log : σ} (ha : Act bounded TaintId.Sourceless (fun _ => False) h h') :
    Stroke r bounded taints sinks (h, log) (h', log)
  | taint {h : Heap} {log : σ} {t : TaintId} (ht : taints t) (id : EntityId)
    (stack : Option CallStack) : Stroke r bounded taints sinks (h, log)
      ((h.raiseTaint id (r.taint log t).1 stack).2, (r.taint log t).2)
  | stack {h : Heap} {log : σ} (stack : CallStack) :
    Stroke r bounded taints sinks (h, log) (h, (r.stack log stack).2)
  | sink {h : Heap} {log : σ} {call : SinkCall} (hs : sinks call) (owner : EntityId)
    {target : EntityId} (ht : bounded → target < h.size) : Stroke r bounded taints sinks (h, log)
      (h.addDeferredTaint owner ⟨target, { call with stack := (r.stack log call.stack).1 }⟩,
        (r.stack log call.stack).2)

def Rebasing.Strokes {σ : Type} (r : Rebasing σ) (bounded : Prop) (taints : TaintId → Prop)
    (sinks : SinkCall → Prop) : Heap × σ → Heap × σ → Prop :=
  Relation.ReflTransGen (r.Stroke bounded taints sinks)

namespace Rebasing

variable {σ : Type} {r : Rebasing σ} {bounded : Prop} {taints : TaintId → Prop}
  {sinks : SinkCall → Prop} {x y : Heap × σ}

/-- What strokes do to the caller. -/
theorem Strokes.acts (hs : r.Strokes bounded taints sinks x y) :
    Acts bounded (fun _ => True) (fun _ => True) x.1 y.1 := by
  induction hs with
  | refl => exact .refl
  | tail _ hstroke ih =>
    cases hstroke with
    | act ha => exact ih.tail (ha.mono (fun _ _ => trivial) fun _ _ => trivial)
    | taint _ id stack => exact ih.tail (.raiseTaint id trivial stack)
    | stack _ => exact ih
    | sink _ owner ht => exact ih.tail (.addDeferredTaint owner ht trivial)

theorem Strokes.evolves (hs : r.Strokes bounded taints sinks x y) (hb : bounded)
    (hp : x.1.Proper) : Evolves x.1 y.1 := hs.acts.evolves hb hp

end Rebasing

namespace Glue

variable {σ : Type} {bounded : Prop} {taints : TaintId → Prop} {sinks : SinkCall → Prop}
  {r : Rebasing σ} {callee caller : Heap} {g g' g'' : Glue σ} {log : σ}

/-- Strokes lead from `g` to `g'`. -/
structure Plays (r : Rebasing σ) (bounded : Prop) (taints : TaintId → Prop)
    (sinks : SinkCall → Prop) (g g' : Glue σ) : Prop where
  valid : bounded → g'.Valid
  strokes : r.Strokes bounded taints sinks (g.caller, g.log) (g'.caller, g'.log)

theorem Plays.refl (hg : bounded → g.Valid) : Plays r bounded taints sinks g g := ⟨hg, .refl⟩

theorem Plays.trans (h₁ : Plays r bounded taints sinks g g')
    (h₂ : Plays r bounded taints sinks g' g'') : Plays r bounded taints sinks g g'' :=
  ⟨h₂.valid, h₁.strokes.trans h₂.strokes⟩

theorem Plays.lt_size (hg : bounded → g.Valid) (hp : Plays r bounded taints sinks g g')
    {d : EntityId} (hd : bounded → d < g.caller.size) : bounded → d < g'.caller.size :=
  fun hb => (hp.strokes.evolves hb (hg hb).proper).lt_size (hd hb)

theorem plays_strokes (hg : bounded → g.Valid)
    (hs : r.Strokes bounded taints sinks (g.caller, g.log) (caller, log)) :
    Plays r bounded taints sinks g { g with caller, log } := by
  refine ⟨fun hb => ?_, hs⟩
  have he := hs.evolves hb (hg hb).proper
  exact ⟨he.proper, fun hm => he.lt_size ((hg hb).matched hm)⟩

theorem plays_act (hg : bounded → g.Valid)
    (ha : Act bounded TaintId.Sourceless (fun _ => False) g.caller caller) :
    Plays r bounded taints sinks g { g with caller } := plays_strokes hg (.single (.act ha))

theorem plays_record (hg : bounded → g.Valid) (callee : Heap) (c : EntityId) {d : EntityId}
    (hd : bounded → d < g.caller.size) :
    Plays r bounded taints sinks g (g.record callee c d) := by
  have hkeeps : (g.record callee c d).caller = g.caller ∧ (g.record callee c d).log = g.log := by
    unfold Glue.record
    split <;> exact ⟨rfl, rfl⟩
  refine ⟨fun hb => ((hg hb).record callee c (hd hb)).valid, ?_⟩
  rw [hkeeps.1, hkeeps.2]
  exact .refl

theorem plays_foldl {α : Type} {step : Glue σ → α → Glue σ} {as : List α}
    (hg : bounded → g.Valid)
    (hstep : ∀ g' a, a ∈ as → Plays r bounded taints sinks g g' →
      Plays r bounded taints sinks g' (step g' a)) :
    Plays r bounded taints sinks g (as.foldl step g) := by
  induction as generalizing g with
  | nil => exact .refl hg
  | cons a as ih =>
    have hfirst := hstep g a (List.mem_cons_self ..) (.refl hg)
    exact hfirst.trans (ih hfirst.valid fun g' b hb hp =>
      hstep g' b (List.mem_cons_of_mem _ hb) (hfirst.trans hp))

/-! Matching. -/

theorem plays_follow (hg : bounded → g.Valid) {current : EntityId}
    (hc : bounded → current < g.caller.size) (edge : FieldName × EntityId) :
    Plays r bounded taints sinks g (follow callee (current, g) edge).2 := by
  have hload : Plays r bounded taints sinks g _ := plays_act hg (.loadField hc edge.1)
  exact hload.trans (plays_record hload.valid callee edge.2 fun hb =>
    (hg hb).proper.wellFormed.loadField_lt (hc hb) edge.1)

theorem plays_followAll (hg : bounded → g.Valid) {current : EntityId}
    (hc : bounded → current < g.caller.size) (route : Route) :
    Plays r bounded taints sinks g (route.foldl (Glue.follow callee) (current, g)).2 := by
  induction route generalizing g current with
  | nil => exact .refl hg
  | cons edge route ih =>
    have hfirst : Plays r bounded taints sinks g (Glue.follow callee (current, g) edge).2 :=
      plays_follow hg hc edge
    exact hfirst.trans (ih hfirst.valid fun hb => ((hg hb).follow (hc hb) edge).2)

theorem plays_lookup (hg : bounded → g.Valid) (id : EntityId) :
    Plays r bounded taints sinks g (g.lookup callee id).2 := by
  unfold Glue.lookup
  simp only
  split
  · exact .refl hg
  · split
    · exact .refl hg
    · rename_i anchor route hs
      refine plays_followAll hg (fun hb => ?_) route
      obtain ⟨d, _, hstart, hlt⟩ := (hg hb).anchor (matched_of_searchUp hs)
      rw [hstart]
      exact hlt

theorem plays_lookupOrCreate (hg : bounded → g.Valid) (id : EntityId) :
    Plays r bounded taints sinks g (g.lookupOrCreate callee id).2 := by
  have hlook : Plays r bounded taints sinks g (g.lookup callee (callee.find id)).2 :=
    plays_lookup hg _
  unfold Glue.lookupOrCreate
  simp only
  split
  · rename_i d g₁ he
    rwa [he] at hlook
  · rename_i g₁ he
    rw [he] at hlook
    have hnew : Plays r bounded taints sinks g₁ _ :=
      plays_act hlook.valid (.create (callee.entity (callee.find id)).origin)
    refine hlook.trans (hnew.trans (plays_record hnew.valid callee _ fun _ => ?_))
    rw [size_create]
    exact Nat.lt_succ_self _

/-! Copying. -/

theorem strokes_copyOrigin (mode : GlueMode) (src : Entity) (caller : Heap) (d : EntityId)
    (log : σ) :
    r.Strokes bounded taints sinks (caller, log) (copyOrigin mode src caller d, log) := by
  unfold copyOrigin
  split
  · split
    · exact .single (.act (.setOrigin d _))
    · exact .refl
  · exact .refl

theorem strokes_copyTaint {src : Entity} (ht : taints src.taint) (caller : Heap) (d : EntityId)
    (log : σ) :
    r.Strokes bounded taints sinks (caller, log) (copyTaint r src caller d log) := by
  unfold copyTaint
  split
  · refine .head (.taint ht d (r.stack? (r.taint log src.taint).2 src.taintStack).1) ?_
    cases src.taintStack with
    | none => exact .refl
    | some stack => exact .single (.stack stack)
  · split
    · have hinput : TaintId.Sourceless TaintId.input := Nat.le_refl _
      exact .single (.act (.raiseTaint d hinput none))
    · exact .refl

theorem strokes_copyCalls (calls : List TargetCall) (caller : Heap) (d : EntityId) (log : σ) :
    r.Strokes bounded taints sinks (caller, log) (calls.foldl (copyCall r d) (caller, log)) := by
  induction calls generalizing caller log with
  | nil => exact .refl
  | cons call calls ih =>
    exact .head (.act (.addTargetCall d { call with stack := (r.stack log call.stack).1 }))
      (.head (.stack call.stack) (ih _ _))

theorem strokes_copyDeep (deep : Bool) (caller : Heap) (d : EntityId) (log : σ) :
    r.Strokes bounded taints sinks (caller, log)
      (if deep then caller.markInput d else caller, log) := by
  split
  · exact .single (.act (.markInput d))
  · exact .refl

theorem plays_copyMarks (hg : bounded → g.Valid) (mode : GlueMode) {src : Entity}
    (ht : taints src.taint) (d : EntityId) :
    Plays r bounded taints sinks g (g.copyMarks r mode src d) := by
  have horigin : r.Strokes bounded taints sinks (g.caller, g.log) _ :=
    strokes_copyOrigin mode src g.caller d g.log
  have htaint : r.Strokes bounded taints sinks _ _ :=
    strokes_copyTaint ht (copyOrigin mode src g.caller d) d g.log
  have hdeep : r.Strokes bounded taints sinks
      (copyTaint r src (copyOrigin mode src g.caller d) d g.log) _ :=
    strokes_copyDeep src.deep _ d _
  exact plays_strokes hg (((horigin.trans htaint).trans hdeep).trans
    (strokes_copyCalls src.targetCalls _ d _))

theorem plays_copyDeferredInput (hg : bounded → g.Valid) (d target : EntityId) :
    Plays r bounded taints sinks g (copyDeferredInput callee d g target) := by
  have hlook : Plays r bounded taints sinks g (g.lookupOrCreate callee target).2 :=
    plays_lookupOrCreate hg target
  exact hlook.trans (plays_act hlook.valid
    (.addDeferredInput d fun hb => ((hg hb).lookupOrCreate callee target).2))

theorem plays_copyDeferredTaint (hg : bounded → g.Valid) (d : EntityId) {edge : DeferredTaint}
    (hs : sinks edge.sink) :
    Plays r bounded taints sinks g (copyDeferredTaint callee r d g edge) := by
  have hlook : Plays r bounded taints sinks g (g.lookupOrCreate callee edge.target).2 :=
    plays_lookupOrCreate hg edge.target
  exact hlook.trans (plays_strokes hlook.valid
    (.single (.sink hs d fun hb => ((hg hb).lookupOrCreate callee edge.target).2)))

theorem plays_glueField (hg : bounded → g.Valid) {d : EntityId}
    (hd : bounded → d < g.caller.size) (edge : FieldName × EntityId) :
    Plays r bounded taints sinks g (glueField callee d g edge) := by
  have hown : bounded → g.caller.find d < g.caller.size := fun hb => find_lt_size (hd hb)
  have hload : Plays r bounded taints sinks g _ := plays_act hg (.loadField hown edge.1)
  have hlt : bounded → (g.caller.loadField (g.caller.find d) edge.1).1 < _ :=
    fun hb => (hg hb).proper.wellFormed.loadField_lt (hown hb) edge.1
  unfold Glue.glueField
  simp only
  split
  · rename_i previous hm
    split
    · exact hload
    · have hprev : bounded → _ := fun hb => find_lt_size ((hload.valid hb).matched hm)
      exact hload.trans (plays_act hload.valid (.merge hprev hlt))
  · exact hload.trans (plays_record hload.valid callee _ hlt)

theorem plays_copyInto (hg : bounded → g.Valid) (mode : GlueMode) {src : Entity}
    (ht : taints src.taint) (hs : ∀ edge ∈ src.deferredTaint, sinks edge.sink) {d : EntityId}
    (hd : bounded → d < g.caller.size) :
    Plays r bounded taints sinks g (g.copyInto callee r mode src d) := by
  have hmarks : Plays r bounded taints sinks g _ := plays_copyMarks hg mode ht d
  have hinput : Plays r bounded taints sinks _
      (src.deferredInput.toList.foldl (Glue.copyDeferredInput callee d) _) :=
    plays_foldl hmarks.valid fun g' target _ hp => plays_copyDeferredInput hp.valid d target
  have htaint : Plays r bounded taints sinks _
      (src.deferredTaint.foldl (Glue.copyDeferredTaint callee r d) _) :=
    plays_foldl hinput.valid fun g' edge hm hp =>
      plays_copyDeferredTaint hp.valid d (hs edge hm)
  have hedges := hmarks.trans (hinput.trans htaint)
  exact hedges.trans (plays_foldl hedges.valid fun g' edge _ hp =>
    plays_glueField hp.valid ((hedges.trans hp).lt_size hg hd) edge)

theorem plays_copyEntity (hc : callee.Within taints sinks) (hg : bounded → g.Valid)
    (mode : GlueMode) (c : EntityId) :
    Plays r bounded taints sinks g (g.copyEntity callee r mode c) := by
  unfold Glue.copyEntity
  split
  · exact .refl hg
  · rename_i d hm
    exact plays_copyInto hg mode (hc.taint c) (hc.sink c)
      fun hb => find_lt_size ((hg hb).matched hm)

theorem plays_drain (hc : callee.Within taints sinks) (hg : bounded → g.Valid) (mode : GlueMode) :
    Plays r bounded taints sinks g (g.drain callee r mode) := by
  fun_induction Glue.drain callee r mode g with
  | case1 g hlt ih =>
    have hnext : bounded → Glue.Valid { g with copied := g.copied + 1 } :=
      fun hb => ⟨(hg hb).proper, (hg hb).matched⟩
    have hcopy : Plays r bounded taints sinks _ _ :=
      plays_copyEntity hc hnext mode g.order[g.copied]
    exact ⟨(ih hcopy.valid).valid, hcopy.strokes.trans (ih hcopy.valid).strokes⟩
  | case2 g _ => exact .refl hg

theorem plays_rooted (hg : bounded → g.Valid) (root : EntityId) {actual : EntityId}
    (ha : bounded → actual < g.caller.size) :
    Plays r bounded taints sinks g (rooted callee g root actual) := by
  have hact : bounded → g.caller.find actual < g.caller.size := fun hb => find_lt_size (ha hb)
  unfold Glue.rooted
  split
  · rename_i previous hm
    split
    · exact .refl hg
    · exact plays_act hg (.merge (fun hb => find_lt_size ((hg hb).matched hm)) hact)
  · exact plays_record hg callee _ hact

/-- Gluing a root plays strokes on the caller. -/
theorem plays_apply (hc : callee.Within taints sinks) (hg : bounded → g.Valid) (mode : GlueMode)
    (root : EntityId) {actual : EntityId} (ha : bounded → actual < g.caller.size) :
    Plays r bounded taints sinks g (g.apply callee r mode root actual).2 := by
  have hroot : Plays r bounded taints sinks g (Glue.rooted callee g root actual) :=
    plays_rooted hg root ha
  rw [apply_snd]
  exact hroot.trans (plays_drain hc hroot.valid mode)

theorem plays_matchedValue (hc : callee.Within taints sinks) (hg : bounded → g.Valid)
    (mode : GlueMode) (id : EntityId) :
    Plays r bounded taints sinks g (g.matchedValue callee r mode id).2 := by
  have hlook : Plays r bounded taints sinks g (g.lookup callee id).2 := plays_lookup hg id
  exact hlook.trans (plays_drain hc hlook.valid mode)

/-- Whatever the rebasing makes of taints and stacks, gluing consists of acts on the caller. -/
theorem acts_apply (callee : Heap) (r : Rebasing σ) (mode : GlueMode) (g : Glue σ) (hg : g.Valid)
    (root : EntityId) {actual : EntityId} (ha : actual < g.caller.size) :
    Acts True (fun _ => True) (fun _ => True) g.caller
      (g.apply callee r mode root actual).2.caller :=
  (plays_apply (within_any callee) (fun _ => hg) mode root fun _ => ha).strokes.acts

theorem acts_matchedValue (callee : Heap) (r : Rebasing σ) (mode : GlueMode) (g : Glue σ)
    (hg : g.Valid) (id : EntityId) : Acts True (fun _ => True) (fun _ => True) g.caller
      (g.matchedValue callee r mode id).2.caller :=
  (plays_matchedValue (within_any callee) (fun _ => hg) mode id).strokes.acts

end Glue

end SinkTrace
