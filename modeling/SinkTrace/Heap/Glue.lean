import SinkTrace.Heap.Merge

/-!
Gluing a callee's heap onto the caller's. Starting from matched roots, every callee entity below
them gets a caller entity: fields that exist are reused, missing ones are made, and two callee
paths to one entity make the caller entities at their ends one. Taints and stacks recorded in the
callee are moved to the call site by a `Rebasing`; the heaps themselves do not interpret them.

Every callee entity is matched at most once and copied in the order of the matches, so the copying
comes to an end.
-/

namespace SinkTrace

/-- How provenance recorded in a callee is read at the call site. The state `σ` is threaded
through the taints and stacks in the order in which they come up. -/
structure Rebasing (σ : Type) where
  taint : σ → TaintId → TaintId × σ
  stack : σ → CallStack → CallStack × σ

/-- Keeps taints and stacks as they are. -/
def Rebasing.identity : Rebasing Unit where
  taint s t := (t, s)
  stack s stack := (stack, s)

/-- A stack that may be absent. -/
def Rebasing.stack? {σ : Type} (r : Rebasing σ) (s : σ) : Option CallStack → Option CallStack × σ
  | none => (none, s)
  | some stack =>
    let (stack, s) := r.stack s stack
    (some stack, s)

inductive GlueMode where
  /-- The first or only callee: its provenance replaces that of the call's result. -/
  | replace
  /-- A further callee of the same call. -/
  | merge
deriving Repr, DecidableEq, Inhabited

structure Glue (σ : Type) where
  caller : Heap
  /-- Callee entities with the caller entity each stands for; the latter may have been merged. -/
  matched : IdMap EntityId := ∅
  /-- The matched callee entities, in the order in which they were matched. -/
  order : Array EntityId := #[]
  /-- How many of them had their state and fields copied. -/
  copied : Nat := 0
  log : σ

namespace Glue

variable {σ : Type}

/-- Callee entities still to be matched or copied. -/
def pending (callee : Heap) (g : Glue σ) : Nat :=
  unseen (List.range callee.size) g.matched.contains + (g.order.size - g.copied)

/-- Matches `c` with `d`. -/
def record (callee : Heap) (g : Glue σ) (c d : EntityId) : Glue σ :=
  if c < callee.size ∧ !g.matched.contains c then
    { g with matched := g.matched.insert c d, order := g.order.push c }
  else g

theorem pending_record_le (callee : Heap) (g : Glue σ) (c d : EntityId) :
    pending callee (g.record callee c d) ≤ pending callee g := by
  unfold record
  split
  · rename_i h
    have hlt : unseen (List.range callee.size) (g.matched.insert c d).contains
        < unseen (List.range callee.size) g.matched.contains :=
      unseen_lt (fun x hx => by simp [Std.TreeMap.contains_insert, hx]) (List.mem_range.mpr h.1)
        (by simpa using h.2) (by simp)
    simp only [pending, Array.size_push]
    omega
  · exact Nat.le_refl _

theorem pending_foldl_le {α : Type} (callee : Heap) (f : Glue σ → α → Glue σ)
    (hf : ∀ g a, pending callee (f g a) ≤ pending callee g) (as : List α) (g : Glue σ) :
    pending callee (as.foldl f g) ≤ pending callee g := by
  induction as generalizing g with
  | nil => exact Nat.le_refl _
  | cons a as ih => exact Nat.le_trans (ih (f g a)) (hf g a)

/-- The fields that lead down from an ancestor, each with the entity it leads to. -/
abbrev Route := List (FieldName × EntityId)

/-- The edges into `node`, each with the route from its parent on. -/
def edgesInto (callee : Heap) (node : EntityId) (route : Route) : List (EntityId × Route) :=
  (callee.entity node).sortedParents.map fun (parent, key) =>
    (callee.find parent, (key, node) :: route)

/-- How much a search upwards still has to look at: entities that were not seen, with their edges,
and what is queued. -/
def ahead (callee : Heap) (queue : List (EntityId × Route)) (seen : IdSet) : Nat :=
  unseenWeight (fun id => (callee.entity id).sortedParents.length + 1) (List.range callee.size)
    seen.contains + queue.length

theorem ahead_insert_lt {callee : Heap} {seen : IdSet} {parent : EntityId}
    (hin : parent < callee.size) (hnew : seen.contains parent = false) (route route' : Route)
    (rest : List (EntityId × Route)) :
    ahead callee (rest ++ edgesInto callee parent route) (seen.insert parent) <
      ahead callee ((parent, route') :: rest) seen := by
  have hseen : unseenWeight (fun id => (callee.entity id).sortedParents.length + 1)
      (List.range callee.size) (seen.insert parent).contains +
        ((callee.entity parent).sortedParents.length + 1) ≤
      unseenWeight (fun id => (callee.entity id).sortedParents.length + 1)
        (List.range callee.size) seen.contains :=
    unseenWeight_add_le (fun _ hx => IdSet.contains_insert_of_contains hx)
      (List.mem_range.mpr hin) hnew (IdSet.contains_insert_self _ _)
  simp only [ahead, edgesInto, List.length_append, List.length_map, List.length_cons]
  omega

/-- Nearest matched ancestor, breadth first upwards, and the route down from it. -/
def searchUp (callee : Heap) (isMatched : EntityId → Bool) (queue : List (EntityId × Route))
    (seen : IdSet) : Option (EntityId × Route) :=
  match queue with
  | [] => none
  | (parent, route) :: rest =>
    if _ : parent < callee.size ∧ !seen.contains parent then
      if isMatched parent then some (parent, route)
      else searchUp callee isMatched (rest ++ edgesInto callee parent route) (seen.insert parent)
    else searchUp callee isMatched rest seen
termination_by ahead callee queue seen
decreasing_by
  · rename_i hn _
    exact ahead_insert_lt hn.1 (by simpa using hn.2) _ _ _
  · exact Nat.lt_succ_self _

/-- Loads one field in the caller and matches the callee child with it. -/
def follow (callee : Heap) (state : EntityId × Glue σ) (edge : FieldName × EntityId) :
    EntityId × Glue σ :=
  let (current, g) := state
  let (loaded, caller) := g.caller.loadField current edge.1
  (loaded, record callee { g with caller } edge.2 loaded)

/-- The caller entity for a callee entity at or below a matched one. -/
def lookup (callee : Heap) (g : Glue σ) (id : EntityId) : Option EntityId × Glue σ :=
  let target := callee.find id
  match g.matched.get? target with
  | some d => (some (g.caller.find d), g)
  | none =>
    let seen := IdSet.ofIds [target]
    match searchUp callee g.matched.contains (edgesInto callee target []) seen with
    | none => (none, g)
    | some (anchor, route) =>
      let start := g.caller.find ((g.matched.get? anchor).getD anchor)
      let (current, g) := route.foldl (follow callee) (start, g)
      (some current, g)

/-- As `lookup`; an entity below no matched one is brought over as it is. -/
def lookupOrCreate (callee : Heap) (g : Glue σ) (id : EntityId) : EntityId × Glue σ :=
  let target := callee.find id
  match g.lookup callee target with
  | (some d, g) => (d, g)
  | (none, g) =>
    let (fresh, caller) := g.caller.create (callee.entity target).origin
    (fresh, record callee { g with caller } target fresh)

theorem pending_follow_le (callee : Heap) (state : EntityId × Glue σ)
    (edge : FieldName × EntityId) :
    pending callee (follow callee state edge).2 ≤ pending callee state.2 :=
  pending_record_le callee _ _ _

theorem pending_follow_all_le (callee : Heap) (route : Route) (state : EntityId × Glue σ) :
    pending callee (route.foldl (follow callee) state).2 ≤ pending callee state.2 := by
  induction route generalizing state with
  | nil => exact Nat.le_refl _
  | cons edge route ih => exact Nat.le_trans (ih _) (pending_follow_le callee state edge)

theorem pending_lookup_le (callee : Heap) (g : Glue σ) (id : EntityId) :
    pending callee (g.lookup callee id).2 ≤ pending callee g := by
  unfold lookup
  simp only
  split
  · exact Nat.le_refl _
  · split
    · exact Nat.le_refl _
    · exact pending_follow_all_le callee _ _

theorem pending_lookupOrCreate_le (callee : Heap) (g : Glue σ) (id : EntityId) :
    pending callee (g.lookupOrCreate callee id).2 ≤ pending callee g := by
  unfold lookupOrCreate
  have hl := pending_lookup_le callee g (callee.find id)
  simp only
  split
  · rename_i heq
    rwa [heq] at hl
  · rename_i heq
    rw [heq] at hl
    exact Nat.le_trans (pending_record_le callee _ _ _) hl

/-- Whether the caller entity takes over the callee's origin. -/
def takesOrigin (mode : GlueMode) (present : Option Origin) (offered : Origin) : Bool :=
  match mode, present, offered with
  | _, none, _ => true
  | .replace, some (.methodReturn _), .argument _ => false
  | .replace, some (.methodReturn _), .static => false
  | .replace, some (.methodReturn _), _ => true
  | _, some _, _ => false

def copyOrigin (mode : GlueMode) (src : Entity) (caller : Heap) (d : EntityId) : Heap :=
  match src.origin with
  | some origin =>
    if takesOrigin mode (caller.entity d).origin origin then caller.setOrigin d origin else caller
  | none => caller

def copyTaint (r : Rebasing σ) (src : Entity) (caller : Heap) (d : EntityId) (log : σ) :
    Heap × σ :=
  if TaintId.isTainted src.taint then
    let (taint, log) := r.taint log src.taint
    let (stack, log) := r.stack? log src.taintStack
    ((caller.raiseTaint d taint stack).2, log)
  else if TaintId.isInput src.taint then ((caller.raiseTaint d TaintId.input none).2, log)
  else (caller, log)

def copyCall (r : Rebasing σ) (d : EntityId) (state : Heap × σ) (call : TargetCall) : Heap × σ :=
  let (caller, log) := state
  let (stack, log) := r.stack log call.stack
  (caller.addTargetCall d { call with stack }, log)

/-- Origin, taint and recorded calls of a callee entity, moved to the caller entity `d`. -/
def copyMarks (r : Rebasing σ) (mode : GlueMode) (src : Entity) (g : Glue σ) (d : EntityId) :
    Glue σ :=
  let caller := copyOrigin mode src g.caller d
  let (caller, log) := copyTaint r src caller d g.log
  let caller := if src.deep then caller.markInput d else caller
  let (caller, log) := src.targetCalls.foldl (copyCall r d) (caller, log)
  { g with caller, log }

def copyDeferredInput (callee : Heap) (d : EntityId) (g : Glue σ) (target : EntityId) : Glue σ :=
  let (mapped, g) := g.lookupOrCreate callee target
  { g with caller := g.caller.addDeferredInput d mapped }

def copyDeferredTaint (callee : Heap) (r : Rebasing σ) (d : EntityId) (g : Glue σ)
    (edge : DeferredTaint) : Glue σ :=
  let (mapped, g) := g.lookupOrCreate callee edge.target
  let (stack, log) := r.stack g.log edge.sink.stack
  { g with caller := g.caller.addDeferredTaint d ⟨mapped, { edge.sink with stack }⟩, log }

/-- Matches the child under one field with what the caller has there. -/
def glueField (callee : Heap) (d : EntityId) (g : Glue σ) (edge : FieldName × EntityId) : Glue σ :=
  let child := callee.find edge.2
  let (loaded, caller) := g.caller.loadField (g.caller.find d) edge.1
  match g.matched.get? child with
  | some previous =>
    let previous := caller.find previous
    { g with caller := if previous = loaded then caller else (caller.merge previous loaded).2 }
  | none => record callee { g with caller } child loaded

/-- Copies the state and the fields of the callee entity `src` to the caller entity `d`. -/
def copyInto (callee : Heap) (r : Rebasing σ) (mode : GlueMode) (g : Glue σ) (src : Entity)
    (d : EntityId) : Glue σ :=
  let g := g.copyMarks r mode src d
  let g := src.deferredInput.toList.foldl (copyDeferredInput callee d) g
  let g := src.deferredTaint.foldl (copyDeferredTaint callee r d) g
  src.sortedFields.foldl (glueField callee d) g

/-- Copies one matched callee entity. -/
def copyEntity (callee : Heap) (r : Rebasing σ) (mode : GlueMode) (g : Glue σ) (c : EntityId) :
    Glue σ :=
  match g.matched.get? c with
  | none => g
  | some mapped => g.copyInto callee r mode (callee.entity c) (g.caller.find mapped)

theorem pending_glueField_le (callee : Heap) (d : EntityId) (g : Glue σ)
    (edge : FieldName × EntityId) :
    pending callee (glueField callee d g edge) ≤ pending callee g := by
  unfold glueField
  simp only
  split
  · exact Nat.le_refl _
  · exact pending_record_le callee _ _ _

theorem pending_copyMarks (callee : Heap) (r : Rebasing σ) (mode : GlueMode) (src : Entity)
    (g : Glue σ) (d : EntityId) :
    pending callee (g.copyMarks r mode src d) = pending callee g := rfl

theorem pending_copyDeferredInput_le (callee : Heap) (d : EntityId) (g : Glue σ)
    (target : EntityId) :
    pending callee (copyDeferredInput callee d g target) ≤ pending callee g :=
  pending_lookupOrCreate_le callee g target

theorem pending_copyDeferredTaint_le (callee : Heap) (r : Rebasing σ) (d : EntityId) (g : Glue σ)
    (edge : DeferredTaint) :
    pending callee (copyDeferredTaint callee r d g edge) ≤ pending callee g :=
  pending_lookupOrCreate_le callee g edge.target

theorem pending_copyInto_le (callee : Heap) (r : Rebasing σ) (mode : GlueMode) (g : Glue σ)
    (src : Entity) (d : EntityId) :
    pending callee (g.copyInto callee r mode src d) ≤ pending callee g := by
  have hm := pending_copyMarks callee r mode src g d
  have hi := pending_foldl_le callee _ (pending_copyDeferredInput_le callee d)
    src.deferredInput.toList (g.copyMarks r mode src d)
  have ht := pending_foldl_le callee _ (pending_copyDeferredTaint_le callee r d)
    src.deferredTaint (src.deferredInput.toList.foldl (copyDeferredInput callee d)
      (g.copyMarks r mode src d))
  have hf := pending_foldl_le callee _ (pending_glueField_le callee d) src.sortedFields
    (src.deferredTaint.foldl (copyDeferredTaint callee r d)
      (src.deferredInput.toList.foldl (copyDeferredInput callee d) (g.copyMarks r mode src d)))
  exact Nat.le_trans hf (Nat.le_trans ht (Nat.le_trans hi (Nat.le_of_eq hm)))

theorem pending_copyEntity_le (callee : Heap) (r : Rebasing σ) (mode : GlueMode) (g : Glue σ)
    (c : EntityId) : pending callee (g.copyEntity callee r mode c) ≤ pending callee g := by
  unfold copyEntity
  split
  · exact Nat.le_refl _
  · exact pending_copyInto_le callee r mode g _ _

/-- Copies everything that is matched, and what gets matched meanwhile. -/
def drain (callee : Heap) (r : Rebasing σ) (mode : GlueMode) (g : Glue σ) : Glue σ :=
  if hc : g.copied < g.order.size then
    drain callee r mode
      ({ g with copied := g.copied + 1 }.copyEntity callee r mode g.order[g.copied])
  else g
termination_by pending callee g
decreasing_by
  refine Nat.lt_of_le_of_lt (pending_copyEntity_le callee r mode _ _) ?_
  simp only [pending]
  omega

/-- Matches the callee's `root` with `actual` and copies everything below it; the caller entity
that now stands for the root. -/
def apply (callee : Heap) (r : Rebasing σ) (mode : GlueMode) (g : Glue σ) (root actual : EntityId) :
    EntityId × Glue σ :=
  let c := callee.find root
  let d := g.caller.find actual
  let (target, g) :=
    match g.matched.get? c with
    | some previous =>
      let previous := g.caller.find previous
      if previous = d then (d, g)
      else
        let (merged, caller) := g.caller.merge previous d
        (merged, { g with caller })
    | none => (d, g.record callee c d)
  let g := g.drain callee r mode
  (g.caller.find target, g)

/-- The caller entity for a callee entity at or below a matched root. -/
def matchedValue (callee : Heap) (r : Rebasing σ) (mode : GlueMode) (g : Glue σ) (id : EntityId) :
    Option EntityId × Glue σ :=
  let (value, g) := g.lookup callee id
  let g := g.drain callee r mode
  (value.map g.caller.find, g)

end Glue

end SinkTrace
