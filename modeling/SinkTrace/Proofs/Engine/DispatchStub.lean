import SinkTrace.Engine.Dispatch
import SinkTrace.Proofs.Heap.Relay
import SinkTrace.Proofs.Store

/-!
A virtual call with one implementation. The activation that stands for the call matches the
implementation's summary with fresh formals, and its own summary is what the caller is matched
with; the caller cannot tell this from a call of the implementation.
-/

namespace SinkTrace

/-- Where a summary and a call site are matched. -/
inductive Place where
  | static
  | formal (index : Nat)
  | result
deriving DecidableEq

/-- The entity of a summary at a place. -/
def MethodSummary.rootAt? (callee : MethodSummary) : Place → Option EntityId
  | .static => callee.staticRoot
  | .formal index => callee.arguments[index]?.join
  | .result => callee.result

/-- The entity at a place of the call site. -/
def CallEffect.actualAt? (e : CallEffect) (staticRoot : Option EntityId) :
    Place → Option EntityId
  | .static => staticRoot
  | .formal index => e.parameters[index]?.join
  | .result => e.output

/-- The entity that a context has at a place for its callers. -/
def Context.rootAt? (c : Context) : Place → Option EntityId
  | .static => c.staticRoot
  | .formal index => c.formals[index]?.join
  | .result => c.returnEntity.1

namespace MethodSummary

/-- The heap was built by operations, and the roots are in it. -/
structure Built (callee : MethodSummary) : Prop where
  reachable : callee.heap.Reachable
  root_lt : ∀ {p c}, callee.rootAt? p = some c → c < callee.heap.size

/-- An activation that stands for a virtual call of `m` has an entity wherever the summary has
one, and formals with an entity nowhere else. -/
structure Fits (callee : MethodSummary) (m : MethodRef) (statics : Bool) : Prop where
  static : callee.staticRoot.isSome → statics = true
  arguments : callee.arguments.map Option.isSome = m.formals.map fun t => !t.isSimple
  result : callee.result.isSome → (m.returnsValue && !m.result.isSimple) = true

end MethodSummary

/-- The heap of the activation was built by operations, and what it hands to the call is in it. -/
structure Activation.Hands (a : Activation) (e : CallEffect) : Prop where
  reachable : a.context.heap.Reachable
  actual_lt : ∀ {p d}, e.actualAt? a.context.staticRoot p = some d → d < a.context.heap.size

/-- The places have entities of their own. -/
structure Apart (h : Heap) (at? : Place → Option EntityId) : Prop where
  lt : ∀ {p f}, at? p = some f → f < h.size
  inj : ∀ {p q f}, at? p = some f → at? q = some f → p = q

theorem Apart.create {h : Heap} {at? : Place → Option EntityId} (ha : Apart h at?)
    (origin : Option Origin) (p : Place) :
    Apart (h.create origin).2 (Function.update at? p (some h.size)) := by
  have hlt : ∀ {q f}, q ≠ p → Function.update at? p (some h.size) q = some f → f < h.size :=
    fun hq hf => ha.lt (by rwa [Function.update_of_ne hq] at hf)
  have hself : ∀ {q f}, Function.update at? p (some h.size) q = some f → q = p → f = h.size := by
    rintro q f hf rfl
    rw [Function.update_self] at hf
    exact (Option.some.inj hf).symm
  refine ⟨fun {q f} hf => ?_, fun {q q' f} hf hf' => ?_⟩
  · rw [Heap.size_create]
    by_cases hq : q = p
    · exact hself hf hq ▸ Nat.lt_succ_self _
    · exact Nat.lt_succ_of_lt (hlt hq hf)
  · by_cases hq : q = p <;> by_cases hq' : q' = p
    · exact hq.trans hq'.symm
    · exact absurd (hself hf hq) (Nat.ne_of_lt (hlt hq' hf'))
    · exact absurd (hself hf' hq') (Nat.ne_of_lt (hlt hq hf))
    · rw [Function.update_of_ne hq] at hf
      rw [Function.update_of_ne hq'] at hf'
      exact ha.inj hf hf'

/-- A context that nothing has been glued onto yet. -/
structure Context.Unused (c : Context) : Prop where
  reachable : c.heap.Reachable
  blank : c.heap.Blank
  apart : Apart c.heap c.rootAt?

/-- A context whose formals so far have these types. -/
structure Context.Opened (statics : Bool) (types : List TypeRef) (c : Context) : Prop
    extends c.Unused where
  static : c.staticRoot.isSome = statics
  formals : c.formals.map Option.isSome = types.map fun t => !t.isSimple
  returnSlot : c.returnSlot = none

namespace Context

variable {c : Context} {statics : Bool} {types : List TypeRef} {t : TypeRef}

theorem rootAt?_result (hn : c.returnSlot = none) : c.rootAt? .result = none := by
  rw [rootAt?, returnEntity, hn]

theorem formal_append (l : List (Option EntityId)) (e : Option EntityId) (i : Nat) :
    (l ++ [e])[i]?.join = if i = l.length then e else l[i]?.join := by
  rcases Nat.lt_trichotomy i l.length with hlt | rfl | hlt
  · rw [List.getElem?_append_left hlt, if_neg (Nat.ne_of_lt hlt)]
  · simp
  · rw [if_neg (Nat.ne_of_gt hlt), List.getElem?_eq_none (by simp; omega),
      List.getElem?_eq_none (Nat.le_of_lt hlt)]

theorem opened_empty : Opened false [] {} where
  reachable := .refl
  blank := Heap.blank_empty
  apart := ⟨fun {p f} hf => by cases p <;> simp [rootAt?, returnEntity] at hf,
    fun {p q f} hf => by cases p <;> simp [rootAt?, returnEntity] at hf⟩
  static := rfl
  formals := rfl
  returnSlot := rfl

/-- One more entity, at a place that had none. -/
theorem Unused.create {c' : Context} (hu : c.Unused) {origin : Option Origin} {p : Place}
    (hheap : c'.heap = (c.heap.create origin).2)
    (hroots : ∀ q, c'.rootAt? q = if q = p then some c.heap.size else c.rootAt? q) :
    c'.Unused where
  reachable := hheap ▸ hu.reachable.step (.create origin)
  blank := hheap ▸ hu.blank.create origin
  apart := by
    have heq : c'.rootAt? = Function.update c.rootAt? p (some c.heap.size) := by
      funext q
      rw [hroots, Function.update_apply]
    exact heq ▸ hheap ▸ hu.apart.create origin p

/-- The same entities at the same places. -/
theorem Unused.congr {c' : Context} (hu : c.Unused) (hheap : c'.heap = c.heap)
    (hroots : ∀ q, c'.rootAt? q = c.rootAt? q) : c'.Unused where
  reachable := hheap ▸ hu.reachable
  blank := hheap ▸ hu.blank
  apart := by
    have heq : c'.rootAt? = c.rootAt? := funext hroots
    exact heq ▸ hheap ▸ hu.apart

theorem addFormal_simple (c : Context) (hs : t.isSimple = true) :
    (c.addFormal t).heap = c.heap ∧ (c.addFormal t).formals = c.formals ++ [none] ∧
      (c.addFormal t).staticRoot = c.staticRoot ∧ (c.addFormal t).returnSlot = c.returnSlot := by
  unfold addFormal
  rw [hs]
  exact ⟨rfl, rfl, rfl, rfl⟩

theorem addFormal_entity (c : Context) (hs : t.isSimple = false) :
    (c.addFormal t).heap = (c.heap.create (some (.argument c.formals.length))).2 ∧
      (c.addFormal t).formals = c.formals ++ [some c.heap.size] ∧
      (c.addFormal t).staticRoot = c.staticRoot ∧ (c.addFormal t).returnSlot = c.returnSlot := by
  unfold addFormal
  rw [hs]
  exact ⟨rfl, rfl, rfl, rfl⟩

/-- One more formal, with an entity if its type is not simple. -/
theorem Opened.append {c' : Context} {formal : Option EntityId} (ho : c.Opened statics types)
    (hformals : c'.formals = c.formals ++ [formal]) (hkind : formal.isSome = !t.isSimple)
    (hstatic : c'.staticRoot = c.staticRoot) (hreturn : c'.returnSlot = c.returnSlot)
    (hunused : (∀ q, c'.rootAt? q =
      if q = .formal c.formals.length then formal else c.rootAt? q) → c'.Unused) :
    c'.Opened statics (types ++ [t]) where
  toUnused := by
    refine hunused fun q => ?_
    cases q with
    | static => exact hstatic
    | formal i =>
      rw [rootAt?, rootAt?, hformals, formal_append]
      simp only [Place.formal.injEq]
    | result =>
      rw [rootAt?_result (hreturn.trans ho.returnSlot), rootAt?_result ho.returnSlot]
      rfl
  static := hstatic ▸ ho.static
  formals := by
    rw [hformals, List.map_append, List.map_append, ho.formals, List.map_singleton,
      List.map_singleton, hkind]
  returnSlot := hreturn.trans ho.returnSlot

theorem Opened.addFormal (ho : c.Opened statics types) (t : TypeRef) :
    (c.addFormal t).Opened statics (types ++ [t]) := by
  cases hs : t.isSimple with
  | true =>
    obtain ⟨hheap, hformals, hstatic, hreturn⟩ := addFormal_simple c hs
    refine ho.append hformals (by simp [hs]) hstatic hreturn fun hroots =>
      ho.toUnused.congr hheap fun q => ?_
    rw [hroots]
    split
    · -- behind the last formal there was no entity either
      subst q
      rw [rootAt?, List.getElem?_eq_none (Nat.le_refl _)]
      rfl
    · rfl
  | false =>
    obtain ⟨hheap, hformals, hstatic, hreturn⟩ := addFormal_entity c hs
    exact ho.append hformals (by simp [hs]) hstatic hreturn fun hroots =>
      ho.toUnused.create hheap hroots

theorem Opened.addFormals (ho : c.Opened statics types) (more : List TypeRef) :
    (more.foldl Context.addFormal c).Opened statics (types ++ more) := by
  induction more generalizing c types with
  | nil => exact (List.append_nil types).symm ▸ ho
  | cons t more ih =>
    have hrest := ih (ho.addFormal t)
    rwa [List.append_assoc] at hrest

theorem opened_start (m : MethodRef) (statics : Bool) :
    (start m [] statics).Opened statics m.formals := by
  have hroot : Opened statics [] (if statics then
      { staticRoot := some ({} : Store).heap.size
        store := (({} : Store).create .static).2 } else {}) := by
    cases statics with
    | false => exact opened_empty
    | true =>
      have hheap : (({} : Store).create .static).2.heap = (Heap.create {} (some .static)).2 := rfl
      refine ⟨opened_empty.toUnused.create (p := .static) hheap fun q => ?_, rfl, rfl, rfl⟩
      cases q <;> simp [rootAt?, returnEntity]
      rfl
  have hall := hroot.addFormals m.formals
  cases statics <;> exact hall

/-- A context that stands for a virtual call of `m`, before anything is glued onto it. -/
structure Dispatching (m : MethodRef) (statics : Bool) (c : Context) : Prop extends c.Unused where
  static : c.staticRoot.isSome = statics
  formals : c.formals.map Option.isSome = m.formals.map fun t => !t.isSimple
  result : (c.rootAt? .result).isSome = (m.returnsValue && !m.result.isSimple)
  /-- Whatever becomes of the heap, the return value is the entity it was. -/
  returned : ∀ c' : Context, c'.store.slots = c.store.slots → c'.returnSlot = c.returnSlot →
    c'.returnEntity = ((c.rootAt? .result).map c'.heap.find, c')

theorem returnEntity_of_values {slot : SlotId} {e : EntityId} (hs : c.returnSlot = some slot)
    (hv : c.store.slot slot = .values [e]) : c.returnEntity = (some (c.heap.find e), c) := by
  have hone : Store.distinct c.store.heap [e] = [c.heap.find e] := rfl
  unfold returnEntity
  rw [hs]
  simp only [Store.materializeSingle, Store.materialize, hv, hone]
  rw [← hs]

/-- The entity that every implementation's return value is matched with. -/
theorem Opened.withReturn {m : MethodRef} {c' : Context} {origin : Option Origin} {slot : SlotId}
    (ho : c.Opened statics m.formals) (hreturns : (m.returnsValue && !m.result.isSimple) = true)
    (hheap : c'.heap = (c.heap.create origin).2) (hstatic : c'.staticRoot = c.staticRoot)
    (hformals : c'.formals = c.formals) (hslot : c'.returnSlot = some slot)
    (hvalue : c'.store.slot slot = .values [c.heap.size]) : c'.Dispatching m statics := by
  have hfind : c'.heap.find c.heap.size = c.heap.size := by
    rw [hheap, Heap.find_create, Heap.find_of_size_le (Nat.le_refl _)]
  have hroot : c'.rootAt? .result = some c.heap.size := by
    rw [rootAt?, returnEntity_of_values hslot hvalue, hfind]
  refine ⟨ho.toUnused.create (p := .result) hheap fun q => ?_, hstatic ▸ ho.static,
    hformals ▸ ho.formals, by rw [hroot, hreturns, Option.isSome_some],
    fun after hslots hreturn => ?_⟩
  · cases q with
    | static => exact hstatic
    | formal i => exact congrArg (fun l : List (Option EntityId) => l[i]?.join) hformals
    | result => exact hroot
  · rw [hroot]
    refine returnEntity_of_values (hreturn.trans hslot) ?_
    rwa [Store.slot, hslots]

theorem dispatching_startDispatch (m : MethodRef) (statics : Bool) :
    (startDispatch m statics).Dispatching m statics := by
  have ho := opened_start m statics
  unfold startDispatch
  generalize start m [] statics = c at ho
  simp only
  split
  · rename_i hreturns
    have hvalue : (((c.store.create (.methodReturn m.signature)).2.entitySlot
        (c.store.create (.methodReturn m.signature)).1).2.slot c.store.slots.size) =
        .values [c.heap.size] := by
      simp only [Store.slot, Store.entitySlot, Store.alloc]
      exact congrArg (Option.getD · _) Array.getElem?_push_size
    exact ho.withReturn hreturns rfl rfl rfl rfl hvalue
  · rename_i hreturns
    have hnone := rootAt?_result ho.returnSlot
    refine ⟨ho.toUnused, ho.static, ho.formals, ?_, fun after _ hreturn => ?_⟩
    · rw [hnone]
      exact (Bool.eq_false_iff.mpr hreturns).symm
    · rw [hnone, returnEntity, hreturn, ho.returnSlot]
      rfl

end Context

namespace Activation

theorem mem_rootPairs {callee : MethodSummary} {e : CallEffect} {staticRoot : Option EntityId}
    {c d : EntityId} : (c, d) ∈ rootPairs callee e staticRoot ↔
      ∃ p, callee.rootAt? p = some c ∧ e.actualAt? staticRoot p = some d := by
  have hmem : (c, d) ∈ rootPairs callee e staticRoot ↔ (some c, some d) ∈
      (callee.staticRoot, staticRoot) :: callee.arguments.zip e.parameters ++
        [(callee.result, e.output)] := by
    rw [rootPairs, List.mem_filterMap]
    constructor
    · rintro ⟨⟨_ | root, _ | actual⟩, hm, he⟩
      all_goals cases he
      exact hm
    · exact fun hm => ⟨_, hm, rfl⟩
  have hzip : (some c, some d) ∈ callee.arguments.zip e.parameters ↔
      ∃ i : Nat, callee.arguments[i]?.join = some c ∧ e.parameters[i]?.join = some d := by
    simp only [List.mem_iff_getElem?, List.getElem?_zip_eq_some, Option.join_eq_some_iff]
  rw [hmem, List.mem_append, List.mem_cons, hzip, List.mem_singleton, Prod.mk.injEq,
    Prod.mk.injEq]
  constructor
  · rintro ((⟨hc, hd⟩ | ⟨i, hc, hd⟩) | ⟨hc, hd⟩)
    · exact ⟨.static, hc.symm, hd.symm⟩
    · exact ⟨.formal i, hc, hd⟩
    · exact ⟨.result, hc.symm, hd.symm⟩
  · rintro ⟨_ | i | _, hc, hd⟩
    · exact .inl (.inl ⟨hc.symm, hd.symm⟩)
    · exact .inl (.inr ⟨i, hc, hd⟩)
    · exact .inr ⟨hc.symm, hd.symm⟩

theorem rootPairs_lt {callee : MethodSummary} (hb : callee.Built) {a : Activation}
    {e : CallEffect} (ha : a.Hands e) : ∀ pair ∈ rootPairs callee e a.context.staticRoot,
      pair.1 < callee.heap.size ∧ pair.2 < a.context.heap.size := by
  rintro ⟨root, actual⟩ hm
  obtain ⟨p, hroot, hactual⟩ := mem_rootPairs.mp hm
  exact ⟨hb.root_lt hroot, ha.actual_lt hactual⟩

/-- The heap of an activation behind a call that was answered by a summary. -/
theorem heap_applySummary (a : Activation) (l : Ledger) (r : CallRequest)
    (callee : MethodSummary) :
    (a.applySummary l r (.computed callee) true).1.context.heap =
      (Glue.applyAll callee.heap r.mode (rootPairs callee r.effect a.context.staticRoot)
        { caller := a.context.heap, log := () }).caller := by
  unfold applySummary addCounts
  cases r.mode <;> rfl

theorem context_applySummary (a : Activation) (l : Ledger) (r : CallRequest)
    (callee : MethodSummary) :
    let c := (a.applySummary l r (.computed callee) true).1.context
    c.staticRoot = a.context.staticRoot ∧ c.formals = a.context.formals ∧
      c.store.slots = a.context.store.slots ∧ c.returnSlot = a.context.returnSlot := by
  unfold applySummary addCounts
  cases r.mode <;> exact ⟨rfl, rfl, rfl, rfl⟩

/-- The summary of a virtual call, once an implementation's summary was applied to the activation
that stands for the call. -/
def dispatchSummary (stub : Activation) (l : Ledger) (r : CallRequest) (implementation : MethodRef)
    (callee : MethodSummary) : Summary :=
  let (effect, stub) := stub.implementationCall implementation
  let answered := (stub.applySummary l { r with effect } (.computed callee) true).1
  .ofFrozen answered.context.freeze answered.stack

variable {m : MethodRef} {statics : Bool} {c : Context}

/-- The effect of a call of an implementation hands on the entities of the context. -/
theorem implementationCall_eq (stub : Activation) (hd : stub.context.Dispatching m statics)
    (implementation : MethodRef) :
    (stub.implementationCall implementation).2 = stub ∧
      ∀ p, (stub.implementationCall implementation).1.actualAt? stub.context.staticRoot p =
        stub.context.rootAt? p := by
  have hreturn := hd.returned stub.context rfl rfl
  unfold implementationCall
  rw [hreturn]
  refine ⟨rfl, fun p => ?_⟩
  cases p with
  | static => rfl
  | formal i => rfl
  | result =>
    change (stub.context.rootAt? .result).map stub.context.heap.find = _
    have hid : stub.context.heap.find = id := funext fun u => (hd.blank u).1
    rw [hid, Option.map_id, id_eq]

/-- The summary of a context that still has the places of `c`. -/
theorem rootAt?_freeze (hd : c.Dispatching m statics) {c' : Context}
    (hstatic : c'.staticRoot = c.staticRoot) (hformals : c'.formals = c.formals)
    (hslots : c'.store.slots = c.store.slots) (hreturn : c'.returnSlot = c.returnSlot)
    (stack : CallStack) :
    ({ c'.freeze with stack } : MethodSummary).heap = c'.heap ∧
      ∀ p, ({ c'.freeze with stack } : MethodSummary).rootAt? p =
        (c.rootAt? p).map c'.heap.find := by
  unfold Context.freeze
  rw [hd.returned c' hslots hreturn]
  refine ⟨rfl, fun p => ?_⟩
  cases p with
  | static => exact congrArg (Option.map c'.heap.find) hstatic
  | formal i =>
    change (c'.formals.map (Option.map c'.heap.find))[i]?.join = c.formals[i]?.join.map _
    rw [hformals, List.getElem?_map]
    cases c.formals[i]? <;> rfl
  | result =>
    change ((c.rootAt? .result).map c'.heap.find).map c'.heap.find = _
    rw [Option.map_map]
    exact congrArg (Option.map · _) (funext fun u => c'.heap.find_find u)

/-- The summary that an implementation's summary becomes on the way through the stub. -/
theorem dispatchSummary_eq (stub : Activation) (hd : stub.context.Dispatching m statics)
    (l : Ledger) (r : CallRequest) (implementation : MethodRef) (callee : MethodSummary) :
    ∃ (S : MethodSummary) (effect : CallEffect),
      stub.dispatchSummary l r implementation callee = .computed S ∧
      (∀ p, effect.actualAt? stub.context.staticRoot p = stub.context.rootAt? p) ∧
      S.heap = (Glue.applyAll callee.heap r.mode (rootPairs callee effect stub.context.staticRoot)
        { caller := stub.context.heap, log := () }).caller ∧
      ∀ p, S.rootAt? p = (stub.context.rootAt? p).map S.heap.find := by
  obtain ⟨hstub, hactual⟩ := implementationCall_eq stub hd implementation
  unfold dispatchSummary
  generalize stub.implementationCall implementation = call at hstub hactual
  obtain ⟨effect, same⟩ := call
  obtain rfl : same = stub := hstub
  obtain ⟨hstatic, hformals, hslots, hreturn⟩ :=
    context_applySummary same l { r with effect } callee
  have hheap := heap_applySummary same l { r with effect } callee
  simp only
  generalize (same.applySummary l { r with effect } (.computed callee) true).1 = answered at *
  obtain ⟨hfrozen, hroots⟩ :=
    rootAt?_freeze hd hstatic hformals hslots hreturn answered.stack
  refine ⟨_, effect, rfl, hactual, hfrozen.trans hheap, fun p => ?_⟩
  rw [hfrozen]
  exact hroots p

/-- Where the summary has a root, the context has an entity for it. -/
theorem exists_formal {callee : MethodSummary} (hfits : callee.Fits m statics)
    (hd : c.Dispatching m statics) {p : Place} {k : EntityId} (hk : callee.rootAt? p = some k) :
    ∃ f, c.rootAt? p = some f := by
  rw [← Option.isSome_iff_exists]
  cases p with
  | static =>
    have hsome : callee.staticRoot.isSome := Option.isSome_of_eq_some hk
    exact hd.static.trans (hfits.static hsome)
  | formal i =>
    have hmask := congrArg (fun mask => mask[i]?) (hfits.arguments.trans hd.formals.symm)
    simp only [List.getElem?_map] at hmask
    rw [MethodSummary.rootAt?, Option.join_eq_some_iff] at hk
    rw [hk, Option.map_some, eq_comm, Option.map_eq_some_iff] at hmask
    obtain ⟨formal, hf, hsome⟩ := hmask
    rw [Context.rootAt?, hf]
    exact hsome
  | result =>
    have hsome : callee.result.isSome := Option.isSome_of_eq_some hk
    exact hd.result.trans (hfits.result hsome)

/-- The entities of the stub stand between the roots of the implementation's summary and what the
call site hands to the call. -/
theorem relay_roots {callee S : MethodSummary} {a : Activation} {e : CallEffect} {g : Glue Unit}
    {pairs : List (EntityId × EntityId)} (hcallee : callee.Built) (hfits : callee.Fits m statics)
    (hd : c.Dispatching m statics) (ha : a.Hands e)
    (hgluing : Glue.IsGluing callee.heap c.heap pairs g)
    (hpairs : ∀ {k f}, (k, f) ∈ pairs ↔ ∃ p, callee.rootAt? p = some k ∧ c.rootAt? p = some f)
    (hroots : ∀ p, S.rootAt? p = (c.rootAt? p).map g.caller.find) :
    Glue.Relay callee.heap c.heap a.context.heap callee.rootAt? c.rootAt?
      (e.actualAt? a.context.staticRoot) pairs (rootPairs S e a.context.staticRoot)
      (rootPairs callee e a.context.staticRoot) g where
  proper := hcallee.reachable.proper
  bare := hd.blank
  gluing := hgluing
  fits := exists_formal hfits hd
  apart := hd.apart.inj
  formal_lt := hd.apart.lt
  actual_lt := ha.actual_lt
  mem_inner := hpairs
  mem_outer := by
    intro x y
    simp only [mem_rootPairs, hroots, Option.map_eq_some_iff]
    constructor
    · rintro ⟨p, ⟨f, hf, hx⟩, hy⟩
      exact ⟨p, f, hf, hx, hy⟩
    · rintro ⟨p, f, hf, hx, hy⟩
      exact ⟨p, ⟨f, hf, hx⟩, hy⟩
  mem_direct := mem_rootPairs

/-- The stub of a virtual call with one implementation is transparent: a caller sees the same heap,
whether the summary of the implementation is applied to the call or the summary of the stub is that
it was applied to. -/
theorem stub_transparent {callee : MethodSummary} (hcallee : callee.Built)
    (hfits : callee.Fits m statics) {key : SummaryKey} {stack : CallStack}
    {methods : List MethodRef} {stub : Activation}
    (hstub : start key m stack (.implementations methods) statics = .ok stub)
    {a : Activation} {r r' : CallRequest} (ha : a.Hands r.effect) (he : r'.effect = r.effect)
    (inner : CallRequest) (implementation : MethodRef) (l l' l'' : Ledger) :
    Heap.SameFrom a.context.heap.size
      (a.applySummary l r (.computed callee) true).1.context.heap
      (a.applySummary l' r' (stub.dispatchSummary l'' inner implementation callee)
        true).1.context.heap := by
  have hd : stub.context.Dispatching m statics := by
    cases hstub
    exact Context.dispatching_startDispatch m statics
  obtain ⟨S, effect, hS, hactual, hheap, hroots⟩ :=
    dispatchSummary_eq stub hd l'' inner implementation callee
  -- the summary is glued onto the stub, and what comes of that is a summary again
  have hstub : stub.Hands effect := ⟨hd.reachable, fun hf => hd.apart.lt (hactual _ ▸ hf)⟩
  have hinner := rootPairs_lt hcallee hstub
  have hgluing :=
    Glue.isGluing_applyAll hcallee.reachable.proper hd.reachable.proper inner.mode hinner
  obtain ⟨hmiddle, hsize⟩ := Glue.reachable_applyAll callee.heap inner.mode hd.reachable
    fun pair hm => (hinner pair hm).2
  rw [← hheap] at hmiddle hsize
  have hbuilt : S.Built := by
    refine ⟨hmiddle, fun {p c} hp => ?_⟩
    rw [hroots, Option.map_eq_some_iff] at hp
    obtain ⟨f, hf, rfl⟩ := hp
    exact Heap.find_lt_size (Nat.lt_of_lt_of_le (hd.apart.lt hf) hsize)
  have hrelay := relay_roots hcallee hfits hd ha hgluing
    (by simp only [mem_rootPairs, hactual, implies_true]) (hheap ▸ hroots)
  have hdirect := rootPairs_lt hcallee ha
  have houter := rootPairs_lt hbuilt ha
  have hend := (Glue.reachable_applyAll callee.heap r.mode ha.reachable
    fun pair hm => (hdirect pair hm).2).1.proper
  have hend' := (Glue.reachable_applyAll S.heap r'.mode ha.reachable
    fun pair hm => (houter pair hm).2).1.proper
  have hdirect' :=
    Glue.isGluing_applyAll hcallee.reachable.proper ha.reachable.proper r.mode hdirect
  have houter' := Glue.isGluing_applyAll hmiddle.proper ha.reachable.proper r'.mode houter
  rw [hS, heap_applySummary, heap_applySummary, he]
  rw [hheap] at hmiddle houter' hend' ⊢
  exact hrelay.sameFrom ha.reachable.proper hmiddle.proper hdirect' hend houter' hend'

/-- A method that makes its two arguments one, with a loop. -/
def knit : MethodRef where
  declaring := ⟨"Node", false⟩
  name := "Knit"
  parameters := [⟨"Node", false⟩, ⟨"Node", false⟩]
  result := ⟨"Node", false⟩
  hasThis := false

def knitSummary : MethodSummary where
  heap := Heap.knot
  staticRoot := none
  arguments := [some 1, some 0]
  result := some 0
  calls := 0
  instructions := 0
  stack := .empty

def knitCall : CallRequest where
  key := ⟨.virtual, knit.signature⟩
  effect := ⟨.callvirt, knit, [some 0, some 1], none, 0⟩
  mode := .replace
  target := .implementations [knit]

/-- An activation with two nodes that it is about to hand to the method. -/
def knitter : Activation where
  key := ⟨.concrete, "Main"⟩
  method := knit
  stack := .empty
  context := { store := { heap := Heap.forked } }
  work := .dispatch [] .replace
  target := .implementations []

def knitStub : Activation where
  key := knitCall.key
  method := knit
  stack := .empty
  context := .startDispatch knit false
  work := .dispatch [knit] .replace
  target := knitCall.target

theorem built_knitSummary : knitSummary.Built where
  reachable := Heap.reachable_knot.1
  root_lt {p c} hc := by
    have hsize : 1 < knitSummary.heap.size := Heap.reachable_knot.2
    have hle : c ≤ 1 := by
      cases p with
      | static => cases hc
      | formal i => rcases i with _ | _ | i <;> cases hc <;> decide
      | result =>
        cases hc
        decide
    exact Nat.lt_of_le_of_lt hle hsize

theorem fits_knitSummary : knitSummary.Fits knit false where
  static := nofun
  arguments := by decide
  result _ := by decide

theorem knitter_hands : knitter.Hands knitCall.effect where
  reachable := Heap.reachable_forked.1
  actual_lt {p d} hd := by
    have hsize : 1 < knitter.context.heap.size := Heap.reachable_forked.2
    have hle : d ≤ 1 := by
      cases p with
      | static => cases hd
      | formal i => rcases i with _ | _ | i <;> cases hd <;> decide
      | result => cases hd
    exact Nat.lt_of_le_of_lt hle hsize

/-- The nodes stand for one value of the method, so they become one. -/
theorem find_knitter : (knitter.applySummary default knitCall (.computed knitSummary)
    true).1.context.heap.find 1 = 0 := by
  have hpairs := rootPairs_lt built_knitSummary knitter_hands
  have hgluing := Glue.isGluing_applyAll built_knitSummary.reachable.proper
    knitter_hands.reachable.proper knitCall.mode hpairs
  have hone : (0, 1) ∈ rootPairs knitSummary knitCall.effect none := by decide
  have hzero : (1, 0) ∈ rootPairs knitSummary knitCall.effect none := by decide
  have hknot : Heap.knot.find 1 = Heap.knot.find 0 := by
    rw [Heap.knot_eq]
    decide +kernel
  have hjoined : Glue.Joined Heap.knot Heap.forked (rootPairs knitSummary knitCall.effect none)
      (.caller 1) (.caller 0) := .trans (hknot ▸ .symm (.pair hone)) (.pair hzero)
  have hsame := (hgluing.same (.caller 1) (.caller 0) (hpairs _ hone).2 (hpairs _ hzero).2).mpr
    hjoined
  rw [heap_applySummary]
  exact (Option.some.inj hsame).trans (Nat.le_zero.mp (Heap.find_le _ 0))

/-- Both ways make the two nodes one. -/
theorem knit_transparent : knitSummary.Built ∧ knitSummary.Fits knit false ∧
    start knitCall.key knit .empty knitCall.target false = .ok knitStub ∧
    knitter.Hands knitCall.effect ∧
    Heap.SameFrom knitter.context.heap.size
      (knitter.applySummary default knitCall (.computed knitSummary) true).1.context.heap
      (knitter.applySummary default knitCall
        (knitStub.dispatchSummary default knitCall knit knitSummary) true).1.context.heap ∧
    (knitter.applySummary default knitCall (.computed knitSummary)
      true).1.context.heap.find 1 = 0 :=
  ⟨built_knitSummary, fits_knitSummary, rfl, knitter_hands,
    stub_transparent built_knitSummary fits_knitSummary rfl knitter_hands rfl knitCall knit
      default default default, find_knitter⟩

end Activation

end SinkTrace
