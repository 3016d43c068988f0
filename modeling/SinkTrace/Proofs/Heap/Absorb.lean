import SinkTrace.Proofs.Heap.Rewiring

/-!
What absorbing one entity into another does, as a whole: the ids of the one stand for the other,
which has the fields of both and takes over the marks; every other entity keeps its own. Where both
had a field of one name the two children clash.
-/

namespace SinkTrace

theorem foldl_keeps {α β γ : Type} {f : α → β → α} {view : α → γ}
    (hf : ∀ a b, view (f a b) = view a) (bs : List β) (a : α) :
    view (bs.foldl f a) = view a := by
  induction bs generalizing a with
  | nil => rfl
  | cons b bs ih => exact (ih (f a b)).trans (hf a b)

namespace Entity

/-- What a merge leaves to its survivor: edges and depth of input. -/
def core (e : Entity) : (Table FieldName EntityId × List (EntityId × FieldName)) × Bool :=
  (e.edges, e.deep)

/-- The larger taint, with its stack, and an origin. -/
def outrank (e gone : Entity) : Entity :=
  let e := if e.taint < gone.taint then
    { e with taint := gone.taint, taintStack := gone.taintStack } else e
  { e with origin := e.origin.or gone.origin }

theorem foldl_addTargetCall_keeps {γ : Type} {view : Entity → γ}
    (hv : ∀ e calls, view { e with targetCalls := calls } = view e) (calls : List TargetCall)
    (e : Entity) : view (calls.foldl addTargetCall e) = view e := by
  apply foldl_keeps
  intro e call
  unfold addTargetCall
  split
  · rfl
  · exact hv e _

theorem foldl_addDeferred_keeps {γ : Type} {view : Entity → γ}
    (hi : ∀ e s, view { e with deferredInput := s } = view e)
    (ht : ∀ e s, view { e with deferredTaint := s } = view e) (targets : List EntityId)
    (edges : List DeferredTaint) (e : Entity) :
    view (edges.foldl addDeferredTaint (targets.foldl addDeferredInput e)) = view e := by
  have hedges : ∀ e, view (edges.foldl addDeferredTaint e) = view e :=
    foldl_keeps (fun e _ => ht e _) edges
  rw [hedges]
  exact foldl_keeps (fun e _ => hi e _) targets e

/-- A view that does not look at recorded calls and deferred edges. -/
theorem takeOver_keeps {γ : Type} {view : Entity → γ}
    (hc : ∀ e calls, view { e with targetCalls := calls } = view e)
    (hi : ∀ e s, view { e with deferredInput := s } = view e)
    (ht : ∀ e s, view { e with deferredTaint := s } = view e) (e gone : Entity) :
    view (e.takeOver gone) = view (e.outrank gone) := by
  have hd := foldl_addDeferred_keeps hi ht gone.deferredInput.toList gone.deferredTaint
    (gone.targetCalls.foldl addTargetCall (e.outrank gone))
  exact hd.trans (foldl_addTargetCall_keeps hc _ _)

theorem core_takeOver (e gone : Entity) : (e.takeOver gone).core = e.core := by
  refine (takeOver_keeps (fun _ _ => rfl) (fun _ _ => rfl) (fun _ _ => rfl) e gone).trans ?_
  unfold outrank
  split <;> rfl

theorem edges_takeOver (e gone : Entity) : (e.takeOver gone).edges = e.edges :=
  congrArg Prod.fst (core_takeOver e gone)

theorem deep_takeOver (e gone : Entity) : (e.takeOver gone).deep = e.deep :=
  congrArg Prod.snd (core_takeOver e gone)

theorem taint_takeOver (e gone : Entity) : (e.takeOver gone).taint = max e.taint gone.taint := by
  refine (takeOver_keeps (fun _ _ => rfl) (fun _ _ => rfl) (fun _ _ => rfl) e gone).trans ?_
  unfold outrank
  split
  · rename_i hlt
    exact (Nat.max_eq_right (Nat.le_of_lt hlt)).symm
  · rename_i hge
    exact (Nat.max_eq_left (Nat.not_lt.mp hge)).symm

theorem mem_addTargetCall {e : Entity} {call other : TargetCall} :
    other ∈ (e.addTargetCall call).targetCalls ↔ other ∈ e.targetCalls ∨ other = call := by
  unfold addTargetCall
  split
  · rename_i hhas
    have hmem := hasCall_iff.mp hhas
    exact ⟨.inl, fun hm => hm.elim id fun he => he ▸ hmem⟩
  · simp

theorem mem_foldl_addTargetCall {calls : List TargetCall} {e : Entity} {call : TargetCall} :
    call ∈ (calls.foldl addTargetCall e).targetCalls ↔ call ∈ e.targetCalls ∨ call ∈ calls := by
  induction calls generalizing e with
  | nil => simp
  | cons c calls ih => rw [List.foldl_cons, ih, mem_addTargetCall, List.mem_cons, or_assoc]

theorem targetCalls_outrank (e gone : Entity) :
    (e.outrank gone).targetCalls = e.targetCalls := by
  unfold outrank
  split <;> rfl

/-- The survivor of a merge has the calls of both. -/
theorem mem_targetCalls_takeOver {e gone : Entity} {call : TargetCall} :
    call ∈ (e.takeOver gone).targetCalls ↔ call ∈ e.targetCalls ∨ call ∈ gone.targetCalls := by
  have hd : (e.takeOver gone).targetCalls =
      (gone.targetCalls.foldl addTargetCall (e.outrank gone)).targetCalls :=
    foldl_addDeferred_keeps (fun _ _ => rfl) (fun _ _ => rfl) _ _ _
  rw [hd, mem_foldl_addTargetCall, targetCalls_outrank]

theorem mem_addDeferredInput {e : Entity} {t target : EntityId} :
    t ∈ (e.addDeferredInput target).deferredInput ↔ t = target ∨ t ∈ e.deferredInput := by
  simp only [addDeferredInput, Std.TreeSet.mem_insert, Nat.compare_eq_eq]
  exact or_congr_left eq_comm

theorem mem_foldl_addDeferredInput {e : Entity} {t : EntityId} (targets : List EntityId) :
    t ∈ (targets.foldl addDeferredInput e).deferredInput ↔ t ∈ targets ∨ t ∈ e.deferredInput := by
  induction targets generalizing e with
  | nil => simp
  | cons target targets ih =>
    simp only [List.foldl_cons, ih, mem_addDeferredInput, List.mem_cons]
    exact or_left_comm.trans or_assoc.symm

theorem mem_foldl_addDeferredTaint {e : Entity} {edge : DeferredTaint}
    (edges : List DeferredTaint) :
    edge ∈ (edges.foldl addDeferredTaint e).deferredTaint ↔
      edge ∈ edges ∨ edge ∈ e.deferredTaint := by
  induction edges generalizing e with
  | nil => simp
  | cons first edges ih =>
    simp only [List.foldl_cons, ih, addDeferredTaint, mem_addNew, List.mem_cons]
    exact (or_congr_right or_comm).trans (or_left_comm.trans or_assoc.symm)

/-- Deferred edges, without what they wait for. -/
def waits (e : Entity) : IdSet × List DeferredTaint := (e.deferredInput, e.deferredTaint)

theorem waits_outrank (e gone : Entity) : (e.outrank gone).waits = e.waits := by
  unfold outrank
  split <;> rfl

theorem waits_foldl_addTargetCall (e gone : Entity) :
    (gone.targetCalls.foldl addTargetCall (e.outrank gone)).waits = e.waits :=
  (foldl_addTargetCall_keeps (fun _ _ => rfl) _ _).trans (waits_outrank e gone)

/-- The survivor of a merge has the edges of both. -/
theorem mem_deferredInput_takeOver {e gone : Entity} {t : EntityId} :
    t ∈ (e.takeOver gone).deferredInput ↔ t ∈ e.deferredInput ∨ t ∈ gone.deferredInput := by
  have hkept : (e.takeOver gone).deferredInput = (gone.deferredInput.toList.foldl addDeferredInput
      (gone.targetCalls.foldl addTargetCall (e.outrank gone))).deferredInput :=
    @foldl_keeps _ _ _ addDeferredTaint Entity.deferredInput (fun _ _ => rfl) gone.deferredTaint _
  have hwaits := congrArg Prod.fst (waits_foldl_addTargetCall e gone)
  simp only [waits] at hwaits
  rw [hkept, mem_foldl_addDeferredInput, hwaits, Std.TreeSet.mem_toList, or_comm]

theorem mem_deferredTaint_takeOver {e gone : Entity} {edge : DeferredTaint} :
    edge ∈ (e.takeOver gone).deferredTaint ↔
      edge ∈ e.deferredTaint ∨ edge ∈ gone.deferredTaint := by
  have hkept : (gone.deferredInput.toList.foldl addDeferredInput
      (gone.targetCalls.foldl addTargetCall (e.outrank gone))).deferredTaint =
      (gone.targetCalls.foldl addTargetCall (e.outrank gone)).deferredTaint :=
    @foldl_keeps _ _ _ addDeferredInput Entity.deferredTaint (fun _ _ => rfl)
      gone.deferredInput.toList _
  have hwaits := congrArg Prod.snd (waits_foldl_addTargetCall e gone)
  simp only [waits] at hwaits
  have hedges := @mem_foldl_addDeferredTaint (gone.deferredInput.toList.foldl addDeferredInput
    (gone.targetCalls.foldl addTargetCall (e.outrank gone))) edge gone.deferredTaint
  rw [hkept, hwaits] at hedges
  exact hedges.trans or_comm

theorem awaits_takeOver {e gone : Entity} {t : EntityId} (ha : (e.takeOver gone).Awaits t) :
    e.Awaits t ∨ gone.Awaits t := by
  rcases ha with hm | ⟨edge, hm, ht⟩
  · exact (mem_deferredInput_takeOver.mp hm).imp .inl .inl
  · exact (mem_deferredTaint_takeOver.mp hm).imp (fun hm => .inr ⟨edge, hm, ht⟩)
      fun hm => .inr ⟨edge, hm, ht⟩

end Entity

namespace Heap

variable {h : Heap} {x y : EntityId} {ex ey : Entity}

/-- The heap in which `y` was forwarded to `x` and its edges were moved, and the children that
clash. -/
def rewired (h : Heap) (x y : EntityId) : Heap × List (EntityId × EntityId) :=
  (h.entity y).fields.entries.foldl (moveField x y)
    ((h.entity y).parents.foldl (redirectParent x y) (h.forward y x), [])

theorem absorb_heap (h : Heap) (x y : EntityId) :
    (h.absorb x y).heap =
      { ((h.rewired x y).1.update x (·.takeOver (h.entity y))).note x with
        liveCount := h.liveCount - 1 } := rfl

theorem absorb_conflicts (h : Heap) (x y : EntityId) :
    (h.absorb x y).conflicts = (h.rewired x y).2 := rfl

/-- Forwarding `y` leaves its edges to be moved. -/
theorem WellFormed.rewiring (hw : h.WellFormed) (hx : h.live? x = some ex)
    (hy : h.live? y = some ey) (hlt : x < y) :
    Rewiring (h.forward y x) x y ey.parents
      (ey.fields.entries.map fun edge => (h.forward y x).find edge.2) := by
  have hyn := lt_size_of_live? hy
  have hdesc := hw.descending.forward hyn hlt
  have hback : ∀ {i e}, (h.forward y x).live? i = some e → i ≠ y ∧ h.live? i = some e := by
    intro i e he
    rw [live?_forward] at he
    split at he
    · cases he
    · exact ⟨fun hi => ‹¬y = i› hi.symm, he⟩
  have hto : ∀ {i e}, i ≠ y → h.live? i = some e → (h.forward y x).live? i = some e := by
    intro i e hne he
    rw [live?_forward, if_neg fun hi => hne hi.symm, he]
  refine ⟨hdesc, ⟨ex, hto (Nat.ne_of_lt hlt) hx⟩, by simp [next?_forward hyn],
    fun he => hw.keys (hback he).2, ⟨?_, ?_⟩, ?_, ?_⟩
  · intro i e k c he hg
    obtain ⟨ec, hc, hm⟩ := hw.child (hback he).2 hg
    by_cases hcy : c = y
    · subst hcy
      rw [hy] at hc
      cases hc
      exact .inr hm
    · exact .inl ⟨ec, hto hcy hc, hm⟩
  · intro i e p k he hm
    obtain ⟨ep, hp, hg⟩ := hw.parent (hback he).2 hm
    by_cases hpy : p = y
    · subst hpy
      rw [hy] at hp
      cases hp
      exact .inr ⟨rfl, List.mem_map.mpr ⟨(k, i), Table.mem_of_find hg, find_of_live? he⟩⟩
    · exact .inl ⟨ep, hto hpy hp, hg⟩
  · intro p k hm hne
    obtain ⟨ep, hp, hg⟩ := hw.parent hy hm
    exact ⟨ep, hto hne hp, .inl hg⟩
  · intro c hm
    obtain ⟨⟨k, d⟩, hin, rfl⟩ := List.mem_map.mp hm
    obtain ⟨ed, hd, _⟩ := hw.child hy ((Table.mem_entries_iff (hw.keys hy) k d).mp hin)
    exact hdesc.live?_find (by rw [size_forward]; exact lt_size_of_live? hd)

theorem alike_redirectAll (h : Heap) (x y : EntityId) (parents : List (EntityId × FieldName)) :
    Alike Entity.bare h (parents.foldl (redirectParent x y) h) :=
  Alike.foldl (Rewiring.alike_redirect x y) parents h

theorem alike_rewired (h : Heap) (x y : EntityId) :
    Alike Entity.bare (h.forward y x) (h.rewired x y).1 := by
  have hp := alike_redirectAll (h.forward y x) x y (h.entity y).parents
  exact hp.trans (Rewiring.alike_moveAll x y _ (_, []))

theorem WellFormed.redirected (hw : h.WellFormed) (hx : h.live? x = some ex)
    (hy : h.live? y = some ey) (hlt : x < y) :
    Rewiring (ey.parents.foldl (redirectParent x y) (h.forward y x)) x y []
      (ey.fields.entries.map fun edge =>
        (ey.parents.foldl (redirectParent x y) (h.forward y x)).find edge.2) := by
  have hr := (hw.rewiring hx hy hlt).redirectAll
  rwa [← funext (alike_redirectAll (h.forward y x) x y ey.parents).find] at hr

theorem WellFormed.rewired (hw : h.WellFormed) (hx : h.live? x = some ex)
    (hy : h.live? y = some ey) (hlt : x < y) : Rewiring (h.rewired x y).1 x y [] [] := by
  unfold Heap.rewired
  rw [entity_of_live? hy]
  exact (hw.redirected hx hy hlt).moveAll []

@[simp]
theorem size_absorb (h : Heap) (x y : EntityId) : (h.absorb x y).heap.size = h.size := by
  rw [absorb_heap]
  exact (size_update _ _ _).trans ((alike_rewired h x y).size.trans (size_forward h y x))

/-- Moving edges logs nothing. -/
theorem transitions_rewired (h : Heap) (x y : EntityId) :
    (h.rewired x y).1.transitions = (h.forward y x).transitions := by
  have hp : ((h.entity y).parents.foldl (redirectParent x y) (h.forward y x)).transitions =
      (h.forward y x).transitions := by
    refine foldl_keeps (fun h edge => ?_) _ (h.forward y x)
    unfold redirectParent
    split <;> rfl
  have hstep : ∀ (state : Heap × List (EntityId × EntityId)) edge,
      (moveField x y state edge).1.transitions = state.1.transitions := by
    intro state edge
    unfold moveField
    simp only
    split <;> rfl
  have hm := @foldl_keeps _ _ _ (moveField x y) (fun state => state.1.transitions) hstep
    (h.entity y).fields.entries
    ((h.entity y).parents.foldl (redirectParent x y) (h.forward y x), [])
  exact hm.trans hp

theorem find_absorb_eq_forward (h : Heap) (x y : EntityId) :
    (h.absorb x y).heap.find = (h.forward y x).find := by
  have hnodes : (h.absorb x y).heap.nodes =
      ((h.rewired x y).1.update x (·.takeOver (h.entity y))).nodes := rfl
  funext u
  rw [find_of_nodes hnodes, find_update, (alike_rewired h x y).find]

theorem find_absorb (hx : h.live? x = some ex) (hy : h.live? y = some ey) (hlt : x < y)
    (u : EntityId) : (h.absorb x y).heap.find u = if h.find u = y then x else h.find u := by
  rw [find_absorb_eq_forward, find_forward hx hy hlt]

theorem find_forward_find (hx : h.live? x = some ex) (hy : h.live? y = some ey) (hlt : x < y)
    (u : EntityId) : (h.forward y x).find (h.find u) = (h.forward y x).find u := by
  rw [find_forward hx hy hlt, find_forward hx hy hlt, find_find]

/-- The fields of any entity but `y` are seen through the new forward. -/
theorem field?_forward (hx : h.live? x = some ex) (hy : h.live? y = some ey) (hlt : x < y)
    {u : EntityId} (hu : h.find u ≠ y) (k : FieldName) :
    (h.forward y x).field? u k = (h.field? u k).map (h.forward y x).find := by
  have hlive : (h.forward y x).live? (h.find u) = h.live? (h.find u) := by
    rw [live?_forward, if_neg fun hj => hu hj.symm]
  have hidem : (h.forward y x).find ∘ h.find = (h.forward y x).find :=
    funext (find_forward_find hx hy hlt)
  rw [field?_eq, field?_eq, entity_eq, entity_eq, find_forward hx hy hlt, if_neg hu, hlive,
    Option.map_map, hidem]

theorem live?_absorb (h : Heap) (x y j : EntityId) :
    (h.absorb x y).heap.live? j =
      ((h.rewired x y).1.update x (·.takeOver (h.entity y))).live? j := rfl

/-- Other entities keep their marks. -/
theorem live?_absorb_of_ne (hw : h.WellFormed) (hx : h.live? x = some ex)
    (hy : h.live? y = some ey) (hlt : x < y) {j : EntityId} (hjx : j ≠ x) (hjy : j ≠ y) :
    ((h.absorb x y).heap.live? j).map Entity.bare = (h.live? j).map Entity.bare := by
  obtain ⟨e, he⟩ := (hw.rewired hx hy hlt).survivor
  rw [live?_absorb, live?_update_of_ne, (alike_rewired h x y).live, live?_forward,
    if_neg fun hj => hjy hj.symm]
  rw [find_of_live? he]
  exact fun hj => hjx hj.symm

theorem live?_absorb_gone (hw : h.WellFormed) (hx : h.live? x = some ex)
    (hy : h.live? y = some ey) (hlt : x < y) : (h.absorb x y).heap.live? y = none := by
  obtain ⟨e, he⟩ := (hw.rewired hx hy hlt).survivor
  rw [live?_absorb, live?_update_of_ne]
  · exact (hw.rewired hx hy hlt).not_live
  · rw [find_of_live? he]
    exact Nat.ne_of_lt hlt

/-- The survivor takes over the marks of the other one. -/
theorem live?_absorb_self (hw : h.WellFormed) (hx : h.live? x = some ex)
    (hy : h.live? y = some ey) (hlt : x < y) : ∃ e : Entity, e.bare = ex.bare ∧
      (h.absorb x y).heap.live? x = some (e.takeOver ey) := by
  obtain ⟨e, he⟩ := (hw.rewired hx hy hlt).survivor
  refine ⟨e, ?_, ?_⟩
  · have hb := (alike_rewired h x y).live x
    rw [he, live?_forward, if_neg (Nat.ne_of_gt hlt), hx] at hb
    exact Option.some.inj hb
  · rw [live?_absorb, live?_update_self _ he, entity_of_live? hy]

/-- The survivor has the fields of both. -/
theorem field?_absorb (hw : h.WellFormed) (hx : h.live? x = some ex)
    (hy : h.live? y = some ey) (hlt : x < y) (u : EntityId) (k : FieldName) :
    (h.absorb x y).heap.field? u k =
      (if (h.absorb x y).heap.find u = x then (h.field? x k).or (h.field? y k)
        else h.field? u k).map (h.absorb x y).heap.find := by
  have hfind := find_absorb_eq_forward h x y
  have hmarks : (h.absorb x y).heap.field? u k = (h.rewired x y).1.field? u k := by
    have hnodes : (h.absorb x y).heap.nodes =
        ((h.rewired x y).1.update x (·.takeOver (h.entity y))).nodes := rfl
    have ha : Alike Entity.fields (h.rewired x y).1
        ((h.rewired x y).1.update x (·.takeOver (h.entity y))) :=
      alike_update _ _ fun e => (Entity.edges_inj (e.edges_takeOver _)).1
    rw [field?_of_nodes hnodes, ha.field?]
  have hred := hw.redirected hx hy hlt
  have hfr := (alike_redirectAll (h.forward y x) x y ey.parents).find
  have hpar := (hw.rewiring hx hy hlt).field?_redirectAll
  have hmove := hred.field?_moveAll (hw.keys hy) []
  rw [hmarks]
  unfold Heap.rewired
  rw [entity_of_live? hy, hmove, hfr, hpar, hpar, funext hfr, hfind]
  have hxne : h.find x ≠ y := by
    rw [find_of_live? hx]
    exact Nat.ne_of_lt hlt
  by_cases hu : (h.forward y x).find u = x
  · simp only [hu, ↓reduceIte]
    rw [field?_forward hx hy hlt hxne k, field?_of_live? hy]
    cases hk : h.field? x k with
    | some c => simp
    | none =>
      have hidem : (h.forward y x).find ∘ h.find = (h.forward y x).find :=
        funext (find_forward_find hx hy hlt)
      rw [Option.map_none, Option.none_or, Option.none_or, Option.map_map, hidem]
      rfl
  · have hune : h.find u ≠ y := by
      intro he
      rw [find_forward hx hy hlt, if_pos he] at hu
      exact hu rfl
    simp only [hu, ↓reduceIte]
    rw [field?_forward hx hy hlt hune k]

/-- Two children clash if both entities had a field of that name and it led to different ones. -/
theorem mem_conflicts_absorb (hw : h.WellFormed) (hx : h.live? x = some ex)
    (hy : h.live? y = some ey) (hlt : x < y) (a b : EntityId) :
    (a, b) ∈ (h.absorb x y).conflicts ↔ ∃ k c d, h.field? x k = some c ∧ h.field? y k = some d ∧
      (h.absorb x y).heap.find c = a ∧ (h.absorb x y).heap.find d = b ∧ a ≠ b := by
  have hidem := find_forward_find hx hy hlt
  have hxne : h.find x ≠ y := by
    rw [find_of_live? hx]
    exact Nat.ne_of_lt hlt
  have hown := field?_forward hx hy hlt hxne
  have hred := hw.redirected hx hy hlt
  have hfr := (alike_redirectAll (h.forward y x) x y ey.parents).find
  have hpar := (hw.rewiring hx hy hlt).field?_redirectAll
  rw [absorb_conflicts, Heap.rewired, entity_of_live? hy,
    hred.mem_conflicts_moveAll (hw.keys hy) [] a b, find_absorb_eq_forward]
  simp only [List.not_mem_nil, false_or, hpar, hown, hfr, Option.map_eq_some_iff]
  constructor
  · rintro ⟨k, c, hin, ⟨d, hd, rfl⟩, rfl, hne⟩
    refine ⟨k, d, h.find c, hd, ?_, rfl, hidem c, hne⟩
    rw [field?_of_live? hy, (Table.mem_entries_iff (hw.keys hy) k c).mp hin]
    rfl
  · rintro ⟨k, d, c, hd, hc, rfl, rfl, hne⟩
    rw [field?_of_live? hy, Option.map_eq_some_iff] at hc
    obtain ⟨c, hg, rfl⟩ := hc
    refine ⟨k, c, Table.mem_of_find hg, ⟨d, hd, rfl⟩, (hidem c).symm, ?_⟩
    exact hne

/-- Promoted are the children that a deep survivor gets, and a survivor that gets to be deep. -/
theorem mem_promoted_absorb (hw : h.WellFormed) (hx : h.live? x = some ex)
    (hy : h.live? y = some ey) (hlt : x < y) (p : EntityId) :
    p ∈ (h.absorb x y).promoted ↔
      (ex.deep = true ∧ ey.deep = false ∧
        ∃ k c, h.field? y k = some c ∧ (h.absorb x y).heap.find c = p) ∨
      (ey.deep = true ∧ ex.deep = false ∧ p = x) := by
  have hfr := (alike_redirectAll (h.forward y x) x y ey.parents).find
  have hidem := find_forward_find hx hy hlt
  have hchildren : ∀ q, (∃ c ∈ ey.fields.values, (h.forward y x).find c = q) ↔
      ∃ k c, h.field? y k = some c ∧ (h.forward y x).find c = q := by
    intro q
    constructor
    · rintro ⟨c, hm, rfl⟩
      obtain ⟨k, hg⟩ := Table.exists_get?_of_mem_values (hw.keys hy) hm
      exact ⟨k, h.find c, by rw [field?_of_live? hy, hg]; rfl, hidem c⟩
    · rintro ⟨k, c, hg, rfl⟩
      rw [field?_of_live? hy, Option.map_eq_some_iff] at hg
      obtain ⟨c, hg, rfl⟩ := hg
      exact ⟨c, Table.mem_values_of_get? hg, (hidem c).symm⟩
  have hp : (h.absorb x y).promoted =
      (if ex.deep && !ey.deep then ey.fields.values.map (h.forward y x).find else []) ++
        if ey.deep && !ex.deep then [x] else [] := by
    simp only [absorb, entity_of_live? hx, entity_of_live? hy, funext hfr]
  rw [hp, find_absorb_eq_forward, ← hchildren]
  cases ex.deep <;> cases ey.deep <;> simp

/-- Deferred edges still lead to ids of the heap. -/
theorem targets_absorb (hw : h.WellFormed) (hx : h.live? x = some ex)
    (hy : h.live? y = some ey) (hlt : x < y) {i t : EntityId} {e : Entity}
    (he : (h.absorb x y).heap.live? i = some e) (ha : e.Awaits t) : t < h.size := by
  by_cases hi : i = x
  · subst hi
    obtain ⟨e₀, hb, he₀⟩ := live?_absorb_self hw hx hy hlt
    rw [he₀] at he
    cases he
    rcases Entity.awaits_takeOver ha with ha | ha
    · exact hw.targets hx ((Entity.awaits_of_bare_eq hb t).mp ha)
    · exact hw.targets hy ha
  · by_cases hiy : i = y
    · rw [hiy, live?_absorb_gone hw hx hy hlt] at he
      cases he
    · have hb := live?_absorb_of_ne hw hx hy hlt hi hiy
      rw [he, Option.map_some] at hb
      obtain ⟨e₀, he₀, hb⟩ := Option.map_eq_some_iff.mp hb.symm
      exact hw.targets he₀ ((Entity.awaits_of_bare_eq hb t).mpr ha)

theorem wellFormed_absorb (hw : h.WellFormed) (hx : h.live? x = some ex)
    (hy : h.live? y = some ey) (hlt : x < y) : (h.absorb x y).heap.WellFormed := by
  have hr := hw.rewired hx hy hlt
  have hm : Alike Entity.edges (h.rewired x y).1
      ((h.rewired x y).1.update x (·.takeOver (h.entity y))) :=
    alike_update _ _ fun e => e.edges_takeOver _
  have hlinked : (h.rewired x y).1.Linked (fun _ _ => False) (fun _ _ => False) :=
    ⟨fun he hg => (hr.linked.fields he hg).imp id List.not_mem_nil,
      fun he hg => (hr.linked.parents he hg).imp id fun hs => List.not_mem_nil hs.2⟩
  have hdesc : (h.absorb x y).heap.Descending := by
    rw [absorb_heap]
    exact hm.descending hr.descending
  have hboth : (h.absorb x y).heap.Linked (fun _ _ => False) (fun _ _ => False) := by
    constructor <;> intro i e j k he
    all_goals rw [live?_absorb] at he
    all_goals simp only [live?_absorb]
    · exact (hm.linked hlinked).fields he
    · exact (hm.linked hlinked).parents he
  refine ⟨hdesc, ?_, ?_, hboth, ?_⟩
  · have htotal : (h.absorb x y).heap.liveTotal = (h.rewired x y).1.liveTotal :=
      liveTotal_update _ _ _
    rw [htotal, (alike_rewired h x y).total, liveTotal_forward hy, ← hw.count]
    rfl
  · intro i e he
    rw [live?_absorb] at he
    obtain ⟨e₀, he₀, hv⟩ := hm.of_live? he
    exact (Entity.edges_inj hv).1 ▸ hr.keys he₀
  · intro i e t he ha
    rw [size_absorb]
    exact targets_absorb hw hx hy hlt he ha

end Heap

end SinkTrace
