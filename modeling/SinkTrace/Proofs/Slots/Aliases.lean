import SinkTrace.Proofs.Slots.Runs

/-!
Stores are seen through aliases. Where two slots share an entity, a store into a field through the
one is found by every load of that field through the other, whether the load was made before or
after the store, and whenever it is run.
-/

namespace SinkTrace

open Heap (Change Redrawn)

/-- One field more. -/
def Access.field (a : Access) (key : FieldName) : Access := ⟨a.start, a.path ++ [key]⟩

namespace Access

variable {h : Heap} {a b : Access} {key : FieldName} {w : EntityId}

theorem Rest.field (hr : Rest h a b) (key : FieldName) : Rest h (a.field key) (b.field key) := by
  obtain ⟨p, hp, hf⟩ := hr
  exact ⟨p, by rw [Access.field, Access.field, hp, List.append_assoc], hf⟩

theorem end?_field (hend : a.end? h = some w) (key : FieldName) :
    (a.field key).end? h = h.field? w key := Heap.follow?_concat_of_some hend key

/-- An access with a field more leads through the access without it. -/
theorem exists_end?_of_field (hend : (a.field key).end? h = some w) :
    ∃ x, a.end? h = some x := by
  rw [end?, Access.field, Heap.follow?_append, Option.bind_eq_some_iff] at hend
  obtain ⟨x, hx, -⟩ := hend
  exact ⟨x, hx⟩

end Access

namespace Store

variable {s s₀ later : Store} {a b o v x l id base : SlotId} {e : EntityId} {key : FieldName}

/-- The slots may hold one and the same entity. -/
def Shares (s : Store) (a b : SlotId) : Prop :=
  ∃ e ∈ (s.materialize a).1, e ∈ ((s.materialize a).2.materialize b).1

theorem symbolic_of_mem_materialize (he : e ∈ (s.materialize id).1) :
    (s.slot id).isOpaque = false := by
  cases hid : (s.slot id).isOpaque with
  | false => rfl
  | true =>
    rw [materialize_of_isOpaque hid] at he
    cases he

/-- Materializing a slot gives entities to no other one. -/
theorem symbolic_of_materialize (hid : ((s.materialize a).2.slot b).isOpaque = false) :
    (s.slot b).isOpaque = false := by
  cases hx : s.slot a with
  | fake | constant => rwa [materialize_of_isOpaque (by rw [hx]; rfl)] at hid
  | values es => rwa [materialize_of_values hx] at hid
  | pending loads =>
    rw [materialize_of_pending hx, slot_setSlot] at hid
    split at hid
    · rename_i hb
      rw [hb.1, hx]
      rfl
    · exact hid

theorem symbolic_of_materializeSingle
    (hid : ((s.materializeSingle a).2.slot b).isOpaque = false) : (s.slot b).isOpaque = false := by
  have hmem := @symbolic_of_mem_materialize s a
  have hfirst := @symbolic_of_materialize s a b
  unfold materializeSingle at hid
  generalize s.materialize a = result at *
  obtain ⟨es, grown⟩ := result
  match es with
  | [] | [e] => exact hfirst hid
  | first :: second :: rest =>
    simp only [slot_setSlot] at hid
    split at hid
    · rename_i hb
      exact hb.1 ▸ hmem (List.mem_cons_self ..)
    · exact hfirst hid

theorem Shares.symbolic (hs : s.Shares a b) :
    (s.slot a).isOpaque = false ∧ (s.slot b).isOpaque = false := by
  obtain ⟨e, ha, hb⟩ := hs
  exact ⟨symbolic_of_mem_materialize ha, symbolic_of_materialize (symbolic_of_mem_materialize hb)⟩

/-- Wherever the accesses of two slots that share an entity can be followed, one access of each
leads to one and the same entity. -/
theorem Shares.exists_end? (hshare : s.Shares a b) (hs : s.Sound) {h : Heap} (he : s.heap.Evolves h)
    (ha : ∀ p ∈ s.accesses a, ∃ w, p.end? h = some w)
    (hb : ∀ p ∈ s.accesses b, ∃ w, p.end? h = some w) :
    ∃ p ∈ s.accesses a, ∃ q ∈ s.accesses b, ∃ w, p.end? h = some w ∧ q.end? h = some w := by
  have hsymbolic := hshare.symbolic
  obtain ⟨e, hea, heb⟩ := hshare
  have hfirst := hs.materialize a
  have hsecond := hfirst.sound.materialize b
  obtain ⟨φ, hφ, hshows⟩ : Redrawn h id s.heap (s.materialize a).2.heap :=
    (hs.gathers_materialize a).redrawn he.proper he.grows.shows_drawn ha
  simp only [id_eq] at hφ
  -- the accesses that `b` has left after `a` was materialized can be followed as well
  obtain ⟨ψ, hψ, hshows'⟩ := (hfirst.sound.gathers_materialize b).redrawn he.proper hshows
    fun q hq => by
      obtain ⟨p, hp, path, hpath, hrest⟩ := hfirst.traced hsymbolic.2 hq
      obtain ⟨w, hw⟩ := hb p hp
      have hlt := hs.start_lt hp
      have hmid := hshows.follow? hfirst.sound.heap.wellFormed
        (Nat.lt_of_lt_of_le hlt hfirst.grows.size) hrest
      rw [hφ _ hlt] at hmid
      rw [Access.end?, hpath, Heap.follow?_append_of_some hmid, Heap.follow?_find] at hw
      have hsame := hshows.find (hfirst.sound.start_lt hq)
      exact ⟨w, (Heap.follow?_congr hsame _).trans hw⟩
  have hend : ∀ {p : Access}, p.start < s.heap.size →
      p.end? ((s.materialize a).2.materialize b).2.heap = some e →
      p.end? h = some (h.find (ψ e)) := by
    intro p hlt hp
    have hmid := hshows'.follow? hsecond.sound.heap.wellFormed
      (Nat.lt_of_lt_of_le hlt (hfirst.grows.trans hsecond.grows).size) hp
    rwa [hψ _ (Nat.lt_of_lt_of_le hlt hfirst.grows.size), hφ _ hlt] at hmid
  obtain ⟨p, hp, hpe⟩ := hs.mem_materialize.mp hea
  obtain ⟨q, hq, hqe⟩ := (hfirst.mem_materialize hsymbolic.2).mp heb
  have hpe' := hsecond.grows.follow? hpe
  rw [find_of_mem_materialize heb] at hpe'
  exact ⟨p, hp, q, hq, _, hend (hs.start_lt hp) hpe', hend (hs.start_lt hq) hqe⟩

/-! Storing. -/

/-- Each field of that name in one of the owners leads to the value. -/
theorem storeFields_evolves {h : Heap} (hp : h.Proper) {owners : List EntityId} {value : EntityId}
    (ho : ∀ owner ∈ owners, owner < h.size) (hv : value < h.size) (key : FieldName) :
    h.Evolves (owners.foldl (fun h o => h.storeField o key value) h) ∧
      ∀ owner ∈ owners, (owners.foldl (fun h o => h.storeField o key value) h).field? owner key =
        some ((owners.foldl (fun h o => h.storeField o key value) h).find value) := by
  have hall := @Heap.applyAll_evolves h (owners.map (Change.storeField · key value)) hp
    fun c hm => by
      obtain ⟨owner, hmem, rfl⟩ := List.mem_map.mp hm
      exact ⟨ho owner hmem, hv⟩
  rw [Heap.applyAll, List.foldl_map] at hall
  exact ⟨hall.1, fun owner hm => hall.2.2 _ (List.mem_map_of_mem hm)⟩

theorem symbolic_of_storeInto (hid : ((s.storeInto o key v).slot b).isOpaque = false) :
    (s.slot b).isOpaque = false := by
  have hfirst := @symbolic_of_materializeSingle s v b
  unfold Store.storeInto at hid
  generalize s.materializeSingle v = result at *
  obtain ⟨found, grown⟩ := result
  cases found with
  | none => exact hfirst hid
  | some e => exact hfirst (symbolic_of_materialize (a := o) hid)

/-- A store puts the one entity of the value behind the field of all that the owner stands for. -/
theorem Sound.storeInto (hs : s.Sound) (hv : (s.slot v).isOpaque = false) (o : SlotId)
    (key : FieldName) : ∃ e, (s.materializeSingle v).1 = some e ∧
      Evolves s (s.storeInto o key v) ∧ ∀ p ∈ s.accesses o,
        (p.field key).end? (s.storeInto o key v).heap =
          some ((s.storeInto o key v).heap.find e) := by
  obtain ⟨e, he, hsingled⟩ := hs.singled_materializeSingle hv
  have hfirst := hsingled.evolves
  have hsecond := hfirst.sound.materialize o
  have hreached := (hfirst.sound.gathers_materialize o).reached
  obtain ⟨hstored, hfields⟩ := storeFields_evolves hsecond.sound.heap
    (fun owner hm => hfirst.sound.mem_materialize_lt hm)
    (Nat.lt_of_lt_of_le hsingled.lt hsecond.grows.size) key
  have hlast := hsecond.sound.withHeap hstored
  have hform : s.storeInto o key v = { ((s.materializeSingle v).2.materialize o).2 with
      heap := ((s.materializeSingle v).2.materialize o).1.foldl
        (fun h owner => h.storeField owner key e)
        ((s.materializeSingle v).2.materialize o).2.heap } := by
    unfold Store.storeInto
    generalize s.materializeSingle v = result at he
    obtain ⟨found, grown⟩ := result
    cases he
    rfl
  rw [hform]
  refine ⟨e, he, hfirst.trans (hsecond.trans hlast), fun p hp => ?_⟩
  obtain ⟨q, hq, hrest⟩ := hfirst.kept hp
  obtain ⟨owner, hm, hend⟩ := hreached q hq
  rw [((hrest.grows hsecond.grows).grows hstored.grows |>.field key).end?_eq,
    Access.end?_field (hstored.grows.follow? hend)]
  rw [find_of_mem_materialize hm, Heap.field?_congr (Heap.find_find _ owner)]
  exact hfields owner hm

/-! Loading. -/

theorem mem_entities_alloc (he : e ∈ s.entities id) (y : Slot) :
    e ∈ (s.alloc y).2.entities id := by
  obtain ⟨es, hx, hm⟩ := mem_entities_iff.mp he
  have hlt : id < s.slots.size := lt_size_of_symbolic (by rw [hx]; rfl)
  refine mem_entities_iff.mpr ⟨es, ?_, hm⟩
  rw [slot_alloc, if_neg (Nat.ne_of_lt hlt), hx]

/-- A load stands for one field more behind each access of its base. -/
theorem mem_accesses_load {p : Access} (hp : p ∈ s.accesses base) (key : FieldName) :
    p.field key ∈ (s.load base key).2.accesses (s.load base key).1 := by
  unfold load accesses
  rw [slot_alloc_self]
  unfold accesses at hp
  cases hx : s.slot base with
  | fake | constant => simp [hx, accessesOf] at hp
  | values es =>
    rw [hx] at hp
    obtain ⟨e, he, rfl⟩ := List.mem_map.mp hp
    refine mem_accessesOf_pending.mpr ⟨_, List.mem_singleton_self _, e, ?_, rfl⟩
    exact mem_entities_alloc (mem_entities_iff.mpr ⟨es, hx, he⟩) _
  | pending loads =>
    rw [hx] at hp
    obtain ⟨l, hl, e, he, rfl⟩ := mem_accessesOf_pending.mp hp
    exact mem_accessesOf_pending.mpr ⟨_, List.mem_map_of_mem hl, e, mem_entities_alloc he _, rfl⟩

/-- Running `l` gives the field `key` of all that `x` stands for in `s`. -/
def Covers (s : Store) (x : SlotId) (key : FieldName) (later : Store) (l : SlotId) : Prop :=
  ∀ p ∈ s.accesses x, ∃ e ∈ (later.materialize l).1,
    (p.field key).end? (later.materialize l).2.heap = some e

theorem Evolves.covers (he : Evolves s later) {p : Access} (hp : p ∈ s.accesses l) :
    ∃ e ∈ (later.materialize l).1, p.end? (later.materialize l).2.heap = some e := by
  obtain ⟨q, hq, hrest⟩ := he.kept hp
  obtain ⟨e, hm, hend⟩ := (he.sound.gathers_materialize l).reached q hq
  refine ⟨e, hm, ?_⟩
  rw [(hrest.grows (he.sound.materialize l).grows).end?_eq, hend, find_of_mem_materialize hm]

/-- A load that was made before. -/
theorem covers_of_earlier (hs : s₀.Sound) (hx : (s₀.slot x).isOpaque = false)
    (he : Evolves (s₀.load x key).2 s) (hlater : Evolves s later) :
    Covers s x key later (s₀.load x key).1 := by
  intro p hp
  obtain ⟨q, hq, hrest⟩ := ((hs.load x key).trans he).traced hx hp
  obtain ⟨e, hm, hend⟩ := (he.trans hlater).covers (mem_accesses_load hq key)
  have hgrows := hlater.grows.trans (hlater.sound.materialize (s₀.load x key).1).grows
  exact ⟨e, hm, by rw [← ((hrest.grows hgrows).field key).end?_eq, hend]⟩

/-- A load that is made later. -/
theorem covers_of_later (he : Evolves s s₀) (hlater : Evolves (s₀.load x key).2 later) :
    Covers s x key later (s₀.load x key).1 := by
  intro p hp
  obtain ⟨q, hq, hrest⟩ := he.kept hp
  obtain ⟨e, hm, hend⟩ := hlater.covers (mem_accesses_load hq key)
  have hgrows := (he.sound.load x key).grows.trans
    (hlater.grows.trans (hlater.sound.materialize (s₀.load x key).1).grows)
  exact ⟨e, hm, by rw [((hrest.grows hgrows).field key).end?_eq, hend]⟩

/-- The store seen through an alias, which may be one only because of the store. -/
theorem Sound.alias_sees (hs : s.Sound) (hv : (s.slot v).isOpaque = false) {t : Store}
    (ht : t = s ∨ t = s.storeInto o key v) (hshare : t.Shares x o)
    (hlater : Evolves (s.storeInto o key v) later) (hcovers : Covers t x key later l) :
    ∃ e, (s.materializeSingle v).1 = some e ∧
      (later.materialize l).2.heap.find e ∈ (later.materialize l).1 := by
  obtain ⟨e, he, hstore, hfields⟩ := hs.storeInto hv o key
  have hend := hlater.trans (hlater.sound.materialize l)
  have hvalue : ∀ q ∈ t.accesses o, (q.field key).end? (later.materialize l).2.heap =
      some ((later.materialize l).2.heap.find e) := by
    have hbefore : ∀ q ∈ s.accesses o, (q.field key).end? (later.materialize l).2.heap =
        some ((later.materialize l).2.heap.find e) := fun q hq =>
      (hend.grows.follow? (hfields q hq)).trans (congrArg some (hend.grows.find e))
    intro q hq
    rcases ht with rfl | rfl
    · exact hbefore q hq
    · obtain ⟨p, hp, hrest⟩ := hstore.traced (symbolic_of_storeInto hshare.symbolic.2) hq
      rw [← ((hrest.grows hend.grows).field key).end?_eq]
      exact hbefore p hp
  have hgrows : Evolves t (later.materialize l).2 := by
    rcases ht with rfl | rfl
    · exact hstore.trans hend
    · exact hend
  have hsound : t.Sound := by
    rcases ht with rfl | rfl
    · exact hs
    · exact hstore.sound
  obtain ⟨p, hp, q, hq, w, hpw, hqw⟩ := hshare.exists_end? hsound
    ⟨hgrows.sound.heap, hgrows.grows⟩
    (fun p hp => by
      obtain ⟨e', -, hpe⟩ := hcovers p hp
      exact Access.exists_end?_of_field hpe)
    fun q hq => Access.exists_end?_of_field (hvalue q hq)
  obtain ⟨e', hm, hpe⟩ := hcovers p hp
  have hqe := hvalue q hq
  rw [Access.end?_field hpw] at hpe
  rw [Access.end?_field hqw, hpe, Option.some.injEq] at hqe
  exact ⟨e, he, hqe ▸ hm⟩

end Store

end SinkTrace
