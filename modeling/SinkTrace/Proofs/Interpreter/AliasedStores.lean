import SinkTrace.Proofs.Interpreter.ReachedContexts
import SinkTrace.Proofs.Slots.Aliases

/-!
In every context that the interpreter can reach, a store into a field is seen through all aliases
of the owner, by loads that were made before as well as by later ones, and for good.
-/

namespace SinkTrace

namespace Context

/-- The context after a store into a field. -/
def storeInto (c : Context) (owner : SlotId) (key : FieldName) (value : SlotId) : Context :=
  { c with store := c.store.storeInto owner key value }

/-- The context after the load of a field. -/
def load (c : Context) (base : SlotId) (key : FieldName) : Context :=
  { c with store := (c.store.load base key).2 }

/-- The load of `key` from `x` was made in `c`, while `x` held something symbolic. -/
structure Loads (c : Context) (x : SlotId) (key : FieldName) (l : SlotId) : Prop where
  symbolic : (c.store.slot x).isOpaque = false
  slot : (c.store.load x key).1 = l

variable {c c₀ c' : Context} {o v x l : SlotId} {key : FieldName}

theorem develops_storeInto (hc : c.Sound) (o : SlotId) (key : FieldName) (v : SlotId) :
    c.Develops (c.storeInto o key v) := ⟨hc.store.steps_storeInto o key v, rfl⟩

theorem develops_load (c : Context) (x : SlotId) (key : FieldName) : c.Develops (c.load x key) :=
  ⟨(Store.Step.load x key).steps, rfl⟩

/-- Let two slots share an entity when a symbolic value is stored into a field through one of them,
or share one because of that store. Every load of that field through the other slot holds the
entity of the value from then on, whenever the load is made and whenever it is run. -/
theorem store_seen_through_aliases (hc : c.Reached) (hv : (c.store.slot v).isOpaque = false)
    (hshare : c.store.Shares x o ∨ (c.storeInto o key v).store.Shares x o)
    (hlater : Steps (c.storeInto o key v) c')
    (hload : (∃ c₀ : Context, c₀.Reached ∧ c₀.Loads x key l ∧ Steps (c₀.load x key) c) ∨
      ∃ c₁ : Context, Steps (c.storeInto o key v) c₁ ∧ c₁.Loads x key l ∧
        Steps (c₁.load x key) c') :
    ∃ e, (c.store.materializeSingle v).1 = some e ∧
      (c'.store.materialize l).2.heap.find e ∈ (c'.store.materialize l).1 := by
  have hsound := hc.sound
  have hstored := develops_storeInto hsound o key v
  have hlate := hlater.evolves (hstored.sound hsound)
  have hall := (hstored.steps.evolves hsound.store).trans hlate
  obtain ⟨t, ht, hshare, hto, hfrom⟩ : ∃ t, (t = c.store ∨ t = c.store.storeInto o key v) ∧
      t.Shares x o ∧ c.store.Evolves t ∧ t.Evolves (c.storeInto o key v).store := by
    rcases hshare with hs | hs
    · exact ⟨_, .inl rfl, hs, .refl hsound.store, hstored.steps.evolves hsound.store⟩
    · exact ⟨_, .inr rfl, hs, hstored.steps.evolves hsound.store,
        .refl (hstored.sound hsound).store⟩
  refine hsound.store.alias_sees hv ht hshare hlate ?_
  rcases hload with ⟨c₀, hc₀, ⟨hx, rfl⟩, hsteps⟩ | ⟨c₁, hsteps, ⟨-, rfl⟩, hrest⟩
  · have hloaded := (develops_load c₀ x key).sound hc₀.sound
    exact Store.covers_of_earlier hc₀.sound.store hx ((hsteps.evolves hloaded).trans hto)
      (hfrom.trans hlate)
  · have hbefore := hfrom.trans (hsteps.evolves (hstored.sound hsound))
    have hc₁ := (hsteps.develops (hstored.sound hsound)).sound (hstored.sound hsound)
    exact Store.covers_of_later hbefore
      (hrest.evolves ((develops_load c₁ x key).sound hc₁))

/-- Two entities, each in a slot. -/
def twin : Context :=
  let store : Store := { heap := ((Heap.create {} none).2.create none).2 }
  { start default [] false with store := ((store.entitySlot 0).2.entitySlot 1).2 }

/-- A pending load from the first one, and then one more slot for it. -/
def twinAlias : Context :=
  { twin.load 0 "next" with store := ((twin.load 0 "next").store.entitySlot 0).2 }

theorem reached_twin : twin.Reached := by
  refine ⟨_, .start default [] false, ?_⟩
  have hfirst : Steps (start default [] false)
      { start default [] false with store := { heap := (Heap.create {} none).2 } } :=
    .single (.store (.heap (.create none)))
  have hsecond := hfirst.tail (.store (.heap (.create none)))
  have hthird := hsecond.tail (.store (.entitySlot (e := 0) (by decide)))
  exact hthird.tail (.store (.entitySlot (e := 1) (by decide)))

theorem steps_twinAlias : Steps (twin.load 0 "next") twinAlias :=
  .single (.store (.entitySlot (by decide)))

theorem twinAlias_shares : twinAlias.store.Shares 0 3 := by
  have hfind : twinAlias.store.heap.find 0 = 0 := by
    change ((Heap.create {} none).2.create none).2.find 0 = 0
    rw [Heap.find_create, Heap.find_create]
    exact Heap.find_of_size_le (Nat.le_refl 0)
  have hfirst : twinAlias.store.materialize 0 =
      (Store.distinct twinAlias.store.heap [0], twinAlias.store) :=
    Store.materialize_of_values (show twinAlias.store.slot 0 = .values [0] from rfl)
  have hlast : twinAlias.store.materialize 3 =
      (Store.distinct twinAlias.store.heap [0], twinAlias.store) :=
    Store.materialize_of_values (show twinAlias.store.slot 3 = .values [0] from rfl)
  have hmem : 0 ∈ Store.distinct twinAlias.store.heap [0] :=
    Store.mem_distinct.mpr ⟨0, List.mem_singleton_self 0, hfind⟩
  rw [Store.Shares, hfirst, hlast]
  exact ⟨0, hmem, hmem⟩

/-- The load was made first, from the slot that is not stored through. -/
theorem twinAlias_store_seen : twinAlias.Reached ∧ twinAlias.store.Shares 0 3 ∧
    ∃ e, (twinAlias.store.materializeSingle 1).1 = some e ∧
      ((twinAlias.storeInto 3 "next" 1).store.materialize 2).2.heap.find e ∈
        ((twinAlias.storeInto 3 "next" 1).store.materialize 2).1 := by
  have hloaded : twin.Loads 0 "next" 2 := ⟨rfl, rfl⟩
  have hload : Step twin (twin.load 0 "next") := .store (.load 0 "next")
  have hreached : twinAlias.Reached := by
    obtain ⟨fresh, hf, hsteps⟩ := reached_twin
    exact ⟨fresh, hf, (hsteps.tail hload).trans steps_twinAlias⟩
  exact ⟨hreached, twinAlias_shares, store_seen_through_aliases hreached rfl
    (.inl twinAlias_shares) .refl (.inl ⟨twin, reached_twin, hloaded, steps_twinAlias⟩)⟩

end Context

end SinkTrace
