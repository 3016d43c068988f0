import Mathlib.Data.Finset.Prod
import SinkTrace.Interpreter.Walk

/-!
The control flow graph of a body. Control enters at the first instruction and at the entries of
the handlers, and goes on to the next instruction, to a target of a branch, or both.
-/

namespace SinkTrace

/-- Offsets that a branch or a switch sends control to. -/
def Instruction.targets (i : Instruction) : List Offset :=
  match i.opcode, i.operand with
  | .br, .target o | .brIf _, .target o | .compare _, .target o | .leave, .target o => [o]
  | .switch, .targets os => os
  | _, _ => []

/-- Whether control can go on to the next instruction. -/
def Instruction.fallsThrough (i : Instruction) : Bool :=
  match i.opcode with
  | .br | .leave | .ret | .throw | .rethrow | .endfinally | .endfilter => false
  | _ => true

namespace Body

/-- Instructions that the one at `i` can jump to. -/
def jumps (b : Body) (i : Nat) : List Nat :=
  ((b.code[i]?.map Instruction.targets).getD []).filterMap b.indexOf?

/-- Pairs of an instruction and an earlier one, or itself, that it can jump to. -/
def backward (b : Body) : Finset Edge :=
  (Finset.range b.size ×ˢ Finset.range b.size).filter fun e => e.2 ≤ e.1 ∧ e.2 ∈ b.jumps e.1

/-- Control can go from the instruction at `i` to another one. -/
inductive Leads (b : Body) (i : Nat) : Nat → Prop where
  | next {instruction : Instruction} (hi : b.code[i]? = some instruction)
    (hf : instruction.fallsThrough = true) (hn : i + 1 < b.size) : Leads b i (i + 1)
  | jump {instruction : Instruction} {offset : Offset} {j : Nat}
    (hi : b.code[i]? = some instruction) (ho : offset ∈ instruction.targets)
    (hj : b.indexOf? offset = some j) : Leads b i j

/-- Instructions that some path of the control flow graph reaches. -/
inductive Reaches (b : Body) : Nat → Prop where
  | first (hb : 0 < b.size) : Reaches b 0
  | handler {h : Handler} {offset : Offset} {i : Nat} (hh : h ∈ b.handlers)
    (ho : offset ∈ h.entries) (hi : b.indexOf? offset = some i) : Reaches b i
  | leads {i j : Nat} (hr : Reaches b i) (hl : b.Leads i j) : Reaches b j

variable {b : Body} {i j : Nat} {offset : Offset}

theorem lt_size_of_indexOf? (h : b.indexOf? offset = some i) : i < b.size := by
  have hm := List.mem_of_find?_eq_some h
  rwa [List.mem_reverse, List.mem_range] at hm

theorem Leads.lt_size (hl : b.Leads i j) : j < b.size := by
  cases hl with
  | next _ _ hn => exact hn
  | jump _ _ hj => exact lt_size_of_indexOf? hj

theorem mem_jumps {instruction : Instruction} (hi : b.code[i]? = some instruction) :
    j ∈ b.jumps i ↔ ∃ offset ∈ instruction.targets, b.indexOf? offset = some j := by
  simp [jumps, hi, List.mem_filterMap]

theorem mem_backward {instruction : Instruction} (hi : b.code[i]? = some instruction) (hle : j ≤ i)
    (hj : ∃ offset ∈ instruction.targets, b.indexOf? offset = some j) : (i, j) ∈ b.backward := by
  have hlt : i < b.size := (Array.getElem?_eq_some_iff.mp hi).1
  rw [backward, Finset.mem_filter, Finset.mem_product, Finset.mem_range, Finset.mem_range]
  exact ⟨⟨hlt, Nat.lt_of_le_of_lt hle hlt⟩, hle, (mem_jumps hi).mpr hj⟩

end Body

namespace Plan

/-- The path goes on at `j`: it waits there, or jumps back there. -/
def Serves (p : Plan) (j : Nat) : Prop := j ∈ p.joins ∨ p.back = some j

/-- What a plan does about its targets, `done` being those that were looked at: each is served, or
the end of an edge that had been followed before. -/
structure Routes (b : Body) (index : Nat) (taken : List Edge) (target : Nat → Prop)
    (done : List Offset) (p : Plan) : Prop where
  keeps : taken ⊆ p.taken
  serves : ∀ {j}, p.Serves j → target j ∧ (index < j ∨ ∃ t, p.back = some t ∧ t ≤ j)
  back : ∀ {t}, p.back = some t → t ≤ index ∧ (index, t) ∈ p.taken ∧ (index, t) ∉ taken
  fresh : ∀ {e}, e ∈ p.taken → e ∈ taken ∨ e.1 = index ∧ p.Serves e.2
  served : p.unknown = none → ∀ o ∈ done, ∃ j, b.indexOf? o = some j ∧
    (p.Serves j ∨ (index, j) ∈ taken)

variable {b : Body} {index i j : Nat} {taken : List Edge} {target : Nat → Prop}
  {done : List Offset} {offset : Offset} {p : Plan}

theorem serves_join :
    ({ p with joins := p.joins ++ [j] } : Plan).Serves i ↔ p.Serves i ∨ i = j := by
  simp only [Serves, List.mem_append, List.mem_singleton]
  tauto

theorem serves_addBack : (p.addBack j).Serves i ↔ p.Serves i ∨ i = j := by
  unfold addBack Serves
  split
  · rename_i hnone
    simp [hnone, eq_comm]
  · rename_i earlier he
    rw [he]
    split <;> simp only [List.mem_append, List.mem_singleton, Option.some.injEq] <;> grind

/-- The earliest of the targets is jumped back to. -/
theorem back_addBack : ∃ t, (p.addBack j).back = some t ∧ (t = j ∨ p.back = some t) ∧ t ≤ j ∧
    ∀ earlier, p.back = some earlier → t ≤ earlier := by
  unfold addBack
  split
  · rename_i hnone
    exact ⟨j, rfl, .inl rfl, Nat.le_refl _, by simp [hnone]⟩
  · rename_i earlier he
    split
    · rename_i hle
      refine ⟨earlier, he, .inr he, hle, fun t ht => ?_⟩
      cases he.symm.trans ht
      exact Nat.le_refl _
    · refine ⟨j, rfl, .inl rfl, Nat.le_refl _, fun t ht => ?_⟩
      cases he.symm.trans ht
      omega

theorem taken_addBack (p : Plan) (j : Nat) : (p.addBack j).taken = p.taken := by
  unfold addBack
  split
  · rfl
  · split <;> rfl

theorem unknown_addBack (p : Plan) (j : Nat) : (p.addBack j).unknown = p.unknown := by
  unfold addBack
  split
  · rfl
  · split <;> rfl

theorem routes_empty (b : Body) (index : Nat) (taken : List Edge) (target : Nat → Prop) :
    Routes b index taken target [] { taken } where
  keeps := List.Subset.refl taken
  serves hs := hs.elim nofun nofun
  back := nofun
  fresh := .inl
  served := nofun

/-- One more target has been looked at. -/
theorem Routes.serve (h : Routes b index taken target done p)
    (hj : p.unknown = none → ∃ j, b.indexOf? offset = some j ∧
      (p.Serves j ∨ (index, j) ∈ taken)) :
    Routes b index taken target (done ++ [offset]) p where
  keeps := h.keeps
  serves := h.serves
  back := h.back
  fresh := h.fresh
  served hu o ho := by
    rcases List.mem_append.mp ho with ho | ho
    · exact h.served hu o ho
    · cases List.mem_singleton.mp ho
      exact hj hu

theorem Routes.join (h : Routes b index taken target done p) (hj : target j) (hlt : index < j) :
    Routes b index taken target done { p with joins := p.joins ++ [j] } where
  keeps := h.keeps
  serves hs := by
    rcases serves_join.mp hs with hs | rfl
    · exact h.serves hs
    · exact ⟨hj, .inl hlt⟩
  back := h.back
  fresh he := (h.fresh he).imp_right fun ⟨hi, hs⟩ => ⟨hi, serves_join.mpr (.inl hs)⟩
  served hu o ho := by
    obtain ⟨i, hi, hs⟩ := h.served hu o ho
    exact ⟨i, hi, hs.imp_left fun hs => serves_join.mpr (.inl hs)⟩

theorem Routes.jumpBack (h : Routes b index taken target done p) (hj : target j)
    (hle : j ≤ index) (hnew : (index, j) ∉ p.taken) :
    Routes b index taken target done
      ({ p with taken := (index, j) :: p.taken }.addBack j) := by
  obtain ⟨t, ht, hfrom, htj, hleast⟩ := @back_addBack j { p with taken := (index, j) :: p.taken }
  have hserves : ∀ {i}, (({ p with taken := (index, j) :: p.taken } : Plan).addBack j).Serves i ↔
      p.Serves i ∨ i = j := serves_addBack
  refine ⟨fun e he => ?_, fun hs => ?_, fun hb => ?_, fun he => ?_, fun hu o ho => ?_⟩
  · rw [taken_addBack]
    exact List.mem_cons_of_mem _ (h.keeps he)
  · rcases hserves.mp hs with hs | rfl
    · obtain ⟨hti, hplace⟩ := h.serves hs
      refine ⟨hti, hplace.imp_right fun ⟨earlier, hb, hle⟩ => ?_⟩
      exact ⟨t, ht, Nat.le_trans (hleast earlier hb) hle⟩
    · exact ⟨hj, .inr ⟨t, ht, htj⟩⟩
  · cases ht.symm.trans hb
    rw [taken_addBack]
    rcases hfrom with rfl | hold
    · exact ⟨hle, List.mem_cons_self .., fun hm => hnew (h.keeps hm)⟩
    · obtain ⟨hti, hin, hout⟩ := h.back hold
      exact ⟨hti, List.mem_cons_of_mem _ hin, hout⟩
  · rw [taken_addBack] at he
    rcases List.mem_cons.mp he with rfl | he
    · exact .inr ⟨rfl, hserves.mpr (.inr rfl)⟩
    · exact (h.fresh he).imp_right fun ⟨hi, hs⟩ => ⟨hi, hserves.mpr (.inl hs)⟩
  · rw [unknown_addBack] at hu
    obtain ⟨i, hi, hs⟩ := h.served hu o ho
    exact ⟨i, hi, hs.imp_left fun hs => hserves.mpr (.inl hs)⟩

theorem Routes.add (h : Routes b index taken target done p)
    (ht : ∀ {j}, b.indexOf? offset = some j → target j) :
    Routes b index taken target (done ++ [offset]) (p.add b index offset) := by
  unfold Plan.add
  split
  · rename_i hu
    exact h.serve fun hnone => by simp [hnone] at hu
  · split
    · exact ⟨h.keeps, h.serves, h.back, h.fresh, nofun⟩
    · rename_i j hj
      split
      · rename_i hlt
        exact (h.join (ht hj) hlt).serve fun _ => ⟨j, hj, .inl (serves_join.mpr (.inr rfl))⟩
      · rename_i hge
        split
        · rename_i hm
          refine h.serve fun _ => ⟨j, hj, ?_⟩
          exact (h.fresh hm).symm.imp_left And.right
        · rename_i hnew
          refine (h.jumpBack (ht hj) (Nat.le_of_not_lt hge) hnew).serve fun _ => ⟨j, hj, ?_⟩
          exact .inl (serves_addBack.mpr (.inr rfl))

/-- The plan of a branch serves all of its targets, if all of them exist. -/
theorem routes_ofBranch (b : Body) (index : Nat) (taken : List Edge) (offsets : List Offset) :
    Routes b index taken (fun j => ∃ o ∈ offsets, b.indexOf? o = some j) offsets
      (ofBranch b index taken offsets) := by
  have hall : ∀ (rest done : List Offset) (p : Plan), done ++ rest = offsets →
      Routes b index taken (fun j => ∃ o ∈ offsets, b.indexOf? o = some j) done p →
      Routes b index taken (fun j => ∃ o ∈ offsets, b.indexOf? o = some j) offsets
        (rest.foldl (Plan.add b index) p) := by
    intro rest
    induction rest with
    | nil =>
      intro done p hd h
      rw [List.append_nil] at hd
      exact hd ▸ h
    | cons o rest ih =>
      intro done p hd h
      have ho : o ∈ offsets := hd ▸ by simp
      refine ih (done ++ [o]) _ (by simpa using hd) (h.add fun hj => ⟨o, ho, hj⟩)
  exact hall offsets [] { taken } rfl (routes_empty b index taken _)

end Plan

end SinkTrace
