import SinkTrace.Heap.Marking

/-!
How many edges still wait for their owner to become input. Raising taints and marking input leave
the number alone, and taking edges lowers it, so firing edges comes to an end.
-/

namespace SinkTrace

theorem foldr_modify_le {α : Type} (g : α → Nat) (f : α → α) (hf : ∀ a, g (f a) ≤ g a)
    (l : List α) (i : Nat) : (l.modify i f).foldr (g · + ·) 0 ≤ l.foldr (g · + ·) 0 := by
  induction l generalizing i with
  | nil => simp
  | cons a l ih =>
    cases i with
    | zero =>
      have := hf a
      simp
      omega
    | succ i =>
      have := ih i
      simp
      omega

namespace Heap

theorem deferred_update_le (h : Heap) (id : EntityId) (f : Entity → Entity)
    (hf : ∀ e, (f e).deferred ≤ e.deferred) : (h.update id f).deferred ≤ h.deferred := by
  unfold deferred update
  rw [Array.toList_modify]
  apply foldr_modify_le Node.deferred
  intro n
  cases n with
  | live e => exact hf e
  | forwarded next => exact Nat.le_refl _

/-- Lowering the number at a live entity lowers the whole. -/
theorem deferred_update_lt (h : Heap) (id : EntityId) (f : Entity → Entity)
    (hf : (f (h.entity id)).deferred < (h.entity id).deferred) :
    (h.update id f).deferred < h.deferred := by
  cases hn : h.nodes[h.find id]? with
  | none => simp [entity, hn, Entity.deferred] at hf
  | some n =>
    cases n with
    | forwarded next => simp [entity, hn, Entity.deferred] at hf
    | live e =>
      have he : h.entity id = e := by simp [entity, hn]
      rw [he] at hf
      have hsum := foldr_modify Node.deferred (modifyLive f) (l := h.nodes.toList)
        (by rwa [Array.getElem?_toList])
      unfold deferred update
      rw [Array.toList_modify]
      simp only [modifyLive, Node.deferred] at hsum ⊢
      omega

theorem deferred_raiseTaint_le (h : Heap) (id : EntityId) (taint : TaintId)
    (stack : Option CallStack) : (h.raiseTaint id taint stack).2.deferred ≤ h.deferred := by
  unfold raiseTaint
  simp only
  split
  · exact Nat.le_refl _
  · exact deferred_update_le h _ _ (fun _ => Nat.le_refl _)

theorem deferred_markAll_le (h : Heap) (work : List EntityId) :
    (h.markAll work).deferred ≤ h.deferred := by
  fun_induction markAll h work with
  | case1 => exact Nat.le_refl _
  | case2 h id rest _ ih =>
    exact Nat.le_trans ih (deferred_update_le h _ _ (fun _ => Nat.le_refl _))
  | case3 h id rest _ ih => exact ih

theorem deferred_markInput_le (h : Heap) (id : EntityId) :
    (h.markInput id).deferred ≤ h.deferred := deferred_markAll_le h [id]

/-- One heap follows another one in which edges were fired: fewer edges wait, or nothing was
fired and nothing new was logged. -/
def Fired (next h : Heap) : Prop :=
  next.deferred < h.deferred ∨ next.deferred ≤ h.deferred ∧ next.transitions = h.transitions

theorem Fired.refl (h : Heap) : Fired h h := .inr ⟨Nat.le_refl _, rfl⟩

theorem Fired.trans {a b c : Heap} (h₁ : Fired a b) (h₂ : Fired b c) : Fired a c := by
  rcases h₁ with h₁ | ⟨h₁, t₁⟩
  · rcases h₂ with h₂ | ⟨h₂, _⟩
    · exact .inl (Nat.lt_trans h₁ h₂)
    · exact .inl (Nat.lt_of_lt_of_le h₁ h₂)
  · rcases h₂ with h₂ | ⟨h₂, t₂⟩
    · exact .inl (Nat.lt_of_le_of_lt h₁ h₂)
    · exact .inr ⟨Nat.le_trans h₁ h₂, t₁.trans t₂⟩

theorem deferred_drainTransitions (h : Heap) : h.drainTransitions.2.deferred = h.deferred := rfl

/-- What settling still has to do. An edge that fires may leave changes to look at. -/
def unsettled (h : Heap) : Nat := 2 * h.deferred + min 1 h.transitions.size

/-- What was logged has been drained, and either edges were fired or the log is still empty. -/
theorem Fired.drained {next h : Heap} (hd : h.drainTransitions.1 ≠ [])
    (hf : Fired next h.drainTransitions.2) : next.unsettled < h.unsettled := by
  have hs : 0 < h.transitions.size := by
    rcases Nat.eq_zero_or_pos h.transitions.size with h0 | h0
    · have he := Array.eq_empty_of_size_eq_zero h0
      exact absurd (by simp [drainTransitions, he, IdSet.distinct, IdSet.newIn]) hd
    · exact h0
  unfold unsettled
  rcases hf with hlt | ⟨hle, ht⟩
  · rw [deferred_drainTransitions] at hlt
    omega
  · rw [deferred_drainTransitions] at hle
    have hz : next.transitions.size = 0 := by rw [ht]; rfl
    omega

end Heap

end SinkTrace
