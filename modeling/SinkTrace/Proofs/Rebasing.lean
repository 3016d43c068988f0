import SinkTrace.Proofs.Paths

/-!
Moving a snapshot from one call site to the next. A summary is moved once for each level of the
chain of calls above it, so two moves in a row have to be the one move they stand for, and a move
to where the snapshot already is must change nothing. The split is found by the depth that a stack
carries; it is made at the right frame because that depth is the number of frames.
-/

namespace SinkTrace.CallStack

variable {s t b b₁ b₂ : CallStack} {d : Nat}

/-- The stacks that calls, returns and moves of snapshots make. -/
inductive Made : CallStack → Prop where
  | empty : Made empty
  | push {s : CallStack} (hs : Made s) (key : SummaryKey) : Made (s.push key)
  | pop {s : CallStack} (hs : Made s) : Made s.pop
  | rebase {s base : CallStack} (hs : Made s) (depth : Nat) (hb : Made base) :
    Made (s.rebase depth base)

theorem Counted.pop (hs : s.Counted) : s.pop.Counted := by
  obtain ⟨frames, depth⟩ := s
  cases frames with
  | nil => exact hs
  | cons key rest => exact congrArg Nat.pred hs

theorem Made.counted (hs : s.Made) : s.Counted := by
  induction hs with
  | empty => exact counted_empty
  | push _ key ih => exact ih.push key
  | pop _ ih => exact ih.pop
  | rebase _ depth _ _ ihb => exact ihb.rebase _ depth

/-- Stacks are told apart by their frames alone. -/
theorem Counted.ext (hs : s.Counted) (ht : t.Counted) (h : s.toList = t.toList) : s = t := by
  have hframes : s.frames = t.frames := List.reverse_injective h
  have hdepth : s.depth = t.depth := hs.trans ((congrArg List.length hframes).trans ht.symm)
  obtain ⟨frames, depth⟩ := s
  cases hframes
  cases hdepth
  rfl

theorem rebase_of_lt (h : s.depth < d) (b : CallStack) : s.rebase d b = b := if_pos h

theorem depth_rebase_of_le (hs : s.Counted) (hb : b.Counted) (h : d ≤ s.depth) :
    (s.rebase d b).depth = b.depth + s.depth - d := by
  have hlength := congrArg List.length (toList_rebase_of_le h b)
  rw [(hb.rebase s d).length_toList, List.length_append, hb.length_toList, List.length_drop,
    hs.length_toList] at hlength
  omega

/-- The second move undoes the first one down to the frames that were kept. -/
theorem rebase_rebase (hb₁ : b₁.Counted) (hb₂ : b₂.Counted) (s : CallStack) (d : Nat) :
    (s.rebase d b₁).rebase b₁.depth b₂ = s.rebase d b₂ := by
  by_cases h : s.depth < d
  · -- both moves replace everything: the first one leaves `b₁`, which has no frames above itself
    rw [rebase_of_lt h, rebase_of_lt h]
    refine (hb₂.rebase _ _).ext hb₂ ?_
    rw [toList_rebase_of_le (Nat.le_refl _), ← hb₁.length_toList, List.drop_length,
      List.append_nil]
  · have hd := Nat.le_of_not_lt h
    have hmoved := toList_rebase_of_le hd b₁
    have hlength := congrArg List.length hmoved
    rw [(hb₁.rebase s d).length_toList, List.length_append, hb₁.length_toList] at hlength
    refine (hb₂.rebase _ _).ext (hb₂.rebase _ _) ?_
    rw [toList_rebase_of_le (by omega), hmoved, List.drop_left' hb₁.length_toList,
      toList_rebase_of_le hd]

/-- A move to the frames that are there already. -/
theorem rebase_take (hs : s.Counted) (hb : b.Counted) (h : d ≤ s.depth)
    (hp : b.toList = s.toList.take d) : s.rebase d b = s := by
  refine (hb.rebase s d).ext hs ?_
  rw [toList_rebase_of_le h, hp, List.take_append_drop]

theorem all_zip_eq_beq {keys keys' : List SummaryKey} (h : keys.length = keys'.length) :
    ((keys.zip keys').all fun x => x.1 == x.2) = (keys == keys') := by
  induction keys generalizing keys' with
  | nil =>
    cases List.length_eq_zero_iff.mp h.symm
    rfl
  | cons key keys ih =>
    cases keys' with
    | nil => cases h
    | cons key' keys' =>
      rw [List.zip_cons_cons, List.all_cons, List.cons_beq_cons, ih (Nat.succ.inj h)]

/-- Frames can be compared pair by pair from the most recent call on, as far as both stacks go: the
depths tell apart a stack and one that goes on below it. -/
theorem sameFrames_eq_zip (hs : s.Counted) (ht : t.Counted) :
    s.sameFrames t =
      (s.depth == t.depth && (s.frames.zip t.frames).all fun x => x.1 == x.2) := by
  unfold sameFrames
  by_cases h : s.depth = t.depth
  · rw [all_zip_eq_beq (hs.symm.trans (h.trans ht))]
  · rw [beq_false_of_ne h, Bool.false_and, Bool.false_and]

theorem sameFrames_iff_toList (hs : s.Counted) (ht : t.Counted) :
    s.sameFrames t = true ↔ s.toList = t.toList :=
  sameFrames_iff.trans ⟨congrArg toList, hs.ext ht⟩

/-- Two moves in a row are one move, a move to the same place is none, and a moved snapshot stands
on its new base with what was above the old one. -/
theorem Made.rebase_laws (hs : s.Made) (hb₁ : b₁.Made) (hb₂ : b₂.Made) (d : Nat) :
    ((s.rebase d b₁).rebase b₁.depth b₂).sameFrames (s.rebase d b₂) = true ∧
    (d ≤ s.depth →
      (∀ p : CallStack, p.Made → p.toList = s.toList.take d →
        (s.rebase d p).sameFrames s = true) ∧
      (s.rebase d b₂).depth = b₂.depth + s.depth - d ∧
      (s.rebase d b₂).toList = b₂.toList ++ s.toList.drop d) ∧
    s.depth = s.toList.length ∧
    (s.sameFrames b₁ = true ↔ s.toList = b₁.toList) ∧
    s.sameFrames b₁ =
      (s.depth == b₁.depth && (s.frames.zip b₁.frames).all fun x => x.1 == x.2) := by
  refine ⟨?_, fun hd => ⟨fun p hm hp => ?_, ?_, ?_⟩, ?_, ?_, ?_⟩
  · exact sameFrames_iff.mpr (rebase_rebase hb₁.counted hb₂.counted s d)
  · exact sameFrames_iff.mpr (rebase_take hs.counted hm.counted hd hp)
  · exact depth_rebase_of_le hs.counted hb₂.counted hd
  · exact toList_rebase_of_le hd b₂
  · exact hs.counted.length_toList.symm
  · exact sameFrames_iff_toList hs.counted hb₁.counted
  · exact sameFrames_eq_zip hs.counted hb₁.counted

/-- A snapshot of depth three, taken when its callee stood at depth two, is moved to the depth one
and then to the depth two. -/
theorem Made.rebase_laws_ACD :
    ∃ s b₁ b₂ : CallStack, s.Made ∧ b₁.Made ∧ b₂.Made ∧ b₁.depth = 1 ∧ b₂.depth = 2 ∧
      s.toList = [⟨.concrete, "A"⟩, ⟨.concrete, "C"⟩, ⟨.concrete, "D"⟩] ∧
      ((s.rebase 2 b₁).rebase 1 b₂).sameFrames (s.rebase 2 b₂) = true ∧
      (s.rebase 2 s.pop).sameFrames s = true ∧
      (s.rebase 2 b₂).toList = [⟨.virtual, "B"⟩, ⟨.concrete, "C"⟩, ⟨.concrete, "D"⟩] := by
  have hs : (ofList [⟨.concrete, "A"⟩, ⟨.concrete, "C"⟩, ⟨.concrete, "D"⟩]).Made :=
    .push (.push (.push .empty _) _) _
  have hb₁ : (ofList [⟨.concrete, "C"⟩]).Made := .push .empty _
  have hb₂ : (ofList [⟨.virtual, "B"⟩, ⟨.concrete, "C"⟩]).Made := .push (.push .empty _) _
  obtain ⟨htwice, hdeep, _⟩ := Made.rebase_laws hs hb₁ hb₂ 2
  obtain ⟨hself, _, hlist⟩ := hdeep (by decide)
  exact ⟨_, _, _, hs, hb₁, hb₂, rfl, rfl, rfl, htwice, hself _ hs.pop rfl, hlist⟩

end SinkTrace.CallStack
