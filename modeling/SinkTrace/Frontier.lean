/-!
How much of a finite collection is still unseen. Searches that mark what they meet end because
each new mark lowers this number.
-/

namespace SinkTrace

variable {α : Type}

/-- Members of `all` that are not marked. -/
def unseen (all : List α) (seen : α → Bool) : Nat := all.countP fun x => !seen x

theorem unseen_le {all : List α} {seen more : α → Bool} (h : ∀ x, seen x = true → more x = true) :
    unseen all more ≤ unseen all seen := by
  apply List.countP_mono_left
  intro x _ hx
  cases hs : seen x with
  | false => rfl
  | true => simp [h x hs] at hx

theorem unseen_lt {all : List α} {seen more : α → Bool} {x : α}
    (h : ∀ x, seen x = true → more x = true) (hall : x ∈ all) (hseen : seen x = false)
    (hmore : more x = true) : unseen all more < unseen all seen := by
  induction all with
  | nil => simp at hall
  | cons y all ih =>
    have hle : unseen all more ≤ unseen all seen := unseen_le h
    simp only [unseen, List.countP_cons] at *
    rcases List.mem_cons.mp hall with rfl | hin
    · simp only [hmore, hseen, Bool.not_true, Bool.not_false, Bool.false_eq_true, ↓reduceIte]
      omega
    · have hlt := ih hin
      cases hs : seen y with
      | true =>
        simp only [h y hs, Bool.not_true, Bool.false_eq_true, ↓reduceIte]
        omega
      | false => cases more y <;> simp <;> omega

/-- What the unmarked members weigh together. -/
def unseenWeight (weight : α → Nat) (all : List α) (seen : α → Bool) : Nat :=
  all.foldr (fun x n => (if seen x then 0 else weight x) + n) 0

theorem unseenWeight_le {weight : α → Nat} {all : List α} {seen more : α → Bool}
    (h : ∀ x, seen x = true → more x = true) :
    unseenWeight weight all more ≤ unseenWeight weight all seen := by
  induction all with
  | nil => exact Nat.le_refl 0
  | cons y all ih =>
    simp only [unseenWeight, List.foldr_cons] at ih ⊢
    refine Nat.add_le_add ?_ ih
    cases hs : seen y with
    | true => simp [h y hs]
    | false => split <;> simp

/-- A member that is marked takes its weight away. -/
theorem unseenWeight_add_le {weight : α → Nat} {all : List α} {seen more : α → Bool} {x : α}
    (h : ∀ x, seen x = true → more x = true) (hall : x ∈ all) (hseen : seen x = false)
    (hmore : more x = true) :
    unseenWeight weight all more + weight x ≤ unseenWeight weight all seen := by
  induction all with
  | nil => simp at hall
  | cons y all ih =>
    have hle : unseenWeight weight all more ≤ unseenWeight weight all seen := unseenWeight_le h
    simp only [unseenWeight, List.foldr_cons] at *
    rcases List.mem_cons.mp hall with rfl | hin
    · simp only [hmore, hseen, Bool.false_eq_true, ↓reduceIte]
      omega
    · have hrest := ih hin
      cases hs : seen y with
      | true =>
        simp only [h y hs, ↓reduceIte]
        omega
      | false =>
        simp only [Bool.false_eq_true, ↓reduceIte]
        split <;> omega

theorem contains_of_subset [BEq α] [LawfulBEq α] {seen more : List α} (h : seen ⊆ more) (x : α)
    (hx : seen.contains x = true) : more.contains x = true := by
  simp only [List.contains_eq_mem, decide_eq_true_eq] at hx ⊢
  exact h hx

/-- Rewriting one element changes a sum by what that element contributes. -/
theorem foldr_modify (g : α → Nat) (f : α → α) {l : List α} {i : Nat} {a : α}
    (hi : l[i]? = some a) :
    (l.modify i f).foldr (g · + ·) 0 + g a = l.foldr (g · + ·) 0 + g (f a) := by
  induction l generalizing i with
  | nil => simp at hi
  | cons b l ih =>
    cases i with
    | zero =>
      cases hi
      simp only [List.modify_zero_cons, List.foldr_cons]
      omega
    | succ i =>
      have hrest := ih (i := i) (by simpa using hi)
      simp only [List.modify_succ_cons, List.foldr_cons]
      omega

end SinkTrace
