/-!
Sets of names as lists without repetition, in the order in which the names were added.
-/

namespace SinkTrace

abbrev NameSet := List String

namespace NameSet

def insert (s : NameSet) (name : String) : NameSet := if s.elem name then s else s ++ [name]

def union (s more : NameSet) : NameSet := more.foldl insert s

theorem mem_insert (s : NameSet) (name other : String) :
    other ∈ s.insert name ↔ other ∈ s ∨ other = name := by
  unfold insert
  split
  · rename_i h
    have hm : name ∈ s := by simpa using h
    exact ⟨Or.inl, fun h => h.elim id (fun he => he ▸ hm)⟩
  · simp

theorem mem_union (s more : NameSet) (name : String) :
    name ∈ s.union more ↔ name ∈ s ∨ name ∈ more := by
  induction more generalizing s with
  | nil => simp [union]
  | cons a more ih =>
    have := ih (s.insert a)
    simp only [union, List.foldl_cons] at this ⊢
    rw [this, mem_insert, List.mem_cons]
    exact or_assoc

end NameSet

end SinkTrace
