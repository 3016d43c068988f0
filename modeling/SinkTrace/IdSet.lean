import Std.Data.TreeMap
import Std.Data.TreeSet

/-!
Sets of ids and tables by id, in ascending order.
-/

namespace SinkTrace

abbrev IdSet := Std.TreeSet Nat

abbrev IdMap (α : Type) := Std.TreeMap Nat α

namespace IdSet

/-- The ids that are not in `seen`, each once, in the order in which they come up. -/
def newIn (seen : IdSet) : List Nat → List Nat
  | [] => []
  | id :: ids => if seen.contains id then newIn seen ids else id :: newIn (seen.insert id) ids

/-- The ids, each once, in the order in which they come up. -/
def distinct (ids : List Nat) : List Nat := newIn ∅ ids

def ofIds (ids : List Nat) : IdSet := ids.foldl (fun s id => s.insert id) ∅

theorem mem_foldl_insert (ids : List Nat) (s : IdSet) (id : Nat) :
    id ∈ ids.foldl (fun s id => s.insert id) s ↔ id ∈ ids ∨ id ∈ s := by
  induction ids generalizing s with
  | nil => simp
  | cons a ids ih =>
    simp only [List.foldl_cons, ih, Std.TreeSet.mem_insert, Nat.compare_eq_eq, List.mem_cons]
    constructor
    · rintro (hm | rfl | hm)
      · exact .inl (.inr hm)
      · exact .inl (.inl rfl)
      · exact .inr hm
    · rintro ((rfl | hm) | hm)
      · exact .inr (.inl rfl)
      · exact .inl hm
      · exact .inr (.inr hm)

theorem mem_ofIds (ids : List Nat) (id : Nat) : id ∈ ofIds ids ↔ id ∈ ids := by
  simp [ofIds, mem_foldl_insert]

theorem toList_empty : (∅ : IdSet).toList = [] := rfl

theorem size_empty : (∅ : IdSet).size = 0 := rfl

theorem size_pos_of_toList {s : IdSet} (h : s.toList ≠ []) : 0 < s.size := by
  rw [← Std.TreeSet.length_toList]
  exact List.length_pos_iff.mpr h

theorem contains_insert_self (s : IdSet) (id : Nat) : (s.insert id).contains id = true := by simp

theorem contains_insert_of_contains {s : IdSet} {id other : Nat} (h : s.contains other = true) :
    (s.insert id).contains other = true := by simp [Std.TreeSet.contains_insert, h]

theorem mem_newIn (seen : IdSet) (ids : List Nat) (id : Nat) :
    id ∈ newIn seen ids ↔ id ∈ ids ∧ id ∉ seen := by
  induction ids generalizing seen with
  | nil => simp [newIn]
  | cons a ids ih =>
    unfold newIn
    split
    · rename_i h
      rw [ih, List.mem_cons]
      constructor
      · exact fun hm => ⟨.inr hm.1, hm.2⟩
      · rintro ⟨rfl | hm, hn⟩
        · exact absurd h hn
        · exact ⟨hm, hn⟩
    · rename_i h
      rw [List.mem_cons, ih, List.mem_cons]
      simp only [Std.TreeSet.mem_insert, Nat.compare_eq_eq]
      constructor
      · rintro (rfl | ⟨hm, hn⟩)
        · exact ⟨.inl rfl, h⟩
        · exact ⟨.inr hm, fun hs => hn (.inr hs)⟩
      · rintro ⟨rfl | hm, hn⟩
        · exact .inl rfl
        · by_cases he : id = a
          · exact .inl he
          · exact .inr ⟨hm, fun hs => hs.elim (fun hx => he hx.symm) hn⟩

theorem mem_distinct (ids : List Nat) (id : Nat) : id ∈ distinct ids ↔ id ∈ ids := by
  simp [distinct, mem_newIn]

theorem newIn_newIn (seen : IdSet) (ids : List Nat) :
    newIn seen (newIn seen ids) = newIn seen ids := by
  induction ids generalizing seen with
  | nil => rfl
  | cons id ids ih =>
    by_cases h : seen.contains id = true
    · rw [newIn, if_pos h, ih]
    · rw [newIn, if_neg h, newIn, if_neg h, ih]

theorem distinct_distinct (ids : List Nat) : distinct (distinct ids) = distinct ids :=
  newIn_newIn ∅ ids

end IdSet

end SinkTrace
