/-!
Finite tables kept in insertion order. Writing under a known key replaces the value in place, so
the order of the keys is the order of their first write.
-/

namespace SinkTrace

structure Table (κ α : Type) where
  entries : List (κ × α) := []
deriving Repr, DecidableEq, Inhabited

namespace Table

variable {κ α : Type} [DecidableEq κ]

def find (key : κ) : List (κ × α) → Option α
  | [] => none
  | (k, v) :: rest => if k = key then some v else find key rest

def write (key : κ) (value : α) : List (κ × α) → List (κ × α)
  | [] => [(key, value)]
  | (k, v) :: rest => if k = key then (k, value) :: rest else (k, v) :: write key value rest

def get? (t : Table κ α) (key : κ) : Option α := find key t.entries

def insert (t : Table κ α) (key : κ) (value : α) : Table κ α := ⟨write key value t.entries⟩

def keys (t : Table κ α) : List κ := t.entries.map Prod.fst

def values (t : Table κ α) : List α := t.entries.map Prod.snd

def size (t : Table κ α) : Nat := t.entries.length

theorem find_write_self (key : κ) (value : α) (es : List (κ × α)) :
    find key (write key value es) = some value := by
  induction es with
  | nil => simp [write, find]
  | cons e es ih =>
    obtain ⟨k, v⟩ := e
    by_cases h : k = key <;> simp [write, find, h, ih]

theorem find_write_of_ne {key other : κ} (h : other ≠ key) (value : α) (es : List (κ × α)) :
    find other (write key value es) = find other es := by
  induction es with
  | nil => simp [write, find, h.symm]
  | cons e es ih =>
    obtain ⟨k, v⟩ := e
    by_cases hk : k = key
    · subst hk
      simp [write, find, h.symm]
    · simp only [write, hk, ↓reduceIte, find, ih]

@[simp]
theorem get?_insert_self (t : Table κ α) (key : κ) (value : α) :
    (t.insert key value).get? key = some value :=
  find_write_self key value t.entries

theorem get?_insert_of_ne (t : Table κ α) {key other : κ} (h : other ≠ key) (value : α) :
    (t.insert key value).get? other = t.get? other :=
  find_write_of_ne h value t.entries

theorem write_of_find_none {key : κ} {es : List (κ × α)} (h : find key es = none) (value : α) :
    write key value es = es ++ [(key, value)] := by
  induction es with
  | nil => rfl
  | cons e es ih =>
    obtain ⟨k, v⟩ := e
    by_cases hk : k = key
    · simp [find, hk] at h
    · simp only [find, hk, ↓reduceIte] at h
      simp [write, hk, ih h]

theorem find_eq_none_iff (key : κ) (es : List (κ × α)) :
    find key es = none ↔ key ∉ es.map Prod.fst := by
  induction es with
  | nil => simp [find]
  | cons e es ih =>
    obtain ⟨k, v⟩ := e
    by_cases h : k = key
    · simp [find, h]
    · have : key ≠ k := fun he => h he.symm
      simp [find, h, ih, this]

theorem get?_eq_none_iff (t : Table κ α) (key : κ) : t.get? key = none ↔ key ∉ t.keys :=
  find_eq_none_iff key t.entries

/-- A new key is added behind the others. -/
theorem keys_insert_of_get?_none {t : Table κ α} {key : κ} (h : t.get? key = none) (value : α) :
    (t.insert key value).keys = t.keys ++ [key] := by
  simp only [keys, insert, write_of_find_none h value, List.map_append, List.map_cons, List.map_nil]

end Table

end SinkTrace
