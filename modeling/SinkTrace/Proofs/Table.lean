import SinkTrace.Table

/-!
Tables whose keys are distinct, as all tables are that were filled by writing to them: looking up a
key and going through the entries then say the same.
-/

namespace SinkTrace

namespace Table

variable {κ α : Type} [DecidableEq κ]

theorem mem_of_find {key : κ} {value : α} {es : List (κ × α)} (h : find key es = some value) :
    (key, value) ∈ es := by
  induction es with
  | nil => simp [find] at h
  | cons e es ih =>
    obtain ⟨k, v⟩ := e
    by_cases hk : k = key
    · simp only [find, hk, ↓reduceIte, Option.some.injEq] at h
      simp [hk, h]
    · simp only [find, hk, ↓reduceIte] at h
      exact List.mem_cons_of_mem _ (ih h)

theorem find_of_mem {key : κ} {value : α} {es : List (κ × α)} (hd : (es.map Prod.fst).Nodup)
    (hm : (key, value) ∈ es) : find key es = some value := by
  induction es with
  | nil => simp at hm
  | cons e es ih =>
    obtain ⟨k, v⟩ := e
    simp only [List.map_cons, List.nodup_cons] at hd
    rcases List.mem_cons.mp hm with he | hm
    · cases he
      simp [find]
    · have hne : k ≠ key := by
        rintro rfl
        exact hd.1 (List.mem_map.mpr ⟨(k, value), hm, rfl⟩)
      simp [find, hne, ih hd.2 hm]

theorem mem_entries_iff {t : Table κ α} (hd : t.keys.Nodup) (key : κ) (value : α) :
    (key, value) ∈ t.entries ↔ t.get? key = some value :=
  ⟨find_of_mem hd, mem_of_find⟩

theorem mem_values_of_get? {t : Table κ α} {key : κ} {value : α} (h : t.get? key = some value) :
    value ∈ t.values := List.mem_map.mpr ⟨(key, value), mem_of_find h, rfl⟩

theorem exists_get?_of_mem_values {t : Table κ α} (hd : t.keys.Nodup) {value : α}
    (hm : value ∈ t.values) : ∃ key, t.get? key = some value := by
  obtain ⟨⟨key, v⟩, he, rfl⟩ := List.mem_map.mp hm
  exact ⟨key, find_of_mem hd he⟩

theorem keys_write_of_mem {key : κ} (value : α) {es : List (κ × α)}
    (hm : key ∈ es.map Prod.fst) : (write key value es).map Prod.fst = es.map Prod.fst := by
  induction es with
  | nil => simp at hm
  | cons e es ih =>
    obtain ⟨k, v⟩ := e
    by_cases hk : k = key
    · simp [write, hk]
    · have hm : key ∈ es.map Prod.fst := by
        rcases List.mem_cons.mp hm with he | hm
        · exact absurd he.symm hk
        · exact hm
      simp only [write, hk, ↓reduceIte, List.map_cons, ih hm]

/-- Writing keeps the keys distinct. -/
theorem nodup_keys_insert {t : Table κ α} (hd : t.keys.Nodup) (key : κ) (value : α) :
    (t.insert key value).keys.Nodup := by
  by_cases hm : key ∈ t.keys
  · have he : (t.insert key value).keys = t.keys := keys_write_of_mem value hm
    rwa [he]
  · rw [keys_insert_of_get?_none ((get?_eq_none_iff t key).mpr hm)]
    refine List.nodup_append.mpr ⟨hd, by simp, ?_⟩
    intro a ha b hb
    rw [List.mem_singleton] at hb
    subst hb
    exact fun he => hm (he ▸ ha)

theorem get?_insert (t : Table κ α) (key other : κ) (value : α) :
    (t.insert key value).get? other = if other = key then some value else t.get? other := by
  by_cases h : other = key
  · simp [h]
  · rw [get?_insert_of_ne t h, if_neg h]

end Table

end SinkTrace
