import WordC.Table

/-!
# Tables without repeated names

A table is searched by name, but a scope also looks through the entries of a table for a value. The
two agree when no name stands twice among the entries, and no table that is filled by `set` has a
name twice.
-/

namespace WordC.Table

variable {α : Type} {t : Table α}

variable {key : String} {value : α} {es : List (String × α)}

theorem mem_of_find? (h : find? key es = some value) :
    (key, value) ∈ es := by
  induction es with
  | nil => exact nomatch h
  | cons e es ih =>
    obtain ⟨k, v⟩ := e
    rw [find?] at h
    by_cases hk : k = key
    · rw [if_pos hk] at h
      rw [hk, Option.some.inj h]
      exact List.mem_cons_self
    · rw [if_neg hk] at h
      exact List.mem_cons_of_mem _ (ih h)

theorem find?_of_mem (hes : (es.map (·.1)).Nodup)
    (h : (key, value) ∈ es) : find? key es = some value := by
  induction es with
  | nil => exact absurd h List.not_mem_nil
  | cons e es ih =>
    obtain ⟨k, v⟩ := e
    rw [List.map_cons, List.nodup_cons] at hes
    rw [find?]
    rcases List.mem_cons.mp h with he | hmem
    · obtain ⟨rfl, rfl⟩ := Prod.mk.inj he
      rw [if_pos rfl]
    · have hk : k ≠ key := by
        rintro rfl
        exact hes.1 (List.mem_map.mpr ⟨(k, value), hmem, rfl⟩)
      rw [if_neg hk]
      exact ih hes.2 hmem

/-- Looking for a name and looking among the entries is the same. -/
theorem mem_entries_iff (ht : t.keys.Nodup) :
    (key, value) ∈ t.entries ↔ t.get? key = some value :=
  ⟨find?_of_mem ht, mem_of_find?⟩

theorem isSome_find?_of_mem {e : String × α} (h : e ∈ es) :
    (find? e.1 es).isSome = true := by
  induction es with
  | nil => exact absurd h List.not_mem_nil
  | cons first es ih =>
    rw [find?]
    by_cases hk : first.1 = e.1
    · rw [if_pos hk]
      rfl
    · rw [if_neg hk]
      rcases List.mem_cons.mp h with rfl | hrest
      · exact absurd rfl hk
      · exact ih hrest

theorem contains_of_mem_keys (h : key ∈ t.keys) : t.contains key = true := by
  obtain ⟨e, hmem, rfl⟩ := List.mem_map.mp h
  exact isSome_find?_of_mem hmem

theorem nodup_keys_set (ht : t.keys.Nodup) (key : String) (value : α) :
    (t.set key value).keys.Nodup := by
  rw [keys_set]
  split
  · exact ht
  · next hkey =>
    rw [List.nodup_append]
    refine ⟨ht, List.nodup_cons.mpr ⟨List.not_mem_nil, List.nodup_nil⟩, ?_⟩
    intro k hk j hj hkj
    rw [List.mem_singleton] at hj
    rw [hkj, hj] at hk
    exact hkey (contains_of_mem_keys hk)

end WordC.Table
