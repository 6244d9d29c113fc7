import Mathlib.Algebra.BigOperators.Group.List.Basic
import Mathlib.Data.List.Nodup

/-!
# Tables with a key

A table is a list of rows, in the order they were inserted, in which no two rows
have the same key: a primary key or a UNIQUE column. The three operations are
those of single-row SQL statements: look a row up by key, insert a row unless its
key is taken, change the row of a key without changing the key.

The distinctness of the keys is a field of the structure, kept by each operation, so
that looking up by key and searching the rows are the same (`get_of_mem`). The lemmas
say what each operation does to `get`, at its own key and at any other.
-/

universe u v

/-- Rows with distinct keys. -/
structure Table {ρ : Type u} {κ : Type v} (key : ρ → κ) where
  rows : List ρ
  nodup : (rows.map key).Nodup

namespace Table

variable {ρ : Type u} {κ : Type v} {key : ρ → κ} [DecidableEq κ]

/-- A table without rows. -/
def empty : Table key := ⟨[], List.nodup_nil⟩

/-- The row of a key. -/
def get (t : Table key) (k : κ) : Option ρ := t.rows.find? fun r => key r = k

/-- Insert, or `none` when the key is taken. -/
def insert? (t : Table key) (r : ρ) : Option (Table key) :=
  if h : key r ∈ t.rows.map key then none
  else some ⟨t.rows ++ [r], by
    rw [List.map_append, List.nodup_append]
    refine ⟨t.nodup, List.nodup_singleton _, ?_⟩
    intro a ha b hb heq
    rw [List.map_singleton, List.mem_singleton] at hb
    exact h (hb ▸ heq ▸ ha)⟩

/-- Change the row of a key. -/
def modify (t : Table key) (k : κ) (f : ρ → ρ) (hf : ∀ r, key (f r) = key r) : Table key :=
  ⟨t.rows.map fun r => if key r = k then f r else r, by
    have : (key ∘ fun r => if key r = k then f r else r) = key := by
      funext r
      dsimp only [Function.comp]
      split
      · exact hf r
      · rfl
    rw [List.map_map, this]
    exact t.nodup⟩

variable {t : Table key} {r : ρ} {k : κ}

/-- A row that is found is in the table, under its key. -/
theorem mem_of_get (h : t.get k = some r) : r ∈ t.rows ∧ key r = k :=
  ⟨List.mem_of_find?_eq_some h, by simpa using List.find?_some h⟩

/-- A row of the table is found under its key, since no other row has it. -/
theorem get_of_mem (h : r ∈ t.rows) : t.get (key r) = some r := by
  cases hg : t.get (key r) with
  | none => exact absurd (List.find?_eq_none.mp hg r h) (by simp)
  | some r' =>
    obtain ⟨hm, hid⟩ := mem_of_get hg
    rw [List.inj_on_of_nodup_map t.nodup hm h hid]

/-- Nothing is found under a key that no row has. -/
theorem get_eq_none : t.get k = none ↔ k ∉ t.rows.map key := by
  unfold get
  rw [List.find?_eq_none]
  simp only [decide_eq_true_eq, List.mem_map, not_exists, not_and]

/-- An insert succeeds exactly when the key is free. -/
theorem insert?_isSome : (t.insert? r).isSome = true ↔ t.get (key r) = none := by
  rw [get_eq_none]
  unfold insert?
  split
  next h => simp only [Option.isSome_none, Bool.false_eq_true, not_not.mpr h]
  next h => simp only [Option.isSome_some, h, not_false_eq_true]

/-- A new row goes to the end. -/
theorem rows_insert? {t' : Table key} (h : t.insert? r = some t') : t'.rows = t.rows ++ [r] := by
  unfold insert? at h
  split at h
  · cases h
  · cases h
    rfl

/-- It is found under its key, and the other rows as before. -/
theorem get_insert? {t' : Table key} (h : t.insert? r = some t') :
    t'.get k = if key r = k then some r else t.get k := by
  have hfree : t.get (key r) = none := insert?_isSome.mp (by rw [h]; rfl)
  have hrows := rows_insert? h
  unfold get at hfree ⊢
  rw [hrows, List.find?_append]
  by_cases hk : key r = k
  · subst hk
    rw [hfree, List.find?_cons_of_pos (by simp), if_pos rfl]
    rfl
  · rw [List.find?_cons_of_neg (by simpa using hk), if_neg hk]
    simp

/-- A change of one row leaves the others. -/
theorem get_modify {f : ρ → ρ} {hf : ∀ r, key (f r) = key r} {k' : κ} :
    (t.modify k' f hf).get k = (t.get k).map fun r => if key r = k' then f r else r := by
  unfold get modify
  rw [List.find?_map]
  congr 2
  funext r
  dsimp only [Function.comp]
  split
  · rw [hf]
  · rfl

end Table
