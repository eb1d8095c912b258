/-
# Finite tables

A table is a finite map; what is looked up after inserting and erasing rows, and after writing the
rows of one table over another.
-/

import Mathlib.Data.List.AList

namespace ChironDB.Tables

/-- A finite map. -/
abbrev Table (K V : Type) : Type := AList fun _ : K => V

variable {K V : Type} [DecidableEq K]

theorem lookup_insert_eq (table : Table K V) (key other : K) (value : V) :
    (table.insert key value).lookup other =
      if other = key then some value else table.lookup other := by
  split
  · next h => rw [h, AList.lookup_insert]
  · next h => exact AList.lookup_insert_ne h

theorem lookup_erase_eq (table : Table K V) (key other : K) :
    (table.erase key).lookup other = if other = key then none else table.lookup other := by
  split
  · next h => rw [h, AList.lookup_erase]
  · next h => exact AList.lookup_erase_ne h

theorem mem_table {table : Table K V} {key : K} :
    key ∈ table ↔ ∃ value, table.lookup key = some value := by
  rw [← AList.lookup_isSome, Option.isSome_iff_exists]

theorem lookup_foldl_insert (rows base : Table K V) (key : K) :
    (rows.entries.foldl (fun table row => table.insert row.1 row.2) base).lookup key =
      (rows.lookup key).or (base.lookup key) := by
  obtain ⟨entries, hkeys⟩ := rows
  change _ = (entries.dlookup key).or (base.lookup key)
  induction entries generalizing base with
  | nil => rfl
  | cons row entries ih =>
    rw [List.nodupKeys_cons] at hkeys
    rw [List.foldl_cons, ih _ hkeys.2, lookup_insert_eq]
    by_cases hkey : row.1 = key
    · subst hkey
      have hnone : entries.dlookup row.1 = none := List.dlookup_eq_none.mpr hkeys.1
      rw [List.dlookup_cons_eq, hnone, if_pos rfl]
      rfl
    · rw [List.dlookup_cons_ne _ _ (Ne.symm hkey), if_neg (Ne.symm hkey)]

end ChironDB.Tables
