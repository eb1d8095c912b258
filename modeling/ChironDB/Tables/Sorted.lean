/-
# Maps in key order

A list of entries with strictly ascending keys, which is how an ordered tree lists its
contents.  Such a list is determined by its lookups, so two maps are equal as soon as they
hold the same value under every key.  `TreeMap` bundles a list with its order.
-/

import Mathlib.Data.List.Nodup
import Mathlib.Data.List.Sort
import Mathlib.Order.Basic

namespace ChironDB.Tables

open List

variable {K V : Type} [LinearOrder K]

theorem lookup_cons_eq (entry : K × V) (entries : List (K × V)) (key : K) :
    (entry :: entries).lookup key = if key = entry.1 then some entry.2 else entries.lookup key := by
  rw [lookup_cons]
  by_cases hk : key = entry.1
  · rw [if_pos hk, beq_iff_eq.mpr hk]
  · rw [if_neg hk, beq_eq_false_iff_ne.mpr hk]

/-- No two of the entries have one key. -/
def Distinct (entries : List (K × V)) : Prop := entries.Pairwise fun a b => a.1 ≠ b.1

variable {entries : List (K × V)} {value : V} {key : K}

theorem Distinct.lookup_eq_some_iff (h : Distinct entries) :
    entries.lookup key = some value ↔ (key, value) ∈ entries := by
  induction entries with
  | nil => simp
  | cons entry entries ih =>
    obtain ⟨hhead, htail⟩ := pairwise_cons.mp h
    obtain ⟨k, v⟩ := entry
    rw [lookup_cons_eq, mem_cons, Prod.mk.injEq]
    by_cases hk : key = k
    · rw [if_pos hk, Option.some.injEq]
      constructor
      · intro hv
        exact .inl ⟨hk, hv.symm⟩
      · rintro (⟨-, hv⟩ | hmem)
        · exact hv.symm
        · exact absurd hk.symm (hhead _ hmem)
    · rw [if_neg hk, ih htail]
      simp [hk]

/-- The entries come in strictly ascending key order. -/
def Ascending (entries : List (K × V)) : Prop := entries.Pairwise fun a b => a.1 < b.1

instance (entries : List (K × V)) : Decidable (Ascending entries) :=
  inferInstanceAs (Decidable (List.Pairwise _ _))

variable {entry : K × V}

theorem ascending_cons :
    Ascending (entry :: entries) ↔ (∀ e ∈ entries, entry.1 < e.1) ∧ Ascending entries :=
  pairwise_cons

namespace Ascending

theorem nil : Ascending ([] : List (K × V)) := List.Pairwise.nil

theorem distinct (h : Ascending entries) : Distinct entries := h.imp ne_of_lt

theorem lookup_eq_some_iff (h : Ascending entries) :
    entries.lookup key = some value ↔ (key, value) ∈ entries :=
  h.distinct.lookup_eq_some_iff

theorem nodup (h : Ascending entries) : entries.Nodup :=
  h.imp fun hab heq => absurd hab (by rw [heq]; exact lt_irrefl _)

theorem ext {left right : List (K × V)} (hl : Ascending left) (hr : Ascending right)
    (h : ∀ key, left.lookup key = right.lookup key) : left = right := by
  have hperm : left.Perm right := by
    rw [perm_ext_iff_of_nodup hl.nodup hr.nodup]
    rintro ⟨key, value⟩
    rw [← hl.lookup_eq_some_iff, ← hr.lookup_eq_some_iff, h]
  refine hperm.eq_of_pairwise ?_ hl hr
  intro a b _ _ hab hba
  exact absurd (hab.trans hba) (lt_irrefl _)

end Ascending

/-- The entry of a key, inserted or replaced in key order. -/
def insertEntry (key : K) (value : V) : List (K × V) → List (K × V)
  | [] => [(key, value)]
  | entry :: entries =>
    if key < entry.1 then (key, value) :: entry :: entries
    else if key = entry.1 then (key, value) :: entries
    else entry :: insertEntry key value entries

theorem lookup_insertEntry (key : K) (value : V) (entries : List (K × V)) (other : K) :
    (insertEntry key value entries).lookup other =
      if other = key then some value else entries.lookup other := by
  induction entries with
  | nil => rw [insertEntry, lookup_cons_eq]
  | cons entry entries ih =>
    rw [insertEntry]
    split
    · rw [lookup_cons_eq]
    · split
      · next heq =>
        rw [lookup_cons_eq, lookup_cons_eq, ← heq]
        by_cases ho : other = key <;> simp [ho]
      · next hne =>
        rw [lookup_cons_eq, lookup_cons_eq, ih]
        by_cases ho : other = key
        · rw [ho, if_neg hne, if_pos rfl, if_pos rfl]
        · rw [if_neg ho, if_neg ho]

theorem mem_insertEntry (h : entry ∈ insertEntry key value entries) :
    entry = (key, value) ∨ entry ∈ entries := by
  induction entries with
  | nil => exact .inl (mem_singleton.mp h)
  | cons head entries ih =>
    rw [insertEntry] at h
    split at h
    · exact mem_cons.mp h
    · split at h
      · rcases mem_cons.mp h with h | h
        · exact .inl h
        · exact .inr (mem_cons_of_mem _ h)
      · rcases mem_cons.mp h with h | h
        · exact .inr (h ▸ mem_cons_self)
        · exact (ih h).imp_right (mem_cons_of_mem _)

theorem Ascending.insertEntry (h : Ascending entries) (key : K) (value : V) :
    Ascending (insertEntry key value entries) := by
  induction entries with
  | nil => exact pairwise_singleton _ _
  | cons entry entries ih =>
    obtain ⟨hhead, htail⟩ := ascending_cons.mp h
    rw [Tables.insertEntry]
    split
    · next hlt =>
      exact ascending_cons.mpr
        ⟨forall_mem_cons.mpr ⟨hlt, fun e he => hlt.trans (hhead e he)⟩, h⟩
    · next hlt =>
      split
      · next heq => exact ascending_cons.mpr ⟨fun e he => heq ▸ hhead e he, htail⟩
      · next hne =>
        refine ascending_cons.mpr ⟨fun e he => ?_, ih htail⟩
        rcases mem_insertEntry he with rfl | he
        · exact lt_of_le_of_ne (not_lt.mp hlt) (Ne.symm hne)
        · exact hhead e he

/-- The keys of a list as entries in order, each once. -/
def sortedEntries (keys : List K) : List (K × Unit) :=
  keys.foldr (fun key entries => insertEntry key () entries) []

theorem ascending_sortedEntries (keys : List K) : Ascending (sortedEntries keys) := by
  induction keys with
  | nil => exact .nil
  | cons key keys ih => exact ih.insertEntry key ()

theorem lookup_sortedEntries (keys : List K) (key : K) :
    (sortedEntries keys).lookup key = if key ∈ keys then some () else none := by
  induction keys with
  | nil => rfl
  | cons head keys ih =>
    rw [sortedEntries, foldr_cons, ← sortedEntries, lookup_insertEntry, ih]
    by_cases hk : key = head <;> simp [hk]

/-- The keys of a list in order, each once. -/
def sortedKeys (keys : List K) : List K := (sortedEntries keys).map Prod.fst

theorem mem_sortedKeys {keys : List K} : key ∈ sortedKeys keys ↔ key ∈ keys := by
  have hmem : key ∈ sortedKeys keys ↔ (key, ()) ∈ sortedEntries keys := by
    rw [sortedKeys, mem_map]
    exact ⟨fun ⟨_, h, heq⟩ => heq ▸ h, fun h => ⟨_, h, rfl⟩⟩
  rw [hmem, ← (ascending_sortedEntries keys).lookup_eq_some_iff, lookup_sortedEntries]
  simp

/-- The order and the repetitions of a list do not matter. -/
theorem sortedKeys_congr {left right : List K} (h : ∀ key, key ∈ left ↔ key ∈ right) :
    sortedKeys left = sortedKeys right := by
  have hentries : sortedEntries left = sortedEntries right := by
    refine (ascending_sortedEntries left).ext (ascending_sortedEntries right) fun key => ?_
    rw [lookup_sortedEntries, lookup_sortedEntries, if_congr (h key) rfl rfl]
  rw [sortedKeys, sortedKeys, hentries]

/-- A map that lists its entries in key order. -/
structure TreeMap (K V : Type) [LinearOrder K] where
  /-- The entries. -/
  entries : List (K × V)
  /-- They ascend. -/
  ascending : Ascending entries

namespace TreeMap

instance [DecidableEq V] : DecidableEq (TreeMap K V) := fun left right =>
  decidable_of_iff (left.entries = right.entries) (by
    constructor
    · intro h
      cases left
      cases right
      cases h
      rfl
    · intro h
      rw [h])

variable (map : TreeMap K V)

def empty : TreeMap K V := ⟨[], .nil⟩

/-- `get`. -/
def get (key : K) : Option V := map.entries.lookup key

/-- `contains_key`. -/
def containsKey (key : K) : Bool := (map.get key).isSome

/-- `insert`. -/
def insert (key : K) (value : V) : TreeMap K V :=
  ⟨insertEntry key value map.entries, map.ascending.insertEntry key value⟩

/-- `keys`. -/
def keys : List K := map.entries.map Prod.fst

/-- `values`. -/
def values : List V := map.entries.map Prod.snd

variable {map}

@[simp] theorem get_empty (key : K) : (empty : TreeMap K V).get key = none := rfl

theorem get_insert (key : K) (value : V) (other : K) :
    (map.insert key value).get other = if other = key then some value else map.get other :=
  lookup_insertEntry key value map.entries other

theorem of_get_insert {other : K} {value found : V}
    (h : (map.insert key value).get other = some found) :
    other = key ∧ value = found ∨ other ≠ key ∧ map.get other = some found := by
  rw [get_insert] at h
  split at h
  · next heq => exact .inl ⟨heq, Option.some.inj h⟩
  · next hne => exact .inr ⟨hne, h⟩

@[simp] theorem get_insert_self (key : K) (value : V) :
    (map.insert key value).get key = some value := by
  rw [get_insert, if_pos rfl]

theorem get_eq_some_iff : map.get key = some value ↔ (key, value) ∈ map.entries :=
  map.ascending.lookup_eq_some_iff

theorem ext {left right : TreeMap K V} (h : ∀ key, left.get key = right.get key) :
    left = right := by
  have hentries := left.ascending.ext right.ascending h
  cases left
  cases right
  cases hentries
  rfl

theorem insert_of_get (h : map.get key = some value) : map.insert key value = map := by
  refine TreeMap.ext fun other => ?_
  rw [get_insert]
  split
  · next heq => rw [heq, h]
  · rfl

theorem mem_keys : key ∈ map.keys ↔ ∃ value, map.get key = some value := by
  rw [keys, mem_map]
  constructor
  · rintro ⟨⟨k, v⟩, hmem, rfl⟩
    exact ⟨v, get_eq_some_iff.mpr hmem⟩
  · rintro ⟨value, h⟩
    exact ⟨(key, value), get_eq_some_iff.mp h, rfl⟩

theorem containsKey_iff : map.containsKey key = true ↔ ∃ value, map.get key = some value :=
  Option.isSome_iff_exists

theorem containsKey_eq_false_iff : map.containsKey key = false ↔ map.get key = none := by
  rw [containsKey, Option.isSome_eq_false_iff, Option.isNone_iff_eq_none]

theorem mem_values : value ∈ map.values ↔ ∃ key, map.get key = some value := by
  rw [values, mem_map]
  constructor
  · rintro ⟨⟨k, v⟩, hmem, rfl⟩
    exact ⟨k, get_eq_some_iff.mpr hmem⟩
  · rintro ⟨key, h⟩
    exact ⟨(key, value), get_eq_some_iff.mp h, rfl⟩

/-- Every value is changed in place: `values_mut`. -/
def mapValues (f : V → V) (map : TreeMap K V) : TreeMap K V :=
  ⟨map.entries.map fun entry => (entry.1, f entry.2), by
    rw [Ascending, pairwise_map]
    exact map.ascending⟩

theorem get_mapValues (f : V → V) (map : TreeMap K V) (key : K) :
    (map.mapValues f).get key = (map.get key).map f := by
  obtain ⟨entries, ascending⟩ := map
  change (entries.map fun entry => (entry.1, f entry.2)).lookup key = (entries.lookup key).map f
  clear ascending
  induction entries with
  | nil => rfl
  | cons entry entries ih =>
    rw [map_cons, lookup_cons_eq, lookup_cons_eq, ih]
    split <;> rfl

/-- `retain`. -/
def retain (keep : K → V → Bool) (map : TreeMap K V) : TreeMap K V :=
  ⟨map.entries.filter fun entry => keep entry.1 entry.2, List.Pairwise.filter _ map.ascending⟩

theorem get_retain (keep : K → V → Bool) (map : TreeMap K V) (key : K) :
    (map.retain keep).get key = (map.get key).filter (keep key) := by
  ext value
  rw [Option.filter_eq_some_iff, get_eq_some_iff, get_eq_some_iff, retain, mem_filter]

/-- `remove`. -/
def remove (key : K) (map : TreeMap K V) : TreeMap K V := map.retain fun other _ => other ≠ key

theorem get_remove (key : K) (map : TreeMap K V) (other : K) :
    (map.remove key).get other = if other = key then none else map.get other := by
  rw [remove, get_retain]
  split
  · next h => simp [h]
  · next h => cases map.get other <;> simp [h]

/-- A list of values, each inserted under its own key. -/
def insertAll (keyOf : V → K) (map : TreeMap K V) (items : List V) : TreeMap K V :=
  items.foldl (fun map item => map.insert (keyOf item) item) map

variable {keyOf : V → K} {items : List V}

theorem get_insertAll_of_not_mem (h : key ∉ items.map keyOf) :
    (insertAll keyOf map items).get key = map.get key := by
  induction items generalizing map with
  | nil => rfl
  | cons item items ih =>
    rw [map_cons, mem_cons, not_or] at h
    rw [insertAll, foldl_cons]
    exact (ih h.2).trans (by rw [get_insert, if_neg h.1])

theorem get_insertAll_of_mem (hnodup : (items.map keyOf).Nodup) {item : V} (h : item ∈ items) :
    (insertAll keyOf map items).get (keyOf item) = some item := by
  induction items generalizing map with
  | nil => exact absurd h not_mem_nil
  | cons head items ih =>
    rw [map_cons, nodup_cons] at hnodup
    rw [insertAll, foldl_cons]
    rcases mem_cons.mp h with rfl | h
    · exact (get_insertAll_of_not_mem hnodup.1).trans (get_insert_self _ _)
    · exact ih hnodup.2 h

theorem get_insertAll_eq_some (hnodup : (items.map keyOf).Nodup) :
    (insertAll keyOf map items).get key = some value ↔ (value ∈ items ∧ keyOf value = key) ∨
        (key ∉ items.map keyOf ∧ map.get key = some value) := by
  by_cases hkey : key ∈ items.map keyOf
  · obtain ⟨item, hitem, rfl⟩ := mem_map.mp hkey
    rw [get_insertAll_of_mem hnodup hitem, Option.some.injEq]
    constructor
    · rintro rfl
      exact .inl ⟨hitem, rfl⟩
    · rintro (⟨hvalue, heq⟩ | ⟨hnot, -⟩)
      · exact inj_on_of_nodup_map hnodup hitem hvalue heq.symm
      · exact absurd hkey hnot
  · rw [get_insertAll_of_not_mem hkey]
    constructor
    · exact fun h => .inr ⟨hkey, h⟩
    · rintro (⟨hvalue, rfl⟩ | ⟨-, h⟩)
      · exact absurd (mem_map_of_mem hvalue) hkey
      · exact h

end TreeMap

end ChironDB.Tables
