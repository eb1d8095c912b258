/-
# JSON pointers

A JSON pointer spells a list of field names as one text: a slash before every name, with `~0`
for a tilde and `~1` for a slash inside a name.  The text determines the names
(`pointerNames_pointer`), whatever characters they are made of, and a text whose tildes are all
followed by `0` or `1` is the pointer of its names (`pointer_pointerNames`).
-/

import ChironDB.Json.Value
import Mathlib.Data.List.Induction

namespace ChironDB.Json

open List

/-- `str::replace` of a character. -/
def replaceChar (old : Char) (new text : String) : String :=
  String.ofList (text.toList.flatMap fun c => if c = old then new.toList else [c])

/-- A field name as a component of a pointer. -/
def escapeName (name : String) : String := replaceChar '/' "~1" (replaceChar '~' "~0" name)

/-- What a character of a name becomes. -/
def escapeChar (c : Char) : List Char :=
  if c = '~' then ['~', '0'] else if c = '/' then ['~', '1'] else [c]

/-- The name a component spells. -/
def unescapeName : List Char → List Char
  | '~' :: '0' :: text => '~' :: unescapeName text
  | '~' :: '1' :: text => '/' :: unescapeName text
  | c :: text => c :: unescapeName text
  | [] => []

/-- The pointer of a list of names. -/
def pointer (names : List String) : String :=
  names.foldl (fun path name => path ++ "/" ++ escapeName name) ""

/-- The names a pointer spells. -/
def pointerNames (path : String) : List String :=
  (path.toList.splitOn '/').tail.map fun component => String.ofList (unescapeName component)

/-! ### Names -/

/-- The two replacements one after the other escape every character once. -/
theorem toList_escapeName (name : String) :
    (escapeName name).toList = name.toList.flatMap escapeChar := by
  simp only [escapeName, replaceChar, String.toList_ofList, flatMap_assoc]
  congr 1
  funext c
  rw [escapeChar]
  by_cases ht : c = '~'
  · rw [ht]
    rfl
  · rw [if_neg ht, if_neg ht]
    simp

theorem slash_not_mem_escapeName (name : String) : '/' ∉ (escapeName name).toList := by
  rw [toList_escapeName, mem_flatMap]
  rintro ⟨c, -, hc⟩
  rw [escapeChar] at hc
  split at hc
  · simp at hc
  · split at hc
    · simp at hc
    · next hne => exact hne (mem_singleton.mp hc).symm

theorem unescapeName_cons {c : Char} (hc : c ≠ '~') (text : List Char) :
    unescapeName (c :: text) = c :: unescapeName text := by
  rw [unescapeName]
  · rintro rest rfl
    exact absurd rfl hc
  · rintro rest rfl
    exact absurd rfl hc

theorem unescapeName_flatMap (text : List Char) :
    unescapeName (text.flatMap escapeChar) = text := by
  induction text with
  | nil => rfl
  | cons c text ih =>
    rw [flatMap_cons, escapeChar]
    split
    · next h => rw [h, cons_append, cons_append, nil_append, unescapeName, ih]
    · split
      · next h => rw [h, cons_append, cons_append, nil_append, unescapeName, ih]
      · next ht _ => rw [singleton_append, unescapeName_cons ht, ih]

/-- Whether every tilde of a component starts an escape. -/
def escapesValid : List Char → Bool
  | [] => true
  | '~' :: '0' :: text => escapesValid text
  | '~' :: '1' :: text => escapesValid text
  | c :: text => c ≠ '~' && escapesValid text

variable {text : List Char}

theorem escapesValid_cons {c : Char} (hzero : ∀ rest, c = '~' → text = '0' :: rest → False)
    (hone : ∀ rest, c = '~' → text = '1' :: rest → False) :
    escapesValid (c :: text) = true ↔ c ≠ '~' ∧ escapesValid text = true := by
  rw [escapesValid, Bool.and_eq_true, decide_eq_true_iff]
  · exact hzero
  · exact hone

theorem flatMap_unescapeName (h : escapesValid text = true)
    (hslash : '/' ∉ text) : (unescapeName text).flatMap escapeChar = text := by
  induction text using escapesValid.induct with
  | case1 => rfl
  | case2 _ ih | case3 _ ih =>
    rw [unescapeName, flatMap_cons, ih h (fun hmem => hslash (by simp [hmem]))]
    rfl
  | case4 c text hzero hone ih =>
    obtain ⟨hc, h⟩ := (escapesValid_cons hzero hone).mp h
    rw [mem_cons, not_or] at hslash
    rw [unescapeName_cons hc, flatMap_cons, ih h hslash.2, escapeChar, if_neg hc,
      if_neg (Ne.symm hslash.1), singleton_append]

/-! ### Pointers -/

theorem pointer_append_singleton (names : List String) (name : String) :
    pointer (names ++ [name]) = pointer names ++ "/" ++ escapeName name := by
  rw [pointer, pointer, foldl_append]
  rfl

theorem toList_pointer (names : List String) :
    (pointer names).toList = names.flatMap fun name => '/' :: (escapeName name).toList := by
  induction names using List.reverseRecOn with
  | nil => rfl
  | append_singleton names name ih =>
    rw [pointer_append_singleton, String.toList_append, String.toList_append, ih,
      flatMap_append, append_assoc, flatMap_singleton]
    rfl

theorem intercalate_cons_eq (c : Char) (component : List Char) (components : List (List Char)) :
    [c].intercalate (component :: components) = component ++ components.flatMap (c :: ·) := by
  induction components generalizing component with
  | nil => rw [intercalate_singleton, flatMap_nil, append_nil]
  | cons next components ih =>
    rw [intercalate_cons_cons, ih, flatMap_cons, append_assoc]
    rfl

/-- A pointer joins the escaped names with slashes, the first one after nothing. -/
theorem toList_pointer_eq_intercalate (names : List String) :
    (pointer names).toList =
      ['/'].intercalate ([] :: names.map fun name => (escapeName name).toList) := by
  rw [intercalate_cons_eq, toList_pointer, flatMap_map, nil_append]

theorem pointerNames_pointer (names : List String) : pointerNames (pointer names) = names := by
  rw [pointerNames, toList_pointer_eq_intercalate, splitOn_intercalate]
  · rw [tail_cons, map_map]
    refine map_id'' ?_ names
    intro name
    change String.ofList (unescapeName (escapeName name).toList) = name
    rw [toList_escapeName, unescapeName_flatMap, String.ofList_toList]
  · intro component hmem
    rcases mem_cons.mp hmem with rfl | hmem
    · simp
    · obtain ⟨name, -, rfl⟩ := mem_map.mp hmem
      exact slash_not_mem_escapeName name
  · simp

theorem splitOn_cons_ne {c : Char} (hc : c ≠ '/') (text : List Char) :
    ∃ head tail, text.splitOn '/' = head :: tail ∧
      (c :: text).splitOn '/' = (c :: head) :: tail := by
  obtain ⟨head, tail, h⟩ := exists_cons_of_ne_nil (splitOn_ne_nil '/' text)
  refine ⟨head, tail, h, ?_⟩
  rw [splitOn_cons_eq_if_modifyHead, if_neg (by simp [hc]), h, modifyHead_cons]

theorem splitOn_cons_slash (text : List Char) :
    ('/' :: text).splitOn '/' = [] :: text.splitOn '/' :=
  splitOn_append_cons_self [] text

theorem slash_not_mem_of_mem_splitOn {component : List Char}
    (h : component ∈ text.splitOn '/') : '/' ∉ component := by
  induction text generalizing component with
  | nil =>
    rw [splitOn_nil, mem_singleton] at h
    simp [h]
  | cons c text ih =>
    by_cases hc : c = '/'
    · rw [hc, splitOn_cons_slash] at h
      rcases mem_cons.mp h with rfl | h
      · simp
      · exact ih h
    · obtain ⟨head, tail, htext, hsplit⟩ := splitOn_cons_ne hc text
      rw [htext] at ih
      rw [hsplit] at h
      rcases mem_cons.mp h with rfl | h
      · have hhead := ih mem_cons_self
        simp [hhead, Ne.symm hc]
      · exact ih (mem_cons_of_mem _ h)

/-- Escapes do not reach over a slash. -/
theorem escapesValid_of_mem_splitOn {component : List Char}
    (hvalid : escapesValid text = true) (h : component ∈ text.splitOn '/') :
    escapesValid component = true := by
  induction text using escapesValid.induct generalizing component with
  | case1 =>
    rw [splitOn_nil, mem_singleton] at h
    rw [h, escapesValid]
  | case2 text ih =>
    obtain ⟨head, tail, htext, hsplit⟩ := splitOn_cons_ne (by decide : '0' ≠ '/') text
    obtain ⟨_, _, htext', hsplit'⟩ := splitOn_cons_ne (by decide : '~' ≠ '/') ('0' :: text)
    rw [hsplit] at htext'
    cases htext'
    rw [htext] at ih
    rw [hsplit'] at h
    rcases mem_cons.mp h with rfl | h
    · rw [escapesValid]
      exact ih hvalid mem_cons_self
    · exact ih hvalid (mem_cons_of_mem _ h)
  | case3 text ih =>
    obtain ⟨head, tail, htext, hsplit⟩ := splitOn_cons_ne (by decide : '1' ≠ '/') text
    obtain ⟨_, _, htext', hsplit'⟩ := splitOn_cons_ne (by decide : '~' ≠ '/') ('1' :: text)
    rw [hsplit] at htext'
    cases htext'
    rw [htext] at ih
    rw [hsplit'] at h
    rcases mem_cons.mp h with rfl | h
    · rw [escapesValid]
      exact ih hvalid mem_cons_self
    · exact ih hvalid (mem_cons_of_mem _ h)
  | case4 c text hzero hone ih =>
    rw [escapesValid_cons hzero hone] at hvalid
    by_cases hc : c = '/'
    · rw [hc, splitOn_cons_slash] at h
      rcases mem_cons.mp h with rfl | h
      · rfl
      · exact ih hvalid.2 h
    · obtain ⟨head, tail, htext, hsplit⟩ := splitOn_cons_ne hc text
      rw [htext] at ih
      rw [hsplit] at h
      rcases mem_cons.mp h with rfl | h
      · have hhead := ih hvalid.2 mem_cons_self
        rw [escapesValid_cons (fun _ heq => absurd heq hvalid.1) (fun _ heq => absurd heq hvalid.1)]
        exact ⟨hvalid.1, hhead⟩
      · exact ih hvalid.2 (mem_cons_of_mem _ h)

theorem pointer_pointerNames {path : String} (hslash : path.toList.head? = some '/')
    (hvalid : escapesValid path.toList = true) : pointer (pointerNames path) = path := by
  apply String.toList_injective
  obtain ⟨text, htext⟩ : ∃ text, path.toList = '/' :: text :=
    head?_eq_some_iff.mp hslash
  have hsplit : path.toList.splitOn '/' = [] :: text.splitOn '/' := by
    rw [htext, splitOn_cons_slash]
  have hnames : (pointerNames path).map (fun name => (escapeName name).toList) =
      text.splitOn '/' := by
    rw [pointerNames, hsplit, tail_cons, map_map]
    have hself : ∀ component ∈ text.splitOn '/',
        (escapeName (String.ofList (unescapeName component))).toList = component := by
      intro component hmem
      rw [toList_escapeName, String.toList_ofList]
      have hmem' : component ∈ path.toList.splitOn '/' := by
        rw [hsplit]
        exact mem_cons_of_mem _ hmem
      exact flatMap_unescapeName (escapesValid_of_mem_splitOn hvalid hmem')
        (slash_not_mem_of_mem_splitOn hmem)
    exact (map_congr_left hself).trans (map_id' _)
  rw [toList_pointer_eq_intercalate, hnames, ← hsplit, intercalate_splitOn]

theorem pointer_injective : Function.Injective pointer :=
  Function.LeftInverse.injective pointerNames_pointer

end ChironDB.Json
