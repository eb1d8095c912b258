/-
# Files that are replaced as a whole

A small file is written under another name, synced, renamed over the old one, and then the
directory is synced.  Such a write ends in one of three ways: it is done, it fails before the
rename and nothing has changed, or it fails behind the rename, when everyone sees the new content
but a power loss may still bring back what was there before.  A `Slot` keeps the content that is
seen and all those that a power loss may bring back.
-/

import Mathlib.Data.List.Basic

namespace ChironDB.Fault

structure Slot (α : Type) where
  visible : α
  /-- What may be there after a power loss. -/
  remains : List α

/-- How a write ends. -/
inductive Replacing
  | done
  | refused
  | unsynced
  deriving DecidableEq, Repr

namespace Slot

variable {α : Type}

/-- A content that is on the disk. -/
def settled (content : α) : Slot α := ⟨content, [content]⟩

def replace (slot : Slot α) (content : α) : Replacing → Slot α
  | .done => settled content
  | .refused => slot
  | .unsynced => ⟨content, content :: slot.remains⟩

def contents (slot : Slot α) : List α := slot.visible :: slot.remains

/-- A power loss leaves one of the contents. -/
def lose (slot : Slot α) (choice : ℕ) : Option (Slot α) := slot.contents[choice]?.map settled

/-- Whatever the file may hold satisfies `p`. -/
def All (p : α → Prop) (slot : Slot α) : Prop := ∀ content ∈ slot.contents, p content

variable {p q : α → Prop} {slot : Slot α}

theorem All.visible (h : slot.All p) : p slot.visible := h _ List.mem_cons_self

theorem All.imp (h : slot.All p) (himp : ∀ content, p content → q content) : slot.All q :=
  fun content hmem => himp content (h content hmem)

theorem all_settled {content : α} (h : p content) : (settled content).All p := by
  intro other hother
  simp only [contents, settled, List.mem_cons, List.not_mem_nil, or_false, or_self] at hother
  exact hother ▸ h

theorem All.replace (h : slot.All p) {content : α} (hnew : p content) (writing : Replacing) :
    (slot.replace content writing).All p := by
  cases writing with
  | done => exact all_settled hnew
  | refused => exact h
  | unsynced =>
    intro other hother
    simp only [contents, Slot.replace, List.mem_cons] at hother
    rcases hother with rfl | rfl | hold
    · exact hnew
    · exact hnew
    · exact h other (List.mem_cons_of_mem _ hold)

theorem All.lose (h : slot.All p) {choice : ℕ} {left : Slot α}
    (hleft : slot.lose choice = some left) : left.All p := by
  obtain ⟨content, hget, rfl⟩ := Option.map_eq_some_iff.mp hleft
  exact all_settled (h content (List.mem_of_getElem? hget))

end Slot

end ChironDB.Fault
