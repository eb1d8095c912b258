/-
# Texts and their lines

A text is stored as its UTF-8 bytes.  A line ends with a line feed, and a carriage return before
it does not belong to the line; what stands behind the last line feed is a line when there is
something.  A text that was put together from lines falls into these lines (`lines_unlines`).
-/

import ChironDB.Codec.PrefixCode

namespace ChironDB.Codec

open List

/-! ## UTF-8 -/

def utf8 (text : String) : Bytes := text.toUTF8.data.toList

/-- The text of some bytes. -/
def ofUtf8? (bytes : Bytes) : Option String := String.fromUTF8? ⟨bytes.toArray⟩

theorem ofUtf8?_utf8 (text : String) : ofUtf8? (utf8 text) = some text := by
  have hbytes : (⟨(utf8 text).toArray⟩ : ByteArray) = text.toUTF8 := by simp [utf8]
  have hvalid : text.toUTF8.IsValidUTF8 := text.isValidUTF8
  rw [ofUtf8?, hbytes, String.fromUTF8?, dif_pos hvalid]
  rfl

theorem utf8_of_ofUtf8? {bytes : Bytes} {text : String} (h : ofUtf8? bytes = some text) :
    utf8 text = bytes := by
  rw [ofUtf8?, String.fromUTF8?] at h
  split at h
  · cases h
    rfl
  · cases h

/-! ## Lines -/

/-- A line that ended with a line feed, from its characters in reverse. -/
def endedLine : List Char → List Char
  | '\r' :: line => line.reverse
  | line => line.reverse

/-- The lines of a text of which some characters of the first were read, in reverse. -/
def linesFrom (line : List Char) : List Char → List (List Char)
  | [] => if line = [] then [] else [line.reverse]
  | c :: rest =>
    if c = '\n' then endedLine line :: linesFrom [] rest else linesFrom (c :: line) rest

def lines (text : List Char) : List (List Char) := linesFrom [] text

/-- Lines, each with its line feed. -/
def unlines (texts : List (List Char)) : List Char := (texts.map (· ++ ['\n'])).flatten

/-- What reads back as a line. -/
structure IsLine (line : List Char) : Prop where
  feed : '\n' ∉ line
  carriage : '\r' ∉ line

theorem linesFrom_append {line rest : List Char} (hline : '\n' ∉ line) (before : List Char) :
    linesFrom before (line ++ '\n' :: rest) =
      endedLine (line.reverse ++ before) :: linesFrom [] rest := by
  induction line generalizing before with
  | nil => rw [nil_append, linesFrom, if_pos rfl, reverse_nil, nil_append]
  | cons c line ih =>
    rw [mem_cons, not_or] at hline
    rw [cons_append, linesFrom, if_neg (Ne.symm hline.1), ih hline.2, reverse_cons,
      append_assoc, singleton_append]

theorem endedLine_reverse {line : List Char} (h : '\r' ∉ line) :
    endedLine line.reverse = line := by
  rw [endedLine.eq_def]
  split
  · next rest hrest =>
    have hmem : '\r' ∈ line.reverse := by
      rw [hrest]
      exact mem_cons_self
    exact absurd (mem_reverse.mp hmem) h
  · exact reverse_reverse line

/-- **Lines that were put together are found again.** -/
theorem lines_unlines {texts : List (List Char)} (h : ∀ line ∈ texts, IsLine line) :
    lines (unlines texts) = texts := by
  induction texts with
  | nil => rfl
  | cons line texts ih =>
    obtain ⟨hline, hrest⟩ := forall_mem_cons.mp h
    have hcons : unlines (line :: texts) = line ++ '\n' :: unlines texts := by
      rw [unlines, map_cons, flatten_cons, append_assoc]
      rfl
    rw [lines, hcons, linesFrom_append hline.feed, append_nil,
      endedLine_reverse hline.carriage]
    exact congrArg (line :: ·) (ih hrest)

end ChironDB.Codec
