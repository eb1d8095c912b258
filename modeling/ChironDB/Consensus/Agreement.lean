/-
# Majorities and logs that agree

Two facts that replicated logs rest on.  Two majorities of one set of members share a
member (`exists_common_member`).  And logs whose entries carry a term agree as soon as
each of them agrees with one history: `history t` is the log of the one writer of term
`t`, which only ever grows, and a log `Agrees` with the history when, at each of its
entries, the log up to there is a prefix of the history of that entry's term.  Then two
logs that hold entries of one term at one position are the same up to there
(`Agrees.take_eq`), prefixes agree (`Agrees.of_isPrefix`), and the writer of a term may
append to its own log (`Agrees.append`).
-/

import Mathlib.Data.Finset.Card
import Mathlib.Data.List.Infix
import Mathlib.Logic.Function.Basic

namespace ChironDB.Consensus

open List

/-- **Two majorities share a member.** -/
theorem exists_common_member {ι : Type} [DecidableEq ι] {members a b : Finset ι}
    (ha : a ⊆ members) (hb : b ⊆ members) (hca : members.card / 2 + 1 ≤ a.card)
    (hcb : members.card / 2 + 1 ≤ b.card) : ∃ v, v ∈ a ∧ v ∈ b := by
  have hcard : members.card < a.card + b.card := by omega
  obtain ⟨v, hv⟩ := Finset.inter_nonempty_of_card_lt_card_add_card ha hb hcard
  exact ⟨v, Finset.mem_inter.mp hv⟩

variable {E : Type} {term : E → ℕ} {history history' : ℕ → List E} {log short : List E}

/-- Up to each of its entries, the log is what the writer of that entry's term wrote. -/
def Agrees (term : E → ℕ) (history : ℕ → List E) (log : List E) : Prop :=
  ∀ k e, log[k]? = some e → log.take (k + 1) <+: history (term e)

namespace Agrees

theorem nil : Agrees term history [] := by
  rintro _ _ ⟨⟩

theorem of_isPrefix (h : Agrees term history log) (hshort : short <+: log) :
    Agrees term history short := by
  intro k e hk
  have hlt : k < short.length := (List.getElem?_eq_some_iff.mp hk).1
  have hlog : log[k]? = some e := by
    obtain ⟨rest, rfl⟩ := hshort
    rw [List.getElem?_append_left hlt]
    exact hk
  have htake : short.take (k + 1) = log.take (k + 1) := by
    rw [prefix_iff_eq_take.mp hshort, take_take, Nat.min_eq_left hlt]
  rw [htake]
  exact h k e hlog

theorem mono (h : Agrees term history log) (hle : ∀ t, history t <+: history' t) :
    Agrees term history' log :=
  fun k e hk => (h k e hk).trans (hle (term e))

/-- **Logs that agree match.**  Entries of one term at one position have the same log up
to there. -/
theorem take_eq {a b : List E} (ha : Agrees term history a) (hb : Agrees term history b)
    {k : ℕ} {e e' : E} (hk : a[k]? = some e) (hk' : b[k]? = some e')
    (hterm : term e = term e') : a.take (k + 1) = b.take (k + 1) := by
  have hlt : k < a.length := (List.getElem?_eq_some_iff.mp hk).1
  have hlt' : k < b.length := (List.getElem?_eq_some_iff.mp hk').1
  have hlen : (a.take (k + 1)).length = (b.take (k + 1)).length := by
    rw [List.length_take, List.length_take]
    omega
  have hpre := hb k e' hk'
  rw [← hterm] at hpre
  exact List.IsPrefix.eq_of_length (prefix_of_prefix_length_le (ha k e hk) hpre hlen.le) hlen

/-- The writer of a term appends to its log. -/
theorem append (h : Agrees term history log) (e : E) :
    Agrees term (Function.update history (term e) (log ++ [e])) (log ++ [e]) := by
  intro k e' hk
  rcases Nat.lt_or_ge k log.length with hlt | hge
  · rw [getElem?_append_left hlt] at hk
    rw [take_append_of_le_length (by omega)]
    rcases eq_or_ne (term e') (term e) with heq | hne
    · have htake : log.take (k + 1) <+: log := take_prefix _ _
      rw [heq, Function.update_self]
      exact htake.trans (prefix_append _ _)
    · rw [Function.update_of_ne hne]
      exact h k e' hk
  · rw [getElem?_append_right hge, getElem?_singleton] at hk
    split at hk
    · next h0 =>
      cases hk
      rw [Function.update_self]
      exact take_prefix _ _
    · cases hk

end Agrees

end ChironDB.Consensus
