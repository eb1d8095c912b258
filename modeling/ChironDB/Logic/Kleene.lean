/-
# Three-valued formulas

Kleene's three-valued logic over arbitrary atoms; `none` is UNKNOWN.  Conjunction and
disjunction are one connective, told apart by the truth value that decides them: FALSE decides a
conjunction, TRUE a disjunction.

Two valuations of the same atoms are compared.  The second one *decides* the first: it gives
every known atom the same value, and may give a value to an atom that is unknown.  The formula
then evaluates alike under both, or it is unknown under the first and has *slipped* to a truth
value under the second.  `Formula.Slips` follows such a slip from the atoms up: a negation turns
it around, and a sibling that decides a connective hides it.
-/

import Mathlib.Data.Fintype.Basic
import Mathlib.Data.Fintype.Option
import Mathlib.Tactic.SplitIfs

namespace ChironDB.Logic

/-- A truth value: TRUE, FALSE or UNKNOWN. -/
abbrev Truth := Option Bool

namespace Truth

/-- Negation keeps UNKNOWN. -/
def not (x : Truth) : Truth := x.map (! ·)

/-- The connective that `d` decides. -/
def junction (d : Bool) (x y : Truth) : Truth :=
  if x = some d ∨ y = some d then some d
  else if x = some (!d) ∧ y = some (!d) then some (!d)
  else none

theorem junction_eq_some_self {d : Bool} {x y : Truth} :
    junction d x y = some d ↔ x = some d ∨ y = some d := by
  unfold junction
  split_ifs with h h'
  · simp [h]
  · simp [h]
  · simp [h]

theorem junction_eq_some_not {d : Bool} {x y : Truth} :
    junction d x y = some (!d) ↔ x = some (!d) ∧ y = some (!d) := by
  unfold junction
  split_ifs with h h'
  · rcases h with rfl | rfl
    · simp
    · simp
  · simp [h']
  · simp [h']

theorem getD_eq_iff (x y : Truth) :
    x.getD false = y.getD false ↔ (y = some true ↔ x = some true) := by
  revert x y
  decide

/-- What `d` decides slips to `d` with one operand, if the other one does not decide it.  The
operands are known alike on both sides or unknown on the first, which leaves a finite table. -/
theorem junction_slips_self (d : Bool) (x x' y y' : Truth) (hx : x = none ∨ x = x')
    (hy : y = none ∨ y = y') :
    junction d x y = none ∧ junction d x' y' = some d ↔
      (x = none ∧ x' = some d) ∧ y ≠ some d ∨ (y = none ∧ y' = some d) ∧ x ≠ some d := by
  revert d x x' y y'
  decide

/-- It slips to the other value if both operands end up there and one of them slipped. -/
theorem junction_slips_not (d : Bool) (x x' y y' : Truth) (hx : x = none ∨ x = x')
    (hy : y = none ∨ y = y') :
    junction d x y = none ∧ junction d x' y' = some (!d) ↔
      (x = none ∧ x' = some (!d)) ∧ (y = some (!d) ∨ y = none ∧ y' = some (!d)) ∨
        (y = none ∧ y' = some (!d)) ∧ x = some (!d) := by
  rw [junction_eq_some_not]
  rcases hx with rfl | rfl
  · rcases hy with rfl | rfl
    · simp [junction]
    · revert d x' y
      decide
  · revert d x y y'
    decide

end Truth

/-- Formulas over atoms of a type. -/
inductive Formula (α : Type)
  | atom (a : α)
  | not (f : Formula α)
  | junction (d : Bool) (f g : Formula α)

namespace Formula

variable {α : Type}

/-- The truth value of a formula. -/
def eval (v : α → Truth) : Formula α → Truth
  | atom a => v a
  | not f => (f.eval v).not
  | junction d f g => Truth.junction d (f.eval v) (g.eval v)

/-- The atom occurs in the formula. -/
def Occurs (a : α) : Formula α → Prop
  | atom b => a = b
  | not f => f.Occurs a
  | junction _ f g => f.Occurs a ∨ g.Occurs a

variable {f : Formula α}

theorem eval_congr {v w : α → Truth} (h : ∀ a, f.Occurs a → v a = w a) :
    f.eval v = f.eval w := by
  induction f with
  | atom a => exact h a rfl
  | not f ih => rw [eval, eval, ih h]
  | junction d f g ihf ihg =>
    rw [eval, eval, ihf fun a ha => h a (.inl ha), ihg fun a ha => h a (.inr ha)]

/-- **A slip from UNKNOWN to `b`.**  `s` says which atoms slip to which truth value.  What `b`
decides slips with one operand, unless the other one decides it already; what `b` does not decide
slips only if both operands end up at `b`. -/
def Slips (s : α → Bool → Prop) (v : α → Truth) : Bool → Formula α → Prop
  | b, atom a => s a b
  | b, not f => f.Slips s v (!b)
  | b, junction d f g =>
    if b = d then f.Slips s v b ∧ g.eval v ≠ some b ∨ g.Slips s v b ∧ f.eval v ≠ some b
    else f.Slips s v b ∧ (g.eval v = some b ∨ g.Slips s v b) ∨ g.Slips s v b ∧ f.eval v = some b

/-- `w` decides `v` on the atoms of `f`, and `s` is where it does. -/
def Decides (s : α → Bool → Prop) (v w : α → Truth) (f : Formula α) : Prop :=
  ∀ a, f.Occurs a → (v a = none ∨ v a = w a) ∧ ∀ b, s a b ↔ v a = none ∧ w a = some b

variable {s : α → Bool → Prop} {v w : α → Truth}

section

variable (h : Decides s v w f)
include h

theorem Decides.eval_cases :
    f.eval v = none ∨ f.eval v = f.eval w := by
  induction f with
  | atom a => exact (h a rfl).1
  | not f ih =>
    rcases ih h with hv | hv
    · exact .inl (by rw [eval, hv]; rfl)
    · exact .inr (by rw [eval, eval, hv])
  | junction d f g ihf ihg =>
    have hf := ihf fun a ha => h a (.inl ha)
    have hg := ihg fun a ha => h a (.inr ha)
    rcases hjunction : (junction d f g).eval v with _ | b
    · exact .inl rfl
    right
    rw [eval] at hjunction ⊢
    symm
    rcases eq_or_ne b d with rfl | hne
    · rw [Truth.junction_eq_some_self] at hjunction ⊢
      rcases hjunction with hb | hb
      · exact .inl (by rw [← hb]; exact (hf.resolve_left (by simp [hb])).symm)
      · exact .inr (by rw [← hb]; exact (hg.resolve_left (by simp [hb])).symm)
    · obtain rfl : b = !d := Bool.eq_not.2 hne
      rw [Truth.junction_eq_some_not] at hjunction ⊢
      obtain ⟨hbf, hbg⟩ := hjunction
      exact ⟨by rw [← hbf]; exact (hf.resolve_left (by simp [hbf])).symm,
        by rw [← hbg]; exact (hg.resolve_left (by simp [hbg])).symm⟩

/-- **`Slips` is exactly what happens.** -/
theorem Decides.slips_iff (b : Bool) :
    f.Slips s v b ↔ f.eval v = none ∧ f.eval w = some b := by
  induction f generalizing b with
  | atom a => exact (h a rfl).2 b
  | not f ih =>
    rw [Slips, ih h, eval, eval, Truth.not, Truth.not, Option.map_eq_none_iff]
    cases hw : f.eval w with
    | none => simp
    | some c => cases b <;> cases c <;> simp
  | junction d f g ihf ihg =>
    have hdf : Decides s v w f := fun a ha => h a (.inl ha)
    have hdg : Decides s v w g := fun a ha => h a (.inr ha)
    rw [Slips, eval, eval, ihf hdf, ihg hdg]
    split_ifs with hb
    · rw [hb]
      exact (Truth.junction_slips_self d _ _ _ _ hdf.eval_cases hdg.eval_cases).symm
    · rw [Bool.eq_not.2 hb]
      exact (Truth.junction_slips_not d _ _ _ _ hdf.eval_cases hdg.eval_cases).symm

/-- Two valuations of which one decides the other part exactly where something slips. -/
theorem Decides.eval_eq_iff :
    f.eval v = f.eval w ↔ ¬f.Slips s v true ∧ ¬f.Slips s v false := by
  rw [h.slips_iff, h.slips_iff]
  constructor
  · intro heq
    rw [heq]
    exact ⟨fun hslip => by simp [hslip.1] at hslip, fun hslip => by simp [hslip.1] at hslip⟩
  · rintro ⟨htrue, hfalse⟩
    rcases h.eval_cases with hnone | heq
    · rw [hnone]
      rcases hw : f.eval w with _ | _ | _
      · rfl
      · exact absurd ⟨hnone, hw⟩ hfalse
      · exact absurd ⟨hnone, hw⟩ htrue
    · exact heq

/-- A formula is true under both or under none, unless it slips to TRUE. -/
theorem Decides.eval_true_iff :
    (f.eval w = some true ↔ f.eval v = some true) ↔ ¬f.Slips s v true := by
  rw [h.slips_iff]
  rcases h.eval_cases with hnone | heq
  · simp [hnone]
  · rw [heq]
    cases f.eval w <;> simp

end

end Formula

end ChironDB.Logic
