/-
# Programs whose steps can fail or be cut off

A program that works on a medium (files, a device) runs step by step.  Each step
may succeed, return an error, or be the last thing that happens before a crash;
in the last two cases a part of its effect may have reached the medium.  A
`Program σ ε α` is such a computation over states `σ` with errors `ε`, and what
its steps do is read from a script of `Event`s, so that a run is a function of the
initial state and the script and a script that has run out lets every step pass.

`Program.Ensures` is the weakest precondition of a program for three
postconditions: one for the value it returns, one for the errors it stops with and
one for the states in which a crash can leave it, over all scripts made of allowed
events.  There is one rule per construct, the rules compose along `do`, and a
program that stops only by returning does so on the empty script (`Ensures.returns`).
-/

import Mathlib.Order.Basic

namespace ChironDB.Fault

theorem bind_eq_ok {ε α β : Type} {x : Except ε α} {f : α → Except ε β} {b : β} :
    x >>= f = .ok b ↔ ∃ a, x = .ok a ∧ f a = .ok b := by
  cases x with
  | error e =>
    constructor
    · rintro ⟨⟩
    · rintro ⟨a, h, -⟩
      cases h
  | ok a =>
    constructor
    · intro h
      exact ⟨a, rfl, h⟩
    · rintro ⟨a', h, hf⟩
      cases h
      exact hf

theorem pure_eq_ok {ε α : Type} {a b : α} : (pure a : Except ε α) = .ok b ↔ a = b :=
  ⟨Except.ok.inj, congrArg Except.ok⟩

theorem map_eq_ok {ε α β : Type} {x : Except ε α} {f : α → β} {b : β} :
    x.map f = .ok b ↔ ∃ a, x = .ok a ∧ f a = b := by
  cases x <;> simp [Except.map]

/-- What happens at one step: it succeeds, it returns an error, or the machine
stops there.  `part` says how much of the step took effect in the last two cases. -/
inductive Event
  | pass
  | fail (part : ℕ)
  | crash (part : ℕ)
  deriving DecidableEq, Repr

/-- How a run ends, with the state it leaves and the events it did not use. -/
inductive Outcome (σ ε α : Type)
  | done (value : α) (state : σ) (rest : List Event)
  | error (cause : ε) (state : σ) (rest : List Event)
  | crashed (state : σ)
  deriving DecidableEq, Repr

/-- The state a run leaves. -/
def Outcome.final {σ ε α : Type} : Outcome σ ε α → σ
  | .done _ s _ => s
  | .error _ s _ => s
  | .crashed s => s

/-- The value of a run that ends well, with the events it did not use. -/
def Outcome.value {σ ε α : Type} : Outcome σ ε α → Option (α × List Event)
  | .done a _ rest => some (a, rest)
  | .error _ _ _ => none
  | .crashed _ => none

theorem Outcome.eq_done {σ ε α : Type} {outcome : Outcome σ ε α} {a : α} {rest : List Event}
    (h : outcome.value = some (a, rest)) : outcome = .done a outcome.final rest := by
  cases outcome with
  | done b s events =>
    cases h
    rfl
  | error | crashed => cases h

/-- A computation whose steps succeed, fail or are cut off as a script says. -/
def Program (σ ε α : Type) : Type := σ → List Event → Outcome σ ε α

namespace Program

variable {σ τ ε α β : Type}

instance : Monad (Program σ ε) where
  pure a := fun s events => .done a s events
  bind c f := fun s events =>
    match c s events with
    | .done a s' rest => f a s' rest
    | .error e s' rest => .error e s' rest
    | .crashed s' => .crashed s'

instance : MonadStateOf σ (Program σ ε) where
  get := fun s events => .done s s events
  set s := fun _ events => .done () s events
  modifyGet f := fun s events => .done (f s).1 (f s).2 events

instance : MonadExceptOf ε (Program σ ε) where
  throw e := fun s events => .error e s events
  tryCatch c handler := fun s events =>
    match c s events with
    | .done a s' rest => .done a s' rest
    | .error e s' rest => handler e s' rest
    | .crashed s' => .crashed s'

/-- One step of the medium: `full` when it succeeds, `part n` when it fails or is
cut off after `n` units. -/
def effect (cause : ε) (part : ℕ → σ → σ) (full : σ → σ) : Program σ ε Unit :=
  fun s events =>
    match events with
    | [] => .done () (full s) []
    | .pass :: rest => .done () (full s) rest
    | .fail n :: rest => .error cause (part n s) rest
    | .crash n :: _ => .crashed (part n s)

/-- A step that takes effect as a whole or not at all. -/
def atomic (cause : ε) (full : σ → σ) : Program σ ε Unit := effect cause (fun _ s => s) full

/-- A pure computation that may fail, as a step that touches nothing. -/
def ofExcept : Except ε α → Program σ ε α
  | .ok a => pure a
  | .error e => throw e

/-- Go on only where `p` holds. -/
def require (p : Prop) [Decidable p] (e : ε) : Program σ ε Unit :=
  if p then pure () else throw e

/-- Do `c` only where `p` holds. -/
def when (p : Prop) [Decidable p] (c : Program σ ε Unit) : Program σ ε Unit :=
  if p then c else pure ()

/-- A program on a part of the state. -/
def zoom (part : τ → σ) (put : σ → τ → τ) (c : Program σ ε α) : Program τ ε α :=
  fun t events =>
    match c (part t) events with
    | .done a s rest => .done a (put s t) rest
    | .error e s rest => .error e (put s t) rest
    | .crashed s => .crashed (put s t)

/-- What is granted and asked of a run that does not return: the events its script
may hold, and the postconditions of an error and of a crash. -/
structure Exits (σ ε : Type) where
  allowed : Event → Prop
  fault : ε → σ → Prop
  down : σ → Prop

/-- A step that changes nothing may fail or be cut off in `s`. -/
def Exits.Safe (x : Exits σ ε) (s : σ) : Prop :=
  (∀ e n, x.allowed (.fail n) → x.fault e s) ∧ ∀ n, x.allowed (.crash n) → x.down s

/-- Every step passes, and no run may end in an error. -/
def quiet : Exits σ ε := ⟨fun event => event = .pass, fun _ _ => False, fun _ => False⟩

theorem safe_quiet (s : σ) : (quiet : Exits σ ε).Safe s := by
  constructor
  · rintro _ _ ⟨⟩
  · rintro _ ⟨⟩

/-- An outcome meets the postcondition of the way it ended. -/
def Meets (x : Exits σ ε) (post : α → σ → Prop) : Outcome σ ε α → Prop
  | .done a s rest => post a s ∧ ∀ event ∈ rest, x.allowed event
  | .error e s rest => x.fault e s ∧ ∀ event ∈ rest, x.allowed event
  | .crashed s => x.down s

/-- Started in `s`, on any allowed script, `c` ends as `x` and `post` ask. -/
def Ensures (c : Program σ ε α) (x : Exits σ ε) (post : α → σ → Prop) (s : σ) : Prop :=
  ∀ events, (∀ event ∈ events, x.allowed event) → Meets x post (c s events)

variable {x : Exits σ ε} {post : α → σ → Prop} {s : σ}

theorem bind_of_error {c : Program σ ε β} {f : β → Program σ ε α} {s s' : σ} {e : ε}
    {events rest : List Event} (h : c s events = .error e s' rest) :
    (c >>= f) s events = .error e s' rest := by
  change (match c s events with
    | .done a s' rest => f a s' rest
    | .error e s' rest => .error e s' rest
    | .crashed s' => .crashed s') = _
  rw [h]

variable {c : Program σ ε α}

theorem Ensures.mono {y : Exits σ ε} {post' : α → σ → Prop}
    (h : c.Ensures x post s) (hallowed : y.allowed = x.allowed)
    (hpost : ∀ a s', post a s' → post' a s') (hfault : ∀ e s', x.fault e s' → y.fault e s')
    (hdown : ∀ s', x.down s' → y.down s') : c.Ensures y post' s := by
  intro events hevents
  rw [hallowed] at hevents
  have hc := h events hevents
  cases hout : c s events with
  | done a s' rest =>
    rw [hout] at hc
    exact ⟨hpost a s' hc.1, hallowed ▸ hc.2⟩
  | error e s' rest =>
    rw [hout] at hc
    exact ⟨hfault e s' hc.1, hallowed ▸ hc.2⟩
  | crashed s' =>
    rw [hout] at hc
    exact hdown s' hc

theorem Ensures.imp {post' : α → σ → Prop} (h : c.Ensures x post s)
    (hpost : ∀ a s', post a s' → post' a s') : c.Ensures x post' s :=
  h.mono rfl hpost (fun _ _ hf => hf) (fun _ hd => hd)

theorem Ensures.pure {a : α} (h : post a s) : (Pure.pure a : Program σ ε α).Ensures x post s :=
  fun _ hevents => ⟨h, hevents⟩

/-- **Preconditions compose along `do`.** -/
theorem Ensures.bind {c : Program σ ε β} {f : β → Program σ ε α}
    (h : c.Ensures x (fun b s' => (f b).Ensures x post s') s) : (c >>= f).Ensures x post s := by
  intro events hevents
  have hc := h events hevents
  change Meets x post (match c s events with
    | .done a s' rest => f a s' rest
    | .error e s' rest => .error e s' rest
    | .crashed s' => .crashed s')
  cases hout : c s events with
  | done b s' rest =>
    rw [hout] at hc
    exact hc.1 rest hc.2
  | error | crashed =>
    rw [hout] at hc
    exact hc

theorem Ensures.throw {e : ε} (h : x.fault e s) :
    (MonadExceptOf.throw e : Program σ ε α).Ensures x post s :=
  fun _ hevents => ⟨h, hevents⟩

theorem Ensures.tryCatch {handler : ε → Program σ ε α}
    (h : c.Ensures { x with fault := fun e s' => (handler e).Ensures x post s' } post s) :
    (MonadExceptOf.tryCatch c handler : Program σ ε α).Ensures x post s := by
  intro events hevents
  have hc := h events hevents
  change Meets x post (match c s events with
    | .done a s' rest => .done a s' rest
    | .error e s' rest => handler e s' rest
    | .crashed s' => .crashed s')
  cases hout : c s events with
  | done | crashed =>
    rw [hout] at hc
    exact hc
  | error e s' rest =>
    rw [hout] at hc
    exact hc.1 rest hc.2

theorem Ensures.get {post : σ → σ → Prop} (h : post s s) :
    (MonadStateOf.get : Program σ ε σ).Ensures x post s :=
  fun _ hevents => ⟨h, hevents⟩

theorem Ensures.modify {post : PUnit → σ → Prop} {f : σ → σ} (h : post PUnit.unit (f s)) :
    (modify f : Program σ ε PUnit).Ensures x post s :=
  fun _ hevents => ⟨h, hevents⟩

theorem Ensures.ofExcept {r : Except ε α} (hok : ∀ a, r = .ok a → post a s)
    (herror : ∀ e, r = .error e → x.fault e s) :
    (Program.ofExcept r : Program σ ε α).Ensures x post s := by
  cases r with
  | ok a => exact .pure (hok a rfl)
  | error e => exact .throw (herror e rfl)

theorem Ensures.require {post : Unit → σ → Prop} {p : Prop} {_ : Decidable p} {e : ε}
    (hpost : p → post () s) (hfault : ¬ p → x.fault e s) :
    (Program.require p e : Program σ ε Unit).Ensures x post s := by
  rw [Program.require]
  split
  · next hp => exact .pure (hpost hp)
  · next hp => exact .throw (hfault hp)

theorem Ensures.when {post : Unit → σ → Prop} {p : Prop} {_ : Decidable p} {c : Program σ ε Unit}
    (hpos : p → c.Ensures x post s) (hneg : ¬ p → post () s) :
    (Program.when p c).Ensures x post s := by
  rw [Program.when]
  split
  · next hp => exact hpos hp
  · next hp => exact .pure (hneg hp)

/-- A step that may fail or be cut off leaves a part of its effect. -/
theorem Ensures.effect {post : Unit → σ → Prop} {cause : ε} {part : ℕ → σ → σ} {full : σ → σ}
    (hpart : ∀ n, x.Safe (part n s)) (hpost : post () (full s)) :
    (Program.effect cause part full).Ensures x post s := by
  intro events hevents
  cases events with
  | nil => exact ⟨hpost, hevents⟩
  | cons event rest =>
    have hrest : ∀ e ∈ rest, x.allowed e := fun e he => hevents e (List.mem_cons_of_mem _ he)
    have hevent := hevents event List.mem_cons_self
    cases event with
    | pass => exact ⟨hpost, hrest⟩
    | fail n => exact ⟨(hpart n).1 cause n hevent, hrest⟩
    | crash n => exact (hpart n).2 n hevent

/-- An atomic step that does not pass leaves the state as it was. -/
theorem Ensures.atomic {post : Unit → σ → Prop} {cause : ε} {full : σ → σ} (hsafe : x.Safe s)
    (hpost : post () (full s)) : (Program.atomic cause full).Ensures x post s :=
  .effect (fun _ => hsafe) hpost

theorem Ensures.zoom {t : τ} {y : Exits τ ε} {post : α → τ → Prop} {part : τ → σ} {put : σ → τ → τ}
    (h : c.Ensures ⟨y.allowed, fun e s' => y.fault e (put s' t), fun s' => y.down (put s' t)⟩
      (fun a s' => post a (put s' t)) (part t)) :
    (Program.zoom part put c).Ensures y post t := by
  intro events hevents
  have hc := h events hevents
  change Meets y post (match c (part t) events with
    | .done a s rest => .done a (put s t) rest
    | .error e s rest => .error e (put s t) rest
    | .crashed s => .crashed (put s t))
  cases hout : c (part t) events with
  | done | error | crashed =>
    rw [hout] at hc
    exact hc

theorem Ensures.ite {p : Prop} {_ : Decidable p} {d : Program σ ε α}
    (hc : p → c.Ensures x post s) (hd : ¬ p → d.Ensures x post s) :
    (if p then c else d).Ensures x post s := by
  split
  · next hp => exact hc hp
  · next hp => exact hd hp

/-- **The loop rule.**  What every round keeps, a loop over a list keeps; `inv` is
told what is still to be done. -/
theorem Ensures.forM {f : β → Program σ ε PUnit} (inv : List β → σ → Prop)
    (hstep : ∀ b rest s', inv (b :: rest) s' → (f b).Ensures x (fun _ s'' => inv rest s'') s')
    (items : List β) (s : σ) (h : inv items s) :
    (items.forM f).Ensures x (fun _ s' => inv [] s') s := by
  induction items generalizing s with
  | nil => exact .pure h
  | cons b rest ih =>
    refine .bind ((hstep b rest s h).imp ?_)
    intro _ s' hs'
    exact ih s' hs'

theorem Ensures.foldlM {f : α → β → Program σ ε α} (inv : σ → Prop)
    (hstep : ∀ a b s', inv s' → (f a b).Ensures x (fun _ s'' => inv s'') s')
    (items : List β) (a : α) (s : σ) (h : inv s) :
    (items.foldlM f a).Ensures x (fun _ s' => inv s') s := by
  induction items generalizing a s with
  | nil => exact .pure h
  | cons b rest ih =>
    refine .bind ((hstep a b s h).imp ?_)
    intro a' s' hs'
    exact ih a' s' hs'

/-- What the exits and the postcondition imply of every end holds of the end. -/
@[elab_as_elim]
theorem Ensures.outcome {motive : Outcome σ ε α → Prop} {events : List Event}
    (h : c.Ensures x post s) (hevents : ∀ event ∈ events, x.allowed event)
    (done : ∀ a s' rest, post a s' → motive (.done a s' rest))
    (error : ∀ e s' rest, x.fault e s' → motive (.error e s' rest))
    (crashed : ∀ s', x.down s' → motive (.crashed s')) : motive (c s events) := by
  have hmeets := h events hevents
  cases hout : c s events with
  | done a s' rest =>
    rw [hout] at hmeets
    exact done a s' rest hmeets.1
  | error e s' rest =>
    rw [hout] at hmeets
    exact error e s' rest hmeets.1
  | crashed s' =>
    rw [hout] at hmeets
    exact crashed s' hmeets

/-- **A program that can only return does so when every step passes.** -/
theorem Ensures.returns
    (h : c.Ensures quiet post s) : ∃ a s' rest, c s [] = .done a s' rest ∧ post a s' := by
  refine h.outcome (fun _ he => absurd he List.not_mem_nil) (fun a s' rest hpost => ?_)
    (fun _ _ _ hfalse => hfalse.elim) fun _ hfalse => hfalse.elim
  exact ⟨a, s', rest, rfl, hpost⟩

end Program
end ChironDB.Fault
