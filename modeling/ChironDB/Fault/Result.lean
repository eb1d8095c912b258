/-
# Checks in sequence

A computation that refuses as soon as one of its checks fails succeeds when all of them do.
-/

import ChironDB.Fault.Program
import Mathlib.Data.Finset.Basic
import Mathlib.Data.Finset.Lattice.Lemmas

namespace ChironDB.Fault

open List

variable {ε α β : Type}

/-- Refuse unless a condition holds. -/
def ensure (condition : Bool) (error : ε) : Except ε Unit :=
  if condition then .ok () else .error error

variable {condition : Bool} {error : ε}

@[simp] theorem ensure_eq_ok {u : Unit} : ensure condition error = .ok u ↔ condition = true := by
  cases condition <;> simp [ensure]

variable {b result : β} {items : List α} {f : α → Except ε β} {results others : List β}
  {R : α → β → Prop} {γ : Type}

theorem seq_eq_ok {x : Except ε Unit} {y : Except ε β} :
    (do x; y) = .ok b ↔ x = .ok () ∧ y = .ok b := by
  rw [bind_eq_ok]
  constructor
  · rintro ⟨u, hx, hy⟩
    exact ⟨hx, hy⟩
  · rintro ⟨hx, hy⟩
    exact ⟨(), hx, hy⟩

theorem exists_unit {p : Unit → Prop} : (∃ u, p u) ↔ p () :=
  ⟨fun ⟨_, h⟩ => h, fun h => ⟨_, h⟩⟩

/-- **A run of checks succeeds when each of its steps does.**  The rules by which `simp only`
reads such a run, from what its steps return down to the conditions it ensures. -/
theorem eq_ok :
    (∀ {ε α β : Type} {x : Except ε α} {f : α → Except ε β} {b : β},
      x >>= f = .ok b ↔ ∃ a, x = .ok a ∧ f a = .ok b) ∧
    (∀ {p : Unit → Prop}, (∃ u, p u) ↔ p ()) ∧
    (∀ {ε α : Type} {a b : α}, (pure a : Except ε α) = .ok b ↔ a = b) ∧
    (∀ {ε : Type} {condition : Bool} {error : ε} {u : Unit},
      ensure condition error = .ok u ↔ condition = true) ∧
    (∀ a b : Bool, (a && b) = true ↔ a = true ∧ b = true) ∧
    ∀ (p : Prop) [Decidable p], decide p = true ↔ p :=
  ⟨bind_eq_ok, exists_unit, pure_eq_ok, ensure_eq_ok, fun _ _ => Bool.and_eq_true_iff,
    fun _ _ => decide_eq_true_iff⟩

theorem forM_eq_ok {f : α → Except ε Unit} :
    items.forM f = .ok () ↔ ∀ item ∈ items, f item = .ok () := by
  induction items with
  | nil => simp [pure, Except.pure]
  | cons item items ih =>
    change (do f item; items.forM f) = .ok () ↔ _
    rw [seq_eq_ok, ih, forall_mem_cons]

theorem mapM_eq_ok :
    items.mapM f = .ok results ↔ items.map f = results.map .ok := by
  induction items generalizing results with
  | nil => simp [pure, Except.pure, eq_comm]
  | cons item items ih =>
    simp only [mapM_cons, bind_eq_ok, ih, pure_eq_ok, map_cons]
    constructor
    · rintro ⟨result, hresult, results, hresults, rfl⟩
      rw [map_cons, hresult, hresults]
    · intro h
      cases results with
      | nil => cases h
      | cons result results =>
        rw [map_cons, List.cons.injEq] at h
        exact ⟨result, h.1, results, h.2, rfl⟩

theorem mapM_eq_ok_iff_forall₂ : items.mapM f = .ok results ↔
    List.Forall₂ (fun item result => f item = .ok result) items results := by
  rw [mapM_eq_ok, ← forall₂_eq_eq_eq, forall₂_map_left_iff, forall₂_map_right_iff]

theorem forall₂_of_mapM_zipIdx {f : α × ℕ → Except ε β} (h : items.zipIdx.mapM f = .ok results)
    (hf : ∀ item i result, f (item, i) = .ok result → R item result) :
    List.Forall₂ R items results := by
  have hall := (mapM_eq_ok_iff_forall₂.mp h).imp fun _ _ hitem => hf _ _ _ hitem
  rw [← zipIdx_map_fst 0 items]
  exact forall₂_map_left_iff.mpr hall

theorem exists_map_of_forall₂ {f : β → γ} {results : List γ}
    (h : List.Forall₂ (fun item result => ∃ b, R item b ∧ result = f b) items results) :
    ∃ found, List.Forall₂ R items found ∧ results = found.map f := by
  induction h with
  | nil => exact ⟨[], .nil, rfl⟩
  | cons hitem _ ih =>
    obtain ⟨b, hb, rfl⟩ := hitem
    obtain ⟨found, hfound, rfl⟩ := ih
    exact ⟨b :: found, .cons hb hfound, rfl⟩

variable {p : α → Prop}

section

variable (h : List.Forall₂ R items others)
include h

theorem forall_mem_of_forall₂ {q : β → Prop}
    (hp : ∀ a ∈ items, p a) (hstep : ∀ a b, R a b → p a → q b) : ∀ b ∈ others, q b := by
  induction h with
  | nil => exact forall_mem_nil _
  | cons hpair _ ih =>
    rw [forall_mem_cons] at hp ⊢
    exact ⟨hstep _ _ hpair hp.1, ih hp.2⟩

theorem forall₂_exists : ∀ a ∈ items, ∃ b ∈ others, R a b := by
  induction h with
  | nil => exact forall_mem_nil _
  | cons hpair _ ih =>
    refine forall_mem_cons.mpr ⟨⟨_, mem_cons_self, hpair⟩, fun a ha => ?_⟩
    exact (ih a ha).imp fun b hb => ⟨mem_cons_of_mem _ hb.1, hb.2⟩

theorem forall₂_map_eq {f : α → γ} {g : β → γ} (hpair : ∀ a b, R a b → g b = f a) :
    others.map g = items.map f := by
  induction h with
  | nil => rfl
  | cons hab _ ih => rw [map_cons, map_cons, hpair _ _ hab, ih]

end

variable {g : β → Except ε γ}

theorem mapM_eq_of_forall₂ {f : α → Except ε γ}
    (h : List.Forall₂ (fun a b => f a = g b) items others) : items.mapM f = others.mapM g := by
  induction h with
  | nil => rfl
  | cons hpair _ ih => rw [mapM_cons, mapM_cons, hpair, ih]

theorem forall₂_join {S : α → γ → Prop} {found : List γ} (h : List.Forall₂ R items others)
    (hfound : List.Forall₂ S items found) :
    List.Forall₂ (fun b c => ∃ a, R a b ∧ S a c) others found := by
  induction h generalizing found with
  | nil =>
    cases hfound
    exact .nil
  | cons hpair _ ih =>
    cases hfound with
    | cons hhead hrest => exact .cons ⟨_, hpair, hhead⟩ (ih hrest)

/-- **Two loops with the same results**, if each round of the second has the result of the first. -/
theorem mapM_congr_of_forall₂ {f : α → Except ε γ} {results : List γ}
    (h : List.Forall₂ (fun a b => ∀ c, f a = .ok c → g b = .ok c) items others)
    (hf : items.mapM f = .ok results) : others.mapM g = .ok results := by
  refine mapM_eq_ok_iff_forall₂.mpr ((forall₂_join h (mapM_eq_ok_iff_forall₂.mp hf)).imp ?_)
  rintro b c ⟨a, hpair, hitem⟩
  exact hpair c hitem

/-- A loop that refuses what it has met before succeeds on the lists whose items are apart. -/
theorem foldlM_fresh {check : α → Except ε Unit} {fresh : β → α → Bool} {note : β → α → β}
    {apart : α → α → Prop} (hnote : ∀ b first second, fresh (note b first) second = true ↔
      apart first second ∧ fresh b second = true) :
    (∃ result, items.foldlM (fun b item => do
        check item
        ensure (fresh b item) error
        pure (note b item)) b = .ok result) ↔
      (∀ item ∈ items, check item = .ok ()) ∧ (∀ item ∈ items, fresh b item = true) ∧
        items.Pairwise apart := by
  induction items generalizing b with
  | nil => simp [pure, Except.pure]
  | cons item items ih =>
    simp only [foldlM_cons, bind_eq_ok, exists_unit, ensure_eq_ok, pure_eq_ok,
      forall_mem_cons, pairwise_cons] at ih ⊢
    constructor
    · rintro ⟨result, _, ⟨hcheck, hfresh, rfl⟩, hrest⟩
      obtain ⟨hchecks, hfreshes, hapart⟩ := ih.mp ⟨result, hrest⟩
      exact ⟨⟨hcheck, hchecks⟩, ⟨hfresh, fun a ha => ((hnote _ _ _).mp (hfreshes a ha)).2⟩,
        fun a ha => ((hnote _ _ _).mp (hfreshes a ha)).1, hapart⟩
    · rintro ⟨⟨hcheck, hchecks⟩, ⟨hfresh, hfreshes⟩, happart, hapart⟩
      obtain ⟨result, hresult⟩ := ih.mpr
        ⟨hchecks, fun a ha => (hnote b item a).mpr ⟨happart a ha, hfreshes a ha⟩, hapart⟩
      exact ⟨result, _, ⟨hcheck, hfresh, rfl⟩, hresult⟩

theorem foldlM_invariant {f : β → α → Except ε β} (keeps : β → Prop)
    (hstep : ∀ b, ∀ a ∈ items, ∀ b', keeps b → f b a = .ok b' → keeps b')
    (h : items.foldlM f b = .ok result) (hb : keeps b) : keeps result := by
  induction items generalizing b with
  | nil =>
    cases h
    exact hb
  | cons item items ih =>
    rw [foldlM_cons, bind_eq_ok] at h
    obtain ⟨next, hnext, hrest⟩ := h
    exact ih (fun b a ha => hstep b a (mem_cons_of_mem _ ha)) hrest
      (hstep _ item mem_cons_self _ hb hnext)

/-- What a step of a loop checks about its item holds of all items. -/
theorem foldlM_forall {f : β → α → Except ε β} (hstep : ∀ b a b', f b a = .ok b' → p a)
    (h : items.foldlM f b = .ok result) : ∀ item ∈ items, p item := by
  induction items generalizing b with
  | nil => exact forall_mem_nil _
  | cons item items ih =>
    rw [foldlM_cons, bind_eq_ok] at h
    obtain ⟨next, hnext, hrest⟩ := h
    exact forall_mem_cons.mpr ⟨hstep _ _ _ hnext, ih hrest⟩

theorem foldlM_eq_foldl {f : β → α → Except ε β} {g : β → α → β}
    (h : ∀ item ∈ items, ∀ b, f b item = .ok (g b item)) :
    items.foldlM f b = .ok (items.foldl g b) := by
  induction items generalizing b with
  | nil => rfl
  | cons item items ih =>
    rw [forall_mem_cons] at h
    rw [foldlM_cons, h.1 b, foldl_cons]
    exact ih h.2

variable {first n : ℕ}

/-- A loop over consecutive numbers whose state is a function of the number it is at. -/
theorem foldlM_range' {f : β → ℕ → Except ε β} (g : ℕ → β)
    (hstep : ∀ i, first ≤ i → i < first + n → f (g i) i = .ok (g (i + 1))) :
    (List.range' first n).foldlM f (g first) = .ok (g (first + n)) := by
  induction n generalizing first with
  | zero => rfl
  | succ n ih =>
    rw [range'_succ, foldlM_cons, hstep first (Nat.le_refl _) (by omega)]
    have hrest := @ih (first + 1) fun i hlow hhigh => hstep i (by omega) (by omega)
    rw [show first + (n + 1) = first + 1 + n by omega]
    exact hrest

theorem foldlM_range'_ok {f : β → ℕ → Except ε β} (g : ℕ → β) {p : ℕ → Prop}
    (hstep : ∀ i b, first ≤ i → i < first + n → f (g i) i = .ok b → b = g (i + 1) ∧ p i)
    (h : (List.range' first n).foldlM f (g first) = .ok b) :
    b = g (first + n) ∧ ∀ i, first ≤ i → i < first + n → p i := by
  induction n generalizing first with
  | zero =>
    cases h
    exact ⟨rfl, fun i hlow hhigh => by omega⟩
  | succ n ih =>
    rw [range'_succ, foldlM_cons, bind_eq_ok] at h
    obtain ⟨next, hnext, hrest⟩ := h
    obtain ⟨rfl, hfirst⟩ := hstep first next (Nat.le_refl _) (by omega) hnext
    obtain ⟨hb, hall⟩ := @ih (first + 1)
      (fun i b hlow hhigh => hstep i b (by omega) (by omega)) hrest
    refine ⟨by rw [hb, show first + (n + 1) = first + 1 + n by omega], fun i hlow hhigh => ?_⟩
    rcases Nat.eq_or_lt_of_le hlow with rfl | hlt
    · exact hfirst
    · exact hall i hlt (by omega)

/-- A loop that follows another one step by step succeeds with it. -/
theorem foldlM_simulates {f : β → α → Except ε β} {g : γ → α → Except ε γ} (view : β → γ)
    (hstep : ∀ b a b', f b a = .ok b' → g (view b) a = .ok (view b'))
    (h : items.foldlM f b = .ok result) :
    items.foldlM g (view b) = .ok (view result) := by
  induction items generalizing b with
  | nil =>
    cases h
    rfl
  | cons item items ih =>
    rw [foldlM_cons, bind_eq_ok] at h
    obtain ⟨next, hnext, hrest⟩ := h
    rw [foldlM_cons, bind_eq_ok]
    exact ⟨view next, hstep _ _ _ hnext, ih hrest⟩

/-- A loop that refuses a key it has met and notes the others. -/
theorem foldlM_nodup {κ : Type} [DecidableEq κ] {key : α → κ}
    {f : Finset κ → α → Except ε (Finset κ)}
    (hstep : ∀ seen a next, f seen a = .ok next → key a ∉ seen ∧ next = insert (key a) seen)
    {seen after : Finset κ} (h : items.foldlM f seen = .ok after) :
    (items.map key).Nodup ∧ (∀ item ∈ items, key item ∉ seen) ∧
      after = seen ∪ (items.map key).toFinset := by
  induction items generalizing seen with
  | nil =>
    cases h
    simp
  | cons item items ih =>
    rw [foldlM_cons, bind_eq_ok] at h
    obtain ⟨next, hnext, h⟩ := h
    obtain ⟨hfresh, rfl⟩ := hstep _ _ _ hnext
    obtain ⟨hnodup, hrest, rfl⟩ := ih h
    refine ⟨?_, ?_, ?_⟩
    · rw [map_cons, nodup_cons]
      refine ⟨fun hmem => ?_, hnodup⟩
      obtain ⟨other, hother, heq⟩ := mem_map.mp hmem
      exact hrest other hother (by rw [heq]; exact Finset.mem_insert_self _ _)
    · exact forall_mem_cons.mpr ⟨hfresh, fun other hother hseen =>
        hrest other hother (Finset.mem_insert_of_mem hseen)⟩
    · rw [map_cons, toFinset_cons, Finset.insert_union, Finset.union_insert]

/-- A loop that adds one item to a list in every round. -/
theorem foldlM_collects {f : β → α → Except ε β} {view : β → List γ} {key : α → γ}
    (hstep : ∀ b a b', f b a = .ok b' → view b' = view b ++ [key a])
    (h : items.foldlM f b = .ok result) :
    view result = view b ++ items.map key := by
  induction items generalizing b with
  | nil =>
    cases h
    simp
  | cons item items ih =>
    rw [foldlM_cons, bind_eq_ok] at h
    obtain ⟨next, hnext, h⟩ := h
    rw [ih h, hstep _ _ _ hnext, append_assoc]
    rfl

/-! ## An error that does not occur -/

/-- A computation does not fail with an error. -/
def Avoids (error : ε) (x : Except ε α) : Prop := x ≠ .error error

namespace Avoids

theorem ok (a : α) : Avoids error (.ok a) := fun h => by cases h

theorem ensure {other : ε} (h : other ≠ error) : Avoids error (ensure condition other) := by
  cases condition
  · exact fun heq => h (Except.error.inj heq)
  · exact fun heq => by cases heq

theorem bind {x : Except ε α} (hx : Avoids error x)
    (hf : ∀ a, x = .ok a → Avoids error (f a)) : Avoids error (x >>= f) := by
  cases x with
  | ok a => exact hf a rfl
  | error other => exact fun h => hx (by cases h; rfl)

theorem forM {f : α → Except ε Unit} (hf : ∀ item ∈ items, Avoids error (f item)) :
    Avoids error (items.forM f) := by
  induction items with
  | nil => exact .ok ()
  | cons item items ih =>
    rw [forall_mem_cons] at hf
    exact hf.1.bind fun _ _ => ih hf.2

theorem foldlM {f : β → α → Except ε β} (hf : ∀ b item, Avoids error (f b item))
    : Avoids error (items.foldlM f b) := by
  induction items generalizing b with
  | nil => exact .ok b
  | cons item items ih => exact (hf b item).bind fun next _ => ih

theorem mapM (hf : ∀ item, Avoids error (f item)) :
    Avoids error (items.mapM f) := by
  induction items with
  | nil => exact .ok []
  | cons item items ih =>
    rw [mapM_cons]
    exact (hf item).bind fun result _ => ih.bind fun results _ => .ok _

end Avoids

/-! ## How a computation ends -/

/-- It ends with a value that meets a condition, or with an error that meets another one. -/
def Ends (post : α → Prop) (fault : ε → Prop) : Except ε α → Prop
  | .ok a => post a
  | .error e => fault e

namespace Ends

variable {post : β → Prop} {fault : ε → Prop}

theorem ensure {f : Unit → Except ε β} (hf : condition = true → Ends post fault (f ()))
    (hfault : ¬ condition = true → fault error) :
    Ends post fault (Fault.ensure condition error >>= f) := by
  cases condition with
  | true => exact hf rfl
  | false => exact hfault Bool.false_ne_true

theorem bind {middle : α → Prop} {x : Except ε α} (hx : Ends middle fault x)
    (hf : ∀ a, middle a → Ends post fault (f a)) : Ends post fault (x >>= f) := by
  cases x with
  | ok a => exact hf a hx
  | error e => exact hx

theorem mono {weaker : β → Prop} {other : ε → Prop} {x : Except ε β} (h : Ends post fault x)
    (hpost : ∀ b, post b → weaker b) (hfault : ∀ e, fault e → other e) : Ends weaker other x := by
  cases x with
  | ok a => exact hpost a h
  | error e => exact hfault e h

/-- **A loop**, with what holds after the items that are done. -/
theorem foldlM {f : β → α → Except ε β} (keeps : List α → β → Prop) (hb : keeps [] b)
    (hstep : ∀ done b, ∀ item ∈ items, keeps done b →
      Ends (keeps (done ++ [item])) fault (f b item)) :
    Ends (keeps items) fault (items.foldlM f b) := by
  induction items generalizing keeps b with
  | nil => exact hb
  | cons item items ih =>
    rw [foldlM_cons]
    refine bind (hstep [] b item mem_cons_self hb) fun next hnext => ?_
    exact ih (fun done => keeps (item :: done)) hnext fun done b other hother =>
      hstep (item :: done) b other (mem_cons_of_mem _ hother)

end Ends

end ChironDB.Fault
