import Mathlib.Data.List.Forall2

set_option relaxedAutoImplicit false
set_option autoImplicit false

/-!
# Functions that report errors

A function of the driver returns a value, or it fails after errors have been reported to the
session, or it panics. A failure does not end the traversal of a list by
`try_collect_exhaust` (`liquid-rust-common/src/iter.rs`): the remaining elements are processed
and all their errors are reported. A panic ends everything.

## Main definitions

* `LiquidRust.Common.Outcome` — what a function does.
* `LiquidRust.Common.Outcome.both` — two computations that both run.
* `LiquidRust.Common.tryCollectExhaust` — `try_collect_exhaust` with a closure that changes a
  state.

## Main results

* `LiquidRust.Common.tryCollectExhaust_eq_ok` — a traversal succeeds iff every element does.
-/

namespace LiquidRust.Common

/-- What a function does: it returns, fails with the errors that were reported, or panics. -/
inductive Outcome (δ α : Type)
  | ok (a : α)
  | err (ds : List δ)
  | panic
  deriving DecidableEq, Repr

namespace Outcome

variable {δ α β : Type}

instance : Monad (Outcome δ) where
  pure := ok
  bind
    | ok a, f => f a
    | err ds, _ => err ds
    | panic, _ => panic

/-- Two computations of which the second runs although the first has failed. -/
def both : Outcome δ α → Outcome δ β → Outcome δ (α × β)
  | panic, _ | _, panic => panic
  | ok a, ok b => ok (a, b)
  | err ds, ok _ | ok _, err ds => err ds
  | err ds, err ds' => err (ds ++ ds')

/-- No panic. -/
def NoPanic : Outcome δ α → Prop
  | panic => False
  | _ => True

/-- A result. -/
def IsOk : Outcome δ α → Prop
  | ok _ => True
  | _ => False

/-- A result is `Ok`. -/
@[simp] lemma pure_eq_ok (a : α) : (pure a : Outcome δ α) = ok a := rfl

/-- `Ok` goes on with its value. -/
@[simp] lemma ok_bind (a : α) (f : α → Outcome δ β) : ok a >>= f = f a := rfl

/-- Errors skip what comes after them. -/
@[simp] lemma err_bind (ds : List δ) (f : α → Outcome δ β) : err ds >>= f = err ds := rfl

/-- A panic skips what comes after it. -/
@[simp] lemma panic_bind (f : α → Outcome δ β) : panic >>= f = panic := rfl

/-- `Ok` is no panic. -/
@[simp] lemma noPanic_ok (a : α) : (ok a : Outcome δ α).NoPanic := trivial

/-- Errors are no panic. -/
@[simp] lemma noPanic_err (ds : List δ) : (err ds : Outcome δ α).NoPanic := trivial

/-- A panic is one. -/
@[simp] lemma not_noPanic_panic : ¬(panic : Outcome δ α).NoPanic := id

/-- A sequence is `Ok` iff both steps are. -/
lemma bind_eq_ok {x : Outcome δ α} {f : α → Outcome δ β} {b : β} :
    x >>= f = ok b ↔ ∃ a, x = ok a ∧ f a = ok b := by
  cases x <;> simp

/-- The result of a function of a value is `Ok` iff the value is. -/
@[simp] lemma map_eq_ok {x : Outcome δ α} {f : α → β} {b : β} :
    f <$> x = ok b ↔ ∃ a, x = ok a ∧ f a = b := by
  cases x <;> simp [Functor.map]

/-- Two outcomes side by side are `Ok` iff each one is. -/
@[simp] lemma both_eq_ok {x : Outcome δ α} {y : Outcome δ β} {p : α × β} :
    x.both y = ok p ↔ x = ok p.1 ∧ y = ok p.2 := by
  cases x <;> cases y <;> simp [both, Prod.ext_iff]

/-- `Ok` is `Ok`, whatever the value is. -/
@[simp] lemma isOk_ok (a : α) : (ok a : Outcome δ α).IsOk := trivial

/-- A function of the value does not change whether there is one. -/
@[simp] lemma isOk_map {x : Outcome δ α} {f : α → β} : (f <$> x).IsOk ↔ x.IsOk := by
  cases x <;> rfl

/-- Two outcomes side by side have a value iff each one has. -/
@[simp] lemma isOk_both {x : Outcome δ α} {y : Outcome δ β} :
    (x.both y).IsOk ↔ x.IsOk ∧ y.IsOk := by
  cases x <;> cases y <;> simp [both, IsOk]

/-- There is one value of the unit type. -/
lemma isOk_unit {x : Outcome δ Unit} : x.IsOk ↔ x = ok () := by
  cases x <;> simp [IsOk]

/-- A sequence does not panic if no step does. -/
lemma NoPanic.bind {x : Outcome δ α} {f : α → Outcome δ β} (h : x.NoPanic)
    (hf : ∀ a, x = ok a → (f a).NoPanic) : (x >>= f).NoPanic := by
  cases x with
  | ok a => exact hf a rfl
  | err ds => trivial
  | panic => exact h

/-- A function of the value does not panic. -/
lemma NoPanic.map {x : Outcome δ α} (h : x.NoPanic) (f : α → β) : (f <$> x).NoPanic :=
  h.bind fun _ _ => trivial

/-- Two outcomes side by side do not panic if neither does. -/
lemma NoPanic.both {x : Outcome δ α} {y : Outcome δ β} (hx : x.NoPanic) (hy : y.NoPanic) :
    (x.both y).NoPanic := by
  cases x <;> cases y <;> trivial

end Outcome

open Outcome

variable {δ α β σ : Type}

/-- `IterExt::try_collect_exhaust`, for a closure that changes a state `σ`. -/
def tryCollectExhaust (f : σ → α → σ × Outcome δ β) (s : σ) :
    List α → σ × Outcome δ (List β)
  | [] => (s, .ok [])
  | a :: as =>
    let (s₁, b) := f s a
    let (s₂, bs) := tryCollectExhaust f s₁ as
    (s₂, (fun p => p.1 :: p.2) <$> b.both bs)

/-- There is nothing to collect in an empty list. -/
@[simp] lemma tryCollectExhaust_nil (f : σ → α → σ × Outcome δ β) (s : σ) :
    tryCollectExhaust f s [] = (s, .ok []) := rfl

/-- The first element beside the collection of the others, whether or not it fails. -/
lemma tryCollectExhaust_cons (f : σ → α → σ × Outcome δ β) (s : σ) (a : α) (as : List α) :
    tryCollectExhaust f s (a :: as) =
      ((tryCollectExhaust f (f s a).1 as).1,
        (fun p => p.1 :: p.2) <$> (f s a).2.both (tryCollectExhaust f (f s a).1 as).2) := rfl

/-- **A traversal from a state to another succeeds iff every element does.** -/
theorem tryCollectExhaust_eq_ok {f : σ → α → σ × Outcome δ β} {s s' : σ} {a : α} {as : List α}
    {bs : List β} :
    tryCollectExhaust f s (a :: as) = (s', .ok bs) ↔
      ∃ s₁ b bs', f s a = (s₁, .ok b) ∧ tryCollectExhaust f s₁ as = (s', .ok bs') ∧
        bs = b :: bs' := by
  rw [tryCollectExhaust_cons, Prod.ext_iff]
  simp only [map_eq_ok, both_eq_ok, Prod.exists]
  constructor
  · rintro ⟨rfl, b, bs', ⟨hb, hbs⟩, rfl⟩
    exact ⟨_, b, bs', Prod.ext rfl hb, Prod.ext rfl hbs, rfl⟩
  · rintro ⟨s₁, b, bs', hb, hbs, rfl⟩
    rw [hb]
    exact ⟨congrArg Prod.fst hbs, b, bs', ⟨rfl, congrArg Prod.snd hbs⟩, rfl⟩

/-- A traversal whose elements succeed under a condition, as long as the state satisfies an
invariant, succeeds if all of them meet the condition. -/
lemma tryCollectExhaust_forall {f : σ → α → σ × Outcome δ β} {I : σ → Prop} {P : α → Prop}
    {as : List α} (h : ∀ s, I s → ∀ a ∈ as, I (f s a).1 ∧ (f s a).2.NoPanic ∧
      ((f s a).2.IsOk ↔ P a)) {s : σ} (hs : I s) :
    I (tryCollectExhaust f s as).1 ∧ (tryCollectExhaust f s as).2.NoPanic ∧
      ((tryCollectExhaust f s as).2.IsOk ↔ ∀ a ∈ as, P a) := by
  induction as generalizing s with
  | nil => exact ⟨hs, trivial, by simp⟩
  | cons a as ih =>
    obtain ⟨hI, hp, hP⟩ := h s hs a (.head _)
    obtain ⟨hI', hp', hP'⟩ := ih (fun s hs a ha => h s hs a (.tail _ ha)) hI
    rw [tryCollectExhaust_cons]
    refine ⟨hI', (hp.both hp').map _, ?_⟩
    rw [List.forall_mem_cons, ← hP, ← hP', isOk_map, isOk_both]

end LiquidRust.Common
