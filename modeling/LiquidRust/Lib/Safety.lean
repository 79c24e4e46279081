import Mathlib.Algebra.Group.Nat.Defs
import Mathlib.Logic.Relation

set_option relaxedAutoImplicit false
set_option autoImplicit false

/-!
# Safety, step by step

A state of a transition system is safe if no run from it comes to a bad state. It is safe for `n`
steps if this is so of the runs of fewer than `n` steps. Safety for all numbers of steps is safety,
and it can be shown of states that lead back to each other: it is enough that they are safe for one
more step than they all are.

## Main definitions

* `LiquidRust.Lib.SafeFor` — safety for a number of steps.

## Main results

* `LiquidRust.Lib.forall_safeFor_iff` — safety for all numbers of steps is safety.
* `LiquidRust.Lib.safeFor_of_guarded` — states that lead back to each other.
-/

namespace LiquidRust.Lib

open Relation (ReflTransGen)

variable {σ : Type} {step : σ → σ → Prop} {ok : σ → Prop} {n : ℕ} {s : σ}

/-- **Safe for `n` steps**: all states that are reached in fewer than `n` steps are `ok`. -/
def SafeFor (step : σ → σ → Prop) (ok : σ → Prop) : ℕ → σ → Prop
  | 0, _ => True
  | n + 1, s => ok s ∧ ∀ s', step s s' → SafeFor step ok n s'

/-- What is safe for a step more is safe. -/
lemma SafeFor.pred (h : SafeFor step ok (n + 1) s) : SafeFor step ok n s := by
  induction n generalizing s with
  | zero => trivial
  | succ n ih => exact ⟨h.1, fun s' hs' => ih (h.2 s' hs')⟩

/-- **Safety for all numbers of steps** is safety. -/
theorem forall_safeFor_iff :
    (∀ n, SafeFor step ok n s) ↔ ∀ s', ReflTransGen step s s' → ok s' := by
  constructor
  · intro h s' hs'
    induction hs' using ReflTransGen.head_induction_on with
    | refl => exact (h 1).1
    | head hstep _ ih => exact ih fun n => (h (n + 1)).2 _ hstep
  · intro h n
    induction n generalizing s with
    | zero => trivial
    | succ n ih =>
      exact ⟨h s .refl, fun s' hs' => ih fun s'' hs'' => h s'' (.head hs' hs'')⟩

/-- **States that lead back to each other** are safe for all numbers of steps, if they are safe for
one more step than they all are. -/
theorem safeFor_of_guarded {P : σ → Prop}
    (h : ∀ n, (∀ s, P s → SafeFor step ok n s) → ∀ s, P s → SafeFor step ok (n + 1) s) :
    ∀ n s, P s → SafeFor step ok n s := by
  intro n
  induction n with
  | zero => exact fun _ _ => trivial
  | succ n ih => exact h n ih

end LiquidRust.Lib
