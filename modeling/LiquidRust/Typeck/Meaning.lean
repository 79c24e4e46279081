import Mathlib.Data.Set.Insert
import LiquidRust.Fixpoint.Meaning
import LiquidRust.Typeck.Over

set_option relaxedAutoImplicit false
set_option autoImplicit false

/-!
# The meaning of constraints

What a constraint says about values: the unknown predicates are relations, quantifiers range over
the values of their sorts, and an expression holds if it evaluates to `true`. Only the variables
that occur in an expression matter to it, and the binder of a predicate stands for what replaces
it.

## Main definitions

* `LiquidRust.Typeck.Valuation` — values of the variables and of the binder.
* `LiquidRust.Typeck.Expr.eval` — the value of an expression, if it is well-sorted.
* `LiquidRust.Typeck.Interp` — the meaning of the unknown predicates and of division.
* `LiquidRust.Typeck.Pred.Holds`, `Node.Holds` — truth.

## Main results

* `LiquidRust.Typeck.Expr.eval_congr`, `Pred.holds_congr` — only the variables that occur matter.
* `LiquidRust.Typeck.Expr.eval_substBoundVars`, `Pred.holds_substBoundVars` — the binder is
  replaced.
-/

namespace LiquidRust.Typeck

export Fixpoint (Val)

/-- The values of the variables and of the binder. -/
abbrev Valuation := Var → Val

namespace Valuation

variable (ρ : Valuation)

/-- The variable `x` gets another value. -/
def set (x : Name) (v : Val) : Valuation :=
  Function.update ρ (.free x) v

/-- The binder gets another value. -/
def bind (v : Val) : Valuation :=
  Function.update ρ .bound v

/-- A variable has the value it is set to. -/
@[simp] lemma set_self (x : Name) (v : Val) : ρ.set x v (.free x) = v :=
  Function.update_self ..

/-- Setting a variable keeps the bound one. -/
@[simp] lemma set_bound (x : Name) (v : Val) : ρ.set x v .bound = ρ .bound :=
  Function.update_of_ne (by simp) ..

/-- Setting a variable keeps every other one. -/
lemma set_of_ne {x y : Name} (h : y ≠ x) (v : Val) : ρ.set x v (.free y) = ρ (.free y) :=
  Function.update_of_ne (by simpa using h) ..

/-- The bound variable has the value it is bound to. -/
@[simp] lemma bind_bound (v : Val) : ρ.bind v .bound = v :=
  Function.update_self ..

/-- Binding a value keeps the free variables. -/
@[simp] lemma bind_free (x : Name) (v : Val) : ρ.bind v (.free x) = ρ (.free x) :=
  Function.update_of_ne (by simp) ..

/-- Two valuations give the names in `N` and the binder the same values. -/
def AgreeOn (N : Set Name) (ρ ρ' : Valuation) : Prop :=
  ρ .bound = ρ' .bound ∧ ∀ x ∈ N, ρ (.free x) = ρ' (.free x)

variable {ρ} {ρ' : Valuation} {N N' : Set Name}

/-- A valuation agrees with itself. -/
lemma AgreeOn.refl : AgreeOn N ρ ρ :=
  ⟨rfl, fun _ _ => rfl⟩

/-- One agreement after another. -/
lemma AgreeOn.trans {ρ'' : Valuation} (h : AgreeOn N ρ ρ') (h' : AgreeOn N ρ' ρ'') :
    AgreeOn N ρ ρ'' :=
  ⟨h.1.trans h'.1, fun x hx => (h.2 x hx).trans (h'.2 x hx)⟩

/-- Valuations that agree on some names agree on fewer. -/
lemma AgreeOn.mono (h : AgreeOn N' ρ ρ') (hN : N ⊆ N') : AgreeOn N ρ ρ' :=
  ⟨h.1, fun x hx => h.2 x (hN hx)⟩

/-- Binding the same value keeps the agreement. -/
lemma AgreeOn.bind (h : AgreeOn N ρ ρ') (v : Val) : AgreeOn N (ρ.bind v) (ρ'.bind v) :=
  ⟨by simp, fun x hx => by simpa using h.2 x hx⟩

/-- A name outside of `N` gets a value. -/
lemma agreeOn_set {x : Name} (hx : x ∉ N) (v : Val) : AgreeOn N ρ (ρ.set x v) :=
  ⟨by simp, fun y hy => (set_of_ne ρ (ne_of_mem_of_not_mem hy hx) v).symm⟩

end Valuation

/-! ## Expressions -/

/-- The value of an expression. -/
def Expr.eval (div : ℤ → ℤ → ℤ) (ρ : Valuation) : Expr → Option Val
  | .var x => some (ρ x)
  | .constant c => some c.eval
  | .binaryOp op e1 e2 => op.apply div (e1.eval div ρ) (e2.eval div ρ)
  | .unaryOp op e => (e.eval div ρ).bind op.eval

/-- All variables are in `N`; the binder of a predicate does not occur. -/
def Expr.BoundIn (N : Set Name) : Expr → Prop
  | .var (.free x) => x ∈ N
  | .var .bound => False
  | .constant _ => True
  | .binaryOp _ e1 e2 => e1.BoundIn N ∧ e2.BoundIn N
  | .unaryOp _ e => e.BoundIn N

section Expr

variable {div : ℤ → ℤ → ℤ} {ρ ρ' : Valuation} {N N' : Set Name}

/-- An expression without the bound variable is over its names. -/
lemma Expr.BoundIn.over {e : Expr} (h : e.BoundIn N) : e.Over N := by
  induction e with
  | var x =>
    cases x with
    | bound => exact h.elim
    | free x => exact h
  | constant c => trivial
  | binaryOp op e1 e2 ih1 ih2 => exact ⟨ih1 h.1, ih2 h.2⟩
  | unaryOp op e ih => exact ih h

/-- An expression over some names is over more. -/
lemma Expr.BoundIn.mono (hN : N ⊆ N') {e : Expr} (h : e.BoundIn N) : e.BoundIn N' := by
  induction e with
  | var x =>
    cases x with
    | bound => exact h.elim
    | free x => exact hN h
  | constant c => trivial
  | binaryOp op e1 e2 ih1 ih2 => exact ⟨ih1 h.1, ih2 h.2⟩
  | unaryOp op e ih => exact ih h

/-- Without the binder there is nothing to replace. -/
lemma Expr.BoundIn.substBoundVars_eq {e : Expr} (h : e.BoundIn N) (arg : Expr) :
    e.substBoundVars arg = e := by
  induction e with
  | var x =>
    cases x with
    | bound => exact h.elim
    | free x => rfl
  | constant c => rfl
  | binaryOp op e1 e2 ih1 ih2 => rw [substBoundVars, ih1 h.1, ih2 h.2]
  | unaryOp op e ih => rw [substBoundVars, ih h]

/-- What replaces the binder is not replaced itself. -/
lemma Expr.substBoundVars_substBoundVars {arg : Expr} (harg : arg.BoundIn N) (e : Expr) :
    (e.substBoundVars arg).substBoundVars arg = e.substBoundVars arg := by
  induction e with
  | var x =>
    cases x with
    | bound => exact harg.substBoundVars_eq arg
    | free x => rfl
  | constant c => rfl
  | binaryOp op e1 e2 ih1 ih2 => rw [substBoundVars, substBoundVars, ih1, ih2]
  | unaryOp op e ih => rw [substBoundVars, substBoundVars, ih]

/-- A second substitution finds no bound variable left. -/
lemma Pred.substBoundVars_substBoundVars {arg : Expr} (harg : arg.BoundIn N) (p : Pred) :
    (p.substBoundVars arg).substBoundVars arg = p.substBoundVars arg := by
  cases p with
  | kvar kvid args =>
    simp only [substBoundVars, List.map_map]
    congr 1
    exact List.map_congr_left fun e _ => Expr.substBoundVars_substBoundVars harg e
  | expr e => exact congrArg Pred.expr (Expr.substBoundVars_substBoundVars harg e)

/-- Only the variables that occur matter. -/
lemma Expr.eval_congr {e : Expr} (he : e.Over N) (h : Valuation.AgreeOn N ρ ρ') :
    e.eval div ρ = e.eval div ρ' := by
  induction e with
  | var x =>
    cases x with
    | bound => exact congrArg some h.1
    | free x => exact congrArg some (h.2 x he)
  | constant c => rfl
  | binaryOp op e1 e2 ih1 ih2 => rw [eval, eval, ih1 he.1, ih2 he.2]
  | unaryOp op e ih => rw [eval, eval, ih he]

/-- **The binder stands for what replaces it.** -/
lemma Expr.eval_substBoundVars {arg : Expr} {v : Val} (harg : arg.eval div ρ = some v)
    (e : Expr) : (e.substBoundVars arg).eval div ρ = e.eval div (ρ.bind v) := by
  induction e with
  | var x =>
    cases x with
    | bound =>
      rw [substBoundVars, harg, eval, Valuation.bind_bound]
    | free x =>
      rw [substBoundVars, eval, eval, Valuation.bind_free]
  | constant c => rfl
  | binaryOp op e1 e2 ih1 ih2 => rw [substBoundVars, eval, eval, ih1, ih2]
  | unaryOp op e ih => rw [substBoundVars, eval, eval, ih]

end Expr

/-! ## Predicates and trees -/

/-- The meaning of what a constraint leaves open: the solver's division, and the relations that
the unknown predicates stand for. -/
structure Interp where
  div : ℤ → ℤ → ℤ
  kvar : KVid → List Val → Prop

variable (I : Interp)

/-- An expression is true. -/
def Expr.Holds (ρ : Valuation) (e : Expr) : Prop :=
  e.eval I.div ρ = some (.bool true)

/-- What a predicate says, under an interpretation of the unknown ones. -/
def Pred.Holds (ρ : Valuation) : Pred → Prop
  | .kvar kvid args =>
    ∃ vs, List.Forall₂ (fun e v => Expr.eval I.div ρ e = some v) args vs ∧ I.kvar kvid vs
  | .expr e => e.Holds I ρ

mutual

/-- **A constraint is true.** -/
def Node.Holds (ρ : Valuation) : Node → Prop
  | .conj children => Node.AllHold ρ children
  | .forAll x sort p children =>
    ∀ v : Val, v.sort = sort → p.Holds I (ρ.set x v) → Node.AllHold (ρ.set x v) children
  | .guard e children => e.Holds I ρ → Node.AllHold ρ children
  | .head p => p.Holds I ρ

/-- What children say together. -/
def Node.AllHold (ρ : Valuation) : List Node → Prop
  | [] => True
  | child :: children => child.Holds ρ ∧ Node.AllHold ρ children

end

section Holds

variable {I} {ρ ρ' : Valuation} {N : Set Name}

/-- An expression holds alike at valuations that agree on its names. -/
lemma Expr.holds_congr {e : Expr} (he : e.Over N) (h : Valuation.AgreeOn N ρ ρ') :
    e.Holds I ρ ↔ e.Holds I ρ' := by
  rw [Holds, Holds, eval_congr he h]

/-- The values of arguments. -/
lemma Expr.forall₂_eval_congr {args : List Expr} (hargs : ∀ e ∈ args, e.Over N)
    (h : Valuation.AgreeOn N ρ ρ') (vs : List Val) :
    List.Forall₂ (fun e v => Expr.eval I.div ρ e = some v) args vs ↔
      List.Forall₂ (fun e v => Expr.eval I.div ρ' e = some v) args vs := by
  induction args generalizing vs with
  | nil => simp
  | cons e args ih =>
    have ih := ih fun e he => hargs e (.tail _ he)
    simp only [List.forall₂_cons_left_iff, Expr.eval_congr (hargs e (.head _)) h, ih]

/-- A predicate holds alike at valuations that agree on its names. -/
lemma Pred.holds_congr {p : Pred} (hp : p.Over N) (h : Valuation.AgreeOn N ρ ρ') :
    p.Holds I ρ ↔ p.Holds I ρ' := by
  cases p with
  | kvar kvid args =>
    exact exists_congr fun vs => and_congr_left' (Expr.forall₂_eval_congr hp h vs)
  | expr e => exact Expr.holds_congr hp h

/-- **The binder stands for what replaces it.** -/
lemma Pred.holds_substBoundVars {arg : Expr} {v : Val} (harg : arg.eval I.div ρ = some v)
    (p : Pred) : (p.substBoundVars arg).Holds I ρ ↔ p.Holds I (ρ.bind v) := by
  cases p with
  | kvar kvid args =>
    simp only [substBoundVars, Holds, List.forall₂_map_left_iff, Expr.eval_substBoundVars harg]
  | expr e =>
    simp only [substBoundVars, Holds, Expr.Holds, Expr.eval_substBoundVars harg]

/-- The predicate `true` holds. -/
lemma Pred.holds_of_isTrue {p : Pred} (h : p.isTrue = true) : p.Holds I ρ := by
  cases p with
  | kvar kvid args => cases h
  | expr e =>
    have heq : e = .constant (.bool true) := by
      change e.isTrue = true at h
      unfold Expr.isTrue at h
      split at h
      · rfl
      · cases h
    rw [heq]
    rfl

/-- Children hold iff each of them does. -/
lemma Node.allHold_iff {children : List Node} :
    AllHold I ρ children ↔ ∀ child ∈ children, child.Holds I ρ := by
  induction children with
  | nil => simp [AllHold]
  | cons child children ih => simp [AllHold, ih]

/-- Two lists of children hold iff each does. -/
@[simp] lemma Node.allHold_append {cs cs' : List Node} :
    AllHold I ρ (cs ++ cs') ↔ AllHold I ρ cs ∧ AllHold I ρ cs' := by
  simp only [allHold_iff, List.mem_append, or_imp, forall_and]

end Holds

end LiquidRust.Typeck
