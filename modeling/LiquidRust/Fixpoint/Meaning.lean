import Mathlib.Algebra.Order.Ring.Int
import Mathlib.Data.Set.Insert
import Mathlib.Logic.Function.Basic
import LiquidRust.Fixpoint.Constraint

set_option relaxedAutoImplicit false
set_option autoImplicit false

/-!
# The meaning of expressions and constraints

Expressions range over the mathematical integers and the booleans. Evaluation is partial, since
the operators are defined on values of their own sorts only. Division is a parameter, since the
solver's is one of several conventions. The unknown predicates of a constraint are relations on
values, and its quantifiers range over the values of their sorts.

## Main definitions

* `LiquidRust.Fixpoint.Val` — integers and booleans.
* `LiquidRust.Fixpoint.BinOp.eval`, `UnOp.eval`, `Expr.eval` — evaluation.
* `LiquidRust.Fixpoint.BinOp.sort`, `UnOp.sort` — the sorts of what operators compute.
* `LiquidRust.Fixpoint.Constraint.Holds` — truth of a constraint.
* `LiquidRust.Fixpoint.Constraint.ArgsBound` — the arguments of unknown predicates are bound.

## Main results

* `LiquidRust.Fixpoint.BinOp.sort_eval`, `UnOp.sort_eval` — operators respect sorts.
-/

namespace LiquidRust.Fixpoint

/-- A value of one of the two sorts. -/
inductive Val
  | int (n : ℤ)
  | bool (b : Bool)
  deriving DecidableEq, Repr

/-- The sort of a value. -/
def Val.sort : Val → Srt
  | int _ => .int
  | bool _ => .bool

/-- The value of a constant. -/
def Constant.eval : Constant → Val
  | .int .positive n => .int n
  | .int .negative n => .int (-n)
  | .bool b => .bool b

/-- A constant is split into its sign and its absolute value, and denotes itself. -/
@[simp] lemma Constant.eval_ofI128 (c : ℤ) : (Constant.ofI128 c).eval = .int c := by
  rw [ofI128]
  split
  · show Val.int (-(c.natAbs : ℤ)) = _
    congr 1
    omega
  · show Val.int (c.natAbs : ℤ) = _
    congr 1
    omega

/-- A binary operator on values, with `div` for the division. -/
def BinOp.eval (div : ℤ → ℤ → ℤ) : BinOp → Val → Val → Option Val
  | .iff, .bool a, .bool b => some (.bool (a == b))
  | .imp, .bool a, .bool b => some (.bool (!a || b))
  | .or, .bool a, .bool b => some (.bool (a || b))
  | .and, .bool a, .bool b => some (.bool (a && b))
  | .eq, .int a, .int b => some (.bool (decide (a = b)))
  | .eq, .bool a, .bool b => some (.bool (a == b))
  | .ne, .int a, .int b => some (.bool (decide (a ≠ b)))
  | .ne, .bool a, .bool b => some (.bool (a != b))
  | .gt, .int a, .int b => some (.bool (decide (a > b)))
  | .ge, .int a, .int b => some (.bool (decide (a ≥ b)))
  | .lt, .int a, .int b => some (.bool (decide (a < b)))
  | .le, .int a, .int b => some (.bool (decide (a ≤ b)))
  | .add, .int a, .int b => some (.int (a + b))
  | .sub, .int a, .int b => some (.int (a - b))
  | .mul, .int a, .int b => some (.int (a * b))
  | .div, .int a, .int b => some (.int (div a b))
  | _, _, _ => none

/-- A unary operator on values. -/
def UnOp.eval : UnOp → Val → Option Val
  | .not, .bool a => some (.bool (!a))
  | .neg, .int a => some (.int (-a))
  | _, _ => none

/-- A binary operator on results of evaluations. -/
def BinOp.apply (div : ℤ → ℤ → ℤ) (op : BinOp) (a b : Option Val) : Option Val :=
  a.bind fun a => b.bind fun b => op.eval div a b

/-- The value of an expression under an assignment of values to the variables. -/
def Expr.eval (div : ℤ → ℤ → ℤ) (ρ : Name → Val) : Expr → Option Val
  | .var x => some (ρ x)
  | .constant c => some c.eval
  | .binaryOp op e1 e2 => op.apply div (e1.eval div ρ) (e2.eval div ρ)
  | .unaryOp op e => (e.eval div ρ).bind op.eval

/-! ## Sorts -/

/-- The sort of a binary operator's result. -/
def BinOp.sort : BinOp → Srt → Srt → Option Srt
  | .iff, .bool, .bool | .imp, .bool, .bool | .or, .bool, .bool | .and, .bool, .bool =>
    some .bool
  | .eq, s, s' | .ne, s, s' => if s = s' then some .bool else none
  | .gt, .int, .int | .ge, .int, .int | .lt, .int, .int | .le, .int, .int => some .bool
  | .add, .int, .int | .sub, .int, .int | .mul, .int, .int | .div, .int, .int => some .int
  | _, _, _ => none

/-- The sort of a unary operator's result. -/
def UnOp.sort : UnOp → Srt → Option Srt
  | .not, .bool => some .bool
  | .neg, .int => some .int
  | _, _ => none

/-- The sort of a constant. -/
def Constant.sort : Constant → Srt
  | .int _ _ => .int
  | .bool _ => .bool

/-- A binary operator respects sorts. -/
lemma BinOp.sort_eval (div : ℤ → ℤ → ℤ) (op : BinOp) (a b : Val) :
    (op.eval div a b).map Val.sort = op.sort a.sort b.sort := by
  cases op <;> cases a <;> cases b <;> rfl

/-- A unary operator respects sorts. -/
lemma UnOp.sort_eval (op : UnOp) (a : Val) : (op.eval a).map Val.sort = op.sort a.sort := by
  cases op <;> cases a <;> rfl

/-! ## Constraints -/

section Holds

variable (div : ℤ → ℤ → ℤ) (kvar : KVid → List Val → Prop)

/-- An expression is true. -/
def Expr.Holds (ρ : Name → Val) (e : Expr) : Prop :=
  e.eval div ρ = some (.bool true)

mutual

/-- What a predicate says, under an interpretation of the unknown ones. -/
def Pred.Holds (ρ : Name → Val) : Pred → Prop
  | .and preds => Pred.AllHold ρ preds
  | .kvar kvid args => kvar kvid (args.map ρ)
  | .expr e => e.Holds div ρ

/-- What predicates say together. -/
def Pred.AllHold (ρ : Name → Val) : List Pred → Prop
  | [] => True
  | p :: preds => p.Holds ρ ∧ Pred.AllHold ρ preds

end

mutual

/-- **A constraint is true.** -/
def Constraint.Holds (ρ : Name → Val) : Constraint → Prop
  | .pred p => p.Holds div kvar ρ
  | .conj cs => Constraint.AllHold ρ cs
  | .guard body head => body.Holds div ρ → head.Holds ρ
  | .forAll x sort body head =>
    ∀ v : Val, v.sort = sort → body.Holds div kvar (Function.update ρ x v) →
      head.Holds (Function.update ρ x v)

/-- What constraints say together. -/
def Constraint.AllHold (ρ : Name → Val) : List Constraint → Prop
  | [] => True
  | c :: cs => c.Holds ρ ∧ Constraint.AllHold ρ cs

end

end Holds

mutual

/-- The arguments of the unknown predicates in a predicate are in `N`. -/
def Pred.ArgsBound (N : Set Name) : Pred → Prop
  | .and preds => Pred.AllArgsBound N preds
  | .kvar _ args => ∀ x ∈ args, x ∈ N
  | .expr _ => True

/-- The arguments of the unknown predicates in each of a list are in `N`. -/
def Pred.AllArgsBound (N : Set Name) : List Pred → Prop
  | [] => True
  | p :: preds => p.ArgsBound N ∧ Pred.AllArgsBound N preds

end

mutual

/-- **The arguments of unknown predicates are bound** above them or in `N`. -/
def Constraint.ArgsBound (N : Set Name) : Constraint → Prop
  | .pred p => p.ArgsBound N
  | .conj cs => Constraint.AllArgsBound N cs
  | .guard _ head => head.ArgsBound N
  | .forAll x _ body head => body.ArgsBound (insert x N) ∧ head.ArgsBound (insert x N)

/-- The same for each of a list of constraints. -/
def Constraint.AllArgsBound (N : Set Name) : List Constraint → Prop
  | [] => True
  | c :: cs => c.ArgsBound N ∧ Constraint.AllArgsBound N cs

end

end LiquidRust.Fixpoint
