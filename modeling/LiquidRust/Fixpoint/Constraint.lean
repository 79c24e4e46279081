import Mathlib.Algebra.Group.Int.Defs
import Mathlib.Tactic.Common

set_option relaxedAutoImplicit false
set_option autoImplicit false

/-!
# The constraints sent to the solver

The data types of `liquid-rust-fixpoint/src/constraint.rs`, and the text of an expression. The
solver reads constraints as text, so what an expression means to it is decided by its `Display`
output.

## Main definitions

* `LiquidRust.Fixpoint.Expr`, `Pred`, `Constraint` — expressions, predicates, constraints.
* `LiquidRust.Fixpoint.BinOp.precedence`, `Precedence.isAssociative` — the operator table.
* `LiquidRust.Fixpoint.Expr.display` — the text of an expression.
-/

namespace LiquidRust.Fixpoint

/-- The index of a variable. -/
abbrev Name := Nat

/-- The index of an unknown predicate. -/
abbrev KVid := Nat

/-- `Sort`, which is a keyword of Lean. -/
inductive Srt
  | int
  | bool
  deriving DecidableEq, Repr

/-- The sign of an integer constant. -/
inductive Sign
  | positive
  | negative
  deriving DecidableEq, Repr

/-- Integer constants are a sign and a magnitude. -/
inductive Constant
  | int (sign : Sign) (n : Nat)
  | bool (b : Bool)
  deriving DecidableEq, Repr

/-- Binary operators of constraints. -/
inductive BinOp
  | iff
  | imp
  | or
  | and
  | eq
  | ne
  | gt
  | ge
  | lt
  | le
  | add
  | sub
  | mul
  | div
  deriving DecidableEq, Repr

/-- Unary operators of constraints. -/
inductive UnOp
  | not
  | neg
  deriving DecidableEq, Repr

/-- Expressions of constraints. -/
inductive Expr
  | var (x : Name)
  | constant (c : Constant)
  | binaryOp (op : BinOp) (e1 e2 : Expr)
  | unaryOp (op : UnOp) (e : Expr)
  deriving DecidableEq, Repr

/-- Predicates of constraints. The arguments of an unknown one are variables. -/
inductive Pred
  | and (preds : List Pred)
  | kvar (kvid : KVid) (args : List Name)
  | expr (e : Expr)

/-- Constraints: predicates under guards and quantifiers. -/
inductive Constraint
  | pred (p : Pred)
  | conj (cs : List Constraint)
  | guard (body : Expr) (head : Constraint)
  | forAll (x : Name) (sort : Srt) (body : Pred) (head : Constraint)

/-- `Constraint::TRUE`. -/
def Constraint.tt : Constraint :=
  .pred (.expr (.constant (.bool true)))

/-- `Constant::ZERO`. -/
def Constant.zero : Constant :=
  .int .positive 0

/-- `From<u128> for Constant`. -/
def Constant.ofU128 (c : Nat) : Constant :=
  .int .positive c

/-- `From<i128> for Constant`. The negation of `i128::MIN` overflows; without overflow checks the
magnitude is still this one. -/
def Constant.ofI128 (c : Int) : Constant :=
  if c < 0 then .int .negative c.natAbs else .int .positive c.natAbs

/-- `-c` for an `i128` with overflow checks. -/
def checkedNeg (c : Int) : Option Int :=
  if c = -2 ^ 127 then none else some (-c)

/-- `From<i128> for Constant` with overflow checks. -/
def Constant.ofI128Checked (c : Int) : Option Constant :=
  if c < 0 then (checkedNeg c).map fun n => .int .negative n.toNat
  else some (.int .positive c.toNat)

/-! ## Operators -/

/-- The precedences of operators, from the loosest to the tightest. -/
inductive Precedence
  | iff
  | imp
  | or
  | and
  | cmp
  | addSub
  | mulDiv
  deriving DecidableEq, Repr

/-- The place of a precedence in the declaration order, by which precedences are compared. -/
def Precedence.level : Precedence → Nat
  | iff => 0
  | imp => 1
  | or => 2
  | and => 3
  | cmp => 4
  | addSub => 5
  | mulDiv => 6

instance : LT Precedence :=
  ⟨fun p q => p.level < q.level⟩

instance (p q : Precedence) : Decidable (p < q) :=
  inferInstanceAs (Decidable (p.level < q.level))

/-- The precedence of a binary operator. -/
def BinOp.precedence : BinOp → Precedence
  | iff => .iff
  | imp => .imp
  | or => .or
  | and => .and
  | eq | ne | gt | lt | ge | le => .cmp
  | add | sub => .addSub
  | mul | div => .mulDiv

/-- Operators of a precedence associate, but for implications and comparisons. -/
def Precedence.isAssociative (p : Precedence) : Bool :=
  !(p = imp || p = cmp)

/-! ## Text -/

/-- The text of a binary operator. -/
def BinOp.display : BinOp → String
  | iff => "<=>"
  | imp => "=>"
  | or => "||"
  | and => "&&"
  | eq => "="
  | ne => "/="
  | gt => ">"
  | ge => ">="
  | lt => "<"
  | le => "<="
  | add => "+"
  | sub => "-"
  | mul => "*"
  | div => "/"

/-- The text of a unary operator. -/
def UnOp.display : UnOp → String
  | not => "~"
  | neg => "-"

/-- The text of a constant. -/
def Constant.display : Constant → String
  | int .positive n => toString n
  | int .negative n => "-" ++ toString n
  | bool b => toString b

/-- Whether an operand is put in parentheses, on either side of the operator. -/
def shouldParenthesize (op : BinOp) : Expr → Bool
  | .binaryOp childOp _ _ =>
    childOp.precedence < op.precedence ||
      (childOp.precedence = op.precedence && !op.precedence.isAssociative)
  | _ => false

/-- Whether the operand of a unary operator is written without parentheses. -/
def Expr.isConstantOrVar : Expr → Bool
  | .constant _ | .var _ => true
  | _ => false

/-- The text of an expression. -/
def Expr.display : Expr → String
  | .var x => "a" ++ toString x
  | .constant c => c.display
  | .binaryOp op e1 e2 =>
    (if shouldParenthesize op e1 then "(" ++ e1.display ++ ")" else e1.display) ++
      " " ++ op.display ++ " " ++
      (if shouldParenthesize op e2 then "(" ++ e2.display ++ ")" else e2.display)
  | .unaryOp op e =>
    if e.isConstantOrVar then op.display ++ e.display else op.display ++ "(" ++ e.display ++ ")"

end LiquidRust.Fixpoint
