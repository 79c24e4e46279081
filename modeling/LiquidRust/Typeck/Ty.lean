import LiquidRust.Core.Ty
import Mathlib.Algebra.Group.Nat.Defs

set_option relaxedAutoImplicit false
set_option autoImplicit false

/-!
# The types of the checker

The types of `liquid-rust-typeck/src/ty.rs`. The source interns types and expressions, so that
they are compared by address; here they are compared by structure.

## Main definitions

* `LiquidRust.Typeck.Ty`, `BaseTy`, `Substs`, `Pred`, `Expr` — types, base types, lists of types,
  predicates, expressions.
* `LiquidRust.Typeck.Expr.substBoundVars`, `Pred.substBoundVars` — the binder of a predicate is
  replaced.
* `LiquidRust.Typeck.Ty.walk` — the parts of a type.
-/

namespace LiquidRust.Typeck

export Fixpoint (Name KVid Srt Constant BinOp UnOp)
export Core (DefId IntTy UintTy ParamTy)

/-- The index of a local variable. -/
abbrev Local := ℕ

/-- The place a value lives in: a local variable, or a location that a signature speaks of. -/
inductive Loc
  | local_ (l : Local)
  | abstract (name : Name)
  deriving DecidableEq, Repr

/-- A variable is the binder of an existential or has a name. -/
inductive Var
  | bound
  | free (name : Name)
  deriving DecidableEq, Repr

/-- Expressions of types. -/
inductive Expr
  | var (x : Var)
  | constant (c : Constant)
  | binaryOp (op : BinOp) (e1 e2 : Expr)
  | unaryOp (op : UnOp) (e : Expr)
  deriving DecidableEq, Repr

/-- The predicate of an existential is an expression or unknown. -/
inductive Pred
  | kvar (kvid : KVid) (args : List Expr)
  | expr (e : Expr)
  deriving DecidableEq, Repr

mutual

/-- Types of the checker. -/
inductive Ty
  | refine (bty : BaseTy) (e : Expr)
  | exists_ (bty : BaseTy) (p : Pred)
  | uninit
  | strgRef (loc : Loc)
  | ref (ty : Ty)
  | param (p : ParamTy)
  deriving DecidableEq

/-- Base types of the checker. -/
inductive BaseTy
  | int (int_ty : IntTy)
  | uint (uint_ty : UintTy)
  | bool
  | adt (did : DefId) (substs : Substs)
  deriving DecidableEq

/-- The type arguments of an ADT. -/
inductive Substs
  | nil
  | cons (ty : Ty) (substs : Substs)
  deriving DecidableEq

end

/-- The number of type arguments. -/
def Substs.len : Substs → ℕ
  | nil => 0
  | cons _ substs => substs.len + 1

/-- The sort of the index of a base type. -/
def BaseTy.sort : BaseTy → Srt
  | .int _ => .int
  | .uint _ => .int
  | .bool => .bool
  | .adt _ _ => .int

namespace Expr

/-- `Expr::tt`. -/
def tt : Expr :=
  constant (.bool true)

/-- `Expr::zero`. -/
def zero : Expr :=
  constant .zero

/-- `bits as i128`. -/
def asI128 (bits : ℕ) : ℤ :=
  if bits < 2 ^ 127 then bits else bits - 2 ^ 128

/-- `Expr::from_bits`, with no result for an ADT, nor where the conversion of `i128::MIN`
overflows. -/
def fromBits (bty : BaseTy) (bits : ℕ) : Option Expr :=
  match bty with
  | .int _ => (Fixpoint.Constant.ofI128Checked (asI128 bits)).map constant
  | .uint _ => some (constant (.ofU128 bits))
  | .bool => some (constant (.bool (bits ≠ 0)))
  | .adt _ _ => none

/-- The negation of a Boolean. -/
def not (e : Expr) : Expr :=
  unaryOp .not e

/-- The negation of an integer. -/
def neg (e : Expr) : Expr :=
  unaryOp .neg e

/-- `is_true`: whether an expression is the constant `true`. -/
def isTrue : Expr → Bool
  | constant (.bool true) => true
  | _ => false

/-- The binder is replaced by `arg`. -/
def substBoundVars (e arg : Expr) : Expr :=
  match e with
  | var .bound => arg
  | var (.free x) => var (.free x)
  | constant c => constant c
  | binaryOp op e1 e2 => binaryOp op (e1.substBoundVars arg) (e2.substBoundVars arg)
  | unaryOp op e => unaryOp op (e.substBoundVars arg)

end Expr

namespace Pred

/-- The binder is replaced by `arg`. -/
def substBoundVars (p : Pred) (arg : Expr) : Pred :=
  match p with
  | kvar kvid args => kvar kvid (args.map fun e => e.substBoundVars arg)
  | expr e => expr (e.substBoundVars arg)

/-- `is_true`: whether a predicate is the constant `true`. -/
def isTrue : Pred → Bool
  | kvar _ _ => false
  | expr e => e.isTrue

end Pred

/-- Whether a type is that of uninitialized memory. -/
def Ty.isUninit : Ty → Bool
  | .uninit => true
  | _ => false

mutual

/-- The types that `TyS::walk` visits, in its order. -/
def Ty.walk : Ty → List Ty
  | .ref ty => .ref ty :: ty.walk
  | .refine bty e => .refine bty e :: bty.walk
  | .exists_ bty p => .exists_ bty p :: bty.walk
  | .uninit => [.uninit]
  | .strgRef loc => [.strgRef loc]
  | .param p => [.param p]

/-- The types in a base type. -/
def BaseTy.walk : BaseTy → List Ty
  | .adt _ substs => substs.walk
  | .int _ | .uint _ | .bool => []

/-- The types in type arguments. -/
def Substs.walk : Substs → List Ty
  | .nil => []
  | .cons ty substs => ty.walk ++ substs.walk

end

end LiquidRust.Typeck
