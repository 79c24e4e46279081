import Mathlib.Data.Int.Notation
import LiquidRust.Fixpoint.Constraint
import LiquidRust.Syntax.Ast

set_option relaxedAutoImplicit false
set_option autoImplicit false

/-!
# Resolved signatures

The signatures of `liquid-rust-core/src/ty.rs`: the names of an annotation are replaced by
indices, and the types by those of the compiler.

## Main definitions

* `LiquidRust.Core.FnSig`, `Ty`, `BaseTy`, `Pred`, `Expr` — signatures, types, base types,
  predicates, expressions.
* `LiquidRust.Core.BaseTy.sort` — the sort of the indices of a base type.
-/

namespace LiquidRust.Core

export Fixpoint (Srt)
export Syntax (BinOp Symbol)

/-- The index of a parameter or of a location. -/
abbrev Name := ℕ

/-- The compiler's identifier of a definition. -/
abbrev DefId := ℕ

/-- Signed integral types. -/
inductive IntTy
  | isize
  | i8
  | i16
  | i32
  | i64
  | i128
  deriving DecidableEq, Repr

/-- Unsigned integral types. -/
inductive UintTy
  | usize
  | u8
  | u16
  | u32
  | u64
  | u128
  deriving DecidableEq, Repr

/-- A type parameter of a function, by its position. -/
structure ParamTy where
  index : ℕ
  name : Symbol
  deriving DecidableEq, Repr

/-- A variable is the binder of an existential or has a name. -/
inductive Var
  | bound
  | free (name : Name)
  deriving DecidableEq, Repr

/-- Literals of annotations. -/
inductive Lit
  | int (n : ℤ)
  | bool (b : Bool)
  deriving DecidableEq, Repr

/-- A variable keeps the symbol that it has in the annotation. -/
inductive Expr
  | var (x : Var) (symbol : Symbol)
  | literal (lit : Lit)
  | binaryOp (op : BinOp) (e1 e2 : Expr)
  deriving DecidableEq, Repr

/-- The predicate of an existential is given or left to infer. -/
inductive Pred
  | infer
  | expr (e : Expr)
  deriving DecidableEq, Repr

mutual

/-- Types of a resolved signature. -/
inductive Ty
  | refine (bty : BaseTy) (e : Expr)
  | exists_ (bty : BaseTy) (pred : Pred)
  | mutRef (loc : Name)
  | param (p : ParamTy)

/-- Base types of a resolved signature. -/
inductive BaseTy
  | int (int_ty : IntTy)
  | uint (uint_ty : UintTy)
  | bool
  | adt (did : DefId) (args : List Ty)

end

/-- A name with the symbol that it has in the annotation. -/
structure Ident where
  name : Name
  symbol : Symbol
  deriving DecidableEq, Repr

/-- A parameter of a signature, its sort and what is required of it. -/
structure Param where
  name : Ident
  sort : Srt
  pred : Expr
  deriving DecidableEq, Repr

/-- A resolved signature. -/
structure FnSig where
  params : List Param
  requires : List (Name × Ty)
  args : List Ty
  ret : Ty
  ensures : List (Name × Ty)

/-- The sort of the index of a base type. -/
def BaseTy.sort : BaseTy → Srt
  | .int _ => .int
  | .uint _ => .int
  | .bool => .bool
  | .adt _ _ => .int

/-- The sort of a literal. -/
def Lit.sort : Lit → Srt
  | int _ => .int
  | bool _ => .bool

/-- `Expr::TRUE`. -/
def Expr.tt : Expr :=
  .literal (.bool true)

/-- `Pred::TRUE`. -/
def Pred.tt : Pred :=
  .expr .tt

end LiquidRust.Core
