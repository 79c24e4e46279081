import Mathlib.Tactic.Common

set_option relaxedAutoImplicit false
set_option autoImplicit false

/-!
# The syntax of annotations

The parsed annotations of `liquid-rust-syntax/src/ast.rs`, without the source positions.

## Main definitions

* `LiquidRust.Syntax.FnSig`, `Ty`, `Path`, `Expr` — signatures, types, paths, expressions.
-/

namespace LiquidRust.Syntax

/-- An interned string. -/
abbrev Symbol := String

/-- A name in the text of an annotation. -/
abbrev Ident := Symbol

/-- Binary operators of annotations. -/
inductive BinOp
  | iff
  | imp
  | or
  | and
  | eq
  | lt
  | le
  | gt
  | ge
  | add
  | sub
  deriving DecidableEq, Repr

/-- `rustc_ast::token::LitKind`, with one case for the kinds that the resolver rejects. -/
inductive LitKind
  | integer
  | bool
  | other
  deriving DecidableEq, Repr

/-- A literal with its text. -/
structure Lit where
  kind : LitKind
  symbol : Symbol
  deriving DecidableEq, Repr

/-- Expressions of annotations. -/
inductive Expr
  | var (ident : Ident)
  | literal (lit : Lit)
  | binaryOp (op : BinOp) (e1 e2 : Expr)
  deriving DecidableEq, Repr

mutual

/-- Types of annotations. -/
inductive Ty
  | baseTy (path : Path)
  | refineTy (path : Path) (refine : Expr)
  | exists_ (bind : Ident) (path : Path) (pred : Expr)
  | mutRef (region : Ident)

/-- A path with its type arguments. There may be an empty list of them. -/
inductive Path
  | mk (ident : Ident) (args : Option (List Ty))

end

/-- A parameter of a signature, its sort and what is required of it. -/
structure GenericParam where
  name : Ident
  sort : Ident
  pred : Option Expr

/-- A signature as it is parsed. -/
structure FnSig where
  generics : List GenericParam
  requires : List (Ident × Ty)
  args : List Ty
  ret : Ty
  ensures : List (Ident × Ty)

end LiquidRust.Syntax
