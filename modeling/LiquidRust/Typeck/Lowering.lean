import LiquidRust.Typeck.TypeEnv

set_option relaxedAutoImplicit false
set_option autoImplicit false

/-!
# Lowering

The substitutions of `liquid-rust-typeck/src/lowering.rs`, which turn the types of a signature
into types of the checker. At a call, the values of the parameters and the locations are inferred
from the arguments.

## Main definitions

* `LiquidRust.Typeck.Subst` — what the names of a signature stand for.
* `LiquidRust.Typeck.Subst.lowerTy`, `lowerExpr` — lowering.
* `LiquidRust.Typeck.Subst.inferFromFnCall` — the inference at a call.
-/

namespace LiquidRust.Typeck

open Cursor

/-- What the names of a signature stand for. -/
structure Subst where
  locations : Core.Name → Option Loc
  exprs : Core.Name → Option Expr
  types : List Ty

/-- `lower_bin_op`. -/
def lowerBinOp : Core.BinOp → BinOp
  | .iff => .iff
  | .imp => .imp
  | .or => .or
  | .and => .and
  | .eq => .eq
  | .gt => .gt
  | .ge => .ge
  | .lt => .lt
  | .le => .le
  | .add => .add
  | .sub => .sub

/-- `lower_lit`. -/
def lowerLit : Core.Lit → Constant
  | .int n => .ofI128 n
  | .bool b => .bool b

namespace Subst

/-- `with_empty_type_substs`: nothing is known, and there are no type arguments. -/
def withEmptyTypeSubsts : Subst where
  locations := fun _ => none
  exprs := fun _ => none
  types := []

/-- A parameter gets an expression. -/
def insertExpr (subst : Subst) (name : Core.Name) (e : Expr) : Subst :=
  { subst with exprs := Function.update subst.exprs name (some e) }

/-- A name gets a location. -/
def insertLoc (subst : Subst) (name : Core.Name) (loc : Loc) : Subst :=
  { subst with locations := Function.update subst.locations name (some loc) }

/-- The location of a name. -/
def lowerLoc (subst : Subst) (name : Core.Name) : Option Loc :=
  subst.locations name

/-- `lower_var`: a parameter without an expression is a failed lookup. -/
def lowerVar (subst : Subst) : Core.Var → Except Failure Expr
  | .bound => .ok (.var .bound)
  | .free name => orError .lookup (subst.exprs name)

/-- `lower_expr`. -/
def lowerExpr (subst : Subst) : Core.Expr → Except Failure Expr
  | .var x _ => subst.lowerVar x
  | .literal lit => .ok (.constant (lowerLit lit))
  | .binaryOp op e1 e2 => do
    let e1 ← subst.lowerExpr e1
    let e2 ← subst.lowerExpr e2
    pure (.binaryOp (lowerBinOp op) e1 e2)

mutual

/-- A predicate that is left to infer becomes a new unknown one. -/
def lowerTy (subst : Subst) : Core.Ty → CursorM Ty
  | .refine bty e => do
    let bty ← subst.lowerBaseTy bty
    let e ← ofExcept (subst.lowerExpr e)
    pure (.refine bty e)
  | .exists_ bty .infer => do
    let p ← freshKvar bty.sort
    let bty ← subst.lowerBaseTy bty
    pure (.exists_ bty p)
  | .exists_ bty (.expr e) => do
    let e ← ofExcept (subst.lowerExpr e)
    let bty ← subst.lowerBaseTy bty
    pure (.exists_ bty (.expr e))
  | .mutRef loc => do
    let loc ← orFail .lookup (subst.locations loc)
    pure (.strgRef loc)
  | .param p => pure (subst.types[p.index]?.getD (.param p))

/-- `lower_base_ty`. -/
def lowerBaseTy (subst : Subst) : Core.BaseTy → CursorM BaseTy
  | .int int_ty => pure (.int int_ty)
  | .uint uint_ty => pure (.uint uint_ty)
  | .bool => pure .bool
  | .adt did substs => do
    let substs ← subst.lowerTys substs
    pure (.adt did substs)

/-- The arguments of an ADT. -/
def lowerTys (subst : Subst) : List Core.Ty → CursorM Substs
  | [] => pure .nil
  | ty :: tys => do
    let ty ← subst.lowerTy ty
    let tys ← subst.lowerTys tys
    pure (.cons ty tys)

end

/-- The types that the type parameters stand for. -/
def withTypeSubsts (types : List Core.Ty) : CursorM Subst :=
  types.foldlM
    (fun subst ty => do
      let ty ← subst.lowerTy ty
      pure { subst with types := subst.types ++ [ty] })
    withEmptyTypeSubsts

/-- A parameter gets the index of the argument that has it as its index, and a location the one
that the argument points to. There is no way yet to resolve an ambiguity. -/
def inferFromTys (subst : Subst) (ty1 : Ty) (ty2 : Core.Ty) : Except Failure Subst :=
  match ty1, ty2 with
  | .refine _ e, .refine _ (.var (.free name) _) =>
    match subst.exprs name with
    | some old_e => if old_e ≠ e then .error .todo else .ok (subst.insertExpr name e)
    | none => .ok (subst.insertExpr name e)
  | .strgRef loc1, .mutRef loc2 =>
    match subst.locations loc2 with
    | some old_region =>
      if old_region ≠ loc1 then .error .todo else .ok (subst.insertLoc loc2 loc1)
    | none => .ok (subst.insertLoc loc2 loc1)
  | _, _ => .ok subst

/-- Whether all parameters and all locations of `requires` were inferred. -/
def checkInference (subst : Subst) (fn_sig : Core.FnSig) : Bool :=
  (fn_sig.params.all fun param => (subst.exprs param.name.name).isSome) &&
    fn_sig.requires.all fun p => (subst.locations p.1).isSome

/-- `infer_from_tys` on a binding of `requires` and what is at its location. -/
def inferFromRequires (env : TypeEnv) (subst : Subst) (binding : Core.Name × Core.Ty) :
    Except Failure Subst := do
  let loc ← orError .lookup (subst.lowerLoc binding.1)
  let actual ← orError .dangling (env.lookupLoc loc)
  subst.inferFromTys actual binding.2

/-- The substitution for a call, or `none` if something could not be inferred. -/
def inferFromFnCall (subst : Subst) (env : TypeEnv) (actuals : List Ty) (fn_sig : Core.FnSig) :
    Except Failure (Option Subst) := do
  if actuals.length ≠ fn_sig.args.length then .error .assertion
  else do
    let subst ← (actuals.zip fn_sig.args).foldlM
      (fun subst p => subst.inferFromTys p.1 p.2) subst
    let subst ← fn_sig.requires.foldlM (inferFromRequires env) subst
    pure (if subst.checkInference fn_sig then some subst else none)

end Subst

end LiquidRust.Typeck
