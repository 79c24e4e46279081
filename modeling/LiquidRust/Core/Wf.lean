import LiquidRust.Common.Outcome
import LiquidRust.Core.Ty

set_option relaxedAutoImplicit false
set_option autoImplicit false

/-!
# The sort checker of signatures

The checker of `liquid-rust-core/src/wf.rs`. It walks over a signature with one environment,
which holds the sorts of the parameters and that of the last binder seen.

## Main definitions

* `LiquidRust.Core.Wf.checkFnSig`, `checkType`, `checkExpr`, `synthExpr` — the checker.
-/

namespace LiquidRust.Core.Wf

open Common

/-- The sorts of the variables in scope. -/
abbrev Env := Var → Option Srt

/-- `report_mismatch`, the error `mismatched sorts`. -/
structure Mismatch where
  expected : Srt
  found : Srt
  deriving DecidableEq, Repr

/-- The environment of `FxHashMap::insert`. -/
def Env.insert (env : Env) (x : Var) (s : Srt) : Env :=
  Function.update env x (some s)

/-- `check_expr`, on the result of `synth_expr`. -/
def expect (expected : Srt) (found : Outcome Mismatch Srt) : Outcome Mismatch Unit := do
  let s ← found
  if s ≠ expected then .err [⟨expected, s⟩] else pure ()

/-- `synth_expr` and `synth_binary_op`. A variable without a sort is a panic. -/
def synthExpr (env : Env) : Expr → Outcome Mismatch Srt
  | .var x _ =>
    match env x with
    | some s => .ok s
    | none => .panic
  | .literal lit => .ok lit.sort
  | .binaryOp op e1 e2 =>
    match op with
    | .iff | .imp => do
      expect .bool (synthExpr env e1)
      expect .bool (synthExpr env e2)
      pure .bool
    | .eq => do
      let s ← synthExpr env e1
      expect s (synthExpr env e2)
      pure .bool
    | .lt | .le | .gt | .ge => do
      expect .int (synthExpr env e1)
      expect .int (synthExpr env e2)
      pure .bool
    | .add | .sub => do
      expect .int (synthExpr env e1)
      expect .int (synthExpr env e2)
      pure .int
    | .or | .and => do
      expect .bool (synthExpr env e1)
      expect .bool (synthExpr env e2)
      pure .bool

/-- `check_expr`: the sort of an expression is the expected one. -/
def checkExpr (env : Env) (e : Expr) (expected : Srt) : Outcome Mismatch Unit :=
  expect expected (synthExpr env e)

/-- `check_pred`, with a panic where the source has a `todo!`. -/
def checkPred (env : Env) (pred : Pred) (sort : Srt) : Outcome Mismatch Unit :=
  match pred with
  | .infer => .panic
  | .expr e => checkExpr env e sort

/-- The check of a type leaves the binder of an existential in the environment. -/
def checkType (env : Env) : Ty → Env × Outcome Mismatch Unit
  | .refine bty e => (env, checkExpr env e bty.sort)
  | .exists_ bty pred =>
    let env := env.insert .bound bty.sort
    (env, checkPred env pred .bool)
  | .mutRef _ => (env, .ok ())
  | .param _ => (env, .ok ())

/-- The check of a parameter inserts it before its predicate is checked. -/
def checkParam (env : Env) (param : Param) : Env × Outcome Mismatch Unit :=
  let env := env.insert (.free param.name.name) param.sort
  (env, checkExpr env param.pred .bool)

/-- The parameters are checked in the order of the signature, the types of `requires` are not
checked, and all errors are reported before the function returns. -/
def checkFnSig (fn_sig : FnSig) : Outcome Mismatch Unit :=
  let (env, params) := tryCollectExhaust checkParam (fun _ => none) fn_sig.params
  let (env, args) := tryCollectExhaust checkType env fn_sig.args
  let (env, ensures) := tryCollectExhaust (fun env p => checkType env p.2) env fn_sig.ensures
  let (_, ret) := checkType env fn_sig.ret
  (fun _ => ()) <$> params.both (args.both (ensures.both ret))

end LiquidRust.Core.Wf
