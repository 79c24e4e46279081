import LiquidRust.Lib.Wp
import LiquidRust.Typeck.Lowering

set_option relaxedAutoImplicit false
set_option autoImplicit false

/-!
# The checker

The checker of `liquid-rust-typeck/src/checker.rs`. A function is checked twice: inference finds
the shapes of the environments at the join points, and the check builds the constraint from them.
Both follow the edges of the control-flow graph until they reach join points, which are taken up
in reverse postorder.

The recursion along edges has no bound in the source; here it runs on fuel. The state also keeps
a trace of what the checker did, which the theorems speak of and no step reads.

## Main definitions

* `LiquidRust.Typeck.Checker` — what is fixed while a function is checked.
* `LiquidRust.Typeck.State`, `Event`, `Stop` — the state, the trace, the ways to stop.
* `LiquidRust.Typeck.Checker.run`, `checkGoto`, `checkBasicBlock`, `checkTerminator` — the
  traversal.
* `LiquidRust.Typeck.GlobalEnv.infer`, `check` — the two phases.

## Main results

* `LiquidRust.Typeck.wp_liftCursor`, `wp_withSnapshot`, `wp_record`, `wp_stop` — rules for the
  single operations that the steps of the checker are made of.
-/

namespace LiquidRust.Typeck

open Core.Ir (BasicBlock BasicBlockData Body Place Operand Rvalue Statement Terminator SwitchTargets
  startBlock returnPlace)

/-- `GlobalEnv`: the signatures of functions, and what else is taken from the compiler. -/
structure GlobalEnv where
  specs : DefId → Option Core.FnSig
  tcx : Tcx

/-- What the checker knows of the function it checks. -/
structure Checker where
  globalEnv : GlobalEnv
  body : Body
  dominatesJoinPoint : BasicBlock → Bool
  retTy : Ty
  ensures : List (Loc × Ty)

/-- The two phases. The shapes of the join points come from inference. -/
inductive Mode
  | inference
  | check (shapes : AList fun _ : BasicBlock => TypeEnvShape)

/-- What the checker did: it checked a block, reached an environment, came to a join point along
an edge, made the environment of a join point from its shape, or took up a join point. -/
inductive Event
  | block (bb : BasicBlock)
  | env (env : TypeEnv)
  | edge (target : BasicBlock) (env : TypeEnv) (bbEnv : Option TypeEnv) (visited : Bool)
      (cursor : Cursor)
  | shape (bb : BasicBlock) (env : TypeEnv) (shape : TypeEnvShape)
  | takeUp (bb : BasicBlock) (bbEnv : TypeEnv) (cursor : Cursor)

/-- The state of a run. The trace has the last event first. -/
structure State where
  cursor : Cursor
  visited : List BasicBlock
  bbEnvs : AList fun _ : BasicBlock => TypeEnv
  mode : Mode
  trace : List Event

/-- How a run stops: a statement or an operation on environments fails, an environment, a shape
or a block is missing, or the fuel is used up. -/
inductive Stop
  | failure (f : Failure)
  | missingEnv (bb : BasicBlock)
  | missingShape (bb : BasicBlock)
  | missingBlock (bb : BasicBlock)
  | outOfFuel
  deriving DecidableEq, Repr

/-- A run that stopped, with the state that it had reached. -/
structure Stopped where
  stop : Stop
  state : State

/-- Steps of the checker. -/
abbrev CheckM (α : Type) := StateT State (Except Stopped) α

/-- The run stops. -/
def stop {α : Type} (e : Stop) : CheckM α :=
  fun s => .error ⟨e, s⟩

/-- An operation on the cursor. -/
def liftCursor {α : Type} (m : CursorM α) : CheckM α := fun s =>
  match m s.cursor with
  | .ok (a, cursor) => .ok (a, { s with cursor })
  | .error f => .error ⟨.failure f, s⟩

/-- `snapshot`: the computation uses a copy of the cursor. -/
def withSnapshot {α : Type} (m : CheckM α) : CheckM α := do
  let cursor := (← get).cursor
  let a ← m
  modify fun s => { s with cursor := { cursor with builder := s.cursor.builder } }
  pure a

/-- The trace gets longer. -/
def record (e : Event) : CheckM Unit :=
  modify fun s => { s with trace := e :: s.trace }

/-! ## Rules for single operations -/

section Rules

open Lib

variable {α : Type} {Q : α → State → Prop} {E : Stopped → Prop} {s : State}

/-- An operation on the cursor leaves the rest of the state. -/
@[simp] lemma wp_liftCursor {m : CursorM α} : wp (liftCursor m) Q E s =
    wp m (fun a cursor => Q a { s with cursor }) (fun f => E ⟨.failure f, s⟩) s.cursor := by
  simp only [wp, StateT.run, liftCursor]
  cases m s.cursor <;> rfl

/-- A snapshot ends with the cursor as it was, in the tree that `m` leaves. -/
@[simp] lemma wp_withSnapshot {m : CheckM α} : wp (withSnapshot m) Q E s =
    wp m (fun a s' => Q a { s' with cursor := { s.cursor with builder := s'.cursor.builder } })
      E s := by
  rw [withSnapshot, wp_bind, wp_get, wp_bind]
  rfl

/-- An event is put in front of the trace. -/
@[simp] lemma wp_record {e : Event} {Q : Unit → State → Prop} : wp (record e) Q E s =
    Q () { s with trace := e :: s.trace } := rfl

/-- A run stops with the state that it has reached. -/
@[simp] lemma wp_stop {e : Stop} : wp (stop e : CheckM α) Q E s = E ⟨e, s⟩ := rfl

end Rules

namespace Checker

open Cursor

/-! ## Statements -/

/-- `check_constant`. -/
def checkConstant : Core.Ir.Constant → Ty
  | .int n int_ty => .refine (.int int_ty) (.constant (.ofI128 n))
  | .uint n uint_ty => .refine (.uint uint_ty) (.constant (.ofU128 n))
  | .bool b => .refine .bool (.constant (.bool b))

/-- `check_operand`: what is moved is uninitialized after it. -/
def checkOperand (env : TypeEnv) : Operand → Except Failure (TypeEnv × Ty)
  | .copy p => do
    let ty ← env.lookupPlace p
    pure (env, ty)
  | .move p => env.movePlace p
  | .constant c => pure (env, checkConstant c)

/-- The operands in order, each in the environment that the ones before it leave. -/
def checkOperands (env : TypeEnv) : List Operand → Except Failure (TypeEnv × List Ty)
  | [] => pure (env, [])
  | op :: ops => do
    let (env, ty) ← checkOperand env op
    let (env, tys) ← checkOperands env ops
    pure (env, ty :: tys)

/-- A division has the obligation that the divisor is not zero. -/
def checkArithOp (op : BinOp) : Ty → Ty → CursorM Ty
  | .refine (.int int_ty1) e1, .refine (.int int_ty2) e2 => do
    assert (int_ty1 = int_ty2)
    if op = .div then pushHead (.expr (.binaryOp .ne e2 .zero))
    pure (.refine (.int int_ty1) (.binaryOp op e1 e2))
  | .refine (.uint uint_ty1) e1, .refine (.uint uint_ty2) e2 => do
    assert (uint_ty1 = uint_ty2)
    if op = .div then pushHead (.expr (.binaryOp .ne e2 .zero))
    pure (.refine (.uint uint_ty1) (.binaryOp op e1 e2))
  | _, _ => throw .unreachable

/-- `check_cmp_op`: integers of one type are compared. -/
def checkCmpOp (op : BinOp) : Ty → Ty → CursorM Ty
  | .refine (.int int_ty1) e1, .refine (.int int_ty2) e2 => do
    assert (int_ty1 = int_ty2)
    pure (.refine .bool (.binaryOp op e1 e2))
  | .refine (.uint uint_ty1) e1, .refine (.uint uint_ty2) e2 => do
    assert (uint_ty1 = uint_ty2)
    pure (.refine .bool (.binaryOp op e1 e2))
  | _, _ => throw .unreachable

/-- `check_eq`: the base types are the same. -/
def checkEq (op : BinOp) : Ty → Ty → CursorM Ty
  | .refine bty1 e1, .refine bty2 e2 => do
    assert (bty1 = bty2)
    pure (.refine .bool (.binaryOp op e1 e2))
  | _, _ => throw .unreachable

/-- `check_binary_op`, after its operands. -/
def checkBinaryOp (op : Core.Ir.BinOp) (ty1 ty2 : Ty) : CursorM Ty :=
  match op with
  | .eq => checkEq .eq ty1 ty2
  | .ne => checkEq .ne ty1 ty2
  | .add => checkArithOp .add ty1 ty2
  | .sub => checkArithOp .sub ty1 ty2
  | .mul => checkArithOp .mul ty1 ty2
  | .div => checkArithOp .div ty1 ty2
  | .gt => checkCmpOp .gt ty1 ty2
  | .lt => checkCmpOp .lt ty1 ty2
  | .le => checkCmpOp .le ty1 ty2

/-- `check_unary_op`, after its operand. -/
def checkUnaryOp (op : Core.Ir.UnOp) (ty : Ty) : CursorM Ty :=
  match op, ty with
  | .not, .refine .bool e => pure (.refine .bool e.not)
  | .neg, .refine (.int int_ty) e => pure (.refine (.int int_ty) e.neg)
  | _, _ => throw .unreachable

/-- `check_rvalue`: the operands are checked from left to right. -/
def checkRvalue (env : TypeEnv) : Rvalue → CursorM (TypeEnv × Ty)
  | .use operand => ofExcept (checkOperand env operand)
  | .binaryOp op op1 op2 => do
    let (env, ty1) ← ofExcept (checkOperand env op1)
    let (env, ty2) ← ofExcept (checkOperand env op2)
    let ty ← checkBinaryOp op ty1 ty2
    pure (env, ty)
  | .mutRef place => do
    let loc ← ofExcept (env.getLoc place)
    pure (env, .strgRef loc)
  | .unaryOp op operand => do
    let (env, ty) ← ofExcept (checkOperand env operand)
    let ty ← checkUnaryOp op ty
    pure (env, ty)

/-- `check_statement`: the type is written to the place. -/
def checkStatement (tcx : Tcx) (env : TypeEnv) : Statement → CursorM TypeEnv
  | .assign p rvalue => do
    let (env, ty) ← checkRvalue env rvalue
    env.writePlace tcx p ty
  | .nop => pure env

/-! ## Calls -/

/-- The obligations for the predicates of the parameters. -/
def callParams (subst : Subst) (fn_sig : Core.FnSig) : CursorM Unit :=
  fn_sig.params.forM fun param => do
    let e ← ofExcept (subst.lowerExpr param.pred)
    pushHead (.expr e)

/-- The obligations for the arguments. -/
def callArgs (tcx : Tcx) (subst : Subst) (actuals : List Ty) (fn_sig : Core.FnSig) :
    CursorM Unit :=
  (actuals.zip fn_sig.args).forM fun p => do
    let formal ← subst.lowerTy p.2
    subtyping tcx p.1 formal

/-- The obligations for what is at the locations of `requires`. -/
def callRequires (tcx : Tcx) (env : TypeEnv) (subst : Subst) (fn_sig : Core.FnSig) :
    CursorM Unit :=
  fn_sig.requires.forM fun p => do
    let loc ← orFail .lookup (subst.lowerLoc p.1)
    let actual_ty ← orFail .dangling (env.lookupLoc loc)
    let required_ty ← subst.lowerTy p.2
    subtyping tcx actual_ty required_ty

/-- A binding of `ensures` updates its location, or introduces it. -/
def callEnsures (tcx : Tcx) (env : TypeEnv) (subst : Subst) (binding : Core.Name × Core.Ty) :
    CursorM (TypeEnv × Subst) := do
  let updated_ty ← subst.lowerTy binding.2
  let updated_ty ← Cursor.unpack updated_ty
  match subst.lowerLoc binding.1 with
  | some loc => do
    let env ← env.updateLoc tcx loc updated_ty
    pure (env, subst)
  | none => do
    let fresh := Loc.abstract (← freshName)
    pure (env.insertLoc fresh updated_ty, subst.insertLoc binding.1 fresh)

/-- The value that is returned is written to its place. -/
def callReturn (tcx : Tcx) (env : TypeEnv) (subst : Subst) (fn_sig : Core.FnSig) (p : Place) :
    CursorM TypeEnv := do
  let ret ← subst.lowerTy fn_sig.ret
  let ret ← Cursor.unpack ret
  env.writePlace tcx p ret

variable (self : Checker)

/-- A binding of `ensures` at a call. -/
def checkEnsures (p : TypeEnv × Subst) (binding : Core.Name × Core.Ty) :
    CheckM (TypeEnv × Subst) := do
  let (env, subst) ← liftCursor (callEnsures self.globalEnv.tcx p.1 p.2 binding)
  record (.env env)
  pure (env, subst)

/-- `check_call` after the substitution is inferred, up to the goto. -/
def checkCallWith (env : TypeEnv) (subst : Subst) (actuals : List Ty) (fn_sig : Core.FnSig)
    (destination : Option (Place × BasicBlock)) : CheckM (Option (TypeEnv × BasicBlock)) := do
  let tcx := self.globalEnv.tcx
  liftCursor (callParams subst fn_sig)
  liftCursor (callArgs tcx subst actuals fn_sig)
  liftCursor (callRequires tcx env subst fn_sig)
  let (env, subst) ← fn_sig.ensures.foldlM self.checkEnsures (env, subst)
  match destination with
  | some (p, bb) => do
    let env ← liftCursor (callReturn tcx env subst fn_sig p)
    record (.env env)
    pure (some (env, bb))
  | none => pure none

/-- `check_call` up to the goto: the environment after the call and the block it goes to. -/
def checkCall (env : TypeEnv) (func : DefId) (substs : List Core.Ty) (args : List Operand)
    (destination : Option (Place × BasicBlock)) : CheckM (Option (TypeEnv × BasicBlock)) := do
  let fn_sig ← liftCursor (orFail .missing (self.globalEnv.specs func))
  let (env, actuals) ← liftCursor (ofExcept (checkOperands env args))
  record (.env env)
  let subst ← liftCursor (Subst.withTypeSubsts substs)
  match ← liftCursor (ofExcept (subst.inferFromFnCall env actuals fn_sig)) with
  | none => stop (.failure .errorReported)
  | some subst => self.checkCallWith env subst actuals fn_sig destination

/-! ## Terminators -/

/-- The obligations of a return. -/
def checkReturn (env : TypeEnv) : CursorM Unit := do
  let ret_place_ty ← ofExcept (env.lookupLocal returnPlace)
  subtyping self.globalEnv.tcx ret_place_ty self.retTy
  self.ensures.forM fun p => do
    let actual_ty ← orFail .missing (env.lookupLoc p.1)
    subtyping self.globalEnv.tcx actual_ty p.2

/-- The guard of a target, the closure `mk` of `check_switch_int`. -/
def switchGuard (discr_ty : Ty) (bits : ℕ) : Except Failure Expr :=
  match discr_ty with
  | .refine .bool e => .ok (if bits ≠ 0 then e else e.not)
  | .refine (.int int_ty) e => do
    let c ← orError .overflow (Expr.fromBits (.int int_ty) bits)
    pure (.binaryOp .eq e c)
  | .refine (.uint uint_ty) e => do
    let c ← orError .unreachable (Expr.fromBits (.uint uint_ty) bits)
    pure (.binaryOp .eq e c)
  | _ => .error .unreachable

/-- The guard of the target that is left over; there is none if there are no others. -/
def otherwiseGuard (discr_ty : Ty) (targets : List (ℕ × BasicBlock)) :
    Except Failure (Option Expr) := do
  let guards ← targets.mapM fun p => switchGuard discr_ty p.1
  match guards.map Expr.not with
  | [] => pure none
  | e :: es => pure (some (es.foldl (fun e1 e2 => .binaryOp .and e1 e2) e))

section Goto

variable (goto : TypeEnv → BasicBlock → CheckM Unit)

/-- A target of a switch, in a snapshot, under its guard. -/
def checkTarget (env : TypeEnv) (guard : Option Expr) (bb : BasicBlock) : CheckM Unit :=
  withSnapshot do
    match guard with
    | some e => liftCursor (pushGuard e)
    | none => pure ()
    goto env bb

/-- `check_switch_int`: the listed targets come before `otherwise`. -/
def checkSwitchInt (env : TypeEnv) (discr : Operand) (targets : SwitchTargets) :
    CheckM Unit := do
  let (env, discr_ty) ← liftCursor (ofExcept (checkOperand env discr))
  record (.env env)
  targets.targets.forM fun p => do
    let e ← liftCursor (ofExcept (switchGuard discr_ty p.1))
    checkTarget goto env (some e) p.2
  let otherwise ← liftCursor (ofExcept (otherwiseGuard discr_ty targets.targets))
  checkTarget goto env otherwise targets.otherwise

/-- `check_terminator`, with `goto` for the edges it follows. -/
def checkTerminator (env : TypeEnv) : Terminator → CheckM Unit
  | .return_ => liftCursor (self.checkReturn env)
  | .goto target => goto env target
  | .switchInt discr targets => checkSwitchInt goto env discr targets
  | .call func substs args destination => do
    match ← self.checkCall env func substs args destination with
    | some (env, bb) => goto env bb
    | none => pure ()
  | .drop place target => do
    let (env, _) ← liftCursor (ofExcept (env.movePlace place))
    record (.env env)
    goto env target

/-- The statements of a block. -/
def checkStatements (env : TypeEnv) (statements : List Statement) : CheckM TypeEnv :=
  statements.foldlM
    (fun env stmt => do
      let env ← liftCursor (checkStatement self.globalEnv.tcx env stmt)
      record (.env env)
      pure env)
    env

/-- The beginning of a block: it is visited, and may have a scope. -/
def enterBlock (bb : BasicBlock) : CheckM Unit := do
  modify fun s => { s with visited := bb :: s.visited }
  record (.block bb)
  if self.dominatesJoinPoint bb then liftCursor pushScope else pure ()

/-- The statements of a block and its terminator. -/
def checkBlockData (env : TypeEnv) (data : BasicBlockData) : CheckM Unit := do
  let env ← self.checkStatements env data.statements
  match data.terminator with
  | some terminator => self.checkTerminator goto env terminator
  | none => pure ()

/-- A block, with `goto` for the edges that leave it. -/
def checkBasicBlock (env : TypeEnv) (bb : BasicBlock) : CheckM Unit := do
  self.enterBlock bb
  match self.body.basicBlocks[bb]? with
  | none => stop (.missingBlock bb)
  | some data => self.checkBlockData goto env data

end Goto

/-! ## Join points -/

/-- `check_goto_join_point` in inference: the first environment is stored, the others are joined
with it. -/
def inferJoinPoint (env : TypeEnv) (target : BasicBlock) : CheckM Unit := do
  match (← get).bbEnvs.lookup target with
  | some bbEnv => do
    let bbEnv ← liftCursor (bbEnv.joinWith self.globalEnv.tcx env)
    record (.env bbEnv)
    modify fun s => { s with bbEnvs := s.bbEnvs.insert target bbEnv }
  | none => modify fun s => { s with bbEnvs := s.bbEnvs.insert target env }

/-- The environment of a join point in the check. At the first edge it is made from the shape,
which is removed. -/
def checkBbEnv (env : TypeEnv) (target : BasicBlock)
    (shapes : AList fun _ : BasicBlock => TypeEnvShape) : CheckM TypeEnv := do
  match (← get).bbEnvs.lookup target with
  | some bbEnv => pure bbEnv
  | none =>
    match shapes.lookup target with
    | none => stop (.missingShape target)
    | some shape => do
      record (.shape target env shape)
      modify fun s => { s with mode := .check (shapes.erase target) }
      let bbEnv ← liftCursor (env.inferBbEnv shape)
      record (.env bbEnv)
      modify fun s => { s with bbEnvs := s.bbEnvs.insert target bbEnv }
      pure bbEnv

/-- `check_goto_join_point`: an edge to a join point in either phase. -/
def checkGotoJoinPoint (env : TypeEnv) (target : BasicBlock) : CheckM Unit := do
  let s ← get
  match s.mode with
  | .inference => do
    record (.edge target env (s.bbEnvs.lookup target) (target ∈ s.visited) s.cursor)
    self.inferJoinPoint env target
  | .check shapes => do
    let bbEnv ← checkBbEnv env target shapes
    record (.edge target env (some bbEnv) (target ∈ s.visited) s.cursor)
    let env ← liftCursor (env.transformInto self.globalEnv.tcx bbEnv)
    record (.env env)

/-! ## The traversal -/

/-- An edge of the control-flow graph, with fuel for the edges that follow it. -/
def checkGoto : ℕ → TypeEnv → BasicBlock → CheckM Unit
  | 0, _, _ => stop .outOfFuel
  | n + 1, env, target =>
    if self.body.isJoinPoint target then self.checkGotoJoinPoint env target
    else self.checkBasicBlock (checkGoto n) env target

/-- A block of the reverse postorder, unless it was visited before. -/
def takeUp (fuel : ℕ) (bb : BasicBlock) : CheckM Unit := do
  if bb ∉ (← get).visited then do
    let s ← get
    match s.bbEnvs.lookup bb with
    | none => stop (.missingEnv bb)
    | some bbEnv => do
      record (.takeUp bb bbEnv s.cursor)
      let env ← liftCursor (bbEnv.unpack self.globalEnv.tcx)
      record (.env env)
      self.checkBasicBlock (self.checkGoto fuel) env bb

/-- The walk from the start block, and then from each join point in reverse postorder. -/
def run (fuel : ℕ) (env : TypeEnv) : CheckM Unit := do
  self.checkGoto fuel env startBlock
  self.body.reversePostorder.forM (self.takeUp fuel)

end Checker

/-! ## The two phases -/

namespace GlobalEnv

open Cursor

variable (globalEnv : GlobalEnv) (body : Body) (fn_sig : Core.FnSig)

/-- A parameter gets a name, under its predicate. -/
def bindParam (subst : Subst) (param : Core.Param) : CursorM Subst := do
  let fresh ← freshName
  let subst := subst.insertExpr param.name.name (.var (.free fresh))
  let e ← ofExcept (subst.lowerExpr param.pred)
  pushForall fresh param.sort (.expr e)
  pure subst

/-- The parameters of a signature get names. -/
def prologueParams (params : List Core.Param) : CursorM Subst :=
  params.foldlM bindParam .withEmptyTypeSubsts

/-- A location of `requires` gets a name, after its type is lowered. -/
def bindRequired (p : TypeEnv × Subst) (binding : Core.Name × Core.Ty) :
    CursorM (TypeEnv × Subst) := do
  let ty ← p.2.lowerTy binding.2
  let fresh := Loc.abstract (← freshName)
  let ty ← Cursor.unpack ty
  pure (p.1.insertLoc fresh ty, p.2.insertLoc binding.1 fresh)

/-- The required locations of a signature get names. -/
def prologueRequires (subst : Subst) (requires : List (Core.Name × Core.Ty)) :
    CursorM (TypeEnv × Subst) :=
  requires.foldlM bindRequired (.new, subst)

/-- An argument is bound to its type. -/
def bindArg (subst : Subst) (env : TypeEnv) (p : Local × Core.Ty) : CursorM TypeEnv := do
  let ty ← subst.lowerTy p.2
  let ty ← Cursor.unpack ty
  pure (env.insertLoc (.local_ p.1) ty)

/-- The arguments of a signature get their types. -/
def prologueArgs (subst : Subst) (env : TypeEnv) (args : List (Local × Core.Ty)) :
    CursorM TypeEnv :=
  args.foldlM (bindArg subst) env

/-- The type that is ensured of a location. -/
def ensured (subst : Subst) (binding : Core.Name × Core.Ty) : CursorM (Loc × Ty) := do
  let ty ← subst.lowerTy binding.2
  let loc ← orFail .lookup (subst.lowerLoc binding.1)
  pure (loc, ty)

/-- The types that a signature ensures are lowered. -/
def prologueEnsures (subst : Subst) (ensures : List (Core.Name × Core.Ty)) :
    CursorM (List (Loc × Ty)) :=
  ensures.mapM (ensured subst)

/-- What the prologue makes of a signature. -/
structure Prologue where
  env : TypeEnv
  ensures : List (Loc × Ty)
  retTy : Ty

/-- `check_or_infer` up to the construction of the checker. -/
def prologue : CursorM Prologue := do
  let subst ← prologueParams fn_sig.params
  let (env, subst) ← prologueRequires subst fn_sig.requires
  let env ← prologueArgs subst env (body.argsIter.zip fn_sig.args)
  let env := body.varsAndTempsIter.foldl (fun env l => env.insertLoc (.local_ l) .uninit) env
  let env := env.insertLoc (.local_ returnPlace) .uninit
  let ensures ← prologueEnsures subst fn_sig.ensures
  let retTy ← subst.lowerTy fn_sig.ret
  pure { env, ensures, retTy }

/-- `Checker::new`, up to its state. An unreachable join point has no immediate dominator. -/
def checker (retTy : Ty) (ensures : List (Loc × Ty)) : Except Failure Checker := do
  let dominators ← body.joinPoints.mapM fun bb => orError .missing (body.mir.immediateDominator bb)
  pure
    { globalEnv, body, dominatesJoinPoint := fun bb => bb ∈ dominators, retTy, ensures }

/-- The state of a run at first. -/
def initialState (mode : Mode) (cursor : Cursor) (env : TypeEnv) : State where
  cursor := cursor
  visited := []
  bbEnvs := ∅
  mode := mode
  trace := [.env env]

/-- `check_or_infer`: the checker and the state it ends in. -/
def checkOrInfer (fuel : ℕ) (mode : Mode) : Except Stop (Checker × State) :=
  match (prologue body fn_sig).run ConstraintBuilder.new.asCursor with
  | .error f => .error (.failure f)
  | .ok (p, cursor) =>
    match globalEnv.checker body p.retTy p.ensures with
    | .error f => .error (.failure f)
    | .ok checker =>
      match (checker.run fuel p.env).run (initialState mode cursor p.env) with
      | .error e => .error e.stop
      | .ok (_, s) => .ok (checker, s)

/-- The shapes of the environments that inference ends with. -/
def shapes (tcx : Tcx) (bbEnvs : AList fun _ : BasicBlock => TypeEnv) :
    AList fun _ : BasicBlock => TypeEnvShape :=
  ⟨bbEnvs.entries.map fun e => ⟨e.1, e.2.intoShape tcx⟩, by
    simpa [List.NodupKeys, List.keys, Function.comp_def] using bbEnvs.nodupKeys⟩

/-- The phase of inference: the shapes of the join points. -/
def infer (fuel : ℕ) : Except Stop (AList fun _ : BasicBlock => TypeEnvShape) := do
  let (_, s) ← globalEnv.checkOrInfer body fn_sig fuel .inference
  pure (shapes globalEnv.tcx s.bbEnvs)

/-- The phase of checking: the constraint. -/
def check (fuel : ℕ) (bbEnvShapes : AList fun _ : BasicBlock => TypeEnvShape) :
    Except Stop ConstraintBuilder := do
  let (_, s) ← globalEnv.checkOrInfer body fn_sig fuel (.check bbEnvShapes)
  pure s.cursor.builder

end GlobalEnv

end LiquidRust.Typeck
