import LiquidRust.Driver.LowerBody
import LiquidRust.Typeck.Rvalues
import LiquidRust.Typeck.Values

set_option relaxedAutoImplicit false
set_option autoImplicit false

/-!
# Executions on the machine

How the machine runs a body of the compiler: on bit patterns, with operations that stop where
they overflow, and with locations that are not initialized before they are assigned to or after a
value was moved out of them. Only what can be lowered is given a meaning.

## Main definitions

* `LiquidRust.Driver.Mir.Value`, `Mir.Store` — machine values, and what is stored.
* `LiquidRust.Driver.Mir.Store.operand`, `rvalue`, `exec` — operands, rvalues and statements.
* `LiquidRust.Driver.Mir.Goes` — what a terminator does.
* `LiquidRust.Driver.Mir.Step`, `Mir.Steps` — executions.
-/

namespace LiquidRust.Driver

open Core.Ir (BasicBlock SwitchTargets)
open Relation (ReflTransGen)
open Typeck (MirValue Loc)

namespace Mir

variable (pointer : PointerWidth)

/-! ## Machine values -/

/-- A value of the machine: a bit pattern, or what the checker knows without its pattern. -/
inductive Value
  | scalar (v : MirValue pointer)
  | adt (did : Core.DefId) (n : ℤ) (contents : List (List Typeck.Value))
  | ptr (loc : Loc)
  | param (p : Core.ParamTy)

/-- What is stored at the locations that are initialized. -/
abbrev Store := Loc → Option (Value pointer)

variable {pointer}

/-- The value that a machine value stands for. -/
def Value.abs : Value pointer → Typeck.Value
  | scalar (.int ty x) => .int (ty.value x)
  | scalar (.bool b) => .bool b
  | adt did n contents => .adt did n contents
  | ptr loc => .ptr loc
  | param p => .param p

/-- The type of a bit pattern. -/
def kind : MirValue pointer → TyKind
  | .int ty _ => ty.kind
  | .bool _ => .bool

/-- The number that the patterns of targets are compared with. -/
def bits : MirValue pointer → ℕ
  | .int _ x => x.toNat
  | .bool b => b.toNat

/-- The value of a constant, whose pattern has the size of its type. -/
def constantValue (pointer : PointerWidth) : ConstantKind → Option (Value pointer)
  | .scalar ty (.int data size) =>
    if size = ty.size pointer then
      match ty with
      | .int int_ty => some (.scalar (.int (.int int_ty) (.ofNat _ data)))
      | .uint uint_ty => some (.scalar (.int (.uint uint_ty) (.ofNat _ data)))
      | .bool => some (.scalar (.bool (data ≠ 0)))
      | .unsupported _ => none
    else none
  | .scalar _ .ptr | .unsupported => none

/-- The operations of the machine that the checker knows. -/
def binaryOp (op : BinOp) (v1 v2 : MirValue pointer) : Option (MirValue pointer) :=
  match op with
  | .add => v1.binaryOp .add v2
  | .sub => v1.binaryOp .sub v2
  | .mul => v1.binaryOp .mul v2
  | .div => v1.binaryOp .div v2
  | .eq => v1.binaryOp .eq v2
  | .lt => v1.binaryOp .lt v2
  | .le => v1.binaryOp .le v2
  | .ne => v1.binaryOp .ne v2
  | .ge => v2.binaryOp .le v1
  | .gt => v1.binaryOp .gt v2
  | .rem | .bitXor | .bitAnd | .bitOr | .shl | .shr | .offset => none

/-! ## Executions -/

namespace Store

variable (s : Store pointer)

/-- Where a projection leads to from a location. Only dereferences lead to locations. -/
def projection : Loc → List PlaceElem → Option Loc
  | loc, [] => some loc
  | loc, .deref :: elems =>
    match s loc with
    | some (.ptr loc') => projection loc' elems
    | _ => none
  | _, _ => none

/-- The location that a place leads to. -/
def place (p : Place) : Option Loc :=
  s.projection (.local_ p.local_) p.projection

/-- The value of an operand, and the store that it leaves: what is moved is not there any more. -/
def operand : Operand → Option (Value pointer × Store pointer)
  | .copy p => do
    let v ← s (← s.place p)
    pure (v, s)
  | .move p => do
    let loc ← s.place p
    let v ← s loc
    pure (v, Function.update s loc none)
  | .constant c => do
    let v ← constantValue pointer c
    pure (v, s)

/-- The values of operands, one after another. -/
def operands : Store pointer → List Operand → Option (List (Value pointer) × Store pointer)
  | s, [] => some ([], s)
  | s, op :: ops => do
    let (v, s) ← s.operand op
    let (vs, s) ← operands s ops
    pure (v :: vs, s)

/-- The value of a right-hand side, and the store that it leaves. -/
def rvalue : Rvalue → Option (Value pointer × Store pointer)
  | .use op => s.operand op
  | .ref .mut_ p => do
    let loc ← s.place p
    pure (.ptr loc, s)
  | .binaryOp op op1 op2 => do
    let (v1, s) ← s.operand op1
    let (v2, s) ← s.operand op2
    match v1, v2 with
    | .scalar v1, .scalar v2 => do
      let v ← binaryOp op v1 v2
      pure (.scalar v, s)
    | _, _ => none
  | .unaryOp op operand => do
    let (v, s) ← s.operand operand
    match v with
    | .scalar v => do
      let v ← v.unaryOp op
      pure (.scalar v, s)
    | _ => none
  | _ => none

/-- The store after a statement. -/
def exec : Statement → Option (Store pointer)
  | .assign place rvalue => do
    let loc ← s.place place
    let (v, s) ← s.rvalue rvalue
    pure (Function.update s loc (some v))
  | .storageLive l | .storageDead l => some (Function.update s (.local_ l) none)
  | .nop => some s
  | _ => none

end Store

/-- What the functions that are called may do when they return. -/
abbrev Calls (pointer : PointerWidth) :=
  Core.DefId → List GenericArg → List (Value pointer) → Store pointer → Value pointer →
    Store pointer → Prop

/-- The target of a switch. -/
def takenTarget (targets : SwitchTargets) (v : MirValue pointer) : BasicBlock :=
  ((targets.targets.find? fun p => bits v = p.1).map Prod.snd).getD targets.otherwise

/-- What a terminator does unless it unwinds. A drop takes the value out of its place, and the
destructor of the value has no other effect. -/
inductive Goes (calls : Calls pointer) (s : Store pointer) :
    Terminator → BasicBlock → Store pointer → Prop
  | goto (target : BasicBlock) : Goes calls s (.goto target) target s
  | drop {place : Place} {loc : Loc} (target : BasicBlock) (unwind : Option BasicBlock) :
      s.place place = some loc →
      Goes calls s (.drop place target unwind) target (Function.update s loc none)
  | switchInt {discr : Operand} {switch_ty : TyKind} {v : MirValue pointer} {s' : Store pointer}
      (targets : SwitchTargets) : s.operand discr = some (.scalar v, s') → kind v = switch_ty →
      Goes calls s (.switchInt discr switch_ty targets) (takenTarget targets v) s'
  | call {func : Core.DefId} {substs : List GenericArg} {args : List Operand}
      {vs : List (Value pointer)} {v : Value pointer} {s₁ s' : Store pointer} {p : Place}
      {loc : Loc} (target : BasicBlock) (cleanup : Option BasicBlock) :
      s.operands args = some (vs, s₁) → calls func substs vs s₁ v s' → s'.place p = some loc →
      Goes calls s (.call (.fnDef func substs) args (some (p, target)) cleanup) target
        (Function.update s' loc (some v))

/-- Where an execution is. -/
structure Config (pointer : PointerWidth) where
  block : BasicBlock
  statements : List Statement
  store : Store pointer

namespace Body

variable (body : Body)

/-- The statements of a block, none if there is no block. -/
def statementsAt (bb : BasicBlock) : List Statement :=
  (body.basicBlocks[bb]?).elim [] fun data => data.statements

/-- The terminator of a block, if there is one. -/
def terminatorAt (bb : BasicBlock) : Option Terminator := do
  let data ← body.basicBlocks[bb]?
  data.terminator

end Body

/-- A step of an execution on the machine. -/
inductive Step (body : Body) (calls : Calls pointer) : Config pointer → Config pointer → Prop
  | statement {bb : BasicBlock} {stmt : Statement} {rest : List Statement} {s s' : Store pointer} :
      s.exec stmt = some s' → Step body calls ⟨bb, stmt :: rest, s⟩ ⟨bb, rest, s'⟩
  | terminator {bb target : BasicBlock} {terminator : Terminator} {s s' : Store pointer} :
      body.terminatorAt bb = some terminator → Goes calls s terminator target s' →
      Step body calls ⟨bb, [], s⟩ ⟨target, body.statementsAt target, s'⟩

/-- Executions on the machine. -/
def Steps (body : Body) (calls : Calls pointer) : Config pointer → Config pointer → Prop :=
  ReflTransGen (Step body calls)

end Mir

end LiquidRust.Driver
