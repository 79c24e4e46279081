import LiquidRust.Core.Cfg
import LiquidRust.Typeck.Stores
import LiquidRust.Typeck.Switch

set_option relaxedAutoImplicit false
set_option autoImplicit false

/-!
# Executions

How a body runs, over the mathematical integers. A statement changes the store at the location of
a place, and a terminator goes to a block. A switch compares the discriminant with what the bit
patterns of its targets are in the type of the discriminant, which the compiler knows. What a call
does is a relation, which stands for the functions that are called.

## Main definitions

* `LiquidRust.Typeck.Value.binaryOp`, `Value.unaryOp` — the operations.
* `LiquidRust.Typeck.Store.rvalue`, `Store.exec` — rvalues and statements.
* `LiquidRust.Typeck.Discr` — the type of the discriminant of a switch.
* `LiquidRust.Typeck.Goes` — what a terminator does.
* `LiquidRust.Typeck.Config`, `Step`, `Steps` — executions.
-/

namespace LiquidRust.Typeck

open Core.Ir (BasicBlock Body Place Operand Rvalue Statement Terminator SwitchTargets)
open Relation (ReflTransGen)

/-! ## Values -/

namespace Value

/-- A binary operation on two integers. There is no quotient by zero; others are rounded towards
zero. -/
def intOp (op : Core.Ir.BinOp) (m n : ℤ) : Option Value :=
  match op with
  | .gt => some (bool (m > n))
  | .lt => some (bool (m < n))
  | .le => some (bool (m ≤ n))
  | .eq => some (bool (m = n))
  | .ne => some (bool (m ≠ n))
  | .add => some (int (m + n))
  | .sub => some (int (m - n))
  | .mul => some (int (m * n))
  | .div => if n = 0 then none else some (int (m.tdiv n))

/-- A binary operation on two booleans, of which `false` is the lesser one. -/
def boolOp (op : Core.Ir.BinOp) (a b : Bool) : Option Value :=
  match op with
  | .gt => some (bool (b < a))
  | .lt => some (bool (a < b))
  | .le => some (bool (a ≤ b))
  | .eq => some (bool (a = b))
  | .ne => some (bool (a ≠ b))
  | .add | .sub | .mul | .div => none

/-- The value of a binary operator, if it has one. -/
def binaryOp (op : Core.Ir.BinOp) : Value → Value → Option Value
  | int m, int n => intOp op m n
  | bool a, bool b => boolOp op a b
  | _, _ => none

/-- The complement of an integer depends on its type, so that it has no value here. -/
def unaryOp : Core.Ir.UnOp → Value → Option Value
  | .neg, int n => some (int (-n))
  | .not, bool b => some (bool !b)
  | _, _ => none

/-- The values that a switch can be about. -/
def IsDiscr : Value → Prop
  | int _ | bool _ => True
  | _ => False

end Value

/-! ## Statements -/

namespace Store

variable (S : Store)

/-- The value of a right-hand side, if it has one. -/
def rvalue : Rvalue → Option Value
  | .use operand => S.operand operand
  | .binaryOp op op1 op2 => do
    let u1 ← S.operand op1
    let u2 ← S.operand op2
    u1.binaryOp op u2
  | .mutRef place => (S.place place).map .ptr
  | .unaryOp op operand => do
    let u ← S.operand operand
    u.unaryOp op

/-- The store after a statement. -/
def exec : Statement → Option Store
  | .assign place rvalue => do
    let u ← S.rvalue rvalue
    let loc ← S.place place
    pure (Function.update S loc u)
  | .nop => some S

end Store

/-! ## Executions -/

/-- **The discriminant of a switch**: its type, and the size of pointers. The switches of the
checker do not say it, but the compiler knows it. -/
structure Discr where
  pointer : Driver.PointerWidth
  ty : DiscrTy

namespace Discr

variable (discr : Discr)

/-- The value of the bit pattern that a target is listed with. -/
def value (bits : ℕ) : Val :=
  discr.ty.value (BitVec.ofNat (discr.ty.width discr.pointer) bits)

/-- The values of the type, without its bounds. -/
def Has : Value → Prop
  | .int _ => discr.ty ≠ .bool
  | .bool _ => discr.ty = .bool
  | _ => False

/-- A value is listed with a bit pattern. -/
def IsListed (bits : ℕ) (u : Value) : Prop :=
  u.index = some (discr.value bits)

instance (bits : ℕ) (u : Value) : Decidable (discr.IsListed bits u) := by
  unfold IsListed
  infer_instance

/-- A bit pattern that is not that of a negative number, neither in the type nor as an `i128`. -/
def IsNonNegative (bits : ℕ) : Prop :=
  bits < 2 ^ 127 ∧
    discr.value bits = if discr.ty = .bool then .bool (bits ≠ 0) else .int bits

instance (bits : ℕ) : Decidable (discr.IsNonNegative bits) := by
  unfold IsNonNegative
  infer_instance

/-- The target of a switch: the first one that the discriminant is listed with. -/
def takenTarget (targets : SwitchTargets) (u : Value) : BasicBlock :=
  ((targets.targets.find? fun p => discr.IsListed p.1 u).map Prod.snd).getD targets.otherwise

end Discr

/-- What the functions that are called may do: `calls func substs us S u S'` states that `func`
with the arguments `us` may return `u` and change the store from `S` to `S'`. -/
abbrev Calls :=
  DefId → List Core.Ty → List Value → Store → Value → Store → Prop

/-- **What a terminator does**: it goes to a block with a store. -/
inductive Goes (discr : Discr) (calls : Calls) (S : Store) :
    Terminator → BasicBlock → Store → Prop
  | goto (target : BasicBlock) : Goes discr calls S (.goto target) target S
  | drop (place : Place) (target : BasicBlock) : Goes discr calls S (.drop place target) target S
  | switchInt {op : Operand} {u : Value} (targets : SwitchTargets) :
      S.operand op = some u → discr.Has u →
      Goes discr calls S (.switchInt op targets) (discr.takenTarget targets u) S
  | call {func : DefId} {substs : List Core.Ty} {args : List Operand} {us : List Value} {u : Value}
      {S' : Store} {p : Place} {loc : Loc} (target : BasicBlock) :
      args.mapM S.operand = some us → calls func substs us S u S' → S'.place p = some loc →
      Goes discr calls S (.call func substs args (some (p, target))) target
        (Function.update S' loc u)

/-- Where an execution is: the statements that are left of a block, and the store. -/
structure Config where
  block : BasicBlock
  statements : List Statement
  store : Store

/-- The statements of a block. -/
def statementsAt (body : Body) (bb : BasicBlock) : List Statement :=
  (body.basicBlocks[bb]?).elim [] fun data => data.statements

/-- The terminator of a block, if there is one. -/
def terminatorAt (body : Body) (bb : BasicBlock) : Option Terminator := do
  let data ← body.basicBlocks[bb]?
  data.terminator

/-- An execution is at the beginning of a block. -/
def Config.enter (body : Body) (bb : BasicBlock) (S : Store) : Config :=
  ⟨bb, statementsAt body bb, S⟩

/-- **A step of an execution**, where the discriminants at the ends of the blocks are given. -/
inductive Step (body : Body) (discrs : BasicBlock → Discr) (calls : Calls) :
    Config → Config → Prop
  | statement {bb : BasicBlock} {stmt : Statement} {rest : List Statement} {S S' : Store} :
      S.exec stmt = some S' → Step body discrs calls ⟨bb, stmt :: rest, S⟩ ⟨bb, rest, S'⟩
  | terminator {bb target : BasicBlock} {terminator : Terminator} {S S' : Store} :
      terminatorAt body bb = some terminator → Goes (discrs bb) calls S terminator target S' →
      Step body discrs calls ⟨bb, [], S⟩ (.enter body target S')

/-- Executions. -/
def Steps (body : Body) (discrs : BasicBlock → Discr) (calls : Calls) : Config → Config → Prop :=
  ReflTransGen (Step body discrs calls)

/-- The successors of a block are those of its terminator. -/
lemma successors_eq {body : Body} {bb : BasicBlock} :
    body.successors bb = (terminatorAt body bb).elim [] Terminator.successors := by
  rw [Body.successors, terminatorAt]
  cases body.basicBlocks[bb]? with
  | none => rfl
  | some data => rfl

end LiquidRust.Typeck
