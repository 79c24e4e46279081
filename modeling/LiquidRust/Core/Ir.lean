import LiquidRust.Core.Ty

set_option relaxedAutoImplicit false
set_option autoImplicit false

/-!
# Function bodies

The simplified control-flow graphs of `liquid-rust-core/src/ir.rs`. What the compiler computes
about the graph, the predecessors, a reverse postorder and the immediate dominators, is a field
of the body.

## Main definitions

* `LiquidRust.Core.Ir.Body` — function bodies.
* `LiquidRust.Core.Ir.Body.isJoinPoint` — the blocks where environments are joined.
-/

namespace LiquidRust.Core.Ir

/-- The index of a local variable. -/
abbrev Local := ℕ

/-- The index of a basic block. -/
abbrev BasicBlock := ℕ

/-- `RETURN_PLACE`. -/
def returnPlace : Local := 0

/-- `START_BLOCK`. -/
def startBlock : BasicBlock := 0

/-- The only projection is a dereference. -/
inductive PlaceElem
  | deref
  deriving DecidableEq, Repr

/-- A local variable with the projections from it. -/
structure Place where
  local_ : Local
  projection : List PlaceElem
  deriving DecidableEq, Repr

/-- Constants with their types. -/
inductive Constant
  | int (n : ℤ) (int_ty : IntTy)
  | uint (n : ℕ) (uint_ty : UintTy)
  | bool (b : Bool)
  deriving DecidableEq, Repr

/-- Operands copy or move a place, or are constants. -/
inductive Operand
  | copy (p : Place)
  | move (p : Place)
  | constant (c : Constant)
  deriving DecidableEq, Repr

/-- Binary operators of the intermediate representation. -/
inductive BinOp
  | gt
  | lt
  | le
  | eq
  | ne
  | add
  | sub
  | mul
  | div
  deriving DecidableEq, Repr

/-- Unary operators of the intermediate representation. -/
inductive UnOp
  | not
  | neg
  deriving DecidableEq, Repr

/-- Right-hand sides of assignments. -/
inductive Rvalue
  | use (operand : Operand)
  | mutRef (place : Place)
  | binaryOp (op : BinOp) (op1 op2 : Operand)
  | unaryOp (op : UnOp) (operand : Operand)
  deriving DecidableEq, Repr

/-- Statements of a block. -/
inductive Statement
  | assign (place : Place) (rvalue : Rvalue)
  | nop
  deriving DecidableEq, Repr

/-- `rustc_middle::mir::SwitchTargets`. -/
structure SwitchTargets where
  targets : List (ℕ × BasicBlock)
  otherwise : BasicBlock
  deriving DecidableEq, Repr

/-- Terminators of a block. The block after a call is optional. -/
inductive Terminator
  | return_
  | call (func : DefId) (substs : List Ty) (args : List Operand)
      (destination : Option (Place × BasicBlock))
  | switchInt (discr : Operand) (targets : SwitchTargets)
  | goto (target : BasicBlock)
  | drop (place : Place) (target : BasicBlock)

/-- A block: its statements and how it ends. -/
structure BasicBlockData where
  statements : List Statement
  terminator : Option Terminator

/-- What the compiler computes about the graph of a body. -/
structure Mir where
  predecessors : BasicBlock → List BasicBlock
  reversePostorder : List BasicBlock
  immediateDominator : BasicBlock → Option BasicBlock

/-- A body: its blocks, the numbers of its arguments and locals, and its graph. -/
structure Body where
  basicBlocks : List BasicBlockData
  argCount : ℕ
  nlocals : ℕ
  mir : Mir

namespace Body

variable (body : Body)

/-- `args_iter`: the arguments, which are the locals after the return place. -/
def argsIter : List Local :=
  List.range' 1 body.argCount

/-- `vars_and_temps_iter`: the locals after the arguments. -/
def varsAndTempsIter : List Local :=
  List.range' (body.argCount + 1) (body.nlocals - (body.argCount + 1))

/-- The blocks in the order in which join points are taken up. -/
def reversePostorder : List BasicBlock :=
  body.mir.reversePostorder

/-- The entry block is a join point if it has a predecessor, because of the implicit goto at the
beginning of the function. -/
def isJoinPoint (bb : BasicBlock) : Bool :=
  (body.mir.predecessors bb).length > if bb = startBlock then 0 else 1

/-- The join points in the order of their indices. -/
def joinPoints : List BasicBlock :=
  (List.range body.basicBlocks.length).filter body.isJoinPoint

end Body

end LiquidRust.Core.Ir
