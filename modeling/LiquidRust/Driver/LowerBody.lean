import LiquidRust.Driver.Lowering

set_option relaxedAutoImplicit false
set_option autoImplicit false

/-!
# Lowering of bodies

The bodies of the compiler, and how `LoweringCtxt` of `liquid-rust-driver/src/lowering.rs` makes
function bodies of them. What the checker has no rule for is reported as not supported, and the
first report ends the lowering. The ways that a call or a drop unwinds are left out, and storage
markers become statements that do nothing.

## Main definitions

* `LiquidRust.Driver.Mir.Body` — bodies of the compiler.
* `LiquidRust.Driver.LoweringError` — what is reported.
* `LiquidRust.Driver.lower` — the function body that is made.
-/

namespace LiquidRust.Driver

open Core
open Core.Ir (Local BasicBlock SwitchTargets UnOp)

/-! ## Bodies of the compiler -/

namespace Mir

/-- The projections of the compiler. All but a dereference are rejected. -/
inductive PlaceElem
  | deref
  | field
  | index
  | constantIndex
  | subslice
  | downcast
  deriving DecidableEq, Repr

/-- A local variable of the compiler with the projections from it. -/
structure Place where
  local_ : Local
  projection : List PlaceElem
  deriving DecidableEq, Repr

/-- The operands of the compiler. -/
inductive Operand
  | copy (p : Place)
  | move (p : Place)
  | constant (c : ConstantKind)
  deriving DecidableEq, Repr

/-- The binary operators of the compiler. -/
inductive BinOp
  | add
  | sub
  | mul
  | div
  | rem
  | bitXor
  | bitAnd
  | bitOr
  | shl
  | shr
  | eq
  | lt
  | le
  | ne
  | ge
  | gt
  | offset
  deriving DecidableEq, Repr

/-- How a place is borrowed. -/
inductive BorrowKind
  | shared
  | shallow
  | unique
  | mut_
  deriving DecidableEq, Repr

/-- The right-hand sides of the compiler. -/
inductive Rvalue
  | use (operand : Operand)
  | repeat_
  | ref (kind : BorrowKind) (place : Place)
  | threadLocalRef
  | addressOf
  | len
  | cast
  | binaryOp (op : BinOp) (op1 op2 : Operand)
  | checkedBinaryOp
  | nullaryOp
  | unaryOp (op : UnOp) (operand : Operand)
  | discriminant
  | aggregate
  | shallowInitBox
  deriving DecidableEq, Repr

/-- The statements of the compiler. -/
inductive Statement
  | assign (place : Place) (rvalue : Rvalue)
  | fakeRead
  | setDiscriminant
  | storageLive (l : Local)
  | storageDead (l : Local)
  | llvmInlineAsm
  | retag
  | ascribeUserType
  | coverage
  | copyNonOverlapping
  | nop
  deriving DecidableEq, Repr

mutual

/-- The types of the compiler, as `lower_ty` distinguishes them. -/
inductive Ty
  | bool
  | int (int_ty : IntTy)
  | uint (uint_ty : UintTy)
  | param (p : ParamTy)
  | adt (did : DefId) (substs : List GenericArg)
  | unsupported

/-- A generic argument is a type, a constant or a lifetime. -/
inductive GenericArg
  | type (ty : Ty)
  | const
  | lifetime

end

/-- The type of the function operand of a call. -/
inductive FuncTy
  | fnDef (did : DefId) (substs : List GenericArg)
  | unsupported

/-- Terminators. The blocks that they unwind to are optional. -/
inductive Terminator
  | goto (target : BasicBlock)
  | switchInt (discr : Operand) (switch_ty : TyKind) (targets : SwitchTargets)
  | resume
  | abort
  | return_
  | unreachable
  | drop (place : Place) (target : BasicBlock) (unwind : Option BasicBlock)
  | dropAndReplace (target : BasicBlock) (unwind : Option BasicBlock)
  | assert (target : BasicBlock) (cleanup : Option BasicBlock)
  | call (func : FuncTy) (args : List Operand) (destination : Option (Place × BasicBlock))
      (cleanup : Option BasicBlock)
  | yield (resume : BasicBlock) (drop : Option BasicBlock)
  | generatorDrop
  | falseEdge (real_target imaginary_target : BasicBlock)
  | falseUnwind (real_target : BasicBlock) (unwind : Option BasicBlock)
  | inlineAsm (destination cleanup : Option BasicBlock)

/-- A block of the compiler: its statements, and its terminator. -/
structure BasicBlockData where
  statements : List Statement
  terminator : Option Terminator

/-- A body, with what the compiler computes about its graph. -/
structure Body where
  basicBlocks : List BasicBlockData
  argCount : ℕ
  localDecls : ℕ
  graph : Ir.Mir

/-- The blocks that a terminator goes to, unless it unwinds. -/
def Terminator.targets : Terminator → List BasicBlock
  | goto target | drop _ target _ | dropAndReplace target _ | assert target _
  | falseUnwind target _ => [target]
  | switchInt _ _ targets => targets.targets.map Prod.snd ++ [targets.otherwise]
  | call _ _ destination _ => destination.toList.map Prod.snd
  | yield target dropped => target :: dropped.toList
  | falseEdge real_target imaginary_target => [real_target, imaginary_target]
  | inlineAsm destination _ => destination.toList
  | resume | abort | return_ | unreachable | generatorDrop => []

/-- The block that a terminator unwinds to. -/
def Terminator.unwind : Terminator → Option BasicBlock
  | drop _ _ unwind | dropAndReplace _ unwind | falseUnwind _ unwind => unwind
  | assert _ cleanup | call _ _ _ cleanup | inlineAsm _ cleanup => cleanup
  | goto _ | switchInt _ _ _ | resume | abort | return_ | unreachable | yield _ _
  | generatorDrop | falseEdge _ _ => none

/-- `Terminator::successors`. -/
def Terminator.successors (terminator : Terminator) : List BasicBlock :=
  terminator.targets ++ terminator.unwind.toList

end Mir

/-! ## Lowering -/

/-- What is reported as not supported. -/
inductive LoweringError
  | statementKind
  | functionCall
  | terminatorKind
  | rvalue
  | binaryOperation
  | place
  | constant
  | genericArgument
  | type
  deriving DecidableEq, Repr

/-- An element of a projection, in the loop of `lower_place`. -/
def lowerPlaceElem : Mir.PlaceElem → Except LoweringError Ir.PlaceElem
  | .deref => .ok .deref
  | .field | .index | .constantIndex | .subslice | .downcast => .error .place

/-- `lower_place`. -/
def lowerPlace (place : Mir.Place) : Except LoweringError Ir.Place := do
  let projection ← place.projection.mapM lowerPlaceElem
  pure ⟨place.local_, projection⟩

/-- `lower_bin_op`. -/
def lowerBinOp : Mir.BinOp → Except LoweringError Ir.BinOp
  | .add => .ok .add
  | .sub => .ok .sub
  | .gt => .ok .gt
  | .lt => .ok .lt
  | .le => .ok .le
  | .eq => .ok .eq
  | .ne => .ok .ne
  | .mul => .ok .mul
  | .div => .ok .div
  | .rem | .bitXor | .bitAnd | .bitOr | .shl | .shr | .ge | .offset => .error .binaryOperation

mutual

/-- `lower_ty`: the refinements are left to inference. -/
def lowerTy : Mir.Ty → Except LoweringError Ty
  | .bool => .ok (.exists_ .bool .infer)
  | .int int_ty => .ok (.exists_ (.int int_ty) .infer)
  | .uint uint_ty => .ok (.exists_ (.uint uint_ty) .infer)
  | .param p => .ok (.param p)
  | .adt did substs => do
    let substs ← lowerGenericArgs substs
    pure (.exists_ (.adt did substs) .infer)
  | .unsupported => .error .type

/-- `lower_generic_arg` for each of the arguments. -/
def lowerGenericArgs : List Mir.GenericArg → Except LoweringError (List Ty)
  | [] => pure []
  | arg :: args => do
    let ty ← lowerGenericArg arg
    let tys ← lowerGenericArgs args
    pure (ty :: tys)

/-- `lower_generic_arg`. -/
def lowerGenericArg : Mir.GenericArg → Except LoweringError Ty
  | .type ty => lowerTy ty
  | .const | .lifetime => .error .genericArgument

end

section

variable (pointer : PointerWidth)

/-- `lower_operand`. -/
def lowerOperand : Mir.Operand → Except LoweringError Ir.Operand
  | .copy p => do pure (.copy (← lowerPlace p))
  | .move p => do pure (.move (← lowerPlace p))
  | .constant c =>
    match lowerConstant pointer c with
    | some c => .ok (.constant c)
    | none => .error .constant

/-- `lower_rvalue`. -/
def lowerRvalue : Mir.Rvalue → Except LoweringError Ir.Rvalue
  | .use op => do pure (.use (← lowerOperand pointer op))
  | .binaryOp op op1 op2 => do
    let op ← lowerBinOp op
    let op1 ← lowerOperand pointer op1
    let op2 ← lowerOperand pointer op2
    pure (.binaryOp op op1 op2)
  | .ref .mut_ p => do pure (.mutRef (← lowerPlace p))
  | .unaryOp op operand => do pure (.unaryOp op (← lowerOperand pointer operand))
  | .repeat_ | .ref _ _ | .threadLocalRef | .addressOf | .len | .cast | .checkedBinaryOp
  | .nullaryOp | .discriminant | .aggregate | .shallowInitBox => .error .rvalue

/-- `lower_statement`. -/
def lowerStatement : Mir.Statement → Except LoweringError Ir.Statement
  | .assign place rvalue => do
    let place ← lowerPlace place
    let rvalue ← lowerRvalue pointer rvalue
    pure (.assign place rvalue)
  | .nop | .storageLive _ | .storageDead _ => .ok .nop
  | .fakeRead | .setDiscriminant | .llvmInlineAsm | .retag | .ascribeUserType | .coverage
  | .copyNonOverlapping => .error .statementKind

/-- The destination of a call. -/
def lowerDestination :
    Option (Mir.Place × BasicBlock) → Except LoweringError (Option (Ir.Place × BasicBlock))
  | some (place, bb) => do
    let place ← lowerPlace place
    pure (some (place, bb))
  | none => .ok none

/-- `lower_terminator`. -/
def lowerTerminator : Mir.Terminator → Except LoweringError Ir.Terminator
  | .return_ => .ok .return_
  | .call (.fnDef func substs) args destination _ => do
    let substs ← lowerGenericArgs substs
    let destination ← lowerDestination destination
    let args ← args.mapM (lowerOperand pointer)
    pure (.call func substs args destination)
  | .call .unsupported _ _ _ => .error .functionCall
  | .switchInt discr _ targets => do pure (.switchInt (← lowerOperand pointer discr) targets)
  | .goto target => .ok (.goto target)
  | .drop place target _ => do pure (.drop (← lowerPlace place) target)
  | .resume | .abort | .unreachable | .dropAndReplace _ _ | .assert _ _ | .yield _ _
  | .generatorDrop | .falseEdge _ _ | .falseUnwind _ _ | .inlineAsm _ _ => .error .terminatorKind

/-- The terminator of a block, if it has one. -/
def lowerTerminator? : Option Mir.Terminator → Except LoweringError (Option Ir.Terminator)
  | some terminator => do pure (some (← lowerTerminator pointer terminator))
  | none => .ok none

/-- `lower_basic_block_data`. -/
def lowerBasicBlockData (data : Mir.BasicBlockData) : Except LoweringError Ir.BasicBlockData := do
  let statements ← data.statements.mapM (lowerStatement pointer)
  let terminator ← lowerTerminator? pointer data.terminator
  pure { statements, terminator }

/-- `LoweringCtxt::lower`. -/
def lower (body : Mir.Body) : Except LoweringError Ir.Body := do
  let basicBlocks ← body.basicBlocks.mapM (lowerBasicBlockData pointer)
  pure
    { basicBlocks
      argCount := body.argCount
      nlocals := body.localDecls
      mir := body.graph }

end

end LiquidRust.Driver
