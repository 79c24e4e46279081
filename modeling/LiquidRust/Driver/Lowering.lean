import LiquidRust.Core.Ir
import LiquidRust.Typeck.Ty

set_option relaxedAutoImplicit false
set_option autoImplicit false

/-!
# Lowering of constants

How `liquid-rust-driver/src/lowering.rs` reads the constants of the compiler. A scalar is the bit
pattern of a value, zero-extended to a `u128`.

## Main definitions

* `LiquidRust.Driver.ConstantKind` — the constants of the compiler.
* `LiquidRust.Driver.scalarToBits` — the bit pattern of a constant.
* `LiquidRust.Driver.lowerConstant` — the constant that is lowered.
-/

namespace LiquidRust.Driver

open Core

/-- The width of a pointer on the target. -/
inductive PointerWidth
  | w16
  | w32
  | w64
  deriving DecidableEq, Repr

/-- The width in bytes. -/
def PointerWidth.bytes : PointerWidth → ℕ
  | w16 => 2
  | w32 => 4
  | w64 => 8

variable (pointer : PointerWidth)

/-- The size in bytes. -/
def intSize : IntTy → ℕ
  | .isize => pointer.bytes
  | .i8 => 1
  | .i16 => 2
  | .i32 => 4
  | .i64 => 8
  | .i128 => 16

/-- The size in bytes. -/
def uintSize : UintTy → ℕ
  | .usize => pointer.bytes
  | .u8 => 1
  | .u16 => 2
  | .u32 => 4
  | .u64 => 8
  | .u128 => 16

/-- The types of the compiler. Those that `lower_constant` does not support have a size only. -/
inductive TyKind
  | int (int_ty : IntTy)
  | uint (uint_ty : UintTy)
  | bool
  | unsupported (size : ℕ)
  deriving DecidableEq, Repr

/-- The size in bytes, which `layout_of` computes. -/
def TyKind.size : TyKind → ℕ
  | int int_ty => intSize pointer int_ty
  | uint uint_ty => uintSize pointer uint_ty
  | bool => 1
  | unsupported size => size

/-- `mir::interpret::Scalar`: the bit pattern of a value with its size in bytes, or a pointer. -/
inductive Scalar
  | int (data : ℕ) (size : ℕ)
  | ptr
  deriving DecidableEq, Repr

/-- `Scalar::to_bits`. -/
def Scalar.toBits (size : ℕ) : Scalar → Option ℕ
  | int data size' => if size = size' then some data else none
  | ptr => none

/-- `scalar_to_bits`. -/
def scalarToBits (scalar : Scalar) (ty : TyKind) : Option ℕ :=
  scalar.toBits (ty.size pointer)

/-- `mir::ConstantKind`: a scalar of a type, or a constant of another kind. -/
inductive ConstantKind
  | scalar (ty : TyKind) (scalar : Scalar)
  | unsupported
  deriving DecidableEq, Repr

/-- `lower_constant`. There is no result where the constant is reported as not supported. -/
def lowerConstant : ConstantKind → Option Ir.Constant
  | .scalar ty scalar =>
    match ty, scalarToBits pointer scalar ty with
    | .int int_ty, some bits => some (.int (Typeck.Expr.asI128 bits) int_ty)
    | .uint uint_ty, some bits => some (.uint bits uint_ty)
    | .bool, some bits => some (.bool (bits ≠ 0))
    | _, _ => none
  | .unsupported => none

end LiquidRust.Driver
