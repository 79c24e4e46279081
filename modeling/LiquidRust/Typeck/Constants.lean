import Mathlib
import LiquidRust.Driver.Lowering
import LiquidRust.Fixpoint.Meaning
import LiquidRust.Typeck.Checker

set_option relaxedAutoImplicit false
set_option autoImplicit false

/-!
# The values of constants

A constant of a Rust program crosses three crates on its way to the solver: it is lowered from its
bit pattern, typed, and printed. The pattern is read without regard to its width, so that the
negative values of the narrow types become large numbers.

## Main definitions

* `LiquidRust.Typeck.IntegralTy` — the integer types, and the value of a bit pattern.
* `LiquidRust.Typeck.IntegralTy.KeepsValue` — the solver is sent the value of a pattern.

## Main results

* `LiquidRust.Typeck.IntegralTy.keepsValue_iff` — the values that are kept: those that are not
  negative, and those of `i128` but for the smallest.
* `LiquidRust.Typeck.IntegralTy.not_keepsValue_i32` — the solver is sent `4294967295` for `-1`.
-/

namespace LiquidRust.Fixpoint

/-- With overflow checks the conversion stops at `i128::MIN` only. -/
lemma Constant.ofI128Checked_eq (c : ℤ) :
    Constant.ofI128Checked c = if c = -2 ^ 127 then none else some (.ofI128 c) := by
  rw [ofI128Checked, ofI128, checkedNeg]
  split <;> split <;> simp <;> omega

/-- The text of an integer is read as the integer. -/
lemma Constant.toInt?_display {c : Constant} {n : ℤ} (h : c.eval = .int n) :
    c.display.toInt? = some n := by
  cases c with
  | bool b => cases h
  | int sign m =>
    cases sign with
    | positive =>
      cases h
      exact Nat.toInt?_repr m
    | negative =>
      cases h
      show ("-" ++ m.repr).toInt? = _
      simp

end LiquidRust.Fixpoint

namespace LiquidRust.Typeck

open Driver Checker

/-! ## Bit patterns -/

/-- The number that a `u128` becomes is the value of the pattern of a signed type only if the
pattern has all 128 bits, or is that of a number that is not negative. -/
lemma asI128_toNat_eq_toInt_iff {w : ℕ} (hw : w ≤ 128) (x : BitVec w) :
    Expr.asI128 x.toNat = x.toInt ↔ 0 ≤ x.toInt ∨ w = 128 := by
  have hx := x.isLt
  have hpow : 2 ^ w ≤ 2 ^ 128 := Nat.pow_le_pow_right (by decide) hw
  rw [Expr.asI128, BitVec.toInt_eq_toNat_cond]
  by_cases h : w = 128
  · subst h
    split <;> split <;> simp <;> omega
  · have hlt : 2 ^ w ≤ 2 ^ 127 := Nat.pow_le_pow_right (by decide) (by omega)
    rw [if_pos (hx.trans_le hlt)]
    generalize 2 ^ w = m at hx
    split <;> omega

/-- The integer types. -/
inductive IntegralTy
  | int (int_ty : IntTy)
  | uint (uint_ty : UintTy)
  deriving DecidableEq, Repr

namespace IntegralTy

/-- The type of the compiler. -/
def kind : IntegralTy → TyKind
  | int int_ty => .int int_ty
  | uint uint_ty => .uint uint_ty

/-- The base type of the checker. -/
def baseTy : IntegralTy → BaseTy
  | int int_ty => .int int_ty
  | uint uint_ty => .uint uint_ty

/-- The number of bits. -/
def width (pointer : PointerWidth) (ty : IntegralTy) : ℕ :=
  8 * ty.kind.size pointer

/-- The value of a bit pattern, which is two's complement for the signed types. -/
def value (ty : IntegralTy) {w : ℕ} (x : BitVec w) : ℤ :=
  match ty with
  | int _ => x.toInt
  | uint _ => x.toNat

/-- No integral type is wider than 128 bits. -/
lemma width_le (pointer : PointerWidth) (ty : IntegralTy) : ty.width pointer ≤ 128 := by
  cases ty with
  | int int_ty => cases int_ty <;> cases pointer <;> decide
  | uint uint_ty => cases uint_ty <;> cases pointer <;> decide

end IntegralTy

/-! ## Constants -/

/-- `check_constant` with overflow checks. -/
def checkConstantChecked : Core.Ir.Constant → Option Ty
  | .int n int_ty => (Fixpoint.Constant.ofI128Checked n).map fun c =>
    .refine (.int int_ty) (.constant c)
  | .uint n uint_ty => some (.refine (.uint uint_ty) (.constant (.ofU128 n)))
  | .bool b => some (.refine .bool (.constant (.bool b)))

namespace IntegralTy

variable (pointer : PointerWidth)

/-- The constant of the compiler with a bit pattern, which is zero-extended. -/
def constant (ty : IntegralTy) (x : BitVec (ty.width pointer)) : ConstantKind :=
  .scalar ty.kind (.int x.toNat (ty.kind.size pointer))

/-- **The solver is sent the value of the pattern**: the constant is lowered and typed without
overflow, and the integer that indexes its type has the value, also as text. -/
def KeepsValue (ty : IntegralTy) (x : BitVec (ty.width pointer)) : Prop :=
  ∃ c k, lowerConstant pointer (ty.constant pointer x) = some c ∧
    checkConstantChecked c = some (.refine ty.baseTy (.constant k)) ∧
    k.eval = .int (ty.value x) ∧ k.display.toInt? = some (ty.value x)

/-- A signed constant is lowered to the number that its pattern becomes. -/
lemma lowerConstant_int (int_ty : IntTy) (x : BitVec (width pointer (.int int_ty))) :
    lowerConstant pointer (constant pointer (.int int_ty) x) =
      some (.int (Expr.asI128 x.toNat) int_ty) := by
  simp [constant, lowerConstant, scalarToBits, Scalar.toBits, kind]

/-- An unsigned constant is lowered to its pattern. -/
lemma lowerConstant_uint (uint_ty : UintTy) (x : BitVec (width pointer (.uint uint_ty))) :
    lowerConstant pointer (constant pointer (.uint uint_ty) x) = some (.uint x.toNat uint_ty) := by
  simp [constant, lowerConstant, scalarToBits, Scalar.toBits, kind]

/-- **The values that are kept** are those that are not negative, and those of the widest signed
type but for the smallest.

**Proof sketch.** The bits are read without their sign, so the integer is the value of the pattern
iff the sign bit is not set or there are 128 bits (`asI128_toNat_eq_toInt_iff`). The text of an
integer is read back as it (`toInt?_display`), but there is none for the smallest one, whose sign
is changed first. -/
theorem keepsValue_iff (ty : IntegralTy) (x : BitVec (ty.width pointer)) :
    ty.KeepsValue pointer x ↔
      0 ≤ ty.value x ∨ ty.width pointer = 128 ∧ ty.value x ≠ -2 ^ 127 := by
  cases ty with
  | uint uint_ty =>
    refine iff_of_true ⟨_, .ofU128 x.toNat, lowerConstant_uint pointer uint_ty x, rfl, rfl, ?_⟩
      (.inl (Int.natCast_nonneg _))
    exact Fixpoint.Constant.toInt?_display rfl
  | int int_ty =>
    have hvalue := asI128_toNat_eq_toInt_iff (width_le pointer (.int int_ty)) x
    constructor
    · rintro ⟨c, k, hc, hk, heval, -⟩
      obtain rfl := Option.some.inj ((lowerConstant_int pointer int_ty x).symm.trans hc)
      rw [checkConstantChecked, Fixpoint.Constant.ofI128Checked_eq] at hk
      split at hk
      · cases hk
      · next hmin =>
        obtain ⟨-, rfl⟩ : BaseTy.int int_ty = (int int_ty).baseTy ∧
            Fixpoint.Constant.ofI128 (Expr.asI128 x.toNat) = k := by simpa using hk
        rw [Fixpoint.Constant.eval_ofI128] at heval
        have heq : Expr.asI128 x.toNat = x.toInt := Fixpoint.Val.int.inj heval
        refine (hvalue.mp heq).imp_right fun h => ⟨h, ?_⟩
        show x.toInt ≠ -2 ^ 127
        rwa [← heq]
    · intro h
      have heq : Expr.asI128 x.toNat = x.toInt := hvalue.mpr (h.imp_right And.left)
      have hmin : x.toInt ≠ -2 ^ 127 := by
        rcases h with h | ⟨-, h⟩
        · have h : 0 ≤ x.toInt := h
          omega
        · exact h
      have heval : (Fixpoint.Constant.ofI128 x.toInt).eval = .int x.toInt :=
        Fixpoint.Constant.eval_ofI128 _
      refine ⟨_, .ofI128 x.toInt, lowerConstant_int pointer int_ty x, ?_, heval,
        Fixpoint.Constant.toInt?_display heval⟩
      rw [heq, checkConstantChecked, Fixpoint.Constant.ofI128Checked_eq, if_neg hmin]
      rfl

/-- **A negative constant becomes a large number**: the `i32` that is `-1` is printed as
`4294967295`. -/
theorem not_keepsValue_i32 :
    lowerConstant .w64 ((int .i32).constant .w64 (BitVec.ofInt 32 (-1))) =
        some (.int 4294967295 .i32) ∧
      checkConstantChecked (.int 4294967295 .i32) =
        some (.refine (.int .i32) (.constant (.int .positive 4294967295))) ∧
      (Fixpoint.Constant.int .positive 4294967295).display = "4294967295" ∧
      ¬(int .i32).KeepsValue .w64 (BitVec.ofInt 32 (-1)) := by
  refine ⟨by decide +kernel, by decide +kernel, by decide +kernel, ?_⟩
  rintro ⟨c, k, hc, hk, heval, -⟩
  cases hc
  cases hk
  exact absurd heval (by decide +kernel)

end IntegralTy

end LiquidRust.Typeck
