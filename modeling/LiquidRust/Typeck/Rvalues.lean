import LiquidRust.Typeck.Constants
import LiquidRust.Typeck.SubtypingSound

set_option relaxedAutoImplicit false
set_option autoImplicit false

/-!
# The values of rvalues

An rvalue over integers and booleans is typed with an index expression, which the solver reads over
the mathematical integers. It has the value that the machine computes, but for divisions: the
machine rounds towards zero, and the solver's division leaves a remainder that is not negative.

## Main definitions

* `LiquidRust.Typeck.MirValue`, `MirValue.binaryOp`, `unaryOp` — machine values and operations.
* `LiquidRust.Typeck.SmtLibDiv` — the division of SMT-LIB.
* `LiquidRust.Typeck.Checker.TypedByValue` — an rvalue is typed by its value.

## Main results

* `LiquidRust.Typeck.tdiv_eq_ediv_iff` — when the two divisions agree.
* `LiquidRust.Typeck.Checker.typedByValue_iff` — when an rvalue is typed by its value.
-/

namespace LiquidRust.Typeck

open Lib Cursor
open Core.Ir (Operand Rvalue)
open Driver (PointerWidth)

/-! ## Machine operations -/

namespace IntegralTy

variable {w : ℕ} (ty : IntegralTy) (x y : BitVec w)

/-- Whether the value of a pattern is below that of another. -/
def lt : Bool :=
  match ty with
  | int _ => x.slt y
  | uint _ => x.ult y

/-- Whether the value of a pattern is at most that of another. -/
def le : Bool :=
  match ty with
  | int _ => x.sle y
  | uint _ => x.ule y

/-- The sum, unless it overflows. -/
def add : Option (BitVec w) :=
  let overflow := match ty with
    | int _ => x.saddOverflow y
    | uint _ => x.uaddOverflow y
  if overflow then none else some (x + y)

/-- The difference, unless it overflows. -/
def sub : Option (BitVec w) :=
  let overflow := match ty with
    | int _ => x.ssubOverflow y
    | uint _ => x.usubOverflow y
  if overflow then none else some (x - y)

/-- The product, unless it overflows. -/
def mul : Option (BitVec w) :=
  let overflow := match ty with
    | int _ => x.smulOverflow y
    | uint _ => x.umulOverflow y
  if overflow then none else some (x * y)

/-- The quotient, rounded towards zero, unless the divisor is zero or the quotient overflows. -/
def div : Option (BitVec w) :=
  if y = 0 then none
  else match ty with
    | int _ => if x = .intMin w ∧ y = -1 then none else some (x.sdiv y)
    | uint _ => some (x.udiv y)

/-- The negation of a signed number, unless it overflows. -/
def neg : Option (BitVec w) :=
  match ty with
  | int _ => if x.negOverflow then none else some (-x)
  | uint _ => none

end IntegralTy

/-- A value of an integer type, as a bit pattern, or a boolean. -/
inductive MirValue (pointer : PointerWidth)
  | int (ty : IntegralTy) (x : BitVec (ty.width pointer))
  | bool (b : Bool)

namespace MirValue

variable {pointer : PointerWidth}

/-- The base type of a value. -/
def baseTy : MirValue pointer → BaseTy
  | int ty _ => ty.baseTy
  | bool _ => .bool

/-- The number or the truth value that a value stands for. -/
def val : MirValue pointer → Val
  | int ty x => .int (ty.value x)
  | bool b => .bool b

/-- An operation on two integers of one type. -/
def intOp (op : Core.Ir.BinOp) (ty : IntegralTy) (x y : BitVec (ty.width pointer)) :
    Option (MirValue pointer) :=
  match op with
  | .gt => some (bool (ty.lt y x))
  | .lt => some (bool (ty.lt x y))
  | .le => some (bool (ty.le x y))
  | .eq => some (bool (x = y))
  | .ne => some (bool (x ≠ y))
  | .add => (ty.add x y).map (int ty)
  | .sub => (ty.sub x y).map (int ty)
  | .mul => (ty.mul x y).map (int ty)
  | .div => (ty.div x y).map (int ty)

/-- An operation on two booleans, of which `false` is the lesser one. -/
def boolOp (op : Core.Ir.BinOp) (a b : Bool) : Option (MirValue pointer) :=
  match op with
  | .gt => some (bool (b < a))
  | .lt => some (bool (a < b))
  | .le => some (bool (a ≤ b))
  | .eq => some (bool (a = b))
  | .ne => some (bool (a ≠ b))
  | .add | .sub | .mul | .div => none

/-- **What the machine computes** for two values of one type. There is no result where the
operation overflows or fails. -/
def binaryOp (op : Core.Ir.BinOp) : MirValue pointer → MirValue pointer → Option (MirValue pointer)
  | int ty x, int ty' y => if h : ty' = ty then intOp op ty x (h ▸ y) else none
  | bool a, bool b => boolOp op a b
  | _, _ => none

/-- **What the machine computes** for one value. -/
def unaryOp (op : Core.Ir.UnOp) : MirValue pointer → Option (MirValue pointer)
  | int ty x =>
    match op with
    | .not => some (int ty (~~~x))
    | .neg => (ty.neg x).map (int ty)
  | bool b =>
    match op with
    | .not => some (bool !b)
    | .neg => none

/-- The value of an rvalue over integers and booleans, whose operands have the values `M`. -/
def ofRvalue (M : Operand → MirValue pointer) : Rvalue → Option (MirValue pointer)
  | .use operand => some (M operand)
  | .binaryOp op op1 op2 => (M op1).binaryOp op (M op2)
  | .unaryOp op operand => (M operand).unaryOp op
  | .mutRef _ => none

end MirValue

/-! ### Their values -/

namespace IntegralTy

variable {w : ℕ} {ty : IntegralTy} {x y z : BitVec w}

/-- Comparing patterns compares their values. -/
lemma lt_eq : ty.lt x y = decide (ty.value x < ty.value y) := by
  cases ty with
  | int int_ty => rfl
  | uint uint_ty => simp [lt, value, BitVec.ult]

/-- The same for `≤`. -/
lemma le_eq : ty.le x y = decide (ty.value x ≤ ty.value y) := by
  cases ty with
  | int int_ty => rfl
  | uint uint_ty => simp [le, value, BitVec.ule]

/-- Patterns with the same value are the same. -/
lemma value_inj : ty.value x = ty.value y ↔ x = y := by
  cases ty with
  | int int_ty => exact BitVec.toInt_inj
  | uint uint_ty => exact Int.ofNat_inj.trans BitVec.toNat_inj

/-- The sum has the sum of the values. -/
lemma value_add (h : ty.add x y = some z) : ty.value z = ty.value x + ty.value y := by
  cases ty with
  | int int_ty =>
    simp only [add, Option.ite_none_left_eq_some, Option.some.injEq] at h
    obtain ⟨hover, rfl⟩ := h
    exact BitVec.toInt_add_of_not_saddOverflow hover
  | uint uint_ty =>
    simp only [add, Option.ite_none_left_eq_some, Option.some.injEq] at h
    obtain ⟨hover, rfl⟩ := h
    show ((x + y).toNat : ℤ) = x.toNat + y.toNat
    rw [BitVec.toNat_add_of_not_uaddOverflow hover, Nat.cast_add]

/-- The difference has the difference of the values. -/
lemma value_sub (h : ty.sub x y = some z) : ty.value z = ty.value x - ty.value y := by
  cases ty with
  | int int_ty =>
    simp only [sub, Option.ite_none_left_eq_some, Option.some.injEq] at h
    obtain ⟨hover, rfl⟩ := h
    exact BitVec.toInt_sub_of_not_ssubOverflow hover
  | uint uint_ty =>
    simp only [sub, Option.ite_none_left_eq_some, Option.some.injEq] at h
    obtain ⟨hover, rfl⟩ := h
    have hle : y.toNat ≤ x.toNat := by simpa [BitVec.usubOverflow] using hover
    show ((x - y).toNat : ℤ) = x.toNat - y.toNat
    rw [BitVec.toNat_sub_of_not_usubOverflow hover, Nat.cast_sub hle]

/-- The product has the product of the values. -/
lemma value_mul (h : ty.mul x y = some z) : ty.value z = ty.value x * ty.value y := by
  cases ty with
  | int int_ty =>
    simp only [mul, Option.ite_none_left_eq_some, Option.some.injEq] at h
    obtain ⟨hover, rfl⟩ := h
    exact BitVec.toInt_mul_of_not_smulOverflow hover
  | uint uint_ty =>
    simp only [mul, Option.ite_none_left_eq_some, Option.some.injEq] at h
    obtain ⟨hover, rfl⟩ := h
    show ((x * y).toNat : ℤ) = x.toNat * y.toNat
    rw [BitVec.toNat_mul_of_not_umulOverflow hover, Nat.cast_mul]

/-- The negation has the negated value. -/
lemma value_neg (h : ty.neg x = some z) : ty.value z = -ty.value x := by
  cases ty with
  | int int_ty =>
    simp only [neg, Option.ite_none_left_eq_some, Option.some.injEq] at h
    obtain ⟨hover, rfl⟩ := h
    exact BitVec.toInt_neg_of_not_negOverflow hover
  | uint uint_ty => cases h

/-- **The machine rounds towards zero.** -/
lemma value_div (h : ty.div x y = some z) :
    ty.value y ≠ 0 ∧ ty.value z = (ty.value x).tdiv (ty.value y) := by
  unfold div at h
  rw [Option.ite_none_left_eq_some] at h
  obtain ⟨hy, h⟩ := h
  have hy' : ty.value y ≠ 0 := by
    rw [show (0 : ℤ) = ty.value (0 : BitVec w) by cases ty <;> simp [value], Ne, value_inj]
    exact hy
  refine ⟨hy', ?_⟩
  cases ty with
  | int int_ty =>
    simp only [Option.ite_none_left_eq_some, Option.some.injEq] at h
    obtain ⟨hover, rfl⟩ := h
    refine BitVec.toInt_sdiv_of_ne_or_ne x y ?_
    by_cases hx : x = .intMin w
    · exact .inr fun hy => hover ⟨hx, hy⟩
    · exact .inl hx
  | uint uint_ty =>
    obtain rfl := Option.some.inj h
    show ((x.udiv y).toNat : ℤ) = (x.toNat : ℤ).tdiv y.toNat
    simp

/-- A quotient overflows only if the divisor is `-1`. -/
lemma div_isSome (hy : ty.value y ≠ 0) (hy' : ty.value y ≠ -1) : (ty.div x y).isSome := by
  have hne : y ≠ 0 := by
    rintro rfl
    cases ty <;> simp [value] at hy
  unfold div
  rw [if_neg hne]
  cases ty with
  | int int_ty =>
    have hne' : y ≠ -1 := by
      rintro rfl
      have hw : w ≠ 0 := by
        rintro rfl
        exact hne (Subsingleton.elim _ _)
      have hpos : 0 < w := Nat.pos_of_ne_zero hw
      have hvalue : (-1#w).toInt = -1 := by
        rw [BitVec.neg_one_eq_allOnes, BitVec.toInt_allOnes, if_pos hpos]
      exact hy' hvalue
    rw [if_neg fun h => hne' h.2]
    rfl
  | uint uint_ty => rfl

end IntegralTy

/-! ## Divisions -/

/-- **The division of SMT-LIB** leaves a remainder that is not negative. It is not specified for
the divisor zero. -/
def SmtLibDiv (div : ℤ → ℤ → ℤ) : Prop :=
  ∀ a b q r, b ≠ 0 → a = b * q + r → 0 ≤ r → r < |b| → div a b = q

/-- Euclidean division is a division of the SMT-LIB kind. -/
lemma smtLibDiv_ediv : SmtLibDiv (· / ·) := by
  intro a b q r hb ha hr hlt
  show a / b = q
  rw [ha, Int.add_comm, Int.add_mul_ediv_left r q hb, Int.ediv_eq_zero_of_lt_abs hr hlt, zero_add]

/-- One of the SMT-LIB kind is it, but at 0. -/
lemma SmtLibDiv.eq_ediv {div : ℤ → ℤ → ℤ} (h : SmtLibDiv div) {a b : ℤ} (hb : b ≠ 0) :
    div a b = a / b :=
  h a b (a / b) (a % b) hb (Int.mul_ediv_add_emod a b).symm (Int.emod_nonneg a hb)
    (Int.emod_lt_abs a hb)

/-- **When the two divisions agree**: if the dividend is not negative, or there is no remainder. -/
lemma tdiv_eq_ediv_iff {a b : ℤ} (hb : b ≠ 0) : a.tdiv b = a / b ↔ 0 ≤ a ∨ b ∣ a := by
  rw [Int.tdiv_eq_ediv]
  split_ifs with h
  · simp [h]
  · have hsign : b.sign ≠ 0 := by simpa using hb
    simp [h, hsign]

/-! ## Types -/

namespace Checker

/-- The operator of an index expression. -/
def indexOp : Core.Ir.BinOp → BinOp
  | .gt => .gt
  | .lt => .lt
  | .le => .le
  | .eq => .eq
  | .ne => .ne
  | .add => .add
  | .sub => .sub
  | .mul => .mul
  | .div => .div

/-- The base type of a result. -/
def resultTy (op : Core.Ir.BinOp) (bty : BaseTy) : BaseTy :=
  match op with
  | .gt | .lt | .le | .eq | .ne => .bool
  | .add | .sub | .mul | .div => bty

end Checker

/-- The operands of an rvalue. -/
def operands : Rvalue → List Operand
  | .use operand | .unaryOp _ operand => [operand]
  | .binaryOp _ op1 op2 => [op1, op2]
  | .mutRef _ => []

namespace Checker

variable {pointer : PointerWidth}

/-- **The operands are typed by their values**: each has, where its turn comes, the base type of
its value and an index that evaluates to it. -/
def OperandsTyped (M : Operand → MirValue pointer) (I : Interp) (ρ : Valuation) :
    TypeEnv → List Operand → Prop
  | _, [] => True
  | env, op :: ops => ∃ env' e, checkOperand env op = .ok (env', .refine (M op).baseTy e) ∧
    e.eval I.div ρ = some (M op).val ∧ OperandsTyped M I ρ env' ops

/-- **An rvalue is typed by its value**: if the machine computes one and the precondition that is
pushed holds, the type of the rvalue has its base type and an index that evaluates to it. -/
def TypedByValue (M : Operand → MirValue pointer) (I : Interp) (ρ : Valuation) (c : Cursor)
    (env : TypeEnv) (rvalue : Rvalue) : Prop :=
  ∀ env' ty c' nodes v, (checkRvalue env rvalue).run c = .ok ((env', ty), c') →
    Node.append nodes c.builder.root c.node = some c'.builder.root → Node.AllHold I ρ nodes →
    MirValue.ofRvalue M rvalue = some v →
    ∃ e, ty = .refine v.baseTy e ∧ e.eval I.div ρ = some v.val

/-- No quotient is rounded differently by the machine and by SMT-LIB. -/
def RoundsAlike (M : Operand → MirValue pointer) (rvalue : Rvalue) : Prop :=
  ∀ op1 op2 ty x y, rvalue = .binaryOp .div op1 op2 → M op1 = .int ty x → M op2 = .int ty y →
    ty.value y = 0 ∨ 0 ≤ ty.value x ∨ ty.value y ∣ ty.value x

/-! ### Operations -/

/-- An operation on two integers has the value of its operator, but for a division. -/
lemma eval_intOp (div : ℤ → ℤ → ℤ) {op : Core.Ir.BinOp} {ty : IntegralTy}
    {x y : BitVec (ty.width pointer)} {v : MirValue pointer}
    (h : MirValue.intOp op ty x y = some v) :
    v.baseTy = resultTy op ty.baseTy ∧
      (op ≠ .div → (indexOp op).eval div (.int (ty.value x)) (.int (ty.value y)) = some v.val) ∧
      (op = .div → ty.value y ≠ 0 ∧
        v.val = .int ((ty.value x).tdiv (ty.value y))) := by
  cases op with
  | gt | lt | le =>
    obtain rfl := Option.some.inj h
    exact ⟨rfl, fun _ => by simp [indexOp, Fixpoint.BinOp.eval, MirValue.val, IntegralTy.lt_eq,
      IntegralTy.le_eq], fun h => by cases h⟩
  | eq | ne =>
    obtain rfl := Option.some.inj h
    exact ⟨rfl, fun _ => by simp [indexOp, Fixpoint.BinOp.eval, MirValue.val,
      IntegralTy.value_inj], fun h => by cases h⟩
  | add =>
    obtain ⟨z, hz, rfl⟩ := Option.map_eq_some_iff.mp h
    refine ⟨rfl, fun _ => ?_, fun h => by cases h⟩
    rw [MirValue.val, IntegralTy.value_add hz]
    rfl
  | sub =>
    obtain ⟨z, hz, rfl⟩ := Option.map_eq_some_iff.mp h
    refine ⟨rfl, fun _ => ?_, fun h => by cases h⟩
    rw [MirValue.val, IntegralTy.value_sub hz]
    rfl
  | mul =>
    obtain ⟨z, hz, rfl⟩ := Option.map_eq_some_iff.mp h
    refine ⟨rfl, fun _ => ?_, fun h => by cases h⟩
    rw [MirValue.val, IntegralTy.value_mul hz]
    rfl
  | div =>
    obtain ⟨z, hz, rfl⟩ := Option.map_eq_some_iff.mp h
    obtain ⟨hy, hvalue⟩ := IntegralTy.value_div hz
    exact ⟨rfl, fun hne => absurd rfl hne, fun _ => ⟨hy, by rw [MirValue.val, hvalue]⟩⟩

/-- Booleans are compared; there is no other operation that is typed. -/
lemma eval_boolOp (div : ℤ → ℤ → ℤ) {op : Core.Ir.BinOp} (hop : op = .eq ∨ op = .ne) {a b : Bool}
    {v : MirValue pointer} (h : MirValue.boolOp op a b = some v) :
    v.baseTy = .bool ∧ (indexOp op).eval div (.bool a) (.bool b) = some v.val := by
  rcases hop with rfl | rfl <;> obtain rfl := Option.some.inj h
  · exact ⟨rfl, by cases a <;> cases b <;> rfl⟩
  · exact ⟨rfl, by cases a <;> cases b <;> rfl⟩

/-! ### Checks -/

/-- The precondition of an operation: the divisor is not zero. -/
def Precondition (op : Core.Ir.BinOp) (e2 : Expr) (I : Interp) (ρ : Valuation) : Prop :=
  op = .div → (Expr.binaryOp .ne e2 .zero).Holds I ρ

/-- The type of an operation, and its precondition. Integers of one type are accepted by all
operations, and by arithmetic and order nothing else is. -/
def BinaryOpSpec (op : Core.Ir.BinOp) (bty1 bty2 : BaseTy) (e1 e2 : Expr) (c : Cursor) (ty : Ty)
    (c' : Cursor) : Prop :=
  bty1 = bty2 ∧ ty = .refine (resultTy op bty1) (.binaryOp (indexOp op) e1 e2) ∧
    (op = .eq ∨ op = .ne ∨ ∃ ty : IntegralTy, bty1 = ty.baseTy) ∧
    ∃ nodes, c.Appends c' nodes ∧ ∀ I ρ, Node.AllHold I ρ nodes ↔ Precondition op e2 I ρ

section Checks

variable {c : Cursor} {op : Core.Ir.BinOp} {bty1 bty2 : BaseTy} {e1 e2 : Expr}

/-- Base types that are not those of two integers of one type. -/
def Mismatch (bty1 bty2 : BaseTy) : Prop :=
  ∀ ty : IntegralTy, ¬(bty1 = ty.baseTy ∧ bty2 = ty.baseTy)

/-- The precondition is pushed before the rest. -/
lemma wp_precondition (hc : c.Valid) {k : PUnit → CursorM Ty} {Q : Ty → Cursor → Prop}
    {E : Failure → Prop}
    (hk : ∀ c', (∃ nodes, c.Appends c' nodes ∧
      ∀ I ρ, Node.AllHold I ρ nodes ↔ Precondition op e2 I ρ) → wp (k ⟨⟩) Q E c') :
    wp (if indexOp op = .div then pushHead (.expr (.binaryOp .ne e2 .zero)) >>= k else k ⟨⟩)
      Q E c := by
  by_cases hop : op = .div
  · subst hop
    rw [if_pos (show indexOp .div = .div from rfl), wp_bind]
    refine wp_mono (wp_and (Obliges.pushHead hc (.expr (.binaryOp .ne e2 .zero)))
      (hc.wp_pushHead (.expr (.binaryOp .ne e2 .zero))))
      (fun _ c' ⟨⟨nodes, happ, hholds⟩, _⟩ => hk c' ⟨nodes, happ, fun I ρ => ?_⟩)
      fun _ h => h.2.elim
    rw [hholds]
    exact ⟨fun h _ => h, fun h => h rfl⟩
  · have hne : indexOp op ≠ .div := by cases op <;> simp_all [indexOp]
    rw [if_neg hne]
    exact hk c ⟨[], .nil hc, fun I ρ => iff_of_true trivial fun h => absurd h hop⟩

/-- An arithmetic operator meets its rule. -/
lemma wp_checkArithOp (hc : c.Valid) (hop : resultTy op bty1 = bty1) :
    wp (checkArithOp (indexOp op) (.refine bty1 e1) (.refine bty2 e2))
      (BinaryOpSpec op bty1 bty2 e1 e2 c) (fun _ => Mismatch bty1 bty2) c := by
  cases bty1 with
  | int int_ty1 =>
    cases bty2 with
    | int int_ty2 =>
      rw [checkArithOp, wp_bind]
      refine wp_assert.mpr ⟨fun heq => ?_, fun hne => ?_⟩
      · obtain rfl : int_ty1 = int_ty2 := by simpa using heq
        refine wp_precondition hc fun c' hnodes => ?_
        exact ⟨rfl, by rw [hop], .inr (.inr ⟨.int int_ty1, rfl⟩), hnodes⟩
      · rintro (int_ty | uint_ty) ⟨h1, h2⟩
        · cases h1
          cases h2
          simp at hne
        · cases h1
    | _ =>
      rintro (int_ty | uint_ty) ⟨h1, h2⟩ <;> cases h1
      cases h2
  | uint uint_ty1 =>
    cases bty2 with
    | uint uint_ty2 =>
      rw [checkArithOp, wp_bind]
      refine wp_assert.mpr ⟨fun heq => ?_, fun hne => ?_⟩
      · obtain rfl : uint_ty1 = uint_ty2 := by simpa using heq
        refine wp_precondition hc fun c' hnodes => ?_
        exact ⟨rfl, by rw [hop], .inr (.inr ⟨.uint uint_ty1, rfl⟩), hnodes⟩
      · rintro (int_ty | uint_ty) ⟨h1, h2⟩
        · cases h1
        · cases h1
          cases h2
          simp at hne
    | _ =>
      rintro (int_ty | uint_ty) ⟨h1, h2⟩ <;> cases h1
      cases h2
  | _ => rintro (int_ty | uint_ty) ⟨h1, h2⟩ <;> cases h1

/-- A comparison meets its rule. -/
lemma wp_checkCmpOp (hc : c.Valid) (hop : resultTy op bty1 = .bool) (hdiv : op ≠ .div) :
    wp (checkCmpOp (indexOp op) (.refine bty1 e1) (.refine bty2 e2))
      (BinaryOpSpec op bty1 bty2 e1 e2 c) (fun _ => Mismatch bty1 bty2) c := by
  have hnodes : ∃ nodes, c.Appends c nodes ∧
      ∀ I ρ, Node.AllHold I ρ nodes ↔ Precondition op e2 I ρ :=
    ⟨[], .nil hc, fun I ρ => iff_of_true trivial fun h => absurd h hdiv⟩
  cases bty1 with
  | int int_ty1 =>
    cases bty2 with
    | int int_ty2 =>
      rw [checkCmpOp, wp_bind]
      refine wp_assert.mpr ⟨fun heq => ?_, fun hne => ?_⟩
      · obtain rfl : int_ty1 = int_ty2 := by simpa using heq
        exact ⟨rfl, by rw [hop], .inr (.inr ⟨.int int_ty1, rfl⟩), hnodes⟩
      · rintro (int_ty | uint_ty) ⟨h1, h2⟩
        · cases h1
          cases h2
          simp at hne
        · cases h1
    | _ =>
      rintro (int_ty | uint_ty) ⟨h1, h2⟩ <;> cases h1
      cases h2
  | uint uint_ty1 =>
    cases bty2 with
    | uint uint_ty2 =>
      rw [checkCmpOp, wp_bind]
      refine wp_assert.mpr ⟨fun heq => ?_, fun hne => ?_⟩
      · obtain rfl : uint_ty1 = uint_ty2 := by simpa using heq
        exact ⟨rfl, by rw [hop], .inr (.inr ⟨.uint uint_ty1, rfl⟩), hnodes⟩
      · rintro (int_ty | uint_ty) ⟨h1, h2⟩
        · cases h1
        · cases h1
          cases h2
          simp at hne
    | _ =>
      rintro (int_ty | uint_ty) ⟨h1, h2⟩ <;> cases h1
      cases h2
  | _ => rintro (int_ty | uint_ty) ⟨h1, h2⟩ <;> cases h1

/-- An equality meets its rule. -/
lemma wp_checkEq (hc : c.Valid) (hop : op = .eq ∨ op = .ne) :
    wp (checkEq (indexOp op) (.refine bty1 e1) (.refine bty2 e2))
      (BinaryOpSpec op bty1 bty2 e1 e2 c) (fun _ => Mismatch bty1 bty2) c := by
  have hdiv : op ≠ .div := by rcases hop with rfl | rfl <;> simp
  have hresult : resultTy op bty1 = .bool := by rcases hop with rfl | rfl <;> rfl
  rw [checkEq, wp_bind]
  refine wp_assert.mpr ⟨fun heq => ?_, fun hne => ?_⟩
  · refine ⟨by simpa using heq, by rw [hresult], ?_, [], .nil hc, fun I ρ => ?_⟩
    · exact hop.imp_right .inl
    · exact iff_of_true trivial fun h => absurd h hdiv
  · rintro ty ⟨rfl, rfl⟩
    simp at hne

/-- **The type of a binary operation and its precondition.** -/
lemma wp_checkBinaryOp (hc : c.Valid) :
    wp (checkBinaryOp op (.refine bty1 e1) (.refine bty2 e2))
      (BinaryOpSpec op bty1 bty2 e1 e2 c) (fun _ => Mismatch bty1 bty2) c := by
  cases op with
  | eq => exact wp_checkEq hc (.inl (rfl : Core.Ir.BinOp.eq = .eq))
  | ne => exact wp_checkEq hc (.inr (rfl : Core.Ir.BinOp.ne = .ne))
  | add => exact wp_checkArithOp hc (rfl : resultTy .add bty1 = bty1)
  | sub => exact wp_checkArithOp hc (rfl : resultTy .sub bty1 = bty1)
  | mul => exact wp_checkArithOp hc (rfl : resultTy .mul bty1 = bty1)
  | div => exact wp_checkArithOp hc (rfl : resultTy .div bty1 = bty1)
  | gt => exact wp_checkCmpOp hc (rfl : resultTy .gt bty1 = .bool) (by simp)
  | lt => exact wp_checkCmpOp hc (rfl : resultTy .lt bty1 = .bool) (by simp)
  | le => exact wp_checkCmpOp hc (rfl : resultTy .le bty1 = .bool) (by simp)

end Checks

/-! ### Rvalues -/

section Rvalues

variable {M : Operand → MirValue pointer} {I : Interp} {ρ : Valuation} {c : Cursor}
  {env : TypeEnv}

/-- A result of an operation, and what is pushed for it, can be read off the cursor. -/
lemma wp_checkRvalue_binaryOp (op : Core.Ir.BinOp) {env₁ env₂ : TypeEnv} {op1 op2 : Operand}
    {bty1 bty2 : BaseTy} {e1 e2 : Expr} (hc : c.Valid)
    (h1 : checkOperand env op1 = .ok (env₁, .refine bty1 e1))
    (h2 : checkOperand env₁ op2 = .ok (env₂, .refine bty2 e2)) :
    wp (checkRvalue env (.binaryOp op op1 op2))
      (fun r c' => BinaryOpSpec op bty1 bty2 e1 e2 c r.2 c') (fun _ => Mismatch bty1 bty2) c := by
  rw [checkRvalue, wp_bind, wp_ofExcept, h1, post_ok]
  dsimp only
  rw [wp_bind, wp_ofExcept, h2, post_ok]
  dsimp only
  rw [wp_bind]
  exact wp_checkBinaryOp hc

/-- Two integers of one type. -/
lemma binaryOp_int (op : Core.Ir.BinOp) (ty : IntegralTy) (x y : BitVec (ty.width pointer)) :
    (MirValue.int ty x).binaryOp op (.int ty y) = MirValue.intOp op ty x y := by
  rw [MirValue.binaryOp, dif_pos rfl]

/-- Operations have results on two integers of one type, and on booleans. -/
lemma binaryOp_cases {op : Core.Ir.BinOp} {v1 v2 v : MirValue pointer}
    (h : v1.binaryOp op v2 = some v) :
    (∃ ty x y, v1 = .int ty x ∧ v2 = .int ty y ∧ MirValue.intOp op ty x y = some v) ∨
      ∃ a b, v1 = .bool a ∧ v2 = .bool b ∧ MirValue.boolOp op a b = some v := by
  rcases v1 with ⟨ty, x⟩ | a <;> rcases v2 with ⟨ty', y⟩ | b
  · rw [MirValue.binaryOp] at h
    split at h
    · next heq =>
      subst heq
      exact .inl ⟨ty', x, y, rfl, rfl, h⟩
    · cases h
  · cases h
  · cases h
  · exact .inr ⟨a, b, rfl, rfl, h⟩

/-- **A binary operation is typed by its value**, if no quotient is rounded differently. -/
lemma typedByValue_binaryOp {op : Core.Ir.BinOp} {op1 op2 : Operand} (hdiv : SmtLibDiv I.div)
    (hc : c.Valid) (hops : OperandsTyped M I ρ env [op1, op2])
    (hround : RoundsAlike M (.binaryOp op op1 op2)) :
    TypedByValue M I ρ c env (.binaryOp op op1 op2) := by
  obtain ⟨env₁, e1, h1, he1, env₂, e2, h2, he2, -⟩ := hops
  intro env' ty c' nodes v hrun _ _ hv
  obtain ⟨-, rfl, hint, -⟩ := wp_of_run_ok (wp_checkRvalue_binaryOp _ hc h1 h2) hrun
  have heval : (Expr.binaryOp (indexOp op) e1 e2).eval I.div ρ =
      (indexOp op).eval I.div (M op1).val (M op2).val := by
    rw [Expr.eval, he1, he2]
    rfl
  rcases binaryOp_cases hv with ⟨ty, x, y, hx, hy, hv⟩ | ⟨a, b, ha, hb, hv⟩
  · obtain ⟨hbty, hvalue, hquot⟩ := eval_intOp I.div hv
    refine ⟨_, by rw [hbty, hx]; rfl, ?_⟩
    rw [heval, hx, hy]
    by_cases hop : op = .div
    · -- the quotients agree
      obtain ⟨hne, hval⟩ := hquot hop
      subst hop
      have hagree := (hround op1 op2 ty x y rfl hx hy).resolve_left hne
      rw [hval, (tdiv_eq_ediv_iff hne).mpr hagree, ← hdiv.eq_ediv hne]
      rfl
    · exact hvalue hop
  · have hop : op = .eq ∨ op = .ne := by
      rcases hint with hop | hop | ⟨ty, hty⟩
      · exact .inl hop
      · exact .inr hop
      · rw [ha] at hty
        cases ty <;> cases hty
    obtain ⟨hbty, hvalue⟩ := eval_boolOp I.div hop hv
    refine ⟨_, ?_, by rw [heval, ha, hb]; exact hvalue⟩
    rw [hbty]
    rcases hop with rfl | rfl <;> rfl

/-- A quotient that is rounded differently is not the value of its index. -/
lemma roundsAlike_of_typedByValue {op1 op2 : Operand} (hdiv : SmtLibDiv I.div)
    (hc : c.Valid) (hops : OperandsTyped M I ρ env [op1, op2])
    (htyped : TypedByValue M I ρ c env (.binaryOp .div op1 op2)) :
    RoundsAlike M (.binaryOp .div op1 op2) := by
  rintro _ _ ty x y ⟨⟩ hx hy
  by_contra hcond
  push Not at hcond
  obtain ⟨hne, hneg, hdvd⟩ := hcond
  obtain ⟨env₁, e1, h1, he1, env₂, e2, h2, he2, -⟩ := hops
  -- the operation is accepted, and its precondition holds
  have hspec := wp_checkRvalue_binaryOp .div hc h1 h2
  rcases hrun : (checkRvalue env (.binaryOp .div op1 op2)).run c with f | ⟨⟨env', rty⟩, c'⟩
  · exact (wp_of_run_error hspec hrun) ty ⟨by rw [hx]; rfl, by rw [hy]; rfl⟩
  obtain ⟨-, rfl, -, nodes, happ, hnodes⟩ := wp_of_run_ok hspec hrun
  have hpre : Node.AllHold I ρ nodes := by
    refine (hnodes I ρ).mpr fun _ => ?_
    rw [Expr.Holds, Expr.eval, he2, hy]
    show (some (.bool (decide (ty.value y ≠ 0))) : Option Val) = _
    rw [decide_eq_true hne]
  -- the machine has a quotient, since its divisor is not `-1`
  have hne' : ty.value y ≠ -1 := by
    intro heq
    rw [heq] at hdvd
    exact hdvd (Int.neg_dvd.mpr (one_dvd _))
  obtain ⟨z, hz⟩ := Option.isSome_iff_exists.mp (IntegralTy.div_isSome (x := x) hne hne')
  have hv : MirValue.ofRvalue M (.binaryOp .div op1 op2) = some (.int ty z) := by
    rw [MirValue.ofRvalue, hx, hy, binaryOp_int, MirValue.intOp, hz]
    rfl
  obtain ⟨e, hty, he⟩ := htyped env' _ c' nodes _ hrun happ.root hpre hv
  obtain ⟨-, rfl⟩ := Ty.refine.inj hty
  rw [Expr.eval, he1, he2, hx, hy] at he
  have hquot : I.div (ty.value x) (ty.value y) = ty.value z :=
    Fixpoint.Val.int.inj (Option.some.inj he)
  rw [hdiv.eq_ediv hne, (IntegralTy.value_div hz).2] at hquot
  rcases (tdiv_eq_ediv_iff hne).mp hquot.symm with h | h
  · exact absurd h (not_le.mpr hneg)
  · exact hdvd h

/-- A unary operation is typed by its value. -/
lemma typedByValue_unaryOp {op : Core.Ir.UnOp} {operand : Operand}
    (hops : OperandsTyped M I ρ env [operand]) :
    TypedByValue M I ρ c env (.unaryOp op operand) := by
  obtain ⟨env₁, e, h, he, -⟩ := hops
  intro env' ty c' nodes v hrun _ _ hv
  rw [checkRvalue, h] at hrun
  rw [MirValue.ofRvalue] at hv
  cases hM : M operand with
  | int ty x =>
    rw [hM] at hrun he hv
    cases op with
    | not => cases ty <;> cases hrun
    | neg =>
      obtain ⟨z, hz, rfl⟩ := Option.map_eq_some_iff.mp hv
      cases ty with
      | int int_ty =>
        cases hrun
        refine ⟨e.neg, rfl, ?_⟩
        rw [Expr.neg, Expr.eval, he]
        show (some (.int (-x.toInt)) : Option Val) = some (.int z.toInt)
        rw [show z.toInt = -x.toInt from IntegralTy.value_neg hz]
      | uint uint_ty => cases hrun
  | bool b =>
    rw [hM] at hrun he hv
    cases op with
    | not =>
      cases hrun
      obtain rfl := Option.some.inj hv
      refine ⟨e.not, rfl, ?_⟩
      rw [Expr.not, Expr.eval, he]
      rfl
    | neg => cases hv

/-- **When an rvalue is typed by its value**: always, but for quotients of negative numbers with a
remainder, which the machine rounds up.

**Proof sketch.** The index that an operation gets is the same operation of the indices of its
operands, and the machine computes the value of that unless it overflows (`value_add` and the
like). Only a quotient is rounded in two ways. The machine rounds towards zero, the solver so that
the remainder is not negative, and these are the same iff the dividend is not negative or the
divisor divides it (`tdiv_eq_ediv_iff`). -/
theorem typedByValue_iff {rvalue : Rvalue} (hdiv : SmtLibDiv I.div) (hc : c.Valid)
    (hops : OperandsTyped M I ρ env (operands rvalue)) :
    TypedByValue M I ρ c env rvalue ↔ RoundsAlike M rvalue := by
  cases rvalue with
  | use operand =>
    refine iff_of_true ?_ fun _ _ _ _ _ h => nomatch h
    obtain ⟨env₁, e, h, he, -⟩ := hops
    intro env' ty c' nodes v hrun _ _ hv
    obtain rfl := Option.some.inj hv
    rw [checkRvalue, h] at hrun
    cases hrun
    exact ⟨e, rfl, he⟩
  | mutRef place =>
    exact iff_of_true (fun _ _ _ _ _ _ _ _ hv => nomatch hv) fun _ _ _ _ _ h => nomatch h
  | unaryOp op operand =>
    refine iff_of_true ?_ fun _ _ _ _ _ h => nomatch h
    exact typedByValue_unaryOp hops
  | binaryOp op op1 op2 =>
    refine ⟨fun h => ?_, typedByValue_binaryOp hdiv hc hops⟩
    by_cases hop : op = .div
    · subst hop
      exact roundsAlike_of_typedByValue hdiv hc hops h
    · rintro _ _ _ _ _ ⟨⟩
      exact absurd rfl hop

end Rvalues

/-! ### Quotients -/

/-- Two local variables with the values `x` and `y`, whose types have them as indices. -/
def quotientEnv (x y : ℤ) : TypeEnv :=
  (TypeEnv.new.insertLoc (.local_ 1) (.refine (.int .i32) (.constant (.ofI128 x)))).insertLoc
    (.local_ 2) (.refine (.int .i32) (.constant (.ofI128 y)))

/-- The quotient of the two variables. -/
def quotient : Rvalue :=
  .binaryOp .div (.copy ⟨1, []⟩) (.copy ⟨2, []⟩)

/-- The values of the two variables. -/
def quotientValues (x y : ℤ) : Operand → MirValue .w64
  | .copy ⟨1, _⟩ => .int (.int .i32) (.ofInt 32 x)
  | _ => .int (.int .i32) (.ofInt 32 y)

/-- Division as SMT-LIB has it, and no unknown predicates. -/
def smtLib : Interp :=
  ⟨(· / ·), fun _ _ => True⟩

/-- The quotient of `-6` by `3` has no remainder, and is typed by its value. -/
theorem typedByValue_quotient :
    TypedByValue (quotientValues (-6) 3) smtLib (fun _ => .int 0) ConstraintBuilder.new.asCursor
      (quotientEnv (-6) 3) quotient := by
  refine (typedByValue_iff smtLibDiv_ediv valid_new ?_).mpr ?_
  · exact ⟨_, _, rfl, by decide, _, _, rfl, by decide, trivial⟩
  · rintro _ _ ty x y ⟨⟩ hx hy
    cases hx
    cases hy
    exact .inr (.inr (by decide))

/-- **The quotient of `-7` by `2`** is `-3` on the machine, and `-4` for the solver. -/
theorem not_typedByValue_quotient :
    ¬∀ (pointer : PointerWidth) (M : Operand → MirValue pointer) (I : Interp) (ρ : Valuation)
      (c : Cursor) (env : TypeEnv) (rvalue : Rvalue), SmtLibDiv I.div → c.Valid →
      OperandsTyped M I ρ env (operands rvalue) → TypedByValue M I ρ c env rvalue := by
  intro h
  have htyped := h .w64 (quotientValues (-7) 2) smtLib (fun _ => .int 0)
    ConstraintBuilder.new.asCursor (quotientEnv (-7) 2) quotient smtLibDiv_ediv valid_new
    ⟨_, _, rfl, by decide, _, _, rfl, by decide, trivial⟩
  have hrun : ∃ env' ty c' nodes, (checkRvalue (quotientEnv (-7) 2) quotient).run
      ConstraintBuilder.new.asCursor = .ok ((env', ty), c') ∧
      Node.append nodes (.conj []) [] = some c'.builder.root ∧
      nodes = [.head (.expr (.binaryOp .ne (.constant (.ofI128 2)) .zero))] ∧
      ty = .refine (.int .i32) (.binaryOp .div (.constant (.ofI128 (-7)))
        (.constant (.ofI128 2))) := ⟨_, _, _, _, rfl, rfl, rfl, rfl⟩
  obtain ⟨env', ty, c', nodes, hrun, hroot, rfl, rfl⟩ := hrun
  obtain ⟨e, hty, he⟩ := htyped env' _ c' _ (.int (.int .i32) (.ofInt 32 (-3))) hrun hroot
    ⟨rfl, trivial⟩ rfl
  obtain ⟨-, rfl⟩ := Ty.refine.inj hty
  exact absurd he (by decide)

end Checker

end LiquidRust.Typeck
