import LiquidRust.Typeck.Constants
import LiquidRust.Typeck.Meaning

set_option relaxedAutoImplicit false
set_option autoImplicit false

/-!
# The guards of switches

A switch of a Rust program compares bit patterns. Below each of its edges the checker assumes a
guard, which compares the index of the discriminant with the number that the pattern becomes. The
guards follow the run of the program if the one on the edge that is taken is true, and no other.

## Main definitions

* `LiquidRust.Typeck.Checker.switchBranches` — the edges of a switch with their guards.
* `LiquidRust.Typeck.Checker.takenBranch` — the edge that the program takes.
* `LiquidRust.Typeck.Checker.FollowsRun` — the guards follow the run.

## Main results

* `LiquidRust.Typeck.Checker.checkSwitchInt_eq` — a switch pushes the guards of its branches.
* `LiquidRust.Typeck.Checker.followsRun_iff` — the guards follow the run unless a negative value
  of a type with less than 128 bits is listed and taken, or the smallest `i128` is listed.
* `LiquidRust.Typeck.Checker.not_followsRun_i32` — they do not for `-1`.
-/

namespace LiquidRust.Typeck

open Driver Core.Ir
open Lib (except_bind_eq_ok except_mapM_eq_ok)

/-- The number that a pattern becomes is the value of another one only if the patterns are the
same, and not that of a negative number of a narrow type. -/
lemma toInt_eq_asI128_iff {w : ℕ} (hw : w ≤ 128) (x d : BitVec w) :
    d.toInt = Expr.asI128 x.toNat ↔ x = d ∧ ¬(d.toInt < 0 ∧ w ≠ 128) := by
  have hx := x.isLt
  have hd := d.isLt
  have hpow : 2 ^ w ≤ 2 ^ 128 := Nat.pow_le_pow_right (by decide) hw
  have hvalue := asI128_toNat_eq_toInt_iff hw d
  have hcond : 0 ≤ d.toInt ∨ w = 128 ↔ ¬(d.toInt < 0 ∧ w ≠ 128) := by omega
  rw [← hcond, ← hvalue]
  constructor
  · intro h
    have hkept : Expr.asI128 d.toNat = d.toInt := by
      rw [hvalue, h]
      by_cases h128 : w = 128
      · exact .inr h128
      · have hlt : 2 ^ w ≤ 2 ^ 127 := Nat.pow_le_pow_right (by decide) (by omega)
        rw [Expr.asI128, if_pos (hx.trans_le hlt)]
        exact .inl (Int.natCast_nonneg _)
    have heq : Expr.asI128 d.toNat = Expr.asI128 x.toNat := hkept.trans h
    refine ⟨BitVec.toNat_inj.mp ?_, hkept⟩
    unfold Expr.asI128 at heq
    split at heq <;> split at heq <;> omega
  · rintro ⟨rfl, h⟩
    exact h.symm

/-- The types of discriminants. -/
inductive DiscrTy
  | bool
  | integral (ty : IntegralTy)
  deriving DecidableEq, Repr

namespace DiscrTy

/-- The base type of the checker. -/
def baseTy : DiscrTy → BaseTy
  | bool => .bool
  | integral ty => ty.baseTy

/-- The number of bits. -/
def width (pointer : PointerWidth) : DiscrTy → ℕ
  | bool => 8
  | integral ty => ty.width pointer

/-- No type of a discriminant is wider than 128 bits. -/
lemma width_le (pointer : PointerWidth) (ty : DiscrTy) : ty.width pointer ≤ 128 := by
  cases ty with
  | bool => exact (by decide : 8 ≤ 128)
  | integral ty => exact ty.width_le pointer

/-- The value of a bit pattern. -/
def value (ty : DiscrTy) {w : ℕ} (x : BitVec w) : Val :=
  match ty with
  | bool => .bool (x.toNat ≠ 0)
  | integral ty => .int (ty.value x)

/-- The bit patterns of the type: a boolean has two. -/
def IsPattern (ty : DiscrTy) {w : ℕ} (x : BitVec w) : Prop :=
  ty = bool → x.toNat = 0 ∨ x.toNat = 1

/-- A negative number of a type with less than 128 bits. -/
def NarrowNegative (ty : DiscrTy) {w : ℕ} (x : BitVec w) : Prop :=
  ∃ n < 0, ty.value x = .int n ∧ w ≠ 128

/-- The guard of a target. -/
def guard (ty : DiscrTy) (e : Expr) (bits : ℕ) : Expr :=
  match ty with
  | bool => if bits ≠ 0 then e else e.not
  | integral (.int _) => .binaryOp .eq e (.constant (.ofI128 (Expr.asI128 bits)))
  | integral (.uint _) => .binaryOp .eq e (.constant (.ofU128 bits))

/-- A pattern that becomes the smallest `i128`, for which the guard overflows. -/
def Overflows (ty : DiscrTy) (bits : ℕ) : Prop :=
  match ty with
  | integral (.int _) => Expr.asI128 bits = -2 ^ 127
  | _ => False

instance (ty : DiscrTy) (bits : ℕ) : Decidable (ty.Overflows bits) := by
  unfold Overflows
  split <;> infer_instance

variable {div : ℤ → ℤ → ℤ} {ρ : Valuation} {e : Expr} {w : ℕ} {x d : BitVec w}

/-- Only the pattern of the smallest `i128` overflows. -/
lemma overflows_iff {ty : DiscrTy} (hw : w ≤ 128) :
    ty.Overflows x.toNat ↔ ty.value x = .int (-2 ^ 127) := by
  rcases ty with _ | ⟨int_ty | uint_ty⟩
  · exact iff_of_false id fun h => (by cases h)
  · rw [value, Overflows, IntegralTy.value, Fixpoint.Val.int.injEq]
    have hx := x.isLt
    rcases hw.lt_or_eq with hlt | rfl
    · have hpow : 2 ^ w ≤ 2 ^ 127 := Nat.pow_le_pow_right (by decide) (by omega)
      rw [Expr.asI128, if_pos (hx.trans_le hpow), BitVec.toInt_eq_toNat_cond]
      generalize 2 ^ w = m at hx hpow
      split <;> omega
    · rw [(asI128_toNat_eq_toInt_iff le_rfl x).mpr (.inr rfl)]
  · refine iff_of_false id fun h => ?_
    have h : (x.toNat : ℤ) = -2 ^ 127 := Fixpoint.Val.int.inj h
    omega

/-- Patterns of numbers that are not negative do not overflow. -/
lemma not_overflows_of_lt (ty : DiscrTy) {bits : ℕ} (h : bits < 2 ^ 127) :
    ¬ty.Overflows bits := by
  rcases ty with _ | ⟨int_ty | uint_ty⟩
  · exact id
  · show ¬Expr.asI128 bits = -2 ^ 127
    rw [Expr.asI128, if_pos h]
    omega
  · exact id

/-- **The guard of a target** is true iff the pattern is that of the discriminant, unless that is
the pattern of a negative number of a narrow type. -/
lemma eval_guard {ty : DiscrTy} (hw : w ≤ 128) (hx : ty.IsPattern x) (hd : ty.IsPattern d)
    (he : e.eval div ρ = some (ty.value d)) :
    ∃ b, (ty.guard e x.toNat).eval div ρ = some (.bool b) ∧
      (b = true ↔ x = d ∧ ¬ty.NarrowNegative d) := by
  have hval : x = d ↔ x.toNat = d.toNat := BitVec.toNat_inj.symm
  cases ty with
  | bool =>
    have hnarrow : ¬bool.NarrowNegative d := fun ⟨n, _, h, _⟩ => by cases h
    have hx := hx rfl
    have hd := hd rfl
    rw [hval, and_iff_left hnarrow]
    by_cases h : x.toNat = 0
    · refine ⟨!decide (d.toNat ≠ 0), ?_, by simp [h, eq_comm]⟩
      simp [guard, h, Expr.not, Expr.eval, he, value, Fixpoint.UnOp.eval]
    · refine ⟨decide (d.toNat ≠ 0), ?_, by simp; omega⟩
      simp [guard, h, he, value]
  | integral ty =>
    cases ty with
    | uint uint_ty =>
      have hnarrow : ¬(integral (.uint uint_ty)).NarrowNegative d := by
        rintro ⟨n, hn, h, -⟩
        have hn' : (d.toNat : ℤ) = n := Fixpoint.Val.int.inj h
        omega
      refine ⟨decide ((d.toNat : ℤ) = x.toNat), ?_, ?_⟩
      · rw [guard, Expr.eval, he]
        rfl
      · rw [hval, and_iff_left hnarrow]
        simp [eq_comm]
    | int int_ty =>
      have hnarrow : (integral (.int int_ty)).NarrowNegative d ↔ d.toInt < 0 ∧ w ≠ 128 := by
        refine ⟨?_, fun h => ⟨_, h.1, rfl, h.2⟩⟩
        rintro ⟨n, hn, h, hw⟩
        obtain rfl : d.toInt = n := Fixpoint.Val.int.inj h
        exact ⟨hn, hw⟩
      refine ⟨decide (d.toInt = Expr.asI128 x.toNat), ?_, ?_⟩
      · rw [guard, Expr.eval, he, Expr.eval, Fixpoint.Constant.eval_ofI128]
        rfl
      · rw [decide_eq_true_iff, hnarrow]
        exact toInt_eq_asI128_iff hw x d

/-- The guard of a target is computed unless it overflows. -/
lemma switchGuard_eq (ty : DiscrTy) (e : Expr) (bits : ℕ) :
    Checker.switchGuard (.refine ty.baseTy e) bits =
      if ty.Overflows bits then .error .overflow else .ok (ty.guard e bits) := by
  rcases ty with _ | ⟨int_ty | uint_ty⟩
  · rfl
  · rw [baseTy, IntegralTy.baseTy, Checker.switchGuard, Expr.fromBits,
      Fixpoint.Constant.ofI128Checked_eq]
    by_cases h : Expr.asI128 bits = -2 ^ 127
    · rw [if_pos h, if_pos (show (integral (.int int_ty)).Overflows bits from h)]
      rfl
    · rw [if_neg h, if_neg (show ¬(integral (.int int_ty)).Overflows bits from h)]
      rfl
  · rfl

/-- The guard of a listed target, where its constant does not overflow. -/
lemma switchGuard_eq_ok {ty : DiscrTy} {bits : ℕ} (h : ¬ty.Overflows bits) :
    Checker.switchGuard (.refine ty.baseTy e) bits = .ok (ty.guard e bits) := by
  rw [switchGuard_eq, if_neg h]

end DiscrTy

namespace Checker

/-- A conjunction from the left; there is none of no expressions. -/
def conjunction : List Expr → Option Expr
  | [] => none
  | e :: es => some (es.foldl (fun e1 e2 => .binaryOp .and e1 e2) e)

/-- A guard is true; that of an edge without a guard is. -/
def GuardHolds (div : ℤ → ℤ → ℤ) (ρ : Valuation) (guard : Option Expr) : Prop :=
  ∀ e ∈ guard, e.eval div ρ = some (.bool true)

/-- The edges of a switch with the guards that `check_switch_int` pushes on them. -/
def switchBranches (discr_ty : Ty) (targets : SwitchTargets) :
    Except Failure (List (Option Expr × BasicBlock)) := do
  let branches ← targets.targets.mapM fun p => do
    let e ← switchGuard discr_ty p.1
    pure (some e, p.2)
  let otherwise ← otherwiseGuard discr_ty targets.targets
  pure (branches ++ [(otherwise, targets.otherwise)])

/-- The edge that the program takes for a bit pattern: that of the target with the pattern, or
the last one. -/
def takenBranch (targets : SwitchTargets) (bits : ℕ) : ℕ :=
  (targets.targets.map Prod.fst).idxOf bits

section

variable {ty : DiscrTy} {e : Expr} {targets : SwitchTargets}

/-- The guard of `otherwise` negates those of the targets. -/
lemma otherwiseGuard_eq {targets : List (ℕ × BasicBlock)}
    (h : ∀ p ∈ targets, ¬ty.Overflows p.1) :
    otherwiseGuard (.refine ty.baseTy e) targets =
      .ok (conjunction (targets.map fun p => (ty.guard e p.1).not)) := by
  have hguards : targets.mapM (fun p => switchGuard (.refine ty.baseTy e) p.1) =
      .ok (targets.map fun p => ty.guard e p.1) := by
    rw [except_mapM_eq_ok, List.forall₂_map_right_iff, List.forall₂_same]
    exact fun p hp => DiscrTy.switchGuard_eq_ok (h p hp)
  rw [otherwiseGuard, hguards]
  cases targets with
  | nil => rfl
  | cons p targets =>
    show Except.ok (conjunction (((p :: targets).map fun p => ty.guard e p.1).map Expr.not)) = _
    rw [List.map_map]
    rfl

/-- The edges of a switch, if no guard overflows. -/
lemma switchBranches_eq (e : Expr) (h : ∀ p ∈ targets.targets, ¬ty.Overflows p.1) :
    switchBranches (.refine ty.baseTy e) targets =
      .ok (targets.targets.map (fun p => (some (ty.guard e p.1), p.2)) ++
        [(conjunction (targets.targets.map fun p => (ty.guard e p.1).not),
          targets.otherwise)]) := by
  have hbranches : (targets.targets.mapM fun p => do
      let e ← switchGuard (.refine ty.baseTy e) p.1
      pure (some e, p.2)) = (.ok (targets.targets.map fun p => (some (ty.guard e p.1), p.2)) :
        Except Failure (List (Option Expr × BasicBlock))) := by
    rw [except_mapM_eq_ok, List.forall₂_map_right_iff, List.forall₂_same]
    intro p hp
    rw [DiscrTy.switchGuard_eq_ok (h p hp)]
    rfl
  rw [switchBranches, hbranches, otherwiseGuard_eq h]
  rfl

/-- If the edges are computed, then no guard overflows. -/
lemma not_overflows_of_switchBranches {branches : List (Option Expr × BasicBlock)}
    (h : switchBranches (.refine ty.baseTy e) targets = .ok branches) :
    ∀ p ∈ targets.targets, ¬ty.Overflows p.1 := by
  obtain ⟨bs, hbs, -⟩ := except_bind_eq_ok.mp h
  obtain ⟨hlen, hget⟩ := List.forall₂_iff_get.mp (except_mapM_eq_ok.mp hbs)
  intro p hp hoverflows
  obtain ⟨⟨i, hi⟩, rfl⟩ := List.mem_iff_get.mp hp
  obtain ⟨e', he', -⟩ := except_bind_eq_ok.mp (hget i hi (hlen ▸ hi))
  rw [DiscrTy.switchGuard_eq, if_pos hoverflows] at he'
  cases he'

/-- Lifting a value is returning it. -/
lemma liftCursor_ofExcept_ok {α : Type} (a : α) :
    liftCursor (ofExcept (.ok a)) = (pure a : CheckM α) :=
  rfl

/-- **A switch pushes the guards of its branches**, each below its edge. -/
theorem checkSwitchInt_eq (goto : TypeEnv → BasicBlock → CheckM Unit) {env env' : TypeEnv}
    {discr : Operand} (hdiscr : checkOperand env discr = .ok (env', .refine ty.baseTy e))
    {branches : List (Option Expr × BasicBlock)}
    (hbranches : switchBranches (.refine ty.baseTy e) targets = .ok branches) :
    checkSwitchInt goto env discr targets = (do
      record (.env env')
      branches.forM fun b => checkTarget goto env' b.1 b.2) := by
  have hno := not_overflows_of_switchBranches hbranches
  obtain rfl := Except.ok.inj (hbranches.symm.trans (switchBranches_eq e hno))
  have htargets : ∀ l : List (ℕ × BasicBlock), (∀ p ∈ l, ¬ty.Overflows p.1) →
      (l.forM fun p => do
        let e' ← liftCursor (ofExcept (switchGuard (.refine ty.baseTy e) p.1))
        checkTarget goto env' (some e') p.2) =
        l.forM fun p => checkTarget goto env' (some (ty.guard e p.1)) p.2 := by
    intro l hl
    induction l with
    | nil => rfl
    | cons p l ih =>
      obtain ⟨hp, hl⟩ := List.forall_mem_cons.mp hl
      simp only [List.forM_eq_forM, List.forM_cons] at ih ⊢
      rw [ih hl, DiscrTy.switchGuard_eq_ok hp, liftCursor_ofExcept_ok, pure_bind]
  simp only [checkSwitchInt, hdiscr, htargets _ hno, otherwiseGuard_eq hno,
    liftCursor_ofExcept_ok, pure_bind]
  simp

/-! ## The guard that is true -/

variable {div : ℤ → ℤ → ℤ} {ρ : Valuation}

/-- A conjunction of negations is true iff all that is negated is false. -/
lemma eval_foldl_not {α : Type} {as : List α} {g : α → Expr} {f : α → Bool} {e : Expr} {b : Bool}
    (he : e.eval div ρ = some (.bool b))
    (hg : ∀ a ∈ as, (g a).eval div ρ = some (.bool (f a))) :
    ((as.map fun a => (g a).not).foldl (fun e1 e2 => .binaryOp .and e1 e2) e).eval div ρ =
      some (.bool (b && as.all fun a => !f a)) := by
  induction as generalizing e b with
  | nil => simpa using he
  | cons a as ih =>
    have hand : (Expr.binaryOp .and e (g a).not).eval div ρ = some (.bool (b && !f a)) := by
      rw [Expr.eval, he, Expr.not, Expr.eval, hg a (.head _)]
      rfl
    rw [List.map_cons, List.foldl_cons, ih hand fun a ha => hg a (.tail _ ha), List.all_cons,
      Bool.and_assoc]

/-- A conjunction of negations holds iff none of the guards does. -/
lemma guardHolds_conjunction {α : Type} {as : List α} {g : α → Expr} {f : α → Bool}
    (hg : ∀ a ∈ as, (g a).eval div ρ = some (.bool (f a))) :
    GuardHolds div ρ (conjunction (as.map fun a => (g a).not)) ↔ ∀ a ∈ as, f a = false := by
  cases as with
  | nil => simp [conjunction, GuardHolds]
  | cons a as =>
    have hnot : (g a).not.eval div ρ = some (.bool (!f a)) := by
      rw [Expr.not, Expr.eval, hg a (.head _)]
      rfl
    have heval := eval_foldl_not hnot fun a ha => hg a (.tail _ ha)
    simp only [GuardHolds, conjunction, List.map_cons, Option.mem_def, Option.some.injEq,
      forall_eq', heval, Fixpoint.Val.bool.injEq, Bool.and_eq_true, Bool.not_eq_true',
      List.all_eq_true, List.forall_mem_cons]

/-- **The guards follow the run** with a value of the discriminant's bit pattern `bits`: among
the edges, the guard of the one that the program takes is true, and no other. -/
def FollowsRun (div : ℤ → ℤ → ℤ) (ρ : Valuation) (discr_ty : Ty) (targets : SwitchTargets)
    (bits : ℕ) : Prop :=
  ∃ branches, switchBranches discr_ty targets = .ok branches ∧
    branches.map Prod.snd = targets.targets.map Prod.snd ++ [targets.otherwise] ∧
    ∀ i b, branches[i]? = some b → (GuardHolds div ρ b.1 ↔ i = takenBranch targets bits)

/-- The guard of an edge is true iff it is that of a target with the bit pattern, or the last one
and no target has it; a target of a negative number of a narrow type does not count. -/
lemma guardHolds_iff {pointer : PointerWidth}
    (hpatterns : ∀ p ∈ targets.targets, ∃ x : BitVec (ty.width pointer),
      ty.IsPattern x ∧ p.1 = x.toNat)
    {d : BitVec (ty.width pointer)} (hd : ty.IsPattern d)
    (he : e.eval div ρ = some (ty.value d)) {branches : List (Option Expr × BasicBlock)}
    (hbranches : switchBranches (.refine ty.baseTy e) targets = .ok branches) {i : ℕ}
    {b : Option Expr × BasicBlock} (hb : branches[i]? = some b) :
    GuardHolds div ρ b.1 ↔
      ((targets.targets.map Prod.fst)[i]? = some d.toNat ∧ ¬ty.NarrowNegative d) ∨
        i = (targets.targets.map Prod.fst).length ∧
          (d.toNat ∈ targets.targets.map Prod.fst → ty.NarrowNegative d) := by
  obtain rfl := Except.ok.inj (hbranches.symm.trans
    (switchBranches_eq e (not_overflows_of_switchBranches hbranches)))
  choose! f heval hf using fun p (hp : p ∈ targets.targets) => show ∃ b,
      (ty.guard e p.1).eval div ρ = some (.bool b) ∧
        (b = true ↔ p.1 = d.toNat ∧ ¬ty.NarrowNegative d) by
    obtain ⟨x, hx, hpx⟩ := hpatterns p hp
    rw [hpx, BitVec.toNat_inj]
    exact DiscrTy.eval_guard (ty.width_le pointer) hx hd he
  rw [List.getElem?_append] at hb
  split at hb
  · next hi =>
    -- a target
    have hi : i < targets.targets.length := by simpa using hi
    have hp := List.getElem_mem hi
    have hne : i ≠ (targets.targets.map Prod.fst).length := by simpa using hi.ne
    simp only [List.getElem?_map, List.getElem?_eq_getElem hi, Option.map_some,
      Option.some.injEq] at hb
    subst hb
    simp only [GuardHolds, Option.mem_def, Option.some.injEq, forall_eq', heval _ hp,
      Fixpoint.Val.bool.injEq, hf _ hp, hne, false_and, or_false, List.getElem?_map,
      List.getElem?_eq_getElem hi, Option.map_some]
  · next hi =>
    -- the last edge
    have hi : targets.targets.length ≤ i := by simpa using hi
    have hlen := (List.getElem?_eq_some_iff.mp hb).1
    simp only [List.length_map, List.length_singleton] at hlen
    have heq : i = targets.targets.length := by omega
    subst heq
    simp only [List.length_map, Nat.sub_self, List.getElem?_cons_zero, Option.some.injEq] at hb
    subst hb
    rw [guardHolds_conjunction heval]
    have hnone : (targets.targets.map Prod.fst)[targets.targets.length]? = none := by simp
    simp only [hnone, List.length_map, true_and, reduceCtorEq, false_and, false_or]
    constructor
    · intro h hmem
      obtain ⟨p, hp, hpd⟩ := List.mem_map.mp hmem
      by_contra hnarrow
      exact absurd ((hf p hp).mpr ⟨hpd, hnarrow⟩) (by simp [h p hp])
    · intro h p hp
      by_contra htrue
      obtain ⟨hpd, hnarrow⟩ := (hf p hp).mp (by simpa using htrue)
      exact hnarrow (h (hpd ▸ List.mem_map_of_mem hp))

/-- **The guards follow the run** for all values but the negative ones of types with less than
128 bits that have a target, unless a target is the smallest `i128`.

**Proof sketch.** The guard of a target is true iff its pattern is that of the discriminant, which
is not negative in a narrow type (`DiscrTy.eval_guard`); the last guard is true iff no other one is.
Where the negative value of a narrow type is listed, its guard is false although its edge is taken.
For the smallest `i128` there are no guards, since that of its target overflows. -/
theorem followsRun_iff (pointer : PointerWidth) (ty : DiscrTy) {e : Expr} {targets : SwitchTargets}
    (hpatterns : ∀ p ∈ targets.targets, ∃ x : BitVec (ty.width pointer),
      ty.IsPattern x ∧ p.1 = x.toNat)
    (hnodup : (targets.targets.map Prod.fst).Nodup) {d : BitVec (ty.width pointer)}
    (hd : ty.IsPattern d) (he : e.eval div ρ = some (ty.value d)) :
    FollowsRun div ρ (.refine ty.baseTy e) targets d.toNat ↔
      ¬(ty.NarrowNegative d ∧ d.toNat ∈ targets.targets.map Prod.fst) ∧
        ∀ x : BitVec (ty.width pointer), x.toNat ∈ targets.targets.map Prod.fst →
          ty.value x ≠ .int (-2 ^ 127) := by
  have hoverflows (x : BitVec (ty.width pointer)) :
      ty.Overflows x.toNat ↔ ty.value x = .int (-2 ^ 127) :=
    DiscrTy.overflows_iff (ty.width_le pointer)
  constructor
  · rintro ⟨branches, h, hsnd, hfollows⟩
    refine ⟨?_, fun x hx hmin => ?_⟩
    · -- the guard of the edge that is taken is false
      rintro ⟨hnarrow, hmem⟩
      have hi : takenBranch targets d.toNat < branches.length := by
        have hlen := congrArg List.length hsnd
        have hidx := List.idxOf_lt_length_iff.mpr hmem
        simp only [List.length_map, List.length_append, List.length_singleton] at hlen hidx
        rw [takenBranch]
        omega
      have htaken := (hfollows _ _ (List.getElem?_eq_getElem hi)).mpr rfl
      rcases (guardHolds_iff hpatterns hd he h (List.getElem?_eq_getElem hi)).mp htaken with
        ⟨-, hnot⟩ | ⟨hidx, -⟩
      · exact hnot hnarrow
      · exact (List.idxOf_lt_length_iff.mpr hmem).ne hidx
    · -- the guard of the target overflows
      obtain ⟨p, hp, hpx⟩ := List.mem_map.mp hx
      refine not_overflows_of_switchBranches h p hp ?_
      rw [hpx]
      exact (hoverflows x).mpr hmin
  · rintro ⟨hcond, hmin⟩
    have hno : ∀ p ∈ targets.targets, ¬ty.Overflows p.1 := by
      intro p hp
      obtain ⟨x, -, hpx⟩ := hpatterns p hp
      rw [hpx, hoverflows]
      exact hmin x (hpx ▸ List.mem_map_of_mem hp)
    have hbranches := switchBranches_eq e hno
    refine ⟨_, hbranches, by simp, fun i b hb => ?_⟩
    rw [guardHolds_iff hpatterns hd he hbranches hb]
    constructor
    · rintro (⟨hbit, -⟩ | ⟨rfl, hlast⟩)
      · obtain ⟨hi, hbit⟩ := List.getElem?_eq_some_iff.mp hbit
        rw [takenBranch, ← hbit]
        exact (hnodup.idxOf_getElem i hi).symm
      · exact (List.idxOf_eq_length fun hmem => hcond ⟨hlast hmem, hmem⟩).symm
    · rintro rfl
      by_cases hmem : d.toNat ∈ targets.targets.map Prod.fst
      · exact .inl ⟨List.getElem?_idxOf hmem, fun hnarrow => hcond ⟨hnarrow, hmem⟩⟩
      · exact .inr ⟨List.idxOf_eq_length hmem, fun h => absurd h hmem⟩

end

/-- A switch on an `i32` with targets for zero and for `-1`. -/
def i32Targets : SwitchTargets :=
  ⟨[(0, 1), (4294967295, 2)], 3⟩

/-- No target of the example overflows. -/
lemma i32Targets_overflows :
    ∀ p ∈ i32Targets.targets, ¬(DiscrTy.integral (.int .i32)).Overflows p.1 := by
  decide

/-- The guards follow the run with the value zero, on the edge of the first target. -/
theorem followsRun_i32 :
    FollowsRun (· / ·) (fun _ => .int 0) (.refine (.int .i32) (.var (.free 0))) i32Targets 0 := by
  have hpatterns : ∀ p ∈ i32Targets.targets,
      ∃ x : BitVec (DiscrTy.width .w64 (.integral (.int .i32))),
        (DiscrTy.integral (.int .i32)).IsPattern x ∧ p.1 = x.toNat := by
    intro p hp
    refine ⟨BitVec.ofNat _ p.1, fun h => (nomatch h), ?_⟩
    rcases List.mem_pair.mp hp with rfl | rfl <;> rfl
  refine (followsRun_iff .w64 (.integral (.int .i32)) hpatterns (by decide) (d := 0#32)
    (fun h => (nomatch h)) rfl).mpr ⟨?_, fun x hx hmin => ?_⟩
  · rintro ⟨⟨n, hn, heq, -⟩, -⟩
    cases heq
    exact absurd hn (by decide)
  · have hvalue : x.toInt = -2 ^ 127 := Fixpoint.Val.int.inj hmin
    have hle := BitVec.le_toInt x
    rw [hvalue] at hle
    exact absurd hle (by decide)

/-- **The guards do not follow the run** with the value `-1`: the guard of its target is that the
index is `4294967295`. -/
theorem not_followsRun_i32 :
    (DiscrTy.integral (.int .i32)).value (BitVec.ofInt 32 (-1)) = .int (-1) ∧
      (BitVec.ofInt 32 (-1)).toNat = 4294967295 ∧
      ¬FollowsRun (· / ·) (fun _ => .int (-1)) (.refine (.int .i32) (.var (.free 0))) i32Targets
        4294967295 := by
  refine ⟨by decide, by decide, ?_⟩
  rintro ⟨branches, hbranches, -, hfollows⟩
  obtain rfl := Except.ok.inj (hbranches.symm.trans
    (switchBranches_eq (.var (.free 0)) i32Targets_overflows))
  have htrue := (hfollows 1 _ rfl).mpr (by decide) _ rfl
  exact absurd htrue (by decide +kernel)

end Checker

end LiquidRust.Typeck
