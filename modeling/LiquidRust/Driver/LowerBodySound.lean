import LiquidRust.Driver.MirExecutions
import LiquidRust.Typeck.Executions

set_option relaxedAutoImplicit false
set_option autoImplicit false

/-!
# Lowering preserves executions

The machine runs a body of the compiler on bit patterns, and may move values out of locations;
the function body that is made of it runs over the mathematical integers, and keeps what was
moved. An execution of the first one is also one of the second one, unless a constant is the
pattern of a negative number, which lowering takes for a large one.

## Main definitions

* `LiquidRust.Driver.Mir.Body.KeepsValues` — the bodies whose constants are kept.
* `LiquidRust.Driver.Mir.Body.discrs` — the types of the discriminants.
* `LiquidRust.Driver.Mir.Represents` — a store represents what the machine has stored.

## Main results

* `LiquidRust.Driver.lower_simulates` — executions of a body are executions of what it is lowered
  to.
* `LiquidRust.Driver.lower_correctCfg` — the graph of the body is that of what it is lowered to.
-/

namespace LiquidRust.Driver

open Core.Ir (BasicBlock SwitchTargets startBlock)
open Lib (except_bind_eq_ok except_mapM_eq_ok IsReversePostorder Visits)
open Relation (ReflTransGen)
open Typeck (MirValue IntegralTy DiscrTy Discr Loc)

namespace Mir

variable {pointer : PointerWidth}

/-! ## What is kept -/

/-- A pattern of a type that is not that of a negative number. -/
def IsNonNegative (pointer : PointerWidth) (data : ℕ) : TyKind → Prop
  | .int int_ty => data < 2 ^ (8 * intSize pointer int_ty - 1)
  | .uint uint_ty => data < 2 ^ (8 * uintSize pointer uint_ty)
  | .bool => data < 2
  | .unsupported _ => True

instance (data : ℕ) (ty : TyKind) : Decidable (IsNonNegative pointer data ty) := by
  cases ty <;> unfold IsNonNegative <;> infer_instance

/-- A bit pattern of a type. -/
def IsPattern (pointer : PointerWidth) (data : ℕ) : TyKind → Prop
  | .int int_ty => data < 2 ^ (8 * intSize pointer int_ty)
  | .uint uint_ty => data < 2 ^ (8 * uintSize pointer uint_ty)
  | .bool => data < 2
  | .unsupported _ => True

instance (data : ℕ) (ty : TyKind) : Decidable (IsPattern pointer data ty) := by
  cases ty <;> unfold IsPattern <;> infer_instance

namespace Keeps

/-- A constant that is kept: it is not negative, or its pattern has all 128 bits. -/
def constant (pointer : PointerWidth) : ConstantKind → Prop
  | .scalar ty (.int data _) =>
    IsNonNegative pointer data ty ∨ ty = .int .i128 ∧ data < 2 ^ 128
  | .scalar _ .ptr | .unsupported => True

/-- An operand that keeps its value. -/
def operand (pointer : PointerWidth) : Operand → Prop
  | .constant c => constant pointer c
  | .copy _ | .move _ => True

/-- A right-hand side whose operands do. -/
def rvalue (pointer : PointerWidth) : Rvalue → Prop
  | .use op | .unaryOp _ op => operand pointer op
  | .binaryOp _ op1 op2 => operand pointer op1 ∧ operand pointer op2
  | _ => True

/-- A statement whose operands do. -/
def statement (pointer : PointerWidth) : Statement → Prop
  | .assign _ rvalue => Keeps.rvalue pointer rvalue
  | _ => True

/-- A terminator whose operands do, and whose targets are patterns of the type. -/
def terminator (pointer : PointerWidth) : Terminator → Prop
  | .switchInt discr switch_ty targets => operand pointer discr ∧
      ∀ p ∈ targets.targets, IsPattern pointer p.1 switch_ty
  | .call _ args _ _ => ∀ op ∈ args, operand pointer op
  | _ => True

end Keeps

/-- **Lowering keeps the values of the constants of a body**, and its switches list bit patterns of
their types. -/
structure Body.KeepsValues (pointer : PointerWidth) (body : Body) : Prop where
  statements : ∀ data ∈ body.basicBlocks, ∀ stmt ∈ data.statements, Keeps.statement pointer stmt
  terminators : ∀ data ∈ body.basicBlocks, ∀ terminator ∈ data.terminator,
    Keeps.terminator pointer terminator

/-! ## Stores -/

/-- **A store represents** what the machine has stored at the initialized locations. -/
def Represents (s : Store pointer) (S : Typeck.Store) : Prop :=
  ∀ ⦃loc v⦄, s loc = some v → S loc = v.abs

/-- The type of a discriminant for the checker, if it is one that lowering supports. -/
def discrTy : TyKind → DiscrTy
  | .int int_ty => .integral (.int int_ty)
  | .uint uint_ty => .integral (.uint uint_ty)
  | .bool | .unsupported _ => .bool

/-- The discriminant of a switch; other terminators have none. -/
def Terminator.discr (pointer : PointerWidth) : Terminator → Discr
  | .switchInt _ switch_ty _ => ⟨pointer, discrTy switch_ty⟩
  | _ => ⟨pointer, .bool⟩

/-- **The discriminants at the ends of the blocks**, which the compiler knows. -/
def Body.discrs (pointer : PointerWidth) (body : Body) (bb : BasicBlock) : Discr :=
  (body.terminatorAt bb).elim ⟨pointer, .bool⟩ (Terminator.discr pointer)

/-- Calls of the machine are calls over the mathematical integers. -/
def CallsRepresented (mirCalls : Calls pointer) (calls : Typeck.Calls) : Prop :=
  ∀ ⦃func substs tys vs s v s' S⦄, lowerGenericArgs substs = .ok tys →
    mirCalls func substs vs s v s' → Represents s S →
    ∃ S', calls func tys (vs.map Value.abs) S v.abs S' ∧ Represents s' S'

section

variable {s s' : Store pointer} {S : Typeck.Store} {v : Value pointer} {loc : Loc}

/-- Nothing has to be stored at a location that is not initialized any more. -/
lemma Represents.update_none (h : Represents s S) (loc : Loc) :
    Represents (Function.update s loc none) S := by
  intro loc' v hv
  by_cases hloc : loc' = loc
  · rw [hloc, Function.update_self] at hv
    cases hv
  · rw [Function.update_of_ne hloc] at hv
    exact h hv

/-- A value is written to both stores. -/
lemma Represents.update_some (h : Represents s S) (loc : Loc) (v : Value pointer) :
    Represents (Function.update s loc (some v)) (Function.update S loc v.abs) := by
  intro loc' v' hv
  by_cases hloc : loc' = loc
  · subst hloc
    rw [Function.update_self] at hv ⊢
    rw [Option.some.inj hv]
  · rw [Function.update_of_ne hloc] at hv ⊢
    exact h hv

/-- Dereferences lead to the same location in both stores. -/
lemma Represents.projection (h : Represents s S) {elems : List PlaceElem}
    {elems' : List Core.Ir.PlaceElem}
    (hlower : elems.mapM lowerPlaceElem = .ok elems')
    {loc loc' : Loc} (hloc : s.projection loc elems = some loc') :
    S.projection loc elems' = some loc' := by
  induction elems generalizing elems' loc with
  | nil =>
    cases hlower
    exact hloc
  | cons elem elems ih =>
    rw [List.mapM_cons] at hlower
    cases elem with
    | deref =>
      obtain ⟨elem', helem, hrest⟩ := except_bind_eq_ok.mp hlower
      obtain ⟨elems', helems, heq⟩ := except_bind_eq_ok.mp hrest
      cases helem
      cases heq
      rw [Store.projection] at hloc
      cases hs : s loc with
      | none =>
        rw [hs] at hloc
        cases hloc
      | some v =>
        rw [hs] at hloc
        cases v with
        | ptr next =>
          rw [Typeck.Store.projection, h hs]
          exact ih helems hloc
        | _ => cases hloc
    | _ =>
      obtain ⟨elem', helem, -⟩ := except_bind_eq_ok.mp hlower
      cases helem

/-- **A place leads to the same location.** -/
lemma Represents.place (h : Represents s S) {p : Place} {p' : Core.Ir.Place}
    (hlower : lowerPlace p = .ok p') (hloc : s.place p = some loc) : S.place p' = some loc := by
  rw [lowerPlace] at hlower
  obtain ⟨elems', helems, heq⟩ := except_bind_eq_ok.mp hlower
  cases heq
  exact h.projection helems hloc

/-- A pattern is that of a number that is not negative iff it is this number. -/
lemma toInt_eq_natCast_iff {w n : ℕ} (x : BitVec w) (hn : n < 2 ^ (w - 1)) :
    x.toInt = n ↔ x.toNat = n := by
  have hx := x.isLt
  have hpow : w = 0 ∨ 2 ^ w = 2 * 2 ^ (w - 1) := by
    cases w with
    | zero => exact .inl rfl
    | succ w => exact .inr (pow_succ' 2 w)
  rw [BitVec.toInt_eq_toNat_cond]
  rcases hpow with rfl | hpow
  · split <;> omega
  · split <;> omega

/-- A pattern without the sign bit is that of a number that is not negative. -/
lemma toInt_ofNat_of_lt {w n : ℕ} (hn : n < 2 ^ (w - 1)) : (BitVec.ofNat w n).toInt = n := by
  rw [toInt_eq_natCast_iff _ hn, BitVec.toNat_ofNat]
  exact Nat.mod_eq_of_lt (hn.trans_le (Nat.pow_le_pow_right (by decide) (Nat.sub_le w 1)))

/-- **A constant that is kept** has the value of its pattern. -/
lemma operand_constant (S : Typeck.Store) {c : ConstantKind} {k : Core.Ir.Constant}
    (hkeeps : Keeps.constant pointer c) (hlower : lowerConstant pointer c = some k)
    (hv : constantValue pointer c = some v) : S.operand (.constant k) = some v.abs := by
  cases c with
  | unsupported => cases hv
  | scalar ty scalar =>
    cases scalar with
    | ptr => cases hv
    | int data size =>
      unfold constantValue at hv
      rw [Option.ite_none_right_eq_some] at hv
      obtain ⟨rfl, hv⟩ := hv
      cases ty with
      | unsupported size => cases hv
      | bool =>
        obtain rfl := Option.some.inj hv
        simp only [lowerConstant, scalarToBits, Scalar.toBits, if_pos] at hlower
        obtain rfl := Option.some.inj hlower
        rfl
      | uint uint_ty =>
        obtain rfl := Option.some.inj hv
        simp only [lowerConstant, scalarToBits, Scalar.toBits, if_pos] at hlower
        obtain rfl := Option.some.inj hlower
        have hdata : data < 2 ^ (8 * uintSize pointer uint_ty) := by
          rcases hkeeps with hdata | ⟨hty, -⟩
          · exact hdata
          · cases hty
        refine congrArg (fun n : ℕ => some (Typeck.Value.int n)) ?_
        exact ((BitVec.toNat_ofNat _ _).trans (Nat.mod_eq_of_lt hdata)).symm
      | int int_ty =>
        obtain rfl := Option.some.inj hv
        simp only [lowerConstant, scalarToBits, Scalar.toBits, if_pos] at hlower
        obtain rfl := Option.some.inj hlower
        refine congrArg (fun n => some (Typeck.Value.int n)) ?_
        rcases hkeeps with hdata | ⟨hty, hdata⟩
        · have hdata : data < 2 ^ (IntegralTy.width pointer (.int int_ty) - 1) := hdata
          have hlt : data < 2 ^ 127 := hdata.trans_le (Nat.pow_le_pow_right (by decide)
            (Nat.sub_le_sub_right (IntegralTy.width_le pointer _) 1))
          exact (if_pos hlt).trans (toInt_ofNat_of_lt hdata).symm
        · cases hty
          have hvalue := Typeck.asI128_toNat_eq_toInt_iff le_rfl (BitVec.ofNat 128 data)
          rw [BitVec.toNat_ofNat, Nat.mod_eq_of_lt hdata] at hvalue
          exact hvalue.mpr (.inr rfl)

/-- **The value of an operand.** -/
lemma Represents.operand (h : Represents s S) {op : Operand} {op' : Core.Ir.Operand}
    (hkeeps : Keeps.operand pointer op) (hlower : lowerOperand pointer op = .ok op')
    (hop : s.operand op = some (v, s')) : S.operand op' = some v.abs ∧ Represents s' S := by
  cases op with
  | copy p =>
    obtain ⟨p', hp', heq⟩ := except_bind_eq_ok.mp hlower
    cases heq
    simp only [Store.operand, Option.bind_eq_bind, Option.bind_eq_some_iff] at hop
    obtain ⟨loc, hloc, v', hv, heq⟩ := hop
    cases heq
    exact ⟨by rw [Typeck.Store.operand, h.place hp' hloc, Option.map_some, h hv], h⟩
  | move p =>
    obtain ⟨p', hp', heq⟩ := except_bind_eq_ok.mp hlower
    cases heq
    simp only [Store.operand, Option.bind_eq_bind, Option.bind_eq_some_iff] at hop
    obtain ⟨loc, hloc, v', hv, heq⟩ := hop
    cases heq
    exact ⟨by rw [Typeck.Store.operand, h.place hp' hloc, Option.map_some, h hv],
      h.update_none loc⟩
  | constant c =>
    simp only [Store.operand, Option.bind_eq_bind, Option.bind_eq_some_iff] at hop
    obtain ⟨v', hv, heq⟩ := hop
    cases heq
    cases hc : lowerConstant pointer c with
    | none =>
      rw [lowerOperand, hc] at hlower
      cases hlower
    | some k =>
      rw [lowerOperand, hc] at hlower
      cases hlower
      exact ⟨operand_constant S hkeeps hc hv, h⟩

/-- **The values of operands**, which are taken one after the other. -/
lemma Represents.operands (h : Represents s S) {ops : List Operand} {ops' : List Core.Ir.Operand}
    {vs : List (Value pointer)} (hkeeps : ∀ op ∈ ops, Keeps.operand pointer op)
    (hlower : ops.mapM (lowerOperand pointer) = .ok ops')
    (hops : s.operands ops = some (vs, s')) :
    ops'.mapM S.operand = some (vs.map Value.abs) ∧ Represents s' S := by
  induction ops generalizing s ops' vs with
  | nil =>
    cases hlower
    cases hops
    exact ⟨rfl, h⟩
  | cons op ops ih =>
    rw [List.mapM_cons] at hlower
    obtain ⟨op', hop', hrest⟩ := except_bind_eq_ok.mp hlower
    obtain ⟨ops', hops', heq⟩ := except_bind_eq_ok.mp hrest
    cases heq
    simp only [Store.operands, Option.bind_eq_bind, Option.bind_eq_some_iff, Prod.exists] at hops
    obtain ⟨v, s₁, hv, vs, s₂, hvs, heq⟩ := hops
    cases heq
    obtain ⟨hvalue, h₁⟩ := h.operand (hkeeps op (.head _)) hop' hv
    obtain ⟨hvalues, h₂⟩ := ih h₁ (fun op hop => hkeeps op (.tail _ hop)) hops' hvs
    refine ⟨?_, h₂⟩
    rw [List.mapM_cons, hvalue]
    simp [hvalues]

/-! ## Operations -/

/-- What the machine computes of two values is what is computed over the integers. -/
lemma binaryOp_abs {op : Core.Ir.BinOp} {v1 v2 v : MirValue pointer}
    (h : v1.binaryOp op v2 = some v) :
    (Value.scalar v1).abs.binaryOp op (Value.scalar v2).abs = some (Value.scalar v).abs := by
  cases v1 with
  | bool a =>
    cases v2 with
    | int ty y => cases h
    | bool b => cases op <;> cases h <;> rfl
  | int ty x =>
    cases v2 with
    | bool b => cases h
    | int ty' y =>
      rw [MirValue.binaryOp] at h
      split at h
      · next heq =>
        subst heq
        change Typeck.Value.intOp op (ty'.value x) (ty'.value y) = _
        cases op with
        | gt => cases h; simp [Typeck.Value.intOp, Value.abs, IntegralTy.lt_eq]
        | lt => cases h; simp [Typeck.Value.intOp, Value.abs, IntegralTy.lt_eq]
        | le => cases h; simp [Typeck.Value.intOp, Value.abs, IntegralTy.le_eq]
        | eq => cases h; simp [Typeck.Value.intOp, Value.abs, IntegralTy.value_inj]
        | ne => cases h; simp [Typeck.Value.intOp, Value.abs, IntegralTy.value_inj]
        | add =>
          obtain ⟨z, hz, rfl⟩ := Option.map_eq_some_iff.mp h
          simp [Typeck.Value.intOp, Value.abs, IntegralTy.value_add hz]
        | sub =>
          obtain ⟨z, hz, rfl⟩ := Option.map_eq_some_iff.mp h
          simp [Typeck.Value.intOp, Value.abs, IntegralTy.value_sub hz]
        | mul =>
          obtain ⟨z, hz, rfl⟩ := Option.map_eq_some_iff.mp h
          simp [Typeck.Value.intOp, Value.abs, IntegralTy.value_mul hz]
        | div =>
          obtain ⟨z, hz, rfl⟩ := Option.map_eq_some_iff.mp h
          obtain ⟨hne, hvalue⟩ := IntegralTy.value_div hz
          simp [Typeck.Value.intOp, Value.abs, hne, hvalue]
      · cases h

/-- **The operations of the machine** that can be lowered are those over the integers. -/
lemma lowerBinOp_abs {op : BinOp} {op' : Core.Ir.BinOp} {v1 v2 v : MirValue pointer}
    (hlower : lowerBinOp op = .ok op') (h : binaryOp op v1 v2 = some v) :
    (Value.scalar v1).abs.binaryOp op' (Value.scalar v2).abs = some (Value.scalar v).abs := by
  cases op with
  | rem | bitXor | bitAnd | bitOr | shl | shr | ge | offset => cases hlower
  | _ =>
    obtain rfl := Except.ok.inj hlower
    exact binaryOp_abs h

/-- An rvalue takes the complement of an integer, which has no value without its type. -/
def ComplementsInt (S : Typeck.Store) (rvalue : Core.Ir.Rvalue) : Prop :=
  ∃ op n, rvalue = .unaryOp .not op ∧ S.operand op = some (.int n)

/-- So it is with one value, but for the complement of an integer. -/
lemma unaryOp_abs {op : Core.Ir.UnOp} {v1 v : MirValue pointer} (h : v1.unaryOp op = some v)
    (hop : op = .not → ∀ n, (Value.scalar v1).abs ≠ .int n) :
    (Value.scalar v1).abs.unaryOp op = some (Value.scalar v).abs := by
  cases v1 with
  | bool b =>
    cases op with
    | not =>
      cases h
      rfl
    | neg => cases h
  | int ty x =>
    cases op with
    | not => exact absurd rfl (hop rfl _)
    | neg =>
      obtain ⟨z, hz, rfl⟩ := Option.map_eq_some_iff.mp h
      simp [Typeck.Value.unaryOp, Value.abs, IntegralTy.value_neg hz]

/-- **The value of an rvalue.** -/
lemma Represents.rvalue (h : Represents s S) {rvalue : Rvalue} {rvalue' : Core.Ir.Rvalue}
    (hkeeps : Keeps.rvalue pointer rvalue) (hlower : lowerRvalue pointer rvalue = .ok rvalue')
    (hv : s.rvalue rvalue = some (v, s')) (hint : ¬ComplementsInt S rvalue') :
    S.rvalue rvalue' = some v.abs ∧ Represents s' S := by
  cases rvalue with
  | use op =>
    obtain ⟨op', hop', heq⟩ := except_bind_eq_ok.mp hlower
    cases heq
    exact h.operand hkeeps hop' hv
  | ref kind p =>
    cases kind with
    | mut_ =>
      obtain ⟨p', hp', heq⟩ := except_bind_eq_ok.mp hlower
      cases heq
      simp only [Store.rvalue, Option.bind_eq_bind, Option.bind_eq_some_iff] at hv
      obtain ⟨loc, hloc, heq⟩ := hv
      cases heq
      exact ⟨by rw [Typeck.Store.rvalue, h.place hp' hloc]; rfl, h⟩
    | _ => cases hlower
  | binaryOp op op1 op2 =>
    obtain ⟨op', hop', hrest⟩ := except_bind_eq_ok.mp hlower
    obtain ⟨op1', hop1', hrest⟩ := except_bind_eq_ok.mp hrest
    obtain ⟨op2', hop2', heq⟩ := except_bind_eq_ok.mp hrest
    cases heq
    simp only [Store.rvalue, Option.bind_eq_bind, Option.bind_eq_some_iff, Prod.exists] at hv
    obtain ⟨v1, s₁, hv1, v2, s₂, hv2, hv⟩ := hv
    obtain ⟨hvalue1, h₁⟩ := h.operand hkeeps.1 hop1' hv1
    obtain ⟨hvalue2, h₂⟩ := h₁.operand hkeeps.2 hop2' hv2
    cases v1 with
    | scalar v1 =>
      cases v2 with
      | scalar v2 =>
        obtain ⟨v', hv', heq⟩ := Option.bind_eq_some_iff.mp hv
        cases heq
        refine ⟨?_, h₂⟩
        rw [Typeck.Store.rvalue, hvalue1, hvalue2]
        exact lowerBinOp_abs hop' hv'
      | _ => cases hv
    | _ => cases hv
  | unaryOp op operand =>
    obtain ⟨operand', hoperand', heq⟩ := except_bind_eq_ok.mp hlower
    cases heq
    simp only [Store.rvalue, Option.bind_eq_bind, Option.bind_eq_some_iff, Prod.exists] at hv
    obtain ⟨v1, s₁, hv1, hv⟩ := hv
    obtain ⟨hvalue1, h₁⟩ := h.operand hkeeps hoperand' hv1
    cases v1 with
    | scalar v1 =>
      obtain ⟨v', hv', heq⟩ := Option.bind_eq_some_iff.mp hv
      cases heq
      refine ⟨?_, h₁⟩
      rw [Typeck.Store.rvalue, hvalue1]
      refine unaryOp_abs hv' fun hop n hn => hint ⟨operand', n, ?_, ?_⟩
      · rw [hop]
      · rw [hvalue1, hn]
    | _ => cases hv
  | _ => cases hlower

/-! ## Statements and terminators -/

/-- **A statement** changes both stores alike. -/
lemma Represents.exec (h : Represents s S) {stmt : Statement} {stmt' : Core.Ir.Statement}
    (hkeeps : Keeps.statement pointer stmt) (hlower : lowerStatement pointer stmt = .ok stmt')
    (hexec : s.exec stmt = some s')
    (hint : ∀ p rvalue, stmt' = .assign p rvalue → ¬ComplementsInt S rvalue) :
    ∃ S', S.exec stmt' = some S' ∧ Represents s' S' := by
  cases stmt with
  | assign p rvalue =>
    obtain ⟨p', hp', hrest⟩ := except_bind_eq_ok.mp hlower
    obtain ⟨rvalue', hrvalue', heq⟩ := except_bind_eq_ok.mp hrest
    cases heq
    simp only [Store.exec, Option.bind_eq_bind, Option.bind_eq_some_iff, Prod.exists] at hexec
    obtain ⟨loc, hloc, v, s₁, hv, heq⟩ := hexec
    cases heq
    obtain ⟨hvalue, h₁⟩ := h.rvalue hkeeps hrvalue' hv (hint _ _ rfl)
    refine ⟨Function.update S loc v.abs, ?_, h₁.update_some loc v⟩
    rw [Typeck.Store.exec, hvalue, h.place hp' hloc]
    rfl
  | nop =>
    cases hlower
    cases hexec
    exact ⟨S, rfl, h⟩
  | storageLive l | storageDead l =>
    cases hlower
    cases hexec
    exact ⟨S, rfl, h.update_none _⟩
  | _ => cases hlower

/-- Integers of a type are the same only if their bit patterns are. -/
lemma value_inj (ty : IntegralTy) {w : ℕ} {x y : BitVec w} : ty.value x = ty.value y ↔ x = y := by
  cases ty with
  | int int_ty => exact BitVec.toInt_inj
  | uint uint_ty => exact Int.natCast_inj.trans BitVec.toNat_inj

/-- The patterns that a value is listed with are those that it is compared with. -/
lemma isListed_iff {v : MirValue pointer} {n : ℕ} (hn : IsPattern pointer n (kind v)) :
    Discr.IsListed ⟨pointer, discrTy (kind v)⟩ n (Value.scalar v).abs ↔ bits v = n := by
  cases v with
  | bool b =>
    have hn : n < 2 := hn
    obtain rfl | rfl : n = 0 ∨ n = 1 := by omega
    · cases b <;> cases pointer <;> decide
    · cases b <;> cases pointer <;> decide
  | int ty x =>
    have hn : n < 2 ^ ty.width pointer := by cases ty <;> exact hn
    have hty : discrTy (kind (.int ty x)) = .integral ty := by cases ty <;> rfl
    have hlisted : Discr.IsListed ⟨pointer, .integral ty⟩ n (.int (ty.value x)) ↔
        ty.value x = ty.value (BitVec.ofNat (ty.width pointer) n) :=
      Option.some_inj.trans (Fixpoint.Val.int.injEq _ _).to_iff
    rw [hty]
    refine hlisted.trans ?_
    rw [value_inj, ← BitVec.toNat_inj, BitVec.toNat_ofNat, Nat.mod_eq_of_lt hn]
    rfl

/-- **A switch goes to the same target.** -/
lemma takenTarget_abs {targets : SwitchTargets} {v : MirValue pointer}
    (hkeeps : ∀ p ∈ targets.targets, IsPattern pointer p.1 (kind v)) :
    Discr.takenTarget ⟨pointer, discrTy (kind v)⟩ targets (Value.scalar v).abs =
      takenTarget targets v := by
  rw [Discr.takenTarget, takenTarget]
  congr 2
  refine List.find?_congr fun p hp => ?_
  rw [decide_eq_decide]
  exact isListed_iff (hkeeps p hp)

/-- A value has the type that the compiler knows of it. -/
lemma has_scalar (v : MirValue pointer) :
    Discr.Has ⟨pointer, discrTy (kind v)⟩ (Value.scalar v).abs := by
  rcases v with ⟨int_ty | uint_ty, x⟩ | b
  · exact DiscrTy.noConfusion
  · exact DiscrTy.noConfusion
  · rfl

/-- **A terminator** goes to the same block. -/
lemma Represents.goes {mirCalls : Calls pointer} {calls : Typeck.Calls}
    (hcalls : CallsRepresented mirCalls calls) (h : Represents s S) {terminator : Terminator}
    {terminator' : Core.Ir.Terminator} {target : BasicBlock}
    (hkeeps : Keeps.terminator pointer terminator)
    (hlower : lowerTerminator pointer terminator = .ok terminator')
    (hgoes : Goes mirCalls s terminator target s') :
    ∃ S', Typeck.Goes (terminator.discr pointer) calls S terminator' target S' ∧
      Represents s' S' := by
  cases hgoes with
  | goto =>
    cases hlower
    exact ⟨S, .goto _, h⟩
  | drop _ _ _ =>
    obtain ⟨p', -, heq⟩ := except_bind_eq_ok.mp hlower
    cases heq
    exact ⟨S, .drop _ _, h.update_none _⟩
  | switchInt targets hdiscr hkind =>
    subst hkind
    obtain ⟨discr', hdiscr', heq⟩ := except_bind_eq_ok.mp hlower
    cases heq
    obtain ⟨hvalue, h'⟩ := h.operand hkeeps.1 hdiscr' hdiscr
    refine ⟨S, ?_, h'⟩
    rw [← takenTarget_abs hkeeps.2]
    exact .switchInt _ hvalue (has_scalar _)
  | @call func substs args vs v s₁ s₂ p loc _ _ hargs hcall hloc =>
    obtain ⟨substs', hsubsts', hrest⟩ := except_bind_eq_ok.mp hlower
    obtain ⟨destination', hdestination', hrest⟩ := except_bind_eq_ok.mp hrest
    obtain ⟨args', hargs', heq⟩ := except_bind_eq_ok.mp hrest
    obtain ⟨p', hp', heq'⟩ := except_bind_eq_ok.mp hdestination'
    cases heq
    cases heq'
    obtain ⟨hvalues, h₁⟩ := h.operands hkeeps hargs' hargs
    obtain ⟨S₂, hcall', h₂⟩ := hcalls hsubsts' hcall h₁
    exact ⟨_, .call _ hvalues hcall' (h₂.place hp' hloc), h₂.update_some loc v⟩

end

end Mir

/-! ## Blocks -/

section

variable {pointer : PointerWidth} {body : Mir.Body} {ir : Core.Ir.Body}

/-- The blocks are lowered one by one, and what is known about the graph is kept. -/
lemma lower_eq_ok (h : lower pointer body = .ok ir) :
    List.Forall₂ (fun data data' => lowerBasicBlockData pointer data = .ok data') body.basicBlocks
        ir.basicBlocks ∧ ir.mir = body.graph := by
  obtain ⟨basicBlocks, hblocks, heq⟩ := except_bind_eq_ok.mp h
  cases heq
  exact ⟨except_mapM_eq_ok.mp hblocks, rfl⟩

/-- The statements and the terminator of a block are lowered one by one. -/
lemma lowerBasicBlockData_eq_ok {data : Mir.BasicBlockData} {data' : Core.Ir.BasicBlockData}
    (h : lowerBasicBlockData pointer data = .ok data') :
    List.Forall₂ (fun stmt stmt' => lowerStatement pointer stmt = .ok stmt') data.statements
        data'.statements ∧ lowerTerminator? pointer data.terminator = .ok data'.terminator := by
  obtain ⟨statements, hstatements, hrest⟩ := except_bind_eq_ok.mp h
  obtain ⟨terminator, hterminator, heq⟩ := except_bind_eq_ok.mp hrest
  cases heq
  exact ⟨except_mapM_eq_ok.mp hstatements, hterminator⟩

/-- A block is there on both sides or on neither. -/
lemma lower_block (h : lower pointer body = .ok ir) (bb : BasicBlock) :
    body.basicBlocks[bb]? = none ∧ ir.basicBlocks[bb]? = none ∨
      ∃ data data', body.basicBlocks[bb]? = some data ∧ ir.basicBlocks[bb]? = some data' ∧
        lowerBasicBlockData pointer data = .ok data' := by
  obtain ⟨hlen, hget⟩ := List.forall₂_iff_get.mp (lower_eq_ok h).1
  by_cases hbb : bb < body.basicBlocks.length
  · have hbb' : bb < ir.basicBlocks.length := hlen ▸ hbb
    exact .inr ⟨_, _, List.getElem?_eq_getElem hbb, List.getElem?_eq_getElem hbb',
      hget bb hbb hbb'⟩
  · have hbb' : ¬bb < ir.basicBlocks.length := hlen ▸ hbb
    exact .inl ⟨List.getElem?_eq_none (not_lt.mp hbb), List.getElem?_eq_none (not_lt.mp hbb')⟩

/-- The statements of a block are lowered one by one. -/
lemma lower_statementsAt (h : lower pointer body = .ok ir) (bb : BasicBlock) :
    List.Forall₂ (fun stmt stmt' => lowerStatement pointer stmt = .ok stmt')
      (body.statementsAt bb) (Typeck.statementsAt ir bb) := by
  rw [Mir.Body.statementsAt, Typeck.statementsAt]
  rcases lower_block h bb with ⟨hnone, hnone'⟩ | ⟨data, data', hdata, hdata', hlower⟩
  · rw [hnone, hnone']
    exact .nil
  · rw [hdata, hdata']
    exact (lowerBasicBlockData_eq_ok hlower).1

/-- The terminator of a block is lowered. -/
lemma lower_terminatorAt (h : lower pointer body = .ok ir) (bb : BasicBlock) :
    lowerTerminator? pointer (body.terminatorAt bb) = .ok (Typeck.terminatorAt ir bb) := by
  rw [Mir.Body.terminatorAt, Typeck.terminatorAt]
  rcases lower_block h bb with ⟨hnone, hnone'⟩ | ⟨data, data', hdata, hdata', hlower⟩
  · rw [hnone, hnone']
    rfl
  · rw [hdata, hdata']
    exact (lowerBasicBlockData_eq_ok hlower).2

/-- A terminator that there is is lowered to one. -/
lemma lowerTerminator?_some {terminator : Mir.Terminator} {o : Option Core.Ir.Terminator}
    (h : lowerTerminator? pointer (some terminator) = .ok o) :
    ∃ terminator', o = some terminator' ∧ lowerTerminator pointer terminator = .ok terminator' := by
  obtain ⟨terminator', hterminator', heq⟩ := except_bind_eq_ok.mp h
  exact ⟨terminator', (Except.ok.inj heq).symm, hterminator'⟩

end

/-! ## Executions -/

/-- Where an execution of a body is, and where that of what it is lowered to is. -/
structure Mir.Config.Represented {pointer : PointerWidth} (c : Mir.Config pointer)
    (c' : Typeck.Config) : Prop where
  block : c'.block = c.block
  statements : List.Forall₂ (fun stmt stmt' => lowerStatement pointer stmt = .ok stmt')
    c.statements c'.statements
  keeps : ∀ stmt ∈ c.statements, Mir.Keeps.statement pointer stmt
  store : Mir.Represents c.store c'.store

/-- An execution comes to a statement that takes the complement of an integer. -/
def AtComplement (c : Typeck.Config) : Prop :=
  ∃ p rvalue rest, c.statements = .assign p rvalue :: rest ∧ Mir.ComplementsInt c.store rvalue

section

variable {pointer : PointerWidth} {body : Mir.Body} {ir : Core.Ir.Body}
  {mirCalls : Mir.Calls pointer} {calls : Typeck.Calls} {c₁ c₂ : Mir.Config pointer}
  {c₁' : Typeck.Config}

/-- The constants in the statements of a block are kept. -/
lemma keeps_statementsAt (hkeeps : body.KeepsValues pointer) (bb : BasicBlock) :
    ∀ stmt ∈ body.statementsAt bb, Mir.Keeps.statement pointer stmt := by
  rw [Mir.Body.statementsAt]
  cases hdata : body.basicBlocks[bb]? with
  | none => exact List.forall_mem_nil _
  | some data => exact hkeeps.statements data (List.mem_of_getElem? hdata)

/-- The constants and the targets of a terminator are kept. -/
lemma keeps_terminatorAt (hkeeps : body.KeepsValues pointer) {bb : BasicBlock}
    {terminator : Mir.Terminator} (h : body.terminatorAt bb = some terminator) :
    Mir.Keeps.terminator pointer terminator := by
  rw [Mir.Body.terminatorAt] at h
  obtain ⟨data, hdata, hterminator⟩ := Option.bind_eq_some_iff.mp h
  exact hkeeps.terminators data (List.mem_of_getElem? hdata) terminator hterminator

/-- **Both executions enter a block** with stores of which one represents the other. -/
lemma represented_enter (h : lower pointer body = .ok ir) (hkeeps : body.KeepsValues pointer)
    (bb : BasicBlock) {s : Mir.Store pointer} {S : Typeck.Store} (hs : Mir.Represents s S) :
    Mir.Config.Represented ⟨bb, body.statementsAt bb, s⟩ (.enter ir bb S) :=
  ⟨rfl, lower_statementsAt h bb, keeps_statementsAt hkeeps bb, hs⟩

/-- **A step on the machine** is a step of what the body is lowered to. -/
theorem lower_step (h : lower pointer body = .ok ir) (hkeeps : body.KeepsValues pointer)
    (hcalls : Mir.CallsRepresented mirCalls calls) (hrep : c₁.Represented c₁')
    (hstep : Mir.Step body mirCalls c₁ c₂) :
    AtComplement c₁' ∨
      ∃ c₂', Typeck.Step ir (body.discrs pointer) calls c₁' c₂' ∧ c₂.Represented c₂' := by
  obtain ⟨bb', statements', S⟩ := c₁'
  obtain ⟨rfl, hstatements, hkeeps₁, hs⟩ := hrep
  cases hstep with
  | @statement bb stmt rest s s' hexec =>
    rw [or_iff_not_imp_left]
    intro hcomplement
    cases hstatements with
    | @cons _ stmt' _ rest' hstmt hrest =>
      obtain ⟨S', hexec', hs'⟩ := hs.exec (hkeeps₁ stmt (.head _)) hstmt hexec
        fun p rvalue heq hint => hcomplement ⟨p, rvalue, rest', by rw [heq], hint⟩
      exact ⟨_, .statement hexec', rfl, hrest, fun stmt h => hkeeps₁ stmt (.tail _ h), hs'⟩
  | @terminator bb target terminator s s' hterminator hgoes =>
    cases hstatements with
    | nil =>
      have hlower := lower_terminatorAt h bb
      rw [hterminator] at hlower
      obtain ⟨terminator', hterminator', hlower⟩ := lowerTerminator?_some hlower
      obtain ⟨S', hgoes', hs'⟩ :=
        hs.goes hcalls (keeps_terminatorAt hkeeps hterminator) hlower hgoes
      have hdiscr : body.discrs pointer bb = terminator.discr pointer := by
        rw [Mir.Body.discrs, hterminator, Option.elim_some]
      rw [← hdiscr] at hgoes'
      exact .inr ⟨_, .terminator hterminator' hgoes', represented_enter h hkeeps target hs'⟩

/-- **Lowering preserves executions.** What a body does on the machine from the entry block, what
it is lowered to does over the integers, up to a statement that takes the complement of an
integer. The constants are kept, and calls over the integers may do what calls on the machine
do.

**Proof sketch.** By induction on the execution. A step of the body is one of the lowered body
unless the statement takes a complement (`lower_step`): constants keep their values, machine
arithmetic that does not overflow is that of the integers, and a switch compares the patterns as
values of one type, which differ iff the patterns do. -/
theorem lower_simulates (h : lower pointer body = .ok ir) (hkeeps : body.KeepsValues pointer)
    (hcalls : Mir.CallsRepresented mirCalls calls) {s : Mir.Store pointer} {S : Typeck.Store}
    (hs : Mir.Represents s S) {c : Mir.Config pointer}
    (hsteps : Mir.Steps body mirCalls ⟨startBlock, body.statementsAt startBlock, s⟩ c) :
    ∃ c', Typeck.Steps ir (body.discrs pointer) calls (.enter ir startBlock S) c' ∧
      (AtComplement c' ∨ c.Represented c') := by
  induction hsteps with
  | refl => exact ⟨_, .refl, .inr (represented_enter h hkeeps startBlock hs)⟩
  | tail _ hstep ih =>
    obtain ⟨c', hsteps', hcomplement | hrep⟩ := ih
    · exact ⟨c', hsteps', .inl hcomplement⟩
    · rcases lower_step h hkeeps hcalls hrep hstep with hcomplement | ⟨c₂', hstep', hrep'⟩
      · exact ⟨c', hsteps', .inl hcomplement⟩
      · exact ⟨c₂', hsteps'.tail hstep', .inr hrep'⟩

/-- A loop that counts to two. -/
def counterMir : Mir.Body where
  basicBlocks :=
    [⟨[.storageLive 1, .assign ⟨1, []⟩ (.use (.constant (.scalar (.int .i32) (.int 0 4))))],
        some (.goto 1)⟩,
      ⟨[.assign ⟨1, []⟩ (.binaryOp .add (.copy ⟨1, []⟩)
          (.constant (.scalar (.int .i32) (.int 1 4))))],
        some (.switchInt (.copy ⟨1, []⟩) (.int .i32) ⟨[(2, 2)], 1⟩)⟩,
      ⟨[.assign ⟨0, []⟩ (.use (.move ⟨1, []⟩)), .storageDead 1], some .return_⟩]
  argCount := 0
  localDecls := 2
  graph :=
    { predecessors := fun
        | 1 => [0, 1]
        | 2 => [1]
        | _ => []
      reversePostorder := [0, 1, 2]
      immediateDominator := fun _ => some 0 }

/-- What it is lowered to. -/
def counterIr : Core.Ir.Body where
  basicBlocks :=
    [⟨[.nop, .assign ⟨1, []⟩ (.use (.constant (.int 0 .i32)))], some (.goto 1)⟩,
      ⟨[.assign ⟨1, []⟩ (.binaryOp .add (.copy ⟨1, []⟩) (.constant (.int 1 .i32)))],
        some (.switchInt (.copy ⟨1, []⟩) ⟨[(2, 2)], 1⟩)⟩,
      ⟨[.assign ⟨0, []⟩ (.use (.move ⟨1, []⟩)), .nop], some .return_⟩]
  argCount := 0
  nlocals := 2
  mir := counterMir.graph

/-- The loop is lowered. -/
lemma lower_counterMir : lower .w64 counterMir = .ok counterIr := by
  rfl

/-- Its constants and its targets are kept. -/
lemma counterMir_keepsValues : counterMir.KeepsValues .w64 := by
  constructor
  · intro data hdata stmt hstmt
    simp only [counterMir, List.mem_cons, List.not_mem_nil, or_false] at hdata
    obtain rfl | rfl | rfl := hdata <;>
      simp only [List.mem_cons, List.not_mem_nil, or_false] at hstmt
    · obtain rfl | rfl := hstmt
      · trivial
      · exact .inl (by decide)
    · subst hstmt
      exact ⟨trivial, .inl (by decide)⟩
    · obtain rfl | rfl := hstmt <;> trivial
  · intro data hdata terminator hterminator
    simp only [counterMir, List.mem_cons, List.not_mem_nil, or_false] at hdata
    obtain rfl | rfl | rfl := hdata <;> obtain rfl := Option.mem_some_iff.mp hterminator
    · trivial
    · exact ⟨trivial, fun p hp => by rw [List.mem_singleton.mp hp]; decide⟩
    · trivial

/-- There are no calls in the loop. -/
lemma callsRepresented_none : Mir.CallsRepresented
    (fun _ _ _ _ _ _ => False : Mir.Calls .w64) (fun _ _ _ _ _ _ => False) := by
  intro func substs tys vs s v s' S _ h
  exact h.elim

/-- Executions that go on from a step. -/
lemma exists_steps_head {P : Mir.Config pointer → Prop} (hstep : Mir.Step body mirCalls c₁ c₂)
    (h : ∃ c, Mir.Steps body mirCalls c₂ c ∧ P c) : ∃ c, Mir.Steps body mirCalls c₁ c ∧ P c := by
  obtain ⟨c, hsteps, hc⟩ := h
  exact ⟨c, .head hstep hsteps, hc⟩

/-- It is run to its end. -/
lemma counterMir_steps : ∃ c : Mir.Config .w64,
    Mir.Steps counterMir (fun _ _ _ _ _ _ => False)
      ⟨startBlock, counterMir.statementsAt startBlock, fun _ => none⟩ c ∧
    c.block = 2 ∧ c.statements = [] ∧
    (c.store (.local_ 0)).map Mir.Value.abs = some (.int 2) := by
  refine exists_steps_head (.statement rfl) (exists_steps_head (.statement rfl) ?_)
  refine exists_steps_head (.terminator rfl (.goto 1)) (exists_steps_head (.statement rfl) ?_)
  refine exists_steps_head (.terminator rfl (.switchInt _ rfl rfl)) ?_
  refine exists_steps_head (.statement rfl) ?_
  refine exists_steps_head (.terminator rfl (.switchInt _ rfl rfl)) ?_
  refine exists_steps_head (.statement rfl) (exists_steps_head (.statement rfl) ?_)
  exact ⟨_, .refl, by decide +kernel, rfl, rfl⟩

/-- The loop counts to two on the machine and over the integers. -/
theorem lower_simulates_counter :
    ∃ (c : Mir.Config .w64) (c' : Typeck.Config),
      Mir.Steps counterMir (fun _ _ _ _ _ _ => False)
        ⟨startBlock, counterMir.statementsAt startBlock, fun _ => none⟩ c ∧
      c.block = 2 ∧ c.statements = [] ∧ (c.store (.local_ 0)).map Mir.Value.abs = some (.int 2) ∧
      Typeck.Steps counterIr (counterMir.discrs .w64) (fun _ _ _ _ _ _ => False)
        (.enter counterIr startBlock fun _ => .int 0) c' ∧
      (AtComplement c' ∨ c.Represented c') := by
  obtain ⟨c, hsteps, hblock, hstatements, hvalue⟩ := counterMir_steps
  obtain ⟨c', hsteps', hrep⟩ := lower_simulates lower_counterMir counterMir_keepsValues
    callsRepresented_none (S := fun _ => .int 0) (by rintro loc v ⟨⟩) hsteps
  exact ⟨c, c', hsteps, hblock, hstatements, hvalue, hsteps', hrep⟩

end

/-! ## Graphs -/

namespace Mir.Body

variable (body : Body)

/-- The targets of the edges that leave a block. -/
def successors (bb : BasicBlock) : List BasicBlock :=
  (body.terminatorAt bb).elim [] Terminator.successors

/-- There is an edge from one block to another one. -/
def Edge (bb target : BasicBlock) : Prop :=
  target ∈ body.successors bb

/-- **What the compiler computes is right**, with the edges that unwind. -/
structure CorrectGraph : Prop where
  start : startBlock < body.basicBlocks.length
  targets : ∀ ⦃bb target⦄, body.Edge bb target → target < body.basicBlocks.length
  predecessors : ∀ bb target,
    (body.graph.predecessors target).count bb = (body.successors bb).count target
  reversePostorder : IsReversePostorder body.Edge startBlock body.graph.reversePostorder

/-- Blocks that a terminator unwinds to lead to one that resumes the unwinding. -/
def UnwindsToResume : Prop :=
  ∀ ⦃bb terminator target⦄, body.terminatorAt bb = some terminator →
    terminator.unwind = some target →
    ∃ bb', ReflTransGen body.Edge target bb' ∧ body.terminatorAt bb' = some .resume

end Mir.Body

section

variable {pointer : PointerWidth} {body : Mir.Body} {ir : Core.Ir.Body}

/-- The edges of a terminator are kept, but for those that unwind. -/
lemma successors_lowerTerminator {terminator : Mir.Terminator} {terminator' : Core.Ir.Terminator}
    (h : lowerTerminator pointer terminator = .ok terminator') :
    terminator'.successors = terminator.targets := by
  cases terminator with
  | goto | return_ =>
    cases h
    rfl
  | drop place target unwind =>
    obtain ⟨place', -, heq⟩ := except_bind_eq_ok.mp h
    cases heq
    rfl
  | switchInt discr switch_ty targets =>
    obtain ⟨discr', -, heq⟩ := except_bind_eq_ok.mp h
    cases heq
    rfl
  | call func args destination cleanup =>
    cases func with
    | unsupported => cases h
    | fnDef func substs =>
      obtain ⟨substs', -, hrest⟩ := except_bind_eq_ok.mp h
      obtain ⟨destination', hdestination, hrest⟩ := except_bind_eq_ok.mp hrest
      obtain ⟨args', -, heq⟩ := except_bind_eq_ok.mp hrest
      cases heq
      cases destination with
      | none =>
        cases hdestination
        rfl
      | some destination =>
        obtain ⟨p', -, heq⟩ := except_bind_eq_ok.mp hdestination
        cases heq
        rfl
  | _ => cases h

/-- **A body that can be lowered does not unwind**: it would have to resume. -/
theorem unwind_eq_none (h : lower pointer body = .ok ir) (hresume : body.UnwindsToResume)
    {bb : BasicBlock} {terminator : Mir.Terminator} (hbb : body.terminatorAt bb = some terminator) :
    terminator.unwind = none := by
  rw [Option.eq_none_iff_forall_ne_some]
  intro target htarget
  obtain ⟨bb', -, hbb'⟩ := hresume hbb htarget
  have hlower := lower_terminatorAt h bb'
  rw [hbb'] at hlower
  obtain ⟨terminator', -, hlower⟩ := lowerTerminator?_some hlower
  cases hlower

/-- The edges are the same. -/
lemma lower_successors (h : lower pointer body = .ok ir) (hresume : body.UnwindsToResume)
    (bb : BasicBlock) : ir.successors bb = body.successors bb := by
  have hlower := lower_terminatorAt h bb
  rw [Typeck.successors_eq, Mir.Body.successors]
  cases hterminator : body.terminatorAt bb with
  | none =>
    rw [hterminator] at hlower
    rw [← Except.ok.inj hlower]
    rfl
  | some terminator =>
    rw [hterminator] at hlower
    obtain ⟨terminator', hterminator', hlower⟩ := lowerTerminator?_some hlower
    rw [hterminator']
    show terminator'.successors = terminator.successors
    rw [successors_lowerTerminator hlower, Mir.Terminator.successors,
      unwind_eq_none h hresume hterminator, Option.toList_none, List.append_nil]

/-- **The graph is kept**: a body that is lowered has no edges that unwind, and what the compiler
computes about it is right about what it is lowered to.

**Proof sketch.** A block that a terminator unwinds to leads to one that resumes, which is not
lowered (`unwind_eq_none`). So both graphs have the same edges (`lower_successors`), and the data
of the compiler are taken over. -/
theorem lower_correctCfg (h : lower pointer body = .ok ir) (hgraph : body.CorrectGraph)
    (hresume : body.UnwindsToResume) :
    (∀ bb, ∀ terminator ∈ body.terminatorAt bb, terminator.unwind = none) ∧ ir.CorrectCfg := by
  refine ⟨fun bb terminator hterminator => unwind_eq_none h hresume hterminator, ?_⟩
  have hsucc : ir.successors = body.successors := funext (lower_successors h hresume)
  have hedge : ir.Edge = body.Edge := by
    funext bb target
    rw [Core.Ir.Body.Edge, hsucc, Mir.Body.Edge]
  have hlen : ir.basicBlocks.length = body.basicBlocks.length :=
    (lower_eq_ok h).1.length_eq.symm
  constructor
  · rw [hlen]
    exact hgraph.start
  · rw [hlen, hedge]
    exact hgraph.targets
  · rw [(lower_eq_ok h).2, hsucc]
    exact hgraph.predecessors
  · rw [Core.Ir.Body.reversePostorder, (lower_eq_ok h).2, hedge]
    exact hgraph.reversePostorder

/-- The compiler is right about its graph. -/
lemma counterMir_correctGraph : counterMir.CorrectGraph where
  start := by decide
  targets := by
    intro bb target h
    rcases bb with _ | _ | _ | bb
    · rw [List.mem_singleton.mp h]
      decide
    · rcases List.mem_pair.mp h with rfl | rfl <;> decide
    · exact absurd h List.not_mem_nil
    · exact absurd h List.not_mem_nil
  predecessors := by
    intro bb target
    rcases bb with _ | _ | _ | bb <;> rcases target with _ | _ | _ | target <;>
      simp [counterMir, Mir.Body.successors, Mir.Body.terminatorAt, Mir.Terminator.successors,
        Mir.Terminator.targets, Mir.Terminator.unwind]
  reversePostorder := by
    refine ⟨[2, 1, 0], ?_, rfl⟩
    have h2 : Visits counterMir.Edge [1, 0] [2, 1] [2] :=
      @Visits.visit _ _ _ _ [] [] _ _ (by decide) (fun w => Iff.rfl) (.nil _)
        (.seen (by decide) (.nil _))
    have h1 : Visits counterMir.Edge [0] [1] [2, 1] :=
      @Visits.visit _ _ _ _ [2, 1] [2] _ _ (by decide) (fun w => Iff.rfl) h2 (.nil _)
    exact @Visits.visit _ _ _ _ [1] [2, 1] _ _ (by decide) (fun w => Iff.rfl) h1 (.nil _)

/-- None of its terminators unwinds. -/
lemma counterMir_unwindsToResume : counterMir.UnwindsToResume := by
  intro bb terminator target h hunwind
  rcases bb with _ | _ | _ | bb
  · cases h
    cases hunwind
  · cases h
    cases hunwind
  · cases h
    cases hunwind
  · cases h

/-- The graph of the loop. -/
theorem lower_correctCfg_counter :
    (∀ bb, ∀ terminator ∈ counterMir.terminatorAt bb, terminator.unwind = none) ∧
      counterIr.CorrectCfg :=
  lower_correctCfg lower_counterMir counterMir_correctGraph counterMir_unwindsToResume

end

end LiquidRust.Driver
