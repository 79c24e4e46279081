import LiquidRust.Typeck.Assumptions
import LiquidRust.Typeck.CallSound
import LiquidRust.Typeck.Executions
import LiquidRust.Typeck.Rvalues

set_option relaxedAutoImplicit false
set_option autoImplicit false

/-!
# Statements over integers and booleans are sound

Without references, the locations of an environment stay the same in the whole run of the checker,
and each of them has an integer or a boolean with an index, or nothing. A statement that is checked
can be executed from every store of its environment, and leads to one of the environment that it
leaves.

## Main definitions

* `LiquidRust.Typeck.Ty.Indexed`, `Ty.Joined` — the types in a block and those at a join point.
* `LiquidRust.Typeck.TypeEnv.Local` — environments with given locations and such types.
* `LiquidRust.Typeck.Interp.Computes` — the division of the constraint is that of the program.

## Main results

* `LiquidRust.Typeck.Checker.proves_checkStatement` — statements are sound.
-/

namespace LiquidRust.Typeck

open Lib Cursor
open Core.Ir (Place Operand Rvalue Statement)

/-! ## Types and environments -/

/-- An integer or a boolean with an index over `N`, or nothing. -/
def Ty.Indexed (N : Set Name) : Ty → Prop
  | .refine bty e => bty.isScalar = true ∧ e.BoundIn N
  | .uninit => True
  | .exists_ _ _ | .strgRef _ | .ref _ | .param _ => False

/-- At a join point, the index may be any that an unknown predicate allows. -/
def Ty.Joined (N : Set Name) : Ty → Prop
  | .refine bty e => bty.isScalar = true ∧ e.BoundIn N
  | .exists_ bty (.kvar kvid args) => bty.isScalar = true ∧ (Pred.kvar kvid args).Over N
  | .uninit => True
  | .exists_ _ (.expr _) | .strgRef _ | .ref _ | .param _ => False

/-- **An environment of the locations in `D`**, with types that are `P`. -/
structure TypeEnv.Local (P : Ty → Prop) (D : Set Loc) (env : TypeEnv) : Prop where
  strong : env.AllStrong
  locSet : env.locSet = D
  types : ∀ ⦃loc ty⦄, env.lookupLoc loc = some ty → P ty

section Types

variable {N N' : Set Name} {ty : Ty} {bty : BaseTy}

/-- A scalar base type is over any names. -/
lemma BaseTy.scoped_of_isScalar (h : bty.isScalar = true) : bty.Scoped N := by
  cases bty with
  | adt did substs => cases h
  | _ => trivial

/-- A scalar base type has no references. -/
lemma BaseTy.refFree_of_isScalar (h : bty.isScalar = true) : bty.RefFree := by
  cases bty with
  | adt did substs => cases h
  | _ => trivial

/-- An indexed type is a joined one. -/
lemma Ty.Indexed.joined (h : ty.Indexed N) : ty.Joined N := by
  cases ty with
  | refine bty e => exact h
  | uninit => trivial
  | _ => exact h.elim

/-- An indexed type over some names is one over more. -/
lemma Ty.Indexed.mono (hN : N ⊆ N') (h : ty.Indexed N) : ty.Indexed N' := by
  cases ty with
  | refine bty e => exact ⟨h.1, h.2.mono hN⟩
  | uninit => trivial
  | _ => exact h.elim

/-- A joined type over some names is one over more. -/
lemma Ty.Joined.mono (hN : N ⊆ N') (h : ty.Joined N) : ty.Joined N' := by
  cases ty with
  | refine bty e => exact ⟨h.1, h.2.mono hN⟩
  | exists_ bty p =>
    cases p with
    | kvar kvid args => exact ⟨h.1, h.2.mono hN⟩
    | expr e => exact h.elim
  | uninit => trivial
  | _ => exact h.elim

/-- A joined type is stable. -/
lemma Ty.Joined.stable (h : ty.Joined N) : ty.Stable N := by
  cases ty with
  | refine bty e =>
    exact ⟨⟨BaseTy.scoped_of_isScalar h.1, h.2⟩, BaseTy.refFree_of_isScalar h.1⟩
  | exists_ bty p =>
    cases p with
    | kvar kvid args =>
      exact ⟨⟨BaseTy.scoped_of_isScalar h.1, h.2⟩, BaseTy.refFree_of_isScalar h.1⟩
    | expr e => exact h.elim
  | uninit => exact ⟨trivial, trivial⟩
  | _ => exact h.elim

end Types

namespace TypeEnv

variable {P Q : Ty → Prop} {D : Set Loc} {N : Set Name} {env : TypeEnv} {loc : Loc} {ty : Ty}

/-- Local types with a property have a weaker one. -/
lemma Local.mono (h : env.Local P D) (hPQ : ∀ ty, P ty → Q ty) : env.Local Q D :=
  ⟨h.strong, h.locSet, fun _ _ hty => hPQ _ (h.types hty)⟩

/-- Writing a type with the property at a local keeps the environment local. -/
lemma Local.insertLoc (h : env.Local P D) (hloc : loc ∈ D) (hty : P ty) :
    (env.insertLoc loc ty).Local P D where
  strong := h.strong.insertLoc loc ty
  locSet := by rw [locSet_insertLoc, h.locSet, Set.insert_eq_of_mem hloc]
  types := forall_lookupLoc_insertLoc (P := fun _ ty => P ty) hty fun _ _ _ hty' => h.types hty'

/-- A location with a type is a local. -/
lemma Local.mem (h : env.Local P D) (hty : env.lookupLoc loc = some ty) : loc ∈ D :=
  h.locSet ▸ mem_locSet_of_lookupLoc hty

/-- A local environment of joined types is unpacked. -/
lemma Local.unpacked (h : env.Local (Ty.Joined N) D) : env.Unpacked N :=
  ⟨h.strong, fun _ _ hty => (h.types hty).stable⟩

/-- A local environment of indexed types is one of joined types. -/
lemma Local.joined (h : env.Local (Ty.Indexed N) D) : env.Local (Ty.Joined N) D :=
  h.mono fun _ => Ty.Indexed.joined

end TypeEnv

/-- **An integer or a boolean is unpacked**: it gets an index. -/
lemma Cursor.wp_unpack_scalar (tcx : Tcx) {c : Cursor} {bty : BaseTy} {ty : Ty} (hc : c.Ready)
    (hbty : bty.isScalar = true) (hbase : ty.HasBase bty)
    (hty : ty.Stable (namesBefore c.builder.nameGen)) :
    wp (Cursor.unpack ty) (fun ty' c' => c'.Ready ∧ c.Le c' ∧
      ty'.Indexed (namesBefore c'.builder.nameGen) ∧
      ∀ I ρ S u, c.Assumes I ρ → ty.Has tcx S I ρ u →
        ∃ ρ', Valuation.AgreeOn (namesBefore c.builder.nameGen) ρ ρ' ∧ c'.Assumes I ρ' ∧
          ty'.Has tcx S I ρ' u) (fun _ => True) c := by
  have hindex : wp (Cursor.unpack ty) (fun ty' _ => ∃ e, ty' = .refine bty e) (fun _ => True)
      c := by
    cases hbase with
    | refine e => exact ⟨e, rfl⟩
    | exists_ p =>
      rw [Cursor.unpack, wp_bind, wp_freshName, wp_bind]
      exact wp_of_forall (fun _ _ => ⟨_, rfl⟩) fun _ => trivial
  refine wp_mono (wp_and (wp_unpack_ready tcx hc hty) hindex) (fun ty' c' h => ?_)
    fun _ _ => trivial
  obtain ⟨⟨hc', hle, hstable, hvalue⟩, e, rfl⟩ := h
  exact ⟨hc', hle, ⟨hbty, hstable.names.2⟩, hvalue⟩

/-! ## Operands -/

namespace Checker

variable {D : Set Loc} {N : Set Name} {env : TypeEnv}

/-- Operands are indexed, and the locations stay. -/
lemma checkOperand_local (h : env.Local (Ty.Indexed N) D) (op : Operand) :
    post (checkOperand env op) (fun r => r.1.Local (Ty.Indexed N) D ∧ r.2.Indexed N)
      (fun _ => True) := by
  cases op with
  | constant c => cases c <;> exact ⟨h, rfl, trivial⟩
  | copy p =>
    rw [checkOperand, TypeEnv.lookupPlace, post_bind, post_bind]
    cases hwalk : env.walkPlace p with
    | error f => trivial
    | ok r =>
      obtain ⟨ty, hty, hproj⟩ := TypeEnv.walkPlace_eq_ok.mp hwalk
      exact ⟨h, h.types (TypeEnv.lookupLoc_of_walkProjection hty hproj)⟩
  | move p =>
    rw [checkOperand, TypeEnv.movePlace]
    split
    · rw [post_bind, post_orError]
      exact ⟨fun ty hty => ⟨h.insertLoc (h.mem hty) trivial, h.types hty⟩, fun _ => trivial⟩
    · trivial

/-- The operands of a call keep the environment of indexed types. -/
lemma checkOperands_local (h : env.Local (Ty.Indexed N) D) (ops : List Operand) :
    post (checkOperands env ops)
      (fun r => r.1.Local (Ty.Indexed N) D ∧ ∀ ty ∈ r.2, ty.Indexed N) (fun _ => True) := by
  induction ops generalizing env with
  | nil => exact ⟨h, List.forall_mem_nil _⟩
  | cons op ops ih =>
    rw [checkOperands, post_bind]
    refine post_mono (checkOperand_local h op) (fun r hr => ?_) fun _ h => h
    obtain ⟨henv, hty⟩ := hr
    rw [post_bind]
    exact post_mono (ih henv)
      (fun r' hr' => ⟨hr'.1, List.forall_mem_cons.mpr ⟨hty, hr'.2⟩⟩) fun _ h => h

end Checker

/-! ## Operations -/

/-- The division of the constraint is that of the program, where the rvalue divides. -/
def Interp.Computes (I : Interp) : Rvalue → Prop
  | .binaryOp op _ _ => op = .div → ∀ m n : ℤ, n ≠ 0 → I.div m n = m.tdiv n
  | .use _ | .mutRef _ | .unaryOp _ _ => True

/-- Rvalues that take no reference. -/
def RefFreeRvalue : Rvalue → Prop
  | .mutRef _ => False
  | .use _ | .binaryOp _ _ _ | .unaryOp _ _ => True

namespace Checker

variable {tcx : Tcx} {I : Interp} {ρ : Valuation} {S : Store} {bty : BaseTy} {e e1 e2 : Expr}
  {u u1 u2 : Value}

/-- The values of an integer type. -/
lemma has_integral {ty : IntegralTy} (h : (Ty.refine ty.baseTy e).Has tcx S I ρ u) :
    ∃ n : ℤ, u = .int n ∧ e.eval I.div ρ = some (.int n) := by
  obtain ⟨hbty, v, hv, he⟩ := h
  cases ty <;> cases u <;>
    first | exact hbty.elim | (obtain rfl := Option.some.inj hv; exact ⟨_, rfl, he⟩)

/-- A value of an indexed Boolean is what the index evaluates to. -/
lemma has_bool (h : (Ty.refine .bool e).Has tcx S I ρ u) :
    ∃ b, u = .bool b ∧ e.eval I.div ρ = some (.bool b) := by
  obtain ⟨hbty, v, hv, he⟩ := h
  cases u with
  | bool b =>
    obtain rfl := Option.some.inj hv
    exact ⟨b, rfl, he⟩
  | _ => exact hbty.elim

/-- What the index of an integer evaluates to is a value of the type. -/
lemma has_int_of_eval {ty : IntegralTy} {n : ℤ} (he : e.eval I.div ρ = some (.int n)) :
    (Ty.refine ty.baseTy e).Has tcx S I ρ (.int n) := by
  cases ty <;> exact ⟨trivial, .int n, rfl, he⟩

/-- The same for a Boolean. -/
lemma has_bool_of_eval {b : Bool} (he : e.eval I.div ρ = some (.bool b)) :
    (Ty.refine .bool e).Has tcx S I ρ (.bool b) :=
  ⟨trivial, .bool b, rfl, he⟩

/-- **An operation on two integers** has a value of its type. -/
lemma exists_intOp (op : Core.Ir.BinOp) {ty : IntegralTy} {m n : ℤ}
    (h1 : e1.eval I.div ρ = some (.int m)) (h2 : e2.eval I.div ρ = some (.int n))
    (hpre : Precondition op e2 I ρ)
    (hdiv : op = .div → ∀ m n : ℤ, n ≠ 0 → I.div m n = m.tdiv n) :
    ∃ u, Value.intOp op m n = some u ∧
      (Ty.refine (resultTy op ty.baseTy) (.binaryOp (indexOp op) e1 e2)).Has tcx S I ρ u := by
  have heval : (Expr.binaryOp (indexOp op) e1 e2).eval I.div ρ =
      (indexOp op).eval I.div (.int m) (.int n) := by
    rw [Expr.eval, h1, h2]
    rfl
  cases op with
  | gt | lt | le | eq | ne => exact ⟨_, rfl, has_bool_of_eval heval⟩
  | add | sub | mul => exact ⟨_, rfl, has_int_of_eval heval⟩
  | div =>
    have hne : n ≠ 0 := by
      have hholds := hpre rfl
      rw [Expr.Holds, Expr.eval, h2] at hholds
      have hn : decide (n ≠ 0) = true := by
        injection hholds with hholds
        injection hholds
      simpa using hn
    refine ⟨.int (m.tdiv n), if_neg hne, has_int_of_eval (heval.trans ?_)⟩
    rw [← hdiv rfl m n hne]
    rfl

/-- **A binary operation** that is checked has a value of its type. -/
lemma exists_binaryOp {op : Core.Ir.BinOp} (hbty : bty.isScalar = true)
    (hop : op = .eq ∨ op = .ne ∨ ∃ ty : IntegralTy, bty = ty.baseTy)
    (h1 : (Ty.refine bty e1).Has tcx S I ρ u1) (h2 : (Ty.refine bty e2).Has tcx S I ρ u2)
    (hpre : Precondition op e2 I ρ)
    (hdiv : op = .div → ∀ m n : ℤ, n ≠ 0 → I.div m n = m.tdiv n) :
    ∃ u, u1.binaryOp op u2 = some u ∧
      (Ty.refine (resultTy op bty) (.binaryOp (indexOp op) e1 e2)).Has tcx S I ρ u := by
  have hint : ∀ ty : IntegralTy, bty = ty.baseTy → ∃ u, u1.binaryOp op u2 = some u ∧
      (Ty.refine (resultTy op bty) (.binaryOp (indexOp op) e1 e2)).Has tcx S I ρ u := by
    rintro ty rfl
    obtain ⟨m, rfl, he1⟩ := has_integral h1
    obtain ⟨n, rfl, he2⟩ := has_integral h2
    exact exists_intOp op he1 he2 hpre hdiv
  cases bty with
  | int int_ty => exact hint (.int int_ty) rfl
  | uint uint_ty => exact hint (.uint uint_ty) rfl
  | adt did substs => cases hbty
  | bool =>
    obtain ⟨a, rfl, he1⟩ := has_bool h1
    obtain ⟨b, rfl, he2⟩ := has_bool h2
    have heval : (Expr.binaryOp (indexOp op) e1 e2).eval I.div ρ =
        (indexOp op).eval I.div (.bool a) (.bool b) := by
      rw [Expr.eval, he1, he2]
      rfl
    rcases hop with rfl | rfl | ⟨ty, hty⟩
    · exact ⟨_, rfl, has_bool_of_eval (heval.trans (by cases a <;> cases b <;> rfl))⟩
    · exact ⟨_, rfl, has_bool_of_eval (heval.trans (by cases a <;> cases b <;> rfl))⟩
    · cases ty <;> cases hty

variable {D : Set Loc} {N : Set Name} {c : Cursor} {env : TypeEnv} {ty ty1 ty2 : Ty}

/-- Binary operations have an integer or a boolean with an index. -/
lemma proves_checkBinaryOp (tcx : Tcx) (hc : c.Valid) (h1 : ty1.Indexed N) (h2 : ty2.Indexed N)
    (op : Core.Ir.BinOp) :
    c.Proves (Ty.Indexed N)
      (fun I ρ ty => (op = .div → ∀ m n : ℤ, n ≠ 0 → I.div m n = m.tdiv n) →
        ∀ S u1 u2, ty1.Has tcx S I ρ u1 → ty2.Has tcx S I ρ u2 →
          ∃ u, u1.binaryOp op u2 = some u ∧ ty.Has tcx S I ρ u)
      (checkBinaryOp op ty1 ty2) := by
  cases ty1 with
  | refine bty1 e1 =>
    cases ty2 with
    | refine bty2 e2 =>
      refine wp_mono (wp_checkBinaryOp hc) (fun ty c' h => ?_) fun _ _ => trivial
      obtain ⟨rfl, rfl, hop, nodes, happ, hnodes⟩ := h
      refine ⟨nodes, happ, ⟨?_, h1.2, h2.2⟩, fun I ρ hall hdiv S u1 u2 hu1 hu2 => ?_⟩
      · cases op with
        | gt | lt | le | eq | ne => rfl
        | _ => exact h1.1
      · exact exists_binaryOp h1.1 hop hu1 hu2 ((hnodes I ρ).mp hall) hdiv
    | uninit => cases op <;> cases bty1 <;> trivial
    | _ => exact h2.elim
  | uninit => cases op <;> trivial
  | _ => exact h1.elim

/-- Unary operations too. -/
lemma proves_checkUnaryOp (tcx : Tcx) (hc : c.Valid) (h : ty.Indexed N) (op : Core.Ir.UnOp) :
    c.Proves (Ty.Indexed N)
      (fun I ρ ty' => ∀ S u, ty.Has tcx S I ρ u →
        ∃ u', u.unaryOp op = some u' ∧ ty'.Has tcx S I ρ u')
      (checkUnaryOp op ty) := by
  unfold checkUnaryOp
  split
  · next e =>
    refine .pure hc ⟨rfl, h.2⟩ fun I ρ S u hu => ?_
    obtain ⟨b, rfl, he⟩ := has_bool hu
    exact ⟨_, rfl, has_bool_of_eval (by simp [Expr.not, Expr.eval, he, Fixpoint.UnOp.eval])⟩
  · next int_ty e =>
    refine .pure hc ⟨rfl, h.2⟩ fun I ρ S u hu => ?_
    have hu : (Ty.refine (IntegralTy.int int_ty).baseTy e).Has tcx S I ρ u := hu
    obtain ⟨n, rfl, he⟩ := has_integral hu
    refine ⟨.int (-n), rfl, ?_⟩
    show (Ty.refine (IntegralTy.int int_ty).baseTy e.neg).Has tcx S I ρ (.int (-n))
    exact has_int_of_eval (by simp [Expr.neg, Expr.eval, he, Fixpoint.UnOp.eval])
  · trivial

/-- An operand is looked up, and has a value of its type. -/
lemma proves_checkOperand (tcx : Tcx) {α : Type} {G : α → Prop} {Q : Interp → Valuation → α → Prop}
    {k : TypeEnv × Ty → CursorM α} {op : Operand} (henv : env.Local (Ty.Indexed N) D)
    (hk : ∀ env' ty, env'.Local (Ty.Indexed N) D → ty.Indexed N →
      c.Proves G (fun I ρ a => (∀ S, env.Inhabits tcx I ρ S → env'.Inhabits tcx I ρ S ∧
        ∃ u, S.operand op = some u ∧ ty.Has tcx S I ρ u) → Q I ρ a) (k (env', ty))) :
    c.Proves G Q (ofExcept (checkOperand env op) >>= k) := by
  refine .ofExcept fun r hr => ?_
  have hlocal := checkOperand_local henv op
  rw [hr] at hlocal
  refine (hk r.1 r.2 hlocal.1 hlocal.2).mono (fun _ h => h) fun I ρ a _ h => h fun S hS => ?_
  have hvalue := checkOperand_inhabits hS op
  rw [hr] at hvalue
  exact hvalue

/-- **An rvalue** has a value of its type. -/
lemma proves_checkRvalue (tcx : Tcx) (hc : c.Valid) (henv : env.Local (Ty.Indexed N) D)
    {rvalue : Rvalue} (hfree : RefFreeRvalue rvalue) :
    c.Proves (fun r => r.1.Local (Ty.Indexed N) D ∧ r.2.Indexed N)
      (fun I ρ r => I.Computes rvalue → ∀ S, env.Inhabits tcx I ρ S →
        r.1.Inhabits tcx I ρ S ∧ ∃ u, S.rvalue rvalue = some u ∧ r.2.Has tcx S I ρ u)
      (checkRvalue env rvalue) := by
  cases rvalue with
  | use operand =>
    rw [checkRvalue, ← bind_pure (ofExcept _)]
    refine proves_checkOperand tcx henv fun env' ty henv' hty => ?_
    exact .pure hc ⟨henv', hty⟩ fun I ρ h _ S hS => h S hS
  | binaryOp op op1 op2 =>
    refine proves_checkOperand tcx henv fun env₁ ty1 henv₁ hty1 => ?_
    refine proves_checkOperand tcx henv₁ fun env₂ ty2 henv₂ hty2 => ?_
    refine (proves_checkBinaryOp tcx hc hty1 hty2 op).bind fun ty c' hc' _ hty => ?_
    refine .pure hc' ⟨henv₂, hty⟩ fun I ρ hvalue h2 h1 hdiv S hS => ?_
    obtain ⟨hS₁, u1, hu1, hhas1⟩ := h1 S hS
    obtain ⟨hS₂, u2, hu2, hhas2⟩ := h2 S hS₁
    obtain ⟨u, hu, hhas⟩ := hvalue hdiv S u1 u2 hhas1 hhas2
    exact ⟨hS₂, u, by simp [Store.rvalue, hu1, hu2, hu], hhas⟩
  | unaryOp op operand =>
    refine proves_checkOperand tcx henv fun env₁ ty1 henv₁ hty1 => ?_
    refine (proves_checkUnaryOp tcx hc hty1 op).bind fun ty c' hc' _ hty => ?_
    refine .pure hc' ⟨henv₁, hty⟩ fun I ρ hvalue h1 _ S hS => ?_
    obtain ⟨hS₁, u1, hu1, hhas1⟩ := h1 S hS
    obtain ⟨u, hu, hhas⟩ := hvalue S u1 hhas1
    exact ⟨hS₁, u, by simp [Store.rvalue, hu1, hu], hhas⟩
  | mutRef place => exact hfree.elim

/-! ## Statements -/

/-- Statements that take no reference. -/
def RefFreeStatement : Statement → Prop
  | .assign _ rvalue => RefFreeRvalue rvalue
  | .nop => True

/-- The division of the constraint is that of the program, where the statement divides. -/
def ComputesStatement (I : Interp) : Statement → Prop
  | .assign _ rvalue => I.Computes rvalue
  | .nop => True

/-- **Statements are sound**: a statement that is checked can be executed, and leads to a store of
the environment that it leaves. -/
theorem proves_checkStatement (tcx : Tcx) (hc : c.Valid) (henv : env.Local (Ty.Indexed N) D)
    {stmt : Statement} (hfree : RefFreeStatement stmt) :
    c.Proves (TypeEnv.Local (Ty.Indexed N) D)
      (fun I ρ env' => ComputesStatement I stmt → ∀ S, env.Inhabits tcx I ρ S →
        ∃ S', S.exec stmt = some S' ∧ env'.Inhabits tcx I ρ S')
      (checkStatement tcx env stmt) := by
  cases stmt with
  | nop => exact .pure hc henv fun I ρ _ S hS => ⟨S, rfl, hS⟩
  | assign p rvalue =>
    refine (proves_checkRvalue tcx hc henv hfree).bind fun r c' hc' _ hr => ?_
    obtain ⟨env₁, ty⟩ := r
    obtain ⟨henv₁, hty⟩ := hr
    refine wp_imp (wp_writePlace_strong henv₁.strong) fun env' c'' hwrite => ?_
    obtain ⟨rfl, loc, ty₀, hwalk, rfl⟩ := hwrite
    obtain ⟨ty₁, hty₁, hproj⟩ := TypeEnv.walkPlace_eq_ok.mp hwalk
    have hloc := henv₁.mem (TypeEnv.lookupLoc_of_walkProjection hty₁ hproj)
    refine ⟨[], .nil hc', henv₁.insertLoc hloc hty, fun I ρ _ h hcomputes S hS => ?_⟩
    obtain ⟨hS₁, u, hu, hhas⟩ := h hcomputes S hS
    refine ⟨Function.update S loc u, ?_, ?_⟩
    · simp [Store.exec, hu, (hS₁.walkPlace hwalk).1]
    · exact hS₁.update henv₁.joined.unpacked .refl (hty.joined.stable.has_congr .refl _ hhas)

end Checker

/-! ## The names of the variables -/

namespace Cursor.KeepsNamed

variable {tcx : Tcx} {env : TypeEnv}

/-- An assertion keeps the names fresh. -/
lemma assert (b : Bool) : KeepsNamed (Cursor.assert b) :=
  composed.assert b

/-- `check_binary_op` keeps the names fresh. -/
lemma checkBinaryOp (op : Core.Ir.BinOp) (ty1 ty2 : Ty) :
    KeepsNamed (Checker.checkBinaryOp op ty1 ty2) := by
  have harith : ∀ op, KeepsNamed (Checker.checkArithOp op ty1 ty2) := by
    intro op
    have hpush : ∀ p ty, KeepsNamed (do
        if op = .div then Cursor.pushHead p
        Pure.pure ty : CursorM Ty) := by
      intro p ty
      split
      · exact (pushHead p).bind fun _ => pure ty
      · exact pure ty
    unfold Checker.checkArithOp
    split
    · exact (assert _).bind fun _ => hpush _ _
    · exact (assert _).bind fun _ => hpush _ _
    · exact throw _
  have hcmp : ∀ op, KeepsNamed (Checker.checkCmpOp op ty1 ty2) := by
    intro op
    unfold Checker.checkCmpOp
    split
    · exact (assert _).bind fun _ => pure _
    · exact (assert _).bind fun _ => pure _
    · exact throw _
  have heq : ∀ op, KeepsNamed (Checker.checkEq op ty1 ty2) := by
    intro op
    unfold Checker.checkEq
    split
    · exact (assert _).bind fun _ => pure _
    · exact throw _
  cases op with
  | eq | ne => exact heq _
  | add | sub | mul | div => exact harith _
  | gt | lt | le => exact hcmp _

/-- `check_rvalue` keeps the names fresh. -/
lemma checkRvalue (rvalue : Rvalue) : KeepsNamed (Checker.checkRvalue env rvalue) := by
  cases rvalue with
  | use operand => exact ofExcept _
  | binaryOp op op1 op2 =>
    exact (ofExcept _).bind fun r1 => (ofExcept _).bind fun r2 =>
      (checkBinaryOp op _ _).bind fun ty => pure _
  | mutRef place => exact (ofExcept _).bind fun _ => pure _
  | unaryOp op operand =>
    refine (ofExcept _).bind fun r => bind ?_ fun ty => pure _
    unfold Checker.checkUnaryOp
    split
    · exact pure _
    · exact pure _
    · exact throw _

/-- `update_loc` keeps the names fresh. -/
lemma updateLoc (loc : Loc) (new_ty : Ty) : KeepsNamed (env.updateLoc tcx loc new_ty) := by
  refine (orFail _ _).bind fun binding => ?_
  cases binding with
  | strong ty => exact pure _
  | weak bound ty => exact (subtyping tcx new_ty bound).bind fun _ => pure _

/-- `write_place` keeps the names fresh. -/
lemma writePlace (place : Place) (new_ty : Ty) : KeepsNamed (env.writePlace tcx place new_ty) := by
  refine (ofExcept _).bind fun r => ?_
  obtain ⟨loc, ty⟩ := r
  cases ty with
  | ref ty => exact throw _
  | exists_ bty p => exact throw _
  | _ => exact updateLoc loc new_ty

/-- `check_statement` keeps the names fresh. -/
lemma checkStatement (stmt : Statement) : KeepsNamed (Checker.checkStatement tcx env stmt) := by
  cases stmt with
  | assign p rvalue => exact (checkRvalue rvalue).bind fun r => writePlace p r.2
  | nop => exact pure env

end Cursor.KeepsNamed

end LiquidRust.Typeck
