import LiquidRust.Typeck.Executions
import LiquidRust.Typeck.Instantiation
import LiquidRust.Typeck.Transform

set_option relaxedAutoImplicit false
set_option autoImplicit false

/-!
# What signatures say

The meaning of a signature, without the checker: its parameters have values for which the
predicates are true, the arguments are of the types of the signature, and then so is the value that
is returned. This is about signatures over integers and booleans, without locations. A type of the
checker that such a type of a signature is lowered to has the same values.

## Main definitions

* `LiquidRust.Typeck.Instance` — values of the parameters.
* `LiquidRust.Core.Expr.eval`, `LiquidRust.Core.Ty.Has` — the meaning of expressions and types.
* `LiquidRust.Core.FnSig.Scalar` — signatures over integers and booleans.
* `LiquidRust.Core.FnSig.Pre`, `Post` — the contract of a function.
* `LiquidRust.Typeck.Subst.Matches` — what a substitution stands for has the values of an instance.

## Main results

* `LiquidRust.Typeck.Subst.Matches.has_iff` — types are lowered to types with the same values.
-/

namespace LiquidRust.Typeck

/-- The values of the parameters, and of the binder of a predicate. -/
abbrev Instance := Core.Var → Val

/-- The binder gets another value. -/
def Instance.bind (inst : Instance) (v : Val) : Instance :=
  Function.update inst .bound v

/-- The bound variable stands for the value it is bound to. -/
@[simp] lemma Instance.bind_bound (inst : Instance) (v : Val) : inst.bind v .bound = v :=
  Function.update_self ..

/-- Binding a value keeps the free variables. -/
@[simp] lemma Instance.bind_free (inst : Instance) (v : Val) (x : Core.Name) :
    inst.bind v (.free x) = inst (.free x) :=
  Function.update_of_ne (by simp) ..

end LiquidRust.Typeck

namespace LiquidRust.Core

open Typeck (Instance Value Val)

/-! ## The meaning of types -/

/-- The value of a literal. -/
def Lit.eval : Lit → Val
  | int n => .int n
  | bool b => .bool b

/-- The value of an expression. No operator of a signature divides. -/
def Expr.eval (inst : Instance) : Expr → Option Val
  | .var x _ => some (inst x)
  | .literal lit => some lit.eval
  | .binaryOp op e1 e2 => (Typeck.lowerBinOp op).apply Int.tdiv (e1.eval inst) (e2.eval inst)

/-- The expression is true. -/
def Expr.Holds (inst : Instance) (e : Expr) : Prop :=
  e.eval inst = some (.bool true)

/-- Integers and booleans. -/
def BaseTy.isScalar : BaseTy → Bool
  | .int _ | .uint _ | .bool => true
  | .adt _ _ => false

/-- The values of a base type, whatever their index is. -/
def BaseTy.Has : BaseTy → Value → Prop
  | .int _, .int _ | .uint _, .int _ | .bool, .bool _ => True
  | _, _ => False

/-- **The values of a type** of integers or booleans. -/
def Ty.Has (inst : Instance) : Ty → Value → Prop
  | .refine bty e, u => bty.Has u ∧ ∃ v, u.index = some v ∧ e.eval inst = some v
  | .exists_ bty (.expr e), u => bty.Has u ∧ ∃ v, u.index = some v ∧ e.Holds (inst.bind v)
  | .exists_ _ .infer, _ | .mutRef _, _ | .param _, _ => False

/-- The types of integers and booleans in which nothing is left to infer. -/
def Ty.IsScalar : Ty → Prop
  | .refine bty _ | .exists_ bty (.expr _) => bty.isScalar = true
  | .exists_ _ .infer | .mutRef _ | .param _ => False

namespace FnSig

variable (fn_sig : FnSig)

/-- **A signature over integers and booleans**, without locations. -/
structure Scalar : Prop where
  names : fn_sig.Scoped
  sorted : fn_sig.WellSorted
  requires : fn_sig.requires = []
  args : ∀ ty ∈ fn_sig.args, ty.IsScalar
  ret : fn_sig.ret.IsScalar
  ensures : fn_sig.ensures = []

/-- **The precondition** of a function: the parameters have values of their sorts for which their
predicates are true, and the arguments have their types. -/
structure Pre (inst : Instance) (us : List Value) : Prop where
  params : ∀ param ∈ fn_sig.params,
    (inst (.free param.name.name)).sort = param.sort ∧ param.pred.Holds inst
  args : List.Forall₂ (fun ty u => ty.Has inst u) fn_sig.args us

/-- **The postcondition**: the value that is returned has its type. -/
def Post (inst : Instance) (u : Value) : Prop :=
  fn_sig.ret.Has inst u

end FnSig

section

variable {inst inst' : Instance}

/-- Only the variables in scope matter. -/
lemma Expr.eval_congr {S : Var → Prop} {e : Expr} (he : e.ScopedIn S)
    (h : ∀ x, S x → inst x = inst' x) : e.eval inst = e.eval inst' := by
  induction e with
  | var x symbol => exact congrArg some (h x he)
  | literal lit => rfl
  | binaryOp op e1 e2 ih1 ih2 => rw [eval, eval, ih1 he.1, ih2 he.2]

/-- The binder does not matter outside of an existential. -/
lemma Expr.eval_bind {ps : List Name} {e : Expr} (he : e.ScopedIn (FreeIn ps)) (v : Val) :
    e.eval (inst.bind v) = e.eval inst := by
  refine eval_congr he fun x hx => ?_
  cases x with
  | bound => exact hx.elim
  | free x => exact inst.bind_free v x

/-- The index of a value has the sort of its base type. -/
lemma BaseTy.Has.sort {bty : BaseTy} {u : Value} {v : Val} (h : bty.Has u)
    (hv : u.index = some v) : v.sort = bty.sort := by
  cases bty <;> cases u <;> first | exact h.elim | (obtain rfl := Option.some.inj hv; rfl)

/-- A scalar type has no type parameter. -/
lemma Ty.IsScalar.paramFree {ty : Ty} (h : ty.IsScalar) : ty.ParamFree := by
  rcases ty with ⟨bty, e⟩ | ⟨bty, _ | e⟩ | loc | p
  · cases bty with
    | adt did args => cases h
    | _ => trivial
  · exact h.elim
  · cases bty with
    | adt did args => cases h
    | _ => trivial
  · exact h.elim
  · exact h.elim

/-- A scalar signature has no type parameters. -/
lemma FnSig.Scalar.paramFree {fn_sig : FnSig} (h : fn_sig.Scalar) : fn_sig.ParamFree where
  requires := by simp [h.requires]
  args ty hty := (h.args ty hty).paramFree
  ensures := by simp [h.ensures]
  ret := h.ret.paramFree

/-- The sort of a name is that of the last parameter with the name. -/
lemma paramSorts_of_notMem {Γ : Wf.Env} {params : List Param} {x : Name}
    (h : ∀ param ∈ params, param.name.name ≠ x) :
    paramSorts Γ params (.free x) = Γ (.free x) := by
  induction params generalizing Γ with
  | nil => rfl
  | cons param params ih =>
    rw [paramSorts, List.foldl_cons]
    refine (ih fun p hp => h p (.tail _ hp)).trans ?_
    exact Function.update_of_ne (by simpa using (h param (.head _)).symm) ..

/-- **Every parameter has its own sort.** -/
lemma paramSorts_of_mem {Γ : Wf.Env} {ps : List Name} {params : List Param} {param : Param}
    (h : ParamsScoped ps params) (hmem : param ∈ params) :
    paramSorts Γ params (.free param.name.name) = some param.sort := by
  have hnew : ∀ (ps : List Name) (params : List Param), ParamsScoped ps params →
      ∀ p ∈ params, p.name.name ∉ ps := by
    intro ps params h p hp
    induction params generalizing ps with
    | nil => cases hp
    | cons q params ih =>
      rcases List.mem_cons.mp hp with rfl | hp
      · exact h.1
      · exact fun hmem => ih _ h.2.2 hp (.tail _ hmem)
  induction params generalizing Γ ps with
  | nil => cases hmem
  | cons q params ih =>
    rw [paramSorts, List.foldl_cons]
    rcases List.mem_cons.mp hmem with rfl | hmem
    · refine (paramSorts_of_notMem fun p hp heq => ?_).trans (Function.update_self ..)
      exact hnew _ _ h.2.2 p hp (heq ▸ .head _)
    · exact ih h.2.2 hmem

end

end LiquidRust.Core

namespace LiquidRust.Typeck

open Lib
open LiquidRust.Core (FreeIn BoundOrFreeIn)

/-! ## Lowering keeps the meaning -/

/-- The operators of signatures do not divide. -/
lemma apply_lowerBinOp (div div' : ℤ → ℤ → ℤ) (op : Core.BinOp) (a b : Option Val) :
    (lowerBinOp op).apply div a b = (lowerBinOp op).apply div' a b := by
  have h : ∀ a b, (lowerBinOp op).eval div a b = (lowerBinOp op).eval div' a b := by
    intro a b
    cases op <;> cases a <;> cases b <;> rfl
  simp only [Fixpoint.BinOp.apply, h]

/-- A lowered literal has the value of the literal. -/
lemma eval_lowerLit (lit : Core.Lit) : (lowerLit lit).eval = lit.eval := by
  cases lit with
  | int n => exact Fixpoint.Constant.eval_ofI128 n
  | bool b => rfl

namespace Subst

variable {N : Set Name} {subst : Subst} {I : Interp} {ρ ρ' : Valuation} {inst : Instance}

/-- **What the parameters stand for** has the values of an instance. -/
def Matches (subst : Subst) (I : Interp) (ρ : Valuation) (inst : Instance) : Prop :=
  ∀ ⦃x e⦄, subst.exprs x = some e → e.eval I.div ρ = some (inst (.free x))

/-- A match of a substitution holds at every valuation that agrees on its names. -/
lemma Matches.congr (h : subst.Matches I ρ inst) (hs : subst.Closed N)
    (hagree : Valuation.AgreeOn N ρ ρ') : subst.Matches I ρ' inst :=
  fun _ _ he => (Expr.eval_congr (hs he).over hagree).symm.trans (h he)

/-- The binder is none of the parameters. -/
lemma Matches.bind (h : subst.Matches I ρ inst) (hs : subst.Closed N) (v : Val) :
    subst.Matches I (ρ.bind v) (inst.bind v) := by
  intro x e he
  rw [inst.bind_free, ← h he]
  have hfree : ∀ e : Expr, e.BoundIn N → e.eval I.div (ρ.bind v) = e.eval I.div ρ := by
    intro e he
    induction e with
    | var x =>
      cases x with
      | bound => exact he.elim
      | free x => exact congrArg some (ρ.bind_free x v)
    | constant c => rfl
    | binaryOp op e1 e2 ih1 ih2 => rw [Expr.eval, Expr.eval, ih1 he.1, ih2 he.2]
    | unaryOp op e ih => rw [Expr.eval, Expr.eval, ih he]
  exact hfree e (hs he)

/-- **Expressions are lowered** to expressions with the same values. -/
lemma Matches.eval_eq (h : subst.Matches I ρ inst) (hbound : ρ .bound = inst .bound)
    {e : Core.Expr} {e' : Expr} (he : subst.lowerExpr e = .ok e') :
    e'.eval I.div ρ = e.eval inst := by
  induction e generalizing e' with
  | var x symbol =>
    cases x with
    | bound =>
      obtain rfl := Except.ok.inj he
      exact congrArg some hbound
    | free x =>
      rw [lowerExpr, lowerVar] at he
      cases hx : subst.exprs x with
      | none =>
        rw [hx] at he
        cases he
      | some e₀ =>
        rw [hx] at he
        obtain rfl := Except.ok.inj he
        exact h hx
  | literal lit =>
    obtain rfl := Except.ok.inj he
    exact congrArg some (eval_lowerLit lit)
  | binaryOp op e1 e2 ih1 ih2 =>
    obtain ⟨e1', h1, he⟩ := except_bind_eq_ok.mp he
    obtain ⟨e2', h2, he⟩ := except_bind_eq_ok.mp he
    obtain rfl := Except.ok.inj he
    rw [Expr.eval, Core.Expr.eval, ih1 h1, ih2 h2]
    exact apply_lowerBinOp _ _ op _ _

/-- Outside of an existential, whatever the binder is. -/
lemma Matches.eval_eq_of_scoped (h : subst.Matches I ρ inst) {ps : List Core.Name}
    {e : Core.Expr} {e' : Expr} (hscoped : e.ScopedIn (FreeIn ps))
    (he : subst.lowerExpr e = .ok e') : e'.eval I.div ρ = e.eval inst := by
  have h' : subst.Matches I ρ (inst.bind (ρ .bound)) := fun x e₀ he₀ => by
    rw [inst.bind_free]
    exact h he₀
  rw [h'.eval_eq (by simp) he, Core.Expr.eval_bind hscoped]

/-- A scalar base type is lowered to one with the same values. -/
lemma run_lowerBaseTy (subst : Subst) {bty₀ : Core.BaseTy} (h : bty₀.isScalar = true) :
    ∃ bty : BaseTy, bty.isScalar = true ∧ bty.sort = bty₀.sort ∧
      (∀ tcx S I ρ u, bty.Has tcx S I ρ u ↔ bty₀.Has u) ∧
      ∀ c, (subst.lowerBaseTy bty₀).run c = .ok (bty, c) := by
  cases bty₀ with
  | int int_ty =>
    refine ⟨.int int_ty, rfl, rfl, fun _ _ _ _ u => ?_, fun _ => rfl⟩
    cases u <;> exact Iff.rfl
  | uint uint_ty =>
    refine ⟨.uint uint_ty, rfl, rfl, fun _ _ _ _ u => ?_, fun _ => rfl⟩
    cases u <;> exact Iff.rfl
  | bool =>
    refine ⟨.bool, rfl, rfl, fun _ _ _ _ u => ?_, fun _ => rfl⟩
    cases u <;> exact Iff.rfl
  | adt did args => cases h

/-- A scalar base type is instantiated in one way. -/
lemma lowerBaseTy_bind {α : Type} {bty₀ : Core.BaseTy} {bty : BaseTy} {k : BaseTy → CursorM α}
    {c : Cursor} (h : ∀ c, (subst.lowerBaseTy bty₀).run c = .ok (bty, c)) :
    (subst.lowerBaseTy bty₀ >>= k).run c = (k bty).run c := by
  rw [StateT.run_bind, h]
  rfl

/-- What the integers and booleans of a signature are lowered to: base types with the same values,
and what their expressions are lowered to. -/
inductive LowersScalar (subst : Subst) : Core.Ty → Ty → Prop
  | refine {bty₀ : Core.BaseTy} {bty : BaseTy} {e₀ : Core.Expr} {e : Expr} :
      bty.isScalar = true → (∀ tcx S I ρ u, bty.Has tcx S I ρ u ↔ bty₀.Has u) →
      subst.lowerExpr e₀ = .ok e → LowersScalar subst (.refine bty₀ e₀) (.refine bty e)
  | exists_ {bty₀ : Core.BaseTy} {bty : BaseTy} {e₀ : Core.Expr} {e : Expr} :
      bty.isScalar = true → (∀ tcx S I ρ u, bty.Has tcx S I ρ u ↔ bty₀.Has u) →
      subst.lowerExpr e₀ = .ok e →
      LowersScalar subst (.exists_ bty₀ (.expr e₀)) (.exists_ bty (.expr e))

/-- A scalar type is instantiated by lowering it. -/
lemma Instantiates.lowersScalar {ty₀ : Core.Ty} {ty : Ty} (hinst : subst.Instantiates ty₀ ty)
    (hscalar : ty₀.IsScalar) : subst.LowersScalar ty₀ ty := by
  have hrun := hinst ConstraintBuilder.new.asCursor
  rcases ty₀ with ⟨bty₀, e⟩ | ⟨bty₀, _ | e⟩ | loc | p
  · obtain ⟨bty, hbty, -, hhas, hlower⟩ := run_lowerBaseTy subst hscalar
    rw [lowerTy, lowerBaseTy_bind hlower] at hrun
    cases he : subst.lowerExpr e with
    | error f =>
      rw [he] at hrun
      cases hrun
    | ok e' =>
      rw [he] at hrun
      cases hrun
      exact .refine hbty hhas he
  · exact hscalar.elim
  · obtain ⟨bty, hbty, -, hhas, hlower⟩ := run_lowerBaseTy subst hscalar
    rw [lowerTy] at hrun
    cases he : subst.lowerExpr e with
    | error f =>
      rw [he] at hrun
      cases hrun
    | ok e' =>
      rw [he] at hrun
      change (subst.lowerBaseTy bty₀ >>= fun bty => pure (Ty.exists_ bty (.expr e'))).run _ = _
        at hrun
      rw [lowerBaseTy_bind hlower] at hrun
      cases hrun
      exact .exists_ hbty hhas he
  · exact hscalar.elim
  · exact hscalar.elim

/-- **A type of a signature is lowered** to one with the same values. -/
theorem Matches.has_iff (h : subst.Matches I ρ inst) (hs : subst.Closed N) (tcx : Tcx)
    (S : Store) {ps locs : List Core.Name} {ty₀ : Core.Ty} {ty : Ty} (hscalar : ty₀.IsScalar)
    (hscoped : ty₀.Scoped ps locs) (hinst : subst.Instantiates ty₀ ty) (u : Value) :
    ty.Has tcx S I ρ u ↔ ty₀.Has inst u := by
  cases hinst.lowersScalar hscalar with
  | refine _ hhas he => rw [Ty.Has, Core.Ty.Has, hhas, h.eval_eq_of_scoped hscoped.2 he]
  | @exists_ _ _ e₀ e _ hhas he =>
    have hpred : ∀ v, (Pred.expr e).Holds I (ρ.bind v) ↔ e₀.Holds (inst.bind v) := by
      intro v
      rw [Pred.Holds, Expr.Holds, (h.bind hs v).eval_eq (by simp) he]
      rfl
    simp only [Ty.Has, Core.Ty.Has, hhas, hpred]

/-- A type of a signature is lowered to an integer or a boolean. -/
lemma Instantiates.hasBase {ty₀ : Core.Ty} {ty : Ty} (hinst : subst.Instantiates ty₀ ty)
    (hscalar : ty₀.IsScalar) : ∃ bty : BaseTy, bty.isScalar = true ∧ ty.HasBase bty := by
  cases hinst.lowersScalar hscalar with
  | @refine _ bty _ e hbty => exact ⟨bty, hbty, .refine e⟩
  | @exists_ _ bty _ e hbty => exact ⟨bty, hbty, .exists_ (.expr e)⟩

end Subst

end LiquidRust.Typeck
