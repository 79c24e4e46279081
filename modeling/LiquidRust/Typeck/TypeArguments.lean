import LiquidRust.Lib.TwoRuns
import LiquidRust.Typeck.LoweringInv

set_option relaxedAutoImplicit false
set_option autoImplicit false

/-!
# The type arguments of a call

The types that a call gives to the type parameters of a function are lowered one after the other,
each with the substitution of those before it. So a type parameter of the caller is taken for one
of the callee if its index is that of an earlier argument.

## Main definitions

* `LiquidRust.Typeck.Ty.eraseKvars` — a type up to the choice of its unknown predicates.
* `LiquidRust.Typeck.Subst.LowersIndependently` — every argument is lowered on its own.

## Main results

* `LiquidRust.Typeck.Subst.lowersIndependently_iff` — when the arguments are.
* `LiquidRust.Typeck.Subst.not_lowersIndependently` — an argument that replaces another one.
-/

namespace LiquidRust.Typeck

open Lib Cursor

/-! ## Types up to their unknown predicates -/

/-- An unknown predicate becomes one that is the same for all. -/
def Pred.eraseKvars : Pred → Pred
  | .kvar _ _ => .kvar 0 []
  | .expr e => .expr e

mutual

/-- The type with one unknown predicate in the place of all. -/
def Ty.eraseKvars : Ty → Ty
  | .refine bty e => .refine bty.eraseKvars e
  | .exists_ bty p => .exists_ bty.eraseKvars p.eraseKvars
  | .uninit => .uninit
  | .strgRef loc => .strgRef loc
  | .ref ty => .ref ty.eraseKvars
  | .param p => .param p

/-- The same for base types. -/
def BaseTy.eraseKvars : BaseTy → BaseTy
  | .adt did substs => .adt did substs.eraseKvars
  | .int int_ty => .int int_ty
  | .uint uint_ty => .uint uint_ty
  | .bool => .bool

/-- The same for type arguments. -/
def Substs.eraseKvars : Substs → Substs
  | .nil => .nil
  | .cons ty substs => .cons ty.eraseKvars substs.eraseKvars

end

/-- Only a type parameter erases to it. -/
lemma Ty.eraseKvars_eq_param {ty : Ty} {p : ParamTy} :
    ty.eraseKvars = .param p ↔ ty = .param p := by
  cases ty <;> simp [Ty.eraseKvars]

end LiquidRust.Typeck

namespace LiquidRust.Core

/-! ## Type parameters -/

mutual

/-- The type parameters in a type. -/
def Ty.typeParams : Ty → List ParamTy
  | .refine bty _ | .exists_ bty _ => bty.typeParams
  | .mutRef _ => []
  | .param p => [p]

/-- The type parameters in a base type. -/
def BaseTy.typeParams : BaseTy → List ParamTy
  | .adt _ args => typeParamsOf args
  | .int _ | .uint _ | .bool => []

/-- The type parameters in types. -/
def typeParamsOf : List Ty → List ParamTy
  | [] => []
  | ty :: tys => ty.typeParams ++ typeParamsOf tys

end

end LiquidRust.Core

namespace LiquidRust.Typeck

open Lib Cursor

namespace Subst

variable {subst1 subst2 : Subst} {c c1 c2 : Cursor}

/-- What a type parameter stands for. -/
def paramTy (subst : Subst) (p : ParamTy) : Ty :=
  subst.types[p.index]?.getD (.param p)

/-- The substitutions differ only in the types of type parameters. -/
structure SameNames (subst1 subst2 : Subst) : Prop where
  exprs : subst1.exprs = subst2.exprs
  locations : subst1.locations = subst2.locations

/-- Lowering an expression depends only on the names. -/
lemma SameNames.lowerExpr (h : SameNames subst1 subst2) (e : Core.Expr) :
    subst1.lowerExpr e = subst2.lowerExpr e := by
  induction e with
  | var x symbol => cases x <;> simp [Subst.lowerExpr, lowerVar, h.exprs]
  | literal lit => rfl
  | binaryOp op e1 e2 ih1 ih2 => rw [Subst.lowerExpr, Subst.lowerExpr, ih1, ih2]

/-- A new unknown predicate. -/
lemma wp_freshKvar_erase (sort : Srt) :
    wp (freshKvar sort) (fun p _ => p.eraseKvars = .kvar 0 []) (fun _ => True) c := by
  rw [freshKvar, wp_bind, wp_get, freshKvarAtScope, wp_bind, wp_get, wp_bind, wp_orFail]
  exact ⟨fun _ _ => rfl, fun _ => trivial⟩

/-- The substitutions have the same types for the parameters, up to unknown predicates. -/
def SameParams (subst1 subst2 : Subst) (ps : List ParamTy) : Prop :=
  ∀ p ∈ ps, (subst1.paramTy p).eraseKvars = (subst2.paramTy p).eraseKvars

mutual

/-- **Two lowerings of a type** have the same result, up to unknown predicates, iff its type
parameters stand for the same. -/
lemma both_lowerTy (h : SameNames subst1 subst2) (c1 c2 : Cursor) : ∀ ty : Core.Ty,
    both (fun _ => True) (subst1.lowerTy ty) (subst2.lowerTy ty)
      (fun ty1 _ ty2 _ => ty1.eraseKvars = ty2.eraseKvars ↔ SameParams subst1 subst2 ty.typeParams)
      c1 c2
  | .refine bty e => by
    rw [lowerTy, lowerTy]
    refine both_bind_any (both_imp (both_lowerBaseTy h c1 c2 bty) ?_)
    intro bty1 c1' bty2 c2' _ hbty
    rw [h.lowerExpr e]
    cases subst2.lowerExpr e with
    | error f => exact both_bind_any both_throw_right
    | ok e' =>
      refine both_bind_any (both_pure fun _ => both_pure fun _ => ?_)
      rw [Ty.eraseKvars, Ty.eraseKvars, Ty.refine.injEq, and_iff_left rfl]
      exact hbty
  | .exists_ bty .infer => by
    rw [lowerTy, lowerTy]
    refine both_bind_any (both_imp (both_of_wp (wp_freshKvar_erase bty.sort)
      (wp_freshKvar_erase bty.sort)) ?_)
    rintro p1 c1' p2 c2' - ⟨hp1, hp2⟩
    refine both_bind_any (both_imp (both_lowerBaseTy h c1' c2' bty) ?_)
    intro bty1 _ bty2 _ _ hbty
    refine both_pure fun _ => ?_
    rw [Ty.eraseKvars, Ty.eraseKvars, Ty.exists_.injEq, hp1, hp2, and_iff_left rfl]
    exact hbty
  | .exists_ bty (.expr e) => by
    rw [lowerTy, lowerTy, h.lowerExpr e]
    cases subst2.lowerExpr e with
    | error f => exact both_bind_any both_throw_right
    | ok e' =>
      refine both_bind_any (both_pure fun _ => both_bind_any ?_)
      refine both_imp (both_lowerBaseTy h c1 c2 bty) ?_
      intro bty1 _ bty2 _ _ hbty
      refine both_pure fun _ => ?_
      rw [Ty.eraseKvars, Ty.eraseKvars, Ty.exists_.injEq, and_iff_left rfl]
      exact hbty
  | .mutRef loc => by
    rw [lowerTy, lowerTy, h.locations]
    cases subst2.locations loc with
    | none => exact both_bind_any both_throw_right
    | some l =>
      refine both_bind_any (both_pure fun _ => both_pure fun _ => ?_)
      exact iff_of_true rfl fun p hp => nomatch hp
  | .param p => by
    rw [lowerTy, lowerTy]
    refine both_pure fun _ => ?_
    rw [SameParams, Core.Ty.typeParams, List.forall_mem_singleton]
    exact Iff.rfl

/-- Two substitutions lower a base type alike iff they agree on its parameters. -/
lemma both_lowerBaseTy (h : SameNames subst1 subst2) (c1 c2 : Cursor) : ∀ bty : Core.BaseTy,
    both (fun _ => True) (subst1.lowerBaseTy bty) (subst2.lowerBaseTy bty)
      (fun bty1 _ bty2 _ => bty1.eraseKvars = bty2.eraseKvars ↔
        SameParams subst1 subst2 bty.typeParams) c1 c2
  | .int _ | .uint _ | .bool => by
    rw [lowerBaseTy, lowerBaseTy]
    exact both_pure fun _ => iff_of_true rfl fun p hp => nomatch hp
  | .adt did args => by
    rw [lowerBaseTy, lowerBaseTy]
    refine both_bind_any (both_imp (both_lowerTys h c1 c2 args) ?_)
    intro substs1 _ substs2 _ _ hargs
    refine both_pure fun _ => ?_
    rw [BaseTy.eraseKvars, BaseTy.eraseKvars, BaseTy.adt.injEq, and_iff_right rfl]
    exact hargs

/-- The same for type arguments. -/
lemma both_lowerTys (h : SameNames subst1 subst2) (c1 c2 : Cursor) : ∀ tys : List Core.Ty,
    both (fun _ => True) (subst1.lowerTys tys) (subst2.lowerTys tys)
      (fun substs1 _ substs2 _ => substs1.eraseKvars = substs2.eraseKvars ↔
        SameParams subst1 subst2 (Core.typeParamsOf tys)) c1 c2
  | [] => by
    rw [lowerTys, lowerTys]
    exact both_pure fun _ => iff_of_true rfl fun p hp => nomatch hp
  | ty :: tys => by
    rw [lowerTys, lowerTys]
    refine both_bind_any (both_imp (both_lowerTy h c1 c2 ty) ?_)
    intro ty1 c1' ty2 c2' _ hty
    refine both_bind_any (both_imp (both_lowerTys h c1' c2' tys) ?_)
    intro tys1 _ tys2 _ _ htys
    refine both_pure fun _ => ?_
    rw [Substs.eraseKvars, Substs.eraseKvars, Substs.cons.injEq, hty, htys, Core.typeParamsOf]
    exact List.forall_mem_append.symm

end

mutual

/-- A lowering does not fail for what type parameters stand for. -/
lemma follows_lowerTy (h : SameNames subst1 subst2) : ∀ ty : Core.Ty,
    Follows (subst2.lowerTy ty) (subst1.lowerTy ty)
  | .refine bty e => by
    rw [lowerTy, lowerTy, h.lowerExpr e]
    exact (follows_lowerBaseTy h bty).bind fun _ _ => (Follows.refl _).bind fun _ _ => .pure _ _
  | .exists_ bty .infer => by
    rw [lowerTy, lowerTy]
    exact (Follows.refl _).bind fun _ _ => (follows_lowerBaseTy h bty).bind fun _ _ => .pure _ _
  | .exists_ bty (.expr e) => by
    rw [lowerTy, lowerTy, h.lowerExpr e]
    exact (Follows.refl _).bind fun _ _ => (follows_lowerBaseTy h bty).bind fun _ _ => .pure _ _
  | .mutRef loc => by
    rw [lowerTy, lowerTy, h.locations]
    exact .refl _
  | .param p => by
    rw [lowerTy, lowerTy]
    exact .pure _ _

/-- Lowering a base type completes under one if it does under the other. -/
lemma follows_lowerBaseTy (h : SameNames subst1 subst2) : ∀ bty : Core.BaseTy,
    Follows (subst2.lowerBaseTy bty) (subst1.lowerBaseTy bty)
  | .int _ | .uint _ | .bool => by
    rw [lowerBaseTy, lowerBaseTy]
    exact .pure _ _
  | .adt did args => by
    rw [lowerBaseTy, lowerBaseTy]
    exact (follows_lowerTys h args).bind fun _ _ => .pure _ _

/-- The same for type arguments. -/
lemma follows_lowerTys (h : SameNames subst1 subst2) : ∀ tys : List Core.Ty,
    Follows (subst2.lowerTys tys) (subst1.lowerTys tys)
  | [] => by
    rw [lowerTys, lowerTys]
    exact .pure _ _
  | ty :: tys => by
    rw [lowerTys, lowerTys]
    exact (follows_lowerTy h ty).bind fun _ _ => (follows_lowerTys h tys).bind fun _ _ => .pure _ _

end

/-! ## One argument after the other -/

/-- The substitution after the first `i` of the types. -/
def takeTypes (subst : Subst) (i : ℕ) : Subst :=
  { withEmptyTypeSubsts with types := subst.types.take i }

/-- Taking some of the type arguments keeps the names. -/
lemma sameNames_takeTypes (subst : Subst) (i : ℕ) :
    SameNames (subst.takeTypes i) withEmptyTypeSubsts :=
  ⟨rfl, rfl⟩

/-- Every type was lowered with the types before it. -/
structure LowersInOrder (types : List Core.Ty) (subst : Subst) : Prop where
  exprs : subst.exprs = withEmptyTypeSubsts.exprs
  locations : subst.locations = withEmptyTypeSubsts.locations
  length : subst.types.length = types.length
  lowers : ∀ ⦃i ty⦄, types[i]? = some ty → ∃ ty' c c', subst.types[i]? = some ty' ∧
    ((subst.takeTypes i).lowerTy ty).run c = .ok (ty', c')

/-- **`withTypeSubsts` lowers every type with the types before it.** -/
lemma wp_withTypeSubsts_inOrder (types : List Core.Ty) :
    wp (withTypeSubsts types) (fun subst _ => LowersInOrder types subst) (fun _ => True) c := by
  refine wp_foldlM_done (I := fun done subst _ => LowersInOrder done subst) ?_
    ⟨rfl, rfl, rfl, fun i ty h => nomatch h⟩
  rintro done ty rest - ⟨locations, exprs, tys⟩ c ⟨hexprs, hlocations, hlength, hlowers⟩
  obtain rfl : exprs = _ := hexprs
  obtain rfl : locations = _ := hlocations
  have hlength' : tys.length = done.length := hlength
  have htake : ∀ ty' i, i ≤ done.length →
      takeTypes ⟨withEmptyTypeSubsts.locations, withEmptyTypeSubsts.exprs, tys ++ [ty']⟩ i =
        takeTypes ⟨withEmptyTypeSubsts.locations, withEmptyTypeSubsts.exprs, tys⟩ i := by
    intro ty' i hi
    simp only [takeTypes, List.take_append_of_le_length (hi.trans hlength'.ge)]
  rw [wp_bind, wp_iff]
  refine ⟨fun ty' c' hty' => ⟨rfl, rfl, by simp [hlength'], fun i ty₁ hi => ?_⟩, fun _ _ => trivial⟩
  have hi' : i < (done ++ [ty]).length := (List.getElem?_eq_some_iff.mp hi).1
  rw [List.length_append, List.length_singleton] at hi'
  rw [htake ty' i (by omega)]
  by_cases hlast : i = done.length
  · subst hlast
    obtain rfl : ty = ty₁ := by simpa using hi
    refine ⟨ty', c, c', by simp [← hlength'], ?_⟩
    rwa [takeTypes, ← hlength', List.take_length]
  · rw [List.getElem?_append_left (by omega)] at hi
    obtain ⟨ty₂, c₂, c₂', hty₂, hrun⟩ := hlowers hi
    exact ⟨ty₂, c₂, c₂', by rwa [List.getElem?_append_left (by omega)], hrun⟩

/-- **Every type of the substitution is the lowering of its argument alone**, up to unknown
predicates. -/
def LowersIndependently (types : List Core.Ty) (subst : Subst) : Prop :=
  ∀ (i : ℕ) (ty : Core.Ty), types[i]? = some ty → ∀ (c c' : Cursor) (ty₀ : Ty),
    (withEmptyTypeSubsts.lowerTy ty).run c = .ok (ty₀, c') →
      ∃ ty', subst.types[i]? = some ty' ∧ ty'.eraseKvars = ty₀.eraseKvars

/-- The type parameters in every type stand for themselves where it is lowered. -/
lemma LowersInOrder.independently_iff {types : List Core.Ty} {subst : Subst}
    (h : LowersInOrder types subst) :
    LowersIndependently types subst ↔ ∀ i ty, types[i]? = some ty → ∀ p ∈ ty.typeParams,
      (subst.takeTypes i).paramTy p = .param p := by
  have hparam : ∀ p, withEmptyTypeSubsts.paramTy p = .param p := fun p => rfl
  constructor
  · intro hind i ty hty p hp
    obtain ⟨ty', c, c', hty', hrun⟩ := h.lowers hty
    obtain ⟨ty₀, hrun₀⟩ := wp_of_run_ok (follows_lowerTy (sameNames_takeTypes subst i) ty c) hrun
    obtain ⟨ty'', hty'', herase⟩ := hind i ty hty c c' ty₀ hrun₀
    obtain rfl := Option.some.inj (hty'.symm.trans hty'')
    have hsame := (both_lowerTy (sameNames_takeTypes subst i) c c ty _ _ _ _ hrun hrun₀ trivial).mp
      herase p hp
    rw [hparam] at hsame
    exact Ty.eraseKvars_eq_param.mp hsame
  · intro hparams i ty hty c₀ c₀' ty₀ hrun₀
    obtain ⟨ty', c, c', hty', hrun⟩ := h.lowers hty
    refine ⟨ty', hty', ?_⟩
    refine (both_lowerTy (sameNames_takeTypes subst i) c c₀ ty _ _ _ _ hrun hrun₀ trivial).mpr ?_
    intro p hp
    rw [hparams i ty hty p hp, hparam]

/-- A parameter beyond those taken stays. -/
lemma takeTypes_paramTy_of_le {subst : Subst} {i : ℕ} {p : ParamTy} (h : i ≤ p.index) :
    (subst.takeTypes i).paramTy p = .param p := by
  simp [paramTy, takeTypes, Nat.not_lt.mpr h]

/-- One of those taken has its argument. -/
lemma takeTypes_paramTy_of_lt {subst : Subst} {i : ℕ} {p : ParamTy} (h : p.index < i) :
    (subst.takeTypes i).paramTy p = subst.paramTy p := by
  simp [paramTy, takeTypes, h]

/-- Only a type parameter is lowered to one. -/
lemma wp_lowerTy_param (subst : Subst) (ty : Core.Ty) :
    wp (subst.lowerTy ty)
      (fun ty' _ => ∀ p, ty' = .param p → ∃ q, ty = .param q ∧ subst.paramTy q = .param p)
      (fun _ => True) c := by
  cases ty with
  | refine bty e =>
    rw [lowerTy, wp_bind]
    refine wp_of_forall (fun _ _ => ?_) fun _ => trivial
    rw [wp_bind]
    exact wp_of_forall (fun _ _ p hp => nomatch hp) fun _ => trivial
  | exists_ bty pred =>
    cases pred with
    | infer =>
      rw [lowerTy, wp_bind]
      refine wp_of_forall (fun _ _ => ?_) fun _ => trivial
      rw [wp_bind]
      exact wp_of_forall (fun _ _ p hp => nomatch hp) fun _ => trivial
    | expr e =>
      rw [lowerTy, wp_bind]
      refine wp_of_forall (fun _ _ => ?_) fun _ => trivial
      rw [wp_bind]
      exact wp_of_forall (fun _ _ p hp => nomatch hp) fun _ => trivial
  | mutRef loc =>
    rw [lowerTy, wp_bind]
    exact wp_of_forall (fun _ _ p hp => nomatch hp) fun _ => trivial
  | param q =>
    rw [lowerTy]
    exact fun p hp => ⟨q, rfl, hp⟩

/-- **When the type arguments of a call are lowered independently**: wherever a type parameter has
the index of an earlier argument, this argument is the parameter itself.

**Proof sketch.** Each argument is lowered with the arguments before it
(`wp_withTypeSubsts_inOrder`). Alone it would be lowered with none of them, and the results are
the same iff every type parameter in it is lowered to itself, by induction on the type. -/
theorem lowersIndependently_iff {types : List Core.Ty} {subst : Subst} {c c' : Cursor}
    (h : (withTypeSubsts types).run c = .ok (subst, c')) :
    LowersIndependently types subst ↔ ∀ (i : ℕ) (ty : Core.Ty) (p : ParamTy),
      types[i]? = some ty → p ∈ ty.typeParams → p.index < i →
        types[p.index]? = some (.param p) := by
  have horder := wp_of_run_ok (wp_withTypeSubsts_inOrder types) h
  rw [horder.independently_iff]
  constructor
  · intro hparams i ty p hty hp hlt
    have hi : i < types.length := (List.getElem?_eq_some_iff.mp hty).1
    have hself := hparams i ty hty p hp
    rw [takeTypes_paramTy_of_lt hlt] at hself
    -- the argument with the index of `p` is lowered to `p`
    have htyp : types[p.index]? = some types[p.index] :=
      List.getElem?_eq_getElem (hlt.trans hi)
    obtain ⟨ty', c₁, c₁', hty', hrun⟩ := horder.lowers htyp
    obtain rfl : ty' = .param p := by simpa [paramTy, hty'] using hself
    obtain ⟨q, hq, hqp⟩ := wp_of_run_ok (wp_lowerTy_param _ _) hrun p rfl
    have hqq := hparams p.index _ htyp q (by simp [hq, Core.Ty.typeParams])
    obtain rfl : q = p := by simpa using hqq.symm.trans hqp
    rw [htyp, hq]
  · intro hargs i ty hty p hp
    rcases Nat.lt_or_ge p.index i with hlt | hle
    · have htyp := hargs i ty p hty hp hlt
      obtain ⟨ty', c₁, c₁', hty', hrun⟩ := horder.lowers htyp
      have hself : (subst.takeTypes p.index).paramTy p = .param p :=
        takeTypes_paramTy_of_le (le_refl p.index)
      rw [lowerTy] at hrun
      cases hrun
      rw [takeTypes_paramTy_of_lt hlt]
      have hty'' : subst.types[p.index]? = some ((subst.takeTypes p.index).paramTy p) := hty'
      rw [paramTy, hty'', Option.getD_some, hself]
    · exact takeTypes_paramTy_of_le hle

/-- The type parameter `T` of a function with one. -/
def paramT : Core.Ty :=
  .param ⟨0, "T"⟩

/-- The type `i32` of the compiler, with an index that is left to infer. -/
def inferI32 : Core.Ty :=
  .exists_ (.int .i32) .infer

/-- In `callee::<T, i32, T>`, the parameter of the caller is the first argument. -/
theorem lowersIndependently_params : ∃ subst c',
    (withTypeSubsts [paramT, inferI32, paramT]).run ConstraintBuilder.new.asCursor =
      .ok (subst, c') ∧ LowersIndependently [paramT, inferI32, paramT] subst := by
  have hcompletes : ∃ r, (withTypeSubsts [paramT, inferI32, paramT]).run
      ConstraintBuilder.new.asCursor = .ok r := ⟨_, rfl⟩
  obtain ⟨⟨subst, c'⟩, hrun⟩ := hcompletes
  refine ⟨subst, c', hrun, (lowersIndependently_iff hrun).mpr fun i ty p hty hp hlt => ?_⟩
  match i with
  | 0 => omega
  | 1 =>
    cases hty
    simp [inferI32, Core.Ty.typeParams, Core.BaseTy.typeParams] at hp
  | 2 =>
    cases hty
    obtain rfl : p = ⟨0, "T"⟩ := by simpa [paramT, Core.Ty.typeParams] using hp
    rfl
  | i + 3 => simp at hty

/-- **An argument that replaces another one**: in `callee::<i32, T>`, the parameter `T` of the
caller is lowered to `i32`. -/
theorem not_lowersIndependently : ¬∀ (types : List Core.Ty) (subst : Subst) (c c' : Cursor),
    (withTypeSubsts types).run c = .ok (subst, c') → LowersIndependently types subst := by
  intro h
  obtain ⟨ty', hty', herase⟩ := h [inferI32, paramT] _ ConstraintBuilder.new.asCursor _ rfl 1 paramT
    rfl ConstraintBuilder.new.asCursor _ (.param ⟨0, "T"⟩) rfl
  cases hty'
  cases herase

end Subst

end LiquidRust.Typeck
