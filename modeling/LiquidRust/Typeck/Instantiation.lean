import LiquidRust.Typeck.CallInference
import LiquidRust.Typeck.LoweringInv
import LiquidRust.Typeck.Stores

set_option relaxedAutoImplicit false
set_option autoImplicit false

/-!
# What signatures are instantiated to

At a call, the types of a signature stand for types of the checker. Without type parameters these
are stable, with the names that the arguments have, and what a type stands for does not change
when more locations get known.

## Main definitions

* `LiquidRust.Core.FnSig.ParamFree` — signatures without type parameters.
* `LiquidRust.Typeck.Subst.Instantiates`, `Lowers` — what a type of a signature stands for.
* `LiquidRust.Typeck.Subst.Closed` — substitutions of expressions over given names.
* `LiquidRust.Typeck.Subst.Introduces` — a substitution gets new locations.

## Main results

* `LiquidRust.Typeck.Subst.wp_lowerTy_lowers` — types are lowered to stable ones.
* `LiquidRust.Typeck.Subst.Closed.inferFromFnCall` — what a call infers is closed.
-/

namespace LiquidRust.Core

mutual

/-- No type parameter, at any depth. -/
def Ty.ParamFree : Ty → Prop
  | .refine bty _ | .exists_ bty _ => bty.ParamFree
  | .mutRef _ => True
  | .param _ => False

/-- A base type without type parameters. -/
def BaseTy.ParamFree : BaseTy → Prop
  | .adt _ args => TysParamFree args
  | .int _ | .uint _ | .bool => True

/-- Type arguments without type parameters. -/
def TysParamFree : List Ty → Prop
  | [] => True
  | ty :: tys => ty.ParamFree ∧ TysParamFree tys

end

/-- **A signature without type parameters.** -/
structure FnSig.ParamFree (fn_sig : FnSig) : Prop where
  requires : ∀ p ∈ fn_sig.requires, p.2.ParamFree
  args : ∀ ty ∈ fn_sig.args, ty.ParamFree
  ensures : ∀ p ∈ fn_sig.ensures, p.2.ParamFree
  ret : fn_sig.ret.ParamFree

/-- The type of a binding is scoped. -/
lemma BindingsScoped.exists_scoped {ps locs : List Name} {bindings : List (Name × Ty)}
    {binding : Name × Ty} (h : BindingsScoped ps locs bindings) (hmem : binding ∈ bindings) :
    ∃ locs, binding.2.Scoped ps locs := by
  induction bindings generalizing locs with
  | nil => cases hmem
  | cons b bindings ih =>
    rcases List.mem_cons.mp hmem with rfl | hmem
    · exact ⟨_, h.1⟩
    · exact ih h.2 hmem

end LiquidRust.Core

namespace LiquidRust.Typeck

open Lib Cursor
open Core (FreeIn TysScoped TysParamFree)

/-! ## What signatures are instantiated to -/

namespace Subst

variable {N : Set Name} {subst subst' : Subst} {ps locs : List Core.Name}

/-- The expressions of the parameters have their names in `N`, and no binder. -/
def Closed (N : Set Name) (subst : Subst) : Prop :=
  ∀ ⦃name e⦄, subst.exprs name = some e → e.BoundIn N

/-- The type `ty₀` of a signature stands for `ty`, wherever the cursor is. -/
def Instantiates (subst : Subst) (ty₀ : Core.Ty) (ty : Ty) : Prop :=
  ∀ c, (subst.lowerTy ty₀).run c = .ok (ty, c)

/-- A type is instantiated in one way. -/
lemma Instantiates.unique {ty₀ : Core.Ty} {ty ty' : Ty} (h : subst.Instantiates ty₀ ty)
    (h' : subst.Instantiates ty₀ ty') : ty = ty' := by
  have heq := (h ConstraintBuilder.new.asCursor).symm.trans (h' ConstraintBuilder.new.asCursor)
  cases heq
  rfl

/-- `ty₀` stands for `ty`, and still does when more is known. -/
structure Lowers (N : Set Name) (subst : Subst) (ty₀ : Core.Ty) (ty : Ty) : Prop where
  stable : ty.Stable N
  instantiates : ∀ ⦃subst'⦄, Grows subst subst' → subst'.Instantiates ty₀ ty

/-- Expressions are lowered to the same ones when more is known. -/
lemma Closed.lowerExpr (hs : subst.Closed N) (ps : List Core.Name) (e : Core.Expr) :
    post (subst.lowerExpr e) (fun e' => e'.Over N ∧ (e.ScopedIn (FreeIn ps) → e'.BoundIn N) ∧
      ∀ ⦃subst'⦄, Grows subst subst' → subst'.lowerExpr e = .ok e') (fun _ => True) := by
  induction e with
  | var x symbol =>
    cases x with
    | bound => exact ⟨trivial, fun h => h.elim, fun _ _ => rfl⟩
    | free name =>
      refine post_orError.mpr ⟨fun e he => ⟨(hs he).over, fun _ => hs he, fun subst' h => ?_⟩,
        fun _ => trivial⟩
      rw [Subst.lowerExpr, lowerVar, h.exprs he]
      rfl
  | literal lit => exact ⟨trivial, fun _ => trivial, fun _ _ => rfl⟩
  | binaryOp op e1 e2 ih1 ih2 =>
    rw [Subst.lowerExpr, post_bind]
    refine post_mono ih1 (fun e1' he1 => ?_) fun _ _ => trivial
    obtain ⟨hover1, hbound1, h1⟩ := he1
    rw [post_bind]
    refine post_mono ih2 (fun e2' he2 => ?_) fun _ _ => trivial
    obtain ⟨hover2, hbound2, h2⟩ := he2
    refine ⟨⟨hover1, hover2⟩, fun h => ⟨hbound1 h.1, hbound2 h.2⟩, fun subst' h => ?_⟩
    rw [Subst.lowerExpr, h1 h, h2 h]
    rfl

mutual

/-- **The types of a signature** are lowered to stable ones, and the cursor stays. -/
lemma wp_lowerTy_lowers (hs : subst.Closed N) : ∀ {ty₀ : Core.Ty}, ty₀.Scoped ps locs →
    ty₀.ParamFree → ∀ c, wp (subst.lowerTy ty₀) (fun ty c' => c' = c ∧ Lowers N subst ty₀ ty)
      (fun _ => True) c
  | .refine bty e, h, hfree, c => by
    rw [lowerTy, wp_bind]
    refine wp_imp (wp_lowerBaseTy_lowers hs h.1 hfree c)
      fun bty' c' ⟨heq, hnames, hrefFree, hbty⟩ => ?_
    rw [wp_bind, wp_ofExcept]
    refine post_mono (hs.lowerExpr ps e) (fun e' ⟨_, hbound, he⟩ => ?_) fun _ _ => trivial
    refine ⟨heq, ⟨⟨hnames, hbound h.2⟩, hrefFree⟩, fun subst' hgrows c₀ => ?_⟩
    rw [lowerTy, StateT.run_bind, hbty hgrows c₀, he hgrows]
    rfl
  | .exists_ bty (.expr e), h, hfree, c => by
    rw [lowerTy, wp_bind, wp_ofExcept]
    refine post_mono (hs.lowerExpr ps e) (fun e' ⟨hover, _, he⟩ => ?_) fun _ _ => trivial
    rw [wp_bind]
    refine wp_imp (wp_lowerBaseTy_lowers hs h.1 hfree c)
      fun bty' c' ⟨heq, hnames, hrefFree, hbty⟩ => ?_
    refine ⟨heq, ⟨⟨hnames, hover⟩, hrefFree⟩, fun subst' hgrows c₀ => ?_⟩
    rw [lowerTy, he hgrows]
    change (subst'.lowerBaseTy bty >>= fun bty => Pure.pure (Ty.exists_ bty (.expr e'))).run c₀ = _
    rw [StateT.run_bind, hbty hgrows c₀]
    rfl
  | .exists_ _ .infer, h, _, _ => h.elim
  | .mutRef loc, _, _, c => by
    rw [lowerTy, wp_bind, wp_orFail]
    refine ⟨fun l hl => ⟨rfl, ⟨trivial, trivial⟩, fun subst' hgrows c₀ => ?_⟩, fun _ => trivial⟩
    rw [lowerTy, hgrows.locations hl]
    rfl
  | .param _, _, hfree, _ => hfree.elim

/-- Lowering a scoped base type gives one that every grown substitution lowers to. -/
lemma wp_lowerBaseTy_lowers (hs : subst.Closed N) : ∀ {bty₀ : Core.BaseTy}, bty₀.Scoped ps locs →
    bty₀.ParamFree → ∀ c, wp (subst.lowerBaseTy bty₀)
      (fun bty c' => c' = c ∧ bty.Scoped N ∧ bty.RefFree ∧
        ∀ ⦃subst'⦄, Grows subst subst' → ∀ c, (subst'.lowerBaseTy bty₀).run c = .ok (bty, c))
      (fun _ => True) c
  | .int _, _, _, _ | .uint _, _, _, _ | .bool, _, _, _ => ⟨rfl, trivial, trivial, fun _ _ _ => rfl⟩
  | .adt did args, h, hfree, c => by
    rw [lowerBaseTy, wp_bind]
    refine wp_imp (wp_lowerTys_lowers hs h hfree c)
      fun substs c' ⟨heq, hnames, hrefFree, hsubsts⟩ => ?_
    refine ⟨heq, hnames, hrefFree, fun subst' hgrows c₀ => ?_⟩
    rw [lowerBaseTy, StateT.run_bind, hsubsts hgrows c₀]
    rfl

/-- The same for type arguments. -/
lemma wp_lowerTys_lowers (hs : subst.Closed N) : ∀ {tys₀ : List Core.Ty},
    TysScoped ps locs tys₀ → TysParamFree tys₀ → ∀ c, wp (subst.lowerTys tys₀)
      (fun tys c' => c' = c ∧ tys.Scoped N ∧ tys.RefFree ∧
        ∀ ⦃subst'⦄, Grows subst subst' → ∀ c, (subst'.lowerTys tys₀).run c = .ok (tys, c))
      (fun _ => True) c
  | [], _, _, _ => ⟨rfl, trivial, trivial, fun _ _ _ => rfl⟩
  | ty₀ :: tys₀, h, hfree, c => by
    rw [lowerTys, wp_bind]
    refine wp_imp (wp_lowerTy_lowers hs h.1 hfree.1 c) fun ty c' ⟨heq, hty⟩ => ?_
    rw [wp_bind]
    refine wp_imp (wp_lowerTys_lowers hs h.2 hfree.2 c')
      fun tys c'' ⟨heq', hnames, hrefFree, htys⟩ => ?_
    refine ⟨heq'.trans heq, ⟨hty.stable.names, hnames⟩, ⟨hty.stable.refFree, hrefFree⟩,
      fun subst' hgrows c₀ => ?_⟩
    rw [lowerTys, StateT.run_bind, hty.instantiates hgrows c₀]
    change (subst'.lowerTys tys₀ >>= fun tys => Pure.pure (Substs.cons ty tys)).run c₀ = _
    rw [StateT.run_bind, htys hgrows c₀]
    rfl

end

/-! ### What is inferred -/

/-- Recording an expression over the names keeps the substitution closed. -/
lemma Closed.insertExpr (hs : subst.Closed N) (name : Core.Name) {e : Expr} (he : e.BoundIn N) :
    (subst.insertExpr name e).Closed N := by
  intro name' e' h'
  by_cases hname : name' = name
  · subst hname
    simp only [Subst.insertExpr, Function.update_self, Option.some.injEq] at h'
    exact h' ▸ he
  · simp only [Subst.insertExpr, Function.update_of_ne hname] at h'
    exact hs h'

/-- The index of a type is closed. -/
lemma Closed.inferFromTys (hs : subst.Closed N) {ty : Ty} (hty : ty.Scoped N) (ty₀ : Core.Ty) :
    post (subst.inferFromTys ty ty₀) (·.Closed N) (fun _ => True) := by
  unfold Subst.inferFromTys
  split
  · split
    · split
      · trivial
      · exact hs.insertExpr _ hty.2
    · exact hs.insertExpr _ hty.2
  · split
    · split
      · trivial
      · exact hs
    · exact hs
  · exact hs

/-- **What a call infers** is closed, and there are as many arguments as there should be. -/
lemma Closed.inferFromFnCall (hs : subst.Closed N) {env : TypeEnv} (henv : env.Scoped N)
    {actuals : List Ty} (hactuals : ∀ ty ∈ actuals, ty.Scoped N) (fn_sig : Core.FnSig) :
    post (subst.inferFromFnCall env actuals fn_sig)
      (fun r => actuals.length = fn_sig.args.length ∧ ∀ subst ∈ r, subst.Closed N)
      (fun _ => True) := by
  have hargs : ∀ p ∈ actuals.zip fn_sig.args, ∀ subst : Subst, subst.Closed N →
      post (subst.inferFromTys p.1 p.2) (·.Closed N) (fun _ => True) := fun p hp subst hs =>
    hs.inferFromTys (hactuals p.1 (List.of_mem_zip hp).1) p.2
  have hrequires : ∀ binding ∈ fn_sig.requires, ∀ subst : Subst, subst.Closed N →
      post (subst.inferFromRequires env binding) (·.Closed N) (fun _ => True) := by
    intro binding _ subst hs
    rw [inferFromRequires, post_bind, post_orError]
    refine ⟨fun loc _ => ?_, fun _ => trivial⟩
    rw [post_bind, post_orError]
    exact ⟨fun ty hty => hs.inferFromTys (henv hty) _, fun _ => trivial⟩
  unfold Subst.inferFromFnCall
  split
  · trivial
  · next hlength =>
    rw [post_bind]
    refine post_mono (post_foldlM hargs hs) (fun subst hs => ?_) fun _ _ => trivial
    rw [post_bind]
    refine post_mono (post_foldlM hrequires hs) (fun subst hs => ?_) fun _ _ => trivial
    rw [post_pure]
    refine ⟨not_not.mp hlength, ?_⟩
    split
    · rintro _ ⟨⟩
      exact hs
    · intro _ h
      cases h

/-- The type parameters come with no expressions. -/
lemma wp_withTypeSubsts_closed (types : List Core.Ty) (c : Cursor) :
    wp (withTypeSubsts types) (fun subst c' => subst.Closed N ∧ c.Quiet c') (fun _ => True) c := by
  have hquiet := wp_withTypeSubsts_over (N := Set.univ) (L := Set.univ) (c := c)
    (Set.subset_univ _) types
  have hexprs : wp (withTypeSubsts types) (fun subst _ => subst.Closed N) (fun _ => True) c := by
    refine wp_foldlM (I := fun subst _ => Closed N subst) (fun ty _ subst c' hs => ?_) ?_
    · rw [wp_bind]
      exact wp_of_forall (fun _ _ => hs) fun _ => trivial
    · exact fun _ _ h => nomatch h
  exact wp_mono (wp_and hexprs hquiet) (fun _ _ h => ⟨h.1, h.2.2⟩) fun _ _ => trivial

/-! ### New locations -/

/-- **New locations**: those of `bindings` that `subst` does not know get distinct names from `gen`
on, and then every type of `bindings` can be lowered. -/
structure Introduces (gen gen' : Name) (bindings : List (Core.Name × Core.Ty))
    (subst subst' : Subst) : Prop where
  exprs : subst'.exprs = subst.exprs
  grows : Grows subst subst'
  fresh : ∀ ⦃name loc⦄, subst'.locations name = some loc →
    subst.locations name = some loc ∨ subst.locations name = none ∧
      ∃ x, loc = .abstract x ∧ gen ≤ x ∧ x < gen'
  distinct : ∀ ⦃name name' loc⦄, subst.locations name = none → subst.locations name' = none →
    subst'.locations name = some loc → subst'.locations name' = some loc → name = name'
  instantiates : ∀ binding ∈ bindings, ∃ loc ty, subst'.locations binding.1 = some loc ∧
    ∀ ⦃subst''⦄, Grows subst' subst'' → subst''.Instantiates binding.2 ty

section Introduces

variable {gen gen' gen'' : Name} {done : List (Core.Name × Core.Ty)} {subst₀ : Subst}

/-- Recording a location for a new name grows the substitution. -/
lemma Grows.insertLoc {name : Core.Name} (h : subst.locations name = none) (loc : Loc) :
    Grows subst (subst.insertLoc name loc) := by
  refine ⟨fun _ _ h => h, fun name' loc' h' => ?_⟩
  have hne : name' ≠ name := by
    rintro rfl
    simp [h] at h'
  simpa only [Subst.insertLoc, Function.update_of_ne hne] using h'

/-- What introduces names up to one generation does up to a later one. -/
lemma Introduces.mono (h : Introduces gen gen' done subst₀ subst) (hgen : gen' ≤ gen'') :
    Introduces gen gen'' done subst₀ subst where
  exprs := h.exprs
  grows := h.grows
  fresh _ _ hloc := (h.fresh hloc).imp_right fun ⟨hnone, x, hx, hle, hlt⟩ =>
    ⟨hnone, x, hx, hle, hlt.trans_le hgen⟩
  distinct := h.distinct
  instantiates := h.instantiates

/-- What introduces names from one generation does from an earlier one. -/
lemma Introduces.of_le (h : Introduces gen' gen'' done subst₀ subst) (hgen : gen ≤ gen') :
    Introduces gen gen'' done subst₀ subst where
  exprs := h.exprs
  grows := h.grows
  fresh _ _ hloc := (h.fresh hloc).imp_right fun ⟨hnone, x, hx, hle, hlt⟩ =>
    ⟨hnone, x, hx, hgen.trans hle, hlt⟩
  distinct := h.distinct
  instantiates := h.instantiates

/-- One more binding, whose location is known. -/
lemma Introduces.snoc (h : Introduces gen gen' done subst₀ subst) {binding : Core.Name × Core.Ty}
    {loc : Loc} (hloc : subst.locations binding.1 = some loc) {ty : Ty}
    (hty : ∀ ⦃subst'⦄, Grows subst subst' → subst'.Instantiates binding.2 ty) :
    Introduces gen gen' (done ++ [binding]) subst₀ subst where
  exprs := h.exprs
  grows := h.grows
  fresh := h.fresh
  distinct := h.distinct
  instantiates := List.forall_mem_append.mpr ⟨h.instantiates, fun _ hb =>
    List.mem_singleton.mp hb ▸ ⟨loc, ty, hloc, hty⟩⟩

/-- A location gets a new name. -/
lemma Introduces.insertLoc (h : Introduces gen gen' done subst₀ subst) {name : Core.Name}
    (hnone : subst.locations name = none) (hgen : gen ≤ gen') {x : Name} (hle : gen' ≤ x)
    (hlt : x < gen'') : Introduces gen gen'' done subst₀ (subst.insertLoc name (.abstract x)) where
  exprs := h.exprs
  grows := h.grows.trans (.insertLoc hnone _)
  fresh name' loc hloc := by
    by_cases hname : name' = name
    · subst hname
      simp only [Subst.insertLoc, Function.update_self, Option.some.injEq] at hloc
      refine .inr ⟨?_, x, hloc.symm, hgen.trans hle, hlt⟩
      cases h₀ : subst₀.locations name' with
      | none => rfl
      | some loc₀ => simp [h.grows.locations h₀] at hnone
    · simp only [Subst.insertLoc, Function.update_of_ne hname] at hloc
      refine (h.fresh hloc).imp_right fun hfresh => ?_
      obtain ⟨hnone', y, hy, hle', hlt'⟩ := hfresh
      exact ⟨hnone', y, hy, hle', hlt'.trans (hle.trans_lt hlt)⟩
  distinct name₁ name₂ loc h₁ h₂ hloc₁ hloc₂ := by
    -- the new name is none of the earlier ones
    have hnew : ∀ name', subst₀.locations name' = none →
        subst.locations name' ≠ some (.abstract x) := by
      intro name' h₀ hloc
      obtain h' | ⟨-, y, hy, -, hlt'⟩ := h.fresh hloc
      · simp [h₀] at h'
      · cases hy
        exact (hlt'.trans_le hle).false
    simp only [Subst.insertLoc] at hloc₁ hloc₂
    by_cases hname₁ : name₁ = name <;> by_cases hname₂ : name₂ = name
    · rw [hname₁, hname₂]
    · subst hname₁
      rw [Function.update_self] at hloc₁
      rw [Function.update_of_ne hname₂, ← hloc₁] at hloc₂
      exact absurd hloc₂ (hnew name₂ h₂)
    · subst hname₂
      rw [Function.update_self] at hloc₂
      rw [Function.update_of_ne hname₁, ← hloc₂] at hloc₁
      exact absurd hloc₁ (hnew name₁ h₁)
    · rw [Function.update_of_ne hname₁] at hloc₁
      rw [Function.update_of_ne hname₂] at hloc₂
      exact h.distinct h₁ h₂ hloc₁ hloc₂
  instantiates binding hbinding := by
    obtain ⟨loc, ty, hloc, hty⟩ := h.instantiates binding hbinding
    have hgrows : Grows subst (subst.insertLoc name (.abstract x)) := .insertLoc hnone _
    exact ⟨loc, ty, hgrows.locations hloc, fun subst' h' => hty (hgrows.trans h')⟩

end Introduces

end Subst

end LiquidRust.Typeck
