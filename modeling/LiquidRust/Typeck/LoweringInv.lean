import LiquidRust.Core.Sorting
import LiquidRust.Typeck.TypeEnvInv
import LiquidRust.Typeck.Lowering

set_option relaxedAutoImplicit false
set_option autoImplicit false

/-!
# When lowering succeeds

The lowering of a scoped type looks up its parameters and its locations. It fails only for a
location that the substitution does not have.

## Main definitions

* `LiquidRust.Core.Ty.Mentions` — a location occurs in a type, at any depth.
* `LiquidRust.Typeck.Subst.HasExprs`, `HasLocs` — a substitution has parameters and locations.

## Main results

* `LiquidRust.Typeck.Subst.wp_lowerTy` — lowering succeeds iff every location mentioned is there.
* `LiquidRust.Typeck.Subst.inferFromFnCall_has` — what a call's inference finds.
-/

namespace LiquidRust.Core

mutual

/-- The location `loc` occurs in a type, at any depth. -/
def Ty.Mentions (loc : Name) : Ty → Prop
  | .refine bty _ | .exists_ bty _ => bty.Mentions loc
  | .mutRef loc' => loc = loc'
  | .param _ => False

/-- The location `loc` occurs in the arguments of a base type. -/
def BaseTy.Mentions (loc : Name) : BaseTy → Prop
  | .adt _ args => TysMention loc args
  | .int _ | .uint _ | .bool => False

/-- The location `loc` occurs in a list of types. -/
def TysMention (loc : Name) : List Ty → Prop
  | [] => False
  | ty :: tys => ty.Mentions loc ∨ TysMention loc tys

end

section Scoped

variable {ps locs : List Name} {loc : Name}

mutual

/-- The locations of a scoped type are in scope. -/
lemma Ty.Scoped.mem_of_mentions : ∀ {ty : Ty}, ty.Scoped ps locs → ty.Mentions loc → loc ∈ locs
  | .refine _ _, h, hm | .exists_ _ (.expr _), h, hm => h.1.mem_of_mentions hm
  | .exists_ _ .infer, h, _ => h.elim
  | .mutRef _, h, hm => hm ▸ h

/-- A location that a scoped base type mentions is in scope. -/
lemma BaseTy.Scoped.mem_of_mentions : ∀ {bty : BaseTy}, bty.Scoped ps locs → bty.Mentions loc →
    loc ∈ locs
  | .adt _ _, h, hm => mem_of_tysMention h hm

/-- The same for type arguments. -/
lemma mem_of_tysMention : ∀ {tys : List Ty}, TysScoped ps locs tys → TysMention loc tys →
    loc ∈ locs
  | _ :: _, h, .inl hm => h.1.mem_of_mentions hm
  | _ :: _, h, .inr hm => mem_of_tysMention h.2 hm

end

end Scoped

end LiquidRust.Core

namespace LiquidRust.Typeck

open Lib Cursor
open Core (FreeIn BoundOrFreeIn TysScoped TysMention)

namespace Subst

variable {subst : Subst} {ps locs : List Core.Name}

/-- The substitution has an expression for each of the parameters. -/
def HasExprs (subst : Subst) (ps : List Core.Name) : Prop :=
  ∀ name ∈ ps, (subst.exprs name).isSome

/-- The substitution has a place for each of the locations. -/
def HasLocs (subst : Subst) (locs : List Core.Name) : Prop :=
  ∀ loc ∈ locs, (subst.locations loc).isSome

/-- Recording an expression gives its parameter one. -/
lemma HasExprs.insertExpr (h : subst.HasExprs ps) (name : Core.Name) (e : Expr) :
    (subst.insertExpr name e).HasExprs (name :: ps) := by
  intro x hx
  by_cases hxn : x = name
  · simp [Subst.insertExpr, hxn]
  · simpa [Subst.insertExpr, hxn] using h x (List.mem_of_ne_of_mem hxn hx)

/-- Fewer parameters have expressions too. -/
lemma HasExprs.mono {ps' : List Core.Name} (h : subst.HasExprs ps) (hps : ps' ⊆ ps) :
    subst.HasExprs ps' :=
  fun name hname => h name (hps hname)

/-- Recording a location gives its name one. -/
lemma HasLocs.insertLoc (h : subst.HasLocs locs) (name : Core.Name) (loc : Loc) :
    (subst.insertLoc name loc).HasLocs (name :: locs) := by
  intro x hx
  by_cases hxn : x = name
  · simp [Subst.insertLoc, hxn]
  · simpa [Subst.insertLoc, hxn] using h x (List.mem_of_ne_of_mem hxn hx)

/-- The variables in scope have expressions. -/
lemma exists_lowerExpr {S : Core.Var → Prop}
    (hS : ∀ name, S (.free name) → (subst.exprs name).isSome)
    {e : Core.Expr} (he : e.ScopedIn S) : ∃ e', subst.lowerExpr e = .ok e' := by
  induction e with
  | var x symbol =>
    cases x with
    | bound => exact ⟨_, rfl⟩
    | free name =>
      obtain ⟨e', he'⟩ := Option.isSome_iff_exists.mp (hS name he)
      exact ⟨e', by simp [lowerExpr, lowerVar, orError, he']⟩
  | literal lit => exact ⟨_, rfl⟩
  | binaryOp op e1 e2 ih1 ih2 =>
    obtain ⟨e1', h1⟩ := ih1 he.1
    obtain ⟨e2', h2⟩ := ih2 he.2
    exact ⟨_, by rw [lowerExpr, h1, h2]; rfl⟩

/-- An expression in scope is lowered. -/
lemma post_lowerExpr {S : Core.Var → Prop} (hS : ∀ name, S (.free name) → name ∈ ps)
    (hps : subst.HasExprs ps) {e : Core.Expr} (he : e.ScopedIn S) (Q : Expr → Prop)
    (E : Failure → Prop) (hQ : ∀ e', Q e') : post (subst.lowerExpr e) Q E := by
  obtain ⟨e', he'⟩ := exists_lowerExpr (fun name h => hps name (hS name h)) he
  rw [he']
  exact hQ e'

mutual

/-- **Lowering a scoped type** does not move the cursor, and fails iff a location that the type
mentions is not there. -/
theorem wp_lowerTy (hps : subst.HasExprs ps) : ∀ {ty : Core.Ty}, ty.Scoped ps locs → ∀ c,
    wp (subst.lowerTy ty)
      (fun _ c' => c' = c ∧ ∀ loc, ty.Mentions loc → (subst.locations loc).isSome)
      (fun f => f = .lookup ∧ ∃ loc, ty.Mentions loc ∧ subst.locations loc = none) c
  | .refine bty e, h, c => by
    rw [lowerTy, wp_bind]
    refine wp_imp (wp_lowerBaseTy hps h.1 c) fun bty' c' hbty => ?_
    obtain ⟨rfl, hlocs⟩ := hbty
    rw [wp_bind, wp_ofExcept]
    exact post_lowerExpr (fun _ h => h) hps h.2 _ _ fun _ => ⟨rfl, hlocs⟩
  | .exists_ bty (.expr e), h, c => by
    rw [lowerTy, wp_bind, wp_ofExcept]
    refine post_lowerExpr (fun _ h => h) hps h.2 _ _ fun e' => ?_
    rw [wp_bind]
    exact wp_imp (wp_lowerBaseTy hps h.1 c) fun bty' c' hbty => hbty
  | .exists_ _ .infer, h, _ => h.elim
  | .mutRef loc, _, c => by
    rw [lowerTy, wp_bind, wp_orFail]
    refine ⟨fun l hl => ⟨rfl, ?_⟩, fun hnone => ⟨rfl, loc, rfl, hnone⟩⟩
    rintro _ rfl
    simp [hl]
  | .param _, _, c => ⟨rfl, fun _ hm => hm.elim⟩

/-- Lowering a scoped base type fails only at a location that has none. -/
theorem wp_lowerBaseTy (hps : subst.HasExprs ps) : ∀ {bty : Core.BaseTy}, bty.Scoped ps locs → ∀ c,
    wp (subst.lowerBaseTy bty)
      (fun _ c' => c' = c ∧ ∀ loc, bty.Mentions loc → (subst.locations loc).isSome)
      (fun f => f = .lookup ∧ ∃ loc, bty.Mentions loc ∧ subst.locations loc = none) c
  | .int _, _, _ | .uint _, _, _ | .bool, _, _ => ⟨rfl, fun _ hm => hm.elim⟩
  | .adt did args, h, c => by
    rw [lowerBaseTy, wp_bind]
    exact wp_imp (wp_lowerTys hps h c) fun substs c' hargs => hargs

/-- The same for type arguments. -/
theorem wp_lowerTys (hps : subst.HasExprs ps) : ∀ {tys : List Core.Ty}, TysScoped ps locs tys → ∀ c,
    wp (subst.lowerTys tys)
      (fun _ c' => c' = c ∧ ∀ loc, TysMention loc tys → (subst.locations loc).isSome)
      (fun f => f = .lookup ∧ ∃ loc, TysMention loc tys ∧ subst.locations loc = none) c
  | [], _, _ => ⟨rfl, fun _ hm => hm.elim⟩
  | ty :: tys, h, c => by
    rw [lowerTys, wp_bind]
    refine wp_mono (wp_lowerTy hps h.1 c) (fun ty' c' hty => ?_) fun f hf => ?_
    · obtain ⟨rfl, hlocs⟩ := hty
      rw [wp_bind]
      refine wp_mono (wp_lowerTys hps h.2 c') (fun tys' c'' htys => ?_) fun f hf => ?_
      · exact ⟨htys.1, fun loc hm => hm.elim (hlocs loc) (htys.2 loc)⟩
      · obtain ⟨rfl, loc, hm, hnone⟩ := hf
        exact ⟨rfl, loc, .inr hm, hnone⟩
    · obtain ⟨rfl, loc, hm, hnone⟩ := hf
      exact ⟨rfl, loc, .inl hm, hnone⟩

end

/-- A type whose locations are all there is lowered. -/
lemma wp_lowerTy_of_hasLocs (hps : subst.HasExprs ps) {ty : Core.Ty} (hty : ty.Scoped ps locs)
    (hlocs : ∀ loc, ty.Mentions loc → (subst.locations loc).isSome) {c : Cursor}
    {Q : Ty → Cursor → Prop} {E : Failure → Prop} (hQ : ∀ ty', Q ty' c) :
    wp (subst.lowerTy ty) Q E c := by
  refine wp_mono (wp_lowerTy hps hty c) (fun ty' c' h => ?_) fun f hf => ?_
  · obtain ⟨rfl, -⟩ := h
    exact hQ ty'
  · obtain ⟨-, loc, hm, hnone⟩ := hf
    have := hlocs loc hm
    simp [hnone] at this

/-- **What a call's inference finds**: every parameter, and every location of `requires`. -/
theorem inferFromFnCall_has {subst subst' : Subst} {env : TypeEnv} {actuals : List Ty}
    {fn_sig : Core.FnSig} (h : subst.inferFromFnCall env actuals fn_sig = .ok (some subst')) :
    subst'.HasExprs fn_sig.paramNames ∧ subst'.HasLocs fn_sig.requiredLocs := by
  have hcheck : subst'.checkInference fn_sig = true := by
    unfold inferFromFnCall at h
    split at h
    · cases h
    · revert h
      cases (actuals.zip fn_sig.args).foldlM (fun subst p => subst.inferFromTys p.1 p.2) subst with
      | error f => exact fun h => nomatch h
      | ok subst₁ =>
        cases h₂ : fn_sig.requires.foldlM (inferFromRequires env) subst₁ with
        | error f => simp [h₂, bind, Except.bind]
        | ok subst₂ =>
          simp only [bind, Except.bind, h₂, pure, Except.pure, Except.ok.injEq]
          split
          · rintro ⟨⟩
            assumption
          · exact fun h => nomatch h
  simp only [checkInference, Bool.and_eq_true, List.all_eq_true] at hcheck
  refine ⟨fun name hname => ?_, fun loc hloc => ?_⟩
  · obtain ⟨param, hparam, rfl⟩ := List.mem_map.mp hname
    exact hcheck.1 param hparam
  · simp only [Core.FnSig.requiredLocs, Core.locsAfter, List.append_nil, List.mem_reverse,
      List.mem_map] at hloc
    obtain ⟨p, hp, rfl⟩ := hloc
    exact hcheck.2 p hp

end Subst

end LiquidRust.Typeck
