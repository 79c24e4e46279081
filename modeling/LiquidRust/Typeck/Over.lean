import Mathlib.Data.Set.Insert
import LiquidRust.Typeck.Checker
import LiquidRust.Typeck.CursorInv
import LiquidRust.Typeck.TypeEnvInv

set_option relaxedAutoImplicit false
set_option autoImplicit false

/-!
# The names and the locations of types

What types and environments are made of, and what is made of them: lowering a type of a signature
adds nothing to the names and locations of the substitution but the variables in scope.

## Main definitions

* `LiquidRust.Typeck.Expr.Over`, `Pred.Over`, `Ty.Over`, `TypeEnv.Over`, `Subst.Over` — all free
  names and all locations are among given ones, at any depth.
* `LiquidRust.Typeck.Cursor.scope` — the variables in scope.
* `LiquidRust.Typeck.Cursor.Quiet` — steps that push no node.

## Main results

* `LiquidRust.Typeck.Subst.wp_lowerTy_over` — the types that signatures are lowered to.
* `LiquidRust.Typeck.Subst.inferFromFnCall_over` — the substitutions of calls.
-/

namespace LiquidRust.Typeck

open Lib Cursor

/-! ## Names and locations -/

/-- All free names are in `N`. -/
def Expr.Over (N : Set Name) : Expr → Prop
  | .var .bound | .constant _ => True
  | .var (.free x) => x ∈ N
  | .binaryOp _ e1 e2 => e1.Over N ∧ e2.Over N
  | .unaryOp _ e => e.Over N

/-- The same for predicates. The arguments of an unknown one are over the names. -/
def Pred.Over (N : Set Name) : Pred → Prop
  | .kvar _ args => ∀ e ∈ args, e.Over N
  | .expr e => e.Over N

mutual

/-- All free names are in `N` and all locations in `L`. -/
def Ty.Over (N : Set Name) (L : Set Loc) : Ty → Prop
  | .refine bty e => bty.Over N L ∧ e.Over N
  | .exists_ bty p => bty.Over N L ∧ p.Over N
  | .uninit | .param _ => True
  | .strgRef loc => loc ∈ L
  | .ref ty => ty.Over N L

/-- The same for base types. -/
def BaseTy.Over (N : Set Name) (L : Set Loc) : BaseTy → Prop
  | .adt _ substs => substs.Over N L
  | .int _ | .uint _ | .bool => True

/-- The same for type arguments. -/
def Substs.Over (N : Set Name) (L : Set Loc) : Substs → Prop
  | .nil => True
  | .cons ty substs => ty.Over N L ∧ substs.Over N L

end

/-- The same for bindings, with both types of a weak one. -/
def Binding.Over (N : Set Name) (L : Set Loc) : Binding → Prop
  | .strong ty => ty.Over N L
  | .weak bound ty => bound.Over N L ∧ ty.Over N L

/-- All types of an environment, also the bounds of weak bindings. -/
def TypeEnv.Over (N : Set Name) (L : Set Loc) (env : TypeEnv) : Prop :=
  ∀ ⦃loc binding⦄, env.bindings.lookup loc = some binding → binding.Over N L

section Over

variable {N N' : Set Name} {L M : Set Loc}

/-- An expression over some names is over more. -/
lemma Expr.Over.mono (hN : N ⊆ N') {e : Expr} (h : e.Over N) : e.Over N' := by
  induction e with
  | var x =>
    cases x with
    | bound => trivial
    | free x => exact hN h
  | constant c => trivial
  | binaryOp op e1 e2 ih1 ih2 => exact ⟨ih1 h.1, ih2 h.2⟩
  | unaryOp op e ih => exact ih h

/-- A predicate over some names is over more. -/
lemma Pred.Over.mono (hN : N ⊆ N') {p : Pred} (h : p.Over N) : p.Over N' := by
  cases p with
  | kvar kvid args => exact fun e he => (h e he).mono hN
  | expr e => exact Expr.Over.mono hN h

mutual

/-- A type over some names and locations is over more. -/
lemma Ty.over_mono (hN : N ⊆ N') (hL : L ⊆ M) : ∀ ty : Ty, ty.Over N L → ty.Over N' M
  | .refine bty _, h => ⟨bty.over_mono hN hL h.1, h.2.mono hN⟩
  | .exists_ bty _, h => ⟨bty.over_mono hN hL h.1, h.2.mono hN⟩
  | .uninit, _ | .param _, _ => trivial
  | .strgRef _, h => hL h
  | .ref ty, h => ty.over_mono hN hL h

/-- A base type over some names and locations is over more. -/
lemma BaseTy.over_mono (hN : N ⊆ N') (hL : L ⊆ M) :
    ∀ bty : BaseTy, bty.Over N L → bty.Over N' M
  | .adt _ substs, h => substs.over_mono hN hL h
  | .int _, _ | .uint _, _ | .bool, _ => trivial

/-- Type arguments over some names and locations are over more. -/
lemma Substs.over_mono (hN : N ⊆ N') (hL : L ⊆ M) :
    ∀ substs : Substs, substs.Over N L → substs.Over N' M
  | .nil, _ => trivial
  | .cons ty substs, h => ⟨ty.over_mono hN hL h.1, substs.over_mono hN hL h.2⟩

end

/-- The same with the type implicit. -/
lemma Ty.Over.mono (hN : N ⊆ N') (hL : L ⊆ M) {ty : Ty} (h : ty.Over N L) : ty.Over N' M :=
  ty.over_mono hN hL h

/-- A binding over some names and locations is over more. -/
lemma Binding.Over.mono (hN : N ⊆ N') (hL : L ⊆ M) {binding : Binding}
    (h : binding.Over N L) : binding.Over N' M := by
  cases binding with
  | strong ty => exact Ty.Over.mono hN hL h
  | weak bound ty => exact ⟨h.1.mono hN hL, h.2.mono hN hL⟩

/-- The type of a binding is over what the binding is. -/
lemma Binding.Over.ty {binding : Binding} (h : binding.Over N L) : binding.ty.Over N L := by
  cases binding with
  | strong ty => exact h
  | weak bound ty => exact h.2

/-- Setting the type of a binding to one over them keeps it so. -/
lemma Binding.Over.setTy {binding : Binding} {ty : Ty} (h : binding.Over N L)
    (hty : ty.Over N L) : (binding.setTy ty).Over N L := by
  cases binding with
  | strong _ => exact hty
  | weak bound _ => exact ⟨h.1, hty⟩

/-- Substituting an expression over the names stays over them. -/
lemma Expr.Over.substBoundVars {e arg : Expr} (h : e.Over N) (harg : arg.Over N) :
    (e.substBoundVars arg).Over N := by
  induction e with
  | var x =>
    cases x with
    | bound => exact harg
    | free x => exact h
  | constant c => trivial
  | binaryOp op e1 e2 ih1 ih2 => exact ⟨ih1 h.1, ih2 h.2⟩
  | unaryOp op e ih => exact ih h

/-- The same for predicates. -/
lemma Pred.Over.substBoundVars {p : Pred} {arg : Expr} (h : p.Over N) (harg : arg.Over N) :
    (p.substBoundVars arg).Over N := by
  cases p with
  | kvar kvid args =>
    intro e' he'
    obtain ⟨e, he, rfl⟩ := List.mem_map.mp he'
    exact (h e he).substBoundVars harg
  | expr e => exact Expr.Over.substBoundVars h harg

namespace TypeEnv

variable {env : TypeEnv} {loc : Loc} {ty : Ty}

/-- An environment over some names and locations is over more. -/
lemma Over.mono (hN : N ⊆ N') (hL : L ⊆ M) (h : env.Over N L) : env.Over N' M :=
  fun _ _ hb => (h hb).mono hN hL

/-- The types in an environment are over what it is. -/
lemma Over.lookupLoc (h : env.Over N L) (hty : env.lookupLoc loc = some ty) : ty.Over N L := by
  obtain ⟨binding, hbinding, rfl⟩ := Option.map_eq_some_iff.mp hty
  exact (h hbinding).ty

/-- The empty environment is over anything. -/
lemma over_new : TypeEnv.new.Over N L :=
  fun _ _ h => absurd h (by simp [TypeEnv.new])

/-- A binding is inserted. -/
lemma Over.insert (h : env.Over N L) {binding : Binding} (hb : binding.Over N L) :
    TypeEnv.Over N L ⟨env.bindings.insert loc binding⟩ := by
  intro loc' binding' h'
  by_cases hloc : loc' = loc
  · subst hloc
    rw [AList.lookup_insert] at h'
    exact Option.some.inj h' ▸ hb
  · rw [AList.lookup_insert_ne hloc] at h'
    exact h h'

/-- Inserting a type over them keeps the environment so. -/
lemma Over.insertLoc (h : env.Over N L) (hty : ty.Over N L) : (env.insertLoc loc ty).Over N L :=
  h.insert (show Binding.Over N L (.strong ty) from hty)

end TypeEnv

end Over

section Decidable

variable (N : Set Name) (L : Set Loc) [DecidablePred (· ∈ N)] [DecidablePred (· ∈ L)]

/-- Whether an expression is over the names is decidable if the names are. -/
instance Expr.decidableOver : (e : Expr) → Decidable (e.Over N)
  | .var .bound | .constant _ => .isTrue trivial
  | .var (.free x) => inferInstanceAs (Decidable (x ∈ N))
  | .binaryOp _ e1 e2 =>
    have := e1.decidableOver
    have := e2.decidableOver
    inferInstanceAs (Decidable (e1.Over N ∧ e2.Over N))
  | .unaryOp _ e => e.decidableOver

/-- The same for predicates. -/
instance Pred.decidableOver : (p : Pred) → Decidable (p.Over N)
  | .kvar _ args => inferInstanceAs (Decidable (∀ e ∈ args, e.Over N))
  | .expr e => inferInstanceAs (Decidable (e.Over N))

mutual

/-- The same for types, if the locations are too. -/
instance Ty.decidableOver : (ty : Ty) → Decidable (ty.Over N L)
  | .refine bty e =>
    have := bty.decidableOver
    inferInstanceAs (Decidable (bty.Over N L ∧ e.Over N))
  | .exists_ bty p =>
    have := bty.decidableOver
    inferInstanceAs (Decidable (bty.Over N L ∧ p.Over N))
  | .uninit | .param _ => .isTrue trivial
  | .strgRef loc => inferInstanceAs (Decidable (loc ∈ L))
  | .ref ty => ty.decidableOver

/-- The same for base types. -/
instance BaseTy.decidableOver : (bty : BaseTy) → Decidable (bty.Over N L)
  | .adt _ substs => substs.decidableOver
  | .int _ | .uint _ | .bool => .isTrue trivial

/-- The same for type arguments. -/
instance Substs.decidableOver : (substs : Substs) → Decidable (substs.Over N L)
  | .nil => .isTrue trivial
  | .cons ty substs =>
    have := ty.decidableOver
    have := substs.decidableOver
    inferInstanceAs (Decidable (ty.Over N L ∧ substs.Over N L))

end

/-- The same for bindings. -/
instance Binding.decidableOver : (binding : Binding) → Decidable (binding.Over N L)
  | .strong ty => inferInstanceAs (Decidable (ty.Over N L))
  | .weak bound ty => inferInstanceAs (Decidable (bound.Over N L ∧ ty.Over N L))

/-- An environment is over names and locations iff its bindings are. -/
lemma TypeEnv.over_iff {N : Set Name} {L : Set Loc} {env : TypeEnv} :
    env.Over N L ↔ ∀ e ∈ env.bindings.entries, e.2.Over N L := by
  constructor
  · intro h e he
    exact h (AList.mem_lookup_iff.mpr he)
  · intro h loc binding hb
    exact h ⟨loc, binding⟩ (AList.mem_lookup_iff.mp hb)

/-- The same for environments, which have finitely many bindings. -/
instance TypeEnv.decidableOver (env : TypeEnv) : Decidable (env.Over N L) :=
  decidable_of_iff _ TypeEnv.over_iff.symm

end Decidable

/-! ## Steps that push no node -/

namespace Cursor

/-- **The variables in scope.** -/
def scope (c : Cursor) : Set Name :=
  {x | x ∈ (c.builder.vars.take c.nvars).map Prod.fst}

instance (c : Cursor) : DecidablePred (· ∈ c.scope) := fun x =>
  inferInstanceAs (Decidable (x ∈ (c.builder.vars.take c.nvars).map Prod.fst))

/-- The tree, the variables and the place of the cursor stay. -/
structure Quiet (c c' : Cursor) : Prop where
  root : c'.builder.root = c.builder.root
  node : c'.node = c.node
  vars : c'.builder.vars = c.builder.vars
  nvars : c'.nvars = c.nvars
  scopes : c'.builder.scopes = c.builder.scopes
  nameGen : c.builder.nameGen ≤ c'.builder.nameGen

namespace Quiet

variable {c c' c'' : Cursor}

/-- Doing nothing is quiet. -/
lemma refl (c : Cursor) : c.Quiet c :=
  ⟨rfl, rfl, rfl, rfl, rfl, le_rfl⟩

/-- One quiet operation after another is quiet. -/
lemma trans (h : c.Quiet c') (h' : c'.Quiet c'') : c.Quiet c'' :=
  ⟨h'.root.trans h.root, h'.node.trans h.node, h'.vars.trans h.vars, h'.nvars.trans h.nvars,
    h'.scopes.trans h.scopes, h.nameGen.trans h'.nameGen⟩

/-- A quiet operation keeps the scope. -/
lemma scope (h : c.Quiet c') : c'.scope = c.scope := by
  rw [Cursor.scope, h.vars, h.nvars, Cursor.scope]

/-- A quiet operation keeps the cursor valid. -/
lemma valid (h : c.Quiet c') (hc : c.Valid) : c'.Valid := by
  refine ⟨?_, ?_, ?_⟩
  · rw [h.root, h.node, h.vars, h.nvars]
    exact hc.labels
  · rw [h.vars, h.nvars]
    exact hc.nvars
  · rw [h.vars, h.scopes]
    exact hc.scopes

/-- A quiet operation leads to a later cursor. -/
lemma le (h : c.Quiet c') : c.Le c' :=
  ⟨h.root ▸ .refl, h.nameGen, h.node ▸ List.prefix_rfl, h.nvars.ge, by rw [h.vars]⟩

end Quiet

variable {c : Cursor} {N : Set Name}

/-- The predicate of a new unknown speaks of the variables of its scope. -/
lemma wp_freshKvarAtScope_over (sort : Srt) (scope : ℕ)
    (hN : {x | x ∈ (c.builder.vars.take scope).map Prod.fst} ⊆ N) :
    wp (freshKvarAtScope sort scope) (fun p c' => p.Over N ∧ c.Quiet c') (fun _ => True) c := by
  rw [freshKvarAtScope, wp_bind, wp_get, wp_bind, wp_orFail]
  refine ⟨fun vars hvars => ⟨fun e he => ?_, ?_⟩, fun _ => trivial⟩
  · have hvars' : vars = c.builder.vars.take scope := by
      unfold varsInScope at hvars
      split at hvars
      · exact (Option.some.inj hvars).symm
      · cases hvars
    rcases List.mem_cons.mp he with rfl | he
    · trivial
    · obtain ⟨v, hv, rfl⟩ := List.mem_map.mp he
      exact hN (List.mem_map.mpr ⟨v, hvars' ▸ hv, rfl⟩)
  · exact ⟨rfl, rfl, rfl, rfl, rfl, le_rfl⟩

/-- A fresh variable takes the names in scope and is quiet. -/
lemma wp_freshKvar_over (sort : Srt) (hN : c.scope ⊆ N) :
    wp (freshKvar sort) (fun p c' => p.Over N ∧ c.Quiet c') (fun _ => True) c := by
  rw [freshKvar, wp_bind, wp_get]
  exact wp_freshKvarAtScope_over sort c.nvars hN

/-- A fresh variable at the last scope is quiet. -/
lemma wp_freshKvarAtLastScope_quiet (sort : Srt) :
    wp (freshKvarAtLastScope sort) (fun _ c' => c.Quiet c') (fun _ => True) c := by
  rw [freshKvarAtLastScope, wp_bind, wp_get]
  exact wp_imp (wp_freshKvarAtScope_over (N := Set.univ) sort _ (Set.subset_univ _))
    fun _ _ h => h.2

end Cursor

/-! ## Lowering -/

/-- What a substitution substitutes. -/
structure Subst.Over (N : Set Name) (L : Set Loc) (subst : Subst) : Prop where
  exprs : ∀ ⦃x e⦄, subst.exprs x = some e → e.Over N
  locations : ∀ ⦃x loc⦄, subst.locations x = some loc → loc ∈ L
  types : ∀ ty ∈ subst.types, ty.Over N L

namespace Subst

variable {N N' : Set Name} {L M : Set Loc} {subst : Subst} {c : Cursor}

/-- A substitution over some names and locations is over more. -/
lemma Over.mono (hN : N ⊆ N') (hL : L ⊆ M) (h : subst.Over N L) : subst.Over N' M :=
  ⟨fun _ _ he => (h.exprs he).mono hN, fun _ _ hl => hL (h.locations hl),
    fun ty hty => (h.types ty hty).mono hN hL⟩

/-- The empty substitution is over anything. -/
lemma over_withEmptyTypeSubsts : withEmptyTypeSubsts.Over N L :=
  ⟨fun _ _ h => (nomatch h), fun _ _ h => (nomatch h), fun _ h => (nomatch h)⟩

/-- Recording an expression over the names keeps it so. -/
lemma Over.insertExpr (h : subst.Over N L) (x : Core.Name) {e : Expr} (he : e.Over N) :
    (subst.insertExpr x e).Over N L := by
  refine ⟨fun y e' h' => ?_, h.locations, h.types⟩
  by_cases hy : y = x
  · subst hy
    simp only [Subst.insertExpr, Function.update_self] at h'
    exact Option.some.inj h' ▸ he
  · simp only [Subst.insertExpr, Function.update_of_ne hy] at h'
    exact h.exprs h'

/-- Recording one of the locations keeps it so. -/
lemma Over.insertLoc (h : subst.Over N L) (x : Core.Name) {loc : Loc} (hloc : loc ∈ L) :
    (subst.insertLoc x loc).Over N L := by
  refine ⟨h.exprs, fun y loc' h' => ?_, h.types⟩
  by_cases hy : y = x
  · subst hy
    simp only [Subst.insertLoc, Function.update_self] at h'
    exact Option.some.inj h' ▸ hloc
  · simp only [Subst.insertLoc, Function.update_of_ne hy] at h'
    exact h.locations h'

/-- Lowering an expression gives one over the names. -/
lemma Over.lowerExpr (h : subst.Over N L) (e : Core.Expr) :
    post (subst.lowerExpr e) (·.Over N) (fun _ => True) := by
  induction e with
  | var x sort =>
    cases x with
    | bound => trivial
    | free x => exact post_orError.mpr ⟨fun e he => h.exprs he, fun _ => trivial⟩
  | literal lit => trivial
  | binaryOp op e1 e2 ih1 ih2 =>
    rw [Subst.lowerExpr, post_bind]
    refine post_mono ih1 (fun e1 he1 => ?_) fun _ _ => trivial
    rw [post_bind]
    exact post_mono ih2 (fun e2 he2 => ⟨he1, he2⟩) fun _ _ => trivial

mutual

/-- **Types are lowered** to types over what is substituted and the variables in scope. -/
lemma wp_lowerTy_over (h : subst.Over N L) (c : Cursor) (hN : c.scope ⊆ N) : ∀ ty : Core.Ty,
    wp (subst.lowerTy ty) (fun ty c' => ty.Over N L ∧ c.Quiet c') (fun _ => True) c
  | .refine bty e => by
    rw [lowerTy, wp_bind]
    refine wp_imp (wp_lowerBaseTy_over h c hN bty) fun bty c' ⟨hbty, hc'⟩ => ?_
    rw [wp_bind, wp_ofExcept]
    exact post_mono (h.lowerExpr e) (fun e he => ⟨⟨hbty, he⟩, hc'⟩) fun _ _ => trivial
  | .exists_ bty .infer => by
    rw [lowerTy, wp_bind]
    refine wp_imp (wp_freshKvar_over bty.sort hN) fun p c' ⟨hp, hc'⟩ => ?_
    rw [wp_bind]
    refine wp_imp (wp_lowerBaseTy_over h c' (hc'.scope ▸ hN) bty) fun bty c'' ⟨hbty, hc''⟩ => ?_
    exact ⟨⟨hbty, hp⟩, hc'.trans hc''⟩
  | .exists_ bty (.expr e) => by
    rw [lowerTy, wp_bind, wp_ofExcept]
    refine post_mono (h.lowerExpr e) (fun e he => ?_) fun _ _ => trivial
    rw [wp_bind]
    exact wp_imp (wp_lowerBaseTy_over h c hN bty) fun bty c' ⟨hbty, hc'⟩ => ⟨⟨hbty, he⟩, hc'⟩
  | .mutRef loc => by
    rw [lowerTy, wp_bind, wp_orFail]
    exact ⟨fun loc hloc => ⟨h.locations hloc, .refl c⟩, fun _ => trivial⟩
  | .param p => by
    rw [lowerTy, wp_pure]
    refine ⟨?_, .refl c⟩
    cases hty : subst.types[p.index]? with
    | none => trivial
    | some ty => exact h.types ty (List.mem_of_getElem? hty)

/-- Lowering a base type gives one over the names and locations. -/
lemma wp_lowerBaseTy_over (h : subst.Over N L) (c : Cursor) (hN : c.scope ⊆ N) :
    ∀ bty : Core.BaseTy,
      wp (subst.lowerBaseTy bty) (fun bty c' => bty.Over N L ∧ c.Quiet c') (fun _ => True) c
  | .int _ | .uint _ | .bool => by
    rw [lowerBaseTy]
    exact ⟨trivial, .refl c⟩
  | .adt did substs => by
    rw [lowerBaseTy, wp_bind]
    exact wp_imp (wp_lowerTys_over h c hN substs) fun _ _ h => h

/-- The same for type arguments. -/
lemma wp_lowerTys_over (h : subst.Over N L) (c : Cursor) (hN : c.scope ⊆ N) :
    ∀ tys : List Core.Ty,
      wp (subst.lowerTys tys) (fun tys c' => tys.Over N L ∧ c.Quiet c') (fun _ => True) c
  | [] => by
    rw [lowerTys]
    exact ⟨trivial, .refl c⟩
  | ty :: tys => by
    rw [lowerTys, wp_bind]
    refine wp_imp (wp_lowerTy_over h c hN ty) fun ty c' ⟨hty, hc'⟩ => ?_
    rw [wp_bind]
    refine wp_imp (wp_lowerTys_over h c' (hc'.scope ▸ hN) tys) fun tys c'' ⟨htys, hc''⟩ => ?_
    exact ⟨⟨hty, htys⟩, hc'.trans hc''⟩

end

/-- The types of type parameters. -/
lemma wp_withTypeSubsts_over (hN : c.scope ⊆ N) (types : List Core.Ty) :
    wp (withTypeSubsts types) (fun subst c' => subst.Over N L ∧ c.Quiet c') (fun _ => True) c := by
  refine wp_foldlM (I := fun (subst : Subst) c' => subst.Over N L ∧ c.Quiet c')
    (fun ty _ subst c' ⟨h, hc'⟩ => ?_) ⟨over_withEmptyTypeSubsts, .refl c⟩
  rw [wp_bind]
  refine wp_imp (wp_lowerTy_over h c' (hc'.scope ▸ hN) ty) fun ty c'' ⟨hty, hc''⟩ => ?_
  refine ⟨⟨h.exprs, h.locations, fun ty' hty' => ?_⟩, hc'.trans hc''⟩
  rcases List.mem_append.mp hty' with hty' | hty'
  · exact h.types ty' hty'
  · exact List.mem_singleton.mp hty' ▸ hty

/-- The index or the location of an argument is substituted. -/
lemma Over.inferFromTys (h : subst.Over N L) {ty1 : Ty} (hty : ty1.Over N L) (ty2 : Core.Ty) :
    post (subst.inferFromTys ty1 ty2) (·.Over N L) (fun _ => True) := by
  unfold Subst.inferFromTys
  split
  · split
    · split
      · trivial
      · exact h.insertExpr _ hty.2
    · exact h.insertExpr _ hty.2
  · split
    · split
      · trivial
      · exact h.insertLoc _ hty
    · exact h.insertLoc _ hty
  · exact h

/-- **The substitution of a call** is over what the arguments and the environment are over. -/
lemma inferFromFnCall_over (h : subst.Over N L) {env : TypeEnv} (henv : env.Over N L)
    {actuals : List Ty} (hactuals : ∀ ty ∈ actuals, ty.Over N L) (fn_sig : Core.FnSig) :
    post (subst.inferFromFnCall env actuals fn_sig) (fun r => ∀ subst ∈ r, Over N L subst)
      (fun _ => True) := by
  have hargs : ∀ p ∈ actuals.zip fn_sig.args, ∀ subst : Subst, subst.Over N L →
      post (subst.inferFromTys p.1 p.2) (·.Over N L) (fun _ => True) := fun p hp subst h =>
    h.inferFromTys (hactuals p.1 (List.of_mem_zip hp).1) p.2
  have hrequires : ∀ binding ∈ fn_sig.requires, ∀ subst : Subst, subst.Over N L →
      post (subst.inferFromRequires env binding) (·.Over N L) (fun _ => True) := by
    intro binding _ subst h
    rw [inferFromRequires, post_bind, post_orError]
    refine ⟨fun loc _ => ?_, fun _ => trivial⟩
    rw [post_bind, post_orError]
    exact ⟨fun ty hty => h.inferFromTys (henv.lookupLoc hty) _, fun _ => trivial⟩
  unfold Subst.inferFromFnCall
  split
  · trivial
  · rw [post_bind]
    refine post_mono (post_foldlM hargs h) (fun subst h => ?_) fun _ _ => trivial
    rw [post_bind]
    refine post_mono (post_foldlM hrequires h) (fun subst h => ?_) fun _ _ => trivial
    rw [post_pure]
    split
    · rintro _ ⟨⟩
      exact h
    · exact fun _ h => nomatch h

end Subst

end LiquidRust.Typeck
