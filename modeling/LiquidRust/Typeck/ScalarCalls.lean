import LiquidRust.Typeck.Contracts
import LiquidRust.Typeck.Scalars

set_option relaxedAutoImplicit false
set_option autoImplicit false

/-!
# Calls meet the contracts of signatures

A call finds the values of the parameters in the indices of the arguments. The obligations of the
call are the precondition of the signature for these values, and a value that is returned has the
type that the caller goes on with.

## Main definitions

* `LiquidRust.Typeck.Calls.Respect` — the functions that are called keep their contracts.
* `LiquidRust.Typeck.Subst.values` — the values of the parameters that a call infers.

## Main results

* `LiquidRust.Typeck.Checker.pre_of_checked` — the obligations of a call are the precondition.
* `LiquidRust.Typeck.Checker.wp_checkCall_contract` — calls meet the contracts.
-/

namespace LiquidRust.Core

/-- The predicate of a parameter speaks of parameters only. -/
lemma ParamsScoped.exists_scoped {ps : List Name} {params : List Param} {param : Param}
    (h : ParamsScoped ps params) (hmem : param ∈ params) :
    ∃ ps', param.pred.ScopedIn (FreeIn ps') := by
  induction params generalizing ps with
  | nil => cases hmem
  | cons p params ih =>
    rcases List.mem_cons.mp hmem with rfl | hmem
    · exact ⟨_, h.2.1⟩
    · exact ih h.2.2 hmem

end LiquidRust.Core

namespace LiquidRust.Typeck

open Lib Cursor
open Core.Ir (BasicBlock Place Operand)

/-- **The functions that are called keep their contracts**, and leave what the caller has stored. -/
def Calls.Respect (calls : Calls) (specs : DefId → Option Core.FnSig) : Prop :=
  ∀ ⦃func fn_sig substs us S u S'⦄, specs func = some fn_sig → calls func substs us S u S' →
    S' = S ∧ ∀ inst, fn_sig.Pre inst us → fn_sig.Post inst u

/-! ## The values of the parameters -/

namespace Subst

variable {N : Set Name} {subst : Subst} {I : Interp} {ρ : Valuation}

/-- **The values of the parameters** that were inferred. -/
def values (subst : Subst) (I : Interp) (ρ : Valuation) : Instance
  | .bound => ρ .bound
  | .free x => ((subst.exprs x).bind (Expr.eval I.div ρ)).getD (.int 0)

/-- A substitution whose expressions have values matches them. -/
lemma matches_values (h : ∀ ⦃x e⦄, subst.exprs x = some e → ∃ v, e.eval I.div ρ = some v) :
    subst.Matches I ρ (subst.values I ρ) := by
  intro x e he
  obtain ⟨v, hv⟩ := h he
  simp [Subst.values, he, hv]

/-- What is inferred are the indices of arguments that are indexed by parameters in the
signature. -/
def FromArgs (subst : Subst) (args : List (Ty × Core.Ty)) : Prop :=
  ∀ ⦃x e⦄, subst.exprs x = some e →
    ∃ bty bty₀ symbol, (Ty.refine bty e, Core.Ty.refine bty₀ (.var (.free x) symbol)) ∈ args

/-- What is inferred from an argument comes from the arguments. -/
lemma FromArgs.inferFromTys {args : List (Ty × Core.Ty)} {p : Ty × Core.Ty}
    (h : subst.FromArgs args) (hp : p ∈ args) :
    post (subst.inferFromTys p.1 p.2) (·.FromArgs args) (fun _ => True) := by
  obtain ⟨ty, ty₀⟩ := p
  have hinsert : ∀ bty e bty₀ name symbol, ty = .refine bty e →
      ty₀ = .refine bty₀ (.var (.free name) symbol) → (subst.insertExpr name e).FromArgs args := by
    rintro bty e bty₀ name symbol rfl rfl x e' he'
    by_cases hx : x = name
    · subst hx
      simp only [insertExpr, Function.update_self, Option.some.injEq] at he'
      exact ⟨bty, bty₀, symbol, he' ▸ hp⟩
    · simp only [insertExpr, Function.update_of_ne hx] at he'
      exact h he'
  unfold Subst.inferFromTys
  split
  · next bty e bty₀ name symbol h1 h2 =>
    split
    · split
      · trivial
      · exact hinsert bty e bty₀ name symbol h1 h2
    · exact hinsert bty e bty₀ name symbol h1 h2
  · split
    · split
      · trivial
      · exact h
    · exact h
  · exact h

/-- **What a call infers** without locations: all parameters, from the arguments. -/
lemma inferFromFnCall_fromArgs (h : ∀ x, subst.exprs x = none) (env : TypeEnv) (actuals : List Ty)
    {fn_sig : Core.FnSig} (hrequires : fn_sig.requires = []) :
    post (subst.inferFromFnCall env actuals fn_sig)
      (fun r => ∀ subst ∈ r, subst.FromArgs (actuals.zip fn_sig.args) ∧
        ∀ param ∈ fn_sig.params, ∃ e, subst.exprs param.name.name = some e)
      (fun _ => True) := by
  unfold Subst.inferFromFnCall
  split
  · trivial
  · rw [post_bind]
    refine post_mono (post_foldlM (I := fun subst => subst.FromArgs (actuals.zip fn_sig.args))
      (fun p hp subst hs => hs.inferFromTys hp) ?_) (fun subst hs => ?_) fun _ _ => trivial
    · intro x e he
      rw [h x] at he
      cases he
    · rw [hrequires, List.foldlM_nil, post_bind, post_pure, post_pure]
      split
      · next hall =>
        rintro _ ⟨⟩
        refine ⟨hs, fun param hparam => ?_⟩
        rw [checkInference, Bool.and_eq_true, List.all_eq_true] at hall
        exact Option.isSome_iff_exists.mp (hall.1 param hparam)
      · intro _ hmem
        cases hmem

/-- The type parameters come with no expressions. -/
lemma wp_withTypeSubsts_exprs (types : List Core.Ty) (c : Cursor) :
    wp (withTypeSubsts types) (fun subst _ => ∀ x, subst.exprs x = none) (fun _ => True) c := by
  refine wp_foldlM (I := fun (subst : Subst) _ => ∀ x, subst.exprs x = none)
    (fun ty _ subst c' hs => ?_) fun _ => rfl
  rw [wp_bind]
  exact wp_of_forall (fun _ _ => hs) fun _ => trivial

end Subst

/-- Operands with values have a list of values. -/
lemma exists_mapM_operand {α : Type} {S : Store} {R : α → Value → Prop} {args : List Operand}
    {l : List α} (h : List.Forall₂ (fun op a => ∃ u, S.operand op = some u ∧ R a u) args l) :
    ∃ us, args.mapM S.operand = some us ∧ List.Forall₂ R l us := by
  induction h with
  | nil => exact ⟨[], rfl, .nil⟩
  | cons hop _ ih =>
    obtain ⟨u, hu, hR⟩ := hop
    obtain ⟨us, hus, hRs⟩ := ih
    exact ⟨u :: us, by simp [List.mapM_cons, hu, hus], .cons hR hRs⟩

namespace Checker

variable {tcx : Tcx} {D : Set Loc} {N : Set Name} {I : Interp} {ρ : Valuation} {S : Store}
  {env : TypeEnv} {subst : Subst} {actuals : List Ty} {args : List Operand}
  {fn_sig : Core.FnSig} {c : Cursor}

/-! ## The precondition -/

/-- **The obligations of a call are the precondition** of its signature, for the values that are
inferred. -/
theorem pre_of_checked (hscalar : fn_sig.Scalar) (hs : subst.Closed N)
    (hfrom : subst.FromArgs (actuals.zip fn_sig.args))
    (hparams : ∀ param ∈ fn_sig.params, ∃ e, subst.exprs param.name.name = some e)
    (hlength : actuals.length = fn_sig.args.length)
    (hchecked : Checked tcx I ρ env subst actuals fn_sig)
    (hvalues : List.Forall₂ (fun op (ty : Ty) => ∃ u, S.operand op = some u ∧ ty.Has tcx S I ρ u)
      args actuals) :
    ∃ us, args.mapM S.operand = some us ∧ fn_sig.Pre (subst.values I ρ) us ∧
      subst.Matches I ρ (subst.values I ρ) := by
  have hvalue : ∀ ty ∈ actuals, ∃ u, ty.Has tcx S I ρ u := by
    intro ty hty
    obtain ⟨i, hi, rfl⟩ := List.mem_iff_getElem.mp hty
    obtain ⟨u, -, hu⟩ := hvalues.get (by rw [hvalues.length_eq]; exact hi) hi
    exact ⟨u, hu⟩
  have hmatches : subst.Matches I ρ (subst.values I ρ) := by
    refine Subst.matches_values fun x e he => ?_
    obtain ⟨bty, bty₀, symbol, hmem⟩ := hfrom he
    obtain ⟨u, -, v, -, hv⟩ := hvalue _ (List.of_mem_zip hmem).1
    exact ⟨v, hv⟩
  have hhas : ∀ ty₀ ∈ fn_sig.args, ∀ u, subst.Has tcx I ρ S ty₀ u →
      ty₀.Has (subst.values I ρ) u := by
    rintro ty₀ hty₀ u ⟨ty, hinst, hu⟩
    have hscoped := hscalar.names.args ty₀ hty₀
    exact (hmatches.has_iff hs tcx S (hscalar.args ty₀ hty₀) hscoped hinst u).mp hu
  obtain ⟨us, hus, hforall⟩ := exists_mapM_operand (hchecked.operands hlength hvalues)
  refine ⟨us, hus, ⟨fun param hparam => ⟨?_, ?_⟩, ?_⟩, hmatches⟩
  · -- the parameter is the index of an argument, whose base type has the sort of the parameter
    obtain ⟨e, he⟩ := hparams param hparam
    obtain ⟨bty, bty₀, symbol, hmem⟩ := hfrom he
    obtain ⟨hactual, hformal⟩ := List.of_mem_zip hmem
    obtain ⟨u, hu⟩ := hvalue _ hactual
    obtain ⟨hbty₀, v, hv, hx⟩ := hhas _ hformal u (hchecked.args _ hmem S u hu)
    have hsort : fn_sig.sorts (.free param.name.name) = some bty₀.sort := by
      obtain ⟨-, hsorted⟩ := hscalar.sorted.args _ hformal
      cases hsorted with
      | var h => exact h
    have hparam' := Core.paramSorts_of_mem (Γ := fun _ => none) hscalar.names.params hparam
    have heq : param.sort = bty₀.sort := Option.some.inj (hparam'.symm.trans hsort)
    rw [Option.some.inj hx, heq]
    exact hbty₀.sort hv
  · obtain ⟨e, he, hholds⟩ := hchecked.params param hparam
    obtain ⟨ps, hscoped⟩ := hscalar.names.params.exists_scoped hparam
    exact (hmatches.eval_eq_of_scoped hscoped he).symm.trans hholds
  · rw [List.forall₂_iff_get] at hforall ⊢
    refine ⟨hforall.1, fun i h1 h2 => ?_⟩
    exact hhas _ (List.get_mem _ _) _ (hforall.2 i h1 h2)

/-! ## The return -/

/-- **The value that a call returns** is stored at its place, with an index of its own. -/
lemma wp_callReturn_ready (tcx : Tcx) (hc : c.Ready)
    (henv : env.Local (Ty.Indexed (namesBefore c.builder.nameGen)) D)
    (hs : subst.Closed (namesBefore c.builder.nameGen)) (hscalar : fn_sig.Scalar) (p : Place) :
    wp (callReturn tcx env subst fn_sig p) (fun env' c' => c'.Ready ∧ c.Le c' ∧
      env'.Local (Ty.Indexed (namesBefore c'.builder.nameGen)) D ∧
      ∀ I ρ inst S u, c.Assumes I ρ → env.Inhabits tcx I ρ S → subst.Matches I ρ inst →
        fn_sig.Post inst u →
        ∃ ρ' loc, Valuation.AgreeOn (namesBefore c.builder.nameGen) ρ ρ' ∧ c'.Assumes I ρ' ∧
          Store.place S p = some loc ∧ env'.Inhabits tcx I ρ' (Function.update S loc u))
      (fun _ => True) c := by
  rw [callReturn, wp_bind]
  refine wp_imp (Subst.wp_lowerTy_lowers hs hscalar.names.ret hscalar.paramFree.ret c)
    fun ty c' hlowered => ?_
  obtain ⟨rfl, hlowers⟩ := hlowered
  have hinst := hlowers.instantiates (.refl subst)
  obtain ⟨bty, hbty, hbase⟩ := hinst.hasBase hscalar.ret
  rw [wp_bind]
  refine wp_imp (wp_unpack_scalar tcx hc hbty hbase hlowers.stable) fun ty' c₁ hunpacked => ?_
  obtain ⟨hc₁, hle, hty', hunpack⟩ := hunpacked
  refine wp_imp (wp_writePlace_strong henv.strong) fun env' c₂ hwrite => ?_
  obtain ⟨rfl, loc, ty₀, hwalk, rfl⟩ := hwrite
  obtain ⟨ty₁, hty₁, hproj⟩ := TypeEnv.walkPlace_eq_ok.mp hwalk
  have hloc := henv.mem (TypeEnv.lookupLoc_of_walkProjection hty₁ hproj)
  have hmono := namesBefore_mono hle.nameGen
  have henv' := henv.mono fun ty (hty : ty.Indexed _) => hty.mono hmono
  refine ⟨hc₁, hle, henv'.insertLoc hloc hty', fun I ρ inst S u hρ hS hmatches hpost => ?_⟩
  have hu : ty.Has tcx (Function.update S loc u) I ρ u :=
    (hmatches.has_iff hs _ _ hscalar.ret hscalar.names.ret hinst u).mpr hpost
  obtain ⟨ρ', hagree, hρ', hu'⟩ := hunpack I ρ _ u hρ hu
  exact ⟨ρ', loc, hagree, hρ', (hS.walkPlace hwalk).1,
    hS.update henv.joined.unpacked hagree hu'⟩

/-! ## Calls -/

/-- The checks before a call are the preconditions of the signature. -/
lemma keepsNamed_checks (hs : subst.Closed N) (hscalar : fn_sig.Scalar) :
    KeepsNamed (do
      callParams subst fn_sig
      callArgs tcx subst actuals fn_sig
      callRequires tcx env subst fn_sig) := by
  have hlower : ∀ ty₀ ∈ fn_sig.args, KeepsNamed (subst.lowerTy ty₀) := by
    intro ty₀ hty₀ c hc
    refine wp_imp (Subst.wp_lowerTy_lowers hs (hscalar.names.args ty₀ hty₀)
      (hscalar.paramFree.args ty₀ hty₀) c) fun ty c' hlowered => ?_
    obtain ⟨rfl, -⟩ := hlowered
    exact hc
  refine KeepsNamed.bind (.forM fun param _ => ?_) fun _ =>
    KeepsNamed.bind (.forM fun p hp => ?_) fun _ => ?_
  · exact (KeepsNamed.ofExcept _).bind fun e => .pushHead _
  · exact (hlower p.2 (List.of_mem_zip hp).2).bind fun ty => .subtyping tcx p.1 ty
  · rw [callRequires, hscalar.requires]
    exact .pure ()

/-- **What is known after a call**: its arguments meet the precondition of the signature, and where
the value that is returned meets the postcondition, the store is one of the environment that is
passed on. -/
def MeetsContract (tcx : Tcx) (fn_sig : Core.FnSig) (args : List Operand)
    (destination : Option (Place × BasicBlock)) (r : Option (TypeEnv × BasicBlock))
    (c c' : Cursor) (I : Interp) (ρ : Valuation) (S : Store) : Prop :=
  ∃ us inst, args.mapM S.operand = some us ∧ fn_sig.Pre inst us ∧
    ∀ env' bb, r = some (env', bb) → ∃ p, destination = some (p, bb) ∧
      ∀ u, fn_sig.Post inst u →
        ∃ ρ' loc, Valuation.AgreeOn (namesBefore c.builder.nameGen) ρ ρ' ∧ c'.Assumes I ρ' ∧
          Store.place S p = some loc ∧ env'.Inhabits tcx I ρ' (Function.update S loc u)

/-- A call after its inference. -/
lemma wp_checkCallWith_contract (self : Checker) (args : List Operand) {F : Node} {s : State}
    (hc : s.cursor.Ready)
    (henv : env.Local (Ty.Indexed (namesBefore s.cursor.builder.nameGen)) D)
    (hactuals : ∀ ty ∈ actuals, ty.Indexed (namesBefore s.cursor.builder.nameGen))
    (hs : subst.Closed (namesBefore s.cursor.builder.nameGen))
    (hfrom : subst.FromArgs (actuals.zip fn_sig.args))
    (hparams : ∀ param ∈ fn_sig.params, ∃ e, subst.exprs param.name.name = some e)
    (hlength : actuals.length = fn_sig.args.length) (hscalar : fn_sig.Scalar)
    (destination : Option (Place × BasicBlock)) :
    wp (self.checkCallWith env subst actuals fn_sig destination)
      (fun r s' => s'.cursor.Ready ∧ s.cursor.Le s'.cursor ∧
        (∀ env' bb, r = some (env', bb) →
          env'.Local (Ty.Indexed (namesBefore s'.cursor.builder.nameGen)) D) ∧
        (s'.cursor.builder.root.Grows F → (∀ ρ, F.Holds I ρ) → ∀ ρ S, s.cursor.Assumes I ρ →
          env.Inhabits self.globalEnv.tcx I ρ S →
          List.Forall₂ (fun op (ty : Ty) => ∃ u, S.operand op = some u ∧
            ty.Has self.globalEnv.tcx S I ρ u) args actuals →
          MeetsContract self.globalEnv.tcx fn_sig args destination r s.cursor s'.cursor I ρ S))
      (fun _ => True) s := by
  have hchecks := (@proves_checks self.globalEnv.tcx _ _ _ _ _ hc.toValid (fun x hx => hx) hs
    henv.joined.unpacked _ (fun ty hty => (hactuals ty hty).joined.stable) hscalar.names
    hscalar.paramFree).ready (F := F) (I := I) (keepsNamed_checks hs hscalar) hc
  rw [wp_bind] at hchecks
  rw [checkCallWith]
  simp only [wp_bind, wp_liftCursor]
  refine wp_imp hchecks fun _ c₁ hchecks => ?_
  rw [wp_bind] at hchecks
  refine wp_imp hchecks fun _ c₂ hchecks => ?_
  refine wp_imp hchecks fun _ c₃ hasked => ?_
  obtain ⟨hc₃, hle, -, -, hchecked⟩ := hasked
  rw [hscalar.ensures, List.foldlM_nil, wp_pure]
  -- what the checks say of the values
  have hpre : c₃.builder.root.Grows F → (∀ ρ, F.Holds I ρ) → ∀ ρ S, s.cursor.Assumes I ρ →
      List.Forall₂ (fun op (ty : Ty) => ∃ u, S.operand op = some u ∧
        ty.Has self.globalEnv.tcx S I ρ u) args actuals →
      c₃.Assumes I ρ ∧ ∃ us, args.mapM S.operand = some us ∧ fn_sig.Pre (subst.values I ρ) us ∧
        subst.Matches I ρ (subst.values I ρ) := by
    intro hgrows hF ρ S hρ hvalues
    obtain ⟨hρ₃, hasked⟩ := hchecked hgrows ρ (hF ρ) hρ
    exact ⟨hρ₃, pre_of_checked hscalar hs hfrom hparams hlength hasked hvalues⟩
  cases destination with
  | none =>
    refine ⟨hc₃, hle, fun _ _ h => (by cases h), fun hgrows hF ρ S hρ _ hvalues => ?_⟩
    obtain ⟨-, us, hus, hpre, -⟩ := hpre hgrows hF ρ S hρ hvalues
    exact ⟨us, _, hus, hpre, fun _ _ h => (by cases h)⟩
  | some d =>
    obtain ⟨p, bb⟩ := d
    have hmono := namesBefore_mono hle.nameGen
    have henv₃ := henv.mono fun ty (hty : ty.Indexed _) => hty.mono hmono
    have hs₃ : subst.Closed (namesBefore c₃.builder.nameGen) := fun _ _ he => (hs he).mono hmono
    dsimp only
    rw [wp_bind, wp_liftCursor]
    refine wp_imp (wp_callReturn_ready self.globalEnv.tcx hc₃ henv₃ hs₃ hscalar p)
      fun env₄ c₄ hreturned => ?_
    obtain ⟨hc₄, hle₄, henv₄, hreturn⟩ := hreturned
    rw [wp_bind, wp_record, wp_pure]
    refine ⟨hc₄, hle.trans hle₄, ?_, fun hgrows hF ρ S hρ hS hvalues => ?_⟩
    · rintro _ _ ⟨⟩
      exact henv₄
    · obtain ⟨hρ₃, us, hus, hpre, hmatches⟩ :=
        hpre (hle₄.root.trans hgrows) hF ρ S hρ hvalues
      refine ⟨us, _, hus, hpre, ?_⟩
      rintro _ _ ⟨⟩
      refine ⟨p, rfl, fun u hu => ?_⟩
      obtain ⟨ρ', loc, hagree, hρ', hplace, hS'⟩ := hreturn I ρ _ S u hρ₃ hS hmatches hu
      exact ⟨ρ', loc, hagree.mono hmono, hρ', hplace, hS'⟩

/-- **Calls meet the contracts** of the functions that are called. -/
theorem wp_checkCall_contract (self : Checker) {F : Node} {s : State} (hc : s.cursor.Ready)
    (henv : env.Local (Ty.Indexed (namesBefore s.cursor.builder.nameGen)) D) {func : DefId}
    (hspecs : ∀ fn_sig, self.globalEnv.specs func = some fn_sig → fn_sig.Scalar)
    (substs : List Core.Ty) (args : List Operand) (destination : Option (Place × BasicBlock)) :
    wp (self.checkCall env func substs args destination)
      (fun r s' => s'.cursor.Ready ∧ s.cursor.Le s'.cursor ∧
        (∀ env' bb, r = some (env', bb) →
          env'.Local (Ty.Indexed (namesBefore s'.cursor.builder.nameGen)) D) ∧
        (s'.cursor.builder.root.Grows F → (∀ ρ, F.Holds I ρ) → ∀ ρ S, s.cursor.Assumes I ρ →
          env.Inhabits self.globalEnv.tcx I ρ S →
          ∃ fn_sig, self.globalEnv.specs func = some fn_sig ∧
            MeetsContract self.globalEnv.tcx fn_sig args destination r s.cursor s'.cursor I ρ S))
      (fun _ => True) s := by
  rw [checkCall, wp_bind, wp_liftCursor, wp_orFail]
  refine ⟨fun fn_sig hsig => ?_, fun _ => trivial⟩
  have hscalar := hspecs fn_sig hsig
  rw [wp_bind, wp_liftCursor, wp_ofExcept]
  cases hops : checkOperands env args with
  | error f => trivial
  | ok operands =>
    obtain ⟨env₁, actuals⟩ := operands
    have hlocal := checkOperands_local henv args
    rw [hops] at hlocal
    obtain ⟨henv₁, hactuals⟩ := hlocal
    rw [post_ok]
    dsimp only
    rw [wp_bind, wp_record, wp_bind, wp_liftCursor]
    refine wp_mono (wp_and (Subst.wp_withTypeSubsts_closed
        (N := namesBefore s.cursor.builder.nameGen) substs s.cursor)
      (Subst.wp_withTypeSubsts_exprs substs s.cursor)) (fun subst₀ c₀ hsubst => ?_)
      fun _ _ => trivial
    obtain ⟨⟨hclosed, hquiet⟩, hexprs⟩ := hsubst
    have hmono := namesBefore_mono hquiet.nameGen
    have henv₀ := henv₁.mono fun ty (hty : ty.Indexed _) => hty.mono hmono
    have hactuals₀ := fun ty hty => (hactuals ty hty).mono hmono
    rw [wp_bind, wp_liftCursor, wp_ofExcept]
    have hinferred := hclosed.inferFromFnCall henv₁.joined.unpacked.scoped
      (fun ty hty => (hactuals ty hty).joined.stable.names) fn_sig
    have hfrom := Subst.inferFromFnCall_fromArgs hexprs env₁ actuals hscalar.requires
    cases hinfer : subst₀.inferFromFnCall env₁ actuals fn_sig with
    | error f => trivial
    | ok inferred =>
      rw [hinfer] at hinferred hfrom
      cases inferred with
      | none => trivial
      | some subst =>
        obtain ⟨hlength, hs⟩ := hinferred
        obtain ⟨hfrom, hparams⟩ := hfrom subst rfl
        rw [post_ok]
        refine wp_imp (wp_checkCallWith_contract (I := I) (F := F) self args
          (hquiet.ready hc) henv₀ hactuals₀ (fun _ _ he => (hs subst rfl he).mono hmono) hfrom
          hparams hlength hscalar destination)
          fun r s' hcall => ?_
        obtain ⟨hc', hle, henv', hmeets⟩ := hcall
        refine ⟨hc', hquiet.le.trans hle, henv', fun hgrows hF ρ S hρ hS => ⟨fn_sig, hsig, ?_⟩⟩
        have hvalues := checkOperands_inhabits hS args
        rw [hops] at hvalues
        obtain ⟨hS₁, hvalues⟩ := hvalues
        have hρ₀ := (hquiet.assumes_iff hc.toValid).mpr hρ
        obtain ⟨us, inst, hus, hpre, hreturn⟩ := hmeets hgrows hF ρ S hρ₀ hS₁ hvalues
        refine ⟨us, inst, hus, hpre, fun env' bb hr => ?_⟩
        obtain ⟨p, hp, hpost⟩ := hreturn env' bb hr
        refine ⟨p, hp, fun u hu => ?_⟩
        obtain ⟨ρ', loc, hagree, hρ', hplace, hS'⟩ := hpost u hu
        exact ⟨ρ', loc, hagree.mono hmono, hρ', hplace, hS'⟩

end Checker

end LiquidRust.Typeck
