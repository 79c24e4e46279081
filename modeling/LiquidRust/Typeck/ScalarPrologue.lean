import LiquidRust.Typeck.ScalarCalls

set_option relaxedAutoImplicit false
set_option autoImplicit false

/-!
# The prologue of a function over integers and booleans

The prologue binds the parameters of a signature to new names and the arguments to their types. For
values that meet the precondition, the new names have values for which the hypotheses of the check
are true and the store inhabits the first environment.

## Main definitions

* `LiquidRust.Typeck.Store.HasArgs` — the arguments in the store at the beginning of a function.

## Main results

* `LiquidRust.Typeck.GlobalEnv.wp_prologue_meets` — what the prologue establishes.
-/

namespace LiquidRust.Typeck

open Lib Cursor
open Core.Ir (Body returnPlace)

/-- **The store at the beginning of a function**: the arguments are in their local variables. -/
def Store.HasArgs (body : Body) (S : Store) (us : List Value) : Prop :=
  body.argsIter.map (fun l => S (.local_ l)) = us

namespace GlobalEnv

variable {tcx : Tcx} {I : Interp} {c : Cursor} {subst : Subst} {env : TypeEnv}
  {params : List Core.Param} {fn_sig : Core.FnSig} {body : Body}

/-! ## Parameters -/

/-- The parameters have values of their sorts for which their predicates are true. -/
def ParamsHold (inst : Instance) (params : List Core.Param) : Prop :=
  ∀ param ∈ params, (inst (.free param.name.name)).sort = param.sort ∧ param.pred.Holds inst

/-- What is bound so far stands for the values of the parameters. -/
def Binds (I : Interp) (params : List Core.Param) (c : Cursor) (subst : Subst) : Prop :=
  ∀ inst, ParamsHold inst params → ∃ ρ, c.Assumes I ρ ∧ subst.Matches I ρ inst

/-- **A parameter is bound** to a new name, under its predicate. -/
lemma wp_bindParam_meets (hc : c.Ready) (hs : subst.Closed (namesBefore c.builder.nameGen))
    (hbinds : Binds I params c subst) {param : Core.Param} {ps : List Core.Name}
    (hscoped : param.pred.ScopedIn (Core.FreeIn ps)) :
    wp (bindParam subst param) (fun subst' c' => c'.Ready ∧
      subst'.Closed (namesBefore c'.builder.nameGen) ∧ Binds I (params ++ [param]) c' subst')
      (fun _ => True) c := by
  let x := c.builder.nameGen
  have hmade := hc.withNameGen (Nat.le_succ x)
  have hmono : namesBefore x ⊆ namesBefore (x + 1) := namesBefore_mono (Nat.le_succ x)
  have hx : x ∈ namesBefore (x + 1) := Nat.lt_succ_self x
  have hs' : (subst.insertExpr param.name.name (.var (.free x))).Closed (namesBefore (x + 1)) :=
    Subst.Closed.insertExpr (fun _ _ he => (hs he).mono hmono) _ hx
  rw [bindParam, wp_bind, wp_freshName, wp_bind, wp_ofExcept]
  have hexpr := hs'.lowerExpr ps param.pred
  cases hlower : (subst.insertExpr param.name.name (.var (.free x))).lowerExpr param.pred with
  | error f => trivial
  | ok e =>
    rw [hlower] at hexpr
    obtain ⟨hover, -, -⟩ := hexpr
    rw [post_ok, wp_bind]
    refine wp_imp (wp_pushForall_ready hmade hx (p := .expr e) hover) fun _ c' h => ?_
    obtain ⟨hc', hle, hgen, hassumes⟩ := h
    rw [wp_pure]
    refine ⟨hc', hgen ▸ hs', fun inst hinst => ?_⟩
    obtain ⟨hinst, hparam⟩ := List.forall_mem_append.mp hinst
    obtain ⟨hsort, hpred⟩ := hparam param (List.mem_singleton_self _)
    obtain ⟨ρ, hρ, hmatches⟩ := hbinds inst hinst
    let ρ' := ρ.set x (inst (.free param.name.name))
    have hagree : Valuation.AgreeOn (namesBefore x) ρ ρ' :=
      Valuation.agreeOn_set (show x ∉ namesBefore x from lt_irrefl x) _
    have hmatches' : (subst.insertExpr param.name.name (.var (.free x))).Matches I ρ' inst := by
      intro y e' he'
      by_cases hy : y = param.name.name
      · subst hy
        simp only [Subst.insertExpr, Function.update_self, Option.some.injEq] at he'
        rw [← he']
        exact congrArg some (ρ.set_self x _)
      · simp only [Subst.insertExpr, Function.update_of_ne hy] at he'
        exact (hmatches.congr hs hagree) he'
    refine ⟨ρ', hassumes I ρ' (hc.assumes_congr hagree hρ) ?_ ?_, hmatches'⟩
    · exact (congrArg (fun v : Val => v.sort) (ρ.set_self x _)).trans hsort
    · exact (hmatches'.eval_eq_of_scoped hscoped hlower).trans hpred

/-- The parameters of the prologue bind what the precondition says of them. -/
lemma wp_prologueParams_meets (hscoped : Core.ParamsScoped [] params) :
    wp (prologueParams params) (fun subst c => c.Ready ∧
      subst.Closed (namesBefore c.builder.nameGen) ∧ Binds I params c subst)
      (fun _ => True) ConstraintBuilder.new.asCursor := by
  refine wp_foldlM_done (I := fun done subst c => c.Ready ∧
    subst.Closed (namesBefore c.builder.nameGen) ∧ Binds I done c subst) ?_ ?_
  · intro done param rest hparams subst c h
    obtain ⟨hc, hs, hbinds⟩ := h
    have hparam : param ∈ params := by simp [hparams]
    obtain ⟨ps, hscoped⟩ := hscoped.exists_scoped hparam
    exact wp_bindParam_meets hc hs hbinds hscoped
  · refine ⟨ready_new, fun _ _ h => (by cases h), fun inst _ => ⟨fun _ => .int 0, ?_, ?_⟩⟩
    · rintro ls ⟨⟩ l hl
      cases hl
    · intro x e h
      cases h

/-! ## Arguments -/

/-- **An argument is bound** to its type, with an index. -/
lemma wp_bindArg_meets (tcx : Tcx) (hc : c.Ready)
    (henv : env.Local (Ty.Indexed (namesBefore c.builder.nameGen)) env.locSet)
    (hs : subst.Closed (namesBefore c.builder.nameGen)) {ty₀ : Core.Ty} {ps locs : List Core.Name}
    (hscalar : ty₀.IsScalar) (hscoped : ty₀.Scoped ps locs) (l : Local) :
    wp (bindArg subst env (l, ty₀)) (fun env' c' => c'.Ready ∧ c.Le c' ∧
      env'.Local (Ty.Indexed (namesBefore c'.builder.nameGen)) env'.locSet ∧
      ∀ inst ρ S, c.Assumes I ρ → subst.Matches I ρ inst → env.Inhabits tcx I ρ S →
        ty₀.Has inst (S (.local_ l)) →
        ∃ ρ', Valuation.AgreeOn (namesBefore c.builder.nameGen) ρ ρ' ∧ c'.Assumes I ρ' ∧
          env'.Inhabits tcx I ρ' S) (fun _ => True) c := by
  rw [bindArg, wp_bind]
  refine wp_imp (Subst.wp_lowerTy_lowers hs hscoped hscalar.paramFree c) fun ty c₁ h => ?_
  obtain ⟨rfl, hlowers⟩ := h
  have hinst := hlowers.instantiates (.refl subst)
  obtain ⟨bty, hbty, hbase⟩ := hinst.hasBase hscalar
  rw [wp_bind]
  refine wp_imp (wp_unpack_scalar tcx hc hbty hbase hlowers.stable) fun ty' c' h => ?_
  obtain ⟨hc', hle, hty', hunpack⟩ := h
  rw [wp_pure]
  have hmono := namesBefore_mono hle.nameGen
  refine ⟨hc', hle, ⟨henv.strong.insertLoc _ _, rfl, ?_⟩, fun inst ρ S hρ hmatches hS hhas => ?_⟩
  · exact TypeEnv.forall_lookupLoc_insertLoc (P := fun _ ty => ty.Indexed _) hty'
      fun _ _ _ hty => (henv.types hty).mono hmono
  · have hu := (hmatches.has_iff hs tcx S hscalar hscoped hinst _).mpr hhas
    obtain ⟨ρ', hagree, hρ', hu'⟩ := hunpack I ρ S _ hρ hu
    refine ⟨ρ', hagree, hρ', TypeEnv.forall_lookupLoc_insertLoc hu' fun loc ty'' _ hty => ?_⟩
    exact (henv.types hty).joined.stable.has_congr hagree S (hS hty)

/-- The arguments of the prologue have the types of the signature. -/
lemma wp_prologueArgs_meets (tcx : Tcx) (hc : c.Ready)
    (henv : env.Local (Ty.Indexed (namesBefore c.builder.nameGen)) env.locSet)
    (hs : subst.Closed (namesBefore c.builder.nameGen)) {args : List (Local × Core.Ty)}
    {ps locs : List Core.Name} (hargs : ∀ p ∈ args, p.2.IsScalar ∧ p.2.Scoped ps locs) :
    wp (prologueArgs subst env args) (fun env' c' => c'.Ready ∧ c.Le c' ∧
      env'.Local (Ty.Indexed (namesBefore c'.builder.nameGen)) env'.locSet ∧
      ∀ inst ρ S, c.Assumes I ρ → subst.Matches I ρ inst → env.Inhabits tcx I ρ S →
        (∀ p ∈ args, p.2.Has inst (S (.local_ p.1))) →
        ∃ ρ', Valuation.AgreeOn (namesBefore c.builder.nameGen) ρ ρ' ∧ c'.Assumes I ρ' ∧
          env'.Inhabits tcx I ρ' S) (fun _ => True) c := by
  induction args generalizing env c with
  | nil =>
    exact ⟨hc, .refl c, henv, fun inst ρ S hρ _ hS _ => ⟨ρ, .refl, hρ, hS⟩⟩
  | cons p args ih =>
    obtain ⟨l, ty₀⟩ := p
    obtain ⟨⟨hscalar, hscoped⟩, hargs⟩ := List.forall_mem_cons.mp hargs
    rw [prologueArgs, List.foldlM_cons, wp_bind]
    refine wp_imp (wp_bindArg_meets (I := I) tcx hc henv hs hscalar hscoped l)
      fun env₁ c₁ h => ?_
    obtain ⟨hc₁, hle₁, henv₁, hsound₁⟩ := h
    have hmono := namesBefore_mono hle₁.nameGen
    refine wp_imp (ih hc₁ henv₁ (fun _ _ he => (hs he).mono hmono) hargs) fun env₂ c₂ h => ?_
    obtain ⟨hc₂, hle₂, henv₂, hsound₂⟩ := h
    refine ⟨hc₂, hle₁.trans hle₂, henv₂, fun inst ρ S hρ hmatches hS hhas => ?_⟩
    obtain ⟨hhas₁, hhas₂⟩ := List.forall_mem_cons.mp hhas
    obtain ⟨ρ₁, hagree₁, hρ₁, hS₁⟩ := hsound₁ inst ρ S hρ hmatches hS hhas₁
    obtain ⟨ρ₂, hagree₂, hρ₂, hS₂⟩ :=
      hsound₂ inst ρ₁ S hρ₁ (hmatches.congr hs hagree₁) hS₁ hhas₂
    exact ⟨ρ₂, hagree₁.trans (hagree₂.mono hmono), hρ₂, hS₂⟩

/-! ## The prologue -/

/-- A location without a value. -/
lemma local_insertLoc_uninit {N : Set Name} (henv : env.Local (Ty.Indexed N) env.locSet)
    (loc : Loc) :
    (env.insertLoc loc .uninit).Local (Ty.Indexed N) (env.insertLoc loc .uninit).locSet where
  strong := henv.strong.insertLoc loc .uninit
  locSet := rfl
  types := TypeEnv.forall_lookupLoc_insertLoc (P := fun _ ty => ty.Indexed N) trivial
    fun _ _ _ hty => henv.types hty

/-- **What the prologue establishes** of the first environment, for values that meet the
precondition. -/
structure Meets (tcx : Tcx) (I : Interp) (body : Body) (fn_sig : Core.FnSig) (p : Prologue)
    (c : Cursor) (N : Set Name) (subst : Subst) : Prop where
  ready : c.Ready
  names : N ⊆ namesBefore c.builder.nameGen
  env : p.env.Local (Ty.Indexed (namesBefore c.builder.nameGen)) p.env.locSet
  ensures : p.ensures = []
  closed : subst.Closed N
  retTy : p.retTy.Scoped N
  result : subst.Instantiates fn_sig.ret p.retTy
  enters : ∀ ⦃inst us S⦄, fn_sig.Pre inst us → S.HasArgs body us →
    ∃ ρ, c.Assumes I ρ ∧ subst.Matches I ρ inst ∧ p.env.Inhabits tcx I ρ S

/-- The arguments in the store have the types of the signature. -/
lemma has_of_pre {inst : Instance} {us : List Value} {S : Store} (hpre : fn_sig.Pre inst us)
    (hargs : S.HasArgs body us) :
    ∀ p ∈ body.argsIter.zip fn_sig.args, p.2.Has inst (S (.local_ p.1)) := by
  have hall := hpre.args
  rw [← hargs, List.forall₂_map_right_iff] at hall
  intro p hp
  have hflip := List.Forall₂.flip hall
  exact (List.forall₂_iff_zip.mp hflip).2 hp

/-- **The prologue** of a function over integers and booleans. -/
theorem wp_prologue_meets (tcx : Tcx) (I : Interp) (body : Body) (hsig : fn_sig.Scalar) :
    wp (prologue body fn_sig) (fun p c => ∃ N subst, Meets tcx I body fn_sig p c N subst)
      (fun _ => True) ConstraintBuilder.new.asCursor := by
  rw [prologue, wp_bind]
  refine wp_imp (wp_prologueParams_meets (I := I) hsig.names.params) fun subst c h => ?_
  obtain ⟨hc, hs, hbinds⟩ := h
  have hnew : TypeEnv.new.Local (Ty.Indexed (namesBefore c.builder.nameGen)) TypeEnv.new.locSet :=
    ⟨fun _ _ h => (by cases h), rfl, fun _ _ h => (by cases h)⟩
  simp only [prologueRequires, hsig.requires, List.foldlM_nil, pure_bind]
  rw [wp_bind]
  have hargs : ∀ p ∈ body.argsIter.zip fn_sig.args,
      p.2.IsScalar ∧ p.2.Scoped fn_sig.paramNames fn_sig.requiredLocs := by
    intro p hp
    have hty := (List.of_mem_zip hp).2
    exact ⟨hsig.args _ hty, hsig.names.args _ hty⟩
  refine wp_imp (wp_prologueArgs_meets (I := I) tcx hc hnew hs hargs) fun env c' h => ?_
  obtain ⟨hc', hle, henv, hsound⟩ := h
  simp only [prologueEnsures, hsig.ensures, List.mapM_nil, pure_bind]
  rw [wp_bind]
  refine wp_imp (Subst.wp_lowerTy_lowers hs hsig.names.ret hsig.ret.paramFree c')
    fun retTy c'' h => ?_
  obtain ⟨rfl, hlowers⟩ := h
  rw [wp_pure]
  -- the other local variables have no values
  have huninit : ∀ vars : List Local, ∀ env : TypeEnv,
      env.Local (Ty.Indexed (namesBefore c''.builder.nameGen)) env.locSet →
      (vars.foldl (fun env l => env.insertLoc (.local_ l) .uninit) env).Local
        (Ty.Indexed (namesBefore c''.builder.nameGen))
        (vars.foldl (fun env l => env.insertLoc (.local_ l) .uninit) env).locSet ∧
      ∀ ρ S, env.Inhabits tcx I ρ S →
        (vars.foldl (fun env l => env.insertLoc (.local_ l) .uninit) env).Inhabits tcx I ρ S := by
    intro vars
    induction vars with
    | nil => exact fun env henv => ⟨henv, fun ρ S hS => hS⟩
    | cons l vars ih =>
      intro env henv
      obtain ⟨hlocal, hinhabits⟩ := ih _ (local_insertLoc_uninit henv (.local_ l))
      exact ⟨hlocal, fun ρ S hS => hinhabits ρ S (hS.insertLoc trivial)⟩
  obtain ⟨henv', hinhabits⟩ := huninit body.varsAndTempsIter env henv
  refine ⟨_, subst, hc', namesBefore_mono hle.nameGen, local_insertLoc_uninit henv' _, rfl, hs,
    hlowers.stable.names, hlowers.instantiates (.refl subst), fun inst us S hpre hargs => ?_⟩
  obtain ⟨ρ, hρ, hmatches⟩ := hbinds inst hpre.params
  obtain ⟨ρ', hagree, hρ', hS⟩ :=
    hsound inst ρ S hρ hmatches (fun _ _ h => (by cases h)) (has_of_pre hpre hargs)
  exact ⟨ρ', hρ', hmatches.congr hs hagree, (hinhabits ρ' S hS).insertLoc trivial⟩

end GlobalEnv

end LiquidRust.Typeck
