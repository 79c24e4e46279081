import LiquidRust.Core.WfCorrect
import LiquidRust.Driver.Resolve

set_option relaxedAutoImplicit false
set_option autoImplicit false

/-!
# Resolved signatures are scoped

The resolver refers only to parameters and locations that are in scope, and the sort checker is
exact on the places of a signature that it visits. It does not visit the types of `requires` nor
the types in the arguments of an ADT.

## Main definitions

* `LiquidRust.Driver.Subst.InScope` — the names that a substitution can produce.

## Main results

* `LiquidRust.Driver.Resolver.run_scoped` — resolved signatures are scoped.
* `LiquidRust.Driver.Resolver.checkFnSig_sound_complete_iff` — when the sort checker accepts
  exactly the well-sorted signatures.
* `LiquidRust.Driver.Resolver.checkFnSig_misses_requires` — an ill-sorted signature that it
  accepts.
-/

namespace LiquidRust.Driver

open Common Core Outcome

/-! ## The names in scope -/

namespace ScopeMap

variable {K V : Type} [DecidableEq K]

/-- A key that is defined is found. -/
@[simp] lemma get_define_self (m : ScopeMap K V) (k : K) (v : V) :
    (m.define k v).get k = some v := by
  cases m <;> simp [get, define]

/-- Other keys are found as before. -/
lemma get_define_of_ne (m : ScopeMap K V) {k k' : K} (v : V) (h : k' ≠ k) :
    (m.define k v).get k' = m.get k' := by
  have hne : (k' == k) = false := by simpa using h
  cases m with
  | nil => simp [get, define, List.lookup_cons, hne]
  | cons layer layers =>
    simp only [get, define, List.findSome?_cons, List.lookup_cons, hne]

end ScopeMap

namespace Subst

/-- The variables that a substitution produces satisfy `S`, and its locations are among `locs`. -/
structure InScope (subst : Subst) (S : Var → Prop) (locs : List Name) : Prop where
  expr : ∀ symb x, subst.getExpr symb = some x → S x
  region : ∀ symb name, subst.getRegion symb = some name → name ∈ locs

variable {subst : Subst} {S S' : Var → Prop} {locs : List Name}

/-- Names in scope are so among more variables. -/
lemma InScope.mono (h : subst.InScope S locs) (hS : ∀ x, S x → S' x) : subst.InScope S' locs :=
  ⟨fun symb x hx => hS x (h.expr symb x hx), h.region⟩

/-- A new entry hides those below it. -/
lemma InScope.insertExpr (h : subst.InScope S locs) (symb : Symbol) {x : Var} (hx : S x) :
    (subst.insertExpr symb x).1.InScope S locs := by
  unfold Subst.insertExpr
  split_ifs with htop
  · exact h
  refine ⟨fun symb' y hy => ?_, h.region⟩
  by_cases hs : symb' = symb
  · rw [getExpr, hs, ScopeMap.get_define_self] at hy
    exact Option.some.inj hy ▸ hx
  · rw [getExpr, ScopeMap.get_define_of_ne _ _ hs] at hy
    exact h.expr symb' y hy

/-- A new layer has no names of its own. -/
lemma InScope.pushExprLayer (h : subst.InScope S locs) : subst.pushExprLayer.InScope S locs :=
  ⟨h.expr, h.region⟩

/-- A location comes into scope. -/
lemma InScope.insertRegion (h : subst.InScope S locs) (symb : Symbol) (name : Name) :
    (subst.insertRegion symb name).InScope S (name :: locs) := by
  refine ⟨h.expr, fun symb' name' hn => ?_⟩
  by_cases hs : symb' = symb
  · have : name = name' := by simpa [Subst.insertRegion, getRegion, hs] using hn
    exact this ▸ .head _
  · have : subst.getRegion symb' = some name' := by
      simpa [Subst.insertRegion, getRegion, Function.update_of_ne hs] using hn
    exact .tail _ (h.region symb' name' this)

/-- Nothing is in scope at first. -/
lemma inScope_new (S : Var → Prop) : new.InScope S [] := by
  refine ⟨fun symb x hx => ?_, fun symb name hn => ?_⟩
  · simp [new, getExpr, ScopeMap.get, ScopeMap.new] at hx
  · simp [new, getRegion] at hn

end Subst

/-! ## Expressions and types -/

section Types

variable {self : Resolver} {subst : Subst} {ps locs : List Name}

/-- The variables of a resolved expression are in scope. -/
lemma resolveExpr_scoped {S : Var → Prop} (hs : subst.InScope S locs) {e : Syntax.Expr}
    {e' : Expr} (h : resolveExpr e subst = .ok e') : e'.ScopedIn S := by
  induction e generalizing e' with
  | var ident =>
    obtain ⟨x, hx, he⟩ := bind_eq_ok.mp h
    cases he
    unfold resolveVar at hx
    split at hx
    · next y hy => exact hs.expr ident x (hy.trans (congrArg some (ok.inj hx)))
    · cases hx
  | literal lit =>
    obtain ⟨lit', -, he⟩ := bind_eq_ok.mp h
    cases he
    trivial
  | binaryOp op e1 e2 ih1 ih2 =>
    obtain ⟨⟨e1', e2'⟩, he, he'⟩ := bind_eq_ok.mp h
    cases he'
    obtain ⟨h1, h2⟩ := both_eq_ok.mp he
    exact ⟨ih1 h1, ih2 h2⟩

/-- The predicate of an existential sees its binder. -/
lemma Subst.InScope.bind (hs : subst.InScope (FreeIn ps) locs) (bind : Ident) :
    (subst.pushExprLayer.insertExpr bind .bound).1.InScope (BoundOrFreeIn ps) locs := by
  refine (hs.mono ?_).pushExprLayer.insertExpr bind trivial
  rintro (_ | name) hname
  · trivial
  · exact hname

mutual

/-- **A resolved type is scoped.** -/
theorem resolveTy_scoped (hs : subst.InScope (FreeIn ps) locs) :
    ∀ (ty : Syntax.Ty) {ty' : Ty}, self.resolveTy ty subst = .ok ty' → ty'.Scoped ps locs
  | .baseTy path, ty', h => by
    rw [Resolver.resolveTy] at h
    obtain ⟨p, hp, h⟩ := bind_eq_ok.mp h
    have hpath := resolvePath_scoped hs path hp
    cases p <;> cases h
    · exact ⟨hpath _ rfl, trivial⟩
    · trivial
  | .refineTy path refine, ty', h => by
    rw [Resolver.resolveTy] at h
    obtain ⟨p, hp, h⟩ := bind_eq_ok.mp h
    have hpath := resolvePath_scoped hs path hp
    cases p with
    | baseTy bty =>
      obtain ⟨e, he, h⟩ := bind_eq_ok.mp h
      cases h
      exact ⟨hpath _ rfl, resolveExpr_scoped hs he⟩
    | paramTy p => cases h
  | .exists_ bind path pred, ty', h => by
    rw [Resolver.resolveTy] at h
    obtain ⟨p, hp, h⟩ := bind_eq_ok.mp h
    have hpath := resolvePath_scoped hs path hp
    cases p with
    | baseTy bty =>
      obtain ⟨e, he, h⟩ := bind_eq_ok.mp h
      cases h
      exact ⟨hpath _ rfl, resolveExpr_scoped (hs.bind bind) he⟩
    | paramTy p => cases h
  | .mutRef region, ty', h => by
    rw [Resolver.resolveTy] at h
    split at h
    · next name hname =>
      cases h
      exact hs.region region name hname
    · cases h

/-- A base type that a path stands for is scoped. -/
theorem resolvePath_scoped (hs : subst.InScope (FreeIn ps) locs) :
    ∀ (path : Syntax.Path) {p : ParamTyOrBaseTy}, self.resolvePath path subst = .ok p →
      ∀ bty, p = .baseTy bty → bty.Scoped ps locs
  | .mk ident none, p, h => by
    rw [Resolver.resolvePath] at h
    rintro bty rfl
    split at h <;> try cases h
    case h_2 => split at h <;> cases h
    all_goals trivial
  | .mk ident (some args), p, h => by
    rw [Resolver.resolvePath] at h
    rintro bty rfl
    split at h <;> try cases h
    case h_2 => split at h <;> cases h
    case h_3 =>
      obtain ⟨args', hargs, h⟩ := bind_eq_ok.mp h
      cases h
      exact resolveTys_scoped hs args hargs
    all_goals trivial

/-- Resolved types are scoped. -/
theorem resolveTys_scoped (hs : subst.InScope (FreeIn ps) locs) :
    ∀ (tys : List Syntax.Ty) {tys' : List Ty}, self.resolveTys tys subst = .ok tys' →
      TysScoped ps locs tys'
  | [], tys', h => by
    rw [Resolver.resolveTys] at h
    cases h
    trivial
  | ty :: tys, tys', h => by
    rw [Resolver.resolveTys] at h
    obtain ⟨⟨ty', tys'⟩, hp, rfl⟩ := map_eq_ok.mp h
    obtain ⟨h1, h2⟩ := both_eq_ok.mp hp
    exact ⟨resolveTy_scoped hs ty h1, resolveTys_scoped hs tys h2⟩

end

end Types

/-! ## Signatures -/

namespace Resolver

variable {self : Resolver}

/-- All names in use were generated. -/
def State.Generated (st : State) (names : List Name) : Prop :=
  ∀ name ∈ names, name < st.nameGen

/-- A resolved parameter is new and in scope in its own predicate. -/
lemma resolveParam_spec {st st' : State} {ps locs : List Name} {param : Syntax.GenericParam}
    {param' : Param} (hs : st.subst.InScope (FreeIn ps) locs)
    (h : resolveParam st param = (st', .ok param')) :
    param'.name.name = st.nameGen ∧ st'.nameGen = st.nameGen + 1 ∧
      st'.subst.InScope (FreeIn (st.nameGen :: ps)) locs ∧
      param'.pred.ScopedIn (FreeIn (st.nameGen :: ps)) := by
  have hs' : (st.subst.insertExpr param.name (.free st.nameGen)).1.InScope
      (FreeIn (st.nameGen :: ps)) locs := by
    refine (hs.mono ?_).insertExpr _ (List.Mem.head _)
    rintro (_ | name) hname
    · exact hname
    · exact .tail _ hname
  rcases hi : st.subst.insertExpr param.name (.free st.nameGen) with ⟨subst, _ | x⟩
  · simp only [resolveParam, hi] at h
    rw [hi] at hs'
    obtain ⟨rfl, hp⟩ := Prod.mk.inj h
    obtain ⟨⟨sort, pred⟩, hboth, rfl⟩ := map_eq_ok.mp hp
    refine ⟨rfl, rfl, hs', ?_⟩
    have hpred := (both_eq_ok.mp hboth).2
    cases hparam : param.pred with
    | some expr =>
      rw [hparam] at hpred
      exact resolveExpr_scoped hs' hpred
    | none =>
      rw [hparam] at hpred
      cases hpred
      trivial
  · simp only [resolveParam, hi] at h
    cases (Prod.mk.inj h).2

/-- **Resolved parameters are scoped.** -/
lemma resolveParams_spec {st st' : State} {ps locs : List Name}
    {generics : List Syntax.GenericParam} {params : List Param}
    (hs : st.subst.InScope (FreeIn ps) locs) (hg : st.Generated ps)
    (h : tryCollectExhaust resolveParam st generics = (st', .ok params)) :
    ParamsScoped ps params ∧
      st'.subst.InScope (FreeIn ((params.map fun param => param.name.name) ++ ps)) locs := by
  induction generics generalizing st ps params with
  | nil =>
    cases h
    exact ⟨trivial, hs⟩
  | cons param generics ih =>
    obtain ⟨st₁, param', params', h1, h2, rfl⟩ := tryCollectExhaust_eq_ok.mp h
    obtain ⟨hname, hgen, hs₁, hpred⟩ := resolveParam_spec hs h1
    have hg₁ : st₁.Generated (st.nameGen :: ps) := by
      intro name hn
      rw [hgen]
      rcases List.mem_cons.mp hn with rfl | hn
      · exact Nat.lt_succ_self _
      · exact Nat.lt_succ_of_lt (hg name hn)
    obtain ⟨hscoped, hs'⟩ := ih hs₁ hg₁ h2
    rw [ParamsScoped, hname]
    refine ⟨⟨fun hn => Nat.lt_irrefl _ (hg _ hn), hpred, hscoped⟩, hs'.mono ?_⟩
    rintro (_ | name) hn
    · exact hn
    · simp only [FreeIn, List.mem_append, List.mem_cons, List.map_cons, hname] at hn ⊢
      tauto

/-- **Resolved bindings of `requires` are scoped**, and their locations are new. -/
lemma resolveRequires_spec {st st' : State} {ps locs : List Name}
    {bindings : List (Ident × Syntax.Ty)} {bindings' : List (Name × Ty)}
    (hs : st.subst.InScope (FreeIn ps) locs) (hg : st.Generated locs) (hnodup : locs.Nodup)
    (h : tryCollectExhaust self.resolveRequires st bindings = (st', .ok bindings')) :
    BindingsScoped ps locs bindings' ∧ st'.subst.InScope (FreeIn ps) (locsAfter locs bindings') ∧
      (locsAfter locs bindings').Nodup := by
  induction bindings generalizing st locs bindings' with
  | nil =>
    cases h
    exact ⟨trivial, hs, hnodup⟩
  | cons binding bindings ih =>
    obtain ⟨st₁, b, bs, h1, h2, rfl⟩ := tryCollectExhaust_eq_ok.mp h
    obtain ⟨rfl, hb⟩ := Prod.mk.inj h1
    obtain ⟨ty, hty, rfl⟩ := map_eq_ok.mp hb
    have hs₁ := hs.insertRegion binding.1 st.nameGen
    have hg₁ : (State.mk (st.subst.insertRegion binding.1 st.nameGen)
        (st.nameGen + 1)).Generated (st.nameGen :: locs) := by
      intro name hn
      rcases List.mem_cons.mp hn with rfl | hn
      · exact Nat.lt_succ_self _
      · exact Nat.lt_succ_of_lt (hg name hn)
    obtain ⟨hscoped, hs', hnodup'⟩ :=
      ih hs₁ hg₁ (List.nodup_cons.mpr ⟨fun hn => Nat.lt_irrefl _ (hg _ hn), hnodup⟩) h2
    rw [show locsAfter locs ((st.nameGen, ty) :: bs) = locsAfter (st.nameGen :: locs) bs by
      simp [locsAfter]]
    exact ⟨⟨resolveTy_scoped hs₁ _ hty, hscoped⟩, hs', hnodup'⟩

/-- **Resolved bindings of `ensures` are scoped.** -/
lemma resolveEnsures_spec {st st' : State} {ps locs : List Name}
    {bindings : List (Ident × Syntax.Ty)} {bindings' : List (Name × Ty)}
    (hs : st.subst.InScope (FreeIn ps) locs)
    (h : tryCollectExhaust self.resolveEnsures st bindings = (st', .ok bindings')) :
    BindingsScoped ps locs bindings' ∧
      st'.subst.InScope (FreeIn ps) (locsAfter locs bindings') := by
  induction bindings generalizing st locs bindings' with
  | nil =>
    cases h
    exact ⟨trivial, hs⟩
  | cons binding bindings ih =>
    obtain ⟨st₁, b, bs, h1, h2, rfl⟩ := tryCollectExhaust_eq_ok.mp h
    have hb : ∃ name ty, b = (name, ty) ∧ self.resolveTy binding.2 st₁.subst = .ok ty ∧
        st₁.subst.InScope (FreeIn ps) (name :: locs) := by
      unfold resolveEnsures at h1
      split at h1
      · next name hname =>
        obtain ⟨rfl, hb⟩ := Prod.mk.inj h1
        obtain ⟨ty, hty, rfl⟩ := map_eq_ok.mp hb
        exact ⟨name, ty, rfl, hty, hs.expr, fun symb n hn => .tail _ (hs.region symb n hn)⟩
      · obtain ⟨rfl, hb⟩ := Prod.mk.inj h1
        obtain ⟨ty, hty, rfl⟩ := map_eq_ok.mp hb
        exact ⟨_, ty, rfl, hty, hs.insertRegion _ _⟩
    obtain ⟨name, ty, rfl, hty, hs₁⟩ := hb
    obtain ⟨hscoped, hs'⟩ := ih hs₁ h2
    rw [show locsAfter locs ((name, ty) :: bs) = locsAfter (name :: locs) bs by
      simp [locsAfter]]
    exact ⟨⟨resolveTy_scoped hs₁ _ hty, hscoped⟩, hs'⟩

/-- The type parameters are no variables and no locations. -/
lemma insertGenericTypes_names {generics : List (DefId × Symbol)} {subst subst' : Subst}
    (h : insertGenericTypes generics subst = .ok subst') :
    subst'.exprs = subst.exprs ∧ subst'.regions = subst.regions := by
  induction generics generalizing subst with
  | nil =>
    cases h
    exact ⟨rfl, rfl⟩
  | cons p generics ih =>
    obtain ⟨s₁, h1, h2⟩ := bind_eq_ok.mp h
    simp only [Subst.insertType] at h1
    split_ifs at h1
    cases h1
    obtain ⟨hexprs, hregions⟩ := ih h2
    exact ⟨hexprs, hregions⟩

/-- The substitution that the resolver starts with has no variables and no locations. -/
lemma initialSubst_names {subst : Subst} (h : self.initialSubst = .ok subst) :
    subst.exprs = Subst.new.exprs ∧ subst.regions = Subst.new.regions := by
  unfold initialSubst at h
  obtain ⟨s, hs, h⟩ := bind_eq_ok.mp h
  obtain ⟨hexprs, hregions⟩ := insertGenericTypes_names h
  rw [hexprs, hregions]
  cases hparent : self.parent with
  | none =>
    rw [hparent] at hs
    cases hs
    exact ⟨rfl, rfl⟩
  | some parent =>
    rw [hparent] at hs
    obtain ⟨s₁, hs₁, rfl⟩ := map_eq_ok.mp hs
    obtain ⟨hexprs, hregions⟩ := insertGenericTypes_names hs₁
    exact ⟨hexprs, hregions⟩

/-- Type parameters bring no variables and no locations into scope. -/
lemma initialSubst_inScope {subst : Subst} (S : Var → Prop)
    (h : self.initialSubst = .ok subst) : subst.InScope S [] := by
  obtain ⟨hexprs, hregions⟩ := initialSubst_names h
  have hnew := Subst.inScope_new S
  refine ⟨fun symb x hx => hnew.expr symb x ?_, fun symb name hn => hnew.region symb name ?_⟩
  · rwa [Subst.getExpr, hexprs] at hx
  · rwa [Subst.getRegion, hregions] at hn

/-- **Resolved signatures are scoped**, and the locations of `requires` are distinct. -/
theorem run_scoped {ast : Syntax.FnSig} {fn_sig : FnSig} (h : self.run ast = .ok fn_sig) :
    fn_sig.Scoped ∧ fn_sig.requiredLocs.Nodup := by
  obtain ⟨subst, hsubst, h⟩ := bind_eq_ok.mp h
  obtain ⟨⟨params, requires, args, ensures, ret⟩, hall, h⟩ := bind_eq_ok.mp h
  cases h
  simp only [both_eq_ok] at hall
  obtain ⟨hparams, hrequires, hargs, hensures, hret⟩ := hall
  obtain ⟨hps, hs₁⟩ := resolveParams_spec (initialSubst_inScope _ hsubst)
    (show State.Generated _ [] from fun _ hn => by simp at hn) (Prod.ext rfl hparams)
  rw [List.append_nil] at hs₁
  obtain ⟨hreq, hs₂, hnodup⟩ := resolveRequires_spec hs₁ (fun _ hn => by simp at hn)
    List.nodup_nil (Prod.ext rfl hrequires)
  obtain ⟨hens, hs₃⟩ := resolveEnsures_spec hs₂ (Prod.ext rfl hensures)
  exact ⟨⟨hps, hreq, tysScoped_iff.mp (resolveTys_scoped hs₂ _ hargs), hens,
    resolveTy_scoped hs₃ _ hret⟩, hnodup⟩

/-! ## Soundness and completeness of the sort checker -/

/-- **When the sort checker accepts exactly the well-sorted signatures.** On a resolved signature
it does not panic, and its verdict is right iff there is no ill-sorted expression in the types of
`requires` or inside ADT arguments, unless it also finds one elsewhere.

**Proof sketch.** A resolved signature is scoped (`run_scoped`), so every lookup of the checker
succeeds, and it accepts iff the expressions that it visits are well-sorted (`checkFnSig_spec`).
All expressions are those that it visits and the others (`wellSorted_iff`). -/
theorem checkFnSig_sound_complete_iff {ast : Syntax.FnSig} {fn_sig : FnSig}
    (h : self.run ast = .ok fn_sig) :
    (Wf.checkFnSig fn_sig).NoPanic ∧
      ((Wf.checkFnSig fn_sig = .ok () ↔ fn_sig.WellSorted) ↔
        (fn_sig.VisitedSorted → fn_sig.UnvisitedSorted)) := by
  obtain ⟨hp, hok⟩ := Wf.checkFnSig_spec (run_scoped h).1
  refine ⟨hp, ?_⟩
  rw [hok, FnSig.wellSorted_iff]
  tauto

/-- A resolver for signatures over `i32`. -/
def i32Resolver : Resolver where
  nameResTable ident := if ident = "i32" then some (.int .i32) else none
  parent := none
  generics := []

/-- The path `i32`. -/
def i32Path : Syntax.Path :=
  .mk "i32" none

/-- The signature `fn<n: int>(i32@n) -> i32`. -/
def i32Sig : Syntax.FnSig :=
  ⟨[⟨"n", "int", none⟩], [], [.refineTy i32Path (.var "n")], .baseTy i32Path, []⟩

/-- The checker is right about the signature `fn<n: int>(i32@n) -> i32`. -/
theorem checkFnSig_sound_complete_i32 :
    ∃ fn_sig, i32Resolver.run i32Sig = .ok fn_sig ∧
      (Wf.checkFnSig fn_sig = .ok () ↔ fn_sig.WellSorted) :=
  ⟨_, rfl, (checkFnSig_sound_complete_iff (show i32Resolver.run i32Sig = _ from rfl)).2.mpr
    fun _ => ⟨by simp, by simp [Ty.ArgsSorted, BaseTy.WellSorted], by simp, trivial⟩⟩

/-- **The sort checker misses the types of `requires`**: it accepts the signature
`fn(l: i32@true; ref<l>) -> i32`. -/
theorem checkFnSig_misses_requires :
    ∃ fn_sig, i32Resolver.run
        ⟨[], [("l", .refineTy i32Path (.literal ⟨.bool, "true"⟩))], [.mutRef "l"],
          .baseTy i32Path, []⟩ = .ok fn_sig ∧
      Wf.checkFnSig fn_sig = .ok () ∧ ¬fn_sig.WellSorted := by
  refine ⟨_, rfl, rfl, fun h => ?_⟩
  have hsort := (h.requires _ (.head _)).2
  cases hsort

end Resolver

end LiquidRust.Driver
