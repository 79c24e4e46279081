import LiquidRust.Typeck.Dangling

set_option relaxedAutoImplicit false
set_option autoImplicit false

/-!
# The inference of a call's parameters

A call compares its arguments with the types of the signature, and then what is at the locations
of `requires` with the types that are required there. A location of `requires` has to be known
when its turn comes: if it is not, the source unwraps an option that is empty.

## Main definitions

* `LiquidRust.Typeck.Compared` — the types that a call compares.
* `LiquidRust.Typeck.InfersCleanly` — the inference succeeds when it should, or reports an error.
* `LiquidRust.Typeck.KnownInTurn` — the locations of `requires` are known when their turn comes.

## Main results

* `LiquidRust.Typeck.infersCleanly_iff` — when the inference does what it should.
* `LiquidRust.Typeck.not_infersCleanly` — a call that is not reported.
-/

namespace LiquidRust.Typeck

open Lib

/-! ## What is compared -/

/-- **The types that a call compares**: those of the arguments, and those at the locations of
`requires`, where a location stands for what a reference that is compared with it points to. -/
inductive Compared (env : TypeEnv) (actuals : List Ty) (fn_sig : Core.FnSig) : Ty → Core.Ty → Prop
  | arg {actual : Ty} {formal : Core.Ty} : (actual, formal) ∈ actuals.zip fn_sig.args →
      Compared env actuals fn_sig actual formal
  | required {loc : Core.Name} {required : Core.Ty} {l : Loc} {actual : Ty} :
      (loc, required) ∈ fn_sig.requires →
      Compared env actuals fn_sig (.strgRef l) (.mutRef loc) →
      env.lookupLoc l = some actual → Compared env actuals fn_sig actual required

section

variable (env : TypeEnv) (actuals : List Ty) (fn_sig : Core.FnSig)

/-- A parameter is the bare index of a type that is compared with one of index `e`. -/
def GivesExpr (name : Core.Name) (e : Expr) : Prop :=
  ∃ bty bty' symbol,
    Compared env actuals fn_sig (.refine bty e) (.refine bty' (.var (.free name) symbol))

/-- A location is the target of a reference that is compared with a pointer to `loc`. -/
def GivesLoc (name : Core.Name) (loc : Loc) : Prop :=
  Compared env actuals fn_sig (.strgRef loc) (.mutRef name)

/-- No parameter and no location is given two different instantiations. -/
structure Unambiguous : Prop where
  exprs : ∀ ⦃name e e'⦄, GivesExpr env actuals fn_sig name e →
    GivesExpr env actuals fn_sig name e' → e = e'
  locations : ∀ ⦃name loc loc'⦄, GivesLoc env actuals fn_sig name loc →
    GivesLoc env actuals fn_sig name loc' → loc = loc'

/-- Every parameter is given an instantiation. -/
def AllParams : Prop :=
  ∀ param ∈ fn_sig.params, ∃ e, GivesExpr env actuals fn_sig param.name.name e

/-- The argument with the given type points to `loc`, where the signature has `name`. -/
def ArgPoints (name : Core.Name) (loc : Loc) : Prop :=
  (Ty.strgRef loc, Core.Ty.mutRef name) ∈ actuals.zip fn_sig.args

/-- Every location of `requires` is the target of a reference argument that is a pointer. -/
def AllLocs : Prop :=
  ∀ p ∈ fn_sig.requires, ∃ loc, ArgPoints actuals fn_sig p.1 loc

/-- **The inference does what it should**: it succeeds iff all parameters and locations can be
inferred, with what they are given, and otherwise reports an error, without a panic. -/
def InfersCleanly (subst : Subst) : Prop :=
  match subst.inferFromFnCall env actuals fn_sig with
  | .ok (some subst') => (AllParams env actuals fn_sig ∧ AllLocs actuals fn_sig) ∧
      (∀ name e, GivesExpr env actuals fn_sig name e → ∀ symbol,
        subst'.lowerExpr (.var (.free name) symbol) = .ok e) ∧
      ∀ name loc, GivesLoc env actuals fn_sig name loc → subst'.lowerLoc name = some loc
  | .ok none => ¬(AllParams env actuals fn_sig ∧ AllLocs actuals fn_sig)
  | .error _ => False

end

/-- **The locations of `requires` are known when their turn comes**, from `known` or from the
types at the locations before them, and the environment has them. -/
def KnownInTurn (env : TypeEnv) : (Core.Name → Loc → Prop) → List (Core.Name × Core.Ty) → Prop
  | _, [] => True
  | known, (name, required) :: requires => ∃ loc actual, known name loc ∧
      env.lookupLoc loc = some actual ∧
      KnownInTurn env
        (fun name' loc' => known name' loc' ∨ (actual = .strgRef loc' ∧ required = .mutRef name'))
        requires

/-! ## The steps of the inference -/

namespace Subst

variable {env : TypeEnv} {actuals : List Ty} {fn_sig : Core.FnSig} {subst subst' : Subst}

/-- The substitution has only what is given. -/
structure Sound (env : TypeEnv) (actuals : List Ty) (fn_sig : Core.FnSig) (subst : Subst) :
    Prop where
  exprs : ∀ ⦃name e⦄, subst.exprs name = some e → GivesExpr env actuals fn_sig name e
  locations : ∀ ⦃name loc⦄, subst.locations name = some loc → GivesLoc env actuals fn_sig name loc

/-- The substitution has what two types give. -/
structure Records (actual : Ty) (formal : Core.Ty) (subst : Subst) : Prop where
  expr : ∀ ⦃bty bty' e name symbol⦄, actual = .refine bty e →
    formal = .refine bty' (.var (.free name) symbol) → subst.exprs name = some e
  location : ∀ ⦃loc name⦄, actual = .strgRef loc → formal = .mutRef name →
    subst.locations name = some loc

/-- Nothing that was inferred is lost. -/
structure Grows (subst subst' : Subst) : Prop where
  exprs : ∀ ⦃name e⦄, subst.exprs name = some e → subst'.exprs name = some e
  locations : ∀ ⦃name loc⦄, subst.locations name = some loc → subst'.locations name = some loc

/-- A substitution grows into itself. -/
lemma Grows.refl (subst : Subst) : Grows subst subst :=
  ⟨fun _ _ h => h, fun _ _ h => h⟩

/-- One growth after another. -/
lemma Grows.trans {subst'' : Subst} (h : Grows subst subst') (h' : Grows subst' subst'') :
    Grows subst subst'' :=
  ⟨fun _ _ he => h'.exprs (h.exprs he), fun _ _ hl => h'.locations (h.locations hl)⟩

/-- What a substitution records, a grown one does. -/
lemma Records.mono {actual : Ty} {formal : Core.Ty} (h : Records actual formal subst)
    (hgrows : Grows subst subst') : Records actual formal subst' :=
  ⟨fun _ _ _ _ _ ha hf => hgrows.exprs (h.expr ha hf),
    fun _ _ ha hf => hgrows.locations (h.location ha hf)⟩

/-- **What comparing two types does** to a substitution. -/
structure Compares (env : TypeEnv) (actuals : List Ty) (fn_sig : Core.FnSig) (subst : Subst)
    (actual : Ty) (formal : Core.Ty) (subst' : Subst) : Prop where
  sound : Sound env actuals fn_sig subst'
  grows : Grows subst subst'
  records : Records actual formal subst'
  location_iff : ∀ name loc, subst'.locations name = some loc ↔
    subst.locations name = some loc ∨ (actual = .strgRef loc ∧ formal = .mutRef name)

/-- Recording an expression keeps the comparisons, if the name had no other one. -/
lemma compares_insertExpr (hs : Sound env actuals fn_sig subst) {bty : BaseTy} {e : Expr}
    {bty' : Core.BaseTy} {name : Core.Name} {symbol : Core.Symbol}
    (hcompared : Compared env actuals fn_sig (.refine bty e)
      (.refine bty' (.var (.free name) symbol)))
    (hold : ∀ e', subst.exprs name = some e' → e' = e) :
    Compares env actuals fn_sig subst (.refine bty e) (.refine bty' (.var (.free name) symbol))
      (subst.insertExpr name e) where
  sound := by
    refine ⟨fun name' e' h => ?_, hs.locations⟩
    by_cases hname : name' = name
    · subst hname
      simp only [insertExpr, Function.update_self, Option.some.injEq] at h
      exact ⟨bty, bty', symbol, h ▸ hcompared⟩
    · simp only [insertExpr, Function.update_of_ne hname] at h
      exact hs.exprs h
  grows := by
    refine ⟨fun name' e' h => ?_, fun _ _ h => h⟩
    by_cases hname : name' = name
    · subst hname
      simp [insertExpr, hold e' h]
    · simpa only [insertExpr, Function.update_of_ne hname] using h
  records := by
    refine ⟨fun bty₁ bty₁' e₁ name₁ symbol₁ ha hf => ?_, fun loc name₁ ha => ?_⟩
    · cases ha
      cases hf
      simp [insertExpr]
    · cases ha
  location_iff name' loc' := by simp [insertExpr]

/-- Recording a location keeps the comparisons, if the name had no other one. -/
lemma compares_insertLoc (hs : Sound env actuals fn_sig subst) {loc : Loc} {name : Core.Name}
    (hcompared : Compared env actuals fn_sig (.strgRef loc) (.mutRef name))
    (hold : ∀ loc', subst.locations name = some loc' → loc' = loc) :
    Compares env actuals fn_sig subst (.strgRef loc) (.mutRef name) (subst.insertLoc name loc) where
  sound := by
    refine ⟨hs.exprs, fun name' loc' h => ?_⟩
    by_cases hname : name' = name
    · subst hname
      simp only [insertLoc, Function.update_self, Option.some.injEq] at h
      exact h ▸ hcompared
    · simp only [insertLoc, Function.update_of_ne hname] at h
      exact hs.locations h
  grows := by
    refine ⟨fun _ _ h => h, fun name' loc' h => ?_⟩
    by_cases hname : name' = name
    · subst hname
      simp [insertLoc, hold loc' h]
    · simpa only [insertLoc, Function.update_of_ne hname] using h
  records := by
    refine ⟨fun bty₁ bty₁' e₁ name₁ symbol₁ ha => ?_, fun loc₁ name₁ ha hf => ?_⟩
    · cases ha
    · cases ha
      cases hf
      simp [insertLoc]
  location_iff name' loc' := by
    by_cases hname : name' = name
    · subst hname
      simp only [insertLoc, Function.update_self, Option.some.injEq, and_true, Ty.strgRef.injEq]
      exact ⟨.inr, fun h => h.elim (fun h' => (hold loc' h').symm) id⟩
    · simp [insertLoc, Function.update_of_ne hname, Ne.symm hname]

/-- **Two types are compared.** -/
lemma exists_inferFromTys (hunambiguous : Unambiguous env actuals fn_sig)
    (hs : Sound env actuals fn_sig subst) {actual : Ty} {formal : Core.Ty}
    (hcompared : Compared env actuals fn_sig actual formal) :
    ∃ subst', subst.inferFromTys actual formal = .ok subst' ∧
      Compares env actuals fn_sig subst actual formal subst' := by
  unfold inferFromTys
  split
  · next bty e bty' name symbol =>
    have hold : ∀ e', subst.exprs name = some e' → e' = e := fun e' he' =>
      hunambiguous.exprs (hs.exprs he') ⟨bty, bty', symbol, hcompared⟩
    split
    · next e' he' =>
      rw [if_neg (not_not.mpr (hold e' he'))]
      exact ⟨_, rfl, compares_insertExpr hs hcompared hold⟩
    · exact ⟨_, rfl, compares_insertExpr hs hcompared hold⟩
  · next loc name =>
    have hold : ∀ loc', subst.locations name = some loc' → loc' = loc := fun loc' hloc' =>
      hunambiguous.locations (hs.locations hloc') hcompared
    split
    · next loc' hloc' =>
      rw [if_neg (not_not.mpr (hold loc' hloc'))]
      exact ⟨_, rfl, compares_insertLoc hs hcompared hold⟩
    · exact ⟨_, rfl, compares_insertLoc hs hcompared hold⟩
  · next hexpr hloc =>
    refine ⟨subst, rfl, hs, .refl subst, ⟨?_, ?_⟩, fun name loc => ⟨.inl, fun h => ?_⟩⟩
    · rintro bty bty' e name symbol rfl rfl
      exact (hexpr _ _ _ _ _ rfl rfl).elim
    · rintro loc name rfl rfl
      exact (hloc _ _ rfl rfl).elim
    · rcases h with h | ⟨rfl, rfl⟩
      · exact h
      · exact (hloc _ _ rfl rfl).elim

/-- **The arguments are compared** with the types of the signature. -/
lemma exists_inferArgs (hunambiguous : Unambiguous env actuals fn_sig) {pairs : List (Ty × Core.Ty)}
    (hpairs : ∀ p ∈ pairs, Compared env actuals fn_sig p.1 p.2)
    (hs : Sound env actuals fn_sig subst) :
    ∃ subst', pairs.foldlM (fun subst p => subst.inferFromTys p.1 p.2) subst = .ok subst' ∧
      Sound env actuals fn_sig subst' ∧ Grows subst subst' ∧
      (∀ p ∈ pairs, Records p.1 p.2 subst') ∧
      ∀ name loc, subst'.locations name = some loc ↔ subst.locations name = some loc ∨
        (Ty.strgRef loc, Core.Ty.mutRef name) ∈ pairs := by
  induction pairs generalizing subst with
  | nil => exact ⟨subst, rfl, hs, .refl subst, by simp, by simp⟩
  | cons p pairs ih =>
    obtain ⟨subst₁, hrun₁, h₁⟩ := exists_inferFromTys hunambiguous hs (hpairs p (.head _))
    obtain ⟨subst₂, hrun₂, hs₂, hgrows, hrecords, hlocs⟩ :=
      ih (fun q hq => hpairs q (.tail _ hq)) h₁.sound
    refine ⟨subst₂, ?_, hs₂, h₁.grows.trans hgrows, fun q hq => ?_, fun name loc => ?_⟩
    · rw [List.foldlM_cons, hrun₁]
      exact hrun₂
    · rcases List.mem_cons.mp hq with rfl | hq
      · exact h₁.records.mono hgrows
      · exact hrecords q hq
    · rw [hlocs, h₁.location_iff, List.mem_cons, or_assoc, Prod.ext_iff, eq_comm (a := p.1),
        eq_comm (a := p.2)]

/-- A location of `requires` and what is there are compared with the type that is required. -/
structure Checks (env : TypeEnv) (subst : Subst) (binding : Core.Name × Core.Ty) (loc : Loc)
    (actual : Ty) : Prop where
  location : subst.locations binding.1 = some loc
  lookup : env.lookupLoc loc = some actual
  records : Records actual binding.2 subst

/-- **The locations of `requires` are compared** if they are known when their turn comes. -/
lemma post_inferRequires (hunambiguous : Unambiguous env actuals fn_sig)
    {requires : List (Core.Name × Core.Ty)} (hrequires : ∀ p ∈ requires, p ∈ fn_sig.requires)
    (hs : Sound env actuals fn_sig subst) {known : Core.Name → Loc → Prop}
    (hknown : ∀ name loc, subst.locations name = some loc ↔ known name loc) :
    post (requires.foldlM (inferFromRequires env) subst)
      (fun subst' => KnownInTurn env known requires ∧ Sound env actuals fn_sig subst' ∧
        Grows subst subst' ∧ ∀ p ∈ requires, ∃ loc actual, Checks env subst' p loc actual)
      (fun _ => ¬KnownInTurn env known requires) := by
  induction requires generalizing subst known with
  | nil => exact ⟨trivial, hs, .refl subst, by simp⟩
  | cons p requires ih =>
    obtain ⟨name, required⟩ := p
    rw [List.foldlM_cons, post_bind, inferFromRequires, post_bind, post_orError]
    refine ⟨fun loc hloc => ?_, fun hnone hturn => ?_⟩
    · rw [post_bind, post_orError]
      refine ⟨fun actual hactual => ?_, fun hnone hturn => ?_⟩
      · have hcompared : Compared env actuals fn_sig actual required :=
          .required (hrequires _ (.head _)) (hs.locations hloc) hactual
        obtain ⟨subst₁, hrun, h₁⟩ := exists_inferFromTys hunambiguous hs hcompared
        have hknown₁ : ∀ name' loc', subst₁.locations name' = some loc' ↔
            known name' loc' ∨ (actual = .strgRef loc' ∧ required = .mutRef name') := by
          intro name' loc'
          rw [h₁.location_iff, hknown]
        rw [hrun, post_ok]
        refine post_mono (ih (fun q hq => hrequires q (.tail _ hq)) h₁.sound hknown₁) ?_ ?_
        · rintro subst₂ ⟨hturn, hs₂, hgrows, hchecks⟩
          refine ⟨⟨loc, actual, (hknown _ _).mp hloc, hactual, hturn⟩, hs₂, h₁.grows.trans hgrows,
            fun q hq => ?_⟩
          rcases List.mem_cons.mp hq with rfl | hq
          · exact ⟨loc, actual, hgrows.locations (h₁.grows.locations hloc), hactual,
              h₁.records.mono hgrows⟩
          · exact hchecks q hq
        · rintro f hnot ⟨loc', actual', hknown', hactual', hturn⟩
          obtain rfl := Option.some.inj (hloc.symm.trans ((hknown _ _).mpr hknown'))
          obtain rfl := Option.some.inj (hactual.symm.trans hactual')
          exact hnot hturn
      · obtain ⟨loc', actual', hknown', hactual', -⟩ := hturn
        obtain rfl := Option.some.inj (hloc.symm.trans ((hknown _ _).mpr hknown'))
        exact absurd (hnone.symm.trans hactual') (by simp)
    · obtain ⟨loc', actual', hknown', -⟩ := hturn
      exact absurd (hnone.symm.trans ((hknown _ _).mpr hknown')) (by simp)

/-- All that is given is recorded, if the arguments and the locations of `requires` are. -/
lemma records_of_compared (hargs : ∀ p ∈ actuals.zip fn_sig.args, Records p.1 p.2 subst)
    (hchecks : ∀ p ∈ fn_sig.requires, ∃ loc actual, Checks env subst p loc actual) {actual : Ty}
    {formal : Core.Ty} (h : Compared env actuals fn_sig actual formal) :
    Records actual formal subst := by
  induction h with
  | arg hmem => exact hargs _ hmem
  | required hmem _ hactual ih =>
    obtain ⟨loc, actual, hcheck⟩ := hchecks _ hmem
    obtain rfl := Option.some.inj (hcheck.location.symm.trans (ih.location rfl rfl))
    obtain rfl := Option.some.inj (hcheck.lookup.symm.trans hactual)
    exact hcheck.records

end Subst

/-! ## The result of the inference -/

variable {env : TypeEnv} {actuals : List Ty} {fn_sig : Core.FnSig} {subst : Subst}

/-- **When the inference at a call does what it should**: every location of `requires` is known
when its turn comes, and if one is not the target of an argument, some parameter is not given.

**Proof sketch.** The arguments give the parameters and the locations that they are compared with
(`exists_inferArgs`), and `requires` is gone through with the locations that are known then
(`post_inferRequires`). Where two comparisons give the same parameter they agree, and the last
check is about the parameters and the locations that nothing was compared with. -/
theorem infersCleanly_iff (hlength : actuals.length = fn_sig.args.length)
    (hexprs : ∀ name, subst.exprs name = none) (hlocations : ∀ name, subst.locations name = none)
    (hunambiguous : Unambiguous env actuals fn_sig) :
    InfersCleanly env actuals fn_sig subst ↔
      KnownInTurn env (ArgPoints actuals fn_sig) fn_sig.requires ∧
        (AllParams env actuals fn_sig → AllLocs actuals fn_sig) := by
  have hs : Subst.Sound env actuals fn_sig subst :=
    ⟨fun name e h => by simp [hexprs] at h, fun name loc h => by simp [hlocations] at h⟩
  obtain ⟨subst₁, hrun₁, hs₁, -, hrecords, hlocs⟩ := Subst.exists_inferArgs hunambiguous
    (fun p (hp : p ∈ actuals.zip fn_sig.args) => .arg hp) hs
  have hknown : ∀ name loc, subst₁.locations name = some loc ↔
      ArgPoints actuals fn_sig name loc := by
    intro name loc
    rw [hlocs, hlocations]
    simp [ArgPoints]
  have hrequires := Subst.post_inferRequires hunambiguous
    (fun p (hp : p ∈ fn_sig.requires) => hp) hs₁ hknown
  have hrun : subst.inferFromFnCall env actuals fn_sig =
      (fn_sig.requires.foldlM (Subst.inferFromRequires env) subst₁ >>= fun subst =>
        pure (if subst.checkInference fn_sig then some subst else none)) := by
    rw [Subst.inferFromFnCall, if_neg (not_not.mpr hlength), hrun₁]
    rfl
  rw [InfersCleanly, hrun]
  cases hrun₂ : fn_sig.requires.foldlM (Subst.inferFromRequires env) subst₁ with
  | error f =>
    rw [hrun₂] at hrequires
    exact iff_of_false id fun h => hrequires h.1
  | ok subst₂ =>
    rw [hrun₂] at hrequires
    obtain ⟨hturn, hs₂, hgrows, hchecks⟩ := hrequires
    have hall : ∀ {actual : Ty} {formal : Core.Ty}, Compared env actuals fn_sig actual formal →
        Subst.Records actual formal subst₂ := fun h =>
      Subst.records_of_compared (fun p hp => (hrecords p hp).mono hgrows) hchecks h
    have hcheck : subst₂.checkInference fn_sig = true ↔ AllParams env actuals fn_sig := by
      rw [Subst.checkInference, Bool.and_eq_true, List.all_eq_true, List.all_eq_true]
      constructor
      · rintro ⟨hparams, -⟩ param hparam
        obtain ⟨e, he⟩ := Option.isSome_iff_exists.mp (hparams param hparam)
        exact ⟨e, hs₂.exprs he⟩
      · refine fun hparams => ⟨fun param hparam => ?_, fun p hp => ?_⟩
        · obtain ⟨e, bty, bty', symbol, hcompared⟩ := hparams param hparam
          rw [(hall hcompared).expr rfl rfl]
          rfl
        · obtain ⟨loc, actual, h⟩ := hchecks p hp
          rw [h.location]
          rfl
    show (match (Except.ok (if subst₂.checkInference fn_sig then some subst₂ else none) :
      Except Failure (Option Subst)) with
      | .ok (some subst') => _
      | .ok none => _
      | .error _ => False) ↔ _
    by_cases hparams : AllParams env actuals fn_sig
    · rw [if_pos (hcheck.mpr hparams)]
      refine ⟨fun h => ⟨hturn, fun _ => h.1.2⟩, fun h => ⟨⟨hparams, h.2 hparams⟩, ?_, ?_⟩⟩
      · rintro name e ⟨bty, bty', symbol, hcompared⟩ symbol'
        rw [Subst.lowerExpr, Subst.lowerVar, (hall hcompared).expr rfl rfl]
        rfl
      · intro name loc hcompared
        exact (hall hcompared).location rfl rfl
    · rw [if_neg fun h => hparams (hcheck.mp h)]
      exact iff_of_true (fun h => hparams h.1) ⟨hturn, fun h => absurd h hparams⟩

/-- The type `i32@n` of a signature, where `n` is its parameter. -/
def i32AtN : Core.Ty :=
  .refine (.int .i32) (.var (.free 0) "n")

/-- The signature `fn<n: int>(l: i32@n; …) -> i32@n`, with one argument. -/
def requiresSig (arg : Core.Ty) : Core.FnSig where
  params := [⟨⟨0, "n"⟩, .int, .literal (.bool true)⟩]
  requires := [(1, i32AtN)]
  args := [arg]
  ret := i32AtN
  ensures := []

/-- A local variable that holds zero. -/
def zeroEnv : TypeEnv :=
  TypeEnv.new.insertLoc (.local_ 1) (.refine (.int .i32) .zero)

/-- A reference to the variable is passed for `ref<l>`. -/
theorem infersCleanly_ref :
    InfersCleanly zeroEnv [.strgRef (.local_ 1)] (requiresSig (.mutRef 1))
      .withEmptyTypeSubsts := by
  have hcompared : ∀ {actual : Ty} {formal : Core.Ty},
      Compared zeroEnv [.strgRef (.local_ 1)] (requiresSig (.mutRef 1)) actual formal →
        (actual = .strgRef (.local_ 1) ∧ formal = .mutRef 1) ∨
          (actual = .refine (.int .i32) .zero ∧ formal = i32AtN) := by
    intro actual formal h
    induction h with
    | arg h => exact .inl (by simpa [requiresSig] using h)
    | required h _ hactual ih =>
      obtain ⟨rfl, rfl⟩ : _ = 1 ∧ _ = i32AtN := by simpa [requiresSig] using h
      rcases ih with ⟨hl, -⟩ | ⟨hl, -⟩
      · cases hl
        exact .inr ⟨(Option.some.inj hactual).symm, rfl⟩
      · cases hl
  refine (infersCleanly_iff rfl (fun _ => rfl) (fun _ => rfl) ⟨?_, ?_⟩).mpr
    ⟨⟨.local_ 1, .refine (.int .i32) .zero, by simp [ArgPoints, requiresSig], rfl, trivial⟩,
      fun _ p hp => ⟨.local_ 1, ?_⟩⟩
  · rintro name e e' ⟨_, _, _, h⟩ ⟨_, _, _, h'⟩
    rcases hcompared h with ⟨h1, -⟩ | ⟨h1, -⟩ <;> cases h1
    rcases hcompared h' with ⟨h1', -⟩ | ⟨h1', -⟩ <;> cases h1'
    rfl
  · intro name loc loc' h h'
    rcases hcompared h with ⟨h1, -⟩ | ⟨h1, -⟩ <;> cases h1
    rcases hcompared h' with ⟨h1', -⟩ | ⟨h1', -⟩ <;> cases h1'
    rfl
  · obtain rfl : p = (1, i32AtN) := by simpa [requiresSig] using hp
    simp [ArgPoints, requiresSig]

/-- **A call that is not reported**: no argument refers to the location of `requires`, and the
inference panics. -/
theorem not_infersCleanly : ¬∀ (env : TypeEnv) (actuals : List Ty) (fn_sig : Core.FnSig),
    env.NoDangling → actuals.length = fn_sig.args.length → Unambiguous env actuals fn_sig →
      InfersCleanly env actuals fn_sig .withEmptyTypeSubsts := by
  intro h
  have hcompared : ∀ {actual : Ty} {formal : Core.Ty},
      Compared zeroEnv [.refine (.int .i32) .zero] (requiresSig i32AtN) actual formal →
        actual = .refine (.int .i32) .zero ∧ formal = i32AtN := by
    intro actual formal hc
    induction hc with
    | arg hmem => simpa [requiresSig] using hmem
    | required _ _ _ ih => cases ih.1
  refine h zeroEnv [.refine (.int .i32) .zero] (requiresSig i32AtN) ?_ rfl ⟨?_, ?_⟩
  · exact TypeEnv.noDangling_new.insertLoc ⟨trivial, trivial⟩
  · rintro name e e' ⟨_, _, _, h⟩ ⟨_, _, _, h'⟩
    cases (hcompared h).1
    cases (hcompared h').1
    rfl
  · intro name loc loc' h
    cases (hcompared h).1

end LiquidRust.Typeck
