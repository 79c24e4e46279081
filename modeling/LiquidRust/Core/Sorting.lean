import LiquidRust.Core.Wf

set_option relaxedAutoImplicit false
set_option autoImplicit false

/-!
# Well-sorted signatures

What the sort checker is for: every refinement expression of a signature has the sort that its
place asks for. The sort checker of expressions decides this, and the checker of signatures
visits some of the places.

## Main definitions

* `LiquidRust.Core.HasSort` — an expression has a sort.
* `LiquidRust.Core.FnSig.WellSorted` — every expression of a signature is well-sorted.
* `LiquidRust.Core.FnSig.VisitedSorted`, `UnvisitedSorted` — the expressions that the checker
  visits, and the others.
* `LiquidRust.Core.FnSig.Scoped` — every variable is a parameter in scope, or the binder around
  it.

## Main results

* `LiquidRust.Core.Wf.synthExpr_eq_ok` — an expression is given its sort.
* `LiquidRust.Core.FnSig.wellSorted_iff` — the visited and the other expressions are all.
-/

namespace LiquidRust.Core

open Common Wf

/-! ## Sorts of expressions -/

/-- `HasSort Γ e s` states that `e` has the sort `s` if the variables have the sorts `Γ`. -/
inductive HasSort (Γ : Env) : Expr → Srt → Prop
  | var {x : Var} {symbol : Symbol} {s : Srt} : Γ x = some s → HasSort Γ (.var x symbol) s
  | literal (lit : Lit) : HasSort Γ (.literal lit) lit.sort
  | logic {op : BinOp} {e1 e2 : Expr} : op ∈ ([.iff, .imp, .or, .and] : List BinOp) →
      HasSort Γ e1 .bool → HasSort Γ e2 .bool → HasSort Γ (.binaryOp op e1 e2) .bool
  | eq {e1 e2 : Expr} {s : Srt} : HasSort Γ e1 s → HasSort Γ e2 s →
      HasSort Γ (.binaryOp .eq e1 e2) .bool
  | cmp {op : BinOp} {e1 e2 : Expr} : op ∈ ([.lt, .le, .gt, .ge] : List BinOp) →
      HasSort Γ e1 .int → HasSort Γ e2 .int → HasSort Γ (.binaryOp op e1 e2) .bool
  | arith {op : BinOp} {e1 e2 : Expr} : op ∈ ([.add, .sub] : List BinOp) →
      HasSort Γ e1 .int → HasSort Γ e2 .int → HasSort Γ (.binaryOp op e1 e2) .int

/-- All variables of an expression are in scope. -/
def Expr.ScopedIn (S : Var → Prop) : Expr → Prop
  | .var x _ => S x
  | .literal _ => True
  | .binaryOp _ e1 e2 => e1.ScopedIn S ∧ e2.ScopedIn S

/-- An expression is in scope where more variables are. -/
lemma Expr.ScopedIn.mono {S S' : Var → Prop} {e : Expr} (h : e.ScopedIn S)
    (hS : ∀ x, S x → S' x) : e.ScopedIn S' := by
  induction e with
  | var x symbol => exact hS x h
  | literal lit => trivial
  | binaryOp op e1 e2 ih1 ih2 => exact ⟨ih1 h.1, ih2 h.2⟩

/-- The sort depends only on the variables in scope. -/
lemma HasSort.congr {Γ Γ' : Env} {S : Var → Prop} {e : Expr} {s : Srt} (h : HasSort Γ e s)
    (he : e.ScopedIn S) (hΓ : ∀ x, S x → Γ x = Γ' x) : HasSort Γ' e s := by
  induction h with
  | var h => exact .var (hΓ _ he ▸ h)
  | literal lit => exact .literal lit
  | logic hop _ _ ih1 ih2 => exact .logic hop (ih1 he.1) (ih2 he.2)
  | eq _ _ ih1 ih2 => exact .eq (ih1 he.1) (ih2 he.2)
  | cmp hop _ _ ih1 ih2 => exact .cmp hop (ih1 he.1) (ih2 he.2)
  | arith hop _ _ ih1 ih2 => exact .arith hop (ih1 he.1) (ih2 he.2)

/-- Only the sorts of the variables in scope matter. -/
lemma hasSort_congr {Γ Γ' : Env} {S : Var → Prop} {e : Expr} {s : Srt} (he : e.ScopedIn S)
    (hΓ : ∀ x, S x → Γ x = Γ' x) : HasSort Γ e s ↔ HasSort Γ' e s :=
  ⟨fun h => h.congr he hΓ, fun h => h.congr he fun x hx => (hΓ x hx).symm⟩

namespace Wf

/-- A sort that is expected is the one that is found. -/
lemma expect_eq_ok {expected : Srt} {found : Outcome Mismatch Srt} {u : Unit} :
    expect expected found = .ok u ↔ found = .ok expected := by
  rcases found with s | ds | _
  · by_cases h : s = expected <;> simp [expect, h]
  · simp [expect]
  · simp [expect]

/-- The comparison of two sorts does not panic. -/
lemma expect_noPanic {expected : Srt} {found : Outcome Mismatch Srt} (h : found.NoPanic) :
    (expect expected found).NoPanic := by
  refine h.bind fun s _ => ?_
  by_cases hs : s = expected <;> simp [hs]

/-- **The sort checker gives an expression its sort.** -/
theorem synthExpr_eq_ok {Γ : Env} {e : Expr} {s : Srt} :
    synthExpr Γ e = .ok s ↔ HasSort Γ e s := by
  constructor
  · intro h
    induction e generalizing s with
    | var x symbol =>
      rw [synthExpr] at h
      split at h
      · next hx => exact .var (hx.trans (congrArg some (Outcome.ok.inj h)))
      · exact absurd h (by simp)
    | literal lit =>
      rw [synthExpr, Outcome.ok.injEq] at h
      exact h ▸ .literal lit
    | binaryOp op e1 e2 ih1 ih2 =>
      cases op <;>
        simp only [synthExpr, Outcome.bind_eq_ok, expect_eq_ok, Outcome.pure_eq_ok,
          Outcome.ok.injEq, exists_and_left, exists_const] at h
      case eq =>
        obtain ⟨s', h1, h2, rfl⟩ := h
        exact .eq (ih1 h1) (ih2 h2)
      all_goals obtain ⟨h1, h2, rfl⟩ := h
      case iff | imp | or | and => exact .logic (by decide) (ih1 h1) (ih2 h2)
      case lt | le | gt | ge => exact .cmp (by decide) (ih1 h1) (ih2 h2)
      case add | sub => exact .arith (by decide) (ih1 h1) (ih2 h2)
  · intro h
    induction h with
    | var h => simp [synthExpr, h]
    | literal lit => rfl
    | @eq e1 e2 s _ _ ih1 ih2 => simp [synthExpr, ih1, ih2, expect]
    | @logic op e1 e2 hop _ _ ih1 ih2 =>
      simp only [List.mem_cons, List.not_mem_nil, or_false] at hop
      rcases hop with rfl | rfl | rfl | rfl <;> simp [synthExpr, ih1, ih2, expect]
    | @cmp op e1 e2 hop _ _ ih1 ih2 =>
      simp only [List.mem_cons, List.not_mem_nil, or_false] at hop
      rcases hop with rfl | rfl | rfl | rfl <;> simp [synthExpr, ih1, ih2, expect]
    | @arith op e1 e2 hop _ _ ih1 ih2 =>
      simp only [List.mem_cons, List.not_mem_nil, or_false] at hop
      rcases hop with rfl | rfl <;> simp [synthExpr, ih1, ih2, expect]

/-- The check of an expression whose variables are in scope does not panic. -/
lemma synthExpr_noPanic {Γ : Env} {e : Expr} (he : e.ScopedIn fun x => (Γ x).isSome) :
    (synthExpr Γ e).NoPanic := by
  induction e with
  | var x symbol =>
    obtain ⟨s, hs⟩ := Option.isSome_iff_exists.mp he
    simp [synthExpr, hs]
  | literal lit => trivial
  | binaryOp op e1 e2 ih1 ih2 =>
    have h1 := ih1 he.1
    have h2 := ih2 he.2
    cases op
    case eq => exact h1.bind fun _ _ => (expect_noPanic h2).bind fun _ _ => trivial
    all_goals exact (expect_noPanic h1).bind fun _ _ => (expect_noPanic h2).bind fun _ _ => trivial

/-- An expression is accepted at a sort iff it has that sort. -/
lemma checkExpr_eq_ok {Γ : Env} {e : Expr} {s : Srt} :
    checkExpr Γ e s = .ok () ↔ HasSort Γ e s :=
  expect_eq_ok.trans synthExpr_eq_ok

/-- The check of an expression in scope does not panic. -/
lemma checkExpr_noPanic {Γ : Env} {e : Expr} {s : Srt} (he : e.ScopedIn fun x => (Γ x).isSome) :
    (checkExpr Γ e s).NoPanic :=
  expect_noPanic (synthExpr_noPanic he)

end Wf

/-! ## Well-sorted types and signatures -/

mutual

/-- Every expression of a type has the sort that its place asks for, at every depth. -/
def Ty.WellSorted (Γ : Env) : Ty → Prop
  | .refine bty e => bty.WellSorted Γ ∧ HasSort Γ e bty.sort
  | .exists_ bty (.expr e) => bty.WellSorted Γ ∧ HasSort (Γ.insert .bound bty.sort) e .bool
  | .exists_ bty .infer => bty.WellSorted Γ
  | .mutRef _ | .param _ => True

/-- Every expression in the arguments of a base type is well-sorted. -/
def BaseTy.WellSorted (Γ : Env) : BaseTy → Prop
  | .adt _ args => TysWellSorted Γ args
  | .int _ | .uint _ | .bool => True

/-- Every expression of a list of types is well-sorted. -/
def TysWellSorted (Γ : Env) : List Ty → Prop
  | [] => True
  | ty :: tys => ty.WellSorted Γ ∧ TysWellSorted Γ tys

end

/-- The outermost index or predicate of a type is well-sorted. -/
def Ty.OutermostSorted (Γ : Env) : Ty → Prop
  | .refine bty e => HasSort Γ e bty.sort
  | .exists_ bty (.expr e) => HasSort (Γ.insert .bound bty.sort) e .bool
  | .exists_ _ .infer | .mutRef _ | .param _ => True

/-- The expressions in the arguments of a type's base type are well-sorted. -/
def Ty.ArgsSorted (Γ : Env) : Ty → Prop
  | .refine bty _ | .exists_ bty _ => bty.WellSorted Γ
  | .mutRef _ | .param _ => True

/-- The expressions of a type are the outermost ones and those in its arguments. -/
lemma Ty.wellSorted_iff {Γ : Env} {ty : Ty} :
    ty.WellSorted Γ ↔ ty.OutermostSorted Γ ∧ ty.ArgsSorted Γ := by
  rcases ty with ⟨bty, e⟩ | ⟨bty, _ | e⟩ | _ | _ <;>
    simp [WellSorted, OutermostSorted, ArgsSorted, and_comm]

/-- The sorts of the parameters, after those that `Γ` gives. -/
def paramSorts (Γ : Env) (params : List Param) : Env :=
  params.foldl (fun Γ param => Γ.insert (.free param.name.name) param.sort) Γ

/-- Every parameter's predicate is well-sorted in the scope of the parameters up to it. -/
def ParamsSorted (Γ : Env) : List Param → Prop
  | [] => True
  | param :: params =>
    HasSort (Γ.insert (.free param.name.name) param.sort) param.pred .bool ∧
      ParamsSorted (Γ.insert (.free param.name.name) param.sort) params

namespace FnSig

/-- The sorts of a signature's parameters. -/
def sorts (fn_sig : FnSig) : Env :=
  paramSorts (fun _ => none) fn_sig.params

/-- **A well-sorted signature**: every expression in it, in every place and at every depth. -/
structure WellSorted (fn_sig : FnSig) : Prop where
  params : ParamsSorted (fun _ => none) fn_sig.params
  requires : ∀ p ∈ fn_sig.requires, p.2.WellSorted fn_sig.sorts
  args : ∀ ty ∈ fn_sig.args, ty.WellSorted fn_sig.sorts
  ensures : ∀ p ∈ fn_sig.ensures, p.2.WellSorted fn_sig.sorts
  ret : fn_sig.ret.WellSorted fn_sig.sorts

/-- The expressions that the checker visits are well-sorted. -/
structure VisitedSorted (fn_sig : FnSig) : Prop where
  params : ParamsSorted (fun _ => none) fn_sig.params
  args : ∀ ty ∈ fn_sig.args, ty.OutermostSorted fn_sig.sorts
  ensures : ∀ p ∈ fn_sig.ensures, p.2.OutermostSorted fn_sig.sorts
  ret : fn_sig.ret.OutermostSorted fn_sig.sorts

/-- The types of `requires` and the types inside ADT arguments are well-sorted. -/
structure UnvisitedSorted (fn_sig : FnSig) : Prop where
  requires : ∀ p ∈ fn_sig.requires, p.2.WellSorted fn_sig.sorts
  args : ∀ ty ∈ fn_sig.args, ty.ArgsSorted fn_sig.sorts
  ensures : ∀ p ∈ fn_sig.ensures, p.2.ArgsSorted fn_sig.sorts
  ret : fn_sig.ret.ArgsSorted fn_sig.sorts

/-- The visited and the other expressions are all expressions of a signature. -/
theorem wellSorted_iff {fn_sig : FnSig} :
    fn_sig.WellSorted ↔ fn_sig.VisitedSorted ∧ fn_sig.UnvisitedSorted := by
  constructor
  · intro h
    exact ⟨⟨h.params, fun ty hty => (Ty.wellSorted_iff.mp (h.args ty hty)).1,
        fun p hp => (Ty.wellSorted_iff.mp (h.ensures p hp)).1, (Ty.wellSorted_iff.mp h.ret).1⟩,
      ⟨h.requires, fun ty hty => (Ty.wellSorted_iff.mp (h.args ty hty)).2,
        fun p hp => (Ty.wellSorted_iff.mp (h.ensures p hp)).2, (Ty.wellSorted_iff.mp h.ret).2⟩⟩
  · rintro ⟨h, h'⟩
    exact ⟨h.params, h'.requires,
      fun ty hty => Ty.wellSorted_iff.mpr ⟨h.args ty hty, h'.args ty hty⟩,
      fun p hp => Ty.wellSorted_iff.mpr ⟨h.ensures p hp, h'.ensures p hp⟩,
      Ty.wellSorted_iff.mpr ⟨h.ret, h'.ret⟩⟩

end FnSig

/-! ## Scopes -/

/-- The variables in scope outside of an existential: the parameters `ps`. -/
def FreeIn (ps : List Name) : Var → Prop
  | .bound => False
  | .free name => name ∈ ps

/-- The variables in scope inside an existential: its binder and the parameters. -/
def BoundOrFreeIn (ps : List Name) : Var → Prop
  | .bound => True
  | .free name => name ∈ ps

mutual

/-- The variables and the locations of a type are in scope, and nothing is left to infer. -/
def Ty.Scoped (ps locs : List Name) : Ty → Prop
  | .refine bty e => bty.Scoped ps locs ∧ e.ScopedIn (FreeIn ps)
  | .exists_ bty (.expr e) => bty.Scoped ps locs ∧ e.ScopedIn (BoundOrFreeIn ps)
  | .exists_ _ .infer => False
  | .mutRef loc => loc ∈ locs
  | .param _ => True

/-- The types in the arguments of a base type are scoped. -/
def BaseTy.Scoped (ps locs : List Name) : BaseTy → Prop
  | .adt _ args => TysScoped ps locs args
  | .int _ | .uint _ | .bool => True

/-- The types of a list are scoped. -/
def TysScoped (ps locs : List Name) : List Ty → Prop
  | [] => True
  | ty :: tys => ty.Scoped ps locs ∧ TysScoped ps locs tys

end

/-- A list of types is in scope iff each type is. -/
lemma tysScoped_iff {ps locs : List Name} {tys : List Ty} :
    TysScoped ps locs tys ↔ ∀ ty ∈ tys, ty.Scoped ps locs := by
  induction tys with
  | nil => simp [TysScoped]
  | cons ty tys ih => rw [TysScoped, ih, List.forall_mem_cons]

/-- Every parameter is new, and its predicate is scoped in the parameters up to it. -/
def ParamsScoped (ps : List Name) : List Param → Prop
  | [] => True
  | param :: params => param.name.name ∉ ps ∧
      param.pred.ScopedIn (FreeIn (param.name.name :: ps)) ∧
      ParamsScoped (param.name.name :: ps) params

/-- The locations of a list of bindings, after the locations `locs`. -/
def locsAfter (locs : List Name) (bindings : List (Name × Ty)) : List Name :=
  (bindings.map Prod.fst).reverse ++ locs

/-- Every binding's type is scoped in the locations up to its own. -/
def BindingsScoped (ps : List Name) (locs : List Name) : List (Name × Ty) → Prop
  | [] => True
  | (loc, ty) :: bindings => ty.Scoped ps (loc :: locs) ∧ BindingsScoped ps (loc :: locs) bindings

namespace FnSig

/-- The names of the parameters. -/
def paramNames (fn_sig : FnSig) : List Name :=
  fn_sig.params.map fun param => param.name.name

/-- The locations of `requires`. -/
def requiredLocs (fn_sig : FnSig) : List Name :=
  locsAfter [] fn_sig.requires

/-- **A scoped signature**: its variables are parameters in scope or binders, and its locations
are among those of `requires` and `ensures` up to the place they occur in. -/
structure Scoped (fn_sig : FnSig) : Prop where
  params : ParamsScoped [] fn_sig.params
  requires : BindingsScoped fn_sig.paramNames [] fn_sig.requires
  args : ∀ ty ∈ fn_sig.args, ty.Scoped fn_sig.paramNames fn_sig.requiredLocs
  ensures : BindingsScoped fn_sig.paramNames fn_sig.requiredLocs fn_sig.ensures
  ret : fn_sig.ret.Scoped fn_sig.paramNames (locsAfter fn_sig.requiredLocs fn_sig.ensures)

end FnSig

end LiquidRust.Core
