import LiquidRust.Core.Sorting

set_option relaxedAutoImplicit false
set_option autoImplicit false

/-!
# What the sort checker accepts

On a scoped signature the checker does not panic, and it accepts exactly the signatures whose
visited expressions are well-sorted. The sort of a binder that an earlier type left in the
environment is never read.

## Main results

* `LiquidRust.Core.Wf.checkFnSig_spec` — the checker on scoped signatures.
-/

namespace LiquidRust.Core.Wf

open Common Outcome

/-- Environments that agree on the parameters. -/
def AgreeOnFree (Γ env : Env) : Prop :=
  ∀ name, env (.free name) = Γ (.free name)

/-- All parameters have a sort. -/
def Covers (Γ : Env) (ps : List Name) : Prop :=
  ∀ name ∈ ps, (Γ (.free name)).isSome

/-- An environment agrees with itself. -/
lemma AgreeOnFree.refl (Γ : Env) : AgreeOnFree Γ Γ :=
  fun _ => rfl

/-- The binder is not a free variable. -/
lemma AgreeOnFree.insert_bound {Γ env : Env} (h : AgreeOnFree Γ env) (s : Srt) :
    AgreeOnFree Γ (env.insert .bound s) := by
  intro name
  rw [Env.insert, Function.update_of_ne (by simp)]
  exact h name

/-- The check of an expression whose variables are parameters. -/
lemma checkExpr_free {Γ env : Env} {ps : List Name} {e : Expr} {s : Srt} (hΓ : Covers Γ ps)
    (henv : AgreeOnFree Γ env) (he : e.ScopedIn (FreeIn ps)) :
    (checkExpr env e s).NoPanic ∧ ((checkExpr env e s).IsOk ↔ HasSort Γ e s) := by
  have hagree : ∀ x, FreeIn ps x → env x = Γ x
    | .free name, _ => henv name
  refine ⟨checkExpr_noPanic (he.mono ?_),
    isOk_unit.trans checkExpr_eq_ok |>.trans (hasSort_congr he hagree)⟩
  rintro (_ | name) hname
  · exact hname.elim
  · exact henv name ▸ hΓ name hname

/-- The check of a predicate whose variables are the binder, with the sort `sort`, or
parameters. -/
lemma checkExpr_bound {Γ env : Env} {ps : List Name} {e : Expr} {s t : Srt} (hΓ : Covers Γ ps)
    (henv : AgreeOnFree Γ env) (he : e.ScopedIn (BoundOrFreeIn ps)) :
    (checkExpr (env.insert .bound t) e s).NoPanic ∧
      ((checkExpr (env.insert .bound t) e s).IsOk ↔
        HasSort (Γ.insert .bound t) e s) := by
  have hagree : ∀ x, BoundOrFreeIn ps x → env.insert .bound t x = Γ.insert .bound t x
    | .bound, _ => by simp [Env.insert]
    | .free name, _ =>
      (henv.insert_bound t name).trans ((AgreeOnFree.refl Γ).insert_bound t name).symm
  refine ⟨checkExpr_noPanic (he.mono ?_),
    isOk_unit.trans checkExpr_eq_ok |>.trans (hasSort_congr he hagree)⟩
  rintro (_ | name) hname
  · simp [Env.insert]
  · rw [henv.insert_bound t name]
    exact hΓ name hname

/-- **The check of a type** decides whether its outermost expression is well-sorted. -/
lemma checkType_spec {Γ env : Env} {ps locs : List Name} {ty : Ty} (hΓ : Covers Γ ps)
    (henv : AgreeOnFree Γ env) (hty : ty.Scoped ps locs) :
    AgreeOnFree Γ (checkType env ty).1 ∧ (checkType env ty).2.NoPanic ∧
      ((checkType env ty).2.IsOk ↔ ty.OutermostSorted Γ) := by
  rcases ty with ⟨bty, e⟩ | ⟨bty, _ | e⟩ | loc | p
  · obtain ⟨hp, hok⟩ := checkExpr_free (s := bty.sort) hΓ henv hty.2
    exact ⟨henv, hp, hok⟩
  · exact hty.elim
  · obtain ⟨hp, hok⟩ := checkExpr_bound (s := .bool) (t := bty.sort) hΓ henv hty.2
    exact ⟨henv.insert_bound _, hp, hok⟩
  · exact ⟨henv, trivial, Iff.rfl⟩
  · exact ⟨henv, trivial, Iff.rfl⟩

/-- The check of the types of a list. -/
lemma checkTypes_spec {α : Type} (ty : α → Ty) {Γ env : Env} {ps : List Name} {as : List α}
    (hΓ : Covers Γ ps) (henv : AgreeOnFree Γ env) (has : ∀ a ∈ as, ∃ locs, (ty a).Scoped ps locs) :
    AgreeOnFree Γ (tryCollectExhaust (fun env a => checkType env (ty a)) env as).1 ∧
      (tryCollectExhaust (fun env a => checkType env (ty a)) env as).2.NoPanic ∧
      ((tryCollectExhaust (fun env a => checkType env (ty a)) env as).2.IsOk ↔
        ∀ a ∈ as, (ty a).OutermostSorted Γ) := by
  refine tryCollectExhaust_forall (I := AgreeOnFree Γ) (fun env henv a ha => ?_) henv
  obtain ⟨locs, hlocs⟩ := has a ha
  exact checkType_spec hΓ henv hlocs

/-- **The check of the parameters** gives them their sorts, and decides whether their predicates
are well-sorted. -/
lemma checkParams_spec {Γ : Env} {ps : List Name} {params : List Param} (hΓ : Covers Γ ps)
    (hparams : ParamsScoped ps params) :
    (tryCollectExhaust checkParam Γ params).1 = paramSorts Γ params ∧
      (tryCollectExhaust checkParam Γ params).2.NoPanic ∧
      ((tryCollectExhaust checkParam Γ params).2.IsOk ↔ ParamsSorted Γ params) ∧
      Covers (paramSorts Γ params) (params.map (fun param => param.name.name) ++ ps) := by
  induction params generalizing Γ ps with
  | nil => exact ⟨rfl, trivial, Iff.rfl, hΓ⟩
  | cons param params ih =>
    obtain ⟨-, hpred, hrest⟩ := hparams
    have hcovers : Covers (Γ.insert (.free param.name.name) param.sort)
        (param.name.name :: ps) := by
      intro name hname
      by_cases h : name = param.name.name
      · simp [h, Env.insert]
      · rw [Env.insert, Function.update_of_ne (by simpa using h)]
        exact hΓ name ((List.mem_cons.mp hname).resolve_left h)
    obtain ⟨hp, hok⟩ := checkExpr_free (s := .bool) hcovers (.refl _) hpred
    obtain ⟨henv, hp', hok', hcovers'⟩ := ih hcovers hrest
    rw [tryCollectExhaust_cons]
    refine ⟨henv, (hp.both hp').map _, ?_, ?_⟩
    · rw [ParamsSorted, ← hok, ← hok', isOk_map, isOk_both]
      rfl
    · intro name hname
      refine hcovers' name ?_
      simp only [List.map_cons, List.cons_append, List.mem_cons, List.mem_append] at hname ⊢
      tauto

/-- Each of the bindings is scoped, with the locations before it. -/
lemma exists_scoped_of_bindingsScoped {ps locs : List Name} {bindings : List (Name × Ty)}
    (h : BindingsScoped ps locs bindings) : ∀ p ∈ bindings, ∃ locs, p.2.Scoped ps locs := by
  induction bindings generalizing locs with
  | nil => simp
  | cons p bindings ih =>
    rintro p' (_ | ⟨_, hp'⟩)
    · exact ⟨_, h.1⟩
    · exact ih h.2 p' hp'

/-- **The checker on scoped signatures** does not panic, and accepts a signature iff its visited
expressions are well-sorted. -/
theorem checkFnSig_spec {fn_sig : FnSig} (h : fn_sig.Scoped) :
    (checkFnSig fn_sig).NoPanic ∧ (checkFnSig fn_sig = .ok () ↔ fn_sig.VisitedSorted) := by
  obtain ⟨henv, hp, hok, hΓ⟩ := checkParams_spec
    (show Covers (fun _ => none) [] from fun _ hname => by simp at hname) h.params
  rw [List.append_nil] at hΓ
  have hagree : AgreeOnFree fn_sig.sorts
      (tryCollectExhaust checkParam (fun _ => none) fn_sig.params).1 :=
    henv ▸ .refl _
  obtain ⟨henv₁, hp₁, hok₁⟩ := checkTypes_spec id hΓ hagree
    fun ty hty => ⟨_, h.args ty hty⟩
  obtain ⟨henv₂, hp₂, hok₂⟩ := checkTypes_spec Prod.snd hΓ henv₁
    (exists_scoped_of_bindingsScoped h.ensures)
  obtain ⟨-, hp₃, hok₃⟩ := checkType_spec hΓ henv₂ h.ret
  refine ⟨(hp.both (hp₁.both (hp₂.both hp₃))).map _, ?_⟩
  rw [← isOk_unit, checkFnSig, isOk_map, isOk_both, isOk_both, isOk_both]
  exact ⟨fun ⟨h₀, h₁, h₂, h₃⟩ => ⟨hok.mp h₀, hok₁.mp h₁, hok₂.mp h₂, hok₃.mp h₃⟩,
    fun h => ⟨hok.mpr h.params, hok₁.mpr h.args, hok₂.mpr h.ensures, hok₃.mpr h.ret⟩⟩

end LiquidRust.Core.Wf
