import LiquidRust.Typeck.Transform

set_option relaxedAutoImplicit false
set_option autoImplicit false

/-!
# The environment of a join point

`infer_bb_env` makes it from a shape and the environment that arrives first. The unknown
predicates of the shape get new ones, and locations are renamed where pointers of the shape and of
the environment differ.

## Main definitions

* `LiquidRust.Typeck.TypeEnv.CollectsKvars` — all unknown predicates of a shape have new ones.
* `LiquidRust.Typeck.TypeEnv.InfersFrom` — what the environment of a join point has.

## Main results

* `LiquidRust.Typeck.TypeEnv.wp_inferBbEnv` — when the environment is made, and what it has.
-/

namespace LiquidRust.Typeck

open Lib Cursor

namespace TypeEnv

variable {env : TypeEnv} {shape : TypeEnvShape} {c : Cursor} {kvars : KVars} {loc : Loc}

/-! ## Unknown predicates -/

/-- Every unknown predicate of the types has a new one. -/
def CollectsKvars (kvars : KVars) (tys : List Ty) : Prop :=
  ∀ bty kvid args, Ty.exists_ bty (.kvar kvid args) ∈ tys → (kvars kvid).isSome

/-- The unknown predicates are collected one after the other. -/
lemma wp_collectKvars (tys : List Ty) (kvars : KVars) (hc : c.Valid) :
    wp (tys.foldlM collectKvar kvars)
      (fun kvars' c' => c'.Valid ∧ CollectsKvars kvars' tys ∧
        ∀ kvid, (kvars kvid).isSome → (kvars' kvid).isSome)
      (fun _ => False) c := by
  induction tys generalizing kvars c with
  | nil => exact ⟨hc, fun _ _ _ h => absurd h (by simp), fun _ h => h⟩
  | cons ty tys ih =>
    rw [List.foldlM_cons, wp_bind]
    have hstep : wp (collectKvar kvars ty) (fun kvars' c' => c'.Valid ∧
        (∀ bty kvid args, ty = .exists_ bty (.kvar kvid args) → (kvars' kvid).isSome) ∧
        ∀ kvid, (kvars kvid).isSome → (kvars' kvid).isSome) (fun _ => False) c := by
      unfold collectKvar
      split
      · next bty kvid args =>
        split
        · next p hp =>
          refine ⟨hc, fun bty' kvid' args' h => ?_, fun _ h => h⟩
          cases h
          simp [hp]
        · rw [wp_bind]
          refine wp_imp (hc.wp_freshKvarAtLastScope bty.sort) fun p c' hc' =>
            ⟨hc', fun bty' kvid' args' h => ?_, fun kvid' h => ?_⟩
          · cases h
            simp
          · by_cases hk : kvid' = kvid
            · simp [hk]
            · dsimp only
              rwa [Function.update_of_ne hk]
      · next hne =>
        exact ⟨hc, fun bty' kvid' args' h => absurd h (hne bty' kvid' args'), fun _ h => h⟩
    refine wp_imp hstep fun kvars' c' ⟨hc', hty, hsub⟩ => ?_
    refine wp_imp (ih kvars' hc') fun kvars'' c'' ⟨hc'', hcollect, hsub'⟩ =>
      ⟨hc'', fun bty kvid args h => ?_, fun kvid h => hsub' kvid (hsub kvid h)⟩
    rcases List.mem_cons.mp h with h | h
    · exact hsub' kvid (hty bty kvid args h.symm)
    · exact hcollect bty kvid args h

/-- The unknown predicate of an integer or a boolean is replaced. -/
lemma replaceKvars_scalar {bty : BaseTy} {ty : Ty} (hbty : bty.isScalar = true)
    (hty : ty.HasBase bty) (hkvars : CollectsKvars kvars ty.walk) :
    ∃ ty', replaceKvars kvars ty = some ty' ∧ ty'.HasBase bty := by
  cases hty with
  | refine e => exact ⟨.refine bty e, by rw [replaceKvars], .refine e⟩
  | exists_ p =>
    cases p with
    | expr e => exact ⟨.exists_ bty (.expr e), by rw [replaceKvars], .exists_ _⟩
    | kvar kvid args =>
      have hreplace : replaceKvarsBty kvars bty = some bty := by
        cases bty with
        | adt did substs => exact absurd hbty (by simp [BaseTy.isScalar])
        | _ => rw [replaceKvarsBty]
      obtain ⟨p, hp⟩ := Option.isSome_iff_exists.mp (hkvars bty kvid args (by simp [Ty.walk]))
      exact ⟨.exists_ bty p, by simp [replaceKvars, hreplace, hp], .exists_ p⟩

/-- The unknown predicate of a reference to an integer or a boolean is replaced. -/
lemma replaceKvars_ref_exists {bty : BaseTy} {p : Pred} (hbty : bty.isScalar = true)
    (hkvars : CollectsKvars kvars (Ty.ref (.exists_ bty p)).walk) :
    ∃ p', replaceKvars kvars (.ref (.exists_ bty p)) = some (.ref (.exists_ bty p')) := by
  cases p with
  | expr e => exact ⟨.expr e, by simp [replaceKvars]⟩
  | kvar kvid args =>
    have hreplace : replaceKvarsBty kvars bty = some bty := by
      cases bty with
      | adt did substs => exact absurd hbty (by simp [BaseTy.isScalar])
      | _ => rw [replaceKvarsBty]
    obtain ⟨p', hp'⟩ := Option.isSome_iff_exists.mp (hkvars bty kvid args (by simp [Ty.walk]))
    exact ⟨p', by simp [replaceKvars, hreplace, hp']⟩

/-- A type without unknown predicates stays. -/
lemma replaceKvars_ref_refine {bty : BaseTy} {e : Expr} :
    replaceKvars kvars (.ref (.refine bty e)) = some (.ref (.refine bty e)) := by
  simp [replaceKvars]

/-! ## Shapes -/

/-- The shape of an environment lists the types of its locations. -/
lemma mem_intoShape {tcx : Tcx} {ty : Ty} :
    (loc, ty) ∈ env.intoShape tcx ↔ env.lookupLoc loc = some ty := by
  simp only [intoShape, List.mem_filterMap, Option.map_eq_some_iff, Prod.mk.injEq]
  constructor
  · rintro ⟨loc', -, ty', hty', rfl, rfl⟩
    exact hty'
  · exact fun h => ⟨loc, (mem_locs tcx).mpr (mem_of_lookupLoc h), ty, h, rfl, rfl⟩

/-- Nothing is renamed where the pointers of the shape are those of the environment. -/
lemma renamedLocs_eq_self (hshape : ∀ loc l, (loc, Ty.strgRef l) ∈ shape →
      ∀ l', env.lookupLoc loc = some (.strgRef l') → l = l') :
    (env.renamedLocs shape loc).getD loc = loc := by
  unfold renamedLocs
  have hstart : ((fun _ => none : Loc → Option Loc) loc).getD loc = loc := rfl
  generalize (fun _ => none : Loc → Option Loc) = locs at hstart ⊢
  induction shape generalizing locs with
  | nil => exact hstart
  | cons p shape ih =>
    rw [List.foldl_cons]
    refine ih (fun loc l hl => hshape loc l (.tail _ hl)) _ ?_
    dsimp only
    split
    · next l1 l2 h1 h2 =>
      obtain ⟨loc', ty⟩ := p
      obtain rfl : ty = .strgRef l1 := h1
      obtain rfl := hshape loc' l1 (.head _) l2 h2
      by_cases hl : loc = l1
      · simp [hl]
      · rwa [Function.update_of_ne hl]
    · exact hstart

/-! ## The environment -/

/-- **What the environment of a join point has**, if nothing is renamed. -/
structure InfersFrom (env : TypeEnv) (shape : TypeEnvShape) (bbEnv : TypeEnv) : Prop where
  strong : bbEnv.AllStrong
  mem : ∀ loc, loc ∈ bbEnv.bindings ↔ ∃ ty, (loc, ty) ∈ shape
  lookup : ∀ loc ty, bbEnv.lookupLoc loc = some ty → ∃ kvars ty1 ty2,
    CollectsKvars kvars (shape.flatMap fun p => p.2.walk) ∧ (loc, ty1) ∈ shape ∧
    env.lookupLoc loc = some ty2 ∧ inferTy kvars ty1 ty2 = some ty

/-- A location of the shape that has no type in the environment, or whose type has an unknown
predicate that has no new one. -/
def InfersNot (env : TypeEnv) (shape : TypeEnvShape) : Prop :=
  ∃ p ∈ shape, ∀ ty2, env.lookupLoc p.1 = some ty2 →
    ∃ kvars, CollectsKvars kvars (shape.flatMap fun p => p.2.walk) ∧ inferTy kvars p.2 ty2 = none

/-- **The environment of a join point** is made unless a location has no type. -/
theorem wp_inferBbEnv (hshape : ∀ loc l, (loc, Ty.strgRef l) ∈ shape →
      ∀ l', env.lookupLoc loc = some (.strgRef l') → l = l') (hc : c.Valid) :
    wp (env.inferBbEnv shape) (fun bbEnv _ => InfersFrom env shape bbEnv)
      (fun _ => InfersNot env shape) c := by
  rw [inferBbEnv, wp_bind]
  refine wp_mono (wp_collectKvars _ _ hc) (fun kvars c' ⟨_, hkvars, _⟩ => ?_) fun _ hf => hf.elim
  dsimp only
  refine wp_imp (wp_foldlM_done (I := fun done bbEnv _ => bbEnv.AllStrong ∧
      (∀ loc, loc ∈ bbEnv.bindings ↔ ∃ ty, (loc, ty) ∈ done) ∧
      ∀ loc ty, bbEnv.lookupLoc loc = some ty → ∃ ty1 ty2, (loc, ty1) ∈ done ∧
        env.lookupLoc loc = some ty2 ∧ inferTy kvars ty1 ty2 = some ty) ?step ?start) ?done
  case start =>
    refine ⟨fun loc binding h => absurd h (by simp [new]), by simp [new], fun loc ty h => ?_⟩
    exact absurd h (by simp [new, lookupLoc])
  case done =>
    rintro bbEnv c ⟨hstrong, hmem, hlookup⟩
    refine ⟨hstrong, hmem, fun loc ty hty => ?_⟩
    obtain ⟨ty1, ty2, h⟩ := hlookup loc ty hty
    exact ⟨kvars, ty1, ty2, hkvars, h⟩
  case step =>
    rintro done ⟨loc, ty1⟩ rest hlist bbEnv c ⟨hstrong, hmem, hlookup⟩
    have hp : (loc, ty1) ∈ shape := by simp [hlist]
    dsimp only
    rw [renamedLocs_eq_self hshape, wp_bind, wp_orFail]
    refine ⟨fun ty2 hty2 => ?_, fun hnone => ⟨(loc, ty1), hp, fun ty2 hty2 => ?_⟩⟩
    · rw [wp_bind, wp_orFail]
      refine ⟨fun ty hty => ⟨hstrong.insertLoc loc ty, fun l => ?_, fun l tyl hl => ?_⟩,
        fun hnone => ⟨(loc, ty1), hp, fun ty2' hty2' => ?_⟩⟩
      · rw [mem_insertLoc, hmem]
        simp only [List.mem_append, List.mem_singleton, Prod.mk.injEq]
        constructor
        · rintro (rfl | ⟨ty', h⟩)
          · exact ⟨ty1, .inr ⟨rfl, rfl⟩⟩
          · exact ⟨ty', .inl h⟩
        · rintro ⟨ty', h | h⟩
          · exact .inr ⟨ty', h⟩
          · exact .inl h.1
      · by_cases hloc : l = loc
        · subst hloc
          obtain rfl := Option.some.inj (lookupLoc_insertLoc_self.symm.trans hl)
          exact ⟨ty1, ty2, by simp, hty2, hty⟩
        · rw [lookupLoc_insertLoc_of_ne hloc] at hl
          obtain ⟨ty1', ty2', hdone, h⟩ := hlookup l tyl hl
          exact ⟨ty1', ty2', List.mem_append_left _ hdone, h⟩
      · obtain rfl := Option.some.inj (hty2.symm.trans hty2')
        exact ⟨kvars, hkvars, hnone⟩
    · exact absurd (hnone.symm.trans hty2) (by simp)

end TypeEnv

end LiquidRust.Typeck
