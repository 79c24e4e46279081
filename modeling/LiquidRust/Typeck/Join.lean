import LiquidRust.Typeck.Transform

set_option relaxedAutoImplicit false
set_option autoImplicit false

/-!
# Joins make environments coarser

The locations of an environment that is joined with another one stay. Pointers stay or become
something else; nothing becomes a pointer or uninitialised.

## Main definitions

* `LiquidRust.Typeck.TypeEnv.Coarsens` — what any join does to an environment.

## Main results

* `LiquidRust.Typeck.TypeEnv.wp_joinWith_coarsens` — joins make environments coarser.
-/

namespace LiquidRust.Typeck

open Lib Cursor

namespace TypeEnv

variable {tcx : Tcx} {c : Cursor}

/-- **What any join does**: the locations stay, and none becomes a pointer. What is uninitialised
stays so, and only locations in `U` become uninitialised. -/
structure Coarsens (U : Set Loc) (env env' : TypeEnv) : Prop where
  mem : ∀ loc, loc ∈ env'.bindings ↔ loc ∈ env.bindings
  strong : env.AllStrong → env'.AllStrong
  strgRef : ∀ loc l, env'.lookupLoc loc = some (.strgRef l) → env.lookupLoc loc = some (.strgRef l)
  uninit : ∀ loc, env'.lookupLoc loc = some .uninit → env.lookupLoc loc = some .uninit ∨ loc ∈ U
  stays : ∀ loc, env.lookupLoc loc = some .uninit → env'.lookupLoc loc = some .uninit

section Coarsens

variable {U : Set Loc} {env env' env'' other : TypeEnv} {loc : Loc} {ty : Ty}

/-- An environment coarsens itself. -/
lemma Coarsens.refl (env : TypeEnv) : Coarsens U env env :=
  ⟨fun _ => Iff.rfl, id, fun _ _ h => h, fun _ h => .inl h, fun _ h => h⟩

/-- One coarsening after another. -/
lemma Coarsens.trans (h : Coarsens U env env') (h' : Coarsens U env' env'') :
    Coarsens U env env'' where
  mem loc := (h'.mem loc).trans (h.mem loc)
  strong hs := h'.strong (h.strong hs)
  strgRef loc l hl := h.strgRef loc l (h'.strgRef loc l hl)
  uninit loc hl := (h'.uninit loc hl).elim (h.uninit loc) .inr
  stays loc hl := h'.stays loc (h.stays loc hl)

/-- A location gets a type that is neither a pointer nor uninitialised, unless it was so. -/
lemma Coarsens.insertLoc (h : Coarsens U env env') (hloc : loc ∈ env.bindings)
    (href : ∀ l, ty = .strgRef l → env.lookupLoc loc = some ty)
    (huninit : ty = .uninit → env.lookupLoc loc = some .uninit ∨ loc ∈ U)
    (hstays : env.lookupLoc loc = some .uninit → ty = .uninit) :
    Coarsens U env (env'.insertLoc loc ty) where
  mem l := by
    rw [mem_insertLoc, h.mem]
    exact ⟨fun hl => hl.elim (fun hl => hl ▸ hloc) id, .inr⟩
  strong hs := (h.strong hs).insertLoc loc ty
  strgRef l l' hl := by
    by_cases hll : l = loc
    · subst hll
      rw [lookupLoc_insertLoc_self] at hl
      have heq := Option.some.inj hl
      exact heq ▸ href l' heq
    · rw [lookupLoc_insertLoc_of_ne hll] at hl
      exact h.strgRef l l' hl
  uninit l hl := by
    by_cases hll : l = loc
    · subst hll
      rw [lookupLoc_insertLoc_self] at hl
      exact huninit (Option.some.inj hl)
    · rw [lookupLoc_insertLoc_of_ne hll] at hl
      exact h.uninit l hl
  stays l hl := by
    by_cases hll : l = loc
    · subst hll
      rw [lookupLoc_insertLoc_self, hstays hl]
    · rw [lookupLoc_insertLoc_of_ne hll]
      exact h.stays l hl

/-- An existential or a reference of unknown location. -/
inductive IsBound : Ty → Prop
  | exists_ (bty : BaseTy) (p : Pred) : IsBound (.exists_ bty p)
  | ref (ty : Ty) : IsBound (.ref ty)

/-- Writing a bound to an initialized location coarsens. -/
lemma Coarsens.insertLoc_bound {ty₀ : Ty} (h : Coarsens U env env')
    (hloc : env.lookupLoc loc = some ty₀) (hne : ty₀ ≠ .uninit) (hty : IsBound ty) :
    Coarsens U env (env'.insertLoc loc ty) := by
  refine h.insertLoc (mem_of_lookupLoc hloc) (fun l hl => ?_) (fun hl => ?_) fun hl => ?_
  · subst hl
    cases hty
  · subst hl
    cases hty
  · exact absurd (Option.some.inj (hloc.symm.trans hl)) hne

/-- `ref_weak` coarsens the environment and writes a bound. -/
lemma wp_refWeak_coarsens (U : Set Loc) : ∀ (env : TypeEnv) (loc : Loc) (bound : Ty) (c : Cursor),
    wp (env.refWeak tcx loc bound)
      (fun env' _ => Coarsens U env env' ∧ IsBound bound ∧
        ∃ ty, env.lookupLoc loc = some ty ∧ ty ≠ .uninit) (fun _ => True) c
  | env, loc, .exists_ bty p, c => by
    refine wp_imp wp_refWeak_exists fun env' c' ⟨henv', ty, bty', hty, hbase⟩ => ?_
    have hne : ty ≠ .uninit := by
      rintro rfl
      cases hbase
    exact ⟨henv' ▸ (Coarsens.refl env).insertLoc_bound hty hne (.exists_ bty p), .exists_ bty p,
      ty, hty, hne⟩
  | env, loc, .ref bound, c => by
    rw [refWeak, wp_bind]
    refine wp_strongTy_lookup fun ty hty => ?_
    cases ty with
    | strgRef loc2 =>
      have hne : Ty.strgRef loc2 ≠ .uninit := by simp
      dsimp only
      rw [wp_bind]
      refine wp_imp (wp_refWeak_coarsens U env loc2 bound c) fun env' c' h => ?_
      exact ⟨h.1.insertLoc_bound hty hne (.ref bound), .ref bound, _, hty, hne⟩
    | ref bound2 =>
      dsimp only
      rw [wp_bind]
      exact wp_of_forall (fun _ _ => ⟨.refl env, .ref bound, _, hty, by simp⟩) fun _ => trivial
    | _ => trivial
  | env, loc, .refine _ _, c | env, loc, .uninit, c | env, loc, .strgRef _, c
  | env, loc, .param _, c => by
    rw [refWeak, wp_bind]
    exact wp_strongTy_lookup fun ty _ => trivial

/-- A join of types that makes environments coarser, and whose result is a pointer only if the
arguments are, and uninitialised iff one of them is. -/
def JoinCoarsens (U : Set Loc) (join : TypeEnv → Ty → Ty → CursorM (TypeEnv × Ty)) : Prop :=
  ∀ env ty1 ty2 c, wp (join env ty1 ty2)
    (fun r _ => Coarsens U env r.1 ∧ (∀ l, r.2 = .strgRef l → r.2 = ty1) ∧
      (r.2 = .uninit ↔ ty1 = .uninit ∨ ty2 = .uninit))
    (fun _ => True) c

section

variable {join : TypeEnv → Ty → Ty → CursorM (TypeEnv × Ty)}

/-- The join of type arguments coarsens if that of types does. -/
lemma wp_substsJoin_coarsens (hjoin : JoinCoarsens U join) (env : TypeEnv)
    (variances : List Variance) (substs1 substs2 : Substs) (c : Cursor) :
    wp (substsJoin join env variances substs1 substs2) (fun r _ => Coarsens U env r.1)
      (fun _ => True) c := by
  induction variances generalizing env substs1 substs2 c with
  | nil => exact .refl env
  | cons variance variances ih =>
    cases substs1 with
    | nil => exact .refl env
    | cons ty1 substs1 =>
      cases substs2 with
      | nil => exact .refl env
      | cons ty2 substs2 =>
        rw [substsJoin, wp_bind]
        refine wp_of_forall (fun _ c => ?_) fun _ => trivial
        rw [wp_bind]
        refine wp_imp (hjoin env ty1 ty2 c) fun r c h => ?_
        rw [wp_bind]
        exact wp_imp (ih r.1 substs1 substs2 c) fun r' c h' => h.1.trans h'

/-- The join of base types coarsens if that of types does. -/
lemma wp_btyJoin_coarsens (hjoin : JoinCoarsens U join) (env : TypeEnv) (bty1 bty2 : BaseTy)
    (c : Cursor) :
    wp (btyJoin tcx join env bty1 bty2) (fun r _ => Coarsens U env r.1) (fun _ => True) c := by
  unfold btyJoin
  split
  · exact .refl env
  · rw [wp_bind]
    exact wp_of_forall (fun _ _ => .refl env) fun _ => trivial
  · rw [wp_bind]
    exact wp_of_forall (fun _ _ => .refl env) fun _ => trivial
  · rw [wp_bind]
    refine wp_of_forall (fun _ c => ?_) fun _ => trivial
    rw [wp_bind]
    exact wp_imp (wp_substsJoin_coarsens hjoin env _ _ _ c) fun _ _ h => h
  · trivial

/-- `generalize` coarsens if the join of types does, and gives an existential. -/
lemma wp_generalize_coarsens (hjoin : JoinCoarsens U join) (env : TypeEnv) (bty1 bty2 : BaseTy)
    (c : Cursor) :
    wp (generalize tcx join env bty1 bty2)
      (fun r _ => Coarsens U env r.1 ∧ ∃ bty p, r.2 = .exists_ bty p) (fun _ => True) c := by
  rw [generalize, wp_bind]
  refine wp_imp (wp_btyJoin_coarsens hjoin env bty1 bty2 c) fun r c h => ?_
  rw [wp_bind]
  exact wp_of_forall (fun p _ => ⟨h, r.2, p, rfl⟩) fun _ => trivial

end

/-- The joins of types and of locations, by induction on the size of the stack. -/
lemma join_coarsens (U : Set Loc) (n : ℕ) : JoinCoarsens U (strgTyJoin tcx n) ∧
    ∀ env loc1 loc2 c, wp (refWeakJoin tcx n env loc1 loc2)
      (fun r _ => Coarsens U env r.1) (fun _ => True) c := by
  induction n with
  | zero => exact ⟨fun _ _ _ _ => trivial, fun _ _ _ _ => trivial⟩
  | succ n ih =>
    obtain ⟨ihty, ihloc⟩ := ih
    constructor
    · intro env ty1 ty2 c
      have hgen : ∀ bty1 bty2, ty1 ≠ .uninit → ty2 ≠ .uninit →
          wp (generalize tcx (strgTyJoin tcx n) env bty1 bty2)
            (fun r _ => Coarsens U env r.1 ∧ (∀ l, r.2 = .strgRef l → r.2 = ty1) ∧
              (r.2 = .uninit ↔ ty1 = .uninit ∨ ty2 = .uninit)) (fun _ => True) c := by
        intro bty1 bty2 h1 h2
        refine wp_imp (wp_generalize_coarsens ihty env bty1 bty2 c) fun r c h => ?_
        obtain ⟨h, bty, p, hr⟩ := h
        exact ⟨h, by simp [hr], by simp [hr, h1, h2]⟩
      unfold strgTyJoin
      split
      · next heq => exact ⟨.refl env, fun _ _ => rfl, by simp [heq]⟩
      · split
        · exact ⟨.refl env, by simp, by simp⟩
        · exact ⟨.refl env, by simp, by simp⟩
        · split
          · rw [wp_bind]
            exact wp_imp (wp_btyJoin_coarsens ihty env _ _ c) fun r c h => ⟨h, by simp, by simp⟩
          · exact hgen _ _ (by simp) (by simp)
        · exact hgen _ _ (by simp) (by simp)
        · exact hgen _ _ (by simp) (by simp)
        · exact hgen _ _ (by simp) (by simp)
        · rw [wp_bind]
          exact wp_imp (ihloc env _ _ c) fun r c h => ⟨h, by simp, by simp⟩
        · next ty loc _ =>
          rw [wp_bind]
          refine wp_imp (wp_refWeak_coarsens U env loc ty c) fun env' c h => ?_
          refine ⟨h.1, fun l hl => ?_, ⟨fun hu => ?_, by simp⟩⟩
          · subst hl
            cases h.2.1
          · subst hu
            cases h.2.1
        · next loc ty _ =>
          rw [wp_bind]
          refine wp_imp (wp_refWeak_coarsens U env loc ty c) fun env' c h => ?_
          refine ⟨h.1, fun l hl => ?_, ⟨fun hu => ?_, by simp⟩⟩
          · subst hl
            cases h.2.1
          · subst hu
            cases h.2.1
        · trivial
    · intro env loc1 loc2 c
      unfold refWeakJoin
      rw [wp_bind]
      refine wp_strongTy_lookup fun ty1 hty1 => ?_
      rw [wp_bind]
      refine wp_strongTy_lookup fun ty2 hty2 => ?_
      have hbase : (∀ l, ty1 ≠ .strgRef l) → ty1 ≠ .uninit → ty2 ≠ .uninit →
          wp (do
            let r ← strgTyJoin tcx n env ty1 ty2
            pure ((r.1.insertLoc loc1 r.2).insertLoc loc2 r.2, r.2))
          (fun r _ => Coarsens U env r.1) (fun _ => True) c := by
        intro href hu1 hu2
        rw [wp_bind]
        refine wp_imp (ihty env ty1 ty2 c) fun r c h => ?_
        obtain ⟨h, hstrg, huninit⟩ := h
        have hne : ∀ l, r.2 ≠ .strgRef l := fun l hl => href l ((hstrg l hl).symm.trans hl)
        have hnu : r.2 ≠ .uninit := fun hu => (huninit.mp hu).elim hu1 hu2
        have hinsert : ∀ {env' : TypeEnv} {loc : Loc} {ty : Ty}, Coarsens U env env' →
            env.lookupLoc loc = some ty → ty ≠ .uninit →
            Coarsens U env (env'.insertLoc loc r.2) := fun h hloc hty =>
          h.insertLoc (mem_of_lookupLoc hloc) (fun l hl => absurd hl (hne l))
            (fun hu => absurd hu hnu) fun hu => absurd (Option.some.inj (hloc.symm.trans hu)) hty
        exact hinsert (hinsert h hty1 hu1) hty2 hu2
      split
      · exact hbase (by simp) (by simp) (by simp)
      · exact hbase (by simp) (by simp) (by simp)
      · exact hbase (by simp) (by simp) (by simp)
      · exact hbase (by simp) (by simp) (by simp)
      · rw [wp_bind]
        exact wp_imp (ihloc env _ _ c) fun r c h =>
          (h.insertLoc_bound hty1 (by simp) (.ref _)).insertLoc_bound hty1 (by simp) (.ref _)
      · rw [wp_bind]
        exact wp_imp (wp_refWeak_coarsens U env _ _ c) fun env' c h =>
          h.1.insertLoc_bound hty1 (by simp) h.2.1
      · rw [wp_bind]
        exact wp_imp (wp_refWeak_coarsens U env _ _ c) fun env' c h =>
          h.1.insertLoc_bound hty1 (by simp) h.2.1
      · trivial

/-- The locations where an environment is uninitialised. -/
def uninitLocs (env : TypeEnv) : Set Loc :=
  {loc | env.lookupLoc loc = some .uninit}

/-- The join of what is at one location. -/
lemma wp_joinLoc_of_strong {Q : TypeEnv → Cursor → Prop} {E : Failure → Prop} {ty1 ty2 : Ty}
    (henv : env.AllStrong) (hother : other.AllStrong) (hty1 : env.lookupLoc loc = some ty1)
    (hty2 : other.lookupLoc loc = some ty2)
    (h : wp (strgTyJoin tcx tcx.stack env ty1 ty2) (fun r c' => Q (r.1.insertLoc loc r.2) c') E c) :
    wp (joinLoc tcx other env loc) Q E c := by
  rw [joinLoc, henv.lookup hty1, hother.lookup hty2, wp_bind]
  change wp (orFail _ (some _) >>= _) _ _ _
  rw [wp_bind]
  change wp (_ >>= _) _ _ _
  rwa [wp_bind]

/-- One location of a join. -/
lemma wp_joinLoc_coarsens (other env : TypeEnv) (loc : Loc) (c : Cursor) :
    wp (joinLoc tcx other env loc) (fun env' _ => Coarsens other.uninitLocs env env')
      (fun _ => True) c := by
  rw [joinLoc, wp_bind, wp_orFail]
  refine ⟨fun binding1 hbinding1 => ?_, fun _ => trivial⟩
  rw [wp_bind, wp_orFail]
  refine ⟨fun binding2 hbinding2 => ?_, fun _ => trivial⟩
  cases binding1 with
  | weak _ _ => exact .refl env
  | strong ty1 =>
    cases binding2 with
    | weak _ _ => exact .refl env
    | strong ty2 =>
      have hty1 : env.lookupLoc loc = some ty1 := by simp [lookupLoc, hbinding1, Binding.ty]
      have hty2 : other.lookupLoc loc = some ty2 := by simp [lookupLoc, hbinding2, Binding.ty]
      rw [wp_bind]
      refine wp_imp ((join_coarsens other.uninitLocs tcx.stack).1 env ty1 ty2 c) fun r c h => ?_
      obtain ⟨h, hstrg, huninit⟩ := h
      refine h.insertLoc (mem_of_lookupLoc hty1) (fun l hl => ?_) (fun hu => ?_) fun hu => ?_
      · rw [hstrg l hl, hty1]
      · rcases huninit.mp hu with rfl | rfl
        · exact .inl hty1
        · exact .inr hty2
      · exact huninit.mpr (.inl (Option.some.inj (hty1.symm.trans hu)))

/-- **A join makes an environment coarser**, after it is weakened. -/
theorem wp_joinWith_coarsens (env other : TypeEnv) (c : Cursor) :
    wp (env.joinWith tcx other)
      (fun env' _ => Coarsens other.uninitLocs (env.weakening other) env') (fun _ => True) c := by
  rw [joinWith, wp_bind, wp_ofExcept]
  refine post_of_forall (fun levels => ?_) fun _ => trivial
  rw [wp_bind, wp_ofExcept]
  refine post_of_forall (fun levelsOther => ?_) fun _ => trivial
  rw [wp_bind, wp_ofExcept]
  refine post_of_forall (fun levels => ?_) fun _ => trivial
  refine wp_foldlM (I := fun env' _ => Coarsens other.uninitLocs (env.weakening other) env')
    (fun loc _ env' c h => ?_) (.refl _)
  exact wp_imp (wp_joinLoc_coarsens other env' loc c) fun _ _ h' => h.trans h'

end Coarsens

end TypeEnv

end LiquidRust.Typeck
