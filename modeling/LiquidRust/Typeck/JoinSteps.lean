import LiquidRust.Typeck.Join

set_option relaxedAutoImplicit false
set_option autoImplicit false

/-!
# Joins in simple steps

A join goes from the lower levels to the higher ones. Where pointers that differ lead to integers
or booleans, each location takes one simple step: the join of two integers or booleans, a pointer
that stays, or two pointers that become a reference, with what they lead to joined as well.

## Main definitions

* `LiquidRust.Typeck.TypeEnv.JoinStep`, `JoinRun` — the steps, and sequences of them.
* `LiquidRust.Typeck.TypeEnv.Joins` — what one location of the two environments has to have.

## Main results

* `LiquidRust.Typeck.TypeEnv.wp_joinWith_run` — such a join completes, and is a run of steps with
  the lower levels first.
-/

namespace LiquidRust.Typeck

open Lib Cursor

namespace TypeEnv

variable {tcx : Tcx} {env env' env'' other cur : TypeEnv} {c : Cursor} {loc : Loc} {bty : BaseTy}
  {ty ty1 ty2 : Ty}

/-! ## Steps -/

/-- A join of two integers or booleans. It has an index only if both have it. -/
structure JoinOf (bty : BaseTy) (ty ty1 ty2 : Ty) : Prop where
  base : ty.HasBase bty
  refine_iff : ∀ e, ty = .refine bty e ↔ ty1 = .refine bty e ∧ ty2 = .refine bty e

/-- **One step of a join**, at one location. Two pointers that differ are joined by joining what
they lead to in the first environment. -/
inductive JoinStep (other env : TypeEnv) (loc : Loc) : TypeEnv → Prop
  | scalar {bty : BaseTy} {ty ty1 ty2 : Ty} : env.lookupLoc loc = some ty1 →
      other.lookupLoc loc = some ty2 → ty1.HasBase bty → ty2.HasBase bty →
      JoinOf bty ty ty1 ty2 → JoinStep other env loc (env.insertLoc loc ty)
  | same {l : Loc} : env.lookupLoc loc = some (.strgRef l) →
      other.lookupLoc loc = some (.strgRef l) →
      JoinStep other env loc (env.insertLoc loc (.strgRef l))
  | differ {l1 l2 : Loc} {bty : BaseTy} {ty ty1 ty2 : Ty} : env.lookupLoc loc = some (.strgRef l1) →
      other.lookupLoc loc = some (.strgRef l2) → l1 ≠ l2 → env.lookupLoc l1 = some ty1 →
      env.lookupLoc l2 = some ty2 → ty1.HasBase bty → ty2.HasBase bty → JoinOf bty ty ty1 ty2 →
      JoinStep other env loc (((env.insertLoc l1 ty).insertLoc l2 ty).insertLoc loc (.ref ty))

/-- A sequence of steps, at each location of a list. -/
inductive JoinRun (other : TypeEnv) : List Loc → TypeEnv → TypeEnv → Prop
  | nil (env : TypeEnv) : JoinRun other [] env env
  | cons {loc : Loc} {locs : List Loc} {env env' env'' : TypeEnv} : JoinStep other env loc env' →
      JoinRun other locs env' env'' → JoinRun other (loc :: locs) env env''

/-- A run over two lists of locations is one over each. -/
lemma JoinRun.of_append {locs locs' : List Loc} (h : JoinRun other (locs ++ locs') env env'') :
    ∃ env', JoinRun other locs env env' ∧ JoinRun other locs' env' env'' := by
  induction locs generalizing env with
  | nil => exact ⟨env, .nil env, h⟩
  | cons loc locs ih =>
    cases h with
    | cons hstep h =>
      obtain ⟨env', h1, h2⟩ := ih h
      exact ⟨env', .cons hstep h1, h2⟩

/-! ## Joins of integers and booleans -/

/-- Base types of integers and booleans are joined if they are the same. -/
lemma wp_btyJoin_scalar {join : TypeEnv → Ty → Ty → CursorM (TypeEnv × Ty)}
    (hbty : bty.isScalar = true) {Q : TypeEnv × BaseTy → Cursor → Prop} {E : Failure → Prop} :
    wp (btyJoin tcx join env bty bty) Q E c ↔ Q (env, bty) c := by
  cases bty with
  | adt did substs => exact absurd hbty (by simp [BaseTy.isScalar])
  | bool => exact Iff.rfl
  | _ => simp [btyJoin, wp_assert]

/-- `generalize` at a scalar base type gives an existential and changes nothing else. -/
lemma wp_generalize_scalar {join : TypeEnv → Ty → Ty → CursorM (TypeEnv × Ty)}
    (hbty : bty.isScalar = true) (hc : c.Valid) :
    wp (generalize tcx join env bty bty)
      (fun r c' => c'.Valid ∧ r.1 = env ∧ ∃ p, r.2 = .exists_ bty p) (fun _ => False) c := by
  rw [generalize, wp_bind, wp_btyJoin_scalar hbty, wp_bind]
  exact wp_imp (hc.wp_freshKvar bty.sort) fun p c' hc' => ⟨hc', rfl, p, rfl⟩

/-- **The join of two integers or booleans** completes. -/
lemma wp_strgTyJoin_scalar {n : ℕ} (hn : 0 < n) (hbty : bty.isScalar = true)
    (h1 : ty1.HasBase bty) (h2 : ty2.HasBase bty) (hc : c.Valid) :
    wp (strgTyJoin tcx n env ty1 ty2)
      (fun r c' => c'.Valid ∧ r.1 = env ∧ JoinOf bty r.2 ty1 ty2) (fun _ => False) c := by
  obtain ⟨n, rfl⟩ := Nat.exists_eq_succ_of_ne_zero hn.ne'
  have hgen : (∀ e, ¬(ty1 = .refine bty e ∧ ty2 = .refine bty e)) →
      wp (generalize tcx (strgTyJoin tcx n) env bty bty)
        (fun r c' => c'.Valid ∧ r.1 = env ∧ JoinOf bty r.2 ty1 ty2) (fun _ => False) c := by
    intro hne
    refine wp_imp (wp_generalize_scalar hbty hc) fun r c' ⟨hc', henv, p, hr⟩ => ?_
    exact ⟨hc', henv, hr ▸ .exists_ p, fun e =>
      ⟨fun h => by simp [hr] at h, fun h => absurd h (hne e)⟩⟩
  unfold strgTyJoin
  split
  · next heq =>
    subst heq
    exact ⟨hc, rfl, h1, fun e => ⟨fun h => ⟨h, h⟩, And.left⟩⟩
  · next hne =>
    have hne' : ∀ e, ¬(ty1 = .refine bty e ∧ ty2 = .refine bty e) :=
      fun e h => hne (h.1.trans h.2.symm)
    cases h1 with
    | refine e1 =>
      cases h2 with
      | refine e2 =>
        have hindex : e1 ≠ e2 := fun h => hne (h ▸ rfl)
        simpa only [if_neg hindex] using hgen hne'
      | exists_ p2 => exact hgen hne'
    | exists_ p1 =>
      cases h2 with
      | refine e2 => exact hgen hne'
      | exists_ p2 => exact hgen hne'

/-- Two locations of integers or booleans get their join. -/
lemma wp_refWeakJoin_scalar {n : ℕ} {l1 l2 : Loc} (hn : 1 < n) (hbty : bty.isScalar = true)
    (henv : env.AllStrong) (hl1 : env.lookupLoc l1 = some ty1) (hl2 : env.lookupLoc l2 = some ty2)
    (h1 : ty1.HasBase bty) (h2 : ty2.HasBase bty) (hc : c.Valid) :
    wp (refWeakJoin tcx n env l1 l2)
      (fun r c' => c'.Valid ∧ r.1 = (env.insertLoc l1 r.2).insertLoc l2 r.2 ∧
        JoinOf bty r.2 ty1 ty2) (fun _ => False) c := by
  obtain ⟨n, rfl⟩ := Nat.exists_eq_succ_of_ne_zero (by omega : n ≠ 0)
  have hjoin : wp (do
        let r ← strgTyJoin tcx n env ty1 ty2
        pure ((r.1.insertLoc l1 r.2).insertLoc l2 r.2, r.2))
      (fun r c' => c'.Valid ∧ r.1 = (env.insertLoc l1 r.2).insertLoc l2 r.2 ∧
        JoinOf bty r.2 ty1 ty2) (fun _ => False) c := by
    rw [wp_bind]
    refine wp_imp (wp_strgTyJoin_scalar (by omega) hbty h1 h2 hc) fun r c' h => ?_
    obtain ⟨hc', hr, hjoin⟩ := h
    exact ⟨hc', hr ▸ rfl, hjoin⟩
  unfold refWeakJoin
  rw [wp_bind, wp_strongTy (henv.lookup hl1), wp_bind, wp_strongTy (henv.lookup hl2)]
  cases h1 with
  | refine e1 =>
    cases h2 with
    | refine e2 => exact hjoin
    | exists_ p2 => exact hjoin
  | exists_ p1 =>
    cases h2 with
    | refine e2 => exact hjoin
    | exists_ p2 => exact hjoin

/-! ## Joins that complete -/

/-- **What one location has to have** for a join in simple steps. -/
inductive Joins (env other : TypeEnv) (loc : Loc) : Prop
  | scalar {bty : BaseTy} {ty1 ty2 : Ty} : bty.isScalar = true → env.lookupLoc loc = some ty1 →
      other.lookupLoc loc = some ty2 → ty1.HasBase bty → ty2.HasBase bty → Joins env other loc
  | same {l : Loc} : env.lookupLoc loc = some (.strgRef l) →
      other.lookupLoc loc = some (.strgRef l) → Joins env other loc
  | differ {l1 l2 : Loc} {bty : BaseTy} {ty1 ty2 : Ty} : bty.isScalar = true →
      env.lookupLoc loc = some (.strgRef l1) → other.lookupLoc loc = some (.strgRef l2) →
      l1 ≠ l2 → env.lookupLoc l1 = some ty1 → env.lookupLoc l2 = some ty2 →
      ty1.HasBase bty → ty2.HasBase bty → Joins env other loc

/-- **A location takes its step.** -/
lemma wp_joinLoc_step {rest : List Loc} (hstack : 2 < tcx.stack) (hother : other.AllStrong)
    (hjoins : Joins env other loc) (h : TransformInv env (loc :: rest) cur) (hnew : loc ∉ rest)
    (hc : c.Valid) :
    wp (joinLoc tcx other cur loc)
      (fun cur' c' => c'.Valid ∧ TransformInv env rest cur' ∧ JoinStep other cur loc cur')
      (fun _ => False) c := by
  cases hjoins with
  | @scalar bty ty1 ty2 hbty hty1 hty2 hbase1 hbase2 =>
    obtain ⟨ty1', hty1', hbase1'⟩ := h.scalar hty1 hbase1
    refine wp_joinLoc_of_strong h.strong hother hty1' hty2 ?_
    refine wp_imp (wp_strgTyJoin_scalar (by omega) hbty hbase1' hbase2 hc) fun r c' h' => ?_
    obtain ⟨hc', hr, hjoin⟩ := h'
    rw [hr]
    exact ⟨hc', h.tail.insert_scalar hty1 hbase1 hjoin.base,
      .scalar hty1' hty2 hbase1' hbase2 hjoin⟩
  | @same l hty1 hty2 =>
    have hty1' := h.pointer loc (.head _) l hty1
    refine wp_joinLoc_of_strong h.strong hother hty1' hty2 ?_
    obtain ⟨n, hn⟩ := Nat.exists_eq_succ_of_ne_zero (by omega : tcx.stack ≠ 0)
    rw [hn]
    unfold strgTyJoin
    rw [if_pos rfl]
    exact ⟨hc, h.insert_pointer hty1 hnew, .same hty1' hty2⟩
  | @differ l1 l2 bty ty1 ty2 hbty hl1 hl2 hne hty1 hty2 hbase1 hbase2 =>
    have hl1' := h.pointer loc (.head _) l1 hl1
    obtain ⟨ty1', hty1', hbase1'⟩ := h.scalar hty1 hbase1
    obtain ⟨ty2', hty2', hbase2'⟩ := h.scalar hty2 hbase2
    refine wp_joinLoc_of_strong h.strong hother hl1' hl2 ?_
    obtain ⟨n, hn⟩ := Nat.exists_eq_succ_of_ne_zero (by omega : tcx.stack ≠ 0)
    rw [hn]
    unfold strgTyJoin
    rw [if_neg (by simpa using hne), wp_bind]
    refine wp_imp (wp_refWeakJoin_scalar (by omega) hbty h.strong hty1' hty2' hbase1' hbase2' hc)
      fun r c' h' => ?_
    obtain ⟨hc', hr, hjoin⟩ := h'
    obtain ⟨env', ty⟩ := r
    dsimp only at hr
    subst hr
    refine ⟨hc', ?_, .differ hl1' hl2 hne hty1' hty2' hbase1' hbase2' hjoin⟩
    exact ((h.insert_scalar hty1 hbase1 hjoin.base).insert_scalar hty2 hbase2
      hjoin.base).insert_pointer hl1 hnew

/-- The locations take their steps one after the other. -/
lemma wp_joinLoc_run {locs : List Loc} (hstack : 2 < tcx.stack) (hother : other.AllStrong)
    (hnodup : locs.Nodup) (hjoins : ∀ loc ∈ locs, Joins env other loc)
    (h : TransformInv env locs cur) (hc : c.Valid) :
    wp (locs.foldlM (joinLoc tcx other) cur) (fun env' _ => JoinRun other locs cur env')
      (fun _ => False) c := by
  induction locs generalizing cur c with
  | nil => exact .nil cur
  | cons loc locs ih =>
    obtain ⟨hnew, hnodup⟩ := List.nodup_cons.mp hnodup
    rw [List.foldlM_cons, wp_bind]
    refine wp_imp (wp_joinLoc_step hstack hother (hjoins loc (.head _)) h hnew hc)
      fun cur' c' ⟨hc', h', hstep⟩ => ?_
    exact wp_imp (ih hnodup (fun l hl => hjoins l (.tail _ hl)) h' hc') fun _ _ hrun =>
      .cons hstep hrun

/-! ## The order of the steps -/

/-- The levels of two environments with the same locations. -/
lemma post_maxLevels {levels levelsOther : Levels} (hmem : ∀ loc ∈ levels, loc ∈ levelsOther) :
    post (maxLevels levels levelsOther)
      (fun m => (∀ loc, loc ∈ m ↔ loc ∈ levels) ∧ ∀ loc ∈ levels,
        levelOf m loc = max (levelOf levels loc) (levelOf levelsOther loc))
      (fun _ => False) := by
  have hfold : ∀ (locs : List Loc) (m : Levels), (∀ loc ∈ locs, loc ∈ levels) →
      (∀ loc, loc ∈ m ↔ loc ∈ levels) →
      post (locs.foldlM (fun m loc => do
          let level ← orError Failure.missing (levels.lookup loc)
          let levelOther ← orError .missing (levelsOther.lookup loc)
          pure (m.insert loc (max level levelOther))) m)
        (fun m' => (∀ loc, loc ∈ m' ↔ loc ∈ levels) ∧ ∀ loc,
          (loc ∈ locs → levelOf m' loc = max (levelOf levels loc) (levelOf levelsOther loc)) ∧
          (loc ∉ locs → m'.lookup loc = m.lookup loc))
        (fun _ => False) := by
    intro locs
    induction locs with
    | nil => exact fun m _ h => ⟨h, fun loc => ⟨by simp, fun _ => rfl⟩⟩
    | cons loc locs ih =>
      intro m hlocs hm
      have hloc := hlocs loc (.head _)
      obtain ⟨level, hlevel⟩ := Option.isSome_iff_exists.mp (AList.lookup_isSome.mpr hloc)
      obtain ⟨levelOther, hlevelOther⟩ :=
        Option.isSome_iff_exists.mp (AList.lookup_isSome.mpr (hmem loc hloc))
      rw [List.foldlM_cons, hlevel, hlevelOther]
      refine post_mono (ih (m.insert loc (max level levelOther)) (fun l hl => hlocs l (.tail _ hl))
        fun l => ?_) (fun m' hm' => ⟨hm'.1, fun l => ⟨fun hl => ?_, fun hl => ?_⟩⟩)
        fun _ hf => hf
      · rw [AList.mem_insert, hm]
        exact ⟨fun h => h.elim (fun h => h ▸ hloc) id, .inr⟩
      · by_cases hl' : l ∈ locs
        · exact (hm'.2 l).1 hl'
        · obtain rfl := (List.mem_cons.mp hl).resolve_right hl'
          rw [levelOf, (hm'.2 l).2 hl', AList.lookup_insert]
          simp [levelOf, hlevel, hlevelOther]
      · obtain ⟨hne, hl⟩ := not_or.mp (fun h => hl (List.mem_cons.mpr h))
        rw [(hm'.2 l).2 hl, AList.lookup_insert_ne hne]
  refine post_mono (hfold levels.keys levels (fun _ h => AList.mem_keys.mpr h) fun _ => Iff.rfl)
    (fun m hm => ⟨hm.1, fun loc hloc => (hm.2 loc).1 (AList.mem_keys.mp hloc)⟩)
    fun _ hf => hf

/-- **The levels that a join uses**: at each location the higher one of the two environments. -/
structure JoinLevels (env other : TypeEnv) (m : Levels) : Prop where
  mem : ∀ loc, loc ∈ m ↔ loc ∈ env.bindings
  level : ∀ loc ty1 ty2 k1 k2, env.lookupLoc loc = some ty1 → other.lookupLoc loc = some ty2 →
    env.HasLevel ty1 k1 → other.HasLevel ty2 k2 → levelOf m loc = max k1 k2

/-- **A join in simple steps** completes. -/
theorem wp_joinWith_run (hstack : 2 < tcx.stack) (henv : env.AllStrong) (hother : other.AllStrong)
    (hmem : ∀ loc, loc ∈ env.bindings ↔ loc ∈ other.bindings)
    (huninit : ∀ loc, other.lookupLoc loc ≠ some .uninit)
    (hlevel1 : ∀ loc ty, env.lookupLoc loc = some ty → ∃ k, env.HasLevel ty k ∧ k < tcx.stack)
    (hlevel2 : ∀ loc ty, other.lookupLoc loc = some ty → ∃ k, other.HasLevel ty k ∧ k < tcx.stack)
    (hjoins : ∀ loc ∈ env.bindings, Joins env other loc) (hc : c.Valid) :
    wp (env.joinWith tcx other)
      (fun env' _ => ∃ levels, JoinLevels env other levels ∧
        JoinRun other (sortedByLevel tcx levels) env env')
      (fun _ => False) c := by
  rw [joinWith, weakening_eq_self (fun loc => (hmem loc).mp) huninit, wp_bind, wp_ofExcept]
  refine post_mono (post_levels tcx env) (fun levels1 hlevels1 => ?_) fun _ hf => ?_
  · obtain ⟨hok1, hkeys1⟩ := hlevels1
    rw [wp_bind, wp_ofExcept]
    refine post_mono (post_levels tcx other) (fun levels2 hlevels2 => ?_) fun _ hf => ?_
    · obtain ⟨hok2, hkeys2⟩ := hlevels2
      rw [wp_bind, wp_ofExcept]
      have hsub : ∀ loc ∈ levels1, loc ∈ levels2 := fun loc hloc =>
        (hkeys2 loc).mpr ((hmem loc).mp ((hkeys1 loc).mp hloc))
      refine post_mono (post_maxLevels hsub) (fun m hmax => ?_) fun _ hf => hf
      obtain ⟨hkeys, hm⟩ := hmax
      have hlevels : JoinLevels env other m := by
        refine ⟨fun loc => (hkeys loc).trans (hkeys1 loc),
          fun loc ty1 ty2 k1 k2 h1 h2 hk1 hk2 => ?_⟩
        have hloc := (hkeys1 loc).mpr (mem_of_lookupLoc h1)
        rw [hm loc hloc, (hok1.hasLevel hloc h1).unique hk1,
          (hok2.hasLevel (hsub loc hloc) h2).unique hk2]
      refine wp_imp (wp_joinLoc_run hstack hother (sortedByLevel_nodup tcx m) (fun loc hloc => ?_)
        ⟨henv, fun _ ty _ hty hb => ⟨ty, hty, hb⟩, fun _ _ _ h => h⟩ hc)
        fun env' _ hrun => ⟨m, hlevels, hrun⟩
      exact hjoins loc ((hlevels.mem loc).mp ((mem_sortedByLevel tcx).mp hloc))
    · obtain ⟨loc, ty, hty, hk⟩ := hf
      obtain ⟨k, hk', hlt⟩ := hlevel2 loc ty hty
      exact absurd (hk k hk') (by omega)
  · obtain ⟨loc, ty, hty, hk⟩ := hf
    obtain ⟨k, hk', hlt⟩ := hlevel1 loc ty hty
    exact absurd (hk k hk') (by omega)

end TypeEnv

end LiquidRust.Typeck
