import LiquidRust.Typeck.ClosedSteps
import LiquidRust.Typeck.InferBbEnv
import LiquidRust.Typeck.JoinOrder
import LiquidRust.Typeck.Scalars
import LiquidRust.Typeck.TransformSound

set_option relaxedAutoImplicit false
set_option autoImplicit false

/-!
# Join points over integers and booleans

What happens at a join point when no environment has a reference. Inference joins environments of
the same locations, and the shape it ends with is one of these locations. The check makes an
environment of the join point from it. At an edge, a store of the environment that arrives is shown
to be one of the environment of the join point, and where the join point is taken up, the indices
that its unknown predicates allow get names.

## Main definitions

* `LiquidRust.Typeck.TypeEnv.LocalShape` — shapes of given locations.

## Main results

* `LiquidRust.Typeck.TypeEnv.wp_joinWith_joined` — joins in inference.
* `LiquidRust.Typeck.TypeEnv.wp_inferBbEnv_joined` — the environment of a join point.
* `LiquidRust.Typeck.TypeEnv.proves_transformInto` — edges.
* `LiquidRust.Typeck.TypeEnv.wp_unpack_ready` — a join point is taken up.
-/

namespace LiquidRust.Typeck

open Lib Cursor

variable {tcx : Tcx} {D : Set Loc} {N : Set Name} {c : Cursor} {ty ty1 ty2 : Ty}
  {bty bty1 bty2 : BaseTy}

/-! ## New unknown predicates -/

/-- An unknown predicate over the names in `N`. -/
def Pred.Unknown (N : Set Name) (p : Pred) : Prop :=
  p.Over N ∧ ∃ kvid args, p = .kvar kvid args

/-- The variables of the builder are in `N`. -/
def Cursor.VarsIn (N : Set Name) (c : Cursor) : Prop :=
  ∀ v ∈ c.builder.vars, v.1 ∈ N

namespace Cursor

/-- The variables of a named cursor are among its names. -/
lemma Named.varsIn (hc : c.Named) : c.VarsIn (namesBefore c.builder.nameGen) :=
  hc

/-- A quiet operation keeps the variables. -/
lemma Quiet.varsIn {c' : Cursor} (h : c.Quiet c') (hc : c.VarsIn N) : c'.VarsIn N := by
  intro v hv
  rw [h.vars] at hv
  exact hc v hv

/-- A fresh variable is an unknown over the names, and quiet. -/
lemma wp_freshKvarAtScope_unknown (hc : c.VarsIn N) (sort : Srt) (scope : ℕ) :
    wp (freshKvarAtScope sort scope) (fun p c' => c.Quiet c' ∧ p.Unknown N) (fun _ => True) c := by
  have hN : {x | x ∈ (c.builder.vars.take scope).map Prod.fst} ⊆ N := by
    intro x hx
    obtain ⟨v, hv, rfl⟩ := List.mem_map.mp hx
    exact hc v (List.mem_of_mem_take hv)
  have hkvar : wp (freshKvarAtScope sort scope) (fun p _ => ∃ kvid args, p = Pred.kvar kvid args)
      (fun _ => True) c := by
    rw [freshKvarAtScope, wp_bind, wp_get, wp_bind, wp_orFail]
    exact ⟨fun vars _ => ⟨_, _, rfl⟩, fun _ => trivial⟩
  refine wp_mono (wp_and (wp_freshKvarAtScope_over sort scope hN) hkvar) (fun p c' h => ?_)
    fun _ _ => trivial
  obtain ⟨⟨hover, hquiet⟩, hp⟩ := h
  exact ⟨hquiet, hover, hp⟩

end Cursor

/-- An existential with an unknown is a joined type. -/
lemma Pred.Unknown.joined {p : Pred} (hp : p.Unknown N) (hbty : bty.isScalar = true) :
    (Ty.exists_ bty p).Joined N := by
  obtain ⟨hover, kvid, args, rfl⟩ := hp
  exact ⟨hbty, hover⟩

namespace TypeEnv

variable {env other : TypeEnv}

/-! ## Joins in inference -/

/-- The join of base types of integers and booleans. -/
lemma wp_btyJoin_isScalar {join : TypeEnv → Ty → Ty → CursorM (TypeEnv × Ty)}
    (h1 : bty1.isScalar = true) (h2 : bty2.isScalar = true) :
    wp (btyJoin tcx join env bty1 bty2)
      (fun r c' => c' = c ∧ r.1 = env ∧ r.2.isScalar = true) (fun _ => True) c := by
  unfold btyJoin
  split
  · exact ⟨rfl, rfl, rfl⟩
  · rw [wp_bind, wp_assert]
    exact ⟨fun _ => ⟨rfl, rfl, rfl⟩, fun _ => trivial⟩
  · rw [wp_bind, wp_assert]
    exact ⟨fun _ => ⟨rfl, rfl, rfl⟩, fun _ => trivial⟩
  · cases h1
  · trivial

/-- `generalize` of scalar base types gives a joined type, quietly. -/
lemma wp_generalize_joined {join : TypeEnv → Ty → Ty → CursorM (TypeEnv × Ty)}
    (hc : c.VarsIn N) (h1 : bty1.isScalar = true) (h2 : bty2.isScalar = true) :
    wp (generalize tcx join env bty1 bty2)
      (fun r c' => c.Quiet c' ∧ r.1 = env ∧ r.2.Joined N) (fun _ => True) c := by
  rw [generalize, wp_bind]
  refine wp_imp (wp_btyJoin_isScalar h1 h2) fun r c' h => ?_
  obtain ⟨rfl, rfl, hbty⟩ := h
  rw [wp_bind, freshKvar, wp_bind, wp_get]
  refine wp_imp (wp_freshKvarAtScope_unknown hc _ _) fun p c' hp => ?_
  exact ⟨hp.1, rfl, hp.2.joined hbty⟩

/-- **The join of two types** without references. -/
lemma wp_strgTyJoin_joined (hc : c.VarsIn N) (h1 : ty1.Joined N) (h2 : ty2.Joined N) (n : ℕ) :
    wp (strgTyJoin tcx n env ty1 ty2)
      (fun r c' => c.Quiet c' ∧ r.1 = env ∧ r.2.Joined N) (fun _ => True) c := by
  have hbase : ∀ {ty : Ty} {bty p}, ty = .exists_ bty p → ty.Joined N → bty.isScalar = true := by
    rintro ty bty p rfl h
    cases p with
    | kvar kvid args => exact h.1
    | expr e => exact h.elim
  cases n with
  | zero =>
    rw [strgTyJoin]
    trivial
  | succ n =>
    unfold strgTyJoin
    split
    · exact ⟨.refl c, rfl, h1⟩
    · split
      · exact ⟨.refl c, rfl, trivial⟩
      · exact ⟨.refl c, rfl, trivial⟩
      · split
        · rw [wp_bind]
          refine wp_imp (wp_btyJoin_isScalar h1.1 h2.1) fun r c' h => ?_
          obtain ⟨rfl, rfl, hbty⟩ := h
          exact ⟨.refl _, rfl, hbty, h1.2⟩
        · exact wp_generalize_joined hc h1.1 h2.1
      · exact wp_generalize_joined hc h1.1 (hbase rfl h2)
      · exact wp_generalize_joined hc (hbase rfl h1) h2.1
      · exact wp_generalize_joined hc (hbase rfl h1) (hbase rfl h2)
      · exact h1.elim
      · exact h1.elim
      · exact h1.elim
      · trivial

/-- A step of `join_with` keeps the environment of joined types, quietly. -/
lemma wp_joinLoc_joined (hc : c.VarsIn N) (henv : env.Local (Ty.Joined N) D)
    (hother : other.Local (Ty.Joined N) D) (loc : Loc) :
    wp (joinLoc tcx other env loc) (fun env' c' => c.Quiet c' ∧ env'.Local (Ty.Joined N) D)
      (fun _ => True) c := by
  rw [joinLoc, wp_bind, wp_orFail]
  refine ⟨fun binding1 h1 => ?_, fun _ => trivial⟩
  rw [wp_bind, wp_orFail]
  refine ⟨fun binding2 h2 => ?_, fun _ => trivial⟩
  cases binding1 with
  | weak _ _ => exact ⟨.refl c, henv⟩
  | strong ty1 =>
    cases binding2 with
    | weak _ _ => exact ⟨.refl c, henv⟩
    | strong ty2 =>
      have hty1 : env.lookupLoc loc = some ty1 := by simp [lookupLoc, h1, Binding.ty]
      have hty2 : other.lookupLoc loc = some ty2 := by simp [lookupLoc, h2, Binding.ty]
      rw [wp_bind]
      refine wp_imp (wp_strgTyJoin_joined hc (henv.types hty1) (hother.types hty2) _)
        fun r c' h => ?_
      obtain ⟨hquiet, hr, hty⟩ := h
      exact ⟨hquiet, hr ▸ henv.insertLoc (henv.mem hty1) hty⟩

/-- Weakening keeps the locations, if they are those of the other environment. -/
lemma Local.weakening {P : Ty → Prop} (h : env.Local P D) (hP : P .uninit)
    (hother : other.locSet = D) : (env.weakening other).Local P D where
  strong := h.strong.weakening other
  locSet := by
    rw [locSet_weakening]
    exact Set.ext fun loc =>
      ⟨fun hloc => h.locSet.le hloc.1, fun hloc => ⟨h.locSet.ge hloc, hother.ge hloc⟩⟩
  types := by
    intro loc ty hty
    rcases lookupLoc_weakening_cases hty with hty | rfl
    · exact h.types hty
    · exact hP

/-- **A join in inference** is an environment of the same locations. -/
theorem wp_joinWith_joined (hc : c.VarsIn N) (henv : env.Local (Ty.Joined N) D)
    (hother : other.Local (Ty.Joined N) D) :
    wp (env.joinWith tcx other) (fun env' c' => c.Quiet c' ∧ env'.Local (Ty.Joined N) D)
      (fun _ => True) c := by
  rw [joinWith, wp_bind, wp_ofExcept]
  refine post_of_forall (fun levels => ?_) fun _ => trivial
  rw [wp_bind, wp_ofExcept]
  refine post_of_forall (fun levelsOther => ?_) fun _ => trivial
  rw [wp_bind, wp_ofExcept]
  refine post_of_forall (fun levels => ?_) fun _ => trivial
  refine wp_foldlM (I := fun (env' : TypeEnv) c' => c.Quiet c' ∧ env'.Local (Ty.Joined N) D)
    (fun loc _ env' c' h => ?_) ⟨.refl c, henv.weakening trivial hother.locSet⟩
  obtain ⟨hquiet, henv'⟩ := h
  exact wp_imp (wp_joinLoc_joined (hquiet.varsIn hc) henv' hother loc)
    fun _ _ h => ⟨hquiet.trans h.1, h.2⟩

/-! ## The environment of a join point -/

/-- **A shape of the locations in `D`**, without references. -/
structure LocalShape (D : Set Loc) (shape : TypeEnvShape) : Prop where
  types : ∀ p ∈ shape, p.2.Joined Set.univ
  locs : ∀ loc, (∃ ty, (loc, ty) ∈ shape) ↔ loc ∈ D

/-- The shape of a local environment is local. -/
lemma Local.intoShape (h : env.Local (Ty.Joined N) D) : LocalShape D (env.intoShape tcx) where
  types := by
    rintro ⟨loc, ty⟩ hmem
    exact (h.types (mem_intoShape.mp hmem)).mono (Set.subset_univ N)
  locs := by
    intro loc
    simp only [mem_intoShape]
    refine ⟨fun hty => ?_, fun hloc => exists_lookupLoc (h.locSet.ge hloc)⟩
    obtain ⟨ty, hty⟩ := hty
    exact h.mem hty

/-- The unknown predicates of a shape are replaced by new ones. -/
def ReplacesBy (N : Set Name) (kvars : KVars) : Prop :=
  ∀ ⦃kvid p⦄, kvars kvid = some p → p.Unknown N

/-- Collecting variables replaces each by an unknown, quietly. -/
lemma wp_collectKvars_unknown (hc : c.VarsIn N) (tys : List Ty) :
    wp (tys.foldlM collectKvar fun _ => none) (fun kvars c' => c.Quiet c' ∧ ReplacesBy N kvars)
      (fun _ => True) c := by
  refine wp_foldlM (I := fun kvars c' => c.Quiet c' ∧ ReplacesBy N kvars)
    (fun ty _ kvars c' h => ?_) ⟨.refl c, fun _ _ h => (by cases h)⟩
  obtain ⟨hquiet, hkvars⟩ := h
  unfold collectKvar
  split
  · next kvid _ _ =>
    split
    · exact ⟨hquiet, hkvars⟩
    · rw [wp_bind, freshKvarAtLastScope, wp_bind, wp_get]
      refine wp_imp (wp_freshKvarAtScope_unknown (hquiet.varsIn hc) _ _) fun p c'' hp => ?_
      refine ⟨hquiet.trans hp.1,
        fun kvid' p' (hp' : Function.update kvars kvid (some p) kvid' = _) => ?_⟩
      by_cases hk : kvid' = kvid
      · subst hk
        rw [Function.update_self] at hp'
        exact Option.some.inj hp' ▸ hp.2
      · rw [Function.update_of_ne hk] at hp'
        exact hkvars hp'
  · exact ⟨hquiet, hkvars⟩

/-- The type of a location of a join point: an index is that of the environment that arrives. -/
lemma inferTy_joined {kvars : KVars} (hkvars : ReplacesBy N kvars) (h1 : ty1.Joined Set.univ)
    (h2 : ty2.Indexed N) (h : inferTy kvars ty1 ty2 = some ty) : ty.Joined N := by
  have hbty : ∀ {bty : BaseTy}, bty.isScalar = true → replaceKvarsBty kvars bty = some bty := by
    intro bty hbty
    cases bty with
    | adt did substs => cases hbty
    | _ => rw [replaceKvarsBty]
  cases ty2 with
  | uninit =>
    cases ty1 <;> (obtain rfl := Option.some.inj h; trivial)
  | refine bty2 e2 =>
    cases ty1 with
    | refine bty1 e1 =>
      obtain rfl := Option.some.inj h
      exact h2
    | exists_ bty1 p =>
      cases p with
      | kvar kvid args =>
        rw [inferTy, replaceKvars, hbty h1.1] at h
        · obtain ⟨p, hp, h⟩ := Option.bind_eq_some_iff.mp ((Option.bind_some ..).symm.trans h)
          obtain rfl := Option.some.inj h
          exact (hkvars hp).joined h1.1
        all_goals simp
      | expr e => exact h1.elim
    | uninit =>
      rw [inferTy, replaceKvars] at h
      · obtain rfl := Option.some.inj h
        trivial
      all_goals simp
    | _ => exact h1.elim
  | _ => exact h2.elim

/-- **The environment of a join point**, from its shape and an environment that arrives. -/
theorem wp_inferBbEnv_joined {shape : TypeEnvShape} (hc : c.Valid) (hvars : c.VarsIn N)
    (henv : env.Local (Ty.Indexed N) D) (hshape : LocalShape D shape) :
    wp (env.inferBbEnv shape) (fun bbEnv c' => c.Quiet c' ∧ bbEnv.Local (Ty.Joined N) D)
      (fun _ => True) c := by
  have hstrg : ∀ loc l, (loc, Ty.strgRef l) ∈ shape →
      ∀ l', env.lookupLoc loc = some (.strgRef l') → l = l' :=
    fun loc l hl => (hshape.types _ hl).elim
  have htypes : wp (env.inferBbEnv shape)
      (fun bbEnv _ => ∀ ⦃loc ty⦄, bbEnv.lookupLoc loc = some ty → ty.Joined N)
      (fun _ => True) c := by
    rw [inferBbEnv, wp_bind]
    refine wp_imp (wp_collectKvars_unknown hvars _) fun kvars c' h => ?_
    obtain ⟨-, hkvars⟩ := h
    refine wp_foldlM (I := fun (bbEnv : TypeEnv) _ =>
      ∀ ⦃loc ty⦄, bbEnv.lookupLoc loc = some ty → ty.Joined N) (fun p hp bbEnv c' h => ?_) ?_
    · rw [wp_bind, wp_orFail]
      refine ⟨fun ty2 hty2 => ?_, fun _ => trivial⟩
      rw [wp_bind, wp_orFail]
      refine ⟨fun ty hty => ?_, fun _ => trivial⟩
      exact forall_lookupLoc_insertLoc (P := fun _ ty => ty.Joined N)
        (inferTy_joined hkvars (hshape.types p hp) (henv.types hty2) hty) fun _ _ _ hty' => h hty'
    · intro loc ty hty
      cases hty
  refine wp_mono (wp_and (wp_and htypes (wp_inferBbEnv hstrg hc)) (wp_inferBbEnv_quiet env shape c))
    (fun bbEnv c' h => ?_) fun _ _ => trivial
  obtain ⟨⟨htypes, hinfers⟩, hquiet⟩ := h
  exact ⟨hquiet, hinfers.strong, Set.ext fun loc => (hinfers.mem loc).trans (hshape.locs loc),
    htypes⟩

/-! ## Edges -/

/-- **Edges are sound**: a store of the environment that arrives is one of the environment of the
join point. -/
theorem proves_transformInto (tcx : Tcx) (hc : c.Valid) (hN : ∀ x ∈ N, x < c.builder.nameGen)
    (henv : env.Local (Ty.Joined N) D) (hother : other.Local (Ty.Joined N) D) :
    c.Proves (fun _ => True)
      (fun I ρ _ => ∀ S, env.Inhabits tcx I ρ S → other.Inhabits tcx I ρ S)
      (env.transformInto tcx other) := by
  rw [transformInto, Proves, wp_bind, wp_ofExcept]
  refine post_mono (post_levels tcx _) (fun levels hlevels => ?_) fun _ _ => trivial
  obtain ⟨hok, hkeys⟩ := hlevels
  have hweak := henv.weakening trivial hother.locSet
  have hnodup : ([] ++ (sortedByLevel tcx levels).reverse).Nodup :=
    List.nodup_reverse.mpr (sortedByLevel_nodup tcx levels)
  refine (proves_transformLocs hc hN hweak.unpacked.scoped hother.unpacked.scoped hnodup
    (fun _ _ _ hlist _ hl => hok.mem_after tcx hkeys hlist hl)
    ⟨by simp, fun _ _ _ h => h⟩).mono (fun _ _ => trivial) fun I ρ env' htrans h S hS => ?_
  intro loc ty hty
  refine h S (hS.weakening other) ?_
  have hloc : loc ∈ (sortedByLevel tcx levels).reverse := by
    rw [List.mem_reverse, mem_sortedByLevel, hkeys]
    exact hweak.locSet.ge (hother.mem hty)
  rw [lookupLoc, htrans.done loc hloc]
  exact hty

/-! ## Join points are taken up -/

/-- One location is unpacked. -/
lemma wp_unpackLoc_ready (tcx : Tcx) (hc : c.Ready)
    (henv : env.Local (Ty.Joined (namesBefore c.builder.nameGen)) D) (loc : Loc) :
    wp (env.unpackLoc loc) (fun env' c' => c'.Ready ∧ c.Le c' ∧
      env'.Local (Ty.Joined (namesBefore c'.builder.nameGen)) D ∧
      (∀ l ty, l ≠ loc → env'.lookupLoc l = some ty → env.lookupLoc l = some ty) ∧
      (∀ ty, env'.lookupLoc loc = some ty → ty.Indexed (namesBefore c'.builder.nameGen)) ∧
      ∀ I ρ S, c.Assumes I ρ → env.Inhabits tcx I ρ S →
        ∃ ρ', Valuation.AgreeOn (namesBefore c.builder.nameGen) ρ ρ' ∧ c'.Assumes I ρ' ∧
          env'.Inhabits tcx I ρ' S) (fun _ => True) c := by
  rw [unpackLoc, wp_bind, wp_orFail]
  refine ⟨fun binding hbinding => ?_, fun _ => trivial⟩
  have hlookup : env.lookupLoc loc = some binding.ty := by rw [lookupLoc, hbinding]; rfl
  have hjoined := henv.types hlookup
  have hstrong := henv.strong.lookup hlookup
  have hsame : ∀ ty, env.lookupLoc loc = some ty → ty = binding.ty := fun ty hty =>
    Option.some.inj (hty.symm.trans hlookup)
  cases hty : binding.ty with
  | refine bty e =>
    rw [hty] at hjoined hsame
    exact ⟨hc, .refl c, henv, fun l ty _ h => h, fun ty h => hsame ty h ▸ hjoined,
      fun I ρ S hρ hS => ⟨ρ, .refl, hρ, hS⟩⟩
  | uninit =>
    rw [hty] at hsame
    exact ⟨hc, .refl c, henv, fun l ty _ h => h, fun ty h => hsame ty h ▸ trivial,
      fun I ρ S hρ hS => ⟨ρ, .refl, hρ, hS⟩⟩
  | exists_ bty p =>
    rw [hty] at hjoined hlookup
    have hbty : bty.isScalar = true := by
      cases p with
      | kvar kvid args => exact hjoined.1
      | expr e => exact hjoined.elim
    dsimp only
    rw [wp_bind]
    refine wp_imp (wp_unpack_scalar tcx hc hbty (.exists_ p) hjoined.stable) fun ty' c' h => ?_
    obtain ⟨hc', hle, hty', hunpack⟩ := h
    have hset : (⟨env.bindings.insert loc (binding.setTy ty')⟩ : TypeEnv) =
        env.insertLoc loc ty' := by
      have hb : binding = .strong binding.ty := Option.some.inj (hbinding.symm.trans hstrong)
      rw [hb]
      rfl
    rw [wp_pure, hset]
    have hmono := namesBefore_mono hle.nameGen
    refine ⟨hc', hle, ?_, fun l ty hl h => ?_, fun ty h => ?_, fun I ρ S hρ hS => ?_⟩
    · exact (henv.mono fun ty (h : ty.Joined _) => h.mono hmono).insertLoc (henv.mem hlookup)
        hty'.joined
    · rwa [lookupLoc_insertLoc_of_ne hl] at h
    · rw [lookupLoc_insertLoc_self] at h
      exact Option.some.inj h ▸ hty'
    · obtain ⟨ρ', hagree, hρ', hu⟩ := hunpack I ρ S (S loc) hρ (hS hlookup)
      refine ⟨ρ', hagree, hρ', forall_lookupLoc_insertLoc hu fun l ty _ h => ?_⟩
      exact (henv.types h).stable.has_congr hagree S (hS h)
  | strgRef l =>
    rw [hty] at hjoined
    exact hjoined.elim
  | ref ty =>
    rw [hty] at hjoined
    exact hjoined.elim
  | param p =>
    rw [hty] at hjoined
    exact hjoined.elim

/-- **A join point is taken up**: the indices that its unknown predicates allow get names. -/
theorem wp_unpack_ready (tcx : Tcx) (hc : c.Ready)
    (henv : env.Local (Ty.Joined (namesBefore c.builder.nameGen)) D) :
    wp (env.unpack tcx) (fun env' c' => c'.Ready ∧ c.Le c' ∧
      env'.Local (Ty.Indexed (namesBefore c'.builder.nameGen)) D ∧
      ∀ I ρ S, c.Assumes I ρ → env.Inhabits tcx I ρ S →
        ∃ ρ', Valuation.AgreeOn (namesBefore c.builder.nameGen) ρ ρ' ∧ c'.Assumes I ρ' ∧
          env'.Inhabits tcx I ρ' S) (fun _ => True) c := by
  rw [TypeEnv.unpack]
  refine wp_imp (wp_foldlM_done (I := fun done env' c' => c'.Ready ∧ c.Le c' ∧
    env'.Local (Ty.Joined (namesBefore c'.builder.nameGen)) D ∧
    (∀ l ∈ done, ∀ ty, env'.lookupLoc l = some ty → ty.Indexed (namesBefore c'.builder.nameGen)) ∧
    ∀ I ρ S, c.Assumes I ρ → env.Inhabits tcx I ρ S →
      ∃ ρ', Valuation.AgreeOn (namesBefore c.builder.nameGen) ρ ρ' ∧ c'.Assumes I ρ' ∧
        env'.Inhabits tcx I ρ' S) ?_ ?_) fun env' c' h => ?_
  · intro done loc rest _ env₁ c₁ h
    obtain ⟨hc₁, hle₁, henv₁, hdone, hsound₁⟩ := h
    refine wp_imp (wp_unpackLoc_ready tcx hc₁ henv₁ loc) fun env₂ c₂ h => ?_
    obtain ⟨hc₂, hle₂, henv₂, hother, hloc, hsound₂⟩ := h
    refine ⟨hc₂, hle₁.trans hle₂, henv₂, fun l hl ty hty => ?_, fun I ρ S hρ hS => ?_⟩
    · by_cases hl' : l = loc
      · exact hloc ty (hl' ▸ hty)
      · have hmem : l ∈ done := (List.mem_append.mp hl).resolve_right (by simpa using hl')
        exact (hdone l hmem ty (hother l ty hl' hty)).mono (namesBefore_mono hle₂.nameGen)
    · obtain ⟨ρ₁, hagree₁, hρ₁, hS₁⟩ := hsound₁ I ρ S hρ hS
      obtain ⟨ρ₂, hagree₂, hρ₂, hS₂⟩ := hsound₂ I ρ₁ S hρ₁ hS₁
      exact ⟨ρ₂, hagree₁.trans (hagree₂.mono (namesBefore_mono hle₁.nameGen)), hρ₂, hS₂⟩
  · exact ⟨hc, .refl c, henv, fun l hl => (by cases hl), fun I ρ S hρ hS => ⟨ρ, .refl, hρ, hS⟩⟩
  · obtain ⟨hc', hle, henv', hdone, hsound⟩ := h
    refine ⟨hc', hle, ⟨henv'.strong, henv'.locSet, fun loc ty hty => ?_⟩, hsound⟩
    have hloc : loc ∈ env.locs tcx := by
      rw [mem_locs]
      exact henv.locSet.ge (henv'.mem hty)
    exact hdone loc hloc ty hty

end TypeEnv

/-! ## The names of the variables -/

namespace Cursor.KeepsNamed

/-- The type at a strong location keeps the names fresh. -/
lemma strongTy (env : TypeEnv) (f : Failure) (loc : Loc) : KeepsNamed (env.strongTy f loc) :=
  (orFail f _).bind fun _ => ofExcept _

/-- `ref_weak` keeps the names fresh. -/
lemma refWeak : ∀ (env : TypeEnv) (loc : Loc) (bound : Ty), KeepsNamed (env.refWeak tcx loc bound)
  | env, loc, .exists_ bty p => by
    rw [TypeEnv.refWeak]
    exact (strongTy env _ loc).bind fun ty => (subtyping tcx ty _).bind fun _ => pure _
  | env, loc, .ref bound => by
    rw [TypeEnv.refWeak]
    refine (strongTy env _ loc).bind fun ty => ?_
    cases ty with
    | strgRef loc2 => exact (refWeak env loc2 bound).bind fun _ => pure _
    | ref bound2 => exact (assert _).bind fun _ => pure _
    | _ => exact throw _
  | env, loc, .refine _ _ | env, loc, .uninit | env, loc, .strgRef _ | env, loc, .param _ => by
    rw [TypeEnv.refWeak]
    exact (strongTy env _ loc).bind fun _ => throw _

/-- `transform_into` keeps the names fresh. -/
lemma transformInto (env other : TypeEnv) : KeepsNamed (env.transformInto tcx other) := by
  refine (ofExcept _).bind fun levels => foldlM (fun loc _ env' => ?_) _
  refine (strongTy env' _ loc).bind fun ty1 => (strongTy other _ loc).bind fun ty2 => ?_
  dsimp only
  split
  · exact (refWeak env' _ _).bind fun _ => pure _
  · exact (subtyping tcx _ _).bind fun _ => pure _

end Cursor.KeepsNamed

end LiquidRust.Typeck
