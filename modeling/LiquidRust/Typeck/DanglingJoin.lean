import LiquidRust.Typeck.Dangling

set_option relaxedAutoImplicit false
set_option autoImplicit false

/-!
# Dangling locations at join points

Weakening drops the locations that the other environment does not bind, and leaves the pointers to
them. So environments can be joined without dangling pointers if the pointers that stay lead to
locations that both environments bind.

## Main definitions

* `LiquidRust.Typeck.TypeEnv.common` — the locations that two environments bind.
* `LiquidRust.Typeck.TypeEnv.CommonClosed`, `ShapeClosed` — when no pointer is left dangling.

## Main results

* `LiquidRust.Typeck.TypeEnv.within_weakening` — what is left after weakening.
* `LiquidRust.Typeck.TypeEnv.leads_joinWith`, `leads_transformInto`, `leads_inferBbEnv` — what
  happens at a join point makes no pointer dangle.
-/

namespace LiquidRust.Typeck

open Lib Cursor

namespace TypeEnv

variable {env other : TypeEnv} {loc : Loc} {ty : Ty} {L : Set Loc} (tcx : Tcx)

/-! ## Weakening -/

/-- The locations that both environments bind. -/
def common (env other : TypeEnv) : Set Loc :=
  env.locSet ∩ other.locSet

/-- **The condition for a join** of an environment with another one. At a location that both
bind, each has pointers to such locations only, unless the other one is uninitialised there. The
weak bindings of the other environment do not matter, since a join leaves them out. -/
def CommonClosed (env other : TypeEnv) : Prop :=
  ∀ e ∈ env.bindings.entries, ∀ binding ∈ other.bindings.lookup e.1,
    (binding.ty ≠ .uninit → e.2.Over Set.univ (common env other)) ∧
    (binding = .strong binding.ty → e.2.ty ≠ .uninit → binding.Over Set.univ (common env other))

instance (env other : TypeEnv) : DecidablePred (· ∈ common env other) := fun loc =>
  inferInstanceAs (Decidable (loc ∈ env.bindings ∧ loc ∈ other.bindings))

instance (env other : TypeEnv) : Decidable (CommonClosed env other) :=
  inferInstanceAs (Decidable (∀ e ∈ env.bindings.entries, ∀ binding ∈ other.bindings.lookup e.1,
    (binding.ty ≠ .uninit → e.2.Over Set.univ (common env other)) ∧
    (binding = .strong binding.ty → e.2.ty ≠ .uninit →
      binding.Over Set.univ (common env other))))

section CommonClosed

variable {binding binding' : Binding}

/-- A binding of the first environment points to common locations. -/
lemma CommonClosed.left (h : CommonClosed env other)
    (hb : env.bindings.lookup loc = some binding) (hb' : other.bindings.lookup loc = some binding')
    (hty : binding'.ty ≠ .uninit) : binding.Over Set.univ (common env other) :=
  (h ⟨loc, binding⟩ (AList.mem_lookup_iff.mp hb) binding' hb').1 hty

/-- A strong binding of the second environment points to common locations. -/
lemma CommonClosed.right (h : CommonClosed env other)
    (hb : env.bindings.lookup loc = some binding)
    (hb' : other.bindings.lookup loc = some (.strong ty)) (hty : binding.ty ≠ .uninit) :
    ty.Within (common env other) :=
  (h ⟨loc, binding⟩ (AList.mem_lookup_iff.mp hb) (.strong ty) hb').2 rfl hty

/-- What is bound after weakening. -/
lemma lookup_weakening : (env.weakening other).bindings.lookup loc =
    (env.bindings.lookup loc).bind fun binding => (other.lookupLoc loc).map fun ty =>
      if ty.isUninit then .strong .uninit else binding :=
  lookup_retain _ _ _

/-- `weakening` leaves the common locations. -/
lemma locSet_weakening : (env.weakening other).locSet = common env other := by
  ext loc
  change loc ∈ (env.weakening other).bindings ↔ loc ∈ env.bindings ∧ loc ∈ other.bindings
  rw [← AList.lookup_isSome, lookup_weakening, ← lookupLoc_isSome, ← lookupLoc_isSome]
  cases h : env.bindings.lookup loc <;> cases h' : other.lookupLoc loc <;> simp [lookupLoc, h]

/-- **After weakening** no pointer dangles. -/
theorem within_weakening (h : CommonClosed env other) :
    (env.weakening other).Within (common env other) := by
  refine ⟨fun loc binding hb => ?_, locSet_weakening.ge⟩
  rw [lookup_weakening] at hb
  obtain ⟨binding', hb', hother⟩ := Option.bind_eq_some_iff.mp hb
  obtain ⟨ty, hty, rfl⟩ := Option.map_eq_some_iff.mp hother
  obtain ⟨binding2, hb2, rfl⟩ := Option.map_eq_some_iff.mp hty
  split
  · trivial
  · next huninit =>
    refine h.left hb' hb2 fun hty2 => huninit ?_
    rw [hty2]
    rfl

/-- A location that is uninitialised before is so after weakening. -/
lemma weakening_uninit (hb : env.bindings.lookup loc = some binding) (hty : binding.ty = .uninit)
    (hother : loc ∈ other.locSet) : (env.weakening other).lookupLoc loc = some .uninit := by
  obtain ⟨ty, hty'⟩ := exists_lookupLoc hother
  rw [lookupLoc, lookup_weakening, hb, hty']
  simp only [Option.bind_some, Option.map_some]
  split
  · rfl
  · rw [hty]

/-- A strong binding of the other environment leads to common locations, where the weakened
environment is not uninitialised. -/
lemma CommonClosed.over_other (h : CommonClosed env other) (hloc : loc ∈ env.locSet)
    (hb : other.bindings.lookup loc = some (.strong ty))
    (huninit : (env.weakening other).lookupLoc loc ≠ some .uninit) :
    ty.Within (common env other) := by
  obtain ⟨binding1, hb1⟩ := Option.isSome_iff_exists.mp (AList.lookup_isSome.mpr hloc)
  refine h.right hb1 hb fun hty => huninit (weakening_uninit hb1 hty ?_)
  exact AList.lookup_isSome.mp (by simp [hb])

end CommonClosed

/-! ## Levels -/

/-- The search from a location follows pointers that lead to locations. -/
lemma NoDangling.dfs (h : env.NoDangling) (n : ℕ) (loc : Loc) (hty : ty.Within env.locSet)
    (levels : Levels) : post (env.dfs n loc ty levels) (fun _ => True) (· ≠ .dangling) := by
  induction n generalizing loc ty levels with
  | zero => exact fun h => nomatch h
  | succ n ih =>
    unfold TypeEnv.dfs
    cases levels.lookup loc with
    | some level => trivial
    | none =>
      cases ty with
      | strgRef referee =>
        simp only [post_bind, post_orError]
        exact ⟨fun ty hty' => post_mono (ih referee (h.lookupLoc hty') levels) (fun _ _ => trivial)
          fun _ hf => hf, fun hnone => absurd hnone (lookupLoc_ne_none hty)⟩
      | _ => trivial

/-- The levels run into no dangling location. -/
lemma NoDangling.levels (h : env.NoDangling) :
    post (env.levels tcx) (fun _ => True) (· ≠ .dangling) := by
  refine post_foldlM (I := fun _ => True) (fun loc _ levels _ => ?_) trivial
  simp only [post_bind, post_orError]
  exact ⟨fun ty hty => post_mono (h.dfs _ loc (h.lookupLoc hty) levels) (fun _ _ => trivial)
    fun _ hf => hf, fun _ => by decide⟩

/-- No location is added to the levels. -/
lemma notDangling_maxLevels (levels levelsOther : Levels) :
    post (maxLevels levels levelsOther) (fun m => ∀ l ∈ m, l ∈ levels) (· ≠ .dangling) := by
  refine post_foldlM (I := fun m : Levels => ∀ l ∈ m, l ∈ levels) (fun loc hloc m hm => ?_)
    fun _ h => h
  simp only [post_bind, post_orError]
  refine ⟨fun level _ => ⟨fun levelOther _ l hl => ?_, fun _ => by decide⟩, fun _ => by decide⟩
  rcases AList.mem_insert m |>.mp hl with rfl | hl
  · exact hloc
  · exact hm l hl

/-! ## Joins -/

/-- The type at a location that is bound, and which may lead to locations in `L`. -/
lemma leads_strongTy (h : env.Within L) {f : Failure} (hloc : f = .dangling → loc ∈ L) :
    Leads (fun ty => ty.Within L ∧ env.lookupLoc loc = some ty) (env.strongTy f loc) := by
  refine (Leads.orFail (R := fun b => b.Over Set.univ L ∧ env.bindings.lookup loc = some b)
    (fun b hb => ⟨h.types hb, hb⟩) fun hnone hf => ?_).bind fun binding hb => ?_
  · have := AList.lookup_isSome.mpr (h.bound (hloc hf))
    simp [hnone] at this
  · cases binding with
    | strong ty => exact .pure ⟨hb.1, by simp [lookupLoc, hb.2, Binding.ty]⟩
    | weak bound ty => exact .throw (by decide)

/-- `ref_weak` keeps the environment within the locations. -/
lemma leads_refWeak : ∀ (env : TypeEnv) (loc : Loc) (bound : Ty), env.Within L → loc ∈ L →
    bound.Within L → Leads (fun env' => env'.Within L) (env.refWeak tcx loc bound)
  | env, loc, .exists_ bty p, h, hloc, hbound => by
    rw [refWeak]
    exact (leads_strongTy h fun _ => hloc).bind fun _ _ =>
      (Leads.of_safe (Safe.subtyping tcx _ _)).bind fun _ _ => .pure (h.insertLoc hbound)
  | env, loc, .ref bound, h, hloc, hbound => by
    rw [refWeak]
    refine (leads_strongTy h fun _ => hloc).bind fun ty hleads => ?_
    obtain ⟨hty, -⟩ := hleads
    cases ty with
    | strgRef loc2 =>
      exact (leads_refWeak env loc2 bound h hty hbound).bind fun _ h' =>
        .pure (h'.insertLoc hbound)
    | ref bound2 => exact (Leads.of_safe (Safe.assert _)).bind fun _ _ => .pure h
    | _ => exact .throw (by decide)
  | env, loc, .refine _ _, h, hloc, _ | env, loc, .uninit, h, hloc, _
  | env, loc, .strgRef _, h, hloc, _ | env, loc, .param _, h, hloc, _ => by
    rw [refWeak]
    exact (leads_strongTy h fun _ => hloc).bind fun _ _ => .throw (by decide)

/-- A join of types that makes no pointer dangle. -/
def JoinLeads (L : Set Loc) (join : TypeEnv → Ty → Ty → CursorM (TypeEnv × Ty)) : Prop :=
  ∀ ⦃env ty1 ty2⦄, env.Within L → ty1.Within L → ty2.Within L →
    Leads (fun r => r.1.Within L ∧ r.2.Within L) (join env ty1 ty2)

section Join

variable {tcx} {join : TypeEnv → Ty → Ty → CursorM (TypeEnv × Ty)}

/-- The join of type arguments keeps the environment within the locations if that of types does. -/
lemma leads_substsJoin (hjoin : JoinLeads L join) {env : TypeEnv} (h : env.Within L)
    (variances : List Variance) {substs1 substs2 : Substs} (h1 : substs1.Over Set.univ L)
    (h2 : substs2.Over Set.univ L) :
    Leads (fun r => r.1.Within L ∧ r.2.Over Set.univ L)
      (substsJoin join env variances substs1 substs2) := by
  induction variances generalizing env substs1 substs2 with
  | nil => exact .pure ⟨h, trivial⟩
  | cons variance variances ih =>
    cases substs1 with
    | nil => exact .pure ⟨h, trivial⟩
    | cons ty1 substs1 =>
      cases substs2 with
      | nil => exact .pure ⟨h, trivial⟩
      | cons ty2 substs2 =>
        exact (Leads.of_safe (Safe.assert _)).bind fun _ _ => (hjoin h h1.1 h2.1).bind fun r hr =>
          (ih hr.1 h1.2 h2.2).bind fun r' hr' => .pure ⟨hr'.1, hr.2, hr'.2⟩

/-- The join of base types keeps the environment within the locations if that of types does. -/
lemma leads_btyJoin (hjoin : JoinLeads L join) (h : env.Within L) {bty1 bty2 : BaseTy}
    (h1 : bty1.Over Set.univ L) (h2 : bty2.Over Set.univ L) :
    Leads (fun r => r.1.Within L ∧ r.2.Over Set.univ L) (btyJoin tcx join env bty1 bty2) := by
  unfold btyJoin
  split
  · exact .pure ⟨h, trivial⟩
  · exact (Leads.of_safe (Safe.assert _)).bind fun _ _ => .pure ⟨h, trivial⟩
  · exact (Leads.of_safe (Safe.assert _)).bind fun _ _ => .pure ⟨h, trivial⟩
  · exact (Leads.of_safe (Safe.assert _)).bind fun _ _ =>
      (leads_substsJoin hjoin h _ h1 h2).bind fun r hr => .pure hr
  · exact .throw (by decide)

/-- `generalize` keeps the environment within the locations if the join of types does. -/
lemma leads_generalize (hjoin : JoinLeads L join) (h : env.Within L) {bty1 bty2 : BaseTy}
    (h1 : bty1.Over Set.univ L) (h2 : bty2.Over Set.univ L) :
    Leads (fun r => r.1.Within L ∧ r.2.Within L) (generalize tcx join env bty1 bty2) :=
  (leads_btyJoin hjoin h h1 h2).bind fun _ hr => (Leads.of_safe (Safe.freshKvar _)).bind
    fun p _ => .pure ⟨hr.1, hr.2, p.over_univ⟩

/-- The joins of types and of locations, by induction on the size of the stack. -/
lemma join_leads (n : ℕ) : JoinLeads L (strgTyJoin tcx n) ∧
    ∀ ⦃env loc1 loc2⦄, env.Within L → loc1 ∈ L → loc2 ∈ L →
      Leads (fun r => r.1.Within L ∧ r.2.Within L) (refWeakJoin tcx n env loc1 loc2) := by
  induction n with
  | zero =>
    exact ⟨fun _ _ _ _ _ _ => .throw (by decide), fun _ _ _ _ _ _ => .throw (by decide)⟩
  | succ n ih =>
    obtain ⟨ihty, ihloc⟩ := ih
    constructor
    · intro env ty1 ty2 h h1 h2
      unfold strgTyJoin
      split
      · exact .pure ⟨h, h1⟩
      · split
        · exact .pure ⟨h, trivial⟩
        · exact .pure ⟨h, trivial⟩
        · split
          · exact (leads_btyJoin ihty h h1.1 h2.1).bind fun r hr =>
              .pure ⟨hr.1, hr.2, Expr.over_univ _⟩
          · exact leads_generalize ihty h h1.1 h2.1
        · exact leads_generalize ihty h h1.1 h2.1
        · exact leads_generalize ihty h h1.1 h2.1
        · exact leads_generalize ihty h h1.1 h2.1
        · exact (ihloc h h1 h2).bind fun r hr => .pure ⟨hr.1, hr.2⟩
        · have hty := Ty.within_ref.mp h1
          exact (leads_refWeak tcx env _ _ h h2 hty).bind fun env' h' => .pure ⟨h', hty⟩
        · have hty := Ty.within_ref.mp h2
          exact (leads_refWeak tcx env _ _ h h1 hty).bind fun env' h' => .pure ⟨h', hty⟩
        · exact .throw (by decide)
    · intro env loc1 loc2 h hloc1 hloc2
      unfold refWeakJoin
      refine (leads_strongTy h fun _ => hloc1).bind fun ty1 hty1 => ?_
      refine (leads_strongTy h fun _ => hloc2).bind fun ty2 hty2 => ?_
      have h1 := hty1.1
      have h2 := hty2.1
      have hbase : Leads (fun r => r.1.Within L ∧ r.2.Within L) (do
          let r ← strgTyJoin tcx n env ty1 ty2
          pure ((r.1.insertLoc loc1 r.2).insertLoc loc2 r.2, r.2)) :=
        (ihty h h1 h2).bind fun r hr => .pure ⟨(hr.1.insertLoc hr.2).insertLoc hr.2, hr.2⟩
      split
      · exact hbase
      · exact hbase
      · exact hbase
      · exact hbase
      · exact (ihloc h h1 h2).bind fun r hr => .pure
          ⟨(hr.1.insertLoc (Ty.within_ref.mpr hr.2)).insertLoc (Ty.within_ref.mpr hr.2), hr.2⟩
      · have hty := Ty.within_ref.mp h2
        exact (leads_refWeak tcx env _ _ h h1 hty).bind fun env' h' => .pure ⟨h'.insertLoc hty, hty⟩
      · have hty := Ty.within_ref.mp h1
        exact (leads_refWeak tcx env _ _ h h2 hty).bind fun env' h' => .pure ⟨h'.insertLoc hty, hty⟩
      · exact .throw (by decide)

/-- Joining with what is uninitialised changes nothing. -/
lemma leads_strgTyJoin_uninit (n : ℕ) (env : TypeEnv) (ty : Ty) :
    Leads (fun r => r = (env, .uninit)) (strgTyJoin tcx n env .uninit ty) := by
  cases n with
  | zero => exact .throw (by decide)
  | succ n =>
    unfold strgTyJoin
    split
    · exact .pure rfl
    · exact .pure rfl

end Join

/-- What holds while an environment is joined or transformed: its pointers lead to common
locations, and a location that is still to come is uninitialised if it was so after weakening. -/
structure AtJoin (env other : TypeEnv) (rest : Set Loc) (cur : TypeEnv) : Prop where
  within : cur.Within (common env other)
  uninit : ∀ loc ∈ rest, (env.weakening other).lookupLoc loc = some .uninit →
    cur.lookupLoc loc = some .uninit

/-- The weakened environment is one the join may start at. -/
lemma AtJoin.start (h : CommonClosed env other) (rest : Set Loc) :
    AtJoin env other rest (env.weakening other) :=
  ⟨within_weakening h, fun _ _ h => h⟩

/-- **One location of a join.** -/
lemma leads_joinLoc (h : CommonClosed env other) {cur : TypeEnv}
    (hcur : AtJoin env other Set.univ cur) (hloc : loc ∈ env.locSet) :
    Leads (AtJoin env other Set.univ) (joinLoc tcx other cur loc) := by
  have hwithin : Leads (fun cur' => cur'.Within (common env other))
      (joinLoc tcx other cur loc) := by
    refine (Leads.orFail (R := fun b => cur.bindings.lookup loc = some b) (fun b hb => hb)
      fun _ => by decide).bind fun binding1 hb1 => ?_
    refine (Leads.orFail (R := fun b => other.bindings.lookup loc = some b) (fun b hb => hb)
      fun _ => by decide).bind fun binding2 hb2 => ?_
    cases binding1 with
    | weak bound ty => exact .pure hcur.within
    | strong ty1 =>
      cases binding2 with
      | weak bound ty => exact .pure hcur.within
      | strong ty2 =>
        have hty1 : ty1.Within (common env other) := hcur.within.types hb1
        by_cases huninit : ty1 = .uninit
        · subst huninit
          refine (leads_strgTyJoin_uninit tcx.stack cur ty2).bind fun r hr => ?_
          subst hr
          exact .pure (hcur.within.insertLoc trivial)
        · -- the location was not uninitialised after weakening, so the other type may stay
          have hty2 : ty2.Within (common env other) := h.over_other hloc hb2 fun hu => huninit <| by
            simpa [lookupLoc, hb1, Binding.ty] using hcur.uninit loc (Set.mem_univ _) hu
          exact ((join_leads tcx.stack).1 hcur.within hty1 hty2).bind fun r hr =>
            .pure (hr.1.insertLoc hr.2)
  refine (hwithin.and fun c => wp_joinLoc_coarsens other cur loc c).mono fun cur' hcur' => ?_
  exact ⟨hcur'.1, fun l hl hu => hcur'.2.stays l (hcur.uninit l hl hu)⟩

/-- The levels after weakening. -/
lemma leads_levels (h : CommonClosed env other) : post ((env.weakening other).levels tcx)
    (fun levels => ∀ l ∈ levels, l ∈ env.locSet) (· ≠ .dangling) := by
  refine post_mono (post_and ((within_weakening h).noDangling.levels tcx)
    (post_mono (post_levels tcx _) (fun _ h => h.2) fun _ _ => trivial)) (fun levels hl l hl' => ?_)
    fun _ hf => hf.1
  exact (locSet_weakening.le ((hl.2 l).mp hl')).1

/-- **A join makes no pointer dangle**, if the pointers that stay lead to common locations. -/
theorem leads_joinWith (h : CommonClosed env other) (hother : other.NoDangling) :
    Leads NoDangling (env.joinWith tcx other) := by
  refine (Leads.ofExcept (leads_levels tcx h)).bind fun levels hlevels => ?_
  refine (Leads.ofExcept (hother.levels tcx)).bind fun levelsOther _ => ?_
  refine (Leads.ofExcept (notDangling_maxLevels levels levelsOther)).bind fun m hm => ?_
  refine (Leads.foldlM (S := AtJoin env other Set.univ) (fun loc hloc cur hcur => ?_)
    (.start h _)).mono fun cur hcur => hcur.within.noDangling
  exact leads_joinLoc tcx h hcur (hlevels loc (hm loc ((mem_sortedByLevel tcx).mp hloc)))

/-! ## Transformations -/

/-- The type of a strong binding. -/
lemma leads_strongTy_missing (env : TypeEnv) (loc : Loc) :
    Leads (fun ty => env.bindings.lookup loc = some (.strong ty)) (env.strongTy .missing loc) := by
  refine (Leads.orFail (R := fun b => env.bindings.lookup loc = some b) (fun b hb => hb)
    fun _ => by decide).bind fun binding hb => ?_
  cases binding with
  | strong ty => exact .pure hb
  | weak bound ty => exact .throw (by decide)

/-- A location that is done gets its new type. -/
lemma AtJoin.insertLoc {cur : TypeEnv} {rest : List Loc}
    (hcur : AtJoin env other {l | l ∈ rest} cur) (hnew : loc ∉ rest)
    (hty : ty.Within (common env other)) :
    AtJoin env other {l | l ∈ rest} (cur.insertLoc loc ty) := by
  refine ⟨hcur.within.insertLoc hty, fun l hl hu => ?_⟩
  rw [lookupLoc_insertLoc_of_ne (ne_of_mem_of_not_mem hl hnew)]
  exact hcur.uninit l hl hu

/-- **One location of a transformation.** -/
lemma leads_transformLoc (h : CommonClosed env other) {cur : TypeEnv} {rest : List Loc}
    (hcur : AtJoin env other {l | l ∈ loc :: rest} cur) (hloc : loc ∈ env.locSet)
    (hnew : loc ∉ rest) :
    Leads (AtJoin env other {l | l ∈ rest}) (transformLoc tcx other cur loc) := by
  have hrest : AtJoin env other {l | l ∈ rest} cur :=
    ⟨hcur.within, fun l hl => hcur.uninit l (.tail _ hl)⟩
  refine (leads_strongTy_missing cur loc).bind fun ty1 hb1 => ?_
  refine (leads_strongTy_missing other loc).bind fun ty2 hb2 => ?_
  have hty1 : cur.lookupLoc loc = some ty1 := by simp [lookupLoc, hb1, Binding.ty]
  -- what is not uninitialised now was not so after weakening
  have hty2 : ty1 ≠ .uninit → ty2.Within (common env other) := fun hne =>
    h.over_other hloc hb2 fun hu => hne <|
      Option.some.inj (hty1.symm.trans (hcur.uninit loc (.head _) hu))
  dsimp only
  split
  · next loc' bound =>
    have hloc' : loc' ∈ common env other := hcur.within.types hb1
    have hbound := hty2 (by simp)
    have hweak := (leads_refWeak tcx cur loc' bound hcur.within hloc' hbound).and fun c =>
      wp_imp (wp_refWeak_coarsens Set.univ cur loc' bound c) fun _ _ h => h.1
    refine hweak.bind fun cur' hcur' => .pure (AtJoin.insertLoc ?_ hnew hbound)
    obtain ⟨hwithin, hcoarsens⟩ := hcur'
    exact ⟨hwithin, fun l hl hu => hcoarsens.stays l (hrest.uninit l hl hu)⟩
  · have hsub := (Leads.of_safe (Safe.subtyping tcx ty1 ty2)).and
      (wp_subtyping_comparable tcx ty1 ty2)
    refine hsub.bind fun _ hcomp => .pure (hrest.insertLoc hnew ?_)
    cases hcomp.2 with
    | uninit => trivial
    | scalar h1 _ =>
      refine hty2 ?_
      rintro rfl
      cases h1
    | strgRef l => exact hty2 (by simp)
    | param p => exact hty2 (by simp)

/-- **A transformation makes no pointer dangle**, if the pointers that stay lead to common
locations. -/
theorem leads_transformInto (h : CommonClosed env other) :
    Leads NoDangling (env.transformInto tcx other) := by
  refine (Leads.ofExcept (leads_levels tcx h)).bind fun levels hlevels => ?_
  have hfold : ∀ (locs : List Loc) (cur : TypeEnv), locs.Nodup → (∀ l ∈ locs, l ∈ env.locSet) →
      AtJoin env other {l | l ∈ locs} cur →
      Leads NoDangling (locs.foldlM (transformLoc tcx other) cur) := by
    intro locs
    induction locs with
    | nil => exact fun cur _ _ hcur => .pure hcur.within.noDangling
    | cons loc locs ih =>
      intro cur hnodup hlocs hcur
      obtain ⟨hnew, hnodup⟩ := List.nodup_cons.mp hnodup
      rw [List.foldlM_cons]
      exact (leads_transformLoc tcx h hcur (hlocs loc (.head _)) hnew).bind fun cur' hcur' =>
        ih cur' hnodup (fun l hl => hlocs l (.tail _ hl)) hcur'
  refine hfold _ _ (List.nodup_reverse.mpr (sortedByLevel_nodup tcx levels)) (fun l hl => ?_)
    (.start h _)
  exact hlevels l ((mem_sortedByLevel tcx).mp (List.mem_reverse.mp hl))

/-! ## The environment of a join point -/

/-- What the type of a join point's environment is taken from, before the unknown predicates are
replaced. -/
def keptTy (ty1 ty2 : Ty) : Ty :=
  match ty1, ty2 with
  | .refine _ _, .refine bty e => .refine bty e
  | .strgRef _, .strgRef loc => .strgRef loc
  | _, .uninit => .uninit
  | ty1, _ => ty1

/-- The locations of the environment that is made from a shape. -/
def shapeLocs (env : TypeEnv) (shape : TypeEnvShape) : List Loc :=
  shape.map fun p => (env.renamedLocs shape p.1).getD p.1

/-- **The condition for the environment of a join point**: the types it is made from have pointers
to its locations only. -/
def ShapeClosed (env : TypeEnv) (shape : TypeEnvShape) : Prop :=
  ∀ p ∈ shape, ∀ ty2 ∈ env.lookupLoc ((env.renamedLocs shape p.1).getD p.1),
    (keptTy p.2 ty2).Within {l | l ∈ env.shapeLocs shape}

instance (env : TypeEnv) (shape : TypeEnvShape) : Decidable (ShapeClosed env shape) :=
  inferInstanceAs (Decidable (∀ p ∈ shape,
    ∀ ty2 ∈ env.lookupLoc ((env.renamedLocs shape p.1).getD p.1),
      (keptTy p.2 ty2).Over Set.univ {l | l ∈ env.shapeLocs shape}))

mutual

/-- Replacing unknown predicates leaves the pointers. -/
lemma replaceKvars_within (kvars : KVars) : ∀ (ty ty' : Ty), replaceKvars kvars ty = some ty' →
    ty.Within L → ty'.Within L
  | .refine bty e, _, h, hty => by
    rw [replaceKvars, Option.some.injEq] at h
    exact h ▸ hty
  | .exists_ bty (.kvar kvid args), ty', h, hty => by
    simp only [replaceKvars, Option.bind_eq_bind, Option.bind_eq_some_iff, Option.pure_def,
      Option.some.injEq] at h
    obtain ⟨bty', hbty', p, -, rfl⟩ := h
    exact ⟨replaceKvarsBty_within kvars bty bty' hbty' hty.1, p.over_univ⟩
  | .exists_ bty (.expr e), _, h, hty => by
    rw [replaceKvars, Option.some.injEq] at h
    exact h ▸ hty
  | .uninit, _, h, hty | .strgRef _, _, h, hty | .param _, _, h, hty => by
    rw [replaceKvars, Option.some.injEq] at h
    exact h ▸ hty
  | .ref ty, ty', h, hty => by
    simp only [replaceKvars, Option.bind_eq_bind, Option.bind_eq_some_iff, Option.pure_def,
      Option.some.injEq] at h
    obtain ⟨ty'', hty'', rfl⟩ := h
    exact Ty.within_ref.mpr (replaceKvars_within kvars ty ty'' hty'' hty)

/-- Replacing the kvars of a base type keeps it within the locations. -/
lemma replaceKvarsBty_within (kvars : KVars) : ∀ (bty bty' : BaseTy),
    replaceKvarsBty kvars bty = some bty' → bty.Over Set.univ L → bty'.Over Set.univ L
  | .adt did substs, bty', h, hbty => by
    simp only [replaceKvarsBty, Option.bind_eq_bind, Option.bind_eq_some_iff, Option.pure_def,
      Option.some.injEq] at h
    obtain ⟨substs', hsubsts', rfl⟩ := h
    exact replaceKvarsSubsts_within kvars substs substs' hsubsts' hbty
  | .int _, _, h, hbty | .uint _, _, h, hbty | .bool, _, h, hbty => by
    rw [replaceKvarsBty, Option.some.injEq] at h
    exact h ▸ hbty

/-- The same for type arguments. -/
lemma replaceKvarsSubsts_within (kvars : KVars) : ∀ (substs substs' : Substs),
    replaceKvarsSubsts kvars substs = some substs' → substs.Over Set.univ L →
    substs'.Over Set.univ L
  | .nil, _, h, hsubsts => by
    rw [replaceKvarsSubsts, Option.some.injEq] at h
    exact h ▸ hsubsts
  | .cons ty substs, substs', h, hsubsts => by
    simp only [replaceKvarsSubsts, Option.bind_eq_bind, Option.bind_eq_some_iff, Option.pure_def,
      Option.some.injEq] at h
    obtain ⟨ty', hty', substs'', hsubsts'', rfl⟩ := h
    exact ⟨replaceKvars_within kvars ty ty' hty' hsubsts.1,
      replaceKvarsSubsts_within kvars substs substs'' hsubsts'' hsubsts.2⟩

end

/-- The type inferred at a join point points where the one kept does. -/
lemma inferTy_within {kvars : KVars} {ty1 ty2 ty' : Ty} (h : inferTy kvars ty1 ty2 = some ty')
    (hty : (keptTy ty1 ty2).Within L) : ty'.Within L := by
  unfold inferTy at h
  split at h
  · exact Option.some.inj h ▸ hty
  · exact Option.some.inj h ▸ hty
  · have hkept : keptTy ty1 .uninit = .uninit := by cases ty1 <;> rfl
    exact Option.some.inj h ▸ hkept ▸ hty
  · have hkept : keptTy ty1 ty2 = ty1 := by grind [keptTy]
    exact replaceKvars_within kvars ty1 ty' h (hkept ▸ hty)

/-- **The environment of a join point** has no dangling pointer, if its types have pointers to its
locations only. -/
theorem leads_inferBbEnv {shape : TypeEnvShape} (h : ShapeClosed env shape) :
    Leads NoDangling (env.inferBbEnv shape) := by
  have hcollect : Leads (fun _ => True)
      ((shape.flatMap fun p => p.2.walk).foldlM collectKvar fun _ => none) := by
    refine .foldlM (fun ty _ kvars _ => ?_) trivial
    unfold collectKvar
    split
    · split
      · exact .pure trivial
      · exact (Leads.of_safe (Safe.freshKvarAtLastScope _)).bind fun _ _ => .pure trivial
    · exact .pure trivial
  refine hcollect.bind fun kvars _ c => ?_
  refine wp_imp (wp_foldlM_done (I := fun done (bbEnv : TypeEnv) _ =>
      bbEnv.Over Set.univ {l | l ∈ env.shapeLocs shape} ∧
      ∀ p ∈ done, (env.renamedLocs shape p.1).getD p.1 ∈ bbEnv.locSet)
    (fun done p rest hshape bbEnv c ⟨hover, hdone⟩ => ?_) ⟨over_new, fun _ h => nomatch h⟩)
    fun bbEnv _ ⟨hover, hdone⟩ => ?_
  · have hp : p ∈ shape := by simp [hshape]
    rw [wp_bind, wp_orFail]
    refine ⟨fun ty2 hty2 => ?_, fun _ => by decide⟩
    rw [wp_bind, wp_orFail]
    refine ⟨fun ty hty => ⟨hover.insertLoc (inferTy_within hty (h p hp ty2 hty2)), ?_⟩,
      fun _ => by decide⟩
    intro q hq
    rw [locSet_insertLoc]
    rcases List.mem_append.mp hq with hq | hq
    · exact Set.mem_insert_of_mem _ (hdone q hq)
    · exact List.mem_singleton.mp hq ▸ Set.mem_insert _ _
  · refine hover.mono le_rfl fun l hl => ?_
    obtain ⟨p, hp, rfl⟩ := List.mem_map.mp hl
    exact hdone p hp

end TypeEnv

end LiquidRust.Typeck
