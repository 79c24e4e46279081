import LiquidRust.Typeck.DanglingJoin

set_option relaxedAutoImplicit false
set_option autoImplicit false

/-!
# Joins and Rust types

A join keeps the Rust types of the locations as long as it does not come to a reference of unknown
location and a pointer. The join of these two is what the reference leads to.

## Main definitions

* `LiquidRust.Typeck.ErasedTy`, `Ty.erase` — the Rust type of a type: refinements are forgotten,
  and pointers are references.
* `LiquidRust.Typeck.TypeEnv.HasTypes` — the locations have given Rust types.
* `LiquidRust.Typeck.TypeEnv.tysApart`, `locsApart` — a join comes to no reference and pointer.
* `LiquidRust.Typeck.TypeEnv.JoinsApart` — the same of the join of two environments.

## Main results

* `LiquidRust.Typeck.TypeEnv.wp_strgTyJoin_typed` — the join of two types keeps their Rust type iff
  it comes to no reference and pointer.
* `LiquidRust.Typeck.TypeEnv.foldlM_joinWith_hasTypes` — joins of any number of environments.
-/

namespace LiquidRust.Typeck

open Lib Cursor

/-! ## Rust types -/

mutual

/-- Types without refinements. -/
inductive ErasedTy
  | int (int_ty : IntTy)
  | uint (uint_ty : UintTy)
  | bool
  | adt (did : DefId) (args : ErasedTys)
  | uninit
  | ref (ty : ErasedTy)
  | param (p : ParamTy)
  deriving DecidableEq

/-- The type arguments of a Rust type. -/
inductive ErasedTys
  | nil
  | cons (ty : ErasedTy) (args : ErasedTys)
  deriving DecidableEq

end

/-- No type is a reference to itself. -/
lemma ErasedTy.ref_ne (ty : ErasedTy) : ty ≠ .ref ty := by
  intro h
  have hsize := congrArg sizeOf h
  simp only [ErasedTy.ref.sizeOf_spec] at hsize
  omega

/-- The number of type arguments. -/
def ErasedTys.len : ErasedTys → ℕ
  | nil => 0
  | cons _ args => args.len + 1

mutual

/-- **The Rust type of a type.** Refinements are forgotten, and a pointer is a reference to what
its location has. -/
def Ty.erase (R : Loc → ErasedTy) : Ty → ErasedTy
  | .refine bty _ | .exists_ bty _ => bty.erase R
  | .uninit => .uninit
  | .strgRef loc => .ref (R loc)
  | .ref ty => .ref (ty.erase R)
  | .param p => .param p

/-- The Rust type of a base type. -/
def BaseTy.erase (R : Loc → ErasedTy) : BaseTy → ErasedTy
  | .int int_ty => .int int_ty
  | .uint uint_ty => .uint uint_ty
  | .bool => .bool
  | .adt did substs => .adt did (substs.erase R)

/-- The Rust types of type arguments. -/
def Substs.erase (R : Loc → ErasedTy) : Substs → ErasedTys
  | .nil => .nil
  | .cons ty substs => .cons (ty.erase R) (substs.erase R)

end

mutual

/-- There is a variance for each argument of an ADT. -/
def ErasedTy.Fits (tcx : Tcx) : ErasedTy → Prop
  | .adt did args => args.len ≤ (tcx.variancesOf did).length ∧ args.Fits tcx
  | .ref ty => ty.Fits tcx
  | .int _ | .uint _ | .bool | .uninit | .param _ => True

/-- The same for type arguments. -/
def ErasedTys.Fits (tcx : Tcx) : ErasedTys → Prop
  | .nil => True
  | .cons ty args => ty.Fits tcx ∧ args.Fits tcx

end

namespace TypeEnv

/-- **The locations have the Rust types `R`**, unless they are in `U` and uninitialised. -/
def HasTypes (R : Loc → ErasedTy) (U : Set Loc) (env : TypeEnv) : Prop :=
  ∀ ⦃loc ty⦄, env.lookupLoc loc = some ty → ty.erase R = R loc ∨ ty = .uninit ∧ loc ∈ U

/-! ## Joins that come to no reference and pointer -/

section Apart

variable (tcx : Tcx)

/-- The arguments of an ADT that are joined are apart, one after the other. -/
def substsApart (apart : TypeEnv → Ty → Ty → Cursor → Bool)
    (join : TypeEnv → Ty → Ty → CursorM (TypeEnv × Ty)) :
    TypeEnv → List Variance → Substs → Substs → Cursor → Bool
  | env, _ :: variances, .cons ty1 substs1, .cons ty2 substs2, c =>
    apart env ty1 ty2 c &&
      match (join env ty1 ty2).run c with
      | .ok ((env, _), c) => substsApart apart join env variances substs1 substs2 c
      | .error _ => true
  | _, _, _, _, _ => true

/-- The same for base types. -/
def btyApart (apart : TypeEnv → Ty → Ty → Cursor → Bool)
    (join : TypeEnv → Ty → Ty → CursorM (TypeEnv × Ty)) (env : TypeEnv) :
    BaseTy → BaseTy → Cursor → Bool
  | .adt did substs1, .adt _ substs2, c =>
    substsApart apart join env (tcx.variancesOf did) substs1 substs2 c
  | _, _, _ => true

mutual

/-- **The join of two types comes to no reference and pointer**: they are not one themselves, nor
are the locations that two pointers lead to, nor the arguments of ADTs. -/
def tysApart : ℕ → TypeEnv → Ty → Ty → Cursor → Bool
  | 0, _, _, _, _ => true
  | n + 1, env, ty1, ty2, c =>
    if ty1 = ty2 then true
    else
      match ty1, ty2 with
      | .ref _, .strgRef _ | .strgRef _, .ref _ => false
      | .strgRef loc1, .strgRef loc2 => locsApart n env loc1 loc2 c
      | .refine bty1 _, .refine bty2 _ | .refine bty1 _, .exists_ bty2 _
      | .exists_ bty1 _, .refine bty2 _ | .exists_ bty1 _, .exists_ bty2 _ =>
        btyApart tcx (tysApart n) (strgTyJoin tcx n) env bty1 bty2 c
      | _, _ => true

/-- The join of what is at two locations comes to no reference and pointer. -/
def locsApart : ℕ → TypeEnv → Loc → Loc → Cursor → Bool
  | 0, _, _, _, _ => true
  | n + 1, env, loc1, loc2, c =>
    match env.lookupLoc loc1, env.lookupLoc loc2 with
    | some (.ref _), some (.strgRef _) | some (.strgRef _), some (.ref _) => false
    | some (.strgRef loc1), some (.strgRef loc2) => locsApart n env loc1 loc2 c
    | some ty1, some ty2 => tysApart n env ty1 ty2 c
    | _, _ => true

end

/-- The join at one location comes to no reference and pointer. -/
def joinLocApart (other : TypeEnv) (loc : Loc) (env : TypeEnv) (c : Cursor) : Bool :=
  match env.bindings.lookup loc, other.bindings.lookup loc with
  | some (.strong ty1), some (.strong ty2) => tysApart tcx tcx.stack env ty1 ty2 c
  | _, _ => true

/-- The locations of a join, in the order in which it comes to them. -/
def joinOrder (env other : TypeEnv) : Except Failure (List Loc) := do
  let levels ← env.levels tcx
  let levelsOther ← other.levels tcx
  let levels ← maxLevels levels levelsOther
  pure (sortedByLevel tcx levels)

/-- The order of a join is that of the larger of the two levels. -/
lemma joinOrder_eq_ok {env other : TypeEnv} {order : List Loc} :
    joinOrder tcx env other = .ok order ↔ ∃ levels levelsOther m, env.levels tcx = .ok levels ∧
      other.levels tcx = .ok levelsOther ∧ maxLevels levels levelsOther = .ok m ∧
      sortedByLevel tcx m = order := by
  simp only [joinOrder, except_bind_eq_ok]
  constructor
  · rintro ⟨levels, h, levelsOther, h', m, hm, horder⟩
    exact ⟨levels, levelsOther, m, h, h', hm, Except.ok.inj horder⟩
  · rintro ⟨levels, levelsOther, m, h, h', hm, rfl⟩
    exact ⟨levels, h, levelsOther, h', m, hm, rfl⟩

/-- **The join of two environments comes to no reference and pointer**, at any location. -/
def JoinsApart (other env : TypeEnv) (c : Cursor) : Prop :=
  match joinOrder tcx (env.weakening other) other with
  | .ok locs => Along (joinLoc tcx other) (fun loc env c => joinLocApart tcx other loc env c = true)
      locs (env.weakening other) c
  | .error _ => True

instance (other env : TypeEnv) (c : Cursor) : Decidable (JoinsApart tcx other env c) :=
  match h : joinOrder tcx (env.weakening other) other with
  | .ok locs => decidable_of_iff (Along (joinLoc tcx other)
      (fun loc env c => joinLocApart tcx other loc env c = true) locs (env.weakening other) c)
      (by rw [JoinsApart, h])
  | .error _ => .isTrue (by rw [JoinsApart, h]; trivial)

end Apart

variable {tcx : Tcx} {R : Loc → ErasedTy} {U : Set Loc} {env other : TypeEnv} {loc : Loc}
  {ty : Ty}

/-! ## The join of types -/

/-- Writing a type that erases as it must keeps the types. -/
lemma HasTypes.insertLoc (h : env.HasTypes R U)
    (hty : ty.erase R = R loc ∨ ty = .uninit ∧ loc ∈ U) : (env.insertLoc loc ty).HasTypes R U := by
  intro loc' ty' h'
  by_cases hne : loc' = loc
  · subst hne
    rw [lookupLoc_insertLoc_self] at h'
    exact Option.some.inj h' ▸ hty
  · rw [lookupLoc_insertLoc_of_ne hne] at h'
    exact h h'

/-- A pointer leads to what the Rust type of its own location says. -/
lemma HasTypes.strgRef {l : Loc} (h : env.HasTypes R U)
    (hty : env.lookupLoc loc = some (.strgRef l)) : .ref (R l) = R loc :=
  (h hty).resolve_right fun h => nomatch h.1

/-- **A join of types that keeps their Rust type** iff it comes to no reference and pointer. -/
def JoinTyped (R : Loc → ErasedTy) (U : Set Loc) (tcx : Tcx)
    (apart : TypeEnv → Ty → Ty → Cursor → Bool)
    (join : TypeEnv → Ty → Ty → CursorM (TypeEnv × Ty)) : Prop :=
  ∀ env ty1 ty2 c, env.HasTypes R U → ty1.erase R = ty2.erase R → (ty1.erase R).Fits tcx →
    wp (join env ty1 ty2)
      (fun r _ => (apart env ty1 ty2 c = true ↔ r.2.erase R = ty1.erase R) ∧
        (apart env ty1 ty2 c = true → r.1.HasTypes R U))
      (fun _ => True) c

section Arguments

variable {apart : TypeEnv → Ty → Ty → Cursor → Bool}
  {join : TypeEnv → Ty → Ty → CursorM (TypeEnv × Ty)}

/-- The join of type arguments keeps the types if that of types does. -/
lemma wp_substsJoin_typed (hjoin : JoinTyped R U tcx apart join) {variances : List Variance}
    {substs1 substs2 : Substs} {env : TypeEnv} {c : Cursor} (h : env.HasTypes R U)
    (heq : substs1.erase R = substs2.erase R) (hfits : (substs1.erase R).Fits tcx)
    (hlen : (substs1.erase R).len ≤ variances.length) :
    wp (substsJoin join env variances substs1 substs2)
      (fun r _ => (substsApart apart join env variances substs1 substs2 c = true ↔
          r.2.erase R = substs1.erase R) ∧
        (substsApart apart join env variances substs1 substs2 c = true → r.1.HasTypes R U))
      (fun _ => True) c := by
  induction variances generalizing env substs1 substs2 c with
  | nil =>
    cases substs1 with
    | nil => exact ⟨iff_of_true rfl rfl, fun _ => h⟩
    | cons ty1 substs1 => exact absurd hlen (Nat.not_succ_le_zero _)
  | cons variance variances ih =>
    cases substs1 with
    | nil => exact ⟨iff_of_true rfl rfl, fun _ => h⟩
    | cons ty1 substs1 =>
      cases substs2 with
      | nil => cases heq
      | cons ty2 substs2 =>
        obtain ⟨hty, hsubsts⟩ := ErasedTys.cons.inj heq
        have hlen' : (substs1.erase R).len ≤ variances.length := Nat.le_of_succ_le_succ hlen
        rw [substsJoin, wp_bind, wp_assert]
        refine ⟨fun _ => ?_, fun _ => trivial⟩
        rw [wp_bind]
        refine wp_iff.mpr ⟨fun r c' hrun => ?_, fun _ _ => trivial⟩
        obtain ⟨hiff, htypes⟩ := wp_of_run_ok (hjoin env ty1 ty2 c h hty hfits.1) hrun
        rw [wp_bind]
        simp only [substsApart, hrun, Bool.and_eq_true]
        cases happart : apart env ty1 ty2 c with
        | false =>
          -- the first argument has another Rust type, whatever the others have
          have hne : r.2.erase R ≠ ty1.erase R := fun h => by simp [hiff.mpr h] at happart
          refine wp_of_forall (fun r' _ => ⟨iff_of_false (by simp) fun h => ?_, by simp⟩)
            fun _ => trivial
          exact hne (ErasedTys.cons.inj h).1
        | true =>
          refine wp_imp (ih (htypes happart) hsubsts hfits.2 hlen') fun r' c'' h' => ?_
          refine ⟨⟨fun h => ?_, fun h => ?_⟩, fun h => h'.2 h.2⟩
          · show ErasedTys.cons (r.2.erase R) (r'.2.erase R) = _
            rw [hiff.mp happart, h'.1.mp h.2]
            rfl
          · exact ⟨rfl, h'.1.mpr (ErasedTys.cons.inj h).2⟩

/-- The join of base types keeps the types if that of types does. -/
lemma wp_btyJoin_typed (hjoin : JoinTyped R U tcx apart join) {bty1 bty2 : BaseTy} {env : TypeEnv}
    {c : Cursor} (h : env.HasTypes R U) (heq : bty1.erase R = bty2.erase R)
    (hfits : (bty1.erase R).Fits tcx) :
    wp (btyJoin tcx join env bty1 bty2)
      (fun r _ => (btyApart tcx apart join env bty1 bty2 c = true ↔
          r.2.erase R = bty1.erase R) ∧
        (btyApart tcx apart join env bty1 bty2 c = true → r.1.HasTypes R U))
      (fun _ => True) c := by
  unfold btyJoin
  split
  · exact ⟨iff_of_true rfl rfl, fun _ => h⟩
  · rw [wp_bind, wp_assert]
    exact ⟨fun _ => ⟨iff_of_true rfl rfl, fun _ => h⟩, fun _ => trivial⟩
  · rw [wp_bind, wp_assert]
    exact ⟨fun _ => ⟨iff_of_true rfl rfl, fun _ => h⟩, fun _ => trivial⟩
  · next did1 substs1 did2 substs2 =>
    rw [wp_bind, wp_assert]
    refine ⟨fun _ => ?_, fun _ => trivial⟩
    rw [wp_bind]
    have hsubsts := (ErasedTy.adt.inj heq).2
    refine wp_imp (wp_substsJoin_typed hjoin h hsubsts hfits.2 hfits.1) fun r c' h' => ?_
    refine ⟨h'.1.trans ⟨fun h => ?_, fun h => (ErasedTy.adt.inj h).2⟩, h'.2⟩
    exact congrArg (ErasedTy.adt did1) h
  · trivial

/-- `generalize` keeps the types if the join of types does. -/
lemma wp_generalize_typed (hjoin : JoinTyped R U tcx apart join) {bty1 bty2 : BaseTy}
    {env : TypeEnv} {c : Cursor} (h : env.HasTypes R U) (heq : bty1.erase R = bty2.erase R)
    (hfits : (bty1.erase R).Fits tcx) :
    wp (generalize tcx join env bty1 bty2)
      (fun r _ => (btyApart tcx apart join env bty1 bty2 c = true ↔
          r.2.erase R = bty1.erase R) ∧
        (btyApart tcx apart join env bty1 bty2 c = true → r.1.HasTypes R U))
      (fun _ => True) c := by
  rw [generalize, wp_bind]
  refine wp_imp (wp_btyJoin_typed hjoin h heq hfits) fun r c' h' => ?_
  rw [wp_bind]
  exact wp_of_forall (fun p _ => h') fun _ => trivial

end Arguments

/-- The joins of types and of locations, by induction on the size of the stack. -/
lemma join_typed (n : ℕ) : JoinTyped R U tcx (tysApart tcx n) (strgTyJoin tcx n) ∧
    ∀ env loc1 loc2 c, env.HasTypes R U → R loc1 = R loc2 → (R loc1).Fits tcx →
      wp (refWeakJoin tcx n env loc1 loc2)
        (fun r _ => (locsApart tcx n env loc1 loc2 c = true ↔ r.2.erase R = R loc1) ∧
          (locsApart tcx n env loc1 loc2 c = true → r.1.HasTypes R U))
        (fun _ => True) c := by
  induction n with
  | zero => exact ⟨fun _ _ _ _ _ _ _ => trivial, fun _ _ _ _ _ _ _ => trivial⟩
  | succ n ih =>
    obtain ⟨ihty, ihloc⟩ := ih
    constructor
    · intro env ty1 ty2 c h heq hfits
      unfold strgTyJoin tysApart
      split
      · exact ⟨iff_of_true rfl rfl, fun _ => h⟩
      · split
        · next ty2 _ => cases ty2 <;> exact ⟨iff_of_true rfl rfl, fun _ => h⟩
        · cases ty1 <;> exact ⟨iff_of_true rfl heq.symm, fun _ => h⟩
        · split
          · rw [wp_bind]
            exact wp_imp (wp_btyJoin_typed ihty h heq hfits) fun r c' h' => h'
          · exact wp_generalize_typed ihty h heq hfits
        · exact wp_generalize_typed ihty h heq hfits
        · exact wp_generalize_typed ihty h heq hfits
        · exact wp_generalize_typed ihty h heq hfits
        · next loc1 loc2 _ =>
          rw [wp_bind]
          refine wp_imp (ihloc env loc1 loc2 c h (ErasedTy.ref.inj heq) hfits) fun r c' h' => ?_
          refine ⟨h'.1.trans ⟨fun h => congrArg ErasedTy.ref h, ErasedTy.ref.inj⟩, h'.2⟩
        · next ty loc _ =>
          rw [wp_bind]
          refine wp_of_forall (fun env' c' => ?_) fun _ => trivial
          exact ⟨iff_of_false (by simp) (ErasedTy.ref_ne _), by simp⟩
        · next loc ty _ =>
          rw [wp_bind]
          refine wp_of_forall (fun env' c' => ?_) fun _ => trivial
          refine ⟨iff_of_false (by simp) fun h => ErasedTy.ref_ne (ty.erase R) ?_, by simp⟩
          exact h.trans heq
        · trivial
    · intro env loc1 loc2 c h heq hfits
      unfold refWeakJoin
      rw [wp_bind]
      refine wp_strongTy_lookup fun ty1 hty1 => ?_
      rw [wp_bind]
      refine wp_strongTy_lookup fun ty2 hty2 => ?_
      unfold locsApart
      rw [hty1, hty2]
      have hbase : ∀ {ty1 ty2 : Ty}, env.lookupLoc loc1 = some ty1 → env.lookupLoc loc2 = some ty2 →
          ty1 ≠ .uninit → ty2 ≠ .uninit →
          wp (do
            let r ← strgTyJoin tcx n env ty1 ty2
            pure ((r.1.insertLoc loc1 r.2).insertLoc loc2 r.2, r.2))
          (fun r _ => (tysApart tcx n env ty1 ty2 c = true ↔ r.2.erase R = R loc1) ∧
            (tysApart tcx n env ty1 ty2 c = true → r.1.HasTypes R U)) (fun _ => True) c := by
        intro ty1 ty2 hty1 hty2 h1 h2
        have he1 : ty1.erase R = R loc1 := (h hty1).resolve_right fun h => h1 h.1
        have he2 : ty2.erase R = R loc2 := (h hty2).resolve_right fun h => h2 h.1
        rw [wp_bind]
        refine wp_imp (ihty env ty1 ty2 c h (he1.trans (heq.trans he2.symm)) (he1 ▸ hfits))
          fun r c' hr => ?_
        obtain ⟨hiff, htypes⟩ := hr
        rw [he1] at hiff
        exact ⟨hiff, fun happart => ((htypes happart).insertLoc (.inl (hiff.mp happart))).insertLoc
          (.inl ((hiff.mp happart).trans heq))⟩
      split
      · exact hbase hty1 hty2 (by simp) (by simp)
      · exact hbase hty1 hty2 (by simp) (by simp)
      · exact hbase hty1 hty2 (by simp) (by simp)
      · exact hbase hty1 hty2 (by simp) (by simp)
      · next l1 l2 =>
        have hl1 := h.strgRef hty1
        have hl2 := h.strgRef hty2
        have hl : R l1 = R l2 := ErasedTy.ref.inj (hl1.trans (heq.trans hl2.symm))
        have hfits1 : (R l1).Fits tcx := by
          rw [← hl1] at hfits
          exact hfits
        rw [wp_bind]
        refine wp_imp (ihloc env l1 l2 c h hl hfits1) fun r c' hr => ?_
        obtain ⟨hiff, htypes⟩ := hr
        have hiff' : locsApart tcx n env l1 l2 c = true ↔ (Ty.ref r.2).erase R = R loc1 := by
          rw [hiff, ← hl1]
          exact ⟨fun h => congrArg ErasedTy.ref h, ErasedTy.ref.inj⟩
        exact ⟨hiff', fun happart =>
          ((htypes happart).insertLoc (.inl (hiff'.mp happart))).insertLoc
          (.inl (hiff'.mp happart))⟩
      · next l ty =>
        have hl2 : .ref (ty.erase R) = R loc2 := (h hty2).resolve_right fun h => by cases h.1
        rw [wp_bind]
        refine wp_of_forall (fun env' c' => ?_) fun _ => trivial
        refine ⟨iff_of_false (by simp) fun h => ErasedTy.ref_ne (ty.erase R) ?_, by simp⟩
        exact h.trans (heq.trans hl2.symm)
      · next ty l =>
        have hl1 : .ref (ty.erase R) = R loc1 := (h hty1).resolve_right fun h => by cases h.1
        rw [wp_bind]
        refine wp_of_forall (fun env' c' => ?_) fun _ => trivial
        refine ⟨iff_of_false (by simp) fun h => ErasedTy.ref_ne (ty.erase R) ?_, by simp⟩
        exact h.trans hl1.symm
      · trivial

/-- **The join of two types** of one Rust type keeps it iff it comes to no reference and pointer. -/
theorem wp_strgTyJoin_typed (n : ℕ) : JoinTyped R U tcx (tysApart tcx n) (strgTyJoin tcx n) :=
  (join_typed n).1

/-! ## The join of environments -/

/-- What is uninitialised in one of the types stays so. -/
lemma wp_strgTyJoin_uninit {n : ℕ} {env : TypeEnv} {ty1 ty2 : Ty} {c : Cursor}
    (h : ty1 = .uninit ∨ ty2 = .uninit) :
    wp (strgTyJoin tcx n env ty1 ty2) (fun r c' => r = (env, .uninit) ∧ c' = c) (fun _ => n = 0)
      c := by
  cases n with
  | zero => rfl
  | succ n =>
    unfold strgTyJoin
    split
    · next heq =>
      subst heq
      obtain rfl : ty1 = .uninit := h.elim id id
      exact ⟨rfl, rfl⟩
    · rcases h with rfl | rfl
      · cases ty2 <;> exact ⟨rfl, rfl⟩
      · cases ty1 <;> exact ⟨rfl, rfl⟩

/-- **One location of a join.** -/
lemma wp_joinLoc_hasTypes {c : Cursor} (hR : ∀ loc, (R loc).Fits tcx) (h : env.HasTypes R U)
    (hother : other.HasTypes R U) (happart : joinLocApart tcx other loc env c = true) :
    wp (joinLoc tcx other env loc) (fun env' _ => env'.HasTypes R U) (fun _ => True) c := by
  rw [joinLoc, wp_bind, wp_orFail]
  refine ⟨fun binding1 hb1 => ?_, fun _ => trivial⟩
  rw [wp_bind, wp_orFail]
  refine ⟨fun binding2 hb2 => ?_, fun _ => trivial⟩
  cases binding1 with
  | weak _ _ => exact h
  | strong ty1 =>
    cases binding2 with
    | weak _ _ => exact h
    | strong ty2 =>
      have h1 : ty1.erase R = R loc ∨ _ := h (by rw [lookupLoc, hb1]; rfl)
      have h2 : ty2.erase R = R loc ∨ _ := hother (by rw [lookupLoc, hb2]; rfl)
      have hapart : tysApart tcx tcx.stack env ty1 ty2 c = true := by
        simpa only [joinLocApart, hb1, hb2] using happart
      rw [wp_bind]
      by_cases huninit : ty1 = .uninit ∨ ty2 = .uninit
      · refine wp_mono (wp_strgTyJoin_uninit huninit) (fun r c' hr => ?_) fun _ _ => trivial
        obtain ⟨rfl, -⟩ := hr
        refine h.insertLoc ?_
        rcases huninit with rfl | rfl
        · exact h1
        · exact h2
      · obtain ⟨hne1, hne2⟩ := not_or.mp huninit
        have he1 : ty1.erase R = R loc := h1.resolve_right fun h => hne1 h.1
        have he2 : ty2.erase R = R loc := h2.resolve_right fun h => hne2 h.1
        refine wp_imp (wp_strgTyJoin_typed tcx.stack env ty1 ty2 c h (he1.trans he2.symm)
          (he1 ▸ hR loc)) fun r c' hr => ?_
        obtain ⟨hiff, htypes⟩ := hr
        exact (htypes hapart).insertLoc (.inl ((hiff.mp hapart).trans he1))

/-- `weakening` keeps the types. -/
lemma HasTypes.weakening (h : env.HasTypes R U) (hother : other.HasTypes R U) :
    (env.weakening other).HasTypes R U := by
  intro loc ty hty
  rw [lookupLoc, lookup_weakening] at hty
  obtain ⟨binding, hbinding, rfl⟩ := Option.map_eq_some_iff.mp hty
  obtain ⟨binding1, hb1, hmap⟩ := Option.bind_eq_some_iff.mp hbinding
  obtain ⟨ty2, hty2, rfl⟩ := Option.map_eq_some_iff.mp hmap
  split
  · next huninit =>
    have h2 := hother hty2
    cases ty2 with
    | uninit => exact h2
    | _ => cases huninit
  · exact h (by rw [lookupLoc, hb1]; rfl)

/-- **A join of two environments** keeps the Rust types. -/
theorem wp_joinWith_hasTypes {c : Cursor} (hR : ∀ loc, (R loc).Fits tcx) (h : env.HasTypes R U)
    (hother : other.HasTypes R U) (happart : JoinsApart tcx other env c) :
    wp (env.joinWith tcx other) (fun env' _ => env'.HasTypes R U) (fun _ => True) c := by
  rw [joinWith, wp_bind, wp_ofExcept]
  cases hlevels : (env.weakening other).levels tcx with
  | error f => trivial
  | ok levels =>
    rw [post_ok, wp_bind, wp_ofExcept]
    cases hother' : other.levels tcx with
    | error f => trivial
    | ok levelsOther =>
      rw [post_ok, wp_bind, wp_ofExcept]
      cases hmax : maxLevels levels levelsOther with
      | error f => trivial
      | ok m =>
        rw [post_ok]
        have horder : joinOrder tcx (env.weakening other) other = .ok (sortedByLevel tcx m) :=
          (joinOrder_eq_ok tcx).mpr ⟨levels, levelsOther, m, hlevels, hother', hmax, rfl⟩
        rw [JoinsApart, horder] at happart
        exact wp_foldlM_along (fun loc _ env' c' h' happart' =>
          wp_joinLoc_hasTypes hR h' hother happart') happart (h.weakening hother)

/-- **Joins keep the Rust types.** If the joins of any number of environments complete and come to
no reference and pointer, every location has the Rust type that it has in all of them, or is
uninitialised as it is in one of them.

**Proof sketch.** Each join of two types that completes and does not come to a reference and a
pointer keeps their Rust type, by induction on the size of the stack (`join_typed`). So does a
join of environments at every location, where a type that is uninitialised in one of them is so
afterwards (`wp_joinWith_hasTypes`), and a fold by induction on the list. -/
theorem foldlM_joinWith_hasTypes {others : List TypeEnv} {env' : TypeEnv} {c c' : Cursor}
    (hR : ∀ loc, (R loc).Fits tcx)
    (hmem : ∀ other ∈ others, ∀ loc, loc ∈ other.bindings ↔ loc ∈ env.bindings)
    (htypes : ∀ e ∈ env :: others, ∀ loc ty, e.lookupLoc loc = some ty →
      ty = .uninit ∨ ty.erase R = R loc)
    (hrun : (others.foldlM (fun (env other : TypeEnv) => env.joinWith tcx other) env).run c =
        .ok (env', c'))
    (happart : Along (fun (env other : TypeEnv) => env.joinWith tcx other) (JoinsApart tcx)
        others env c) :
    ∀ loc ∈ env.bindings, ∃ ty, env'.lookupLoc loc = some ty ∧
      (ty.erase R = R loc ∨
        ty = .uninit ∧ ∃ e ∈ env :: others, e.lookupLoc loc = some .uninit) := by
  let U : Set Loc := {loc | ∃ e ∈ env :: others, e.lookupLoc loc = some .uninit}
  have hinput : ∀ e ∈ env :: others, e.HasTypes R U := by
    intro e he loc ty hty
    rcases htypes e he loc ty hty with rfl | hty'
    · exact .inr ⟨rfl, e, he, hty⟩
    · exact .inl hty'
  have hinv : wp (others.foldlM (fun (env other : TypeEnv) => env.joinWith tcx other) env)
      (fun env' _ => env'.HasTypes R U ∧ ∀ loc, loc ∈ env'.bindings ↔ loc ∈ env.bindings)
      (fun _ => True) c := by
    refine wp_foldlM_along (fun other hother e c h happart' => ?_) happart
      ⟨hinput env (.head _), fun _ => Iff.rfl⟩
    have hkeep := wp_joinWith_hasTypes hR h.1 (hinput other (.tail _ hother)) happart'
    refine wp_mono (wp_and hkeep (wp_joinWith_coarsens e other c)) (fun e' c' h' => ?_)
      fun _ _ => trivial
    refine ⟨h'.1, fun loc => (h'.2.mem loc).trans ?_⟩
    change loc ∈ (e.weakening other).locSet ↔ _
    rw [locSet_weakening]
    exact ⟨fun hloc => (h.2 loc).mp hloc.1,
      fun hloc => ⟨(h.2 loc).mpr hloc, (hmem other hother loc).mpr hloc⟩⟩
  obtain ⟨hfinal, hlocs⟩ := wp_of_run_ok hinv hrun
  intro loc hloc
  obtain ⟨ty, hty⟩ := exists_lookupLoc ((hlocs loc).mpr hloc)
  exact ⟨ty, hty, hfinal hty⟩

/-! ### A pointer to one of three integers -/

/-- Integers at the locations 0, 1 and 2, and at 3 a pointer to one of them. -/
def borrowEnv (l : Local) : TypeEnv :=
  (((new.insertLoc (.local_ 0) (.refine (.int .i32) (.constant (.ofI128 0)))).insertLoc (.local_ 1)
    (.refine (.int .i32) (.constant (.ofI128 1)))).insertLoc (.local_ 2)
    (.refine (.int .i32) (.constant (.ofI128 2)))).insertLoc (.local_ 3) (.strgRef (.local_ l))

/-- The Rust types of its locations. -/
def borrowTypes : Loc → ErasedTy
  | .local_ 3 => .ref (.int .i32)
  | _ => .int .i32

/-- The types of the example fit. -/
lemma fits_borrowTypes (tcx : Tcx) (loc : Loc) : (borrowTypes loc).Fits tcx := by
  unfold borrowTypes
  split <;> trivial

/-- The environments of the example have its types. -/
lemma hasTypes_borrowEnv {l : Local} (hl : borrowTypes (.local_ l) = .int .i32) :
    (borrowEnv l).HasTypes borrowTypes ∅ := by
  have hnew : new.HasTypes borrowTypes ∅ := fun loc ty h => by simp [new, lookupLoc] at h
  refine (((hnew.insertLoc (.inl rfl)).insertLoc (.inl rfl)).insertLoc (.inl rfl)).insertLoc
    (.inl ?_)
  show ErasedTy.ref (borrowTypes (.local_ l)) = _
  rw [hl]
  rfl

/-- The environments of the example have the same locations. -/
lemma mem_borrowEnv (l l' : Local) (loc : Loc) :
    loc ∈ (borrowEnv l).bindings ↔ loc ∈ (borrowEnv l').bindings := by
  simp [borrowEnv]

/-- **The Rust types are kept** of two pointers to integers. -/
theorem foldlM_joinWith_hasTypes_borrowEnv :
    ∃ env' c', ([borrowEnv 1].foldlM
        (fun (env other : TypeEnv) => env.joinWith (.ofStack 8) other) (borrowEnv 0)).run
          ConstraintBuilder.new.asCursor = .ok (env', c') ∧
      ∀ loc ∈ (borrowEnv 0).bindings, ∃ ty, env'.lookupLoc loc = some ty ∧
        (ty.erase borrowTypes = borrowTypes loc ∨
          ty = .uninit ∧ ∃ e ∈ [borrowEnv 0, borrowEnv 1], e.lookupLoc loc = some .uninit) := by
  obtain ⟨env', c', hrun⟩ : ∃ env' c', ([borrowEnv 1].foldlM
      (fun (env other : TypeEnv) => env.joinWith (.ofStack 8) other) (borrowEnv 0)).run
        ConstraintBuilder.new.asCursor = .ok (env', c') := ⟨_, _, rfl⟩
  have happart : Along (fun (env other : TypeEnv) => env.joinWith (.ofStack 8) other)
      (JoinsApart (.ofStack 8)) [borrowEnv 1] (borrowEnv 0) ConstraintBuilder.new.asCursor := by
    decide +kernel
  refine ⟨env', c', hrun,
    foldlM_joinWith_hasTypes (fits_borrowTypes _) ?_ ?_ hrun happart⟩
  · intro other hother loc
    rw [List.mem_singleton] at hother
    subst hother
    exact mem_borrowEnv 1 0 loc
  · intro e he loc ty hty
    have htypes : e.HasTypes borrowTypes ∅ := by
      rcases List.mem_pair.mp he with rfl | rfl
      · exact hasTypes_borrowEnv rfl
      · exact hasTypes_borrowEnv rfl
    exact .inr ((htypes hty).resolve_right fun h => h.2)

/-- **The Rust types are not kept** of three pointers to integers: the first two are joined to a
reference, and this one with the third to an integer. -/
theorem not_foldlM_joinWith_hasTypes :
    ¬∀ (tcx : Tcx) (R : Loc → ErasedTy) (env : TypeEnv) (others : List TypeEnv) (env' : TypeEnv)
      (c c' : Cursor), (∀ loc, (R loc).Fits tcx) →
      (∀ other ∈ others, ∀ loc, loc ∈ other.bindings ↔ loc ∈ env.bindings) →
      (∀ e ∈ env :: others, ∀ loc ty, e.lookupLoc loc = some ty →
        ty = .uninit ∨ ty.erase R = R loc) →
      (others.foldlM (fun (env other : TypeEnv) => env.joinWith tcx other) env).run c =
        .ok (env', c') →
      ∀ loc ∈ env.bindings, ∃ ty, env'.lookupLoc loc = some ty ∧
        (ty.erase R = R loc ∨
          ty = .uninit ∧ ∃ e ∈ env :: others, e.lookupLoc loc = some .uninit) := by
  intro hclaim
  have hmem : ∀ other ∈ [borrowEnv 1, borrowEnv 2], ∀ loc,
      loc ∈ other.bindings ↔ loc ∈ (borrowEnv 0).bindings := by
    intro other hother loc
    rcases List.mem_pair.mp hother with rfl | rfl
    · exact mem_borrowEnv 1 0 loc
    · exact mem_borrowEnv 2 0 loc
  have htypes : ∀ e ∈ [borrowEnv 0, borrowEnv 1, borrowEnv 2], ∀ loc ty,
      e.lookupLoc loc = some ty → ty = .uninit ∨ ty.erase borrowTypes = borrowTypes loc := by
    intro e he loc ty hty
    have htypes : e.HasTypes borrowTypes ∅ := by
      simp only [List.mem_cons, List.not_mem_nil, or_false] at he
      rcases he with rfl | rfl | rfl <;> exact hasTypes_borrowEnv rfl
    exact .inr ((htypes hty).resolve_right fun h => h.2)
  obtain ⟨ty, hty, hkept⟩ := hclaim (.ofStack 8) borrowTypes (borrowEnv 0)
    [borrowEnv 1, borrowEnv 2]
    _ ConstraintBuilder.new.asCursor _ (fits_borrowTypes _) hmem htypes rfl (.local_ 3)
    (by simp [borrowEnv])
  obtain rfl : Ty.exists_ (.int .i32) (.kvar 0 [.var .bound]) = ty := Option.some.inj hty
  rcases hkept with h | ⟨h, -⟩ <;> cases h

end TypeEnv

end LiquidRust.Typeck
