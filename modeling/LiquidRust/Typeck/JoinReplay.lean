import LiquidRust.Typeck.InferBbEnv
import LiquidRust.Typeck.Join
import LiquidRust.Typeck.JoinSteps

set_option relaxedAutoImplicit false
set_option autoImplicit false

/-!
# Joins that the check can replay

Inference joins the environments that arrive at a join point. The check transforms each of them
into the environment that is made from the shape of the join. Where the Rust types of the two
environments agree, this completes exactly if no reference of unknown location arrives, and two
pointers that differ lead to integers or booleans that do not all have one index.

## Main definitions

* `LiquidRust.Typeck.TypeEnv.Erases` — the Rust type of a type.
* `LiquidRust.Typeck.TypeEnv.Agree` — environments with the same Rust types.
* `LiquidRust.Typeck.TypeEnv.JoinReplays` — both environments can be transformed into their join.
* `LiquidRust.Typeck.TypeEnv.Joinable` — the condition.

## Main results

* `LiquidRust.Typeck.TypeEnv.joinReplays_iff` — a join is replayed iff the condition holds.
-/

namespace LiquidRust.Typeck

open Lib Cursor

/-- The Rust types of the values that are compared: integers, booleans and references to them. -/
inductive RustTy
  | base (bty : BaseTy)
  | ref (ty : RustTy)

namespace TypeEnv

/-- The Rust type of a type. There is none for a chain of pointers that does not end. -/
inductive Erases (env : TypeEnv) : Ty → RustTy → Prop
  | base {bty : BaseTy} {ty : Ty} : bty.isScalar = true → ty.HasBase bty →
      Erases env ty (.base bty)
  | strgRef {loc : Loc} {ty : Ty} {rust : RustTy} : env.lookupLoc loc = some ty →
      Erases env ty rust → Erases env (.strgRef loc) (.ref rust)
  | ref {ty : Ty} {rust : RustTy} : Erases env ty rust → Erases env (.ref ty) (.ref rust)

/-- **Environments that agree**: all bindings are strong, and every location of one has the same
Rust type in the other. -/
structure Agree (env1 env2 : TypeEnv) : Prop where
  strong1 : env1.AllStrong
  strong2 : env2.AllStrong
  mem : ∀ loc, loc ∈ env1.bindings ↔ loc ∈ env2.bindings
  erases : ∀ ⦃loc ty1 ty2⦄, env1.lookupLoc loc = some ty1 → env2.lookupLoc loc = some ty2 →
    ∃ rust, env1.Erases ty1 rust ∧ env2.Erases ty2 rust

/-- **A join is replayed**: it completes, the environment of the join point is made from its
shape, and both environments are transformed into that one, from any valid cursors. -/
def JoinReplays (tcx : Tcx) (env1 env2 : TypeEnv) : Prop :=
  ∀ ⦃c : Cursor⦄, c.Valid → wp (env1.joinWith tcx env2)
    (fun env _ => ∀ ⦃c : Cursor⦄, c.Valid → wp (env1.inferBbEnv (env.intoShape tcx))
      (fun bbEnv _ => ∀ ⦃c : Cursor⦄, c.Valid →
        wp (env1.transformInto tcx bbEnv) (fun _ _ => True) (fun _ => False) c ∧
        wp (env2.transformInto tcx bbEnv) (fun _ _ => True) (fun _ => False) c)
      (fun _ => False) c)
    (fun _ => False) c

/-- A location of an integer or a boolean. -/
def HasScalar (env : TypeEnv) (loc : Loc) (bty : BaseTy) : Prop :=
  ∃ ty, env.lookupLoc loc = some ty ∧ ty.HasBase bty

/-- No reference of unknown location, and two pointers that differ lead to integers or
booleans. -/
structure ScalarPointers (env1 env2 : TypeEnv) : Prop where
  noRef1 : ∀ loc ty, env1.lookupLoc loc ≠ some (.ref ty)
  noRef2 : ∀ loc ty, env2.lookupLoc loc ≠ some (.ref ty)
  scalar : ∀ ⦃loc l1 l2⦄, env1.lookupLoc loc = some (.strgRef l1) →
    env2.lookupLoc loc = some (.strgRef l2) → l1 ≠ l2 → ∃ bty, env1.HasScalar l1 bty

/-- **The condition**: moreover, what the two pointers lead to does not have one index at both
places in both environments. -/
structure Joinable (env1 env2 : TypeEnv) : Prop extends ScalarPointers env1 env2 where
  index : ∀ ⦃loc l1 l2⦄, env1.lookupLoc loc = some (.strgRef l1) →
    env2.lookupLoc loc = some (.strgRef l2) → l1 ≠ l2 → ∀ bty e,
    ¬((env1.lookupLoc l1 = some (.refine bty e) ∧ env2.lookupLoc l1 = some (.refine bty e)) ∧
      env1.lookupLoc l2 = some (.refine bty e) ∧ env2.lookupLoc l2 = some (.refine bty e))

variable {tcx : Tcx} {env env1 env2 : TypeEnv} {loc l1 l2 : Loc} {bty : BaseTy}

/-! ## Rust types -/

section Agree

/-- A type with a Rust type has a level. -/
lemma Erases.hasLevel {ty : Ty} {rust : RustTy} (h : env.Erases ty rust) :
    ∃ k, env.HasLevel ty k := by
  induction h with
  | base _ hty => exact ⟨0, .other (by cases hty <;> rfl)⟩
  | strgRef hloc _ ih =>
    obtain ⟨k, hk⟩ := ih
    exact ⟨k + 1, .strgRef hloc hk⟩
  | ref => exact ⟨0, .other rfl⟩

/-- Agreement does not depend on the order. -/
lemma Agree.symm (h : Agree env1 env2) : Agree env2 env1 where
  strong1 := h.strong2
  strong2 := h.strong1
  mem loc := (h.mem loc).symm
  erases _ _ _ h1 h2 :=
    let ⟨rust, hr1, hr2⟩ := h.erases h2 h1
    ⟨rust, hr2, hr1⟩

/-- The Rust type of a location. -/
lemma Agree.exists_erases (h : Agree env1 env2) {ty : Ty} (hty : env1.lookupLoc loc = some ty) :
    ∃ rust, env1.Erases ty rust := by
  obtain ⟨ty2, hty2⟩ := exists_lookupLoc ((h.mem loc).mp (mem_of_lookupLoc hty))
  obtain ⟨rust, hr, -⟩ := h.erases hty hty2
  exact ⟨rust, hr⟩

/-- No location of agreeing environments is uninitialized. -/
lemma Agree.ne_uninit (h : Agree env1 env2) (loc : Loc) : env1.lookupLoc loc ≠ some .uninit := by
  intro hty
  obtain ⟨rust, hr⟩ := h.exists_erases hty
  cases hr with
  | base _ hty => cases hty

/-- None has a type parameter for its type. -/
lemma Agree.ne_param (h : Agree env1 env2) (loc : Loc) (p : Core.ParamTy) :
    env1.lookupLoc loc ≠ some (.param p) := by
  intro hty
  obtain ⟨rust, hr⟩ := h.exists_erases hty
  cases hr with
  | base _ hty => cases hty

/-- What erases to a base type has it and is scalar. -/
lemma Erases.of_base {ty : Ty} (h : env.Erases ty (.base bty)) :
    ty.HasBase bty ∧ bty.isScalar = true := by
  cases h with
  | base hbty hty => exact ⟨hty, hbty⟩

/-- What has a base type erases to it. -/
lemma Erases.base_of_hasBase {ty : Ty} {rust : RustTy} (h : env.Erases ty rust)
    (hty : ty.HasBase bty) : rust = .base bty := by
  cases h with
  | base _ hty' => rw [hty'.unique hty]
  | strgRef => cases hty
  | ref => cases hty

/-- An integer or a boolean in one environment is one in the other. -/
lemma Agree.hasScalar (h : Agree env1 env2) (h1 : env1.HasScalar loc bty) :
    env2.HasScalar loc bty ∧ bty.isScalar = true := by
  obtain ⟨ty1, hty1, hbase1⟩ := h1
  obtain ⟨ty2, hty2⟩ := exists_lookupLoc ((h.mem loc).mp (mem_of_lookupLoc hty1))
  obtain ⟨rust, hr1, hr2⟩ := h.erases hty1 hty2
  obtain rfl := hr1.base_of_hasBase hbase1
  exact ⟨⟨ty2, hty2, hr2.of_base.1⟩, hr2.of_base.2⟩

/-- Two pointers at one location lead to integers or booleans of one type. -/
lemma Agree.pointee (h : Agree env1 env2) (hl1 : env1.lookupLoc loc = some (.strgRef l1))
    (hl2 : env2.lookupLoc loc = some (.strgRef l2)) (h1 : env1.HasScalar l1 bty) :
    env1.HasScalar l2 bty := by
  obtain ⟨ty1, hty1, hbase1⟩ := h1
  obtain ⟨rust, hr1, hr2⟩ := h.erases hl1 hl2
  cases hr1 with
  | base _ hty => cases hty
  | strgRef hty1' hr1 =>
    obtain rfl := Option.some.inj (hty1.symm.trans hty1')
    obtain rfl := hr1.base_of_hasBase hbase1
    cases hr2 with
    | strgRef hty2 hr2 => exact (h.symm.hasScalar ⟨_, hty2, hr2.of_base.1⟩).1

/-- A join makes the first environment coarser. -/
lemma Agree.wp_joinWith (h : Agree env1 env2) (c : Cursor) :
    wp (env1.joinWith tcx env2) (fun env _ => Coarsens ∅ env1 env) (fun _ => True) c := by
  have hcoarsens := @wp_joinWith_coarsens tcx env1 env2 c
  have huninit : env2.uninitLocs = ∅ := Set.eq_empty_iff_forall_notMem.mpr h.symm.ne_uninit
  rwa [weakening_eq_self (fun loc => (h.mem loc).mp) h.symm.ne_uninit, huninit] at hcoarsens

/-- What each location has: integers or booleans, or pointers. -/
lemma Agree.joins (h : Agree env1 env2) (hp : ScalarPointers env1 env2)
    (hloc : loc ∈ env1.bindings) : Joins env1 env2 loc := by
  obtain ⟨ty1, hty1⟩ := exists_lookupLoc hloc
  obtain ⟨ty2, hty2⟩ := exists_lookupLoc ((h.mem loc).mp hloc)
  obtain ⟨rust, hr1, hr2⟩ := h.erases hty1 hty2
  cases hr1 with
  | base hbty hbase1 => exact .scalar hbty hty1 hty2 hbase1 hr2.of_base.1
  | ref => exact absurd hty1 (hp.noRef1 loc _)
  | @strgRef l1 _ _ _ _ =>
    cases hr2 with
    | ref => exact absurd hty2 (hp.noRef2 loc _)
    | @strgRef l2 _ _ _ _ =>
      by_cases hne : l1 = l2
      · subst hne
        exact .same hty1 hty2
      · obtain ⟨bty, hs1⟩ := hp.scalar hty1 hty2 hne
        have hbty := (h.hasScalar hs1).2
        obtain ⟨tyl2, htyl2, hbase2⟩ := h.pointee hty1 hty2 hs1
        obtain ⟨tyl1, htyl1, hbase1⟩ := hs1
        exact .differ hbty hty1 hty2 hne htyl1 htyl2 hbase1 hbase2

/-- The levels of an environment have a bound. -/
lemma exists_level_bound
    (h : ∀ loc ty, env.lookupLoc loc = some ty → ∃ k, env.HasLevel ty k) :
    ∃ n, ∀ loc ty, env.lookupLoc loc = some ty → ∃ k, env.HasLevel ty k ∧ k < n := by
  have hlist : ∀ locs : List Loc, ∃ n, ∀ loc ∈ locs, ∀ ty, env.lookupLoc loc = some ty →
      ∃ k, env.HasLevel ty k ∧ k < n := by
    intro locs
    induction locs with
    | nil => exact ⟨0, by simp⟩
    | cons loc locs ih =>
      obtain ⟨n, hn⟩ := ih
      cases hty : env.lookupLoc loc with
      | none => exact ⟨n, List.forall_mem_cons.mpr ⟨by simp [hty], hn⟩⟩
      | some ty =>
        obtain ⟨k, hk⟩ := h loc ty hty
        refine ⟨max n (k + 1), List.forall_mem_cons.mpr ⟨fun ty' hty' => ?_,
          fun l hl tyl htyl => ?_⟩⟩
        · obtain rfl := Option.some.inj (hty.symm.trans hty')
          exact ⟨k, hk, by omega⟩
        · obtain ⟨k', hk', hlt⟩ := hn l hl tyl htyl
          exact ⟨k', hk', by omega⟩
  obtain ⟨n, hn⟩ := hlist env.bindings.keys
  exact ⟨n, fun loc ty hty => hn loc (AList.mem_keys.mp (mem_of_lookupLoc hty)) ty hty⟩

/-- A stack that is large enough for both environments. -/
lemma Agree.exists_stack (h : Agree env1 env2) :
    ∃ n, 2 < n ∧
      (∀ loc ty, env1.lookupLoc loc = some ty → ∃ k, env1.HasLevel ty k ∧ k < n) ∧
      ∀ loc ty, env2.lookupLoc loc = some ty → ∃ k, env2.HasLevel ty k ∧ k < n := by
  obtain ⟨n1, hn1⟩ := exists_level_bound fun loc ty hty =>
    (h.exists_erases hty).elim fun _ hr => hr.hasLevel
  obtain ⟨n2, hn2⟩ := exists_level_bound fun loc ty hty =>
    (h.symm.exists_erases hty).elim fun _ hr => hr.hasLevel
  refine ⟨max 3 (max n1 n2), by omega, fun loc ty hty => ?_, fun loc ty hty => ?_⟩
  · obtain ⟨k, hk, hlt⟩ := hn1 loc ty hty
    exact ⟨k, hk, by omega⟩
  · obtain ⟨k, hk, hlt⟩ := hn2 loc ty hty
    exact ⟨k, hk, by omega⟩

end Agree

/-! ## The levels of pointers that differ -/

section Levels

variable {levels : Levels}

/-- Integers and booleans have level zero. -/
lemma JoinLevels.scalar (hlevels : JoinLevels env1 env2 levels) (h : Agree env1 env2)
    (h1 : env1.HasScalar loc bty) : levelOf levels loc = 0 := by
  obtain ⟨⟨ty2, hty2, hbase2⟩, -⟩ := h.hasScalar h1
  obtain ⟨ty1, hty1, hbase1⟩ := h1
  have hzero : ∀ {env : TypeEnv} {ty : Ty}, ty.HasBase bty → env.HasLevel ty 0 := fun hbase =>
    .other (by cases hbase <;> rfl)
  exact hlevels.level loc ty1 ty2 0 0 hty1 hty2 (hzero hbase1) (hzero hbase2)

/-- Pointers to integers and booleans have level one. -/
lemma JoinLevels.pointer (hlevels : JoinLevels env1 env2 levels) (h : Agree env1 env2)
    (hl1 : env1.lookupLoc loc = some (.strgRef l1)) (hl2 : env2.lookupLoc loc = some (.strgRef l2))
    (h1 : env1.HasScalar l1 bty) : levelOf levels loc = 1 := by
  obtain ⟨⟨ty2, hty2, hbase2⟩, -⟩ := h.hasScalar (h.pointee hl1 hl2 h1)
  obtain ⟨ty1, hty1, hbase1⟩ := h1
  have hzero : ∀ {env : TypeEnv} {ty : Ty}, ty.HasBase bty → env.HasLevel ty 0 := fun hbase =>
    .other (by cases hbase <;> rfl)
  exact hlevels.level loc _ _ 1 1 hl1 hl2 (.strgRef hty1 (hzero hbase1))
    (.strgRef hty2 (hzero hbase2))

/-- No pointer has level zero. -/
lemma JoinLevels.ne_zero (hlevels : JoinLevels env1 env2 levels) (h : Agree env1 env2)
    (hl1 : env1.lookupLoc loc = some (.strgRef l1))
    (hl2 : env2.lookupLoc loc = some (.strgRef l2)) : levelOf levels loc ≠ 0 := by
  obtain ⟨rust, hr1, hr2⟩ := h.erases hl1 hl2
  obtain ⟨k1, hk1⟩ := hr1.hasLevel
  obtain ⟨k2, hk2⟩ := hr2.hasLevel
  rw [hlevels.level loc _ _ k1 k2 hl1 hl2 hk1 hk2]
  cases hk1 with
  | strgRef => omega
  | other hty => exact absurd hty (by simp [Ty.isStrgRef])

/-- What pointers that differ lead to comes before them. -/
lemma JoinLevels.before (hlevels : JoinLevels env1 env2 levels) (h : Agree env1 env2)
    {done rest : List Loc} (hlist : sortedByLevel tcx levels = done ++ loc :: rest)
    (hl1 : env1.lookupLoc loc = some (.strgRef l1)) (hl2 : env2.lookupLoc loc = some (.strgRef l2))
    (h1 : env1.HasScalar l1 bty) {l : Loc} (hl : env1.HasScalar l bty) : l ∈ done := by
  have hzero := hlevels.scalar h hl
  have hone := hlevels.pointer h hl1 hl2 h1
  have hmem : l ∈ done ++ loc :: rest := by
    rw [← hlist, mem_sortedByLevel, hlevels.mem]
    obtain ⟨ty, hty, -⟩ := hl
    exact mem_of_lookupLoc hty
  have hsorted := sortedByLevel_pairwise tcx levels
  rw [hlist, List.pairwise_append, List.pairwise_cons] at hsorted
  rcases List.mem_append.mp hmem with hdone | hrest
  · exact hdone
  · rcases List.mem_cons.mp hrest with rfl | hrest
    · omega
    · have := hsorted.2.1.1 l hrest
      omega

end Levels

/-! ## The condition is enough -/

section Enough

variable {done rest : List Loc} {cur cur' : TypeEnv}

/-- What holds during a join under the condition. An integer or a boolean that is done has an
index only if it has that index in both environments. -/
structure Joined (env1 env2 : TypeEnv) (done : List Loc) (cur : TypeEnv) : Prop where
  scalar : ∀ ⦃loc ty bty⦄, env1.lookupLoc loc = some ty → ty.HasBase bty →
    ∃ ty', cur.lookupLoc loc = some ty' ∧ ty'.HasBase bty ∧ ∀ e, ty' = .refine bty e →
      ty = .refine bty e ∧ (loc ∈ done → env2.lookupLoc loc = some (.refine bty e))
  pointer : ∀ ⦃loc l⦄, loc ∉ done ∨ env2.lookupLoc loc = some (.strgRef l) →
    env1.lookupLoc loc = some (.strgRef l) → cur.lookupLoc loc = some (.strgRef l)
  differ : ∀ ⦃loc l1 l2⦄, loc ∈ done → env1.lookupLoc loc = some (.strgRef l1) →
    env2.lookupLoc loc = some (.strgRef l2) → l1 ≠ l2 →
    ∃ bty p, env1.HasScalar l1 bty ∧ cur.lookupLoc loc = some (.ref (.exists_ bty p))

/-- The join starts at the first environment. -/
lemma Joined.start (env1 env2 : TypeEnv) : Joined env1 env2 [] env1 where
  scalar _ ty _ hty hbase := ⟨ty, hty, hbase, fun _ h => ⟨h, fun h => absurd h (by simp)⟩⟩
  pointer _ _ _ h := h
  differ _ _ _ h := absurd h (by simp)

/-- An integer or a boolean is generalised. -/
lemma Joined.insert_exists (h : Joined env1 env2 done cur) (hloc : env1.HasScalar loc bty)
    (p : Pred) : Joined env1 env2 done (cur.insertLoc loc (.exists_ bty p)) := by
  obtain ⟨tyloc, htyloc, hbaseloc⟩ := hloc
  have hne : ∀ {l l' : Loc}, env1.lookupLoc l = some (.strgRef l') → l ≠ loc := by
    rintro l l' hl rfl
    obtain rfl := Option.some.inj (hl.symm.trans htyloc)
    cases hbaseloc
  refine ⟨fun l ty bty' hty hbase => ?_, fun l l' hl hl' => ?_, fun l l1 l2 hl hl1 hl2 hne12 => ?_⟩
  · by_cases hll : l = loc
    · subst hll
      obtain rfl := Option.some.inj (hty.symm.trans htyloc)
      obtain rfl := hbase.unique hbaseloc
      exact ⟨_, lookupLoc_insertLoc_self, .exists_ p, fun e he => nomatch he⟩
    · rw [lookupLoc_insertLoc_of_ne hll]
      exact h.scalar hty hbase
  · rw [lookupLoc_insertLoc_of_ne (hne hl')]
    exact h.pointer hl hl'
  · rw [lookupLoc_insertLoc_of_ne (hne hl1)]
    exact h.differ hl hl1 hl2 hne12

/-- Two pointers that differ become a reference. -/
lemma Joined.insert_ref (h : Joined env1 env2 done cur)
    (hl1 : env1.lookupLoc loc = some (.strgRef l1)) (hl2 : env2.lookupLoc loc = some (.strgRef l2))
    (hne : l1 ≠ l2) (hs : env1.HasScalar l1 bty) (p : Pred) :
    Joined env1 env2 (done ++ [loc]) (cur.insertLoc loc (.ref (.exists_ bty p))) := by
  refine ⟨fun l ty bty' hty hbase => ?_, fun l l' hl hl' => ?_,
    fun l l1' l2' hl hl1' hl2' hne12 => ?_⟩
  · have hll : l ≠ loc := by
      rintro rfl
      obtain rfl := Option.some.inj (hty.symm.trans hl1)
      cases hbase
    obtain ⟨ty', hty', hbase', hrefine⟩ := h.scalar hty hbase
    refine ⟨ty', by rwa [lookupLoc_insertLoc_of_ne hll], hbase', fun e he => ?_⟩
    exact ⟨(hrefine e he).1, fun hdone => (hrefine e he).2 (by simpa [hll] using hdone)⟩
  · have hll : l ≠ loc := by
      rintro rfl
      rcases hl with hl | hl
      · exact hl (by simp)
      · have h1 := Option.some.inj (hl'.symm.trans hl1)
        have h2 := Option.some.inj (hl.symm.trans hl2)
        exact hne ((Ty.strgRef.inj h1).symm.trans (Ty.strgRef.inj h2))
    rw [lookupLoc_insertLoc_of_ne hll]
    exact h.pointer (hl.imp (fun hl hdone => hl (by simp [hdone])) id) hl'
  · by_cases hll : l = loc
    · subst hll
      obtain rfl := Ty.strgRef.inj (Option.some.inj (hl1'.symm.trans hl1))
      exact ⟨bty, p, hs, lookupLoc_insertLoc_self⟩
    · rw [lookupLoc_insertLoc_of_ne hll]
      exact h.differ (by simpa [hll] using hl) hl1' hl2' hne12

/-- **A step of the join** under the condition. -/
lemma Joined.step (h : Joined env1 env2 done cur) (hagree : Agree env1 env2)
    (hjoin : Joinable env1 env2) (hloc : loc ∈ env1.bindings) (hnew : loc ∉ done)
    (hbefore : ∀ {l1 l2 l : Loc} {bty : BaseTy}, env1.lookupLoc loc = some (.strgRef l1) →
      env2.lookupLoc loc = some (.strgRef l2) → env1.HasScalar l1 bty → env1.HasScalar l bty →
      l ∈ done)
    (hstep : JoinStep env2 cur loc cur') : Joined env1 env2 (done ++ [loc]) cur' := by
  have hpointer : ∀ {l2 : Loc}, env2.lookupLoc loc = some (.strgRef l2) →
      ∃ l1, env1.lookupLoc loc = some (.strgRef l1) ∧ cur.lookupLoc loc = some (.strgRef l1) := by
    intro l2 hl2
    cases hagree.joins hjoin.toScalarPointers hloc with
    | scalar _ _ hty2 _ hbase2 =>
      obtain rfl := Option.some.inj (hl2.symm.trans hty2)
      cases hbase2
    | same hl1 _ => exact ⟨_, hl1, h.pointer (.inl hnew) hl1⟩
    | differ _ hl1 => exact ⟨_, hl1, h.pointer (.inl hnew) hl1⟩
  cases hstep with
  | @scalar bty ty ty1 ty2 hty1 hty2 hbase1 hbase2 hof =>
    have hscalar := (hagree.symm.hasScalar ⟨ty2, hty2, hbase2⟩).1
    obtain ⟨tyl, htyl, hbasel⟩ := hscalar
    refine ⟨fun l ty' bty' hty' hbase' => ?_, fun l l' hl hl' => ?_,
      fun l l1 l2 hl hl1 hl2 hne => ?_⟩
    · obtain ⟨tyc, htyc, hbasec, hrefine⟩ := h.scalar hty' hbase'
      by_cases hll : l = loc
      · subst hll
        obtain rfl := Option.some.inj (hty1.symm.trans htyc)
        obtain rfl := hbase1.unique hbasec
        refine ⟨ty, lookupLoc_insertLoc_self, hof.base, fun e he => ?_⟩
        obtain ⟨he1, rfl⟩ := (hof.refine_iff e).mp he
        exact ⟨(hrefine e he1).1, fun _ => hty2⟩
      · refine ⟨tyc, by rwa [lookupLoc_insertLoc_of_ne hll], hbasec, fun e he => ?_⟩
        exact ⟨(hrefine e he).1, fun hdone => (hrefine e he).2 (by simpa [hll] using hdone)⟩
    · have hll : l ≠ loc := by
        rintro rfl
        obtain rfl := Option.some.inj (hl'.symm.trans htyl)
        cases hbasel
      rw [lookupLoc_insertLoc_of_ne hll]
      exact h.pointer (hl.imp (fun hl hdone => hl (by simp [hdone])) id) hl'
    · have hll : l ≠ loc := by
        rintro rfl
        obtain rfl := Option.some.inj (hl1.symm.trans htyl)
        cases hbasel
      rw [lookupLoc_insertLoc_of_ne hll]
      exact h.differ (by simpa [hll] using hl) hl1 hl2 hne
  | @same l hl1 hl2 =>
    obtain ⟨l', henv1, hcur⟩ := hpointer hl2
    obtain rfl := Ty.strgRef.inj (Option.some.inj (hl1.symm.trans hcur))
    have hlookup : ∀ l', (cur.insertLoc loc (.strgRef l)).lookupLoc l' = cur.lookupLoc l' := by
      intro l'
      by_cases hll : l' = loc
      · rw [hll, lookupLoc_insertLoc_self, hl1]
      · rw [lookupLoc_insertLoc_of_ne hll]
    refine ⟨fun l' ty bty hty hbase => ?_, fun l' l'' hl hl' => ?_,
      fun l' l1 l2 hl hl1' hl2' hne => ?_⟩
    · have hll : l' ≠ loc := by
        rintro rfl
        obtain rfl := Option.some.inj (hty.symm.trans henv1)
        cases hbase
      obtain ⟨ty', hty', hbase', hrefine⟩ := h.scalar hty hbase
      refine ⟨ty', by rwa [hlookup], hbase', fun e he => ?_⟩
      exact ⟨(hrefine e he).1, fun hdone => (hrefine e he).2 (by simpa [hll] using hdone)⟩
    · rw [hlookup]
      by_cases hll : l' = loc
      · subst hll
        exact h.pointer (.inl hnew) hl'
      · exact h.pointer (hl.imp (fun hl hdone => hl (by simp [hdone])) id) hl'
    · have hll : l' ≠ loc := by
        rintro rfl
        have h1 := Ty.strgRef.inj (Option.some.inj (hl1'.symm.trans henv1))
        have h2 := Ty.strgRef.inj (Option.some.inj (hl2'.symm.trans hl2))
        exact hne (h1.trans h2.symm)
      rw [hlookup]
      exact h.differ (by simpa [hll] using hl) hl1' hl2' hne
  | @differ l1 l2 bty ty ty1 ty2 hl1 hl2 hne hty1 hty2 hbase1 hbase2 hof =>
    obtain ⟨l1', henv1, hcur⟩ := hpointer hl2
    obtain rfl := Ty.strgRef.inj (Option.some.inj (hl1.symm.trans hcur))
    obtain ⟨bty', hs1⟩ := hjoin.scalar henv1 hl2 hne
    have hs2 := hagree.pointee henv1 hl2 hs1
    obtain ⟨ty1', hty1', hbase1'⟩ := id hs1
    obtain ⟨tyc1, htyc1, hbasec1, hrefine1⟩ := h.scalar hty1' hbase1'
    obtain rfl := Option.some.inj (hty1.symm.trans htyc1)
    obtain rfl := hbase1.unique hbasec1
    obtain ⟨ty2', hty2', hbase2'⟩ := id hs2
    obtain ⟨tyc2, htyc2, hbasec2, hrefine2⟩ := h.scalar hty2' hbase2'
    obtain rfl := Option.some.inj (hty2.symm.trans htyc2)
    -- an index would be that of both places in both environments
    obtain ⟨p, rfl⟩ : ∃ p, ty = .exists_ bty p := by
      cases hof.base with
      | exists_ p => exact ⟨p, rfl⟩
      | refine e =>
        obtain ⟨he1, he2⟩ := (hof.refine_iff e).mp rfl
        obtain ⟨rfl, hother1⟩ := hrefine1 e he1
        obtain ⟨rfl, hother2⟩ := hrefine2 e he2
        exact absurd ⟨⟨hty1', hother1 (hbefore henv1 hl2 hs1 hs1)⟩, hty2',
          hother2 (hbefore henv1 hl2 hs1 hs2)⟩ (hjoin.index henv1 hl2 hne bty e)
    exact ((h.insert_exists hs1 p).insert_exists hs2 p).insert_ref henv1 hl2 hne hs1 p

/-- A run of steps under the condition. -/
lemma Joined.run {levels : Levels} (hlevels : JoinLevels env1 env2 levels)
    (hagree : Agree env1 env2) (hjoin : Joinable env1 env2) {env : TypeEnv}
    (hrun : JoinRun env2 (sortedByLevel tcx levels) env1 env) :
    Joined env1 env2 (sortedByLevel tcx levels) env := by
  suffices hrun : ∀ (rest done : List Loc) (cur : TypeEnv),
      sortedByLevel tcx levels = done ++ rest → Joined env1 env2 done cur →
      JoinRun env2 rest cur env → Joined env1 env2 (done ++ rest) env by
    simpa using hrun (sortedByLevel tcx levels) [] env1 (by simp) (.start env1 env2) ‹_›
  intro rest
  induction rest with
  | nil =>
    intro done cur _ h hrun
    cases hrun
    simpa using h
  | cons loc rest ih =>
    intro done cur hlist h hrun
    have hnodup := sortedByLevel_nodup tcx levels
    rw [hlist] at hnodup
    have hnew : loc ∉ done := fun hdone =>
      List.disjoint_of_nodup_append hnodup hdone (.head _)
    have hloc : loc ∈ env1.bindings :=
      (hlevels.mem loc).mp ((mem_sortedByLevel tcx).mp (by simp [hlist]))
    cases hrun with
    | cons hstep hrun =>
      have h' := h.step hagree hjoin hloc hnew
        (fun hl1 hl2 hs hl => hlevels.before hagree hlist hl1 hl2 hs hl) hstep
      simpa using ih (done ++ [loc]) _ (by simp [hlist]) h' hrun

/-- Both environments fit with what is made from their join. -/
lemma Joined.fits {kvars : KVars} {tyS ty1 : Ty} (h : Joined env1 env2 done env)
    (hdone : loc ∈ done) (hagree : Agree env1 env2) (hjoin : Joinable env1 env2)
    (hkvars : CollectsKvars kvars tyS.walk) (htyS : env.lookupLoc loc = some tyS)
    (hty1 : env1.lookupLoc loc = some ty1) :
    ∃ ty, inferTy kvars tyS ty1 = some ty ∧ ∀ bbEnv : TypeEnv, bbEnv.lookupLoc loc = some ty →
      Fits SameScalar env1 bbEnv loc ∧ Fits SameScalar env2 bbEnv loc := by
  cases hagree.joins hjoin.toScalarPointers (mem_of_lookupLoc hty1) with
  | @scalar bty ty1' ty2 hbty hty1' hty2 hbase1 hbase2 =>
    obtain rfl := Option.some.inj (hty1.symm.trans hty1')
    obtain ⟨tyS', htyS', hbaseS, -⟩ := h.scalar hty1' hbase1
    obtain rfl := Option.some.inj (htyS.symm.trans htyS')
    obtain ⟨ty, hty, hbase⟩ : ∃ ty, inferTy kvars tyS ty1 = some ty ∧ ty.HasBase bty := by
      have hreplace := replaceKvars_scalar hbty hbaseS hkvars
      cases hbaseS with
      | refine e =>
        cases hbase1 with
        | refine e1 => exact ⟨_, rfl, .refine e1⟩
        | exists_ p1 => exact hreplace
      | exists_ p =>
        cases hbase1 with
        | refine e1 => exact hreplace
        | exists_ p1 => exact hreplace
    exact ⟨ty, hty, fun bbEnv hbb => ⟨.scalar hty1' hbb hbase1 hbase ⟨rfl, hbty⟩,
      .scalar hty2 hbb hbase2 hbase ⟨rfl, hbty⟩⟩⟩
  | @same l hl1 hl2 =>
    obtain rfl := Option.some.inj (hty1.symm.trans hl1)
    obtain rfl := Option.some.inj (htyS.symm.trans (h.pointer (.inr hl2) hl1))
    exact ⟨_, rfl, fun bbEnv hbb => ⟨.strgRef hl1 hbb, .strgRef hl2 hbb⟩⟩
  | @differ l1 l2 bty tyl1 tyl2 hbty hl1 hl2 hne htyl1 htyl2 hbase1 hbase2 =>
    obtain ⟨bty', p, hs1, hS⟩ := h.differ hdone hl1 hl2 hne
    obtain rfl := Option.some.inj (hty1.symm.trans hl1)
    obtain rfl := Option.some.inj (htyS.symm.trans hS)
    obtain ⟨tyl1', htyl1', hbase1'⟩ := id hs1
    obtain rfl := Option.some.inj (htyl1.symm.trans htyl1')
    obtain rfl := hbase1.unique hbase1'
    obtain ⟨p', hp'⟩ := replaceKvars_ref_exists hbty hkvars
    obtain ⟨tyl2', htyl2', hbase2'⟩ := (hagree.hasScalar (hagree.pointee hl1 hl2 hs1)).1
    exact ⟨_, hp', fun bbEnv hbb => ⟨.ref hl1 hbb htyl1 hbase1 ⟨rfl, hbty⟩,
      .ref hl2 hbb htyl2' hbase2' ⟨rfl, hbty⟩⟩⟩

/-- **Under the condition the join is replayed.** -/
lemma Joinable.joinReplays (hjoin : Joinable env1 env2) (hagree : Agree env1 env2)
    (hstack : 2 < tcx.stack)
    (hlevel1 : ∀ loc ty, env1.lookupLoc loc = some ty → ∃ k, env1.HasLevel ty k ∧ k < tcx.stack)
    (hlevel2 : ∀ loc ty, env2.lookupLoc loc = some ty → ∃ k, env2.HasLevel ty k ∧ k < tcx.stack) :
    JoinReplays tcx env1 env2 := by
  intro c hc
  have hjoins : ∀ loc ∈ env1.bindings, Joins env1 env2 loc :=
    fun loc hloc => hagree.joins hjoin.toScalarPointers hloc
  refine wp_mono (wp_and (wp_joinWith_run hstack hagree.strong1 hagree.strong2 hagree.mem
    hagree.symm.ne_uninit hlevel1 hlevel2 hjoins hc)
    (hagree.wp_joinWith c)) ?_
    fun _ hf => hf.1
  rintro env _ ⟨⟨levels, hlevels, hrun⟩, hcoarsens⟩ c hc
  have hjoined := Joined.run hlevels hagree hjoin hrun
  have hdone : ∀ loc ∈ env1.bindings, loc ∈ sortedByLevel tcx levels := fun loc hloc =>
    (mem_sortedByLevel tcx).mpr ((hlevels.mem loc).mpr hloc)
  have hcollect : ∀ {kvars : KVars} {loc : Loc} {ty : Ty},
      CollectsKvars kvars ((env.intoShape tcx).flatMap fun p => p.2.walk) →
      (loc, ty) ∈ env.intoShape tcx → CollectsKvars kvars ty.walk := by
    intro kvars loc ty hkvars hty bty kvid args hwalk
    exact hkvars bty kvid args (List.mem_flatMap.mpr ⟨(loc, ty), hty, hwalk⟩)
  have hpointers : ∀ loc l, (loc, Ty.strgRef l) ∈ env.intoShape tcx →
      ∀ l', env1.lookupLoc loc = some (.strgRef l') → l = l' := by
    intro loc l hl l' hl'
    have h1 := hcoarsens.strgRef loc l (mem_intoShape.mp hl)
    exact Ty.strgRef.inj (Option.some.inj (h1.symm.trans hl'))
  refine wp_mono (wp_inferBbEnv hpointers hc) ?_ ?_
  · intro bbEnv _ hinfer c hc
    have hmem : ∀ loc, loc ∈ env1.bindings → loc ∈ bbEnv.bindings := by
      intro loc hloc
      obtain ⟨ty, hty⟩ := exists_lookupLoc ((hcoarsens.mem loc).mpr hloc)
      exact (hinfer.mem loc).mpr ⟨ty, mem_intoShape.mpr hty⟩
    have hfits : ∀ loc ∈ env1.bindings,
        Fits SameScalar env1 bbEnv loc ∧ Fits SameScalar env2 bbEnv loc := by
      intro loc hloc
      obtain ⟨ty, hty⟩ := exists_lookupLoc (hmem loc hloc)
      obtain ⟨kvars, tyS, ty1, hkvars, hshape, hty1, hinferTy⟩ := hinfer.lookup loc ty hty
      obtain ⟨ty', hty', hfits⟩ := hjoined.fits (hdone loc hloc) hagree hjoin
        (hcollect hkvars hshape) (mem_intoShape.mp hshape) hty1
      exact hfits bbEnv (hty.trans (hinferTy.symm.trans hty'))
    have huninit : ∀ loc, bbEnv.lookupLoc loc ≠ some .uninit := by
      intro loc hty
      obtain ⟨ty, hty'⟩ := (hinfer.mem loc).mp (mem_of_lookupLoc hty)
      have hloc := (hcoarsens.mem loc).mp (mem_of_lookupLoc (mem_intoShape.mp hty'))
      cases (hfits loc hloc).1 with
      | scalar _ h2 _ hbase =>
        obtain rfl := Option.some.inj (hty.symm.trans h2)
        cases hbase
      | strgRef _ h2 => exact absurd (hty.symm.trans h2) (by simp)
      | ref _ h2 => exact absurd (hty.symm.trans h2) (by simp)
    constructor
    · exact wp_transformInto_of_fits hagree.strong1 hinfer.strong hmem
        huninit hlevel1 (fun loc h => (hfits loc h).1) hc
    · exact wp_transformInto_of_fits hagree.strong2 hinfer.strong
        (fun loc h => hmem loc ((hagree.mem loc).mpr h)) huninit hlevel2
        (fun loc h => (hfits loc ((hagree.mem loc).mpr h)).2) hc
  · rintro _ ⟨⟨loc, tyS⟩, hp, hnot⟩
    have htyS := mem_intoShape.mp hp
    have hloc := (hcoarsens.mem loc).mp (mem_of_lookupLoc htyS)
    obtain ⟨ty1, hty1⟩ := exists_lookupLoc hloc
    obtain ⟨kvars, hkvars, hnone⟩ := hnot ty1 hty1
    obtain ⟨ty, hty, -⟩ := hjoined.fits (hdone loc hloc) hagree hjoin (hcollect hkvars hp) htyS hty1
    exact absurd (hnone.symm.trans hty) (by simp)

end Enough

/-! ## The condition is needed -/

section Needed

variable {locs rest : List Loc} {e : Expr} {r : Loc}

/-- A type is uninitialised only if it was so in the shape or in the environment. -/
lemma inferTy_ne_uninit {kvars : KVars} {ty1 ty2 : Ty} (h1 : ty1 ≠ .uninit) (h2 : ty2 ≠ .uninit) :
    inferTy kvars ty1 ty2 ≠ some .uninit := by
  have hreplace : replaceKvars kvars ty1 ≠ some .uninit := by
    cases ty1 with
    | uninit => exact absurd rfl h1
    | exists_ bty p => cases p <;> simp [replaceKvars, Option.bind_eq_some_iff]
    | _ => simp [replaceKvars, Option.bind_eq_some_iff]
  unfold inferTy
  split
  · simp
  · simp
  · exact absurd rfl h2
  · exact hreplace

/-- An operation that completes has a result with what holds of all results. -/
lemma exists_of_completes {α : Type} {m : CursorM α} {Q P : α → Cursor → Prop} {c : Cursor}
    (h : wp m Q (fun _ => False) c) (hP : wp m P (fun _ => True) c) : ∃ a c', Q a c' ∧ P a c' := by
  obtain ⟨a, c', hrun, hQ⟩ := exists_run_of_wp h
  exact ⟨a, c', hQ, wp_of_run_ok hP hrun⟩

/-- **Where a join is replayed**, both environments fit with what is made from it. -/
lemma JoinReplays.exists_fits (h : JoinReplays tcx env1 env2) (hagree : Agree env1 env2)
    {P : TypeEnv → Prop} (hP : wp (env1.joinWith tcx env2) (fun env _ => P env) (fun _ => True)
      ConstraintBuilder.new.asCursor) :
    ∃ env bbEnv, P env ∧ InfersFrom env1 (env.intoShape tcx) bbEnv ∧
      ∀ loc ∈ env1.bindings, Fits (fun _ _ => True) env1 bbEnv loc ∧
        Fits (fun _ _ => True) env2 bbEnv loc := by
  obtain ⟨env, _, hinfer, hPenv, hcoarsens⟩ := exists_of_completes (h valid_new)
    (wp_mono (wp_and hP (hagree.wp_joinWith _)) (fun _ _ h => h) fun _ _ => trivial)
  have hpointers : ∀ loc l, (loc, Ty.strgRef l) ∈ env.intoShape tcx →
      ∀ l', env1.lookupLoc loc = some (.strgRef l') → l = l' := by
    intro loc l hl l' hl'
    have h1 := hcoarsens.strgRef loc l (mem_intoShape.mp hl)
    exact Ty.strgRef.inj (Option.some.inj (h1.symm.trans hl'))
  obtain ⟨bbEnv, _, htransform, hinfers⟩ := exists_of_completes (hinfer valid_new)
    (wp_mono (wp_inferBbEnv hpointers valid_new) (fun _ _ h => h) fun _ _ => trivial)
  have hmem : ∀ loc, loc ∈ env1.bindings → loc ∈ bbEnv.bindings := by
    intro loc hloc
    obtain ⟨ty, hty⟩ := exists_lookupLoc ((hcoarsens.mem loc).mpr hloc)
    exact (hinfers.mem loc).mpr ⟨ty, mem_intoShape.mpr hty⟩
  have huninit : ∀ loc, bbEnv.lookupLoc loc ≠ some .uninit := by
    intro loc hty
    obtain ⟨kvars, tyS, ty1, -, hshape, hty1, hinferTy⟩ := hinfers.lookup loc _ hty
    refine inferTy_ne_uninit (fun hu => ?_) (fun hu => ?_) hinferTy
    · refine (hcoarsens.uninit loc (mem_intoShape.mp (hu ▸ hshape))).elim ?_ (fun h => h.elim)
      exact hagree.ne_uninit loc
    · exact hagree.ne_uninit loc (hu ▸ hty1)
  obtain ⟨h1, h2⟩ := htransform valid_new
  obtain ⟨_, _, -, hfits1⟩ := exists_of_completes h1
    (wp_transformInto_fits hmem huninit hagree.ne_param)
  obtain ⟨_, _, -, hfits2⟩ := exists_of_completes h2
    (wp_transformInto_fits (fun loc hloc => hmem loc ((hagree.mem loc).mpr hloc)) huninit
      hagree.symm.ne_param)
  exact ⟨env, bbEnv, hPenv, hinfers, fun loc hloc =>
    ⟨hfits1 loc hloc, hfits2 loc ((hagree.mem loc).mp hloc)⟩⟩

/-- Pointers that differ have to lead to integers or booleans. -/
lemma JoinReplays.scalarPointers (h : JoinReplays tcx env1 env2) (hagree : Agree env1 env2) :
    ScalarPointers env1 env2 := by
  obtain ⟨env, bbEnv, -, -, hfits⟩ := h.exists_fits hagree
    (P := fun _ => True) (wp_of_forall (fun _ _ => trivial) fun _ => trivial)
  have hnoRef : ∀ {env bbEnv : TypeEnv} {loc : Loc}, Fits (fun _ _ => True) env bbEnv loc →
      ∀ ty, env.lookupLoc loc ≠ some (.ref ty) := by
    intro env bbEnv loc hfits ty hty
    cases hfits with
    | scalar h1 _ hbase =>
      obtain rfl := Option.some.inj (hty.symm.trans h1)
      cases hbase
    | strgRef h1 _ => exact absurd (hty.symm.trans h1) (by simp)
    | ref h1 _ => exact absurd (hty.symm.trans h1) (by simp)
  refine ⟨fun loc ty hty => hnoRef (hfits loc (mem_of_lookupLoc hty)).1 ty hty,
    fun loc ty hty => hnoRef (hfits loc ((hagree.mem loc).mpr (mem_of_lookupLoc hty))).2 ty hty,
    fun loc l1 l2 hl1 hl2 hne => ?_⟩
  obtain ⟨hfits1, hfits2⟩ := hfits loc (mem_of_lookupLoc hl1)
  cases hfits1 with
  | scalar h1 _ hbase =>
    obtain rfl := Option.some.inj (hl1.symm.trans h1)
    cases hbase
  | ref h1 _ hty hbase =>
    obtain rfl := Ty.strgRef.inj (Option.some.inj (hl1.symm.trans h1))
    exact ⟨_, _, hty, hbase⟩
  | strgRef h1 hbb1 =>
    -- the other environment has another pointer, which would have to be the same
    cases hfits2 with
    | scalar h2 _ hbase =>
      obtain rfl := Option.some.inj (hl2.symm.trans h2)
      cases hbase
    | ref _ hbb2 => exact absurd (hbb1.symm.trans hbb2) (by simp)
    | strgRef h2 hbb2 =>
      have h1' := Ty.strgRef.inj (Option.some.inj (hl1.symm.trans h1))
      have h2' := Ty.strgRef.inj (Option.some.inj (hl2.symm.trans h2))
      have hbb := Ty.strgRef.inj (Option.some.inj (hbb1.symm.trans hbb2))
      exact absurd (h1'.trans (hbb.trans h2'.symm)) hne

/-- Steps at integers and booleans leave the pointers, and indices that are the same. -/
lemma JoinRun.scalars (hrun : JoinRun env2 locs env1 env)
    (hlocs : ∀ l ∈ locs, ∃ bty, env2.HasScalar l bty) (hnodup : locs.Nodup) :
    (∀ l, l ∉ locs → env.lookupLoc l = env1.lookupLoc l) ∧
      ∀ l bty e, env1.lookupLoc l = some (.refine bty e) → env2.lookupLoc l = some (.refine bty e) →
        env.lookupLoc l = some (.refine bty e) := by
  induction hrun with
  | nil env => exact ⟨fun _ _ => rfl, fun _ _ _ h _ => h⟩
  | @cons loc locs env env' env'' hstep _ ih =>
    obtain ⟨hnew, hnodup⟩ := List.nodup_cons.mp hnodup
    obtain ⟨hrest, hrefine⟩ := ih (fun l hl => hlocs l (.tail _ hl)) hnodup
    obtain ⟨bty, ty2, hty2, hbase2⟩ := hlocs loc (.head _)
    cases hstep with
    | same _ hl =>
      obtain rfl := Option.some.inj (hl.symm.trans hty2)
      cases hbase2
    | differ _ hl =>
      obtain rfl := Option.some.inj (hl.symm.trans hty2)
      cases hbase2
    | @scalar bty' ty ty1 ty2' hty1 hty2' hbase1 hbase2' hof =>
      refine ⟨fun l hl => ?_, fun l btyl e hl1 hl2 => ?_⟩
      · obtain ⟨hne, hl⟩ := not_or.mp (fun h => hl (List.mem_cons.mpr h))
        rw [hrest l hl, lookupLoc_insertLoc_of_ne hne]
      · refine hrefine l btyl e ?_ hl2
        by_cases hll : l = loc
        · subst hll
          obtain rfl := Option.some.inj (hl1.symm.trans hty1)
          obtain rfl := Option.some.inj (hl2.symm.trans hty2')
          obtain rfl := hbase1.unique (.refine e)
          rw [lookupLoc_insertLoc_self, (hof.refine_iff e).mpr ⟨rfl, rfl⟩]
        · rwa [lookupLoc_insertLoc_of_ne hll]

/-- A reference that was made stays. -/
lemma JoinRun.ref_stays (hrun : JoinRun env2 locs env1 env) {ty : Ty}
    (hr : env1.lookupLoc r = some (.ref ty)) (hnew : r ∉ locs) :
    env.lookupLoc r = some (.ref ty) := by
  induction hrun with
  | nil env => exact hr
  | @cons loc locs env env' env'' hstep _ ih =>
    obtain ⟨hne, hnew⟩ := not_or.mp (fun h => hnew (List.mem_cons.mpr h))
    refine ih ?_ hnew
    cases hstep with
    | scalar => rwa [lookupLoc_insertLoc_of_ne hne]
    | same => rwa [lookupLoc_insertLoc_of_ne hne]
    | @differ l1 l2 bty ty ty1 ty2 _ _ _ hty1 hty2 hbase1 hbase2 _ =>
      have hl1 : r ≠ l1 := by
        rintro rfl
        obtain rfl := Option.some.inj (hr.symm.trans hty1)
        cases hbase1
      have hl2 : r ≠ l2 := by
        rintro rfl
        obtain rfl := Option.some.inj (hr.symm.trans hty2)
        cases hbase2
      rwa [lookupLoc_insertLoc_of_ne hne, lookupLoc_insertLoc_of_ne hl2,
        lookupLoc_insertLoc_of_ne hl1]

/-- Surroundings where a location comes first in hash maps. -/
def firstTcx (r : Loc) (stack : ℕ) : Tcx where
  variancesOf := fun _ => []
  hashOrder := fun locs => if r ∈ locs then r :: locs.erase r else locs
  hashOrder_perm := by
    intro locs
    split
    · next hr => exact (List.perm_cons_erase hr).symm
    · exact .refl _
  stack := stack

/-- In a list without repetitions, what comes after an element in a part of the list comes after
it in the list. -/
lemma mem_of_pair_sublist {done : List Loc} {l : Loc} (h : [r, l].Sublist (done ++ r :: rest))
    (hnodup : (done ++ r :: rest).Nodup) : l ∈ rest := by
  have hdone : r ∉ done := fun hr => List.disjoint_of_nodup_append hnodup hr (.head _)
  obtain ⟨xs, ys, heq, hxs, hys⟩ := List.sublist_append_iff.mp h
  cases xs with
  | nil =>
    rw [List.nil_append] at heq
    subst heq
    cases hys with
    | cons _ hys => exact hys.subset (by simp)
    | cons_cons _ hys => exact hys.subset (by simp)
  | cons x xs =>
    obtain ⟨rfl, -⟩ := List.cons.inj heq
    exact absurd (hxs.subset (by simp)) hdone

/-- The first pointer of a join: only integers and booleans come before it. -/
lemma JoinLevels.first {stack : ℕ} {levels : Levels} (hlevels : JoinLevels env1 env2 levels)
    (hagree : Agree env1 env2) (hp : ScalarPointers env1 env2)
    (hl1 : env1.lookupLoc r = some (.strgRef l1)) (hl2 : env2.lookupLoc r = some (.strgRef l2))
    (hs : env1.HasScalar l1 bty) {done : List Loc}
    (hlist : sortedByLevel (firstTcx r stack) levels = done ++ r :: rest) :
    ∀ l ∈ done, ∃ bty, env2.HasScalar l bty := by
  intro l hl
  have hnodup := sortedByLevel_nodup (firstTcx r stack) levels
  rw [hlist] at hnodup
  have hmem : ∀ l ∈ done ++ r :: rest, l ∈ levels := fun l hl =>
    (mem_sortedByLevel (firstTcx r stack)).mp (hlist ▸ hl)
  have hlmem := hmem l (List.mem_append_left _ hl)
  have hne : l ≠ r := by
    rintro rfl
    exact List.disjoint_of_nodup_append hnodup hl (.head _)
  have hone := hlevels.pointer hagree hl1 hl2 hs
  have hzero : levelOf levels l = 0 := by
    by_contra hpos
    have hsub : [r, l].Sublist ((firstTcx r stack).hashOrder levels.keys) := by
      have hr : r ∈ levels.keys := AList.mem_keys.mp (hmem r (by simp))
      have hl : l ∈ levels.keys.erase r :=
        (List.mem_erase_of_ne hne).mpr (AList.mem_keys.mp hlmem)
      simp only [firstTcx, if_pos hr]
      exact (List.singleton_sublist.mpr hl).cons_cons r
    have hsorted := sortedByLevel_stable (firstTcx r stack) hsub (by omega)
    rw [hlist] at hsorted
    have hrest := mem_of_pair_sublist hsorted hnodup
    exact List.disjoint_of_nodup_append hnodup hl (.tail _ hrest)
  -- a pointer would have a higher level
  cases hagree.joins hp ((hlevels.mem l).mp hlmem) with
  | scalar _ _ hty2 _ hbase2 => exact ⟨_, _, hty2, hbase2⟩
  | same h1 h2 => exact absurd hzero (hlevels.ne_zero hagree h1 h2)
  | differ _ h1 h2 => exact absurd hzero (hlevels.ne_zero hagree h1 h2)

/-- **The condition holds where a join is replayed**, in whatever order hash maps are iterated. -/
lemma joinable_of_joinReplays (hagree : Agree env1 env2) {n : ℕ}
    (h : ∀ tcx : Tcx, n ≤ tcx.stack → JoinReplays tcx env1 env2) : Joinable env1 env2 := by
  have hp := (h (Tcx.ofStack n) le_rfl).scalarPointers hagree
  refine ⟨hp, fun r l1 l2 hl1 hl2 hne bty e ⟨⟨h11, h21⟩, h12, h22⟩ => ?_⟩
  obtain ⟨m, hm, hlevel1, hlevel2⟩ := hagree.exists_stack
  have hlevel : ∀ {env : TypeEnv},
      (∀ loc ty, env.lookupLoc loc = some ty → ∃ k, env.HasLevel ty k ∧ k < m) →
      ∀ loc ty, env.lookupLoc loc = some ty →
        ∃ k, env.HasLevel ty k ∧ k < (firstTcx r (max n m)).stack := by
    intro env hlevel loc ty hty
    obtain ⟨k, hk, hlt⟩ := hlevel loc ty hty
    exact ⟨k, hk, hlt.trans_le (le_max_right n m)⟩
  have hrun := wp_joinWith_run
    (show 2 < (firstTcx r (max n m)).stack from hm.trans_le (le_max_right n m))
    hagree.strong1 hagree.strong2 hagree.mem hagree.symm.ne_uninit (hlevel hlevel1)
    (hlevel hlevel2) (fun loc hloc => hagree.joins hp hloc) valid_new
  obtain ⟨env, bbEnv, ⟨levels, hlevels, hrun⟩, hinfer, hfits⟩ :=
    (h (firstTcx r (max n m)) (le_max_left n m)).exists_fits hagree
      (wp_mono hrun (fun _ _ h => h) fun _ _ => trivial)
  have hs1 : env1.HasScalar l1 bty := ⟨_, h11, .refine e⟩
  have hr : r ∈ sortedByLevel (firstTcx r (max n m)) levels :=
    (mem_sortedByLevel _).mpr ((hlevels.mem r).mpr (mem_of_lookupLoc hl1))
  obtain ⟨done, rest, hlist⟩ := List.append_of_mem hr
  have hnodup := sortedByLevel_nodup (firstTcx r (max n m)) levels
  rw [hlist] at hnodup hrun
  obtain ⟨env', hrun1, hrun2⟩ := hrun.of_append
  obtain ⟨hstay, hrefine⟩ := hrun1.scalars (hlevels.first hagree hp hl1 hl2 hs1 hlist)
    (List.nodup_append.mp hnodup).1
  have hrdone : r ∉ done := fun hr => List.disjoint_of_nodup_append hnodup hr (.head _)
  have hrenv' := (hstay r hrdone).trans hl1
  -- the two places have one index when the pointers to them are joined
  have hS : env.lookupLoc r = some (.ref (.refine bty e)) := by
    cases hrun2 with
    | cons hstep hrun2 =>
      have hrrest := (List.nodup_cons.mp (List.nodup_append.mp hnodup).2.1).1
      cases hstep with
      | scalar hty1 _ hbase1 =>
        obtain rfl := Option.some.inj (hrenv'.symm.trans hty1)
        cases hbase1
      | same hl hl' =>
        obtain rfl := Ty.strgRef.inj (Option.some.inj (hrenv'.symm.trans hl))
        obtain rfl := Ty.strgRef.inj (Option.some.inj (hl2.symm.trans hl'))
        exact absurd rfl hne
      | differ hl hl' _ hty1 hty2 hbase1 hbase2 hof =>
        obtain rfl := Ty.strgRef.inj (Option.some.inj (hrenv'.symm.trans hl))
        obtain rfl := Ty.strgRef.inj (Option.some.inj (hl2.symm.trans hl'))
        obtain rfl := Option.some.inj ((hrefine l1 bty e h11 h21).symm.trans hty1)
        obtain rfl := Option.some.inj ((hrefine l2 bty e h12 h22).symm.trans hty2)
        obtain rfl := hbase1.unique (.refine e)
        have hof' := (hof.refine_iff e).mpr ⟨rfl, rfl⟩
        exact hrun2.ref_stays (hof' ▸ lookupLoc_insertLoc_self) hrrest
  obtain ⟨ty, hty⟩ := exists_lookupLoc ((hinfer.mem r).mpr ⟨_, mem_intoShape.mpr hS⟩)
  obtain ⟨kvars, tyS, ty1, -, hshape, hty1, hinferTy⟩ := hinfer.lookup r ty hty
  obtain rfl := Option.some.inj ((mem_intoShape.mp hshape).symm.trans hS)
  obtain rfl := Option.some.inj (hty1.symm.trans hl1)
  obtain rfl := Option.some.inj (replaceKvars_ref_refine.symm.trans hinferTy)
  cases (hfits r (mem_of_lookupLoc hl1)).1 with
  | scalar h1 _ hbase =>
    obtain rfl := Option.some.inj (hl1.symm.trans h1)
    cases hbase
  | strgRef _ h2 => exact absurd (hty.symm.trans h2) (by simp)
  | ref _ h2 => exact absurd (hty.symm.trans h2) (by simp)

end Needed

/-! ## The result -/

/-- **A join is replayed**, with a stack that is large enough and in whatever order hash maps are
iterated, iff the condition holds.

**Proof sketch.** Under the condition the join keeps an invariant of the locations that are done:
integers and booleans are generalised with the indices that differ, and pointers that differ have
become references to existentials, which both environments fit with (`Joined`). Conversely, the
pointer at which the condition fails is the first one that the join comes to in some order of the
hash map. It becomes a reference with an index, and no pointer can be transformed into that. -/
theorem joinReplays_iff (h : Agree env1 env2) :
    (∃ n, ∀ tcx : Tcx, n ≤ tcx.stack → JoinReplays tcx env1 env2) ↔ Joinable env1 env2 := by
  constructor
  · rintro ⟨n, hreplays⟩
    exact joinable_of_joinReplays h hreplays
  · intro hjoin
    obtain ⟨n, hn, hlevel1, hlevel2⟩ := h.exists_stack
    refine ⟨n, fun tcx hstack => hjoin.joinReplays h (by omega) (fun loc ty hty => ?_)
      fun loc ty hty => ?_⟩
    · obtain ⟨k, hk, hlt⟩ := hlevel1 loc ty hty
      exact ⟨k, hk, by omega⟩
    · obtain ⟨k, hk, hlt⟩ := hlevel2 loc ty hty
      exact ⟨k, hk, by omega⟩

/-- The type of an integer with the given index. -/
def indexedTy (x : ℕ) : Ty :=
  .refine (.int .i32) (.constant (.int .positive x))

/-- Two integers with the given indices, and a pointer to one of them. -/
def pointerEnv (x y : ℕ) (l : Local) : TypeEnv :=
  ((new.insertLoc (.local_ 1) (indexedTy x)).insertLoc (.local_ 2) (indexedTy y)).insertLoc
    (.local_ 3) (.strgRef (.local_ l))

/-- The types of the three locals. -/
lemma lookupLoc_pointerEnv {x y : ℕ} {l : Local} {ty : Ty}
    (h : (pointerEnv x y l).lookupLoc loc = some ty) :
    (loc = .local_ 3 ∧ ty = .strgRef (.local_ l)) ∨ (loc = .local_ 2 ∧ ty = indexedTy y) ∨
      loc = .local_ 1 ∧ ty = indexedTy x := by
  by_cases h3 : loc = .local_ 3
  · subst h3
    exact .inl ⟨rfl, (Option.some.inj (lookupLoc_insertLoc_self.symm.trans h)).symm⟩
  rw [pointerEnv, lookupLoc_insertLoc_of_ne h3] at h
  by_cases h2 : loc = .local_ 2
  · subst h2
    exact .inr (.inl ⟨rfl, (Option.some.inj (lookupLoc_insertLoc_self.symm.trans h)).symm⟩)
  rw [lookupLoc_insertLoc_of_ne h2] at h
  by_cases h1 : loc = .local_ 1
  · subst h1
    exact .inr (.inr ⟨rfl, (Option.some.inj (lookupLoc_insertLoc_self.symm.trans h)).symm⟩)
  rw [lookupLoc_insertLoc_of_ne h1] at h
  exact absurd h (by simp [new, lookupLoc])

/-- Environments that differ in what the pointer leads to agree. -/
lemma agree_pointerEnv (x y : ℕ) :
    Agree (pointerEnv x y 1) (pointerEnv x y 2) where
  strong1 :=
    ((AllStrong.insertLoc (by intro _ _ h; simp [new] at h) _ _).insertLoc _ _).insertLoc _ _
  strong2 :=
    ((AllStrong.insertLoc (by intro _ _ h; simp [new] at h) _ _).insertLoc _ _).insertLoc _ _
  mem loc := by simp [pointerEnv]
  erases := by
    have hbase : ∀ (env : TypeEnv) (x : ℕ), env.Erases (indexedTy x) (.base (.int .i32)) :=
      fun _ _ => .base rfl (.refine _)
    intro loc ty1 ty2 h1 h2
    rcases lookupLoc_pointerEnv h1 with ⟨rfl, rfl⟩ | ⟨rfl, rfl⟩ | ⟨rfl, rfl⟩ <;>
      rcases lookupLoc_pointerEnv h2 with ⟨h, rfl⟩ | ⟨h, rfl⟩ | ⟨h, rfl⟩ <;> cases h
    · have hx : (pointerEnv x y 1).lookupLoc (.local_ 1) = some (indexedTy x) := rfl
      have hy : (pointerEnv x y 2).lookupLoc (.local_ 2) = some (indexedTy y) := rfl
      exact ⟨.ref (.base (.int .i32)), .strgRef hx (hbase _ x), .strgRef hy (hbase _ y)⟩
    · exact ⟨_, hbase _ y, hbase _ y⟩
    · exact ⟨_, hbase _ x, hbase _ x⟩

/-- A join of pointers to integers with different indices is replayed. -/
theorem joinReplays_pointers :
    ∃ n, ∀ tcx : Tcx, n ≤ tcx.stack → JoinReplays tcx (pointerEnv 0 1 1) (pointerEnv 0 1 2) := by
  refine (joinReplays_iff (agree_pointerEnv 0 1)).mpr ⟨⟨fun loc ty h => ?_, fun loc ty h => ?_,
    fun loc l1 l2 h1 h2 hne => ?_⟩, fun loc l1 l2 h1 h2 hne bty e ⟨⟨h11, h21⟩, h12, h22⟩ => ?_⟩
  · rcases lookupLoc_pointerEnv h with ⟨-, h⟩ | ⟨-, h⟩ | ⟨-, h⟩ <;> cases h
  · rcases lookupLoc_pointerEnv h with ⟨-, h⟩ | ⟨-, h⟩ | ⟨-, h⟩ <;> cases h
  · rcases lookupLoc_pointerEnv h1 with ⟨-, h⟩ | ⟨-, h⟩ | ⟨-, h⟩ <;> cases h
    exact ⟨.int .i32, indexedTy 0, rfl, .refine _⟩
  · rcases lookupLoc_pointerEnv h1 with ⟨-, h⟩ | ⟨-, h⟩ | ⟨-, h⟩ <;> cases h
    rcases lookupLoc_pointerEnv h2 with ⟨-, h⟩ | ⟨-, h⟩ | ⟨-, h⟩ <;> cases h
    have heq : indexedTy 0 = indexedTy 1 := Option.some.inj (h11.trans h12.symm)
    exact absurd heq (by decide)

/-- **A join of pointers to integers with one index is not replayed**: the reference that it
makes has that index, and no pointer can be transformed into it. -/
theorem join_not_replayed :
    ¬∀ env1 env2, Agree env1 env2 →
      ∃ n, ∀ tcx : Tcx, n ≤ tcx.stack → JoinReplays tcx env1 env2 := by
  intro hclaim
  obtain ⟨n, h⟩ := hclaim _ _ (agree_pointerEnv 0 0)
  have hjoin := joinable_of_joinReplays (agree_pointerEnv 0 0) h
  have h1 : (pointerEnv 0 0 1).lookupLoc (.local_ 3) = some (.strgRef (.local_ 1)) := rfl
  exact hjoin.index h1 rfl (by decide) (.int .i32) (.constant (.int .positive 0))
    ⟨⟨rfl, rfl⟩, rfl, rfl⟩

/-- The join and the environment of the join point are found, and the transformation fails. -/
example :
    (do
      let env ← (pointerEnv 0 0 1).joinWith (Tcx.ofStack 3) (pointerEnv 0 0 2)
      let bbEnv ← (pointerEnv 0 0 1).inferBbEnv (env.intoShape (Tcx.ofStack 3))
      let _ ← (pointerEnv 0 0 1).transformInto (Tcx.ofStack 3) bbEnv
      pure ()).run' ConstraintBuilder.new.asCursor = .error .todo := by
  decide +kernel

end TypeEnv

end LiquidRust.Typeck
