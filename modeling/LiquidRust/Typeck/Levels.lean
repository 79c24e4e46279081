import LiquidRust.Typeck.TypeEnvInv

set_option relaxedAutoImplicit false
set_option autoImplicit false

/-!
# Levels

The level of a location is the length of the chain of pointers that starts there. The search that
computes the levels of an environment ends if the stack is larger than all of them.

## Main definitions

* `LiquidRust.Typeck.TypeEnv.HasLevel` — the level of a type.
* `LiquidRust.Typeck.TypeEnv.LevelsOk` — levels that are right.

## Main results

* `LiquidRust.Typeck.TypeEnv.post_levels` — the levels of an environment are right, and are found
  if the stack is large enough.
* `LiquidRust.Typeck.TypeEnv.sortedByLevel_perm`, `sortedByLevel_pairwise` — the order of the
  locations in a join.
-/

namespace LiquidRust.Typeck

open Lib

/-- Whether a type is a pointer. -/
def Ty.isStrgRef : Ty → Bool
  | .strgRef _ => true
  | _ => false

namespace TypeEnv

/-- The level of a type: the length of the chain of pointers. -/
inductive HasLevel (env : TypeEnv) : Ty → ℕ → Prop
  | strgRef {loc : Loc} {ty : Ty} {k : ℕ} : env.lookupLoc loc = some ty → HasLevel env ty k →
      HasLevel env (.strgRef loc) (k + 1)
  | other {ty : Ty} : ty.isStrgRef = false → HasLevel env ty 0

variable {env : TypeEnv} {ty : Ty} {loc : Loc}

/-- A type has one level. -/
lemma HasLevel.unique {k k' : ℕ} (h : env.HasLevel ty k) (h' : env.HasLevel ty k') : k = k' := by
  induction h generalizing k' with
  | strgRef hloc _ ih =>
    cases h' with
    | strgRef hloc' h' =>
      obtain rfl := Option.some.inj (hloc.symm.trans hloc')
      rw [ih h']
    | other h => exact absurd h (by simp [Ty.isStrgRef])
  | other hty =>
    cases h' with
    | strgRef => exact absurd hty (by simp [Ty.isStrgRef])
    | other => rfl

/-- Every level is that of the type of its location. -/
def LevelsOk (env : TypeEnv) (levels : Levels) : Prop :=
  ∀ loc k, levels.lookup loc = some k → ∃ ty, env.lookupLoc loc = some ty ∧ env.HasLevel ty k

/-- Recording a right level keeps the levels right. -/
lemma LevelsOk.insert {levels : Levels} {k : ℕ} (h : env.LevelsOk levels)
    (hty : env.lookupLoc loc = some ty) (hk : env.HasLevel ty k) :
    env.LevelsOk (levels.insert loc k) := by
  intro loc' k' h'
  by_cases hloc : loc' = loc
  · subst hloc
    rw [AList.lookup_insert] at h'
    exact ⟨ty, hty, Option.some.inj h' ▸ hk⟩
  · rw [AList.lookup_insert_ne hloc] at h'
    exact h loc' k' h'

/-- **The search from a location** finds its level, or there is none below the bound. -/
lemma post_dfs {n : ℕ} {levels : Levels} (hlevels : env.LevelsOk levels)
    (hty : env.lookupLoc loc = some ty) :
    post (env.dfs n loc ty levels)
      (fun r => env.HasLevel ty r.1 ∧ env.LevelsOk r.2 ∧ loc ∈ r.2 ∧ ∀ l ∈ levels, l ∈ r.2)
      (fun _ => ∀ k, env.HasLevel ty k → n ≤ k) := by
  induction n generalizing loc ty levels with
  | zero => exact fun k _ => Nat.zero_le k
  | succ n ih =>
    unfold dfs
    cases hlookup : levels.lookup loc with
    | some level =>
      obtain ⟨ty', hty', hk⟩ := hlevels loc level hlookup
      obtain rfl := Option.some.inj (hty.symm.trans hty')
      exact ⟨hk, hlevels, AList.lookup_isSome.mp (by simp [hlookup]), fun _ hl => hl⟩
    | none =>
      have hother : ty.isStrgRef = false → env.HasLevel ty 0 ∧
          env.LevelsOk (levels.insert loc 0) ∧ loc ∈ levels.insert loc 0 ∧
          ∀ l ∈ levels, l ∈ levels.insert loc 0 := fun h =>
        ⟨.other h, hlevels.insert hty (.other h), by simp, fun l hl => by simp [hl]⟩
      cases ty with
      | strgRef referee =>
        simp only [post_bind, post_orError]
        refine ⟨fun ty' hty' => ?_, fun hnone k hk => ?_⟩
        · refine post_mono (ih hlevels hty') (fun r hr => ?_) fun f hf k hk => ?_
          · obtain ⟨hk, hlevels', -, hsub⟩ := hr
            exact ⟨.strgRef hty' hk, hlevels'.insert hty (.strgRef hty' hk), by simp,
              fun l hl => by simp [hsub l hl]⟩
          · cases hk with
            | strgRef hty'' hk =>
              obtain rfl := Option.some.inj (hty'.symm.trans hty'')
              exact Nat.succ_le_succ (hf _ hk)
            | other h => exact absurd h (by simp [Ty.isStrgRef])
        · cases hk with
          | strgRef hty'' hk => exact absurd (hnone.symm.trans hty'') (by simp)
          | other h => exact absurd h (by simp [Ty.isStrgRef])
      | _ => exact hother rfl

variable (tcx : Tcx)

/-- The locations gone through are those of the environment. -/
lemma mem_locs {loc : Loc} : loc ∈ env.locs tcx ↔ loc ∈ env.bindings :=
  (tcx.hashOrder_perm _).mem_iff

/-- **The levels of an environment** are right, or a location has none below the size of the
stack. -/
theorem post_levels (env : TypeEnv) :
    post (env.levels tcx) (fun levels => env.LevelsOk levels ∧ ∀ l, l ∈ levels ↔ l ∈ env.bindings)
      (fun _ => ∃ loc ty, env.lookupLoc loc = some ty ∧
        ∀ k, env.HasLevel ty k → tcx.stack ≤ k) := by
  have hfold : ∀ (locs : List Loc) (levels : Levels), (∀ l ∈ locs, l ∈ env.bindings) →
      env.LevelsOk levels →
      post (locs.foldlM (fun levels loc => do
          let ty ← orError .missing (env.lookupLoc loc)
          let r ← env.dfs tcx.stack loc ty levels
          pure r.2) levels)
        (fun levels' => env.LevelsOk levels' ∧ (∀ l ∈ locs, l ∈ levels') ∧
          ∀ l ∈ levels, l ∈ levels')
        (fun _ => ∃ loc ty, env.lookupLoc loc = some ty ∧
          ∀ k, env.HasLevel ty k → tcx.stack ≤ k) := by
    intro locs
    induction locs with
    | nil => exact fun levels _ h => ⟨h, by simp, fun _ hl => hl⟩
    | cons loc locs ih =>
      intro levels hlocs hlevels
      rw [List.foldlM_cons, post_bind, post_bind, post_orError]
      refine ⟨fun ty hty => ?_, fun hnone => ?_⟩
      · rw [post_bind]
        refine post_mono (post_dfs hlevels hty) (fun r hr => ?_) fun f hf => ⟨loc, ty, hty, hf⟩
        obtain ⟨-, hlevels', hloc, hsub⟩ := hr
        change post (locs.foldlM _ r.2) _ _
        refine post_mono (ih r.2 (fun l hl => hlocs l (.tail _ hl)) hlevels') ?_ fun _ h => h
        rintro levels'' ⟨hlevels'', hmem, hsub'⟩
        exact ⟨hlevels'', List.forall_mem_cons.mpr ⟨hsub' loc hloc, hmem⟩,
          fun l hl => hsub' l (hsub l hl)⟩
      · have := lookupLoc_isSome.mpr (hlocs loc (.head _))
        simp [hnone] at this
  refine post_mono (hfold _ ∅ (fun l hl => (mem_locs tcx).mp hl) ?_) ?_ fun _ h => h
  · intro loc k h
    exact absurd h (by simp)
  · rintro levels ⟨hok, hmem, -⟩
    refine ⟨hok, fun l => ⟨fun hl => ?_, fun hl => hmem l ((mem_locs tcx).mpr hl)⟩⟩
    obtain ⟨k, hk⟩ := Option.isSome_iff_exists.mp (AList.lookup_isSome.mpr hl)
    obtain ⟨ty, hty, -⟩ := hok l k hk
    exact lookupLoc_isSome.mp (by simp [hty])

/-- The level of a location that `levels` gives. -/
def levelOf (levels : Levels) (loc : Loc) : ℕ :=
  (levels.lookup loc).getD 0

/-- The level of a location in an environment whose levels are right. -/
lemma LevelsOk.hasLevel {levels : Levels} (h : env.LevelsOk levels) (hloc : loc ∈ levels)
    (hty : env.lookupLoc loc = some ty) : env.HasLevel ty (levelOf levels loc) := by
  obtain ⟨k, hk⟩ := Option.isSome_iff_exists.mp (AList.lookup_isSome.mpr hloc)
  obtain ⟨ty', hty', hlevel⟩ := h loc k hk
  obtain rfl := Option.some.inj (hty.symm.trans hty')
  simpa [levelOf, hk] using hlevel

/-- A pointer leads to a location one level below. -/
lemma LevelsOk.strgRef {levels : Levels} (h : env.LevelsOk levels)
    (hkeys : ∀ l, l ∈ levels ↔ l ∈ env.bindings) (hloc : loc ∈ levels) {loc' : Loc}
    (hty : env.lookupLoc loc = some (.strgRef loc')) :
    loc' ∈ levels ∧ levelOf levels loc = levelOf levels loc' + 1 := by
  have hlevel := h.hasLevel hloc hty
  generalize levelOf levels loc = k at hlevel
  cases hlevel with
  | strgRef hty' hlevel' =>
    have hmem := (hkeys loc').mpr (mem_of_lookupLoc hty')
    exact ⟨hmem, by rw [hlevel'.unique (h.hasLevel hmem hty')]⟩
  | other hother => exact absurd hother (by simp [Ty.isStrgRef])

/-- Sorting by level permutes the locations. -/
lemma sortedByLevel_perm (levels : Levels) : (sortedByLevel tcx levels).Perm levels.keys :=
  (List.perm_insertionSort _ _).trans (tcx.hashOrder_perm _)

/-- Sorting by level lists each location once. -/
lemma sortedByLevel_nodup (levels : Levels) : (sortedByLevel tcx levels).Nodup :=
  (sortedByLevel_perm tcx levels).nodup_iff.mpr levels.keys_nodup

/-- Sorting by level lists the locations that have a level. -/
lemma mem_sortedByLevel {levels : Levels} : loc ∈ sortedByLevel tcx levels ↔ loc ∈ levels :=
  (sortedByLevel_perm tcx levels).mem_iff

/-- The locations with the lower levels come first. -/
lemma sortedByLevel_pairwise (levels : Levels) :
    (sortedByLevel tcx levels).Pairwise fun l l' => levelOf levels l ≤ levelOf levels l' := by
  have : Std.Total fun l l' => levelOf levels l ≤ levelOf levels l' := ⟨fun _ _ => le_total _ _⟩
  have : IsTrans Loc fun l l' => levelOf levels l ≤ levelOf levels l' := ⟨fun _ _ _ => le_trans⟩
  exact List.pairwise_insertionSort _ _

/-- From the higher levels to the lower ones, a pointer comes before what it leads to. -/
lemma LevelsOk.mem_after {levels : Levels} (h : env.LevelsOk levels)
    (hkeys : ∀ l, l ∈ levels ↔ l ∈ env.bindings) {done rest : List Loc} {loc' : Loc}
    (hlist : (sortedByLevel tcx levels).reverse = done ++ loc :: rest)
    (hty : env.lookupLoc loc = some (.strgRef loc')) : loc' ∈ rest := by
  have hmem : ∀ l, l ∈ done ++ loc :: rest ↔ l ∈ levels := fun l => by
    rw [← hlist, List.mem_reverse, mem_sortedByLevel]
  have hsorted := List.pairwise_reverse.mpr (sortedByLevel_pairwise tcx levels)
  rw [hlist] at hsorted
  obtain ⟨hloc', hlevel⟩ := h.strgRef hkeys ((hmem loc).mp (by simp)) hty
  rcases List.mem_append.mp ((hmem loc').mpr hloc') with hdone | hrest
  · have := (List.pairwise_append.mp hsorted).2.2 loc' hdone loc (.head _)
    omega
  · rcases List.mem_cons.mp hrest with rfl | hrest
    · omega
    · exact hrest

/-- Of two locations on one level, the one that comes first in the hash map comes first. -/
lemma sortedByLevel_stable {levels : Levels} {l l' : Loc}
    (h : [l, l'].Sublist (tcx.hashOrder levels.keys)) (hle : levelOf levels l ≤ levelOf levels l') :
    [l, l'].Sublist (sortedByLevel tcx levels) :=
  List.pair_sublist_insertionSort (r := fun l l' => levelOf levels l ≤ levelOf levels l') hle h

end TypeEnv

end LiquidRust.Typeck
