import LiquidRust.Lib.Chains
import LiquidRust.Typeck.JoinShape
import LiquidRust.Typeck.JoinSteps

set_option relaxedAutoImplicit false
set_option autoImplicit false

/-!
# The order by levels

The pointers of an environment that lead to locations and form no cycle have chains, and the levels
of the environment are the lengths of these. A check at a join point goes from the longer chains to
the shorter ones, so a location comes after all pointers to it. A join goes from the shorter chains
to the longer ones, where a location counts with the longer one of its two chains. So a location may
come after a pointer to it that is in one environment only.

## Main definitions

* `LiquidRust.Typeck.TypeEnv.pointee` — where a pointer leads.
* `LiquidRust.Typeck.TypeEnv.PointersEnd` — pointers lead to locations and form no cycle.
* `LiquidRust.Typeck.TypeEnv.transformOrder` — the locations of a check at a join point, in the
  order in which it comes to them.

## Main results

* `LiquidRust.Typeck.TypeEnv.PointersEnd.exists_levels` — the levels are found.
* `LiquidRust.Typeck.TypeEnv.pointersEnd_of_levels` — they are not found otherwise.
* `LiquidRust.Typeck.TypeEnv.levels_order` — the levels, and the two orders.
-/

namespace LiquidRust.Typeck

open Lib Cursor

namespace TypeEnv

variable {env other : TypeEnv} {loc loc' : Loc} {ty : Ty} {k : ℕ} {levels : Levels}

/-! ## Chains of pointers -/

/-- Where the pointer at a location leads, if there is one. -/
def pointee (env : TypeEnv) (loc : Loc) : Option Loc :=
  match env.lookupLoc loc with
  | some (.strgRef referee) => some referee
  | _ => none

/-- **The pointers of an environment** lead to locations and form no cycle. -/
structure PointersEnd (env : TypeEnv) : Prop where
  bound : ∀ loc loc', env.pointee loc = some loc' → loc' ∈ env.bindings
  acyclic : ∀ loc, ¬Relation.TransGen (fun loc loc' => env.pointee loc = some loc') loc loc

/-- The pointee of a location is where its strong reference points. -/
lemma pointee_eq_some : env.pointee loc = some loc' ↔ env.lookupLoc loc = some (.strgRef loc') := by
  unfold pointee
  split
  · next h => simp [h]
  · next h =>
    refine ⟨(nomatch ·), fun h' => ?_⟩
    exact absurd h' (h loc')

/-- A level is the length of a chain. -/
lemma HasLevel.chainLength (h : env.HasLevel ty k) (hty : env.lookupLoc loc = some ty) :
    ChainLength env.pointee loc k := by
  induction h generalizing loc with
  | strgRef hloc _ ih => exact .step (pointee_eq_some.mpr hty) (ih hloc)
  | @other ty hother =>
    refine .last ?_
    cases hpointee : env.pointee loc with
    | none => rfl
    | some loc' =>
      obtain rfl := Option.some.inj (hty.symm.trans (pointee_eq_some.mp hpointee))
      exact absurd hother (by simp [Ty.isStrgRef])

/-- The length of a chain is a level. -/
lemma PointersEnd.hasLevel (h : env.PointersEnd) (hk : ChainLength env.pointee loc k)
    (hty : env.lookupLoc loc = some ty) : env.HasLevel ty k := by
  induction hk generalizing ty with
  | @last loc hnone =>
    refine .other ?_
    cases ty with
    | strgRef loc' => simp [pointee_eq_some.mpr hty] at hnone
    | _ => rfl
  | step hsome _ ih =>
    obtain ⟨ty', hty'⟩ := Option.isSome_iff_exists.mp (lookupLoc_isSome.mpr (h.bound _ _ hsome))
    obtain rfl := Option.some.inj (hty.symm.trans (pointee_eq_some.mp hsome))
    exact .strgRef hty' (ih hty')

/-- Every chain ends, in fewer steps than there are locations. -/
lemma PointersEnd.exists_chainLength (h : env.PointersEnd) (hloc : loc ∈ env.bindings) :
    ∃ k < env.bindings.keys.length, ChainLength env.pointee loc k := by
  have hmem : ∀ l, l ∈ env.bindings.keys.toFinset ↔ l ∈ env.bindings := fun l => by
    rw [List.mem_toFinset, AList.mem_keys]
  obtain ⟨k, hk, hchain⟩ := Lib.exists_chainLength (s := env.bindings.keys.toFinset)
    (fun l l' hl => (hmem l').mpr (h.bound l l' hl)) h.acyclic ((hmem loc).mpr hloc)
  rw [List.toFinset_card_of_nodup env.bindings.keys_nodup] at hk
  exact ⟨k, hk, hchain⟩

variable (tcx : Tcx)

/-- **The levels are found**, and they are the lengths of the chains. -/
theorem PointersEnd.exists_levels (h : env.PointersEnd)
    (hstack : env.bindings.keys.length ≤ tcx.stack) :
    ∃ levels, env.levels tcx = .ok levels ∧ (∀ loc, loc ∈ levels ↔ loc ∈ env.bindings) ∧
      ∀ loc ∈ levels, ChainLength env.pointee loc (levelOf levels loc) := by
  have hpost := post_levels tcx env
  cases hlevels : env.levels tcx with
  | error f =>
    rw [hlevels] at hpost
    obtain ⟨loc, ty, hty, hk⟩ := hpost
    obtain ⟨k, hlt, hchain⟩ := h.exists_chainLength (mem_of_lookupLoc hty)
    have := hk k (h.hasLevel hchain hty)
    omega
  | ok levels =>
    rw [hlevels] at hpost
    obtain ⟨hok, hmem⟩ := hpost
    refine ⟨levels, rfl, hmem, fun loc hloc => ?_⟩
    obtain ⟨ty, hty⟩ := Option.isSome_iff_exists.mp (lookupLoc_isSome.mpr ((hmem loc).mp hloc))
    exact (hok.hasLevel hloc hty).chainLength hty

/-- Where the levels are found, the pointers lead to locations and form no cycle. -/
theorem pointersEnd_of_levels (h : env.levels tcx = .ok levels) : env.PointersEnd := by
  have hpost := post_levels tcx env
  rw [h] at hpost
  obtain ⟨hok, hmem⟩ := hpost
  have hchain : ∀ loc loc', env.pointee loc = some loc' →
      ChainLength env.pointee loc (levelOf levels loc) ∧ loc' ∈ env.bindings := by
    intro loc loc' hloc
    have hty := pointee_eq_some.mp hloc
    have hmemLoc := (hmem loc).mpr (mem_of_lookupLoc hty)
    exact ⟨(hok.hasLevel hmemLoc hty).chainLength hty,
      (hmem loc').mp (hok.strgRef hmem hmemLoc hty).1⟩
  refine ⟨fun loc loc' hloc => (hchain loc loc' hloc).2, fun loc hcycle => ?_⟩
  obtain ⟨loc', hloc, -⟩ := Relation.TransGen.head'_iff.mp hcycle
  exact (hchain loc loc' hloc).1.not_transGen_self hcycle

/-! ## The two orders -/

/-- The locations of a check at a join point, in the order in which it comes to them. -/
def transformOrder (env : TypeEnv) : Except Failure (List Loc) := do
  let levels ← env.levels tcx
  pure (sortedByLevel tcx levels).reverse

/-- Lifting a value and going on is going on with it. -/
lemma ofExcept_ok_bind {α β : Type} (a : α) (f : α → CursorM β) : ofExcept (.ok a) >>= f = f a :=
  rfl

/-- `transform_into` goes through the locations in its order. -/
lemma transformInto_of_order {order : List Loc}
    (h : transformOrder tcx (env.weakening other) = .ok order) :
    env.transformInto tcx other = order.foldlM (transformLoc tcx other) (env.weakening other) := by
  obtain ⟨levels, hlevels, horder⟩ := except_bind_eq_ok.mp h
  obtain rfl := Except.ok.inj horder
  rw [transformInto]
  simp only [hlevels, ofExcept_ok_bind]

/-- `join_with` goes through the locations in its order. -/
lemma joinWith_of_order {order : List Loc}
    (h : joinOrder tcx (env.weakening other) other = .ok order) :
    env.joinWith tcx other = order.foldlM (joinLoc tcx other) (env.weakening other) := by
  obtain ⟨levels, levelsOther, m, hlevels, hlevelsOther, hm, rfl⟩ := (joinOrder_eq_ok tcx).mp h
  rw [joinWith]
  simp only [hlevels, hlevelsOther, hm, ofExcept_ok_bind]

/-- A location with a lower level comes first. -/
lemma sublist_sortedByLevel (hloc : loc ∈ levels) (hloc' : loc' ∈ levels)
    (hlt : levelOf levels loc < levelOf levels loc') :
    [loc, loc'].Sublist (sortedByLevel tcx levels) := by
  obtain ⟨before, after, hlist⟩ := List.append_of_mem ((mem_sortedByLevel tcx).mpr hloc)
  have hmem' := (mem_sortedByLevel tcx).mpr hloc'
  have hsorted := sortedByLevel_pairwise tcx levels
  rw [hlist] at hmem' hsorted ⊢
  rcases List.mem_append.mp hmem' with hbefore | hafter
  · have := (List.pairwise_append.mp hsorted).2.2 loc' hbefore loc (.head _)
    omega
  · rcases List.mem_cons.mp hafter with rfl | hafter
    · omega
    · have hsublist : [loc, loc'].Sublist (loc :: after) :=
        (List.singleton_sublist.mpr hafter).cons_cons loc
      exact hsublist.trans (List.sublist_append_right _ _)

/-- Sorting the levels of all locations lists each location once. -/
lemma sortedByLevel_perm_keys (hmem : ∀ loc, loc ∈ levels ↔ loc ∈ env.bindings) :
    (sortedByLevel tcx levels).Perm env.bindings.keys := by
  refine (List.perm_ext_iff_of_nodup (sortedByLevel_nodup tcx levels)
    env.bindings.keys_nodup).mpr fun loc => ?_
  rw [mem_sortedByLevel, hmem, AList.mem_keys]

/-- **A check at a join point** comes to a pointer before it comes to where the pointer leads. -/
theorem PointersEnd.exists_transformOrder (h : env.PointersEnd)
    (hstack : env.bindings.keys.length ≤ tcx.stack) :
    ∃ order, transformOrder tcx env = .ok order ∧ order.Perm env.bindings.keys ∧
      ∀ loc loc', env.pointee loc = some loc' → [loc, loc'].Sublist order := by
  obtain ⟨levels, hlevels, hmem, hchain⟩ := h.exists_levels tcx hstack
  refine ⟨(sortedByLevel tcx levels).reverse, by rw [transformOrder, hlevels]; rfl,
    (List.reverse_perm _).trans (sortedByLevel_perm_keys tcx hmem), fun loc loc' hloc => ?_⟩
  have hmemLoc := (hmem loc).mpr (mem_of_lookupLoc (pointee_eq_some.mp hloc))
  have hmemLoc' := (hmem loc').mpr (h.bound loc loc' hloc)
  obtain ⟨k', hk', hlevel⟩ := (hchain loc hmemLoc).of_step hloc
  have hlevel' := hk'.unique (hchain loc' hmemLoc')
  exact (sublist_sortedByLevel tcx hmemLoc' hmemLoc (by omega)).reverse

/-- **In the order by the longer one of two chains**, a location comes before a pointer to it in the
first environment, unless its chain in the second one is longer than in the first one, and no
shorter than the chain of the pointer in the second one. -/
def PointeesFirst (env other : TypeEnv) (order : List Loc) : Prop :=
  ∀ loc ∈ order, ∀ loc' ∈ order, env.pointee loc = some loc' → ∀ k' m m',
    ChainLength env.pointee loc' k' → ChainLength other.pointee loc m →
      ChainLength other.pointee loc' m' → m' ≤ k' ∨ m' < m → [loc', loc].Sublist order

/-- The order by the longer one of two chains. -/
lemma pointeesFirst_sortedByLevel {m levelsOther : Levels}
    (hlevels : ∀ loc ∈ m, ChainLength env.pointee loc (levelOf levels loc))
    (hlevelsOther : ∀ loc ∈ m, ChainLength other.pointee loc (levelOf levelsOther loc))
    (hm : ∀ loc ∈ m, levelOf m loc = max (levelOf levels loc) (levelOf levelsOther loc)) :
    PointeesFirst env other (sortedByLevel tcx m) := by
  intro loc hloc loc' hloc' hpointee k' n n' hk' hn hn' hle
  rw [mem_sortedByLevel] at hloc hloc'
  obtain ⟨k, hk, hlevel⟩ := (hlevels loc hloc).of_step hpointee
  have h1 := hk.unique hk'
  have h2 := (hlevels loc' hloc').unique hk'
  have h3 := (hlevelsOther loc hloc).unique hn
  have h4 := (hlevelsOther loc' hloc').unique hn'
  have h5 := hm loc hloc
  have h6 := hm loc' hloc'
  exact sublist_sortedByLevel tcx hloc' hloc (by omega)

/-- **A join** comes to a location before it comes to the pointers to it, unless the other
environment has longer chains. -/
theorem PointersEnd.exists_joinOrder (h : env.PointersEnd) (hother : other.PointersEnd)
    (hsub : ∀ loc ∈ env.bindings, loc ∈ other.bindings)
    (hstack : env.bindings.keys.length ≤ tcx.stack)
    (hstackOther : other.bindings.keys.length ≤ tcx.stack) :
    ∃ order, joinOrder tcx env other = .ok order ∧ order.Perm env.bindings.keys ∧
      PointeesFirst env other order ∧ PointeesFirst other env order := by
  obtain ⟨levels, hlevels, hmem, hchain⟩ := h.exists_levels tcx hstack
  obtain ⟨levelsOther, hlevelsOther, hmemOther, hchainOther⟩ :=
    hother.exists_levels tcx hstackOther
  have hsub' : ∀ loc ∈ levels, loc ∈ levelsOther := fun loc hloc =>
    (hmemOther loc).mpr (hsub loc ((hmem loc).mp hloc))
  have hpost := post_maxLevels hsub'
  cases hmax : maxLevels levels levelsOther with
  | error f =>
    rw [hmax] at hpost
    exact hpost.elim
  | ok m =>
    rw [hmax] at hpost
    obtain ⟨hmemMax, hm⟩ := hpost
    refine ⟨sortedByLevel tcx m,
      (joinOrder_eq_ok tcx).mpr ⟨levels, levelsOther, m, hlevels, hlevelsOther, hmax, rfl⟩,
      sortedByLevel_perm_keys tcx fun loc => (hmemMax loc).trans (hmem loc), ?_, ?_⟩
    · exact pointeesFirst_sortedByLevel tcx (fun loc hloc => hchain loc ((hmemMax loc).mp hloc))
        (fun loc hloc => hchainOther loc (hsub' loc ((hmemMax loc).mp hloc)))
        fun loc hloc => hm loc ((hmemMax loc).mp hloc)
    · exact pointeesFirst_sortedByLevel tcx
        (fun loc hloc => hchainOther loc (hsub' loc ((hmemMax loc).mp hloc)))
        (fun loc hloc => hchain loc ((hmemMax loc).mp hloc))
        fun loc hloc => by rw [hm loc ((hmemMax loc).mp hloc), max_comm]

/-- **Levels are lengths of chains of pointers**, for pointers that lead to locations and form no
cycle, in any order of the locations. A check at a join point comes to a pointer before it comes to
where the pointer leads. A join comes to a pointer after where it leads, unless the chain from there
is longer in the environment that does not have the pointer, and no shorter than the one of the
pointer there.

**Proof sketch.** A search from a location ends with the length of its chain, or the stack is too
small for the chain. A chain without a cycle meets every location at most once, so the stack is
large enough. A pointer has a level that is one higher than the level of where it leads, and higher
levels come first in a check. In a join the level is the higher one of two. -/
theorem levels_order :
    (∀ env : TypeEnv, env.PointersEnd → env.bindings.keys.length ≤ tcx.stack →
      ∃ levels, env.levels tcx = .ok levels ∧ (∀ loc, loc ∈ levels ↔ loc ∈ env.bindings) ∧
        ∀ loc k, levels.lookup loc = some k →
          ChainLength env.pointee loc k ∧ k < env.bindings.keys.length) ∧
    (∀ env other : TypeEnv, (env.weakening other).PointersEnd →
      (env.weakening other).bindings.keys.length ≤ tcx.stack →
      ∃ order : List Loc, order.Perm (env.weakening other).bindings.keys ∧
        env.transformInto tcx other =
          order.foldlM (transformLoc tcx other) (env.weakening other) ∧
        ∀ loc loc', (env.weakening other).pointee loc = some loc' → [loc, loc'].Sublist order) ∧
    (∀ env other : TypeEnv, (env.weakening other).PointersEnd → other.PointersEnd →
      (env.weakening other).bindings.keys.length ≤ tcx.stack →
      other.bindings.keys.length ≤ tcx.stack →
      ∃ order : List Loc, order.Perm (env.weakening other).bindings.keys ∧
        env.joinWith tcx other = order.foldlM (joinLoc tcx other) (env.weakening other) ∧
        PointeesFirst (env.weakening other) other order ∧
        PointeesFirst other (env.weakening other) order) := by
  refine ⟨fun env h hstack => ?_, fun env other h hstack => ?_,
    fun env other h hother hstack hstackOther => ?_⟩
  · obtain ⟨levels, hlevels, hmem, hchain⟩ := h.exists_levels tcx hstack
    refine ⟨levels, hlevels, hmem, fun loc k hk => ?_⟩
    have hloc : loc ∈ levels := AList.lookup_isSome.mp (by simp [hk])
    obtain ⟨k', hlt, hk'⟩ := h.exists_chainLength ((hmem loc).mp hloc)
    have hlevel := hchain loc hloc
    rw [levelOf, hk, Option.getD_some] at hlevel
    exact ⟨hlevel, hlevel.unique hk' ▸ hlt⟩
  · obtain ⟨order, horder, hperm, hpointers⟩ := h.exists_transformOrder tcx hstack
    exact ⟨order, hperm, transformInto_of_order tcx horder, hpointers⟩
  · obtain ⟨order, horder, hperm, hfirst, hfirstOther⟩ :=
      h.exists_joinOrder tcx hother (fun _ hloc => (locSet_weakening.le hloc).2) hstack hstackOther
    exact ⟨order, hperm, joinWith_of_order tcx horder, hfirst, hfirstOther⟩

/-- References to references, and so on, to an integer. -/
def refs : ℕ → Ty
  | 0 => .exists_ (.int .i32) (.expr .tt)
  | n + 1 => .ref (refs n)

/-- Four locations, with a pointer from the first one to the second one. -/
def upperPointer : TypeEnv :=
  (((new.insertLoc (.local_ 3) (refs 0)).insertLoc (.local_ 2) (refs 1)).insertLoc (.local_ 1)
    (refs 2)).insertLoc (.local_ 0) (.strgRef (.local_ 1))

/-- Four locations of the same Rust types, with pointers from the second one to the third one and
from there to the fourth one. -/
def lowerPointers : TypeEnv :=
  (((new.insertLoc (.local_ 3) (refs 0)).insertLoc (.local_ 2)
    (.strgRef (.local_ 3))).insertLoc (.local_ 1) (.strgRef (.local_ 2))).insertLoc (.local_ 0)
      (refs 3)

/-- The pointers of the first environment end. -/
lemma pointersEnd_upperPointer : (upperPointer.weakening lowerPointers).PointersEnd :=
  pointersEnd_of_levels (.ofStack 4) rfl

/-- The pointers of the second environment end. -/
lemma pointersEnd_lowerPointers : lowerPointers.PointersEnd :=
  pointersEnd_of_levels (.ofStack 4) rfl

/-- A join may come to a pointer before it comes to where the pointer leads. -/
theorem not_joinOrder_pointees_first :
    ¬∀ (tcx : Tcx) (env other : TypeEnv), (env.weakening other).PointersEnd →
      other.PointersEnd → (env.weakening other).bindings.keys.length ≤ tcx.stack →
      other.bindings.keys.length ≤ tcx.stack →
      ∃ order, joinOrder tcx (env.weakening other) other = .ok order ∧
        ∀ loc loc', (env.weakening other).pointee loc = some loc' →
          [loc', loc].Sublist order := by
  intro hall
  obtain ⟨order, horder, hfirst⟩ := hall (.ofStack 4) upperPointer lowerPointers
    pointersEnd_upperPointer pointersEnd_lowerPointers (by decide) (by decide)
  have horder' : joinOrder (.ofStack 4) (upperPointer.weakening lowerPointers) lowerPointers =
      .ok [.local_ 3, .local_ 0, .local_ 2, .local_ 1] := rfl
  obtain rfl := Except.ok.inj (horder'.symm.trans horder)
  exact absurd (hfirst (.local_ 0) (.local_ 1) rfl) (by decide)

/-- Two pointers to one location, and a pointer from there to an integer. -/
def sharedPointee : TypeEnv :=
  (((new.insertLoc (.local_ 3) (refs 0)).insertLoc (.local_ 2)
    (.strgRef (.local_ 3))).insertLoc (.local_ 1) (.strgRef (.local_ 2))).insertLoc (.local_ 0)
      (.strgRef (.local_ 2))

/-- Four locations of the same Rust types, where the first one alone is a pointer. -/
def onePointer : TypeEnv :=
  (((new.insertLoc (.local_ 3) (refs 0)).insertLoc (.local_ 2) (refs 1)).insertLoc (.local_ 1)
    (refs 2)).insertLoc (.local_ 0) (.strgRef (.local_ 2))

/-- The levels where two pointers share a pointee, the check against themselves, and the join of
the one pointer with them. -/
theorem levels_order_sharedPointee :
    (∃ levels, sharedPointee.levels (.ofStack 4) = .ok levels ∧
      (∀ loc, loc ∈ levels ↔ loc ∈ sharedPointee.bindings) ∧
      ∀ loc k, levels.lookup loc = some k →
        ChainLength sharedPointee.pointee loc k ∧ k < sharedPointee.bindings.keys.length) ∧
      (∃ order : List Loc, order.Perm (sharedPointee.weakening sharedPointee).bindings.keys ∧
        sharedPointee.transformInto (.ofStack 4) sharedPointee =
          order.foldlM (transformLoc (.ofStack 4) sharedPointee)
            (sharedPointee.weakening sharedPointee) ∧
        ∀ loc loc', (sharedPointee.weakening sharedPointee).pointee loc = some loc' →
          [loc, loc'].Sublist order) ∧
      ∃ order : List Loc, order.Perm (onePointer.weakening sharedPointee).bindings.keys ∧
        onePointer.joinWith (.ofStack 4) sharedPointee =
          order.foldlM (joinLoc (.ofStack 4) sharedPointee)
            (onePointer.weakening sharedPointee) ∧
        PointeesFirst (onePointer.weakening sharedPointee) sharedPointee order ∧
        PointeesFirst sharedPointee (onePointer.weakening sharedPointee) order := by
  obtain ⟨hlevels, htransform, hjoin⟩ := levels_order (.ofStack 4)
  have hshared : sharedPointee.PointersEnd := pointersEnd_of_levels (.ofStack 4) rfl
  have hself : (sharedPointee.weakening sharedPointee).PointersEnd :=
    pointersEnd_of_levels (.ofStack 4) rfl
  have hone : (onePointer.weakening sharedPointee).PointersEnd :=
    pointersEnd_of_levels (.ofStack 4) rfl
  exact ⟨hlevels sharedPointee hshared (by decide), htransform sharedPointee sharedPointee hself
    (by decide), hjoin onePointer sharedPointee hone hshared (by decide) (by decide)⟩

end TypeEnv

end LiquidRust.Typeck
