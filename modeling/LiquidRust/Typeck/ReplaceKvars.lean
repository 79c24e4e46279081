import LiquidRust.Typeck.InferBbEnv

set_option relaxedAutoImplicit false
set_option autoImplicit false

/-!
# The unknown predicates of a join point

The unknown predicates of a shape come from inference. In the environment of a join point they
have to be replaced by new ones of the check. One traversal collects them all, but the one that
replaces them does not go into the base type of a type with an index or a known predicate.

A number says only within one builder which unknown predicate is meant, so what is asked of the
environment of a join point is asked for all numbers that inference may have used.

## Main definitions

* `LiquidRust.Typeck.Ty.kvars`, `unreached` — the unknown predicates of a type, and those that are
  not replaced.
* `LiquidRust.Typeck.TypeEnv.ReplacesKvars` — all unknown predicates are replaced by new ones of
  the right sort, equal ones by equal ones.
* `LiquidRust.Typeck.TypeEnv.Replaceable` — shapes whose unknown predicates are reached.

## Main results

* `LiquidRust.Typeck.TypeEnv.replacesKvars_iff` — when all unknown predicates are replaced.
-/

namespace LiquidRust.Typeck

open Lib Cursor

/-! ## The unknown predicates of a type -/

mutual

/-- The unknown predicates of a type, each with the sort of the base type that it refines. -/
def Ty.kvars : Ty → List (Srt × KVid)
  | .exists_ bty (.kvar kvid _) => (bty.sort, kvid) :: bty.kvars
  | .exists_ bty (.expr _) | .refine bty _ => bty.kvars
  | .ref ty => ty.kvars
  | .uninit | .strgRef _ | .param _ => []

/-- The unknown predicates of a base type, with their sorts. -/
def BaseTy.kvars : BaseTy → List (Srt × KVid)
  | .adt _ substs => substs.kvars
  | .int _ | .uint _ | .bool => []

/-- The unknown predicates of type arguments, with their sorts. -/
def Substs.kvars : Substs → List (Srt × KVid)
  | .nil => []
  | .cons ty substs => ty.kvars ++ substs.kvars

end

mutual

/-- The unknown predicates in a base type that is refined by an index or a known predicate. -/
def Ty.unreached : Ty → List (Srt × KVid)
  | .exists_ bty (.kvar _ _) => bty.unreached
  | .exists_ bty (.expr _) | .refine bty _ => bty.kvars
  | .ref ty => ty.unreached
  | .uninit | .strgRef _ | .param _ => []

/-- The unknown predicates of a base type that are not replaced. -/
def BaseTy.unreached : BaseTy → List (Srt × KVid)
  | .adt _ substs => substs.unreached
  | .int _ | .uint _ | .bool => []

/-- The unknown predicates of type arguments that are not replaced. -/
def Substs.unreached : Substs → List (Srt × KVid)
  | .nil => []
  | .cons ty substs => ty.unreached ++ substs.unreached

end

mutual

/-- The variables `replace_kvars` does not reach are variables of the type. -/
lemma Ty.unreached_subset : ∀ ty : Ty, ty.unreached ⊆ ty.kvars
  | .exists_ bty (.kvar _ _) => List.Subset.trans bty.unreached_subset (List.subset_cons_self _ _)
  | .exists_ _ (.expr _) | .refine _ _ => List.Subset.refl _
  | .ref ty => ty.unreached_subset
  | .uninit | .strgRef _ | .param _ => List.Subset.refl _

/-- The same for base types. -/
lemma BaseTy.unreached_subset : ∀ bty : BaseTy, bty.unreached ⊆ bty.kvars
  | .adt _ substs => substs.unreached_subset
  | .int _ | .uint _ | .bool => List.Subset.refl _

/-- The same for type arguments. -/
lemma Substs.unreached_subset : ∀ substs : Substs, substs.unreached ⊆ substs.kvars
  | .nil => List.Subset.refl _
  | .cons ty substs => List.append_subset.mpr
    ⟨List.Subset.trans ty.unreached_subset (List.subset_append_left _ _),
      List.Subset.trans substs.unreached_subset (List.subset_append_right _ _)⟩

end

section Renumber

variable (π : KVid → KVid)

mutual

/-- The unknown predicates of a type get other numbers. -/
def Ty.renumber : Ty → Ty
  | .exists_ bty (.kvar kvid args) => .exists_ bty.renumber (.kvar (π kvid) args)
  | .exists_ bty (.expr e) => .exists_ bty.renumber (.expr e)
  | .refine bty e => .refine bty.renumber e
  | .ref ty => .ref ty.renumber
  | .uninit => .uninit
  | .strgRef loc => .strgRef loc
  | .param p => .param p

/-- A base type with its unknown predicates renumbered. -/
def BaseTy.renumber : BaseTy → BaseTy
  | .adt did substs => .adt did substs.renumber
  | .int int_ty => .int int_ty
  | .uint uint_ty => .uint uint_ty
  | .bool => .bool

/-- Type arguments with their unknown predicates renumbered. -/
def Substs.renumber : Substs → Substs
  | .nil => .nil
  | .cons ty substs => .cons ty.renumber substs.renumber

end

/-- Renumbering keeps the sort. -/
lemma BaseTy.sort_renumber (bty : BaseTy) : (bty.renumber π).sort = bty.sort := by
  cases bty <;> rfl

mutual

/-- The variables of a renumbered type are renumbered. -/
lemma Ty.kvars_renumber : ∀ ty : Ty, (ty.renumber π).kvars = ty.kvars.map (Prod.map id π)
  | .exists_ bty (.kvar _ _) => by
    rw [Ty.renumber, Ty.kvars, Ty.kvars, bty.kvars_renumber, bty.sort_renumber]
    rfl
  | .exists_ bty (.expr _) => bty.kvars_renumber
  | .refine bty _ => bty.kvars_renumber
  | .ref ty => ty.kvars_renumber
  | .uninit | .strgRef _ | .param _ => rfl

/-- The same for base types. -/
lemma BaseTy.kvars_renumber : ∀ bty : BaseTy,
    (bty.renumber π).kvars = bty.kvars.map (Prod.map id π)
  | .adt _ substs => substs.kvars_renumber
  | .int _ | .uint _ | .bool => rfl

/-- The same for type arguments. -/
lemma Substs.kvars_renumber : ∀ substs : Substs,
    (substs.renumber π).kvars = substs.kvars.map (Prod.map id π)
  | .nil => rfl
  | .cons ty substs => by
    rw [Substs.renumber, Substs.kvars, Substs.kvars, ty.kvars_renumber, substs.kvars_renumber,
      List.map_append]

end

mutual

/-- The variables of a renumbered type that are not reached are renumbered. -/
lemma Ty.unreached_renumber : ∀ ty : Ty,
    (ty.renumber π).unreached = ty.unreached.map (Prod.map id π)
  | .exists_ bty (.kvar _ _) => bty.unreached_renumber
  | .exists_ bty (.expr _) => bty.kvars_renumber π
  | .refine bty _ => bty.kvars_renumber π
  | .ref ty => ty.unreached_renumber
  | .uninit | .strgRef _ | .param _ => rfl

/-- The same for base types. -/
lemma BaseTy.unreached_renumber : ∀ bty : BaseTy,
    (bty.renumber π).unreached = bty.unreached.map (Prod.map id π)
  | .adt _ substs => substs.unreached_renumber
  | .int _ | .uint _ | .bool => rfl

/-- The same for type arguments. -/
lemma Substs.unreached_renumber : ∀ substs : Substs,
    (substs.renumber π).unreached = substs.unreached.map (Prod.map id π)
  | .nil => rfl
  | .cons ty substs => by
    rw [Substs.renumber, Substs.unreached, Substs.unreached, ty.unreached_renumber,
      substs.unreached_renumber, List.map_append]

end

end Renumber

/-- The unknown predicate of a type itself. -/
def Ty.kvarOf : Ty → Option (Srt × KVid)
  | .exists_ bty (.kvar kvid _) => some (bty.sort, kvid)
  | _ => none

mutual

/-- The first traversal sees all unknown predicates. -/
lemma Ty.filterMap_walk : ∀ ty : Ty, ty.walk.filterMap Ty.kvarOf = ty.kvars
  | .exists_ bty (.kvar _ _) => by
    rw [Ty.walk, Ty.kvars, List.filterMap_cons, Ty.kvarOf, bty.filterMap_walk]
  | .exists_ bty (.expr _) => by
    rw [Ty.walk, Ty.kvars, List.filterMap_cons, Ty.kvarOf, bty.filterMap_walk]
    simp
  | .refine bty _ => by
    rw [Ty.walk, Ty.kvars, List.filterMap_cons, Ty.kvarOf, bty.filterMap_walk]
    all_goals simp
  | .ref ty => by
    rw [Ty.walk, Ty.kvars, List.filterMap_cons, Ty.kvarOf, ty.filterMap_walk]
    all_goals simp
  | .uninit | .strgRef _ | .param _ => rfl

/-- The walk over a base type meets its variables in order. -/
lemma BaseTy.filterMap_walk : ∀ bty : BaseTy, bty.walk.filterMap Ty.kvarOf = bty.kvars
  | .adt _ substs => substs.filterMap_walk
  | .int _ | .uint _ | .bool => rfl

/-- The same for type arguments. -/
lemma Substs.filterMap_walk : ∀ substs : Substs, substs.walk.filterMap Ty.kvarOf = substs.kvars
  | .nil => rfl
  | .cons ty substs => by
    rw [Substs.walk, Substs.kvars, List.filterMap_append, ty.filterMap_walk,
      substs.filterMap_walk]

end

namespace TypeEnv

/-! ## Replacement -/

section Replace

variable {kvars : KVars}

/-- The number of the predicate that replaces an unknown one. -/
def newKvid (kvars : KVars) (kvid : KVid) : KVid :=
  match kvars kvid with
  | some (.kvar kvid' _) => kvid'
  | _ => kvid

/-- What replaces unknown predicates is unknown itself. -/
def OnlyKvars (kvars : KVars) : Prop :=
  ∀ ⦃kvid p⦄, kvars kvid = some p → ∃ args, p = .kvar (newKvid kvars kvid) args

mutual

/-- A type whose unknown predicates are collected can be replaced. -/
lemma exists_replaceKvars : ∀ ty : Ty, (∀ x ∈ ty.kvars, (kvars x.2).isSome) →
    ∃ ty', replaceKvars kvars ty = some ty'
  | .exists_ bty (.kvar kvid args), h => by
    obtain ⟨bty', hbty'⟩ := exists_replaceKvarsBty bty fun x hx => h x (.tail _ hx)
    obtain ⟨p, hp⟩ := Option.isSome_iff_exists.mp (h (bty.sort, kvid) (.head _))
    exact ⟨.exists_ bty' p, by rw [replaceKvars, hbty', hp]; rfl⟩
  | .exists_ bty (.expr e), _ => ⟨.exists_ bty (.expr e), by rw [replaceKvars]⟩
  | .refine bty e, _ => ⟨.refine bty e, by rw [replaceKvars]⟩
  | .ref ty, h => by
    obtain ⟨ty', hty'⟩ := exists_replaceKvars ty h
    exact ⟨.ref ty', by rw [replaceKvars, hty']; rfl⟩
  | .uninit, _ => ⟨.uninit, by rw [replaceKvars]⟩
  | .strgRef loc, _ => ⟨.strgRef loc, by rw [replaceKvars]⟩
  | .param p, _ => ⟨.param p, by rw [replaceKvars]⟩

/-- Replacing succeeds where every variable has a replacement. -/
lemma exists_replaceKvarsBty : ∀ bty : BaseTy, (∀ x ∈ bty.kvars, (kvars x.2).isSome) →
    ∃ bty', replaceKvarsBty kvars bty = some bty'
  | .adt did substs, h => by
    obtain ⟨substs', hsubsts'⟩ := exists_replaceKvarsSubsts substs h
    exact ⟨.adt did substs', by rw [replaceKvarsBty, hsubsts']; rfl⟩
  | .int int_ty, _ => ⟨.int int_ty, by rw [replaceKvarsBty]⟩
  | .uint uint_ty, _ => ⟨.uint uint_ty, by rw [replaceKvarsBty]⟩
  | .bool, _ => ⟨.bool, by rw [replaceKvarsBty]⟩

/-- The same for type arguments. -/
lemma exists_replaceKvarsSubsts : ∀ substs : Substs,
    (∀ x ∈ substs.kvars, (kvars x.2).isSome) →
    ∃ substs', replaceKvarsSubsts kvars substs = some substs'
  | .nil, _ => ⟨.nil, by rw [replaceKvarsSubsts]⟩
  | .cons ty substs, h => by
    obtain ⟨ty', hty'⟩ := exists_replaceKvars ty fun x hx => h x (List.mem_append_left _ hx)
    obtain ⟨substs', hsubsts'⟩ := exists_replaceKvarsSubsts substs fun x hx =>
      h x (List.mem_append_right _ hx)
    exact ⟨.cons ty' substs', by rw [replaceKvarsSubsts, hty', hsubsts']; rfl⟩

end

/-- Replacing keeps the sort. -/
lemma sort_of_replaceKvarsBty {bty bty' : BaseTy} (h : replaceKvarsBty kvars bty = some bty') :
    bty'.sort = bty.sort := by
  cases bty with
  | adt did substs =>
    rw [replaceKvarsBty] at h
    obtain ⟨substs', -, h⟩ := Option.bind_eq_some_iff.mp h
    obtain rfl := Option.some.inj h
    rfl
  | _ =>
    rw [replaceKvarsBty] at h
    obtain rfl := Option.some.inj h
    rfl

mutual

/-- **The unknown predicates of a replaced type**, if all of them are reached. -/
lemma kvars_of_replaceKvars (hk : OnlyKvars kvars) : ∀ (ty : Ty) {ty' : Ty},
    replaceKvars kvars ty = some ty' → ty.unreached = [] →
    ty'.kvars = ty.kvars.map fun x => (x.1, newKvid kvars x.2)
  | .exists_ bty (.kvar kvid args), ty', h, hreach => by
    rw [replaceKvars] at h
    obtain ⟨bty', hbty', h⟩ := Option.bind_eq_some_iff.mp h
    obtain ⟨p, hp, h⟩ := Option.bind_eq_some_iff.mp h
    obtain ⟨args', rfl⟩ := hk hp
    obtain rfl := Option.some.inj h
    rw [Ty.kvars, Ty.kvars, kvars_of_replaceKvarsBty hk bty hbty' hreach,
      sort_of_replaceKvarsBty hbty']
    rfl
  | .exists_ bty (.expr e), ty', h, hreach => by
    rw [replaceKvars] at h
    obtain rfl := Option.some.inj h
    change bty.kvars = [] at hreach
    show bty.kvars = bty.kvars.map _
    rw [hreach]
    rfl
  | .refine bty e, ty', h, hreach => by
    rw [replaceKvars] at h
    obtain rfl := Option.some.inj h
    change bty.kvars = [] at hreach
    show bty.kvars = bty.kvars.map _
    rw [hreach]
    rfl
  | .ref ty, ty', h, hreach => by
    rw [replaceKvars] at h
    obtain ⟨ty'', hty'', h⟩ := Option.bind_eq_some_iff.mp h
    obtain rfl := Option.some.inj h
    have hkvars := kvars_of_replaceKvars hk ty hty'' hreach
    exact hkvars
  | .uninit, ty', h, _ | .strgRef _, ty', h, _ | .param _, ty', h, _ => by
    rw [replaceKvars] at h
    obtain rfl := Option.some.inj h
    rfl

/-- Where all are reached, the variables are replaced one by one. -/
lemma kvars_of_replaceKvarsBty (hk : OnlyKvars kvars) : ∀ (bty : BaseTy) {bty' : BaseTy},
    replaceKvarsBty kvars bty = some bty' → bty.unreached = [] →
    bty'.kvars = bty.kvars.map fun x => (x.1, newKvid kvars x.2)
  | .adt did substs, bty', h, hreach => by
    rw [replaceKvarsBty] at h
    obtain ⟨substs', hsubsts', h⟩ := Option.bind_eq_some_iff.mp h
    obtain rfl := Option.some.inj h
    exact kvars_of_replaceKvarsSubsts hk substs hsubsts' hreach
  | .int _, bty', h, _ | .uint _, bty', h, _ | .bool, bty', h, _ => by
    rw [replaceKvarsBty] at h
    obtain rfl := Option.some.inj h
    rfl

/-- The same for type arguments. -/
lemma kvars_of_replaceKvarsSubsts (hk : OnlyKvars kvars) : ∀ (substs : Substs) {substs' : Substs},
    replaceKvarsSubsts kvars substs = some substs' → substs.unreached = [] →
    substs'.kvars = substs.kvars.map fun x => (x.1, newKvid kvars x.2)
  | .nil, substs', h, _ => by
    rw [replaceKvarsSubsts] at h
    obtain rfl := Option.some.inj h
    rfl
  | .cons ty substs, substs', h, hreach => by
    rw [replaceKvarsSubsts] at h
    obtain ⟨ty', hty', h⟩ := Option.bind_eq_some_iff.mp h
    obtain ⟨substs'', hsubsts'', h⟩ := Option.bind_eq_some_iff.mp h
    obtain rfl := Option.some.inj h
    obtain ⟨hreach1, hreach2⟩ := List.append_eq_nil_iff.mp hreach
    rw [Substs.kvars, Substs.kvars, kvars_of_replaceKvars hk ty hty' hreach1,
      kvars_of_replaceKvarsSubsts hk substs hsubsts'' hreach2, List.map_append]

end

mutual

/-- **What is not reached stays.** -/
lemma mem_kvars_of_unreached {x : Srt × KVid} : ∀ (ty : Ty) {ty' : Ty},
    replaceKvars kvars ty = some ty' → x ∈ ty.unreached → x ∈ ty'.kvars
  | .exists_ bty (.kvar kvid args), ty', h, hx => by
    rw [replaceKvars] at h
    obtain ⟨bty', hbty', h⟩ := Option.bind_eq_some_iff.mp h
    obtain ⟨p, hp, h⟩ := Option.bind_eq_some_iff.mp h
    obtain rfl := Option.some.inj h
    have hmem := mem_kvars_of_unreachedBty bty hbty' hx
    cases p with
    | kvar kvid' args' => exact .tail _ hmem
    | expr e => exact hmem
  | .exists_ bty (.expr e), ty', h, hx => by
    rw [replaceKvars] at h
    obtain rfl := Option.some.inj h
    exact hx
  | .refine bty e, ty', h, hx => by
    rw [replaceKvars] at h
    obtain rfl := Option.some.inj h
    exact hx
  | .ref ty, ty', h, hx => by
    rw [replaceKvars] at h
    obtain ⟨ty'', hty'', h⟩ := Option.bind_eq_some_iff.mp h
    obtain rfl := Option.some.inj h
    have hmem := mem_kvars_of_unreached ty hty'' hx
    exact hmem

/-- A variable that is not reached stays. -/
lemma mem_kvars_of_unreachedBty {x : Srt × KVid} : ∀ (bty : BaseTy) {bty' : BaseTy},
    replaceKvarsBty kvars bty = some bty' → x ∈ bty.unreached → x ∈ bty'.kvars
  | .adt did substs, bty', h, hx => by
    rw [replaceKvarsBty] at h
    obtain ⟨substs', hsubsts', h⟩ := Option.bind_eq_some_iff.mp h
    obtain rfl := Option.some.inj h
    exact mem_kvars_of_unreachedSubsts substs hsubsts' hx

/-- The same for type arguments. -/
lemma mem_kvars_of_unreachedSubsts {x : Srt × KVid} : ∀ (substs : Substs) {substs' : Substs},
    replaceKvarsSubsts kvars substs = some substs' → x ∈ substs.unreached → x ∈ substs'.kvars
  | .cons ty substs, substs', h, hx => by
    rw [replaceKvarsSubsts] at h
    obtain ⟨ty', hty', h⟩ := Option.bind_eq_some_iff.mp h
    obtain ⟨substs'', hsubsts'', h⟩ := Option.bind_eq_some_iff.mp h
    obtain rfl := Option.some.inj h
    rcases List.mem_append.mp hx with hx | hx
    · exact List.mem_append_left _ (mem_kvars_of_unreached ty hty' hx)
    · exact List.mem_append_right _ (mem_kvars_of_unreachedSubsts substs hsubsts'' hx)

end

end Replace

/-! ## Collection -/

/-- The sort of the base type that an unknown predicate refines first. -/
def firstSort (occurrences : List (Srt × KVid)) (kvid : KVid) : Option Srt :=
  (occurrences.find? fun x => x.2 = kvid).map Prod.fst

/-- An unknown predicate that was declared between two states of a cursor, with the sort `s`. -/
def DeclaredBetween (c c' : Cursor) (s : Srt) (kvid : KVid) : Prop :=
  c.builder.kvars.length ≤ kvid ∧ ∃ sorts, c'.builder.kvars[kvid]? = some (s :: sorts)

/-- **What is collected**: a new unknown predicate for each of the shape, which has the sort with
which that one occurs first. -/
structure Collected (c c' : Cursor) (occurrences : List (Srt × KVid)) (kvars : KVars) : Prop where
  valid : c'.Valid
  length_ge : c.builder.kvars.length ≤ c'.builder.kvars.length
  length_le : c'.builder.kvars.length ≤ c.builder.kvars.length + occurrences.length
  only : OnlyKvars kvars
  uncollected : ∀ kvid, firstSort occurrences kvid = none → kvars kvid = none
  collected : ∀ kvid s, firstSort occurrences kvid = some s →
    (kvars kvid).isSome ∧ DeclaredBetween c c' s (newKvid kvars kvid)

/-- The first sort in two lists is that in the first, or else in the second. -/
lemma firstSort_append (l l' : List (Srt × KVid)) (kvid : KVid) :
    firstSort (l ++ l') kvid = (firstSort l kvid).or (firstSort l' kvid) := by
  rw [firstSort, List.find?_append, Option.map_or, firstSort, firstSort]

/-- A variable that occurs has a first sort. -/
lemma exists_firstSort {l : List (Srt × KVid)} {x : Srt × KVid} (hx : x ∈ l) :
    ∃ s, firstSort l x.2 = some s := by
  have hfind : (l.find? fun y => y.2 = x.2).isSome := List.find?_isSome.mpr ⟨x, hx, by simp⟩
  obtain ⟨y, hy⟩ := Option.isSome_iff_exists.mp hfind
  exact ⟨y.1, by rw [firstSort, hy]; rfl⟩

/-- The first sort of the only variable. -/
@[simp] lemma firstSort_singleton_self (s : Srt) (kvid : KVid) :
    firstSort [(s, kvid)] kvid = some s := by
  simp [firstSort]

/-- Another variable has none. -/
lemma firstSort_singleton_of_ne {s : Srt} {kvid kvid' : KVid} (h : kvid' ≠ kvid) :
    firstSort [(s, kvid)] kvid' = none := by
  simp [firstSort, h.symm]

/-- The variable recorded is the one found. -/
@[simp] lemma newKvid_update_self {kvars : KVars} {kvid kvid' : KVid} {args : List Expr} :
    newKvid (Function.update kvars kvid (some (.kvar kvid' args))) kvid = kvid' := by
  simp [newKvid]

/-- Recording one keeps the others. -/
lemma newKvid_update_of_ne {kvars : KVars} {kvid kvid' : KVid} {p : Pred} (h : kvid' ≠ kvid) :
    newKvid (Function.update kvars kvid (some p)) kvid' = newKvid kvars kvid' := by
  rw [newKvid, Function.update_of_ne h, newKvid]

section Collected

variable {c c' : Cursor} {occurrences : List (Srt × KVid)} {kvars : KVars} {kvid : KVid} {s : Srt}

/-- An unknown predicate that was seen before. -/
lemma Collected.seen (h : Collected c c' occurrences kvars) (hk : (kvars kvid).isSome) :
    Collected c c' (occurrences ++ [(s, kvid)]) kvars := by
  have hfirst : ∀ kvid', firstSort (occurrences ++ [(s, kvid)]) kvid' =
      firstSort occurrences kvid' := by
    intro kvid'
    rw [firstSort_append]
    by_cases hkvid : kvid' = kvid
    · subst hkvid
      cases hsort : firstSort occurrences kvid' with
      | none => exact absurd hk (by rw [h.uncollected kvid' hsort]; simp)
      | some s' => rfl
    · rw [firstSort_singleton_of_ne hkvid, Option.or_none]
  refine ⟨h.valid, h.length_ge, ?_, h.only, fun kvid' hnone => ?_, fun kvid' s' hsome => ?_⟩
  · have := h.length_le
    rw [List.length_append, List.length_singleton]
    omega
  · rw [hfirst] at hnone
    exact h.uncollected kvid' hnone
  · rw [hfirst] at hsome
    exact h.collected kvid' s' hsome

/-- A new unknown predicate is declared. -/
lemma Collected.insert (h : Collected c c' occurrences kvars)
    (hnone : firstSort occurrences kvid = none) {sorts : List Srt} {args : List Expr}
    (hvalid : Cursor.Valid { c' with builder.kvars := c'.builder.kvars ++ [s :: sorts] }) :
    Collected c { c' with builder.kvars := c'.builder.kvars ++ [s :: sorts] }
      (occurrences ++ [(s, kvid)])
      (Function.update kvars kvid (some (.kvar c'.builder.kvars.length args))) := by
  have hge := h.length_ge
  have hle := h.length_le
  refine ⟨hvalid, ?_, ?_, fun kvid' p hp => ?_, fun kvid' hnone' => ?_, fun kvid' s' hsome => ?_⟩
  · rw [List.length_append]
    omega
  · rw [List.length_append, List.length_append, List.length_singleton, List.length_singleton]
    omega
  · by_cases hkvid : kvid' = kvid
    · subst hkvid
      rw [Function.update_self] at hp
      rw [newKvid_update_self]
      exact ⟨args, (Option.some.inj hp).symm⟩
    · rw [Function.update_of_ne hkvid] at hp
      rw [newKvid_update_of_ne hkvid]
      exact h.only hp
  · rw [firstSort_append, Option.or_eq_none_iff] at hnone'
    have hkvid : kvid' ≠ kvid := by
      rintro rfl
      simp at hnone'
    rw [Function.update_of_ne hkvid]
    exact h.uncollected kvid' hnone'.1
  · rw [firstSort_append] at hsome
    by_cases hkvid : kvid' = kvid
    · subst hkvid
      rw [hnone, firstSort_singleton_self, Option.none_or] at hsome
      obtain rfl := Option.some.inj hsome
      rw [newKvid_update_self]
      exact ⟨by simp, hge, sorts, by simp⟩
    · rw [firstSort_singleton_of_ne hkvid, Option.or_none] at hsome
      obtain ⟨hk, hlen, sorts', hsorts'⟩ := h.collected kvid' s' hsome
      rw [newKvid_update_of_ne hkvid, Function.update_of_ne hkvid]
      refine ⟨hk, hlen, sorts', ?_⟩
      rw [List.getElem?_append_left (List.getElem?_eq_some_iff.mp hsorts').1]
      exact hsorts'

end Collected

/-- One type after the others. -/
lemma wp_collectKvar {c c' : Cursor} {occurrences : List (Srt × KVid)} {kvars : KVars}
    (h : Collected c c' occurrences kvars) (ty : Ty) :
    wp (collectKvar kvars ty) (fun kvars c' =>
      Collected c c' (occurrences ++ ty.kvarOf.toList) kvars) (fun _ => False) c' := by
  unfold collectKvar
  split
  · next bty kvid args =>
    split
    · next p hp => exact h.seen (by simp [hp])
    · next hnone =>
      have hsort : firstSort occurrences kvid = none := by
        cases hsort : firstSort occurrences kvid with
        | none => rfl
        | some s =>
          have hk := (h.collected kvid s hsort).1
          rw [hnone] at hk
          cases hk
      rw [wp_bind, freshKvarAtLastScope, wp_bind, wp_get, wp,
        run_freshKvarAtScope _ h.valid.lastScope_le]
      exact h.insert hsort ⟨h.valid.labels, h.valid.nvars, h.valid.scopes⟩
  · next hty =>
    have hnone : ty.kvarOf = none := by
      unfold Ty.kvarOf
      split
      · next bty kvid args => exact absurd rfl (hty bty kvid args)
      · rfl
    rw [hnone]
    show Collected c c' (occurrences ++ []) kvars
    rwa [List.append_nil]

/-- **The unknown predicates of a shape are collected.** -/
lemma wp_collect {c : Cursor} (hc : c.Valid) (tys : List Ty) :
    wp (tys.foldlM collectKvar fun _ => none)
      (fun kvars c' => Collected c c' (tys.filterMap Ty.kvarOf) kvars) (fun _ => False) c := by
  refine wp_foldlM_done (I := fun done kvars c' => Collected c c' (done.filterMap Ty.kvarOf) kvars)
    (fun done ty rest _ kvars c' h => ?_) ?_
  · have hstep := wp_collectKvar h ty
    have hmap : [ty].filterMap Ty.kvarOf = ty.kvarOf.toList := by
      rw [List.filterMap_cons]
      cases ty.kvarOf <;> rfl
    rw [List.filterMap_append, hmap]
    exact hstep
  · exact ⟨hc, le_rfl, by simp, fun _ _ h => (nomatch h), fun _ _ => rfl,
      fun _ _ h => (nomatch h)⟩

/-! ## The environment -/

variable {env : TypeEnv} {shape : TypeEnvShape}

/-- The location of the new environment for a location of the shape. -/
def target (env : TypeEnv) (shape : TypeEnvShape) (loc : Loc) : Loc :=
  (env.renamedLocs shape loc).getD loc

/-- Whether the new environment gets the type of the given one, and not that of the shape. -/
def isKept : Ty → Ty → Bool
  | .refine _ _, .refine _ _ | .strgRef _, .strgRef _ | _, .uninit => true
  | _, _ => false

/-- The last entry of the shape for a location. -/
def Written (target : Loc → Loc) (shape : TypeEnvShape) (p : Loc × Ty) : Prop :=
  ∃ before after, shape = before ++ p :: after ∧ ∀ q ∈ after, target q.1 ≠ target p.1

/-- The entries of the shape whose types the new environment gets. -/
def TakenOver (env : TypeEnv) (shape : TypeEnvShape) (p : Loc × Ty) : Prop :=
  Written (env.target shape) shape p ∧
    ∀ ty2, env.lookupLoc (env.target shape p.1) = some ty2 → isKept p.2 ty2 = false

/-- The unknown predicates of a shape, in the order in which they are collected. -/
def shapeKvars (shape : TypeEnvShape) : List (Srt × KVid) :=
  shape.flatMap fun p => p.2.kvars

/-- The types of the new environment, with the new unknown predicates. -/
structure Results (env : TypeEnv) (target : Loc → Loc) (shape : TypeEnvShape) (kvars : KVars)
    (bbEnv : TypeEnv) : Prop where
  entry : ∀ loc ty, bbEnv.lookupLoc loc = some ty → ∃ p, Written target shape p ∧
    target p.1 = loc
  lookup : ∀ p, Written target shape p → ∃ ty2 ty, env.lookupLoc (target p.1) = some ty2 ∧
    inferTy kvars p.2 ty2 = some ty ∧ bbEnv.lookupLoc (target p.1) = some ty

/-- A type that is kept is kept as it is. -/
lemma inferTy_of_isKept {kvars : KVars} {ty1 ty2 : Ty} (h : isKept ty1 ty2 = true) :
    inferTy kvars ty1 ty2 = some ty2 := by
  unfold isKept at h
  split at h
  · rfl
  · rfl
  · cases ty1 <;> rfl
  · cases h

/-- Any other has its variables replaced. -/
lemma inferTy_of_not_isKept {kvars : KVars} {ty1 ty2 : Ty} (h : isKept ty1 ty2 = false) :
    inferTy kvars ty1 ty2 = replaceKvars kvars ty1 := by
  cases ty1 <;> cases ty2 <;> first | rfl | cases h

/-- The walk over a shape meets its variables in order. -/
lemma filterMap_walk_shape (shape : TypeEnvShape) :
    (shape.flatMap fun p => p.2.walk).filterMap Ty.kvarOf = shapeKvars shape := by
  induction shape with
  | nil => rfl
  | cons p shape ih =>
    rw [List.flatMap_cons, List.filterMap_append, ih, Ty.filterMap_walk, shapeKvars, shapeKvars,
      List.flatMap_cons]

/-- An entry is written after the others. -/
lemma written_append_singleton {target : Loc → Loc} {p q : Loc × Ty} :
    Written target (shape ++ [q]) p ↔
      p = q ∨ (Written target shape p ∧ target q.1 ≠ target p.1) := by
  constructor
  · rintro ⟨before, after, hshape, hafter⟩
    rcases List.eq_nil_or_concat' after with rfl | ⟨after, r, rfl⟩
    · have hlast := (List.append_inj' hshape rfl).2
      exact .inl (List.cons.inj hlast).1.symm
    · have hshape' : shape ++ [q] = (before ++ p :: after) ++ [r] := by
        rw [hshape]
        simp
      obtain ⟨rfl, hq⟩ := List.append_inj' hshape' rfl
      obtain rfl := (List.cons.inj hq).1
      exact .inr ⟨⟨before, after, rfl, fun r hr => hafter r (List.mem_append_left _ hr)⟩,
        hafter q (by simp)⟩
  · rintro (rfl | ⟨⟨before, after, rfl, hafter⟩, hne⟩)
    · exact ⟨shape, [], rfl, by simp⟩
    · refine ⟨before, after ++ [q], by simp, fun r hr => ?_⟩
      rcases List.mem_append.mp hr with hr | hr
      · exact hafter r hr
      · exact List.mem_singleton.mp hr ▸ hne

/-- **The environment of a join point** is made if the locations have types. -/
lemma wp_inferBbEnv_results {c : Cursor} (hc : c.Valid)
    (hshape : ∀ p ∈ shape, (env.lookupLoc (env.target shape p.1)).isSome) :
    wp (env.inferBbEnv shape) (fun bbEnv c' => ∃ kvars,
        Collected c c' (shapeKvars shape) kvars ∧
        Results env (env.target shape) shape kvars bbEnv) (fun _ => False) c := by
  rw [inferBbEnv, wp_bind]
  refine wp_imp (wp_collect hc _) fun kvars c' hcollect => ?_
  rw [filterMap_walk_shape] at hcollect
  refine wp_imp (wp_foldlM_done (I := fun done bbEnv c'' => c'' = c' ∧
      Results env (env.target shape) done kvars bbEnv) ?step ?start)
    fun bbEnv c'' hdone => ⟨kvars, hdone.1 ▸ hcollect, hdone.2⟩
  case start =>
    refine ⟨rfl, fun loc ty h => absurd h (by simp [new, lookupLoc]), fun p hp => ?_⟩
    obtain ⟨before, after, hnil, -⟩ := hp
    simp at hnil
  case step =>
    rintro done ⟨loc, ty1⟩ rest hlist bbEnv c'' ⟨rfl, hresults⟩
    have hp : (loc, ty1) ∈ shape := by simp [hlist]
    obtain ⟨ty2, hty2⟩ := Option.isSome_iff_exists.mp (hshape _ hp)
    -- all unknown predicates of the type are collected
    have hkvars : ∀ x ∈ ty1.kvars, (kvars x.2).isSome := by
      intro x hx
      obtain ⟨s, hs⟩ := exists_firstSort (l := shapeKvars shape)
        (List.mem_flatMap.mpr ⟨(loc, ty1), hp, hx⟩)
      exact (hcollect.collected x.2 s hs).1
    obtain ⟨ty, hty⟩ : ∃ ty, inferTy kvars ty1 ty2 = some ty := by
      cases hkept : isKept ty1 ty2 with
      | true => exact ⟨ty2, inferTy_of_isKept hkept⟩
      | false =>
        rw [inferTy_of_not_isKept hkept]
        exact exists_replaceKvars ty1 hkvars
    have htarget : (env.renamedLocs shape loc).getD loc = env.target shape loc := rfl
    dsimp only at hty2 ⊢
    rw [htarget, hty2, wp_bind, wp_orFail]
    refine ⟨fun ty2' hty2' => ?_, fun hnone => by cases hnone⟩
    obtain rfl := Option.some.inj hty2'
    rw [wp_bind, wp_orFail, hty]
    refine ⟨fun ty' hty' => ?_, fun hnone => by cases hnone⟩
    obtain rfl := Option.some.inj hty'
    refine ⟨rfl, fun l tyl hl => ?_, fun p hp => ?_⟩
    · by_cases hloc : l = env.target shape loc
      · exact ⟨(loc, ty1), written_append_singleton.mpr (.inl rfl), hloc.symm⟩
      · rw [lookupLoc_insertLoc_of_ne hloc] at hl
        obtain ⟨p, hp, rfl⟩ := hresults.entry l tyl hl
        exact ⟨p, written_append_singleton.mpr (.inr ⟨hp, fun h => hloc h.symm⟩), rfl⟩
    · rcases written_append_singleton.mp hp with rfl | ⟨hp, hne⟩
      · exact ⟨ty2, ty, hty2, hty, lookupLoc_insertLoc_self⟩
      · obtain ⟨ty2', ty', hty2', hty', hlookup⟩ := hresults.lookup p hp
        refine ⟨ty2', ty', hty2', hty', ?_⟩
        rwa [lookupLoc_insertLoc_of_ne fun h => hne h.symm]

/-! ## Other numbers -/

section Renumber

variable (π : KVid → KVid)

/-- The unknown predicates of a shape get other numbers. -/
def renumberShape (shape : TypeEnvShape) : TypeEnvShape :=
  shape.map fun p => (p.1, p.2.renumber π)

/-- Renumbering keeps what is kept. -/
lemma isKept_renumber (ty1 ty2 : Ty) : isKept (ty1.renumber π) ty2 = isKept ty1 ty2 := by
  rcases ty1 with ⟨_, _⟩ | ⟨_, _ | _⟩ | _ | _ | _ | _ <;> cases ty2 <;> rfl

/-- Renumbering keeps the targets of the references. -/
lemma target_renumber (shape : TypeEnvShape) :
    env.target (renumberShape π shape) = env.target shape := by
  have hrename : env.renamedLocs (renumberShape π shape) = env.renamedLocs shape := by
    rw [renamedLocs, renumberShape, List.foldl_map, renamedLocs]
    congr 1
    funext locs p
    obtain ⟨loc, ty⟩ := p
    rcases ty with ⟨_, _⟩ | ⟨_, _ | _⟩ | _ | _ | _ | _ <;> rfl
  funext loc
  rw [target, hrename, target]

/-- The variables of a renumbered shape are renumbered. -/
lemma shapeKvars_renumber (shape : TypeEnvShape) :
    shapeKvars (renumberShape π shape) = (shapeKvars shape).map (Prod.map id π) := by
  rw [shapeKvars, renumberShape, List.flatMap_map, shapeKvars, List.map_flatMap]
  congr 1
  funext p
  exact p.2.kvars_renumber π

/-- What is written for a renumbered shape is renumbered. -/
lemma written_renumber {target : Loc → Loc} {p' : Loc × Ty} :
    Written target (renumberShape π shape) p' ↔
      ∃ p, Written target shape p ∧ p' = (p.1, p.2.renumber π) := by
  constructor
  · rintro ⟨before', after', hshape, hafter⟩
    obtain ⟨before, rest, rfl, rfl, hrest⟩ := List.map_eq_append_iff.mp hshape
    obtain ⟨p, after, rfl, rfl, rfl⟩ := List.map_eq_cons_iff.mp hrest
    refine ⟨p, ⟨before, after, rfl, fun q hq => ?_⟩, rfl⟩
    exact hafter (q.1, q.2.renumber π) (List.mem_map.mpr ⟨q, hq, rfl⟩)
  · rintro ⟨p, ⟨before, after, rfl, hafter⟩, rfl⟩
    refine ⟨renumberShape π before, renumberShape π after, ?_, fun q hq => ?_⟩
    · simp [renumberShape]
    · obtain ⟨r, hr, rfl⟩ := List.mem_map.mp hq
      exact hafter r hr

/-- What is taken over from a renumbered shape is renumbered. -/
lemma takenOver_renumber {p' : Loc × Ty} : env.TakenOver (renumberShape π shape) p' ↔
    ∃ p, env.TakenOver shape p ∧ p' = (p.1, p.2.renumber π) := by
  rw [TakenOver, target_renumber, written_renumber]
  constructor
  · rintro ⟨⟨p, hp, rfl⟩, hkept⟩
    refine ⟨p, ⟨hp, fun ty2 hty2 => ?_⟩, rfl⟩
    rw [← isKept_renumber π]
    exact hkept ty2 hty2
  · rintro ⟨p, ⟨hp, hkept⟩, rfl⟩
    refine ⟨⟨p, hp, rfl⟩, fun ty2 hty2 => ?_⟩
    rw [isKept_renumber]
    exact hkept ty2 hty2

variable {π}

/-- An injective renumbering keeps the first sorts. -/
lemma firstSort_renumber (hπ : Function.Injective π) (l : List (Srt × KVid)) (kvid : KVid) :
    firstSort (l.map (Prod.map id π)) (π kvid) = firstSort l kvid := by
  have hfind : ((fun x : Srt × KVid => decide (x.2 = π kvid)) ∘ Prod.map id π) =
      fun x => decide (x.2 = kvid) := by
    funext x
    simp [hπ.eq_iff]
  rw [firstSort, List.find?_map, Option.map_map, hfind, firstSort]
  rfl

end Renumber

/-! ## When all unknown predicates are replaced -/

/-- The unknown predicates of the types of an environment. -/
def HasKvar (env : TypeEnv) (kvid : KVid) : Prop :=
  ∃ loc binding s, env.bindings.lookup loc = some binding ∧
    match binding with
    | .strong ty => (s, kvid) ∈ ty.kvars
    | .weak bound ty => (s, kvid) ∈ bound.kvars ∨ (s, kvid) ∈ ty.kvars

/-- **The unknown predicates are replaced**: those of the new environment are from the given one
or were declared with the sort of the base type that they refine, and where the shape has equal
ones, the new environment has equal ones. -/
structure ReplacesKvars (env : TypeEnv) (shape : TypeEnvShape) (c : Cursor) (bbEnv : TypeEnv)
    (c' : Cursor) : Prop where
  kvars : ∀ loc ty s kvid, bbEnv.lookupLoc loc = some ty → (s, kvid) ∈ ty.kvars →
    env.HasKvar kvid ∨ DeclaredBetween c c' s kvid
  same : ∃ f : KVid → KVid, ∀ p ty, env.TakenOver shape p →
    bbEnv.lookupLoc (env.target shape p.1) = some ty →
    ty.kvars.map Prod.snd = p.2.kvars.map fun x => f x.2

/-- **What the shape has to be**: where the new environment gets its types, all unknown predicates
are reached, and they refine base types of the sort with which they occur first. -/
structure Replaceable (env : TypeEnv) (shape : TypeEnvShape) : Prop where
  reached : ∀ p, env.TakenOver shape p → p.2.unreached = []
  sorts : ∀ p, env.TakenOver shape p → ∀ x ∈ p.2.kvars,
    firstSort (shapeKvars shape) x.2 = some x.1

/-- A replaceable shape stays so when renumbered. -/
lemma Replaceable.renumber (h : env.Replaceable shape) {π : KVid → KVid}
    (hπ : Function.Injective π) : env.Replaceable (renumberShape π shape) where
  reached p' hp' := by
    obtain ⟨p, hp, rfl⟩ := (takenOver_renumber π).mp hp'
    rw [p.2.unreached_renumber, h.reached p hp]
    rfl
  sorts p' hp' x' hx' := by
    obtain ⟨p, hp, rfl⟩ := (takenOver_renumber π).mp hp'
    rw [p.2.kvars_renumber] at hx'
    obtain ⟨x, hx, rfl⟩ := List.mem_map.mp hx'
    rw [shapeKvars_renumber]
    exact (firstSort_renumber hπ _ x.2).trans (h.sorts p hp x hx)

/-- A shape that is replaceable renumbered is so as it stands. -/
lemma Replaceable.of_renumber {π : KVid → KVid} (h : env.Replaceable (renumberShape π shape))
    (hπ : Function.Injective π) : env.Replaceable shape where
  reached p hp := by
    have hreached := h.reached _ ((takenOver_renumber π).mpr ⟨p, hp, rfl⟩)
    rw [p.2.unreached_renumber] at hreached
    exact List.map_eq_nil_iff.mp hreached
  sorts p hp x hx := by
    have hsort := h.sorts _ ((takenOver_renumber π).mpr ⟨p, hp, rfl⟩) (x.1, π x.2) (by
      rw [p.2.kvars_renumber]
      exact List.mem_map.mpr ⟨x, hx, rfl⟩)
    rwa [shapeKvars_renumber, firstSort_renumber hπ] at hsort

/-- A variable in the type of a location is one of the environment. -/
lemma hasKvar_of_lookupLoc {loc : Loc} {ty : Ty} (h : env.lookupLoc loc = some ty) {s : Srt}
    {kvid : KVid} (hk : (s, kvid) ∈ ty.kvars) : env.HasKvar kvid := by
  obtain ⟨binding, hbinding, rfl⟩ := Option.map_eq_some_iff.mp h
  refine ⟨loc, binding, s, hbinding, ?_⟩
  cases binding with
  | strong ty => exact hk
  | weak bound ty => exact .inr hk

/-- The types that the new environment gets from the shape. -/
lemma Results.takenOver {kvars : KVars} {bbEnv : TypeEnv}
    (h : Results env (env.target shape) shape kvars bbEnv) {p : Loc × Ty}
    (hp : env.TakenOver shape p) {ty : Ty}
    (hty : bbEnv.lookupLoc (env.target shape p.1) = some ty) :
    replaceKvars kvars p.2 = some ty := by
  obtain ⟨ty2, ty', hty2, hinfer, hlookup⟩ := h.lookup p hp.1
  obtain rfl := Option.some.inj (hty.symm.trans hlookup)
  rwa [inferTy_of_not_isKept (hp.2 ty2 hty2)] at hinfer

section Replaces

variable {c c' : Cursor} {kvars : KVars} {bbEnv : TypeEnv}

/-- A shape whose unknown predicates are reached. -/
lemma Replaceable.replacesKvars (h : env.Replaceable shape)
    (hcollect : Collected c c' (shapeKvars shape) kvars)
    (hresults : Results env (env.target shape) shape kvars bbEnv) :
    env.ReplacesKvars shape c bbEnv c' where
  kvars loc ty s kvid hty hk := by
    obtain ⟨p, hp, rfl⟩ := hresults.entry loc ty hty
    by_cases htaken : env.TakenOver shape p
    · have hreplace := hresults.takenOver htaken hty
      rw [kvars_of_replaceKvars hcollect.only p.2 hreplace (h.reached p htaken)] at hk
      obtain ⟨x, hx, heq⟩ := List.mem_map.mp hk
      cases heq
      exact .inr (hcollect.collected x.2 x.1 (h.sorts p htaken x hx)).2
    · -- the type is that of the given environment
      obtain ⟨ty2, ty', hty2, hinfer, hlookup⟩ := hresults.lookup p hp
      obtain rfl := Option.some.inj (hty.symm.trans hlookup)
      cases hkept : isKept p.2 ty2 with
      | true =>
        rw [inferTy_of_isKept hkept] at hinfer
        obtain rfl := Option.some.inj hinfer
        exact .inl (hasKvar_of_lookupLoc hty2 hk)
      | false =>
        refine absurd ⟨hp, fun ty2' hty2' => ?_⟩ htaken
        obtain rfl := Option.some.inj (hty2.symm.trans hty2')
        exact hkept
  same := by
    refine ⟨newKvid kvars, fun p ty hp hty => ?_⟩
    rw [kvars_of_replaceKvars hcollect.only p.2 (hresults.takenOver hp hty) (h.reached p hp),
      List.map_map]
    rfl

/-- An unknown predicate with a number that neither the environment nor the builder uses is
replaced only if it is reached, and only by one of its sort. -/
lemma ReplacesKvars.replaceable (h : env.ReplacesKvars shape c bbEnv c')
    (henv : ∀ kvid, env.HasKvar kvid → kvid < c.builder.kvars.length)
    (hcollect : Collected c c' (shapeKvars shape) kvars)
    (hresults : Results env (env.target shape) shape kvars bbEnv)
    (hnew : ∀ x ∈ shapeKvars shape, c'.builder.kvars.length ≤ x.2) : env.Replaceable shape := by
  have hmem : ∀ p, env.TakenOver shape p → ∀ x ∈ p.2.kvars, x ∈ shapeKvars shape := by
    rintro p ⟨⟨before, after, rfl, -⟩, -⟩ x hx
    exact List.mem_flatMap.mpr ⟨p, by simp, hx⟩
  have hreached : ∀ p, env.TakenOver shape p → p.2.unreached = [] := by
    intro p hp
    refine List.eq_nil_iff_forall_not_mem.mpr fun x hx => ?_
    obtain ⟨ty2, ty, hty2, hinfer, hlookup⟩ := hresults.lookup p hp.1
    have hx' := mem_kvars_of_unreached p.2 (hresults.takenOver hp hlookup) hx
    have hlarge := hnew x (hmem p hp x (p.2.unreached_subset hx))
    rcases h.kvars _ ty x.1 x.2 hlookup hx' with hold | ⟨-, sorts, hsorts⟩
    · have hlt := henv x.2 hold
      exact (hlt.trans_le (hcollect.length_ge.trans hlarge)).false
    · have hlt := (List.getElem?_eq_some_iff.mp hsorts).1
      exact (hlt.trans_le hlarge).false
  refine ⟨hreached, fun p hp x hx => ?_⟩
  obtain ⟨ty2, ty, hty2, hinfer, hlookup⟩ := hresults.lookup p hp.1
  obtain ⟨s, hs⟩ := exists_firstSort (hmem p hp x hx)
  obtain ⟨-, hge, sorts, hsorts⟩ := hcollect.collected x.2 s hs
  have hx' : (x.1, newKvid kvars x.2) ∈ ty.kvars := by
    rw [kvars_of_replaceKvars hcollect.only p.2 (hresults.takenOver hp hlookup) (hreached p hp)]
    exact List.mem_map.mpr ⟨x, hx, rfl⟩
  rcases h.kvars _ ty _ _ hlookup hx' with hold | ⟨-, sorts', hsorts'⟩
  · have hlt := henv _ hold
    exact (hlt.trans_le hge).false.elim
  · obtain ⟨rfl, -⟩ := List.cons.inj (Option.some.inj (hsorts.symm.trans hsorts'))
    exact hs

end Replaces

/-- **The unknown predicates of inference are replaced**, whatever their numbers are, if and only
if the shape has none in a base type that is refined by an index or a known predicate, and each
refines base types of one sort, where the environment of the join point gets its types from the
shape.

**Proof sketch.** A run declares one new unknown predicate for each number in the shape, and
replaces those that it reaches (`wp_inferBbEnv_results`). Those inside a base type that is refined
by an index or a known predicate are not reached, and stay. If the numbers of the shape are made
larger than all that are in use, one that stays is neither of the environment nor new, so the
condition holds of the renumbered shape, and with it of the shape. -/
theorem replacesKvars_iff {c : Cursor} (hc : c.Valid)
    (henv : ∀ kvid, env.HasKvar kvid → kvid < c.builder.kvars.length)
    (hshape : ∀ p ∈ shape, (env.lookupLoc (env.target shape p.1)).isSome) :
    (∀ π, Function.Injective π → ∀ bbEnv c',
      (env.inferBbEnv (renumberShape π shape)).run c = .ok (bbEnv, c') →
        env.ReplacesKvars (renumberShape π shape) c bbEnv c') ↔ env.Replaceable shape := by
  have hrun : ∀ π : KVid → KVid, wp (env.inferBbEnv (renumberShape π shape)) (fun bbEnv c' =>
      ∃ kvars, Collected c c' (shapeKvars (renumberShape π shape)) kvars ∧
        Results env (env.target (renumberShape π shape)) (renumberShape π shape) kvars bbEnv)
      (fun _ => False) c := by
    intro π
    refine wp_inferBbEnv_results hc fun p' hp' => ?_
    obtain ⟨p, hp, rfl⟩ := List.mem_map.mp hp'
    rw [target_renumber]
    exact hshape p hp
  constructor
  · intro h
    -- numbers that are not in use
    let n := c.builder.kvars.length + (shapeKvars shape).length
    have hπ : Function.Injective (· + n : KVid → KVid) := fun a b hab => Nat.add_right_cancel hab
    have hnone : ∀ f, ¬((env.inferBbEnv (renumberShape (· + n) shape)).run c = .error f) :=
      fun f hf => (wp_iff.mp (hrun _)).2 f hf
    cases hok : (env.inferBbEnv (renumberShape (· + n) shape)).run c with
    | error f => exact absurd hok (hnone f)
    | ok r =>
      obtain ⟨bbEnv, c'⟩ := r
      obtain ⟨kvars, hcollect, hresults⟩ := (wp_iff.mp (hrun _)).1 bbEnv c' hok
      have hrepl : env.Replaceable (renumberShape (· + n) shape) := by
        refine (h _ hπ bbEnv c' hok).replaceable henv hcollect hresults fun x' hx' => ?_
        rw [shapeKvars_renumber] at hx'
        obtain ⟨x, -, rfl⟩ := List.mem_map.mp hx'
        have hle := hcollect.length_le
        rw [shapeKvars_renumber, List.length_map] at hle
        exact hle.trans (Nat.le_add_left n x.2)
      exact hrepl.of_renumber hπ
  · intro h π hπ bbEnv c' hok
    obtain ⟨kvars, hcollect, hresults⟩ := wp_of_run_ok (hrun π) hok
    exact (h.renumber hπ).replacesKvars hcollect hresults

/-! ## Two shapes -/

/-- An ADT with one argument. -/
def adtTy (ty : Ty) : BaseTy :=
  .adt 0 (.cons ty .nil)

/-- An ADT in an ADT arrives, with index 0 at every level. -/
def nestedEnv : TypeEnv :=
  new.insertLoc (.local_ 0)
    (.refine (adtTy (.refine (adtTy (.refine (.int .i32) .zero)) .zero)) .zero)

/-- The number and the outer index are generalised, but not the index between them. -/
def nestedShape : TypeEnvShape :=
  [(.local_ 0, .exists_
    (adtTy (.refine (adtTy (.exists_ (.int .i32) (.kvar 5 [.var .bound]))) .zero))
    (.kvar 6 [.var .bound]))]

/-- The same with a reference to an ADT and a number next to it. -/
def threeEnv : TypeEnv :=
  (nestedEnv.insertLoc (.local_ 1)
    (.ref (.refine (adtTy (.refine (.int .i32) .zero)) .zero))).insertLoc (.local_ 2)
    (.refine (.int .i32) .zero)

/-- Everything is generalised, but for the number in the ADT behind the reference. The number in
the first ADT and the last number have the same unknown predicate. -/
def threeShape : TypeEnvShape :=
  [(.local_ 0, .exists_
      (adtTy (.exists_ (adtTy (.exists_ (.int .i32) (.kvar 5 [.var .bound])))
        (.kvar 6 [.var .bound])))
      (.kvar 7 [.var .bound])),
    (.local_ 1, .ref (.exists_ (adtTy (.refine (.int .i32) .zero)) (.kvar 8 [.var .bound]))),
    (.local_ 2, .exists_ (.int .i32) (.kvar 5 [.var .bound]))]

/-- An environment without bindings has no unknown predicates. -/
lemma not_hasKvar_new (kvid : KVid) : ¬new.HasKvar kvid := by
  rintro ⟨loc, binding, s, hlookup, -⟩
  simp [new] at hlookup

/-- A type without unknown predicates brings none. -/
lemma not_hasKvar_insertLoc {env : TypeEnv} {kvid : KVid} (henv : ¬env.HasKvar kvid) (loc : Loc)
    {ty : Ty} (hty : ty.kvars = []) : ¬(env.insertLoc loc ty).HasKvar kvid := by
  rintro ⟨loc', binding, s, hlookup, hk⟩
  by_cases hloc : loc' = loc
  · subst hloc
    rw [lookup_insertLoc_self] at hlookup
    obtain rfl := Option.some.inj hlookup
    change (s, kvid) ∈ ty.kvars at hk
    rw [hty] at hk
    cases hk
  · rw [lookup_insertLoc_of_ne hloc] at hlookup
    exact henv ⟨loc', binding, s, hlookup, hk⟩

/-- The example environment has no variable. -/
lemma not_hasKvar_nestedEnv (kvid : KVid) : ¬nestedEnv.HasKvar kvid :=
  not_hasKvar_insertLoc (not_hasKvar_new kvid) _ rfl

/-- The unknown predicates of inference are replaced, at every depth. -/
theorem replacesKvars_three : ∃ bbEnv c',
    (threeEnv.inferBbEnv threeShape).run ConstraintBuilder.new.asCursor = .ok (bbEnv, c') ∧
      threeEnv.ReplacesKvars threeShape ConstraintBuilder.new.asCursor bbEnv c' := by
  have hmem : ∀ p, threeEnv.TakenOver threeShape p → p ∈ threeShape := by
    rintro p ⟨⟨before, after, hshape, -⟩, -⟩
    simp [hshape]
  have hrepl : threeEnv.Replaceable threeShape := by
    have hshape : ∀ p ∈ threeShape, p.2.unreached = [] ∧
        ∀ x ∈ p.2.kvars, firstSort (shapeKvars threeShape) x.2 = some x.1 := by
      decide
    exact ⟨fun p hp => (hshape p (hmem p hp)).1, fun p hp => (hshape p (hmem p hp)).2⟩
  have hkvars : ∀ kvid, ¬threeEnv.HasKvar kvid := fun kvid =>
    not_hasKvar_insertLoc (not_hasKvar_insertLoc (not_hasKvar_nestedEnv kvid) _ rfl) _ rfl
  exact ⟨_, _, rfl, (replacesKvars_iff valid_new (fun kvid h => absurd h (hkvars kvid))
    (by decide)).mpr hrepl id Function.injective_id _ _ rfl⟩

/-- The unknown predicate 5 of inference is in the environment of the check. -/
theorem not_replacesKvars_nested : ∃ bbEnv c',
    (nestedEnv.inferBbEnv nestedShape).run ConstraintBuilder.new.asCursor = .ok (bbEnv, c') ∧
      ¬nestedEnv.ReplacesKvars nestedShape ConstraintBuilder.new.asCursor bbEnv c' := by
  refine ⟨_, _, rfl, fun h => ?_⟩
  rcases h.kvars (.local_ 0) _ .int 5 rfl (by decide) with henv | ⟨-, sorts, hsorts⟩
  · exact not_hasKvar_nestedEnv 5 henv
  · cases hsorts

end TypeEnv

end LiquidRust.Typeck
