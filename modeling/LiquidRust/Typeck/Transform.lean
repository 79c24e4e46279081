import LiquidRust.Typeck.Levels

set_option relaxedAutoImplicit false
set_option autoImplicit false

/-!
# When one environment can be transformed into another one

The transformation of an environment goes from the higher levels to the lower ones. Pointers that
become references weaken what they point to before it is transformed itself.

## Main definitions

* `LiquidRust.Typeck.Ty.HasBase` — an integer or a boolean, with an index or a predicate.
* `LiquidRust.Typeck.TypeEnv.Fits` — what one location of the two environments has to have.

## Main results

* `LiquidRust.Typeck.TypeEnv.wp_transformInto_of_fits` — the transformation completes if all
  locations fit.
* `LiquidRust.Typeck.TypeEnv.wp_transformInto_fits` — it completes only if they do.
-/

namespace LiquidRust.Typeck

open Lib Cursor

/-- A base type of integers or booleans. -/
def BaseTy.isScalar : BaseTy → Bool
  | .adt _ _ => false
  | .int _ | .uint _ | .bool => true

/-- A type with the base type `bty`, and an index or a predicate. -/
inductive Ty.HasBase (bty : BaseTy) : Ty → Prop
  | refine (e : Expr) : HasBase bty (.refine bty e)
  | exists_ (p : Pred) : HasBase bty (.exists_ bty p)

/-- A type has one base type. -/
lemma Ty.HasBase.unique {bty1 bty2 : BaseTy} {ty : Ty} (h1 : ty.HasBase bty1)
    (h2 : ty.HasBase bty2) : bty1 = bty2 := by
  cases h1 <;> cases h2 <;> rfl

/-! ## Subtyping of integers and booleans -/

section Subtyping

variable {tcx : Tcx} {c : Cursor} {bty : BaseTy} {ty1 ty2 : Ty}

/-- A scalar base type compares with itself without effect. -/
lemma wp_btySubtyping_self {sub : Ty → Ty → CursorM Unit} (h : bty.isScalar = true)
    {Q : Unit → Cursor → Prop} {E : Failure → Prop} :
    wp (btySubtyping tcx sub bty bty) Q E c ↔ Q () c := by
  cases bty with
  | adt did substs => exact absurd h (by simp [BaseTy.isScalar])
  | bool => exact Iff.rfl
  | _ => simp [btySubtyping, wp_assert]

/-- An operation that completes leaves a valid cursor. -/
lemma Cursor.Valid.of_completes {α : Type} {m : CursorM α} {E : Failure → Prop} (hc : c.Valid)
    (hm : Framed E m) (h : wp m (fun _ _ => True) (fun _ => False) c) :
    wp m (fun _ c' => c'.Valid) (fun _ => False) c :=
  wp_mono (wp_and (hm c) h) (fun _ _ h' => (h'.1 hc).1) fun _ hf => hf.2

/-- The obligation is pushed after the first type is unpacked. -/
lemma wp_unpackedSubtyping_scalar {sub : Ty → Ty → CursorM Unit} (hbty : bty.isScalar = true)
    (h1 : ty1.HasBase bty) (h2 : ty2.HasBase bty) (hc : c.Valid) :
    wp (Cursor.unpack ty1 >>= fun ty1 => unpackedSubtyping tcx sub ty1 ty2) (fun _ _ => True)
      (fun _ => False) c := by
  have hrefine : ∀ (e : Expr) (c : Cursor), c.Valid →
      wp (unpackedSubtyping tcx sub (.refine bty e) ty2) (fun _ _ => True) (fun _ => False) c := by
    intro e c hc
    cases h2 with
    | refine e2 =>
      rw [unpackedSubtyping, wp_bind, wp_btySubtyping_self hbty]
      exact wp_imp (hc.wp_pushHead _) fun _ _ _ => trivial
    | exists_ p =>
      rw [unpackedSubtyping, wp_bind, wp_btySubtyping_self hbty]
      exact wp_imp (hc.wp_pushHead _) fun _ _ _ => trivial
  rw [wp_bind]
  cases h1 with
  | refine e => exact hrefine e c hc
  | exists_ p =>
    rw [Cursor.unpack, wp_bind, wp_freshName, wp_bind]
    exact wp_mono (wp_pushForall _ _ _ _) (fun _ c' h => hrefine _ c' (h (hc.withNameGen _)).1)
      fun _ hf => hf.2 (hc.withNameGen _)

/-- The obligation for integers and booleans of one type. -/
lemma wp_subtyping_scalar (hstack : 0 < tcx.stack) (hbty : bty.isScalar = true)
    (h1 : ty1.HasBase bty) (h2 : ty2.HasBase bty) (hc : c.Valid) :
    wp (subtyping tcx ty1 ty2) (fun _ c' => c'.Valid) (fun _ => False) c := by
  refine hc.of_completes (Safe.subtyping tcx ty1 ty2) ?_
  obtain ⟨n, hn⟩ := Nat.exists_eq_succ_of_ne_zero hstack.ne'
  have hunpacked : wp (Cursor.unpack ty1 >>= fun ty1 =>
      unpackedSubtyping tcx (subtypingN tcx n) ty1 ty2) (fun _ _ => True) (fun _ => False) c :=
    wp_unpackedSubtyping_scalar hbty h1 h2 hc
  rw [subtyping, hn, subtypingN, wp_snapshot]
  cases h1 with
  | refine e1 =>
    cases h2 with
    | refine e2 =>
      dsimp only
      split
      · exact (wp_btySubtyping_self hbty).mpr trivial
      · exact hunpacked
    | exists_ p2 => exact hunpacked
  | exists_ p1 =>
    cases h2 with
    | refine e2 => exact hunpacked
    | exists_ p2 =>
      dsimp only
      split
      · exact (wp_btySubtyping_self hbty).mpr trivial
      · exact hunpacked

/-- Two types with an obligation that can be stated. -/
inductive Comparable : Ty → Ty → Prop
  | scalar {bty1 bty2 : BaseTy} {ty1 ty2 : Ty} : ty1.HasBase bty1 → ty2.HasBase bty2 →
      Comparable ty1 ty2
  | strgRef (loc : Loc) : Comparable (.strgRef loc) (.strgRef loc)
  | uninit (ty : Ty) : Comparable ty .uninit
  | param (p : Core.ParamTy) : Comparable (.param p) (.param p)

/-- **Subtyping completes only on types that can be compared.** -/
lemma wp_subtyping_comparable (tcx : Tcx) (ty1 ty2 : Ty) (c : Cursor) :
    wp (subtyping tcx ty1 ty2) (fun _ _ => Comparable ty1 ty2) (fun _ => True) c := by
  by_cases hcomp : Comparable ty1 ty2
  · exact wp_of_forall (fun _ _ => hcomp) fun _ => trivial
  rw [subtyping]
  cases tcx.stack with
  | zero => trivial
  | succ n =>
    rw [subtypingN, wp_snapshot]
    cases ty2 with
    | uninit => exact absurd (.uninit ty1) hcomp
    | refine bty2 e2 =>
      cases ty1 with
      | refine bty1 e1 => exact absurd (.scalar (.refine e1) (.refine e2)) hcomp
      | exists_ bty1 p1 => exact absurd (.scalar (.exists_ p1) (.refine e2)) hcomp
      | _ => trivial
    | exists_ bty2 p2 =>
      cases ty1 with
      | refine bty1 e1 => exact absurd (.scalar (.refine e1) (.exists_ p2)) hcomp
      | exists_ bty1 p1 => exact absurd (.scalar (.exists_ p1) (.exists_ p2)) hcomp
      | _ => trivial
    | strgRef loc2 =>
      cases ty1 with
      | strgRef loc1 =>
        have hne : loc1 ≠ loc2 := by
          rintro rfl
          exact hcomp (.strgRef loc1)
        simp [Cursor.unpack, unpackedSubtyping, wp_assert, hne]
      | exists_ bty1 p1 =>
        rw [Cursor.unpack, wp_bind, wp_bind, wp_freshName, wp_bind]
        exact wp_of_forall (fun _ _ => trivial) fun _ => trivial
      | _ => trivial
    | ref ty =>
      cases ty1 with
      | exists_ bty1 p1 =>
        rw [Cursor.unpack, wp_bind, wp_bind, wp_freshName, wp_bind]
        exact wp_of_forall (fun _ _ => trivial) fun _ => trivial
      | _ => trivial
    | param p2 =>
      cases ty1 with
      | param p1 =>
        have hne : p1 ≠ p2 := by
          rintro rfl
          exact hcomp (.param p1)
        simp [Cursor.unpack, unpackedSubtyping, wp_assert, hne]
      | exists_ bty1 p1 =>
        rw [Cursor.unpack, wp_bind, wp_bind, wp_freshName, wp_bind]
        exact wp_of_forall (fun _ _ => trivial) fun _ => trivial
      | _ => trivial

end Subtyping

namespace TypeEnv

variable {tcx : Tcx} {env other : TypeEnv} {c : Cursor} {loc : Loc}

/-! ## What fits -/

/-- **What one location has to have** for a transformation to complete: integers or booleans, one
pointer, or a pointer to an integer or a boolean that becomes a reference. Base types have to be
related by `R`. -/
inductive Fits (R : BaseTy → BaseTy → Prop) (env other : TypeEnv) (loc : Loc) : Prop
  | scalar {bty1 bty2 : BaseTy} {ty1 ty2 : Ty} : env.lookupLoc loc = some ty1 →
      other.lookupLoc loc = some ty2 → ty1.HasBase bty1 → ty2.HasBase bty2 → R bty1 bty2 →
      Fits R env other loc
  | strgRef {loc' : Loc} : env.lookupLoc loc = some (.strgRef loc') →
      other.lookupLoc loc = some (.strgRef loc') → Fits R env other loc
  | ref {loc' : Loc} {bty1 bty2 : BaseTy} {p : Pred} {ty : Ty} :
      env.lookupLoc loc = some (.strgRef loc') →
      other.lookupLoc loc = some (.ref (.exists_ bty2 p)) → env.lookupLoc loc' = some ty →
      ty.HasBase bty1 → R bty1 bty2 → Fits R env other loc

/-- One base type of integers or booleans. -/
def SameScalar (bty1 bty2 : BaseTy) : Prop :=
  bty1 = bty2 ∧ bty1.isScalar = true

/-- The type of a strong binding. -/
lemma wp_strongTy {f : Failure} {Q : Ty → Cursor → Prop} {E : Failure → Prop} {ty : Ty}
    (hty : env.bindings.lookup loc = some (.strong ty)) :
    wp (env.strongTy f loc) Q E c ↔ Q ty c := by
  rw [strongTy, hty, wp_bind]
  exact Iff.rfl

/-- Nothing is weakened away between environments with the same locations. -/
lemma weakening_eq_self (hmem : ∀ loc ∈ env.bindings, loc ∈ other.bindings)
    (huninit : ∀ loc, other.lookupLoc loc ≠ some .uninit) : env.weakening other = env := by
  obtain ⟨bindings⟩ := env
  refine congrArg TypeEnv.mk (retain_eq_self fun e he => ?_)
  obtain ⟨ty, hty⟩ := exists_lookupLoc (hmem e.1 (AList.mem_keys.mpr (List.mem_keys_of_mem he)))
  have hne : ty.isUninit = false := by
    cases ty with
    | uninit => exact absurd hty (huninit e.1)
    | _ => rfl
  simp [hty, hne]

/-! ## Transformations that complete -/

section Complete

/-- What holds while an environment is transformed: integers and booleans keep their base types,
and the pointers that are still to come are as they were. -/
structure TransformInv (env : TypeEnv) (rest : List Loc) (cur : TypeEnv) : Prop where
  strong : cur.AllStrong
  scalar : ∀ ⦃loc ty bty⦄, env.lookupLoc loc = some ty → ty.HasBase bty →
    ∃ ty', cur.lookupLoc loc = some ty' ∧ ty'.HasBase bty
  pointer : ∀ loc ∈ rest, ∀ loc', env.lookupLoc loc = some (.strgRef loc') →
    cur.lookupLoc loc = some (.strgRef loc')

variable {rest : List Loc} {cur : TypeEnv}

/-- A location of an integer or a boolean gets another type with that base type. -/
lemma TransformInv.insert_scalar (h : TransformInv env rest cur) {ty ty' : Ty} {bty : BaseTy}
    (hty : env.lookupLoc loc = some ty) (hbase : ty.HasBase bty) (hbase' : ty'.HasBase bty) :
    TransformInv env rest (cur.insertLoc loc ty') where
  strong := h.strong.insertLoc loc ty'
  scalar := by
    intro l tyl btyl htyl hbasel
    by_cases hl : l = loc
    · subst hl
      obtain rfl := Option.some.inj (hty.symm.trans htyl)
      obtain rfl := hbase.unique hbasel
      exact ⟨ty', lookupLoc_insertLoc_self, hbase'⟩
    · rw [lookupLoc_insertLoc_of_ne hl]
      exact h.scalar htyl hbasel
  pointer := by
    intro l hl l' hl'
    have hne : l ≠ loc := by
      rintro rfl
      obtain rfl := Option.some.inj (hty.symm.trans hl')
      cases hbase
    rw [lookupLoc_insertLoc_of_ne hne]
    exact h.pointer l hl l' hl'

/-- A pointer that is done gets its new type. -/
lemma TransformInv.insert_pointer (h : TransformInv env (loc :: rest) cur) {loc' : Loc} {ty : Ty}
    (hty : env.lookupLoc loc = some (.strgRef loc')) (hnew : loc ∉ rest) :
    TransformInv env rest (cur.insertLoc loc ty) where
  strong := h.strong.insertLoc loc ty
  scalar := by
    intro l tyl btyl htyl hbasel
    have hne : l ≠ loc := by
      rintro rfl
      obtain rfl := Option.some.inj (hty.symm.trans htyl)
      cases hbasel
    rw [lookupLoc_insertLoc_of_ne hne]
    exact h.scalar htyl hbasel
  pointer := by
    intro l hl l' hl'
    rw [lookupLoc_insertLoc_of_ne (ne_of_mem_of_not_mem hl hnew)]
    exact h.pointer l (.tail _ hl) l' hl'

/-- What holds with a location to come holds without it. -/
lemma TransformInv.tail (h : TransformInv env (loc :: rest) cur) : TransformInv env rest cur :=
  ⟨h.strong, h.scalar, fun l hl => h.pointer l (.tail _ hl)⟩

/-- A location that fits is transformed. -/
lemma wp_transformLoc_of_fits (hstack : 0 < tcx.stack) (hother : other.AllStrong)
    (hfits : Fits SameScalar env other loc) (h : TransformInv env (loc :: rest) cur)
    (hnew : loc ∉ rest) (hc : c.Valid) :
    wp (transformLoc tcx other cur loc) (fun cur' c' => c'.Valid ∧ TransformInv env rest cur')
      (fun _ => False) c := by
  rw [transformLoc, wp_bind]
  cases hfits with
  | scalar hty1 hty2 hbase1 hbase2 hsame =>
    obtain ⟨rfl, hscalar⟩ := hsame
    obtain ⟨ty1', hty1', hbase1'⟩ := h.scalar hty1 hbase1
    rw [wp_strongTy (h.strong.lookup hty1'), wp_bind, wp_strongTy (hother.lookup hty2)]
    have hsub := wp_subtyping_scalar hstack hscalar hbase1' hbase2 hc
    have hrest := h.tail.insert_scalar hty1 hbase1 hbase2
    cases hbase1' <;>
    · dsimp only
      rw [wp_bind]
      exact wp_imp hsub fun _ c' hc' => ⟨hc', hrest⟩
  | @strgRef loc' hty1 hty2 =>
    have hty1' := h.pointer loc (.head _) _ hty1
    rw [wp_strongTy (h.strong.lookup hty1'), wp_bind, wp_strongTy (hother.lookup hty2)]
    dsimp only
    rw [wp_bind]
    have hcompletes : wp (subtyping tcx (.strgRef loc') (.strgRef loc')) (fun _ c' => c'.Valid)
        (fun _ => False) c := by
      refine hc.of_completes (Safe.subtyping tcx _ _) ?_
      obtain ⟨n, hn⟩ := Nat.exists_eq_succ_of_ne_zero hstack.ne'
      rw [subtyping, hn, subtypingN, wp_snapshot]
      simp [Cursor.unpack, unpackedSubtyping, wp_assert]
    exact wp_imp hcompletes fun _ c' hc' => ⟨hc', h.insert_pointer hty1 hnew⟩
  | @ref loc' bty1 bty2 p ty hty1 hty2 hty hbase hsame =>
    obtain ⟨rfl, hscalar⟩ := hsame
    have hty1' := h.pointer loc (.head _) _ hty1
    obtain ⟨ty', hty', hbase'⟩ := h.scalar hty hbase
    rw [wp_strongTy (h.strong.lookup hty1'), wp_bind, wp_strongTy (hother.lookup hty2)]
    dsimp only
    rw [wp_bind, refWeak, wp_bind, wp_strongTy (h.strong.lookup hty'), wp_bind]
    refine wp_imp (wp_subtyping_scalar hstack hscalar hbase' (.exists_ p) hc) fun _ c' hc' => ?_
    exact ⟨hc', (h.insert_scalar hty hbase (.exists_ p)).insert_pointer hty1 hnew⟩

/-- **A transformation completes** if all locations fit. -/
theorem wp_transformInto_of_fits (henv : env.AllStrong) (hother : other.AllStrong)
    (hmem : ∀ loc ∈ env.bindings, loc ∈ other.bindings)
    (huninit : ∀ loc, other.lookupLoc loc ≠ some .uninit)
    (hlevel : ∀ loc ty, env.lookupLoc loc = some ty → ∃ k, env.HasLevel ty k ∧ k < tcx.stack)
    (hfits : ∀ loc ∈ env.bindings, Fits SameScalar env other loc) (hc : c.Valid) :
    wp (env.transformInto tcx other) (fun _ _ => True) (fun _ => False) c := by
  rw [transformInto, weakening_eq_self hmem huninit, wp_bind, wp_ofExcept]
  refine post_mono (post_levels tcx env) (fun levels hlevels => ?_) fun _ ⟨loc, ty, hty, hk⟩ => ?_
  · obtain ⟨hok, hkeys⟩ := hlevels
    suffices hfold : ∀ (rest : List Loc) (cur : TypeEnv) (c : Cursor), rest.Nodup →
        (∀ loc ∈ rest, loc ∈ env.bindings) → TransformInv env rest cur → c.Valid →
        wp (rest.foldlM (transformLoc tcx other) cur) (fun _ _ => True) (fun _ => False) c by
      refine hfold _ env c (List.nodup_reverse.mpr (sortedByLevel_nodup tcx levels))
        (fun loc hloc => ?_) ⟨henv, fun _ ty _ hty hb => ⟨ty, hty, hb⟩, fun _ _ _ h => h⟩ hc
      exact (hkeys loc).mp ((mem_sortedByLevel tcx).mp (List.mem_reverse.mp hloc))
    intro rest
    induction rest with
    | nil => exact fun _ _ _ _ _ _ => trivial
    | cons loc rest ih =>
      intro cur c hnodup hrest h hc
      obtain ⟨hnew, hnodup⟩ := List.nodup_cons.mp hnodup
      obtain ⟨k, -, hk⟩ : ∃ k, k = k ∧ 0 < tcx.stack := by
        obtain ⟨ty, hty⟩ := exists_lookupLoc (hrest loc (.head _))
        obtain ⟨k, -, hk⟩ := hlevel loc ty hty
        exact ⟨k, rfl, by omega⟩
      rw [List.foldlM_cons, wp_bind]
      refine wp_imp (wp_transformLoc_of_fits hk hother (hfits loc (hrest loc (.head _))) h hnew hc)
        fun cur' c' h' => ih cur' c' hnodup (fun l hl => hrest l (.tail _ hl)) h'.2 h'.1
  · obtain ⟨k, hk', hlt⟩ := hlevel loc ty hty
    exact absurd (hk k hk') (by omega)

end Complete

/-! ## What follows if a transformation completes -/

section Converse

/-- A location that is still to come has a reference of unknown location. Such a transformation
does not complete. -/
def Doomed (rest : List Loc) (cur : TypeEnv) : Prop :=
  ∃ loc ∈ rest, ∃ ty, cur.lookupLoc loc = some (.ref ty)

/-- What holds while a transformation completes: the locations that are done fit, and the others
are as they were, unless they are integers or booleans. -/
structure CompletesInv (env other : TypeEnv) (done rest : List Loc) (cur : TypeEnv) : Prop where
  fits : ∀ loc ∈ done, Fits (fun _ _ => True) env other loc
  scalar : ∀ loc ∈ rest, ∀ ty', cur.lookupLoc loc = some ty' → env.lookupLoc loc = some ty' ∨
    ∃ ty bty bty', env.lookupLoc loc = some ty ∧ ty.HasBase bty ∧ ty'.HasBase bty'

variable {done rest : List Loc} {cur : TypeEnv}

/-- The type that `strongTy` finds is that of the location. -/
lemma wp_strongTy_lookup {f : Failure} {Q : Ty → Cursor → Prop}
    (hQ : ∀ ty, env.lookupLoc loc = some ty → Q ty c) :
    wp (env.strongTy f loc) Q (fun _ => True) c := by
  rw [strongTy, wp_bind, wp_orFail]
  refine ⟨fun binding hbinding => ?_, fun _ => trivial⟩
  rw [wp_ofExcept]
  cases binding with
  | strong ty => exact hQ ty (by simp [lookupLoc, hbinding, Binding.ty])
  | weak bound ty => trivial

/-- Weakening a location to an existential needs an integer or a boolean there. -/
lemma wp_refWeak_exists {bty : BaseTy} {p : Pred} :
    wp (cur.refWeak tcx loc (.exists_ bty p))
      (fun cur' _ => cur' = cur.insertLoc loc (.exists_ bty p) ∧
        ∃ ty bty', cur.lookupLoc loc = some ty ∧ ty.HasBase bty')
      (fun _ => True) c := by
  rw [refWeak, wp_bind]
  refine wp_strongTy_lookup fun ty hty => ?_
  rw [wp_bind]
  refine wp_imp (wp_subtyping_comparable tcx ty _ c) fun _ c' hcomp => ⟨rfl, ?_⟩
  cases hcomp with
  | scalar h1 _ => exact ⟨ty, _, hty, h1⟩

/-- The references of unknown location stay. -/
def RefsStay (cur cur' : TypeEnv) : Prop :=
  ∀ l ty, cur.lookupLoc l = some (.ref ty) → ∃ ty', cur'.lookupLoc l = some (.ref ty')

/-- Writing a reference keeps the references. -/
lemma RefsStay.insertLoc_ref {cur' : TypeEnv} (h : RefsStay cur cur') (loc : Loc) (ty : Ty) :
    RefsStay cur (cur'.insertLoc loc (.ref ty)) := by
  intro l tyl hl
  by_cases hloc : l = loc
  · exact ⟨ty, hloc ▸ lookupLoc_insertLoc_self⟩
  · rw [lookupLoc_insertLoc_of_ne hloc]
    exact h l tyl hl

/-- Weakening leaves references of unknown location, and a new one if it is to such a type. -/
lemma wp_refWeak : ∀ (cur : TypeEnv) (loc : Loc) (bound : Ty) (c : Cursor),
    wp (cur.refWeak tcx loc bound)
      (fun cur' _ => RefsStay cur cur' ∧
        ∀ bound', bound = .ref bound' → ∃ ty, cur'.lookupLoc loc = some (.ref ty))
      (fun _ => True) c
  | cur, loc, .exists_ bty p, c => by
    refine wp_imp wp_refWeak_exists fun cur' c' ⟨hcur', ty, bty', hty, hbase⟩ =>
      ⟨fun l tyl hl => ?_, fun _ h => nomatch h⟩
    have hne : l ≠ loc := by
      rintro rfl
      obtain rfl := Option.some.inj (hty.symm.trans hl)
      cases hbase
    rw [hcur', lookupLoc_insertLoc_of_ne hne]
    exact ⟨tyl, hl⟩
  | cur, loc, .ref bound, c => by
    rw [refWeak, wp_bind]
    refine wp_strongTy_lookup fun ty hty => ?_
    cases ty with
    | strgRef loc2 =>
      dsimp only
      rw [wp_bind]
      refine wp_imp (wp_refWeak cur loc2 bound c) fun cur' c' h => ⟨?_, fun _ _ => ⟨bound, ?_⟩⟩
      · exact h.1.insertLoc_ref loc bound
      · exact lookupLoc_insertLoc_self
    | ref bound2 =>
      dsimp only
      rw [wp_bind, wp_assert]
      exact ⟨fun _ => ⟨fun l ty hl => ⟨ty, hl⟩, fun _ _ => ⟨bound2, hty⟩⟩, fun _ => trivial⟩
    | _ => trivial
  | cur, loc, .refine _ _, c | cur, loc, .uninit, c | cur, loc, .strgRef _, c
  | cur, loc, .param _, c => by
    rw [refWeak, wp_bind]
    exact wp_strongTy_lookup fun ty _ => trivial

/-- A location is transformed only if it is no reference of unknown location. -/
lemma wp_transformLoc_ref (huninit : ∀ loc, other.lookupLoc loc ≠ some .uninit) :
    wp (transformLoc tcx other cur loc)
      (fun cur' _ => (∀ ty, cur.lookupLoc loc ≠ some (.ref ty)) ∧
        ∀ l ty, l ≠ loc → cur.lookupLoc l = some (.ref ty) →
          ∃ ty', cur'.lookupLoc l = some (.ref ty'))
      (fun _ => True) c := by
  rw [transformLoc, wp_bind]
  refine wp_strongTy_lookup fun ty1 hty1 => ?_
  rw [wp_bind]
  refine wp_strongTy_lookup fun ty2 hty2 => ?_
  have hinsert : ∀ {cur' : TypeEnv}, RefsStay cur cur' → ∀ l ty, l ≠ loc →
      cur.lookupLoc l = some (.ref ty) →
      ∃ ty', (cur'.insertLoc loc ty2).lookupLoc l = some (.ref ty') := by
    intro cur' h l ty hl hty
    rw [lookupLoc_insertLoc_of_ne hl]
    exact h l ty hty
  dsimp only
  split
  · next l' bound =>
    rw [wp_bind]
    refine wp_imp (wp_refWeak cur l' bound c) fun cur' c' h => ⟨fun ty hty => ?_, hinsert h.1⟩
    exact absurd (hty1.symm.trans hty) (by simp)
  · rw [wp_bind]
    refine wp_imp (wp_subtyping_comparable tcx ty1 ty2 c) fun _ c' hcomp => ⟨fun ty hty => ?_,
      hinsert fun l ty hl => ⟨ty, hl⟩⟩
    obtain rfl := Option.some.inj (hty1.symm.trans hty)
    cases hcomp with
    | scalar h1 _ => cases h1
    | uninit => exact huninit loc hty2

/-- A location that is transformed fits, or the transformation does not complete. -/
lemma wp_transformLoc (huninit : ∀ loc, other.lookupLoc loc ≠ some .uninit)
    (hparam : ∀ loc p, env.lookupLoc loc ≠ some (.param p))
    (h : CompletesInv env other done (loc :: rest) cur) (hnew : loc ∉ rest)
    (hrest : ∀ l, env.lookupLoc loc = some (.strgRef l) → l ∈ rest) :
    wp (transformLoc tcx other cur loc)
      (fun cur' _ => Doomed rest cur' ∨ CompletesInv env other (done ++ [loc]) rest cur')
      (fun _ => True) c := by
  rw [transformLoc, wp_bind]
  refine wp_strongTy_lookup fun ty1 hty1 => ?_
  rw [wp_bind]
  refine wp_strongTy_lookup fun ty2 hty2 => ?_
  have hcur := h.scalar loc (.head _) ty1 hty1
  have hdone : ∀ {cur' : TypeEnv}, Fits (fun _ _ => True) env other loc →
      (∀ l ∈ rest, ∀ ty', cur'.lookupLoc l = some ty' → env.lookupLoc l = some ty' ∨
        ∃ ty bty bty', env.lookupLoc l = some ty ∧ ty.HasBase bty ∧ ty'.HasBase bty') →
      CompletesInv env other (done ++ [loc]) rest (cur'.insertLoc loc ty2) := by
    intro cur' hfits hscalar
    refine ⟨fun l hl => ?_, fun l hl ty' hty' => ?_⟩
    · rcases List.mem_append.mp hl with hl | hl
      · exact h.fits l hl
      · exact List.mem_singleton.mp hl ▸ hfits
    · rw [lookupLoc_insertLoc_of_ne (ne_of_mem_of_not_mem hl hnew)] at hty'
      exact hscalar l hl ty' hty'
  dsimp only
  split
  · next l' bound =>
    have henv : env.lookupLoc loc = some (.strgRef l') := by
      rcases hcur with hcur | ⟨_, _, _, _, _, hbase⟩
      · exact hcur
      · cases hbase
    have hl' := hrest l' henv
    rw [wp_bind]
    cases bound with
    | exists_ bty p =>
      refine wp_imp wp_refWeak_exists fun cur' c' ⟨hcur', ty, bty', hty, hbase⟩ => .inr ?_
      -- the location that the pointer leads to is an integer or a boolean in `env`, too
      obtain ⟨ty', bty'', hty', hbase'⟩ : ∃ ty' bty'', env.lookupLoc l' = some ty' ∧
          ty'.HasBase bty'' := by
        rcases h.scalar l' (.tail _ hl') ty hty with henv' | ⟨ty', bty'', _, hty', hbase', _⟩
        · exact ⟨ty, bty', henv', hbase⟩
        · exact ⟨ty', bty'', hty', hbase'⟩
      refine hdone (.ref henv hty2 hty' hbase' trivial) fun l hl tyl htyl => ?_
      by_cases hll : l = l'
      · subst hll
        rw [hcur', lookupLoc_insertLoc_self] at htyl
        obtain rfl := Option.some.inj htyl
        exact .inr ⟨ty', bty'', bty, hty', hbase', .exists_ p⟩
      · rw [hcur', lookupLoc_insertLoc_of_ne hll] at htyl
        exact h.scalar l (.tail _ hl) tyl htyl
    | ref bound =>
      refine wp_imp (wp_refWeak cur l' (.ref bound) c) fun cur' c' h' => .inl ?_
      obtain ⟨ty, hty⟩ := h'.2 bound rfl
      exact ⟨l', hl', ty, by rwa [lookupLoc_insertLoc_of_ne (ne_of_mem_of_not_mem hl' hnew)]⟩
    | _ =>
      rw [refWeak, wp_bind]
      exact wp_strongTy_lookup fun ty _ => trivial
  · rw [wp_bind]
    refine wp_imp (wp_subtyping_comparable tcx ty1 ty2 c)
      fun _ c' hcomp => .inr (hdone ?_ fun l hl =>
      h.scalar l (.tail _ hl))
    cases hcomp with
    | scalar h1 h2 =>
      rcases hcur with hcur | ⟨ty, bty, _, hty, hbase, _⟩
      · exact .scalar hcur hty2 h1 h2 trivial
      · exact .scalar hty hty2 hbase h2 trivial
    | strgRef l' =>
      rcases hcur with hcur | ⟨_, _, _, _, _, hbase⟩
      · exact .strgRef hcur hty2
      · cases hbase
    | uninit => exact absurd hty2 (huninit loc)
    | param p =>
      rcases hcur with hcur | ⟨_, _, _, _, _, hbase⟩
      · exact absurd hcur (hparam loc p)
      · cases hbase

/-- **If a transformation completes, all locations fit.** -/
theorem wp_transformInto_fits
    (hmem : ∀ loc ∈ env.bindings, loc ∈ other.bindings)
    (huninit : ∀ loc, other.lookupLoc loc ≠ some .uninit)
    (hparam : ∀ loc p, env.lookupLoc loc ≠ some (.param p)) :
    wp (env.transformInto tcx other)
      (fun _ _ => ∀ loc ∈ env.bindings, Fits (fun _ _ => True) env other loc) (fun _ => True)
      c := by
  rw [transformInto, weakening_eq_self hmem huninit, wp_bind, wp_ofExcept]
  refine post_mono (post_levels tcx env) (fun levels hlevels => ?_) fun _ _ => trivial
  obtain ⟨hok, hkeys⟩ := hlevels
  have hmemList : ∀ loc, loc ∈ (sortedByLevel tcx levels).reverse ↔ loc ∈ levels := fun loc =>
    List.mem_reverse.trans (mem_sortedByLevel tcx)
  have hnodup := List.nodup_reverse.mpr (sortedByLevel_nodup tcx levels)
  -- what a pointer leads to comes after it
  have hafter : ∀ done loc rest, (sortedByLevel tcx levels).reverse = done ++ loc :: rest →
      ∀ l, env.lookupLoc loc = some (.strgRef l) → l ∈ rest :=
    fun _ _ _ hlist _ hl => hok.mem_after tcx hkeys hlist hl
  suffices hfold : ∀ (done rest : List Loc) (cur : TypeEnv) (c : Cursor),
      (sortedByLevel tcx levels).reverse = done ++ rest →
      Doomed rest cur ∨ CompletesInv env other done rest cur →
      wp (rest.foldlM (transformLoc tcx other) cur)
        (fun _ _ => ∀ loc ∈ env.bindings, Fits (fun _ _ => True) env other loc)
          (fun _ => True) c from
    hfold [] _ env c rfl (.inr ⟨by simp, fun _ _ _ h => .inl h⟩)
  intro done rest
  induction rest generalizing done with
  | nil =>
    rintro cur c hlist (⟨_, hl, _⟩ | h)
    · exact absurd hl (by simp)
    · intro loc hloc
      exact h.fits loc (by simpa [hlist] using (hmemList loc).mpr ((hkeys loc).mpr hloc))
  | cons loc rest ih =>
    intro cur c hlist h
    have hnew : loc ∉ rest := by
      rw [hlist] at hnodup
      exact (List.nodup_cons.mp (List.nodup_append.mp hnodup).2.1).1
    rw [List.foldlM_cons, wp_bind]
    have hnext : done ++ loc :: rest = done ++ [loc] ++ rest := by simp
    rcases h with ⟨l, hl, ty, hty⟩ | h
    · refine wp_imp (wp_transformLoc_ref huninit) fun cur' c' h' => ?_
      refine ih (done ++ [loc]) cur' c' (hlist.trans hnext) (.inl ?_)
      rcases List.mem_cons.mp hl with rfl | hl
      · exact absurd hty (h'.1 ty)
      · obtain ⟨ty', hty'⟩ := h'.2 l ty (ne_of_mem_of_not_mem hl hnew) hty
        exact ⟨l, hl, ty', hty'⟩
    · exact wp_imp (wp_transformLoc huninit hparam h hnew (hafter done loc rest hlist))
        fun cur' c' h' => ih (done ++ [loc]) cur' c' (hlist.trans hnext) h'

end Converse

end TypeEnv

end LiquidRust.Typeck
