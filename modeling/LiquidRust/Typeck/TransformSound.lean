import LiquidRust.Typeck.DanglingJoin
import LiquidRust.Typeck.Stores
import LiquidRust.Typeck.Transform

set_option relaxedAutoImplicit false
set_option autoImplicit false

/-!
# Transformations are sound

A store inhabits an environment if what it has at each location is of the type that the
environment has there. When an environment is transformed into another one, each step weakens
types at some locations, and what it pushes says that the store inhabits the environment that it
leaves. Since pointers come before what they point to, a location that is done stays as it is, and
in the end the environment is the other one.

## Main definitions

* `LiquidRust.Typeck.TypeEnv.Transforming` — what holds while an environment is transformed.

## Main results

* `LiquidRust.Typeck.TypeEnv.transformInto_sound` — transformations are sound.
-/

namespace LiquidRust.Typeck

open Lib Cursor

namespace TypeEnv

/-! ## Weakened environments -/

section Weakening

variable {tcx : Tcx} {I : Interp} {ρ : Valuation} {S : Store} {N : Set Name}
  {env other : TypeEnv} {loc : Loc} {ty : Ty}

/-- A type of a weakened environment is one of the environment, or uninitialised. -/
lemma lookupLoc_weakening_cases (h : (env.weakening other).lookupLoc loc = some ty) :
    env.lookupLoc loc = some ty ∨ ty = .uninit := by
  obtain ⟨binding, hbinding, rfl⟩ := Option.map_eq_some_iff.mp h
  rw [lookup_weakening] at hbinding
  obtain ⟨binding1, h1, hmap⟩ := Option.bind_eq_some_iff.mp hbinding
  obtain ⟨ty2, -, rfl⟩ := Option.map_eq_some_iff.mp hmap
  split
  · exact .inr rfl
  · exact .inl (by rw [lookupLoc, h1]; rfl)

/-- `weakening` keeps the environment inhabited. -/
lemma Inhabits.weakening (h : env.Inhabits tcx I ρ S) (other : TypeEnv) :
    (env.weakening other).Inhabits tcx I ρ S := by
  intro loc ty hty
  rcases lookupLoc_weakening_cases hty with hty | rfl
  · exact h hty
  · trivial

/-- `weakening` keeps the names. -/
lemma Scoped.weakening (h : env.Scoped N) (other : TypeEnv) : (env.weakening other).Scoped N := by
  intro loc ty hty
  rcases lookupLoc_weakening_cases hty with hty | rfl
  · exact h hty
  · trivial

end Weakening

/-! ## The order of the locations -/

section Order

variable {tcx : Tcx} {env other cur : TypeEnv} {loc : Loc} {done rest : List Loc}

/-- Pointers come before what they point to. -/
def PointersFirst (env : TypeEnv) (rest : List Loc) : Prop :=
  ∀ loc ∈ rest, ∀ loc', env.lookupLoc loc = some (.strgRef loc') → loc' ∈ rest

/-- **What holds while an environment is transformed**: the locations that are done have their new
types, and the pointers among the others are as they were. -/
structure Transforming (env other : TypeEnv) (done rest : List Loc) (cur : TypeEnv) : Prop where
  done : ∀ loc ∈ done, cur.bindings.lookup loc = other.bindings.lookup loc
  pointer : ∀ loc ∈ rest, ∀ loc', cur.lookupLoc loc = some (.strgRef loc') →
    env.lookupLoc loc = some (.strgRef loc')

/-- A location that is not done is weakened to a type that is no pointer to a known location. -/
lemma Transforming.weaken (h : Transforming env other done rest cur) (hloc : loc ∉ done)
    {ty : Ty} (hty : ∀ loc', ty ≠ .strgRef loc') :
    Transforming env other done rest (cur.insertLoc loc ty) where
  done := by
    intro l hl
    rw [lookup_insertLoc_of_ne (ne_of_mem_of_not_mem hl hloc)]
    exact h.done l hl
  pointer := by
    intro l hl l' hl'
    by_cases heq : l = loc
    · subst heq
      rw [lookupLoc_insertLoc_self] at hl'
      exact absurd (Option.some.inj hl') (hty l')
    · rw [lookupLoc_insertLoc_of_ne heq] at hl'
      exact h.pointer l hl l' hl'

/-- A location gets its new type. -/
lemma Transforming.step (h : Transforming env other done rest cur) (hnew : loc ∉ rest) {ty : Ty}
    (hty : other.bindings.lookup loc = some (.strong ty)) :
    Transforming env other (done ++ [loc]) rest (cur.insertLoc loc ty) where
  done := by
    intro l hl
    by_cases heq : l = loc
    · subst heq
      rw [lookup_insertLoc_self, hty]
    · rw [lookup_insertLoc_of_ne heq]
      exact h.done l ((List.mem_append.mp hl).resolve_right (by simpa using heq))
  pointer := by
    intro l hl l' hl'
    rw [lookupLoc_insertLoc_of_ne (ne_of_mem_of_not_mem hl hnew)] at hl'
    exact h.pointer l hl l' hl'

/-- What holds with a location to come holds without it. -/
lemma Transforming.tail (h : Transforming env other done (loc :: rest) cur) :
    Transforming env other done rest cur :=
  ⟨h.done, fun l hl => h.pointer l (.tail _ hl)⟩

end Order

/-! ## Weakening what a pointer leads to -/

section Sound

variable {tcx : Tcx} {env other : TypeEnv} {N : Set Name} {done rest : List Loc}

/-- **Weakening a location** proves that what is stored there has the weaker type, and only weakens
types. -/
lemma proves_refWeak (hdone : ∀ l ∈ rest, l ∉ done) (hfirst : PointersFirst env rest) :
    ∀ (cur : TypeEnv) (loc : Loc) (bound : Ty) (c : Cursor), c.Valid →
      (∀ x ∈ N, x < c.builder.nameGen) → cur.Scoped N → bound.Scoped N →
      Transforming env other done rest cur → loc ∈ rest →
      c.Proves (fun cur' => cur'.Scoped N ∧ Transforming env other done rest cur')
        (fun I ρ cur' => ∀ S, cur.Inhabits tcx I ρ S →
          cur'.Inhabits tcx I ρ S ∧ bound.Has tcx S I ρ (S loc))
        (cur.refWeak tcx loc bound)
  | cur, loc, .exists_ bty p, c, hc, hN, hcur, hbound, htrans, hloc => by
    rw [refWeak]
    refine .strongTy fun ty _ hty => ?_
    refine (proves_subtyping hc hN (hcur hty) hbound).bind fun _ c' hc' _ _ => ?_
    refine .pure hc' ⟨hcur.insertLoc hbound, htrans.weaken (hdone loc hloc) (by simp)⟩ ?_
    intro I ρ hsub S hS
    have hhas := hsub S (S loc) (hS hty)
    exact ⟨hS.insertLoc hhas, hhas⟩
  | cur, loc, .ref bound, c, hc, hN, hcur, hbound, htrans, hloc => by
    rw [refWeak]
    refine .strongTy fun ty _ hty => ?_
    cases ty with
    | strgRef loc2 =>
      have hloc2 := hfirst loc hloc loc2 (htrans.pointer loc hloc loc2 hty)
      refine (proves_refWeak hdone hfirst cur loc2 bound c hc hN hcur hbound htrans hloc2).bind
        fun cur' c' hc' _ hproved => ?_
      obtain ⟨hcur', htrans'⟩ := hproved
      refine .pure hc' ⟨hcur'.insertLoc hbound, htrans'.weaken (hdone loc hloc) (by simp)⟩ ?_
      intro I ρ hweak S hS
      obtain ⟨hS', hbound⟩ := hweak S hS
      have hhas : (Ty.ref bound).Has tcx S I ρ (S loc) := ⟨loc2, hS hty, hbound⟩
      exact ⟨hS'.insertLoc hhas, hhas⟩
    | ref bound2 =>
      refine (Proves.assert hc (bound2 = bound)).bind fun _ c' hc' _ heq => ?_
      obtain rfl := of_decide_eq_true heq
      exact .pure hc' ⟨hcur, htrans⟩ fun I ρ _ S hS => ⟨hS, hS hty⟩
    | _ => exact trivial
  | cur, loc, .refine _ _, c, _, _, _, _, _, _ | cur, loc, .uninit, c, _, _, _, _, _, _
  | cur, loc, .strgRef _, c, _, _, _, _, _, _ | cur, loc, .param _, c, _, _, _, _, _, _ => by
    rw [refWeak]
    exact .strongTy fun _ _ _ => trivial

/-- **One location is transformed**: its values have the new type. -/
lemma proves_transformLoc {cur : TypeEnv} {loc : Loc} {c : Cursor}
    (hdone : ∀ l ∈ rest, l ∉ done) (hnew : loc ∉ rest)
    (hfirst : PointersFirst env rest)
    (hrest : ∀ loc', env.lookupLoc loc = some (.strgRef loc') → loc' ∈ rest) (hc : c.Valid)
    (hN : ∀ x ∈ N, x < c.builder.nameGen) (hcur : cur.Scoped N) (hother : other.Scoped N)
    (htrans : Transforming env other done (loc :: rest) cur) :
    c.Proves (fun cur' => cur'.Scoped N ∧ Transforming env other (done ++ [loc]) rest cur')
      (fun I ρ cur' => ∀ S, cur.Inhabits tcx I ρ S → cur'.Inhabits tcx I ρ S)
      (transformLoc tcx other cur loc) := by
  rw [transformLoc]
  refine .strongTy fun ty1 _ hty1 => ?_
  refine .strongTy fun ty2 hty2 hty2' => ?_
  -- what is left to do once the values of the location have the new type
  have hinsert : ∀ (cur' : TypeEnv) (c' : Cursor), c'.Valid → cur'.Scoped N →
      Transforming env other done rest cur' →
      c'.Proves (fun cur'' => cur''.Scoped N ∧ Transforming env other (done ++ [loc]) rest cur'')
        (fun I ρ cur'' => ∀ S, cur'.Inhabits tcx I ρ S → ty2.Has tcx S I ρ (S loc) →
          cur''.Inhabits tcx I ρ S) (Pure.pure (cur'.insertLoc loc ty2)) :=
    fun cur' c' hc' hcur' htrans' => .pure hc'
      ⟨hcur'.insertLoc (hother hty2'), htrans'.step hnew hty2⟩
      fun I ρ S hS hhas => hS.insertLoc hhas
  dsimp only
  split
  · next loc' bound _ =>
    have hloc' : loc' ∈ rest := hrest loc' (htrans.pointer loc (.head _) loc' hty1)
    have hbound : (Ty.ref bound).Scoped N := hother hty2'
    refine (proves_refWeak hdone hfirst cur loc' bound c hc hN hcur hbound htrans.tail hloc').bind
      fun cur' c' hc' _ hproved => ?_
    obtain ⟨hcur', htrans'⟩ := hproved
    refine (hinsert cur' c' hc' hcur' htrans').mono (fun _ h => h) fun I ρ _ _ h hweak S hS => ?_
    obtain ⟨hS', hbound⟩ := hweak S hS
    exact h S hS' ⟨loc', hS hty1, hbound⟩
  · refine (proves_subtyping hc hN (hcur hty1) (hother hty2')).bind fun _ c' hc' _ _ => ?_
    refine (hinsert cur c' hc' hcur htrans.tail).mono (fun _ h => h) fun I ρ _ _ h hsub S hS => ?_
    exact h S hS (hsub S (S loc) (hS hty1))

/-- The locations that are left are transformed one after the other. -/
lemma proves_transformLocs {c : Cursor} (hc : c.Valid) (hN : ∀ x ∈ N, x < c.builder.nameGen)
    {cur : TypeEnv} (hcur : cur.Scoped N) (hother : other.Scoped N)
    (hnodup : (done ++ rest).Nodup)
    (hafter : ∀ done loc rest', rest = done ++ loc :: rest' →
      ∀ l, env.lookupLoc loc = some (.strgRef l) → l ∈ rest')
    (htrans : Transforming env other done rest cur) :
    c.Proves (fun cur' => Transforming env other (done ++ rest) [] cur')
      (fun I ρ cur' => ∀ S, cur.Inhabits tcx I ρ S → cur'.Inhabits tcx I ρ S)
      (rest.foldlM (transformLoc tcx other) cur) := by
  induction rest generalizing done cur c with
  | nil =>
    rw [List.foldlM_nil]
    exact .pure hc (by simpa using htrans) fun I ρ S hS => hS
  | cons loc rest ih =>
    have hfirst : PointersFirst env rest := by
      intro l hl l' hl'
      obtain ⟨before, after, rfl⟩ := List.append_of_mem hl
      have hmem := hafter (loc :: before) l after rfl l' hl'
      exact List.mem_append_right _ (.tail _ hmem)
    have hdone : ∀ l ∈ rest, l ∉ done := fun l hl hl' =>
      (List.nodup_append.mp hnodup).2.2 l hl' l (.tail _ hl) rfl
    have hnew : loc ∉ rest := (List.nodup_cons.mp (List.nodup_append.mp hnodup).2.1).1
    rw [List.foldlM_cons]
    refine (proves_transformLoc hdone hnew hfirst (hafter [] loc rest rfl) hc hN hcur hother
      htrans).bind fun cur' c' hc' hgen ⟨hcur', htrans'⟩ => ?_
    have hnext : done ++ loc :: rest = done ++ [loc] ++ rest := by simp
    rw [hnext] at hnodup ⊢
    refine (ih hc' (fun x hx => (hN x hx).trans_le hgen) hcur' hnodup (fun done' l rest' hlist =>
      hafter (loc :: done') l rest' (by rw [hlist]; rfl)) htrans').mono (fun _ h => h) ?_
    exact fun I ρ _ _ h hstep S hS => h S (hstep S hS)

/-- **Transformations are sound**, and end in the environment that they are into.

**Proof sketch.** The locations are transformed from the higher levels to the lower ones, so that
pointers come before what they point to. Hence weakening changes only locations that are still to
come, and the pointers among these are as they were. Each step proves that the values at the
locations it changes have the new types. -/
theorem transformInto_sound {c c' : Cursor} {env' : TypeEnv} (hc : c.Valid)
    (hN : ∀ x ∈ N, x < c.builder.nameGen) (henv : env.Scoped N) (hother : other.Scoped N)
    (hmem : ∀ loc ∈ other.bindings, loc ∈ env.bindings)
    (hrun : (env.transformInto tcx other).run c = .ok (env', c')) :
    (∃ nodes, Node.append nodes c.builder.root c.node = some c'.builder.root ∧
      ∀ I ρ, Node.AllHold I ρ nodes → ∀ S, env.Inhabits tcx I ρ S → other.Inhabits tcx I ρ S) ∧
      ∀ loc ∈ other.bindings, env'.bindings.lookup loc = other.bindings.lookup loc := by
  have hproves : c.Proves
      (fun env' => ∀ loc ∈ other.bindings, env'.bindings.lookup loc = other.bindings.lookup loc)
      (fun I ρ env' => ∀ S, env.Inhabits tcx I ρ S → env'.Inhabits tcx I ρ S)
      (env.transformInto tcx other) := by
    rw [transformInto, Proves, wp_bind, wp_ofExcept]
    refine post_mono (post_levels tcx _) (fun levels hlevels => ?_) fun _ _ => trivial
    obtain ⟨hok, hkeys⟩ := hlevels
    have hmemList : ∀ loc ∈ other.bindings, loc ∈ (sortedByLevel tcx levels).reverse := by
      intro loc hloc
      rw [List.mem_reverse, mem_sortedByLevel, hkeys]
      exact locSet_weakening.ge ⟨hmem loc hloc, hloc⟩
    have hnodup : ([] ++ (sortedByLevel tcx levels).reverse).Nodup :=
      List.nodup_reverse.mpr (sortedByLevel_nodup tcx levels)
    refine (proves_transformLocs hc hN (henv.weakening other) hother hnodup
      (fun _ _ _ hlist _ hl => hok.mem_after tcx hkeys hlist hl)
      ⟨by simp, fun _ _ _ h => h⟩).mono (fun env' htrans loc hloc => ?_)
      fun I ρ env' _ h S hS => h S (hS.weakening other)
    exact htrans.done loc (hmemList loc hloc)
  obtain ⟨nodes, happ, hfinal, hnodes⟩ := wp_of_run_ok hproves hrun
  refine ⟨⟨nodes, happ.root, fun I ρ hhold S hS loc ty hty => ?_⟩, hfinal⟩
  refine hnodes I ρ hhold S hS ?_
  rw [lookupLoc, hfinal loc (mem_of_lookupLoc hty)]
  exact hty

/-- A pointer to an integer. -/
def pointerTo (ty : Ty) : TypeEnv :=
  (new.insertLoc (.local_ 1) (.strgRef (.local_ 0))).insertLoc (.local_ 0) ty

/-- A reference to an integer. -/
def referenceTo (ty : Ty) : TypeEnv :=
  (new.insertLoc (.local_ 1) (.ref ty)).insertLoc (.local_ 0) ty

/-- A pointer to a positive integer becomes a reference to a nonnegative one. -/
theorem transformInto_sound_pointer :
    ∃ env' c', ((pointerTo (intTy .gt)).transformInto (.ofStack 3) (referenceTo (intTy .ge))).run
        ConstraintBuilder.new.asCursor = .ok (env', c') ∧
      (∃ nodes, Node.append nodes (.conj []) [] = some c'.builder.root ∧
        ∀ I ρ, Node.AllHold I ρ nodes → ∀ S, (pointerTo (intTy .gt)).Inhabits (.ofStack 3) I ρ S →
          (referenceTo (intTy .ge)).Inhabits (.ofStack 3) I ρ S) ∧
      ∀ loc ∈ (referenceTo (intTy .ge)).bindings,
        env'.bindings.lookup loc = (referenceTo (intTy .ge)).bindings.lookup loc := by
  obtain ⟨env', c', hrun⟩ : ∃ env' c',
      ((pointerTo (intTy .gt)).transformInto (.ofStack 3) (referenceTo (intTy .ge))).run
        ConstraintBuilder.new.asCursor = .ok (env', c') := ⟨_, _, rfl⟩
  have hint : ∀ op, (intTy op).Scoped ∅ := fun op => ⟨trivial, trivial, trivial⟩
  have hnew : new.Scoped ∅ := fun loc ty h => by simp [new, lookupLoc] at h
  have hpointer : (Ty.strgRef (.local_ 0)).Scoped ∅ := trivial
  have hreference : (Ty.ref (intTy .ge)).Scoped ∅ := hint .ge
  have henv : (pointerTo (intTy .gt)).Scoped ∅ := (hnew.insertLoc hpointer).insertLoc (hint .gt)
  have hother : (referenceTo (intTy .ge)).Scoped ∅ :=
    (hnew.insertLoc hreference).insertLoc (hint .ge)
  have hmem : ∀ loc ∈ (referenceTo (intTy .ge)).bindings,
      loc ∈ (pointerTo (intTy .gt)).bindings := fun loc hloc => by
    simpa [referenceTo, pointerTo] using hloc
  exact ⟨env', c', hrun, transformInto_sound valid_new (by simp) henv hother hmem hrun⟩

end Sound

end TypeEnv

end LiquidRust.Typeck
