import LiquidRust.Typeck.WritePlace

set_option relaxedAutoImplicit false
set_option autoImplicit false

/-!
# What unpacking leaves to be unpacked

The environment is unpacked over the locations that it has at first. An existential gets a name,
and a reference a location of its own, which is unpacked once: a reference to a reference stays
below it.

## Main definitions

* `LiquidRust.Typeck.TypeEnv.UnpacksTo` — what unpacking makes of an environment.
* `LiquidRust.Typeck.TypeEnv.Derefs` — how often a type can be dereferenced.
* `LiquidRust.Typeck.TypeEnv.UnpackedInto` — unpacking is complete, and its names are new.

## Main results

* `LiquidRust.Typeck.TypeEnv.wp_unpack_unpacksTo` — what unpacking makes of an environment.
* `LiquidRust.Typeck.TypeEnv.unpackedInto_iff` — when unpacking is complete.
-/

namespace LiquidRust.Typeck

open Lib Cursor
open Core.Ir (Place PlaceElem)

/-- `ty.Opens names ty'` states that `ty'` is `ty` with the names for its existential, if it is
one. -/
inductive Ty.Opens : Ty → List Name → Ty → Prop
  | exists_ (bty : BaseTy) (p : Pred) (x : Name) :
      Opens (.exists_ bty p) [x] (.refine bty (.var (.free x)))
  | other {ty : Ty} : (∀ bty p, ty ≠ .exists_ bty p) → Opens ty [] ty

/-- A type that is unpacked at top level. -/
def Ty.IsOpen : Ty → Prop
  | .exists_ _ _ | .ref _ => False
  | .refine _ _ | .uninit | .strgRef _ | .param _ => True

namespace TypeEnv

/-- `env'.UnpacksAt loc binding names` states that `env'` has at `loc` what unpacking makes of
`binding` with the names `names`: the name of an existential, or the one of the location that a
reference leads to, followed by that of an existential below it. -/
inductive UnpacksAt (env' : TypeEnv) (loc : Loc) (binding : Binding) : List Name → Prop
  | exists_ {bty : BaseTy} {p : Pred} {x : Name} : binding.ty = .exists_ bty p →
      env'.bindings.lookup loc = some (binding.setTy (.refine bty (.var (.free x)))) →
      UnpacksAt env' loc binding [x]
  | ref {ty ty' : Ty} {name : Name} {names : List Name} : binding.ty = .ref ty →
      env'.bindings.lookup loc = some (binding.setTy (.strgRef (.abstract name))) →
      ty.Opens names ty' → env'.bindings.lookup (.abstract name) = some (.weak ty ty') →
      UnpacksAt env' loc binding (name :: names)
  | other : binding.ty.IsOpen → env'.bindings.lookup loc = some binding →
      UnpacksAt env' loc binding []

/-- The names from `gen` on and before `gen'`, each at most once. -/
structure FreshNames (gen gen' : Name) (names : List Name) : Prop where
  nodup : names.Nodup
  fresh : ∀ x ∈ names, gen ≤ x ∧ x < gen'

/-- **What unpacking makes of an environment** with the names from `gen` on: its locations are
unpacked with distinct new names, and the other locations are those of references. -/
structure UnpacksTo (gen gen' : Name) (env env' : TypeEnv) (names : Loc → List Name) : Prop where
  unpacks : ∀ ⦃loc binding⦄, env.bindings.lookup loc = some binding →
    env'.UnpacksAt loc binding (names loc)
  fresh : FreshNames gen gen' (env.bindings.keys.flatMap names)
  locs : ∀ ⦃loc⦄, loc ∈ env'.bindings → loc ∈ env.bindings ∨
    ∃ loc' ty x, env.lookupLoc loc' = some (.ref ty) ∧
      env'.lookupLoc loc' = some (.strgRef loc) ∧ loc = .abstract x ∧ x ∈ names loc'

/-- `env.Derefs ty n` states that a value of type `ty` can be dereferenced `n` times. -/
inductive Derefs (env : TypeEnv) : Ty → ℕ → Prop
  | zero (ty : Ty) : Derefs env ty 0
  | strgRef {loc : Loc} {ty : Ty} {n : ℕ} : env.lookupLoc loc = some ty → Derefs env ty n →
      Derefs env (.strgRef loc) (n + 1)
  | ref {ty : Ty} {n : ℕ} : Derefs env ty n → Derefs env (.ref ty) (n + 1)

/-- **Unpacking is complete.** No type is an existential or a reference of unknown location; the
places that can be dereferenced are walked and written; the names of the unpacked environment are
distinct and new. -/
structure UnpackedInto (tcx : Tcx) (gen gen' : Name) (env env' : TypeEnv) : Prop where
  isOpen : ∀ ⦃loc ty⦄, env'.lookupLoc loc = some ty → ty.IsOpen
  walks : ∀ ⦃l n ty⦄, env.lookupLoc (.local_ l) = some ty → env.Derefs ty n →
    ∃ loc ty', env'.walkPlace ⟨l, .replicate n .deref⟩ = .ok (loc, ty') ∧
      ∀ new_ty, env'.writePlace tcx ⟨l, .replicate n .deref⟩ new_ty =
        env'.updateLoc tcx loc new_ty
  writes : ∀ ⦃place loc ty⦄, env'.walkPlace place = .ok (loc, ty) →
    ∀ new_ty, env'.writePlace tcx place new_ty = env'.updateLoc tcx loc new_ty
  names : ∃ names, UnpacksTo gen gen' env env' names

/-! ## Names -/

namespace FreshNames

variable {gen gen' gen'' : Name} {names names' : List Name}

/-- No names are fresh ones. -/
lemma nil : FreshNames gen gen' [] :=
  ⟨.nil, fun _ hx => nomatch hx⟩

/-- The next name is a fresh one. -/
lemma single (gen : Name) : FreshNames gen (gen + 1) [gen] :=
  ⟨List.nodup_singleton _, fun _ hx => List.mem_singleton.mp hx ▸ ⟨le_rfl, Nat.lt_succ_self _⟩⟩

/-- Names that are made one after another. -/
lemma append (h : FreshNames gen gen' names) (h' : FreshNames gen' gen'' names') (hle : gen ≤ gen')
    (hle' : gen' ≤ gen'') : FreshNames gen gen'' (names ++ names') where
  nodup := by
    refine List.nodup_append.mpr ⟨h.nodup, h'.nodup, fun x hx y hy => ?_⟩
    have hx := (h.fresh x hx).2
    have hy := (h'.fresh y hy).1
    exact (lt_of_lt_of_le hx hy).ne
  fresh := fun x hx => by
    rcases List.mem_append.mp hx with hx | hx
    · exact ⟨(h.fresh x hx).1, (h.fresh x hx).2.trans_le hle'⟩
    · exact ⟨hle.trans (h'.fresh x hx).1, (h'.fresh x hx).2⟩

/-- The order of fresh names does not matter. -/
lemma perm (h : FreshNames gen gen' names) (hp : names.Perm names') : FreshNames gen gen' names' :=
  ⟨hp.nodup_iff.mp h.nodup, fun x hx => h.fresh x (hp.mem_iff.mpr hx)⟩

end FreshNames

/-- An existential is opened with the next name. -/
lemma wp_unpack_opens {c : Cursor} (hc : c.Valid) (ty : Ty) :
    wp (Cursor.unpack ty) (fun ty' c' => c'.Valid ∧ c.builder.nameGen ≤ c'.builder.nameGen ∧
      ∃ names, ty.Opens names ty' ∧ FreshNames c.builder.nameGen c'.builder.nameGen names)
      (fun _ => False) c := by
  cases ty with
  | exists_ bty p =>
    let x := c.builder.nameGen
    have hgen : wp (Cursor.pushForall x bty.sort (p.substBoundVars (.var (.free x))))
        (fun _ c' => c'.builder.nameGen = x + 1) (fun _ => True)
        { c with builder := { c.builder with nameGen := x + 1 } } := by
      rw [Cursor.pushForall, wp_bind]
      exact wp_pushNode (fun root i _ => rfl) fun _ => trivial
    rw [Cursor.unpack, wp_bind, wp_freshName, wp_bind]
    refine wp_mono (wp_and hgen (wp_pushForall _ _ _ _)) (fun _ c' hpushed => ?_)
      fun _ hf => hf.2.2 (hc.withNameGen _)
    obtain ⟨hc', hframe⟩ := hpushed
    rw [wp_pure, hc']
    exact ⟨(hframe (hc.withNameGen _)).1, Nat.le_succ x, [x], .exists_ bty p x, .single x⟩
  | _ => exact ⟨hc, le_rfl, [], .other (by simp), .nil⟩

/-! ## Unpacking -/

variable {tcx : Tcx} {env env' env'' : TypeEnv} {gen gen' : Name} {loc : Loc} {binding : Binding}

/-- Unpacking one location gives what it makes of its binding, and the other locations that there
were are as before. -/
lemma wp_unpackLoc_unpacks {c : Cursor} (hc : c.Valid)
    (hlocs : env.locSet ⊆ locsBefore c.builder.nameGen)
    (hb : env.bindings.lookup loc = some binding) :
    wp (env.unpackLoc loc) (fun env' c' => c'.Valid ∧ c.builder.nameGen ≤ c'.builder.nameGen ∧
      ∃ names, env'.UnpacksAt loc binding names ∧
        FreshNames c.builder.nameGen c'.builder.nameGen names ∧
        (∀ loc' ∈ env.locSet, loc' ≠ loc →
          env'.bindings.lookup loc' = env.bindings.lookup loc') ∧
        ∀ loc' ∈ env'.bindings, loc' ∈ env.bindings ∨ ∃ ty x, binding.ty = .ref ty ∧
          env'.lookupLoc loc = some (.strgRef loc') ∧ loc' = .abstract x ∧ x ∈ names)
      (fun _ => False) c := by
  have hloc : loc ∈ env.bindings := AList.lookup_isSome.mp (by simp [hb])
  rw [unpackLoc, wp_bind, wp_orFail]
  refine ⟨fun binding' hb' => ?_, fun hnone => by simp [hb] at hnone⟩
  obtain rfl : binding = binding' := Option.some.inj (hb.symm.trans hb')
  dsimp only
  split
  · next bty p hty =>
    rw [wp_bind]
    refine wp_imp (wp_unpack_opens hc _) fun ty' c' hunpack => ?_
    obtain ⟨hc', hgen, names, hopens, hfresh⟩ := hunpack
    rw [wp_pure]
    cases hopens with
    | other hne => exact absurd rfl (hne bty p)
    | exists_ _ _ x =>
      refine ⟨hc', hgen, [x], .exists_ hty (AList.lookup_insert _), hfresh,
        fun loc' _ hne => AList.lookup_insert_ne hne, fun loc' hmem => .inl ?_⟩
      rcases AList.mem_insert _ |>.mp hmem with rfl | hmem
      · exact hloc
      · exact hmem
  · next ty hty =>
    rw [wp_bind, wp_freshName, wp_bind]
    refine wp_imp (wp_unpack_opens (hc.withNameGen _) _)
      fun ty' c' hunpack => ?_
    obtain ⟨hc', hgen, names, hopens, hfresh⟩ := hunpack
    rw [wp_pure]
    have hnew : ∀ loc' ∈ env.locSet, loc' ≠ .abstract c.builder.nameGen := by
      rintro loc' hloc' rfl
      exact (hlocs hloc' _ rfl).false
    refine ⟨hc', (Nat.le_succ _).trans hgen, c.builder.nameGen :: names, .ref hty ?_ hopens
      (AList.lookup_insert _), (FreshNames.single _).append hfresh (Nat.le_succ _) hgen,
      fun loc' hloc' hne => ?_, fun loc' hmem => ?_⟩
    · rw [AList.lookup_insert_ne (hnew loc hloc), AList.lookup_insert]
    · rw [AList.lookup_insert_ne (hnew loc' hloc'), AList.lookup_insert_ne hne]
    · rcases AList.mem_insert _ |>.mp hmem with rfl | hmem
      · refine .inr ⟨ty, _, hty, ?_, rfl, .head _⟩
        rw [lookupLoc, AList.lookup_insert_ne (hnew loc hloc), AList.lookup_insert]
        simp
      · rcases AList.mem_insert _ |>.mp hmem with rfl | hmem
        · exact .inl hloc
        · exact .inl hmem
  · next hnexists hnref =>
    refine ⟨hc, le_rfl, [], .other ?_ hb, .nil, fun _ _ _ => rfl, fun _ hmem => .inl hmem⟩
    cases hty : binding.ty with
    | exists_ bty p => exact hnexists bty p hty
    | ref ty => exact hnref ty hty
    | _ => trivial

/-- The location unpacked is one of the environment. -/
lemma UnpacksAt.mem {names : List Name} (h : env'.UnpacksAt loc binding names) :
    loc ∈ env'.bindings := by
  refine AList.lookup_isSome.mp ?_
  cases h with
  | exists_ _ h | ref _ h _ _ | other _ h => rw [h]; rfl

/-- What is unpacked at a location stays so where its location and its names are not changed. -/
lemma UnpacksAt.congr {names : List Name} (h : env'.UnpacksAt loc binding names)
    (hloc : env''.bindings.lookup loc = env'.bindings.lookup loc)
    (hnames : ∀ x ∈ names, .abstract x ∈ env'.bindings →
      env''.bindings.lookup (.abstract x) = env'.bindings.lookup (.abstract x)) :
    env''.UnpacksAt loc binding names := by
  cases h with
  | exists_ hty hb => exact .exists_ hty (hloc.trans hb)
  | ref hty hb hopens hname =>
    have hmem := AList.lookup_isSome.mp (by rw [hname]; rfl)
    exact .ref hty (hloc.trans hb) hopens ((hnames _ (.head _) hmem).trans hname)
  | other hopen hb => exact .other hopen (hloc.trans hb)

/-- **What unpacking makes of an environment** whose locations are named before.

**Proof sketch.** By an invariant of the loop: the locations that are done are unpacked, those that
are not are as at first, and the names are the ones made so far. A step changes its own location,
which is not done, and adds one whose name is new. -/
theorem wp_unpack_unpacksTo (tcx : Tcx) {c : Cursor} (hc : c.Valid)
    (hlocs : env.locSet ⊆ locsBefore c.builder.nameGen) :
    wp (env.unpack tcx) (fun env' c' => c'.Valid ∧
      ∃ names, UnpacksTo c.builder.nameGen c'.builder.nameGen env env' names)
      (fun _ => False) c := by
  set gen := c.builder.nameGen with hgen
  have hperm : (env.locs tcx).Perm env.bindings.keys := tcx.hashOrder_perm _
  have hnodup : (env.locs tcx).Nodup := hperm.nodup_iff.mpr env.bindings.keys_nodup
  let I (done : List Loc) (env' : TypeEnv) (c' : Cursor) : Prop :=
    c'.Valid ∧ gen ≤ c'.builder.nameGen ∧ ∃ names : Loc → List Name,
      (∀ loc ∈ done, ∀ binding, env.bindings.lookup loc = some binding →
        env'.UnpacksAt loc binding (names loc)) ∧
      (∀ loc ∈ env.bindings, loc ∉ done →
        env'.bindings.lookup loc = env.bindings.lookup loc) ∧
      FreshNames gen c'.builder.nameGen (done.flatMap names) ∧
      ∀ loc ∈ env'.bindings, loc ∈ env.bindings ∨ ∃ loc' ∈ done, ∃ ty x,
        env.lookupLoc loc' = some (.ref ty) ∧ env'.lookupLoc loc' = some (.strgRef loc) ∧
          loc = .abstract x ∧ x ∈ names loc'
  suffices h : wp (env.unpack tcx) (I (env.locs tcx)) (fun _ => False) c by
    refine wp_imp h fun env' c' ⟨hc', _, names, hdone, _, hfresh, hnew⟩ => ?_
    refine ⟨hc', names, fun loc binding hb => ?_, hfresh.perm (hperm.flatMap_right names),
      fun loc hmem => (hnew loc hmem).imp_right ?_⟩
    · have hmem : loc ∈ env.bindings := AList.lookup_isSome.mp (by simp [hb])
      exact hdone loc (hperm.mem_iff.mpr hmem) binding hb
    · rintro ⟨loc', -, h⟩
      exact ⟨loc', h⟩
  refine wp_foldlM_done (I := I) (fun done loc rest hl env₁ c₁ hI => ?_)
    ⟨hc, le_rfl, fun _ => [], fun _ h => (nomatch h), fun _ _ _ => rfl, .nil,
      fun _ h => .inl h⟩
  obtain ⟨hc₁, hle, names, hdone, hrest, hfresh, hnew⟩ := hI
  have hloc : loc ∉ done := by
    intro hmem
    rw [hl] at hnodup
    exact (List.nodup_append.mp hnodup).2.2 _ hmem _ (.head _) rfl
  have hin : loc ∈ env.bindings := hperm.mem_iff.mp (by rw [hl]; simp)
  obtain ⟨binding, hb⟩ := Option.isSome_iff_exists.mp (AList.lookup_isSome.mpr hin)
  have hlocs₁ : env₁.locSet ⊆ locsBefore c₁.builder.nameGen := by
    intro loc' hmem
    rcases hnew loc' hmem with hmem | ⟨l, hl, ty, x, -, -, rfl, hx⟩
    · exact locsBefore_mono hle (hlocs hmem)
    · rintro _ ⟨⟩
      exact (hfresh.fresh x (List.mem_flatMap.mpr ⟨l, hl, hx⟩)).2
  refine wp_imp (wp_unpackLoc_unpacks hc₁ hlocs₁ ((hrest loc hin hloc).trans hb))
    fun env₂ c₂ ⟨hc₂, hle', ns, hat, hfresh', hframe, hnew'⟩ => ?_
  have hupdate : done.flatMap (Function.update names loc ns) = done.flatMap names :=
    List.flatMap_congr fun l hl =>
      Function.update_of_ne (fun heq : l = loc => hloc (heq ▸ hl)) _ _
  -- the location of a name is not the one that is unpacked
  have hkeep : ∀ l ∈ done, ∀ x ∈ names l, .abstract x ∈ env₁.bindings →
      env₂.bindings.lookup (.abstract x) = env₁.bindings.lookup (.abstract x) := by
    refine fun l hl x hx hmem => hframe _ hmem fun heq => ?_
    have hlt : x < gen := hlocs (heq ▸ hin) x rfl
    have hge := (hfresh.fresh x (List.mem_flatMap.mpr ⟨l, hl, hx⟩)).1
    exact (lt_of_lt_of_le hlt hge).false
  have hold : ∀ l ∈ done, ∀ b, env.bindings.lookup l = some b →
      env₂.bindings.lookup l = env₁.bindings.lookup l := by
    refine fun l hl b hb => hframe l ?_ fun heq => hloc (heq ▸ hl)
    exact (hdone l hl b hb).mem
  refine ⟨hc₂, hle.trans hle', Function.update names loc ns, fun l hl b hb' => ?_,
    fun l hmem hl => ?_, ?_, fun l hmem => ?_⟩
  · rcases List.mem_append.mp hl with hl | hl
    · rw [Function.update_of_ne fun heq : l = loc => hloc (heq ▸ hl)]
      exact (hdone l hl b hb').congr (hold l hl b hb') (hkeep l hl)
    · obtain rfl := List.mem_singleton.mp hl
      obtain rfl : binding = b := Option.some.inj (hb.symm.trans hb')
      rwa [Function.update_self]
  · have hl' : l ∉ done := fun h => hl (List.mem_append_left _ h)
    have hne : l ≠ loc := fun heq => hl (by simp [heq])
    have hsame := hrest l hmem hl'
    refine (hframe l (AList.lookup_isSome.mp ?_) hne).trans hsame
    rw [hsame]
    exact AList.lookup_isSome.mpr hmem
  · rw [List.flatMap_append, List.flatMap_singleton, hupdate, Function.update_self]
    exact hfresh.append hfresh' hle hle'
  · rcases hnew' l hmem with hmem | ⟨ty, x, hty, hptr, rfl, hx⟩
    · refine (hnew l hmem).imp_right fun ⟨l', hl', ty, x, hty, hptr, heq, hx⟩ => ?_
      have hne : l' ≠ loc := fun h => hloc (h ▸ hl')
      refine ⟨l', List.mem_append_left _ hl', ty, x, hty, ?_, heq, ?_⟩
      · obtain ⟨b, hb, -⟩ := Option.map_eq_some_iff.mp hty
        rwa [lookupLoc, hold l' hl' b hb]
      · rwa [Function.update_of_ne hne]
    · refine .inr ⟨loc, by simp, ty, x, ?_, hptr, rfl, ?_⟩
      · rw [lookupLoc, hb]
        exact congrArg some hty
      · rwa [Function.update_self]

/-! ## Completeness -/

/-- What a type that is no reference opens to is open. -/
lemma isOpen_of_opens {ty ty' : Ty} {names : List Name} (h : ty.Opens names ty')
    (href : ∀ ty₀, ty ≠ .ref ty₀) : ty'.IsOpen := by
  cases h with
  | exists_ bty p x => trivial
  | other hne =>
    cases ty with
    | exists_ bty p => exact hne bty p rfl
    | ref ty₀ => exact href ty₀ rfl
    | _ => trivial

/-- A write to an unpacked place updates its location. -/
lemma writePlace_of_isOpen {place : Place} {ty : Ty} (h : env.walkPlace place = .ok (loc, ty))
    (hopen : ty.IsOpen) (new_ty : Ty) :
    env.writePlace tcx place new_ty = env.updateLoc tcx loc new_ty := by
  unfold writePlace
  rw [h]
  cases ty with
  | exists_ bty p => exact hopen.elim
  | ref ty => exact hopen.elim
  | _ => rfl

/-- `env'.Follows ty ty'` states that `env'` has `ty'` where there was `ty`, with a location for
the reference. -/
inductive Follows (env' : TypeEnv) : Ty → Ty → Prop
  | ref {ty ty' : Ty} {loc : Loc} : env'.lookupLoc loc = some ty' → Follows env' ty ty' →
      Follows env' (.ref ty) (.strgRef loc)
  | strgRef (loc : Loc) : Follows env' (.strgRef loc) (.strgRef loc)
  | value {ty ty' : Ty} : (∀ loc, ty ≠ .strgRef loc) → (∀ ty₀, ty ≠ .ref ty₀) →
      Follows env' ty ty'

/-- What a type that is no reference opens to follows it in any environment. -/
lemma follows_of_opens {ty ty' : Ty} {names : List Name} (h : ty.Opens names ty')
    (href : ∀ ty₀, ty ≠ .ref ty₀) : env'.Follows ty ty' := by
  cases h with
  | exists_ bty p x => exact .value (by simp) (by simp)
  | other hne =>
    cases ty with
    | strgRef loc => exact .strgRef loc
    | _ => exact .value (by simp) href

/-- What unpacking makes of a binding is open, and followed if it is no reference to a reference. -/
lemma UnpacksAt.follows {names : List Name} (h : env'.UnpacksAt loc binding names) :
    ∃ ty', env'.lookupLoc loc = some ty' ∧ ty'.IsOpen ∧
      ((∀ ty, binding.ty ≠ .ref (.ref ty)) → env'.Follows binding.ty ty') := by
  cases h with
  | @exists_ bty p x hty hb =>
    refine ⟨_, by rw [lookupLoc, hb]; rfl, by rw [Binding.ty_setTy]; trivial, fun _ => ?_⟩
    rw [hty]
    exact .value (by simp) (by simp)
  | @ref ty ty' name names hty hb hopens hname =>
    refine ⟨.strgRef (.abstract name), by rw [lookupLoc, hb]; simp, trivial, fun href => ?_⟩
    rw [hty]
    refine .ref (by rw [lookupLoc, hname]; rfl) (follows_of_opens hopens fun ty₀ heq => ?_)
    exact href ty₀ (by rw [hty, heq])
  | other hopen hb =>
    refine ⟨binding.ty, by rw [lookupLoc, hb]; rfl, hopen, fun _ => ?_⟩
    cases hbinding : binding.ty with
    | strgRef referee => exact .strgRef referee
    | ref ty =>
      rw [hbinding] at hopen
      exact hopen.elim
    | _ => exact .value (by simp) (by simp)

/-- A reference leads to a new location, where the type below it is opened. -/
lemma UnpacksAt.referent {names : List Name} (h : env'.UnpacksAt loc binding names) {ty : Ty}
    (hty : binding.ty = .ref ty) :
    ∃ x names' ty', env'.lookupLoc loc = some (.strgRef (.abstract x)) ∧ ty.Opens names' ty' ∧
      env'.lookupLoc (.abstract x) = some ty' := by
  cases h with
  | exists_ hty' _ => rw [hty] at hty'; cases hty'
  | other hopen _ => rw [hty] at hopen; exact hopen.elim
  | @ref ty₁ ty' name names hty' hb hopens hname =>
    rw [hty] at hty'
    cases hty'
    exact ⟨name, names, ty', by rw [lookupLoc, hb]; simp, hopens, by rw [lookupLoc, hname]; rfl⟩

/-- **The dereferences of an unpacked environment are walked**, if every binding is followed. -/
lemma Derefs.walkProjection {ty : Ty} {n : ℕ} (h : env.Derefs ty n)
    (hfollows : ∀ loc ty, env.lookupLoc loc = some ty →
      ∃ ty', env'.lookupLoc loc = some ty' ∧ env'.Follows ty ty') {ty' : Ty}
    (hty : env'.lookupLoc loc = some ty') (hfollow : env'.Follows ty ty') :
    ∃ loc' ty'', env'.walkProjection loc ty' (.replicate n .deref) = .ok (loc', ty'') := by
  induction h generalizing loc ty' with
  | zero ty => exact ⟨loc, ty', rfl⟩
  | @strgRef referee ty n hreferee _ ih =>
    cases hfollow with
    | strgRef =>
      obtain ⟨rty, hrty, hfollow⟩ := hfollows _ _ hreferee
      rw [List.replicate_succ, TypeEnv.walkProjection, hrty]
      exact ih hrty hfollow
    | value hptr _ => exact absurd rfl (hptr referee)
  | @ref ty n _ ih =>
    cases hfollow with
    | ref hreferee hfollow =>
      rw [List.replicate_succ, TypeEnv.walkProjection, hreferee]
      exact ih hreferee hfollow
    | value _ href => exact absurd rfl (href ty)

/-- **When unpacking is complete.** It runs to its end, and is complete iff no location has a
reference to a reference.

**Proof sketch.** The location of a reference gets what is left when the type below it is opened,
which is a reference if it was one. Otherwise all types are open, the old ones and those of new
locations, and a dereference goes where it went before, by way of the new locations. -/
theorem unpackedInto_iff (tcx : Tcx) {c : Cursor} (hc : c.Valid)
    (hlocs : env.locSet ⊆ locsBefore c.builder.nameGen) :
    (∃ env' c', (env.unpack tcx).run c = .ok (env', c') ∧
        UnpackedInto tcx c.builder.nameGen c'.builder.nameGen env env') ↔
      ∀ loc ty, env.lookupLoc loc ≠ some (.ref (.ref ty)) := by
  constructor
  · rintro ⟨env', c', -, hinto⟩ loc ty hty
    obtain ⟨names, hnames⟩ := hinto.names
    obtain ⟨binding, hb, hbinding⟩ := Option.map_eq_some_iff.mp hty
    obtain ⟨x, names', ty', -, hopens, hx⟩ := (hnames.unpacks hb).referent hbinding
    cases hopens
    exact hinto.isOpen hx
  · intro href
    have hunpack := wp_unpack_unpacksTo tcx hc hlocs
    rcases hrun : (env.unpack tcx).run c with f | ⟨env', c'⟩
    · exact (wp_of_run_error hunpack hrun).elim
    obtain ⟨-, names, hnames⟩ := wp_of_run_ok hunpack hrun
    have hfollows : ∀ loc ty, env.lookupLoc loc = some ty →
        ∃ ty', env'.lookupLoc loc = some ty' ∧ env'.Follows ty ty' := by
      intro loc ty hty
      obtain ⟨binding, hb, rfl⟩ := Option.map_eq_some_iff.mp hty
      obtain ⟨ty', hty', -, hfollow⟩ := (hnames.unpacks hb).follows
      exact ⟨ty', hty', hfollow fun ty₀ heq => href loc ty₀ (hty.trans (congrArg some heq))⟩
    have hopen : ∀ ⦃loc ty⦄, env'.lookupLoc loc = some ty → ty.IsOpen := by
      intro loc ty hty
      rcases hnames.locs (mem_of_lookupLoc hty) with hold | ⟨loc', ty₁, x, hty₁, hptr, -, -⟩
      · obtain ⟨binding, hb⟩ := Option.isSome_iff_exists.mp (AList.lookup_isSome.mpr hold)
        obtain ⟨ty', hty', hopen, -⟩ := (hnames.unpacks hb).follows
        obtain rfl : ty' = ty := Option.some.inj (hty'.symm.trans hty)
        exact hopen
      · obtain ⟨binding, hb, hbinding⟩ := Option.map_eq_some_iff.mp hty₁
        obtain ⟨y, names', ty', hy, hopens, hty'⟩ := (hnames.unpacks hb).referent hbinding
        obtain rfl : Loc.abstract y = loc :=
          Ty.strgRef.inj (Option.some.inj (hy.symm.trans hptr))
        obtain rfl : ty' = ty := Option.some.inj (hty'.symm.trans hty)
        exact isOpen_of_opens hopens fun ty₀ heq => href loc' ty₀ (heq ▸ hty₁)
    have hwrites : ∀ ⦃place loc ty⦄, env'.walkPlace place = .ok (loc, ty) →
        ∀ new_ty, env'.writePlace tcx place new_ty = env'.updateLoc tcx loc new_ty := by
      intro place loc ty hwalk
      obtain ⟨ty₁, hty₁, hproj⟩ := walkPlace_eq_ok.mp hwalk
      exact writePlace_of_isOpen hwalk (hopen (lookupLoc_of_walkProjection hty₁ hproj))
    refine ⟨env', c', rfl, hopen, fun l n ty hty hderefs => ?_, hwrites, names, hnames⟩
    obtain ⟨ty', hty', hfollow⟩ := hfollows _ _ hty
    obtain ⟨loc, ty'', hwalk⟩ := hderefs.walkProjection hfollows hty' hfollow
    have hwalk' : env'.walkPlace ⟨l, .replicate n .deref⟩ = .ok (loc, ty'') :=
      walkPlace_eq_ok.mpr ⟨ty', hty', hwalk⟩
    exact ⟨loc, ty'', hwalk', hwrites hwalk'⟩

/-- An environment with a local variable of the given type. -/
def localEnv (ty : Ty) : TypeEnv :=
  TypeEnv.new.insertLoc (.local_ 0) ty

/-- The locations of the example come before any name. -/
lemma locSet_localEnv (ty : Ty) (gen : Name) : (localEnv ty).locSet ⊆ locsBefore gen := by
  rw [localEnv, locSet_insertLoc]
  rintro loc (rfl | h)
  · exact fun _ h => nomatch h
  · exact absurd h (AList.notMem_empty loc)

/-- A reference to an existential is unpacked completely, and read through its location. -/
theorem unpackedInto_ref :
    ∃ env' c', ((localEnv (.ref natTy)).unpack (.ofStack 3)).run ConstraintBuilder.new.asCursor =
        .ok (env', c') ∧
      UnpackedInto (.ofStack 3) 0 c'.builder.nameGen (localEnv (.ref natTy)) env' := by
  refine (unpackedInto_iff (.ofStack 3) valid_new (locSet_localEnv _ _)).mpr fun loc ty h => ?_
  by_cases hloc : loc = .local_ 0
  · rw [hloc, localEnv, lookupLoc_insertLoc_self] at h
    cases h
  · rw [localEnv, lookupLoc_insertLoc_of_ne hloc] at h
    cases h

/-- **A reference to a reference is not unpacked completely**: its location has a reference of
unknown location, where no place can be walked. -/
theorem not_unpackedInto_ref_ref :
    ¬∀ (tcx : Tcx) (env : TypeEnv) (c : Cursor), c.Valid →
      env.locSet ⊆ locsBefore c.builder.nameGen →
      ∃ env' c', (env.unpack tcx).run c = .ok (env', c') ∧
        UnpackedInto tcx c.builder.nameGen c'.builder.nameGen env env' := by
  intro h
  obtain ⟨env', c', hrun, hinto⟩ := h (.ofStack 3) (localEnv (.ref (.ref natTy)))
    ConstraintBuilder.new.asCursor valid_new (locSet_localEnv _ _)
  obtain ⟨henv, -⟩ := Prod.mk.inj (Except.ok.inj hrun)
  have hlookup : env'.lookupLoc (.abstract 0) = some (.ref natTy) := by
    rw [← henv]
    rfl
  exact hinto.isOpen hlookup

end TypeEnv

end LiquidRust.Typeck
