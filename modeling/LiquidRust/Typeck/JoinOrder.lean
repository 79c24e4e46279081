import LiquidRust.Typeck.Coarser
import LiquidRust.Typeck.JoinSteps

set_option relaxedAutoImplicit false
set_option autoImplicit false

/-!
# The order of joins

The environments that arrive at a join point are joined in the order in which they arrive. Without
references, the join is a least bound at each location, so the order matters only to the numbers
and the arguments of the new unknown predicates.

## Main definitions

* `LiquidRust.Typeck.ErasedTy.Covariant` — Rust types without references, whose ADTs are covariant.
* `LiquidRust.Typeck.TypeEnv.JoinsWith` — an environment that joins two others.

## Main results

* `LiquidRust.Typeck.TypeEnv.wp_strgTyJoin_isJoin` — the join of two types is their least bound.
* `LiquidRust.Typeck.TypeEnv.foldlM_joinWith_perm` — the order of joins does not matter.
-/

namespace LiquidRust.Typeck

open Lib Cursor

/-! ## Rust types whose joins complete -/

mutual

/-- A Rust type without references, whose ADTs are covariant in all arguments. -/
def ErasedTy.Covariant (tcx : Tcx) : ErasedTy → Prop
  | .adt did args => args.len ≤ (tcx.variancesOf did).length ∧
      (∀ variance ∈ tcx.variancesOf did, variance = .covariant) ∧ args.Covariant tcx
  | .ref _ => False
  | .int _ | .uint _ | .bool | .uninit | .param _ => True

/-- The same for type arguments. -/
def ErasedTys.Covariant (tcx : Tcx) : ErasedTys → Prop
  | .nil => True
  | .cons ty args => ty.Covariant tcx ∧ args.Covariant tcx

end

mutual

/-- How deep ADTs are nested. -/
def ErasedTy.depth : ErasedTy → ℕ
  | .adt _ args => args.depth + 1
  | .ref ty => ty.depth
  | .int _ | .uint _ | .bool | .uninit | .param _ => 0

/-- The depth of type arguments. -/
def ErasedTys.depth : ErasedTys → ℕ
  | .nil => 0
  | .cons ty args => max ty.depth args.depth

end

namespace Cursor

/-- A new unknown predicate has the next number. -/
lemma Valid.wp_freshKvar_new {c : Cursor} (hc : c.Valid) (sort : Srt) :
    wp (freshKvar sort)
      (fun p c' => c'.Valid ∧ c'.builder.kvars.length = c.builder.kvars.length + 1 ∧
        ∃ args, p = .kvar c.builder.kvars.length args) (fun _ => False) c := by
  have hnew : wp (freshKvar sort)
      (fun p c' => c'.builder.kvars.length = c.builder.kvars.length + 1 ∧
        ∃ args, p = .kvar c.builder.kvars.length args) (fun _ => False) c := by
    rw [freshKvar, wp_bind, wp_get, wp, run_freshKvarAtScope sort hc.nvars]
    exact ⟨by simp, _, rfl⟩
  exact wp_mono (wp_and (hc.wp_freshKvar sort) hnew) (fun _ _ h => h) fun _ hf => hf.1

end Cursor

namespace TypeEnv

variable {tcx : Tcx} {R : Loc → ErasedTy} {K : KVid}

/-! ## The join of types -/

/-- **What the join of `x` and `y` comes to**: the environment stays, and the result is their
join, of the same Rust type. -/
structure JoinsTo {α β : Type} (Finer : α → α → Prop) (newKvars : α → List KVid) (erase : α → β)
    (env : TypeEnv) (c : Cursor) (x y : α) (r : TypeEnv × α) (c' : Cursor) : Prop where
  valid : c'.Valid
  le : c.builder.kvars.length ≤ c'.builder.kvars.length
  env : r.1 = env
  erase : erase r.2 = erase x
  isJoin : IsJoin Finer newKvars c.builder.kvars.length c'.builder.kvars.length x y r.2

/-- Joins of types with one Rust type, of which `Small` is true. -/
def JoinsTys (R : Loc → ErasedTy) (K : KVid) (Small : ErasedTy → Prop)
    (join : TypeEnv → Ty → Ty → CursorM (TypeEnv × Ty)) : Prop :=
  ∀ ⦃env ty1 ty2 c⦄, c.Valid → K ≤ c.builder.kvars.length → Small (ty1.erase R) →
    ty2.erase R = ty1.erase R → ty2.newKvars K = [] →
    wp (join env ty1 ty2) (JoinsTo (Ty.Finer K) (Ty.newKvars K) (Ty.erase R) env c ty1 ty2)
      (fun _ => False) c

section Arguments

variable {n : ℕ} {join : TypeEnv → Ty → Ty → CursorM (TypeEnv × Ty)} {env : TypeEnv} {c : Cursor}

/-- The arguments of an ADT. -/
lemma wp_substsJoin_isJoin
    (hjoin : JoinsTys R K (fun ty => ty.Covariant tcx ∧ ty.depth < n) join)
    {variances : List Variance} {substs1 substs2 : Substs} (hc : c.Valid)
    (hK : K ≤ c.builder.kvars.length) (hvar : ∀ variance ∈ variances, variance = .covariant)
    (hlen : (substs1.erase R).len ≤ variances.length) (hcov : (substs1.erase R).Covariant tcx)
    (hdepth : (substs1.erase R).depth < n) (heq : substs2.erase R = substs1.erase R)
    (hold : substs2.newKvars K = []) :
    wp (substsJoin join env variances substs1 substs2)
      (JoinsTo (Substs.Finer K) (Substs.newKvars K) (Substs.erase R) env c substs1 substs2)
      (fun _ => False) c := by
  induction variances generalizing substs1 substs2 c with
  | nil =>
    cases substs1 with
    | nil =>
      cases substs2 with
      | nil => exact ⟨hc, le_rfl, rfl, rfl, .self trivial rfl⟩
      | cons ty2 substs2 => cases heq
    | cons ty1 substs1 => exact absurd hlen (by simp [Substs.erase, ErasedTys.len])
  | cons variance variances ih =>
    cases substs1 with
    | nil =>
      cases substs2 with
      | nil => exact ⟨hc, le_rfl, rfl, rfl, .self trivial rfl⟩
      | cons ty2 substs2 => cases heq
    | cons ty1 substs1 =>
      cases substs2 with
      | nil => cases heq
      | cons ty2 substs2 =>
        obtain ⟨hty, hsubsts⟩ := ErasedTys.cons.inj heq
        obtain ⟨hdty, hdsubsts⟩ := Nat.max_lt.mp hdepth
        rw [Substs.newKvars_cons, List.append_eq_nil_iff] at hold
        obtain rfl := hvar variance (.head _)
        rw [substsJoin, assert, if_pos (by simp), wp_bind, wp_pure, wp_bind]
        refine wp_imp (hjoin hc hK ⟨hcov.1, hdty⟩ hty hold.1) fun r c1 h => ?_
        rw [wp_bind]
        rw [h.env]
        refine wp_imp (ih h.valid (hK.trans h.le) (fun v hv => hvar v (.tail _ hv))
          (Nat.le_of_succ_le_succ hlen) hcov.2 hdsubsts hsubsts hold.2) fun r' c2 h' => ?_
        refine ⟨h'.valid, h.le.trans h'.le, h'.env, ?_, h.isJoin.cons h.le h'.le h'.isJoin⟩
        exact congrArg₂ ErasedTys.cons h.erase h'.erase

/-- Base types. -/
lemma wp_btyJoin_isJoin
    (hjoin : JoinsTys R K (fun ty => ty.Covariant tcx ∧ ty.depth < n) join) {bty1 bty2 : BaseTy}
    (hc : c.Valid) (hK : K ≤ c.builder.kvars.length) (hcov : (bty1.erase R).Covariant tcx)
    (hdepth : (bty1.erase R).depth < n + 1) (heq : bty2.erase R = bty1.erase R)
    (hold : bty2.newKvars K = []) :
    wp (btyJoin tcx join env bty1 bty2)
      (JoinsTo (BaseTy.Finer K) (BaseTy.newKvars K) (BaseTy.erase R) env c bty1 bty2)
      (fun _ => False) c := by
  cases bty1 with
  | bool =>
    cases bty2 with
    | bool => exact ⟨hc, le_rfl, rfl, rfl, .self trivial rfl⟩
    | _ => cases heq
  | int int_ty =>
    cases bty2 with
    | int int_ty2 =>
      obtain rfl := ErasedTy.int.inj heq
      rw [btyJoin, assert, if_pos (by simp), wp_bind, wp_pure]
      exact ⟨hc, le_rfl, rfl, rfl, .self rfl rfl⟩
    | _ => cases heq
  | uint uint_ty =>
    cases bty2 with
    | uint uint_ty2 =>
      obtain rfl := ErasedTy.uint.inj heq
      rw [btyJoin, assert, if_pos (by simp), wp_bind, wp_pure]
      exact ⟨hc, le_rfl, rfl, rfl, .self rfl rfl⟩
    | _ => cases heq
  | adt did substs1 =>
    cases bty2 with
    | adt did2 substs2 =>
      obtain ⟨rfl, hsubsts⟩ := ErasedTy.adt.inj heq
      rw [btyJoin, assert, if_pos (by simp), wp_bind, wp_pure, wp_bind]
      refine wp_imp (wp_substsJoin_isJoin hjoin hc hK hcov.2.1 hcov.1 hcov.2.2
        (Nat.lt_of_succ_lt_succ hdepth) hsubsts hold) fun r c' h => ?_
      exact ⟨h.valid, h.le, h.env, congrArg (ErasedTy.adt _) h.erase, h.isJoin.adt _⟩
    | _ => cases heq

/-- **Types that are generalised.** -/
lemma wp_generalize_isJoin
    (hjoin : JoinsTys R K (fun ty => ty.Covariant tcx ∧ ty.depth < n) join) {ty1 ty2 : Ty}
    {bty1 bty2 : BaseTy} (hbase1 : ty1.HasBase bty1) (hbase2 : ty2.HasBase bty2) (hne : ty1 ≠ ty2)
    (hindex : ∀ e, ty1 = .refine bty1 e → ty2 ≠ .refine bty2 e) (hc : c.Valid)
    (hK : K ≤ c.builder.kvars.length) (hcov : (ty1.erase R).Covariant tcx)
    (hdepth : (ty1.erase R).depth < n + 1) (heq : ty2.erase R = ty1.erase R)
    (hold : ty2.newKvars K = []) :
    wp (generalize tcx join env bty1 bty2)
      (JoinsTo (Ty.Finer K) (Ty.newKvars K) (Ty.erase R) env c ty1 ty2) (fun _ => False) c := by
  have herase : ∀ {ty : Ty} {bty : BaseTy}, ty.HasBase bty → ty.erase R = bty.erase R := by
    rintro ty bty (_ | _) <;> rfl
  have hold' : bty2.newKvars K = [] := by
    cases hbase2 with
    | refine e => exact hold
    | exists_ p =>
      cases p with
      | expr e => exact hold
      | kvar kvid args =>
        by_cases hkvid : K ≤ kvid
        · rw [Ty.newKvars_exists_new hkvid] at hold
          cases hold
        · rwa [Ty.newKvars_exists_old hkvid] at hold
  rw [herase hbase1] at hcov hdepth heq
  rw [herase hbase2] at heq
  rw [generalize, wp_bind]
  refine wp_imp (wp_btyJoin_isJoin hjoin hc hK hcov hdepth heq hold') fun r c1 h => ?_
  rw [wp_bind]
  refine wp_imp (h.valid.wp_freshKvar_new r.2.sort) fun p c2 hfresh => ?_
  obtain ⟨hc2, hlen, args, rfl⟩ := hfresh
  have hle : c.builder.kvars.length ≤ c2.builder.kvars.length := by
    have := h.le
    omega
  refine ⟨hc2, hle, h.env, h.erase.trans (herase hbase1).symm, ?_⟩
  rw [hlen]
  exact .generalize args hbase1 hbase2 hne hindex (hK.trans h.le) h.le h.isJoin

end Arguments

/-- Two types of one Rust type that differ have base types. -/
lemma exists_hasBase {ty1 ty2 : Ty} (hcov : (ty1.erase R).Covariant tcx)
    (heq : ty2.erase R = ty1.erase R) (hne : ty1 ≠ ty2) :
    ∃ bty1 bty2, ty1.HasBase bty1 ∧ ty2.HasBase bty2 := by
  have herase : ∀ bty : BaseTy, bty.erase R ≠ .uninit ∧ (∀ p, bty.erase R ≠ .param p) ∧
      ∀ ty, bty.erase R ≠ .ref ty := by
    intro bty
    cases bty <;> simp [BaseTy.erase]
  have hbase : ∀ {ty ty' : Ty}, (∃ bty, ty.HasBase bty) → ty'.erase R = ty.erase R →
      ∃ bty, ty'.HasBase bty := by
    rintro ty ty' ⟨bty, hty⟩ heq
    have herase' : ty.erase R = bty.erase R := by
      cases hty <;> rfl
    rw [herase'] at heq
    cases ty' with
    | refine bty' e => exact ⟨bty', .refine e⟩
    | exists_ bty' p => exact ⟨bty', .exists_ p⟩
    | uninit => exact absurd heq.symm (herase bty).1
    | param p => exact absurd heq.symm ((herase bty).2.1 p)
    | strgRef loc => exact absurd heq.symm ((herase bty).2.2 _)
    | ref ty => exact absurd heq.symm ((herase bty).2.2 _)
  suffices h : ∃ bty1, ty1.HasBase bty1 by
    obtain ⟨bty1, h1⟩ := h
    obtain ⟨bty2, h2⟩ := hbase ⟨bty1, h1⟩ heq
    exact ⟨bty1, bty2, h1, h2⟩
  cases ty1 with
  | refine bty e => exact ⟨bty, .refine e⟩
  | exists_ bty p => exact ⟨bty, .exists_ p⟩
  | strgRef loc => exact hcov.elim
  | ref ty => exact hcov.elim
  | uninit =>
    cases ty2 with
    | uninit => exact absurd rfl hne
    | refine bty e => exact absurd heq (herase bty).1
    | exists_ bty p => exact absurd heq (herase bty).1
    | _ => cases heq
  | param p =>
    cases ty2 with
    | param q =>
      obtain rfl := ErasedTy.param.inj heq
      exact absurd rfl hne
    | refine bty e => exact absurd heq ((herase bty).2.1 p)
    | exists_ bty q => exact absurd heq ((herase bty).2.1 p)
    | _ => cases heq

/-- **The join of two types** of one Rust type is their least bound. It completes if the stack is
deeper than they are nested.

**Proof sketch.** By induction on the size of the stack, with the arms of the join in their order.
Equal types have no new unknown predicates, since the second one has none. Otherwise both types
have a base type; one index for both stays, and in the other cases they are generalised. -/
theorem wp_strgTyJoin_isJoin (n : ℕ) :
    JoinsTys R K (fun ty => ty.Covariant tcx ∧ ty.depth < n) (strgTyJoin tcx n) := by
  induction n with
  | zero => exact fun _ _ _ _ _ _ hsmall => absurd hsmall.2 (Nat.not_lt_zero _)
  | succ n ih =>
    intro env ty1 ty2 c hc hK ⟨hcov, hdepth⟩ heq hold
    by_cases hne : ty1 = ty2
    · subst hne
      unfold strgTyJoin
      rw [if_pos rfl]
      exact ⟨hc, le_rfl, rfl, rfl, .self (.refl ty1) hold⟩
    obtain ⟨bty1, bty2, h1, h2⟩ := exists_hasBase hcov heq hne
    have hgeneralize : (∀ e, ty1 = .refine bty1 e → ty2 ≠ .refine bty2 e) →
        wp (generalize tcx (strgTyJoin tcx n) env bty1 bty2)
          (JoinsTo (Ty.Finer K) (Ty.newKvars K) (Ty.erase R) env c ty1 ty2) (fun _ => False) c :=
      fun hindex => wp_generalize_isJoin ih h1 h2 hne hindex hc hK hcov hdepth heq hold
    unfold strgTyJoin
    rw [if_neg hne]
    cases h1 with
    | refine e1 =>
      cases h2 with
      | refine e2 =>
        dsimp only
        split
        · next he =>
          subst he
          rw [wp_bind]
          refine wp_imp (wp_btyJoin_isJoin ih hc hK hcov hdepth heq hold) fun r c' h => ?_
          exact ⟨h.valid, h.le, h.env, h.erase, h.isJoin.refine e1⟩
        · next he =>
          refine hgeneralize fun e h1 h2 => he ?_
          rw [(Ty.refine.inj h1).2, (Ty.refine.inj h2).2]
      | exists_ p => exact hgeneralize fun _ _ h2 => by cases h2
    | exists_ p1 =>
      cases h2 with
      | refine e => exact hgeneralize fun _ h1 => by cases h1
      | exists_ p2 => exact hgeneralize fun _ h1 => by cases h1

/-! ## The join of environments -/

/-- The new unknown predicates of an environment differ. -/
structure KvarsDiffer (K : KVid) (env : TypeEnv) : Prop where
  nodup : ∀ ⦃loc ty⦄, env.lookupLoc loc = some ty → (ty.newKvars K).Nodup
  disjoint : ∀ ⦃loc loc' ty ty'⦄, loc ≠ loc' → env.lookupLoc loc = some ty →
    env.lookupLoc loc' = some ty' → (ty.newKvars K).Disjoint (ty'.newKvars K)

/-- **An environment that joins two others**, at their common locations. -/
structure JoinsWith (R : Loc → ErasedTy) (K : KVid) (env other env' : TypeEnv) : Prop where
  strong : env'.AllStrong
  types : env'.HasTypes R Set.univ
  mem : ∀ loc, loc ∈ env'.bindings ↔ loc ∈ env.bindings ∧ loc ∈ other.bindings
  bound : ∀ ⦃loc ty1 ty2 ty⦄, env.lookupLoc loc = some ty1 → other.lookupLoc loc = some ty2 →
    env'.lookupLoc loc = some ty → Ty.IsBoundOf K {ty1, ty2} ty
  differ : env'.KvarsDiffer K

/-- Every location has its Rust type, or is uninitialised. -/
lemma HasTypes.or_uninit {env : TypeEnv} {loc : Loc} {ty : Ty} (h : env.HasTypes R Set.univ)
    (hty : env.lookupLoc loc = some ty) : ty.erase R = R loc ∨ ty = .uninit :=
  (h hty).imp_right And.left

/-- Types that may be uninitialised. -/
lemma wp_strgTyJoin_or_uninit {env : TypeEnv} {ty1 ty2 : Ty} {E : ErasedTy} {c : Cursor}
    (hc : c.Valid) (hK : K ≤ c.builder.kvars.length) (hcov : E.Covariant tcx)
    (hdepth : E.depth < tcx.stack) (h1 : ty1.erase R = E ∨ ty1 = .uninit)
    (h2 : ty2.erase R = E ∨ ty2 = .uninit) (hold : ty2.newKvars K = []) :
    wp (strgTyJoin tcx tcx.stack env ty1 ty2)
      (fun r c' => c'.Valid ∧ c.builder.kvars.length ≤ c'.builder.kvars.length ∧ r.1 = env ∧
        (r.2.erase R = E ∨ r.2 = .uninit) ∧
        IsJoin (Ty.Finer K) (Ty.newKvars K) c.builder.kvars.length c'.builder.kvars.length ty1 ty2
          r.2)
      (fun _ => False) c := by
  by_cases huninit : ty1 = .uninit ∨ ty2 = .uninit
  · refine wp_mono (wp_strgTyJoin_uninit huninit) (fun r c' ⟨hr, hc'⟩ => ?_) fun _ hstack => ?_
    · subst hr hc'
      exact ⟨hc, le_rfl, rfl, .inr rfl, .uninit huninit⟩
    · omega
  · obtain ⟨hne1, hne2⟩ := not_or.mp huninit
    obtain rfl := h1.resolve_right hne1
    have heq := h2.resolve_right hne2
    refine wp_imp (wp_strgTyJoin_isJoin tcx.stack hc hK ⟨hcov, hdepth⟩ heq hold) fun r c' h => ?_
    exact ⟨h.valid, h.le, h.env, .inl h.erase, h.isJoin⟩

section Loop

variable {env other cur : TypeEnv} {c₀ c : Cursor} {done : List Loc}

/-- **Where a join is** when it is done with some locations. -/
structure JoinedUpTo (R : Loc → ErasedTy) (K : KVid) (env other : TypeEnv) (c₀ : Cursor)
    (done : List Loc) (cur : TypeEnv) (c : Cursor) : Prop where
  valid : c.Valid
  le : c₀.builder.kvars.length ≤ c.builder.kvars.length
  strong : cur.AllStrong
  types : cur.HasTypes R Set.univ
  mem : ∀ loc, loc ∈ cur.bindings ↔ loc ∈ env.bindings
  rest : ∀ loc ∉ done, cur.lookupLoc loc = env.lookupLoc loc
  bound : ∀ loc ∈ done, ∀ ty1 ty2 ty, env.lookupLoc loc = some ty1 →
    other.lookupLoc loc = some ty2 → cur.lookupLoc loc = some ty → Ty.IsBoundOf K {ty1, ty2} ty
  lt : ∀ loc ∈ done, ∀ ty, cur.lookupLoc loc = some ty →
    (ty.newKvars K).Nodup ∧ ∀ kvid ∈ ty.newKvars K, kvid < c.builder.kvars.length
  disjoint : ∀ loc ∈ done, ∀ loc' ∈ done, loc ≠ loc' → ∀ ty ty', cur.lookupLoc loc = some ty →
    cur.lookupLoc loc' = some ty' → (ty.newKvars K).Disjoint (ty'.newKvars K)

/-- A location gets the join of its types. -/
lemma JoinedUpTo.insert {c' : Cursor} {loc : Loc} {ty1 ty2 ty : Ty}
    (h : JoinedUpTo R K env other c₀ done cur c) (hnew : loc ∉ done)
    (h1 : env.lookupLoc loc = some ty1) (h2 : other.lookupLoc loc = some ty2) (hc' : c'.Valid)
    (hle : c.builder.kvars.length ≤ c'.builder.kvars.length)
    (hty : ty.erase R = R loc ∨ ty = .uninit)
    (hjoin : IsJoin (Ty.Finer K) (Ty.newKvars K) c.builder.kvars.length c'.builder.kvars.length
      ty1 ty2 ty) :
    JoinedUpTo R K env other c₀ (done ++ [loc]) (cur.insertLoc loc ty) c' := by
  have hlookup : ∀ {l ty'}, (cur.insertLoc loc ty).lookupLoc l = some ty' → l ∈ done ++ [loc] →
      (l = loc ∧ ty' = ty) ∨ (l ∈ done ∧ l ≠ loc ∧ cur.lookupLoc l = some ty') := by
    intro l ty' hl hmem
    by_cases hloc : l = loc
    · subst hloc
      rw [lookupLoc_insertLoc_self] at hl
      exact .inl ⟨rfl, (Option.some.inj hl).symm⟩
    · rw [lookupLoc_insertLoc_of_ne hloc] at hl
      exact .inr ⟨by simpa [hloc] using hmem, hloc, hl⟩
  have hapart : ∀ l ∈ done, ∀ ty', cur.lookupLoc l = some ty' →
      (ty'.newKvars K).Disjoint (ty.newKvars K) := fun l hl ty' hty' kvid hkvid hkvid' =>
    absurd (hjoin.mem kvid hkvid').1 (Nat.not_le.mpr ((h.lt l hl ty' hty').2 kvid hkvid))
  refine ⟨hc', h.le.trans hle, h.strong.insertLoc loc ty, h.types.insertLoc
    (hty.imp_right fun hu => ⟨hu, trivial⟩), fun l => ?_, fun l hl => ?_, ?_, ?_, ?_⟩
  · rw [mem_insertLoc, h.mem]
    exact ⟨fun hl => hl.elim (fun hl => hl ▸ mem_of_lookupLoc h1) id, .inr⟩
  · have hne : l ≠ loc := fun hl' => hl (by simp [hl'])
    rw [lookupLoc_insertLoc_of_ne hne]
    exact h.rest l fun hl' => hl (List.mem_append_left _ hl')
  · intro l hl t1 t2 t ht1 ht2 ht
    rcases hlookup ht hl with ⟨rfl, rfl⟩ | ⟨hl, -, ht⟩
    · obtain rfl := Option.some.inj (h1.symm.trans ht1)
      obtain rfl := Option.some.inj (h2.symm.trans ht2)
      exact hjoin.isBoundOf
    · exact h.bound l hl t1 t2 t ht1 ht2 ht
  · intro l hl t ht
    rcases hlookup ht hl with ⟨rfl, rfl⟩ | ⟨hl, -, ht⟩
    · exact ⟨hjoin.nodup, fun kvid hkvid => (hjoin.mem kvid hkvid).2⟩
    · exact ⟨(h.lt l hl t ht).1, fun kvid hkvid => ((h.lt l hl t ht).2 kvid hkvid).trans_le hle⟩
  · intro l hl l' hl' hne t t' ht ht'
    rcases hlookup ht hl with ⟨rfl, rfl⟩ | ⟨hdone, -, hcur⟩
    · rcases hlookup ht' hl' with ⟨rfl, rfl⟩ | ⟨hl', -, ht'⟩
      · exact absurd rfl hne
      · exact fun kvid hkvid hkvid' => hapart l' hl' t' ht' hkvid' hkvid
    · rcases hlookup ht' hl' with ⟨rfl, rfl⟩ | ⟨hl', -, ht'⟩
      · exact hapart l hdone t hcur
      · exact h.disjoint l hdone l' hl' hne t t' hcur ht'

/-- **One location of a join.** -/
lemma JoinedUpTo.wp_joinLoc {loc : Loc} (h : JoinedUpTo R K env other c₀ done cur c)
    (hR : ∀ loc, (R loc).Covariant tcx ∧ (R loc).depth < tcx.stack)
    (hK : K ≤ c₀.builder.kvars.length) (hstrong : other.AllStrong)
    (htypes : other.HasTypes R Set.univ)
    (hold : ∀ loc ty, other.lookupLoc loc = some ty → ty.newKvars K = []) (hnew : loc ∉ done)
    (hloc : loc ∈ env.bindings) (hloc' : loc ∈ other.bindings) :
    wp (joinLoc tcx other cur loc) (JoinedUpTo R K env other c₀ (done ++ [loc])) (fun _ => False)
      c := by
  obtain ⟨ty1, hty1⟩ := exists_lookupLoc ((h.mem loc).mpr hloc)
  obtain ⟨ty2, hty2⟩ := exists_lookupLoc hloc'
  refine wp_joinLoc_of_strong h.strong hstrong hty1 hty2 ?_
  refine wp_imp (wp_strgTyJoin_or_uninit h.valid (hK.trans h.le) (hR loc).1 (hR loc).2
    (h.types.or_uninit hty1) (htypes.or_uninit hty2) (hold loc ty2 hty2)) fun r c' h' => ?_
  obtain ⟨hc', hle, henv, hty, hjoin⟩ := h'
  rw [henv]
  exact h.insert hnew ((h.rest loc hnew).symm.trans hty1) hty2 hc' hle hty hjoin

end Loop

section JoinWith

variable {env other : TypeEnv} {c : Cursor}

/-- Without pointers there is one level. -/
lemma HasTypes.hasLevel (hR : ∀ loc, (R loc).Covariant tcx) (h : env.HasTypes R Set.univ)
    {loc : Loc} {ty : Ty} (hty : env.lookupLoc loc = some ty) : env.HasLevel ty 0 := by
  cases ty with
  | strgRef l =>
    have hcov := hR loc
    rw [← h.strgRef hty] at hcov
    exact hcov.elim
  | _ => exact .other rfl

/-- The levels of an environment without references. -/
lemma HasTypes.post_levels (hR : ∀ loc, (R loc).Covariant tcx ∧ (R loc).depth < tcx.stack)
    (h : env.HasTypes R Set.univ) :
    post (env.levels tcx) (fun levels => ∀ l, l ∈ levels ↔ l ∈ env.bindings) (fun _ => False) := by
  refine post_mono (TypeEnv.post_levels tcx env) (fun levels h => h.2) ?_
  rintro _ ⟨loc, ty, hty, hlevel⟩
  have := hlevel 0 (h.hasLevel (fun loc => (hR loc).1) hty)
  have := (hR loc).2
  omega

/-- `weakening` keeps every binding strong. -/
lemma AllStrong.weakening (h : env.AllStrong) (other : TypeEnv) :
    (env.weakening other).AllStrong := by
  intro loc binding hbinding
  rw [lookup_weakening] at hbinding
  obtain ⟨binding1, hb1, hmap⟩ := Option.bind_eq_some_iff.mp hbinding
  obtain ⟨ty2, -, rfl⟩ := Option.map_eq_some_iff.mp hmap
  split
  · exact ⟨.uninit, rfl⟩
  · exact h loc binding1 hb1

/-- What is at a location after weakening. -/
lemma lookupLoc_weakening {loc : Loc} {ty1 ty2 : Ty} (h1 : env.lookupLoc loc = some ty1)
    (h2 : other.lookupLoc loc = some ty2) :
    (env.weakening other).lookupLoc loc = some ty1 ∨
      ty2 = .uninit ∧ (env.weakening other).lookupLoc loc = some .uninit := by
  obtain ⟨binding, hb, rfl⟩ := Option.map_eq_some_iff.mp h1
  rw [lookupLoc, lookup_weakening, hb, h2]
  simp only [Option.bind_some, Option.map_some]
  split
  · next huninit =>
    refine .inr ⟨?_, rfl⟩
    cases ty2 with
    | uninit => rfl
    | _ => cases huninit
  · exact .inl rfl

/-- **The join of two environments** joins them. -/
theorem wp_joinWith_joinsWith (hR : ∀ loc, (R loc).Covariant tcx ∧ (R loc).depth < tcx.stack)
    (henv : env.AllStrong) (hother : other.AllStrong) (htypes : env.HasTypes R Set.univ)
    (htypes' : other.HasTypes R Set.univ)
    (hold : ∀ loc ty, other.lookupLoc loc = some ty → ty.newKvars K = []) (hc : c.Valid)
    (hK : K ≤ c.builder.kvars.length) :
    wp (env.joinWith tcx other)
      (fun env' c' => c'.Valid ∧ K ≤ c'.builder.kvars.length ∧ JoinsWith R K env other env')
      (fun _ => False) c := by
  have hmem : ∀ loc, loc ∈ (env.weakening other).bindings ↔
      loc ∈ env.bindings ∧ loc ∈ other.bindings := fun loc =>
    Set.ext_iff.mp locSet_weakening loc
  have hweak := htypes.weakening htypes'
  rw [joinWith, wp_bind, wp_ofExcept]
  refine post_mono (hweak.post_levels hR) (fun levels1 hkeys1 => ?_) fun _ hf => hf
  rw [wp_bind, wp_ofExcept]
  refine post_mono (htypes'.post_levels hR) (fun levels2 hkeys2 => ?_) fun _ hf => hf
  rw [wp_bind, wp_ofExcept]
  have hsub : ∀ loc ∈ levels1, loc ∈ levels2 := fun loc hloc =>
    (hkeys2 loc).mpr ((hmem loc).mp ((hkeys1 loc).mp hloc)).2
  refine post_mono (post_maxLevels hsub) (fun m hmax => ?_) fun _ hf => hf
  obtain ⟨hkeys, -⟩ := hmax
  have hsorted : ∀ loc, loc ∈ sortedByLevel tcx m ↔ loc ∈ (env.weakening other).bindings :=
    fun loc => (mem_sortedByLevel tcx).trans ((hkeys loc).trans (hkeys1 loc))
  have hloop : wp ((sortedByLevel tcx m).foldlM (joinLoc tcx other) (env.weakening other))
      (JoinedUpTo R K (env.weakening other) other c (sortedByLevel tcx m)) (fun _ => False) c := by
    refine wp_foldlM_done (fun done loc rest hl cur c' h => ?_) ?_
    · have hloc : loc ∈ sortedByLevel tcx m := hl ▸ by simp
      have hnew : loc ∉ done := fun hdone => by
        have hnodup := sortedByLevel_nodup tcx m
        rw [hl] at hnodup
        exact (List.nodup_append.mp hnodup).2.2 loc hdone loc (.head _) rfl
      have hloc' := (hsorted loc).mp hloc
      exact h.wp_joinLoc hR hK hother htypes' hold hnew hloc' ((hmem loc).mp hloc').2
    · refine ⟨hc, le_rfl, henv.weakening other, hweak, fun _ => Iff.rfl, fun _ _ => rfl, ?_, ?_, ?_⟩
      all_goals
        intro loc h
        cases h
  refine wp_imp hloop fun env' c' h => ⟨h.valid, hK.trans h.le, h.strong, h.types,
    fun loc => (h.mem loc).trans (hmem loc), fun loc ty1 ty2 ty h1 h2 hty => ?_,
    fun loc ty hty => ?_, fun loc loc' ty ty' hne hty hty' => ?_⟩
  · have hloc := (hsorted loc).mpr ((h.mem loc).mp (mem_of_lookupLoc hty))
    rcases lookupLoc_weakening h1 h2 with h1' | ⟨rfl, h1'⟩
    · exact h.bound loc hloc ty1 ty2 ty h1' h2 hty
    · have hbound := h.bound loc hloc .uninit .uninit ty h1' h2 hty
      rw [Set.pair_eq_singleton] at hbound
      have huninit : Ty.Finer K .uninit ty := hbound.1 rfl
      obtain rfl : ty = .uninit := by
        cases ty <;> simp_all only [Ty.Finer]
      have hjoin : IsJoin (Ty.Finer K) (Ty.newKvars K) 0 0 ty1 .uninit .uninit :=
        .uninit (.inr rfl)
      exact hjoin.isBoundOf
  · exact (h.lt loc ((hsorted loc).mpr ((h.mem loc).mp (mem_of_lookupLoc hty))) ty hty).1
  · exact h.disjoint loc ((hsorted loc).mpr ((h.mem loc).mp (mem_of_lookupLoc hty))) loc'
      ((hsorted loc').mpr ((h.mem loc').mp (mem_of_lookupLoc hty'))) hne ty ty' hty hty'

end JoinWith

/-! ## Joins in any order -/

/-- **An environment that joins all of a list**, at their common locations. -/
structure JoinsAll (R : Loc → ErasedTy) (K : KVid) (envs : List TypeEnv) (env' : TypeEnv) :
    Prop where
  strong : env'.AllStrong
  types : env'.HasTypes R Set.univ
  mem : ∀ loc, loc ∈ env'.bindings ↔ ∀ e ∈ envs, loc ∈ e.bindings
  bound : ∀ ⦃loc ty⦄, env'.lookupLoc loc = some ty →
    Ty.IsBoundOf K {ty' | ∃ e ∈ envs, e.lookupLoc loc = some ty'} ty
  differ : env'.KvarsDiffer K

section JoinsAll

variable {env env' other cur : TypeEnv} {envs others others' : List TypeEnv}

/-- One environment. -/
lemma JoinsAll.singleton (hstrong : env.AllStrong) (htypes : env.HasTypes R Set.univ)
    (hold : ∀ loc ty, env.lookupLoc loc = some ty → ty.newKvars K = []) :
    JoinsAll R K [env] env := by
  refine ⟨hstrong, htypes, by simp, fun loc ty hty => ?_, ⟨fun loc ty hty => ?_, ?_⟩⟩
  · have hset : {ty' | ∃ e ∈ [env], e.lookupLoc loc = some ty'} = {ty} := by
      ext ty'
      simp [hty, eq_comm]
    rw [hset]
    exact @isLUB_singleton Ty (Ty.finerOrder K) ty
  · rw [hold loc ty hty]
    exact .nil
  · intro loc loc' ty ty' _ hty _ kvid hkvid
    rw [hold loc ty hty] at hkvid
    cases hkvid

/-- One more environment. -/
lemma JoinsAll.join (h : JoinsAll R K envs cur) (h' : JoinsWith R K cur other env') :
    JoinsAll R K (envs ++ [other]) env' where
  strong := h'.strong
  types := h'.types
  mem loc := by
    rw [h'.mem, h.mem]
    simp [or_imp, forall_and]
  bound loc ty hty := by
    obtain ⟨hloc, hloc'⟩ := (h'.mem loc).mp (mem_of_lookupLoc hty)
    obtain ⟨ty1, hty1⟩ := exists_lookupLoc hloc
    obtain ⟨ty2, hty2⟩ := exists_lookupLoc hloc'
    have hset : {ty' | ∃ e ∈ envs ++ [other], e.lookupLoc loc = some ty'} =
        insert ty2 {ty' | ∃ e ∈ envs, e.lookupLoc loc = some ty'} := by
      ext ty'
      simp [or_and_right, exists_or, hty2, eq_comm, or_comm]
    rw [hset]
    exact @isLUB_insert_of_pair Ty (Ty.finerOrder K) _ ty1 ty2 ty (h.bound hty1)
      (h'.bound hty1 hty2 hty)
  differ := h'.differ

/-- The joins of any number of environments. -/
lemma wp_foldlM_joinWith {c : Cursor}
    (hR : ∀ loc, (R loc).Covariant tcx ∧ (R loc).depth < tcx.stack)
    (hstrong : ∀ e ∈ env :: others, e.AllStrong)
    (htypes : ∀ e ∈ env :: others, e.HasTypes R Set.univ)
    (hold : ∀ e ∈ env :: others, ∀ loc ty, e.lookupLoc loc = some ty → ty.newKvars K = [])
    (hc : c.Valid) (hK : K ≤ c.builder.kvars.length) :
    wp (others.foldlM (fun (env other : TypeEnv) => env.joinWith tcx other) env)
      (fun env' _ => JoinsAll R K (env :: others) env') (fun _ => False) c := by
  have hloop : wp (others.foldlM (fun (env other : TypeEnv) => env.joinWith tcx other) env)
      (fun env' c' => c'.Valid ∧ K ≤ c'.builder.kvars.length ∧ JoinsAll R K (env :: others) env')
      (fun _ => False) c := by
    refine wp_foldlM_done (I := fun done env' (c' : Cursor) => c'.Valid ∧
      K ≤ c'.builder.kvars.length ∧ JoinsAll R K (env :: done) env')
      (fun done e rest hl cur c' ⟨hc', hK', h⟩ => ?_)
      ⟨hc, hK, .singleton (hstrong env (.head _)) (htypes env (.head _)) (hold env (.head _))⟩
    have he : e ∈ env :: others := by simp [hl]
    refine wp_imp (wp_joinWith_joinsWith hR h.strong (hstrong e he) h.types (htypes e he)
      (hold e he) hc' hK') fun env' c'' ⟨hc'', hK'', h'⟩ => ⟨hc'', hK'', ?_⟩
    exact h.join h'
  exact wp_imp hloop fun _ _ h => h.2.2

/-- **Two environments that join the same ones** are the same up to new unknown predicates. -/
lemma JoinsAll.sameUpTo {envs' : List TypeEnv} {env₁ env₂ : TypeEnv} (h₁ : JoinsAll R K envs env₁)
    (h₂ : JoinsAll R K envs' env₂) (hmem : ∀ e, e ∈ envs ↔ e ∈ envs') :
    ∃ σ : Equiv.Perm KVid, (∀ kvid < K, σ kvid = kvid) ∧
      (∀ loc, loc ∈ env₁.bindings ↔ loc ∈ env₂.bindings) ∧
      ∀ loc ty₁ ty₂, env₁.lookupLoc loc = some ty₁ → env₂.lookupLoc loc = some ty₂ →
        ty₁.SameUpTo K σ ty₂ := by
  have hlocs : ∀ loc, loc ∈ env₁.bindings ↔ loc ∈ env₂.bindings := fun loc => by
    rw [h₁.mem, h₂.mem]
    exact forall_congr' fun e => imp_congr_left (hmem e)
  have hsame : ∀ {loc ty₁ ty₂}, env₁.lookupLoc loc = some ty₁ → env₂.lookupLoc loc = some ty₂ →
      Renames K (ty₁.newKvars K) (ty₂.newKvars K) fun σ => ty₁.SameUpTo K σ ty₂ := by
    intro loc ty₁ ty₂ hty₁ hty₂
    have hset : {ty' | ∃ e ∈ envs, e.lookupLoc loc = some ty'} =
        {ty' | ∃ e ∈ envs', e.lookupLoc loc = some ty'} :=
      Set.ext fun ty' => exists_congr fun e => and_congr_left fun _ => hmem e
    have hbound₁ := h₁.bound hty₁
    have hbound₂ := h₂.bound hty₂
    rw [hset] at hbound₁
    exact Ty.sameUpTo_of_finer (hbound₁.2 hbound₂.1) (hbound₂.2 hbound₁.1)
  -- the new unknown predicates of both environments, in the order of the locations of the first
  let newAt (env : TypeEnv) (loc : Loc) : List KVid :=
    ((env.lookupLoc loc).map (Ty.newKvars K)).getD []
  have hnewAt : ∀ {env : TypeEnv} {loc ty}, env.lookupLoc loc = some ty →
      newAt env loc = ty.newKvars K := fun h => by simp [newAt, h]
  have hnodup : ∀ {env : TypeEnv}, env.KvarsDiffer K → (∀ loc, loc ∈ env₁.bindings ↔
      loc ∈ env.bindings) → (env₁.bindings.keys.flatMap (newAt env)).Nodup := by
    intro env hdiffer hlocs
    refine List.nodup_flatMap.mpr ⟨fun loc hloc => ?_, ?_⟩
    · obtain ⟨ty, hty⟩ := exists_lookupLoc ((hlocs loc).mp (AList.mem_keys.mp hloc))
      exact hnewAt hty ▸ hdiffer.nodup hty
    · refine env₁.bindings.keys_nodup.imp_of_mem fun {loc loc'} hloc hloc' hne => ?_
      obtain ⟨ty, hty⟩ := exists_lookupLoc ((hlocs loc).mp (AList.mem_keys.mp hloc))
      obtain ⟨ty', hty'⟩ := exists_lookupLoc ((hlocs loc').mp (AList.mem_keys.mp hloc'))
      show (newAt env loc).Disjoint (newAt env loc')
      rw [hnewAt hty, hnewAt hty']
      exact hdiffer.disjoint hne hty hty'
  have hnew : ∀ {env : TypeEnv}, ∀ kvid ∈ env₁.bindings.keys.flatMap (newAt env),
      kvid ∉ {kvid | kvid < K} := by
    intro env kvid hkvid
    obtain ⟨loc, -, hkvid⟩ := List.mem_flatMap.mp hkvid
    cases hty : env.lookupLoc loc with
    | none => simp [newAt, hty] at hkvid
    | some ty =>
      rw [hnewAt hty] at hkvid
      exact Nat.not_lt.mpr (by simpa using (List.mem_filter.mp hkvid).2)
  have hlen : ∀ loc ∈ env₁.bindings.keys, (newAt env₁ loc).length = (newAt env₂ loc).length := by
    intro loc hloc
    obtain ⟨ty₁, hty₁⟩ := exists_lookupLoc (AList.mem_keys.mp hloc)
    obtain ⟨ty₂, hty₂⟩ := exists_lookupLoc ((hlocs loc).mp (AList.mem_keys.mp hloc))
    rw [hnewAt hty₁, hnewAt hty₂]
    exact (hsame hty₁ hty₂).1
  have hlens : (env₁.bindings.keys.flatMap (newAt env₁)).length =
      (env₁.bindings.keys.flatMap (newAt env₂)).length := by
    rw [List.length_flatMap, List.length_flatMap, List.map_congr_left hlen]
  obtain ⟨σ, hmap, hfix⟩ := exists_perm_map_eq hlens (hnodup h₁.differ fun _ => Iff.rfl)
    (hnodup h₂.differ hlocs) hnew hnew
  refine ⟨σ, hfix, hlocs, fun loc ty₁ ty₂ hty₁ hty₂ => (hsame hty₁ hty₂).2 σ hfix ?_⟩
  rw [← hnewAt hty₁, ← hnewAt hty₂]
  exact map_eq_of_map_flatMap_eq hlen hmap loc (AList.mem_keys.mpr (mem_of_lookupLoc hty₁))

/-- **The order of joins does not matter.** Environments without references, with the same Rust
types at their common locations, are joined in two orders, from any cursors that have their unknown
predicates. Both joins complete if the stack is deeper than types are nested, and come to
environments with the same locations and the same types, up to a renaming of the new unknown
predicates and up to their arguments.

**Proof sketch.** The join of two types is their least bound among the types that are finer up to
a renaming of new unknown predicates, by induction on the size of the stack
(`wp_strgTyJoin_isJoin`). So a fold of joins ends with the least bound of all environments, which
does not depend on their order (`wp_foldlM_joinWith`). Two least bounds are finer than each other,
so they are the same up to the renaming of the new unknown predicates, which are different at
different places (`JoinsAll.sameUpTo`). -/
theorem foldlM_joinWith_perm {env₁ env₂ : TypeEnv} {others₁ others₂ : List TypeEnv}
    {c₁ c₂ : Cursor} (hperm : (env₁ :: others₁).Perm (env₂ :: others₂))
    (hR : ∀ loc, (R loc).Covariant tcx ∧ (R loc).depth < tcx.stack)
    (hstrong : ∀ e ∈ env₁ :: others₁, e.AllStrong)
    (htypes : ∀ e ∈ env₁ :: others₁, ∀ loc ty, e.lookupLoc loc = some ty →
      ty = .uninit ∨ ty.erase R = R loc)
    (hkvars : ∀ e ∈ env₁ :: others₁, ∀ loc ty, e.lookupLoc loc = some ty →
      ∀ x ∈ ty.kvars, x.2 < K)
    (hc₁ : c₁.Valid) (hK₁ : K ≤ c₁.builder.kvars.length) (hc₂ : c₂.Valid)
    (hK₂ : K ≤ c₂.builder.kvars.length) :
    ∃ env₁' c₁' env₂' c₂',
      (others₁.foldlM (fun (env other : TypeEnv) => env.joinWith tcx other) env₁).run c₁ =
        .ok (env₁', c₁') ∧
      (others₂.foldlM (fun (env other : TypeEnv) => env.joinWith tcx other) env₂).run c₂ =
        .ok (env₂', c₂') ∧
      ∃ σ : Equiv.Perm KVid, (∀ kvid < K, σ kvid = kvid) ∧
        (∀ loc, loc ∈ env₁'.bindings ↔ loc ∈ env₂'.bindings) ∧
        ∀ loc ty₁ ty₂, env₁'.lookupLoc loc = some ty₁ → env₂'.lookupLoc loc = some ty₂ →
          ty₁.SameUpTo K σ ty₂ := by
  have hinput : ∀ e ∈ env₁ :: others₁, e.HasTypes R Set.univ := fun e he loc ty hty =>
    (htypes e he loc ty hty).symm.imp_right fun h => ⟨h, trivial⟩
  have hold : ∀ e ∈ env₁ :: others₁, ∀ loc ty, e.lookupLoc loc = some ty → ty.newKvars K = [] := by
    intro e he loc ty hty
    refine List.filter_eq_nil_iff.mpr fun kvid hkvid => ?_
    obtain ⟨x, hx, rfl⟩ := List.mem_map.mp hkvid
    simpa using hkvars e he loc ty hty x hx
  have hmem : ∀ e, e ∈ env₁ :: others₁ ↔ e ∈ env₂ :: others₂ := fun e => hperm.mem_iff
  have h₁ := wp_foldlM_joinWith hR hstrong hinput hold hc₁ hK₁
  have h₂ := wp_foldlM_joinWith hR (fun e he => hstrong e ((hmem e).mpr he))
    (fun e he => hinput e ((hmem e).mpr he)) (fun e he => hold e ((hmem e).mpr he)) hc₂ hK₂
  obtain ⟨env₁', c₁', hrun₁, hjoins₁⟩ := exists_run_of_wp h₁
  obtain ⟨env₂', c₂', hrun₂, hjoins₂⟩ := exists_run_of_wp h₂
  exact ⟨env₁', c₁', env₂', c₂', hrun₁, hrun₂, hjoins₁.sameUpTo hjoins₂ hmem⟩

end JoinsAll

/-- The type of an integer `n`. -/
def integerTy (n : ℤ) : Ty :=
  .refine (.int .i32) (.constant (.ofI128 n))

/-- A box of an integer `n` at one location, and a value of the type `ty` at another one. -/
def boxEnv (n : ℤ) (ty : Ty) : TypeEnv :=
  (new.insertLoc (.local_ 0) (.refine (.adt 0 (.cons (integerTy n) .nil)) .zero)).insertLoc
    (.local_ 1) ty

/-- The Rust types of the two locations. -/
def boxTypes : Loc → ErasedTy
  | .local_ 0 => .adt 0 (.cons (.int .i32) .nil)
  | _ => .int .i32

/-- Boxes are covariant in what they have in them. -/
def boxTcx : Tcx :=
  { Tcx.ofStack 8 with variancesOf := fun _ => [.covariant] }

/-- The locations of an environment of a box and something else. -/
lemma lookupLoc_boxEnv {n : ℤ} {ty ty' : Ty} {loc : Loc}
    (h : (boxEnv n ty).lookupLoc loc = some ty') :
    (loc = .local_ 0 ∧ ty' = .refine (.adt 0 (.cons (integerTy n) .nil)) .zero) ∨
      (loc = .local_ 1 ∧ ty' = ty) := by
  by_cases hsecond : loc = .local_ 1
  · subst hsecond
    rw [boxEnv, lookupLoc_insertLoc_self] at h
    exact .inr ⟨rfl, (Option.some.inj h).symm⟩
  · rw [boxEnv, lookupLoc_insertLoc_of_ne hsecond] at h
    by_cases hfirst : loc = .local_ 0
    · subst hfirst
      rw [lookupLoc_insertLoc_self] at h
      exact .inl ⟨rfl, (Option.some.inj h).symm⟩
    · rw [lookupLoc_insertLoc_of_ne hfirst] at h
      cases h

/-- Both locations are bound strongly. -/
lemma allStrong_boxEnv (n : ℤ) (ty : Ty) : (boxEnv n ty).AllStrong :=
  (AllStrong.insertLoc (fun loc binding h => by simp [new] at h) _ _).insertLoc _ _

/-- The two locations have their Rust types, as long as the second one has an integer or is not
initialized. -/
lemma erase_boxEnv {n : ℤ} {ty ty' : Ty} {loc : Loc}
    (hty : ty = .uninit ∨ ∃ m, ty = integerTy m) (h : (boxEnv n ty).lookupLoc loc = some ty') :
    ty' = .uninit ∨ ty'.erase boxTypes = boxTypes loc := by
  obtain ⟨rfl, rfl⟩ | ⟨rfl, rfl⟩ := lookupLoc_boxEnv h
  · exact .inr rfl
  · refine hty.imp_right ?_
    rintro ⟨m, rfl⟩
    rfl

/-- There are no unknown predicates in the two types. -/
lemma kvars_boxEnv {n : ℤ} {ty ty' : Ty} {loc : Loc}
    (hty : ty = .uninit ∨ ∃ m, ty = integerTy m) (h : (boxEnv n ty).lookupLoc loc = some ty') :
    ty'.kvars = [] := by
  obtain ⟨-, rfl⟩ | ⟨-, rfl⟩ := lookupLoc_boxEnv h
  · rfl
  · obtain rfl | ⟨m, rfl⟩ := hty <;> rfl

/-- **The order of three environments**: the boxes of two of them are equal, so what is in the box
gets one new unknown predicate if they come first, and two otherwise. The second location is not
initialized in one of them. -/
theorem foldlM_joinWith_perm_boxEnv :
    ∃ env₁' c₁' env₂' c₂',
      ([boxEnv 1 .uninit, boxEnv 2 (integerTy 5)].foldlM
        (fun (env other : TypeEnv) => env.joinWith boxTcx other) (boxEnv 1 (integerTy 4))).run
          ConstraintBuilder.new.asCursor = .ok (env₁', c₁') ∧
      ([boxEnv 2 (integerTy 5), boxEnv 1 .uninit].foldlM
        (fun (env other : TypeEnv) => env.joinWith boxTcx other) (boxEnv 1 (integerTy 4))).run
          ConstraintBuilder.new.asCursor = .ok (env₂', c₂') ∧
      ∃ σ : Equiv.Perm KVid, (∀ kvid < 0, σ kvid = kvid) ∧
        (∀ loc, loc ∈ env₁'.bindings ↔ loc ∈ env₂'.bindings) ∧
        ∀ loc ty₁ ty₂, env₁'.lookupLoc loc = some ty₁ → env₂'.lookupLoc loc = some ty₂ →
          ty₁.SameUpTo 0 σ ty₂ := by
  have hmem : ∀ e ∈ [boxEnv 1 (integerTy 4), boxEnv 1 .uninit, boxEnv 2 (integerTy 5)],
      ∃ n ty, (ty = .uninit ∨ ∃ m, ty = integerTy m) ∧ e = boxEnv n ty := by
    intro e he
    simp only [List.mem_cons, List.not_mem_nil, or_false] at he
    obtain rfl | rfl | rfl := he
    · exact ⟨1, _, .inr ⟨4, rfl⟩, rfl⟩
    · exact ⟨1, _, .inl rfl, rfl⟩
    · exact ⟨2, _, .inr ⟨5, rfl⟩, rfl⟩
  have hR : ∀ loc, (boxTypes loc).Covariant boxTcx ∧ (boxTypes loc).depth < boxTcx.stack := by
    intro loc
    rcases loc with (_ | l) | name
    · exact ⟨⟨le_rfl, fun _ => List.mem_singleton.mp, trivial, trivial⟩, by decide⟩
    · exact ⟨trivial, Nat.succ_pos _⟩
    · exact ⟨trivial, Nat.succ_pos _⟩
  refine foldlM_joinWith_perm (R := boxTypes) (.cons _ (.swap _ _ _)) hR (fun e he => ?_)
    (fun e he loc ty h => ?_) (fun e he loc ty h x hx => ?_) valid_new (Nat.zero_le _) valid_new
    (Nat.zero_le _)
  · obtain ⟨n, ty, -, rfl⟩ := hmem e he
    exact allStrong_boxEnv n ty
  · obtain ⟨n, ty', hty, rfl⟩ := hmem e he
    exact erase_boxEnv hty h
  · obtain ⟨n, ty', hty, rfl⟩ := hmem e he
    rw [kvars_boxEnv hty h] at hx
    cases hx

end TypeEnv

end LiquidRust.Typeck
