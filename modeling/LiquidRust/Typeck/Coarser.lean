import LiquidRust.Lib.Renaming
import LiquidRust.Typeck.JoinShape
import LiquidRust.Typeck.ReplaceKvars

set_option relaxedAutoImplicit false
set_option autoImplicit false

/-!
# Coarser types

Joins go up in an order of types: an index can be lost for a new unknown predicate, so can a
predicate, and everything can be lost for an uninitialised location. Unknown predicates are new if
their numbers are not below a given one. In this order the join of two types is their least bound,
up to the numbers and the arguments of new predicates.

## Main definitions

* `LiquidRust.Typeck.Ty.Finer`, `BaseTy.Finer`, `Substs.Finer` — the order.
* `LiquidRust.Typeck.Ty.SameUpTo` — types that differ in the numbers and arguments of new unknown
  predicates.
* `LiquidRust.Typeck.IsJoin` — a join of two types.

## Main results

* `LiquidRust.Typeck.Ty.sameUpTo_of_finer` — types that are finer than one another.
* `LiquidRust.Typeck.IsJoin.generalize` — the join of two types that have different indices or
  predicates.
-/

namespace LiquidRust.Typeck

open Lib

variable (K : KVid)

/-- Unknown predicates that are new. -/
def Pred.IsNew : Pred → Prop
  | .kvar kvid _ => K ≤ kvid
  | .expr _ => False

mutual

/-- **A type that is finer than another one.** -/
def Ty.Finer : Ty → Ty → Prop
  | _, .uninit => True
  | .refine bty1 e1, .refine bty2 e2 => bty1.Finer bty2 ∧ e1 = e2
  | .refine bty1 _, .exists_ bty2 p => bty1.Finer bty2 ∧ p.IsNew K
  | .exists_ bty1 p1, .exists_ bty2 p2 =>
    (bty1.Finer bty2 ∧ p2.IsNew K) ∨ (bty1 = bty2 ∧ p1 = p2)
  | .strgRef loc1, .strgRef loc2 => loc1 = loc2
  | .ref ty1, .ref ty2 => ty1 = ty2
  | .param p, .param q => p = q
  | _, _ => False

/-- The same for base types. -/
def BaseTy.Finer : BaseTy → BaseTy → Prop
  | .int int_ty1, .int int_ty2 => int_ty1 = int_ty2
  | .uint uint_ty1, .uint uint_ty2 => uint_ty1 = uint_ty2
  | .bool, .bool => True
  | .adt did1 substs1, .adt did2 substs2 => did1 = did2 ∧ substs1.Finer substs2
  | _, _ => False

/-- The same for type arguments. -/
def Substs.Finer : Substs → Substs → Prop
  | .nil, .nil => True
  | .cons ty1 substs1, .cons ty2 substs2 => ty1.Finer ty2 ∧ substs1.Finer substs2
  | _, _ => False

end

section Order

variable {K}

mutual

/-- A type is finer than itself. -/
lemma Ty.Finer.refl : ∀ ty : Ty, ty.Finer K ty
  | .refine bty _ => by
    rw [Ty.Finer]
    exact ⟨.refl bty, rfl⟩
  | .exists_ _ _ => by
    rw [Ty.Finer]
    exact .inr ⟨rfl, rfl⟩
  | .uninit => by
    rw [Ty.Finer]
    trivial
  | .strgRef _ | .ref _ | .param _ => by rw [Ty.Finer]

/-- The same for base types. -/
lemma BaseTy.Finer.refl : ∀ bty : BaseTy, bty.Finer K bty
  | .adt _ substs => ⟨rfl, .refl substs⟩
  | .int _ | .uint _ => rfl
  | .bool => trivial

/-- The same for type arguments. -/
lemma Substs.Finer.refl : ∀ substs : Substs, substs.Finer K substs
  | .nil => trivial
  | .cons ty substs => ⟨.refl ty, .refl substs⟩

end

mutual

/-- A type finer than a finer one is finer. -/
lemma Ty.Finer.trans : ∀ {ty1 ty2 ty3 : Ty}, ty1.Finer K ty2 → ty2.Finer K ty3 → ty1.Finer K ty3
  | _, _, .uninit, _, _ => by simp only [Ty.Finer]
  | ty1, .uninit, ty3, _, h' => by cases ty3 <;> simp_all only [Ty.Finer]
  | .refine bty1 e1, .refine bty2 e2, .refine bty3 e3, h, h' => by
    simp only [Ty.Finer] at h h' ⊢
    exact ⟨h.1.trans h'.1, h.2.trans h'.2⟩
  | .refine bty1 e1, .refine bty2 e2, .exists_ bty3 p3, h, h' => by
    simp only [Ty.Finer] at h h' ⊢
    exact ⟨h.1.trans h'.1, h'.2⟩
  | .refine bty1 e1, .exists_ bty2 p2, .exists_ bty3 p3, h, h' => by
    simp only [Ty.Finer] at h h' ⊢
    rcases h' with h' | ⟨rfl, rfl⟩
    · exact ⟨h.1.trans h'.1, h'.2⟩
    · exact h
  | .exists_ bty1 p1, .exists_ bty2 p2, .exists_ bty3 p3, h, h' => by
    simp only [Ty.Finer] at h h' ⊢
    rcases h' with h' | ⟨rfl, rfl⟩
    · rcases h with h | ⟨rfl, rfl⟩
      · exact .inl ⟨h.1.trans h'.1, h'.2⟩
      · exact .inl h'
    · exact h
  | .strgRef loc1, .strgRef loc2, .strgRef loc3, h, h' => by
    simp only [Ty.Finer] at h h' ⊢
    exact h.trans h'
  | .ref ty1, .ref ty2, .ref ty3, h, h' => by
    simp only [Ty.Finer] at h h' ⊢
    exact h.trans h'
  | .param p, .param q, .param r, h, h' => by
    simp only [Ty.Finer] at h h' ⊢
    exact h.trans h'

/-- The same for base types. -/
lemma BaseTy.Finer.trans : ∀ {bty1 bty2 bty3 : BaseTy}, bty1.Finer K bty2 → bty2.Finer K bty3 →
    bty1.Finer K bty3
  | .int _, .int _, .int _, h, h' => Eq.trans h h'
  | .uint _, .uint _, .uint _, h, h' => Eq.trans h h'
  | .bool, .bool, .bool, _, _ => trivial
  | .adt _ _, .adt _ _, .adt _ _, h, h' => ⟨h.1.trans h'.1, h.2.trans h'.2⟩

/-- The same for type arguments. -/
lemma Substs.Finer.trans : ∀ {substs1 substs2 substs3 : Substs}, substs1.Finer K substs2 →
    substs2.Finer K substs3 → substs1.Finer K substs3
  | .nil, .nil, .nil, _, _ => trivial
  | .cons _ _, .cons _ _, .cons _ _, h, h' => ⟨h.1.trans h'.1, h.2.trans h'.2⟩

end

end Order

/-- The order of types. -/
abbrev Ty.finerOrder : Preorder Ty where
  le := Ty.Finer K
  le_refl := .refl
  le_trans _ _ _ := .trans

/-- **The least bound** of types. -/
def Ty.IsBoundOf (tys : Set Ty) (ty : Ty) : Prop :=
  @IsLUB Ty (Ty.finerOrder K).toLE tys ty

/-! ## New unknown predicates -/

/-- The numbers of the new unknown predicates of a type. -/
def Ty.newKvars (ty : Ty) : List KVid :=
  (ty.kvars.map Prod.snd).filter (K ≤ ·)

/-- The new unknown predicates of a base type. -/
def BaseTy.newKvars (bty : BaseTy) : List KVid :=
  (bty.kvars.map Prod.snd).filter (K ≤ ·)

/-- The new unknown predicates of type arguments. -/
def Substs.newKvars (substs : Substs) : List KVid :=
  (substs.kvars.map Prod.snd).filter (K ≤ ·)

section NewKvars

variable {K}

/-- The new variables of an existential with a new variable begin with it. -/
lemma Ty.newKvars_exists_new {bty : BaseTy} {kvid : KVid} {args : List Expr} (h : K ≤ kvid) :
    (Ty.exists_ bty (.kvar kvid args)).newKvars K = kvid :: bty.newKvars K := by
  simp only [Ty.newKvars, BaseTy.newKvars, Ty.kvars, List.map_cons]
  exact List.filter_cons_of_pos (by simpa using h)

/-- The new variables of an existential with an old variable lie in its base type. -/
lemma Ty.newKvars_exists_old {bty : BaseTy} {kvid : KVid} {args : List Expr} (h : ¬K ≤ kvid) :
    (Ty.exists_ bty (.kvar kvid args)).newKvars K = bty.newKvars K := by
  simp only [Ty.newKvars, BaseTy.newKvars, Ty.kvars, List.map_cons]
  exact List.filter_cons_of_neg (by simpa using h)

/-- The new variables of type arguments are those of each. -/
@[simp] lemma Substs.newKvars_cons (ty : Ty) (substs : Substs) :
    (Substs.cons ty substs).newKvars K = ty.newKvars K ++ substs.newKvars K := by
  simp only [Substs.newKvars, Ty.newKvars, Substs.kvars, List.map_append, List.filter_append]

end NewKvars

/-- Predicates that are the same, up to the numbers `σ` and the arguments of new unknown ones. -/
def Pred.SameUpTo (σ : KVid → KVid) : Pred → Pred → Prop
  | .kvar kvid1 args1, .kvar kvid2 args2 => kvid2 = σ kvid1 ∧ (kvid1 < K → args1 = args2)
  | .expr e1, .expr e2 => e1 = e2
  | _, _ => False

mutual

/-- **Types that are the same** up to the numbers `σ` and the arguments of new unknown
predicates. -/
def Ty.SameUpTo (σ : KVid → KVid) : Ty → Ty → Prop
  | .refine bty1 e1, .refine bty2 e2 => bty1.SameUpTo σ bty2 ∧ e1 = e2
  | .exists_ bty1 p1, .exists_ bty2 p2 => bty1.SameUpTo σ bty2 ∧ p1.SameUpTo K σ p2
  | .uninit, .uninit => True
  | .strgRef loc1, .strgRef loc2 => loc1 = loc2
  | .ref ty1, .ref ty2 => ty1.SameUpTo σ ty2
  | .param p, .param q => p = q
  | _, _ => False

/-- The same for base types. -/
def BaseTy.SameUpTo (σ : KVid → KVid) : BaseTy → BaseTy → Prop
  | .int int_ty1, .int int_ty2 => int_ty1 = int_ty2
  | .uint uint_ty1, .uint uint_ty2 => uint_ty1 = uint_ty2
  | .bool, .bool => True
  | .adt did1 substs1, .adt did2 substs2 => did1 = did2 ∧ substs1.SameUpTo σ substs2
  | _, _ => False

/-- The same for type arguments. -/
def Substs.SameUpTo (σ : KVid → KVid) : Substs → Substs → Prop
  | .nil, .nil => True
  | .cons ty1 substs1, .cons ty2 substs2 => ty1.SameUpTo σ ty2 ∧ substs1.SameUpTo σ substs2
  | _, _ => False

end

section SameUpTo

variable {K} {σ : KVid → KVid}

/-- A predicate is itself up to a renaming that keeps its variables. -/
lemma Pred.SameUpTo.self {p : Pred} (hold : ∀ kvid < K, σ kvid = kvid)
    (h : ∀ kvid args, p = .kvar kvid args → K ≤ kvid → σ kvid = kvid) : p.SameUpTo K σ p := by
  cases p with
  | kvar kvid args =>
    refine ⟨?_, fun _ => rfl⟩
    rcases Nat.lt_or_ge kvid K with hlt | hge
    · exact (hold kvid hlt).symm
    · exact (h kvid args rfl hge).symm
  | expr e => rfl

mutual

/-- A type whose new unknown predicates keep their numbers. -/
lemma Ty.SameUpTo.self (hold : ∀ kvid < K, σ kvid = kvid) : ∀ {ty : Ty},
    (∀ kvid ∈ ty.newKvars K, σ kvid = kvid) → ty.SameUpTo K σ ty
  | .refine _ _, h => ⟨.self hold h, rfl⟩
  | .exists_ bty p, h => by
    have hbty : ∀ kvid ∈ bty.newKvars K, σ kvid = kvid := fun kvid hkvid => h kvid (by
      cases p with
      | expr e => exact hkvid
      | kvar kvid' args =>
        by_cases hnew : K ≤ kvid'
        · exact (Ty.newKvars_exists_new hnew).symm ▸ .tail _ hkvid
        · exact (Ty.newKvars_exists_old hnew).symm ▸ hkvid)
    refine ⟨.self hold hbty, .self hold ?_⟩
    rintro kvid args rfl hnew
    exact h kvid ((Ty.newKvars_exists_new hnew).symm ▸ .head _)
  | .uninit, _ => trivial
  | .strgRef _, _ | .param _, _ => rfl
  | .ref ty, h => show ty.SameUpTo K σ ty from .self hold h

/-- The same for base types. -/
lemma BaseTy.SameUpTo.self (hold : ∀ kvid < K, σ kvid = kvid) : ∀ {bty : BaseTy},
    (∀ kvid ∈ bty.newKvars K, σ kvid = kvid) → bty.SameUpTo K σ bty
  | .adt _ _, h => ⟨rfl, .self hold h⟩
  | .int _, _ | .uint _, _ => rfl
  | .bool, _ => trivial

/-- The same for type arguments. -/
lemma Substs.SameUpTo.self (hold : ∀ kvid < K, σ kvid = kvid) : ∀ {substs : Substs},
    (∀ kvid ∈ substs.newKvars K, σ kvid = kvid) → substs.SameUpTo K σ substs
  | .nil, _ => trivial
  | .cons ty substs, h => by
    rw [Substs.newKvars_cons] at h
    exact ⟨.self hold fun kvid hkvid => h kvid (List.mem_append_left _ hkvid),
      .self hold fun kvid hkvid => h kvid (List.mem_append_right _ hkvid)⟩

end

/-- What is said of two types that are finer than one another. -/
def Renames (K : KVid) (l1 l2 : List KVid) (Same : (KVid → KVid) → Prop) : Prop :=
  l1.length = l2.length ∧
    ∀ σ : KVid → KVid, (∀ kvid < K, σ kvid = kvid) → l1.map σ = l2 → Same σ

/-- What holds of every renaming that keeps some variables holds of the identity. -/
lemma Renames.self {l : List KVid} {Same : (KVid → KVid) → Prop}
    (h : ∀ σ : KVid → KVid, (∀ kvid < K, σ kvid = kvid) → (∀ kvid ∈ l, σ kvid = kvid) → Same σ) :
    Renames K l l Same :=
  ⟨rfl, fun σ hold hmap => h σ hold (List.map_inj_left.mp (hmap.trans (List.map_id l).symm))⟩

mutual

/-- **Types that are finer than one another** have new unknown predicates at the same places. -/
theorem Ty.sameUpTo_of_finer : ∀ {ty1 ty2 : Ty}, ty1.Finer K ty2 → ty2.Finer K ty1 →
    Renames K (ty1.newKvars K) (ty2.newKvars K) fun σ => ty1.SameUpTo K σ ty2
  | .refine bty1 e1, .refine bty2 e2, h, h' => by
    simp only [Ty.Finer] at h h'
    obtain ⟨hlen, hsame⟩ := BaseTy.sameUpTo_of_finer h.1 h'.1
    exact ⟨hlen, fun σ hold hmap => ⟨hsame σ hold hmap, h.2⟩⟩
  | .exists_ bty1 p1, .exists_ bty2 p2, h, h' => by
    simp only [Ty.Finer] at h h'
    rcases h with ⟨h, hp2⟩ | ⟨rfl, rfl⟩
    · rcases h' with ⟨h', hp1⟩ | ⟨rfl, rfl⟩
      · obtain ⟨hlen, hsame⟩ := BaseTy.sameUpTo_of_finer h h'
        cases p1 with
        | expr e => exact hp1.elim
        | kvar kvid1 args1 =>
          cases p2 with
          | expr e => exact hp2.elim
          | kvar kvid2 args2 =>
            rw [Ty.newKvars_exists_new hp1, Ty.newKvars_exists_new hp2]
            refine ⟨congrArg (· + 1) hlen, fun σ hold hmap => ?_⟩
            obtain ⟨hkvid, hmap⟩ := List.cons.inj hmap
            exact ⟨hsame σ hold hmap, hkvid.symm, fun hlt => absurd hp1 (Nat.not_le.mpr hlt)⟩
      · exact .self fun σ hold hself => .self hold hself
    · exact .self fun σ hold hself => .self hold hself
  | .uninit, .uninit, _, _ => .self fun _ _ _ => trivial
  | .strgRef loc1, .strgRef loc2, h, _ => by
    simp only [Ty.Finer] at h
    exact .self fun _ _ _ => h
  | .ref ty1, .ref ty2, h, _ => by
    simp only [Ty.Finer] at h
    subst h
    exact .self fun σ hold hself => show (Ty.ref ty1).SameUpTo K σ (.ref ty1) from .self hold hself
  | .param p, .param q, h, _ => by
    simp only [Ty.Finer] at h
    exact .self fun _ _ _ => h
  | .refine _ _, .exists_ _ _, _, h' | .refine _ _, .uninit, _, h' | .refine _ _, .strgRef _, _, h'
  | .refine _ _, .ref _, _, h' | .refine _ _, .param _, _, h' | .exists_ _ _, .uninit, _, h'
  | .exists_ _ _, .strgRef _, _, h' | .exists_ _ _, .ref _, _, h' | .exists_ _ _, .param _, _, h'
  | .strgRef _, .uninit, _, h' | .ref _, .uninit, _, h' | .param _, .uninit, _, h' => by
    simp only [Ty.Finer] at h'

/-- Base types finer than each other are the same up to a renaming. -/
theorem BaseTy.sameUpTo_of_finer : ∀ {bty1 bty2 : BaseTy}, bty1.Finer K bty2 →
    bty2.Finer K bty1 →
    Renames K (bty1.newKvars K) (bty2.newKvars K) fun σ => bty1.SameUpTo K σ bty2
  | .int _, .int _, h, _ | .uint _, .uint _, h, _ => .self fun _ _ _ => h
  | .bool, .bool, _, _ => .self fun _ _ _ => trivial
  | .adt _ _, .adt _ _, h, h' => by
    obtain ⟨hlen, hsame⟩ := Substs.sameUpTo_of_finer h.2 h'.2
    exact ⟨hlen, fun σ hold hmap => ⟨h.1, hsame σ hold hmap⟩⟩

/-- The same for type arguments. -/
theorem Substs.sameUpTo_of_finer : ∀ {substs1 substs2 : Substs}, substs1.Finer K substs2 →
    substs2.Finer K substs1 →
    Renames K (substs1.newKvars K) (substs2.newKvars K) fun σ => substs1.SameUpTo K σ substs2
  | .nil, .nil, _, _ => .self fun _ _ _ => trivial
  | .cons ty1 substs1, .cons ty2 substs2, h, h' => by
    obtain ⟨hlen, hsame⟩ := Ty.sameUpTo_of_finer h.1 h'.1
    obtain ⟨hlens, hsames⟩ := Substs.sameUpTo_of_finer h.2 h'.2
    rw [Substs.newKvars_cons, Substs.newKvars_cons]
    refine ⟨by simp [hlen, hlens], fun σ hold hmap => ?_⟩
    rw [List.map_append] at hmap
    obtain ⟨hmap, hmaps⟩ := List.append_inj hmap (by rw [List.length_map, hlen])
    exact ⟨hsame σ hold hmap, hsames σ hold hmaps⟩

end

end SameUpTo

/-! ## Joins of two types -/

/-- **A join**: a least bound whose new unknown predicates differ and have numbers from `lo` to
`hi`. -/
structure IsJoin {α : Type} (Finer : α → α → Prop) (newKvars : α → List KVid) (lo hi : KVid)
    (x y z : α) : Prop where
  left : Finer x z
  right : Finer y z
  least : ∀ u, Finer x u → Finer y u → Finer z u
  nodup : (newKvars z).Nodup
  mem : ∀ kvid ∈ newKvars z, lo ≤ kvid ∧ kvid < hi

namespace IsJoin

variable {K} {lo mid hi : KVid}

/-- What is joined with itself. -/
lemma self {α : Type} {Finer : α → α → Prop} {newKvars : α → List KVid} {x : α} (hx : Finer x x)
    (h : newKvars x = []) : IsJoin Finer newKvars lo hi x x x :=
  ⟨hx, hx, fun _ hu _ => hu, h ▸ .nil, fun kvid hkvid => by simp [h] at hkvid⟩

/-- Nothing is known of an uninitialised location. -/
lemma uninit {ty1 ty2 : Ty} (h : ty1 = .uninit ∨ ty2 = .uninit) :
    IsJoin (Ty.Finer K) (Ty.newKvars K) lo hi ty1 ty2 .uninit where
  left := by simp only [Ty.Finer]
  right := by simp only [Ty.Finer]
  least u h1 h2 := by
    rcases h with rfl | rfl
    · exact h1
    · exact h2
  nodup := .nil
  mem _ h := nomatch h

/-- The index stays. -/
lemma refine {bty1 bty2 bty : BaseTy} (e : Expr)
    (h : IsJoin (BaseTy.Finer K) (BaseTy.newKvars K) lo hi bty1 bty2 bty) :
    IsJoin (Ty.Finer K) (Ty.newKvars K) lo hi (.refine bty1 e) (.refine bty2 e)
      (.refine bty e) where
  left := by
    simp only [Ty.Finer]
    exact ⟨h.left, trivial⟩
  right := by
    simp only [Ty.Finer]
    exact ⟨h.right, trivial⟩
  least u h1 h2 := by
    cases u with
    | refine bty' e' =>
      simp only [Ty.Finer] at h1 h2 ⊢
      exact ⟨h.least _ h1.1 h2.1, h1.2⟩
    | exists_ bty' p =>
      simp only [Ty.Finer] at h1 h2 ⊢
      exact ⟨h.least _ h1.1 h2.1, h1.2⟩
    | _ => simp_all only [Ty.Finer]
  nodup := h.nodup
  mem := h.mem

/-- A bound of an indexed or existential type that is neither itself nor has its index. -/
lemma finer_of_hasBase {ty1 ty2 u : Ty} {bty1 bty2 : BaseTy} (h1 : ty1.HasBase bty1)
    (h2 : ty2.HasBase bty2) (hne : ty1 ≠ ty2)
    (hindex : ∀ e, ty1 = .refine bty1 e → ty2 ≠ .refine bty2 e) (hu1 : ty1.Finer K u)
    (hu2 : ty2.Finer K u) :
    u = .uninit ∨ ∃ bty p, u = .exists_ bty p ∧ p.IsNew K ∧ bty1.Finer K bty ∧
      bty2.Finer K bty := by
  cases u with
  | uninit => exact .inl rfl
  | refine bty e =>
    cases h1 <;> cases h2 <;> simp only [Ty.Finer] at hu1 hu2
    obtain ⟨-, rfl⟩ := hu1
    obtain ⟨-, rfl⟩ := hu2
    exact absurd rfl (hindex _ rfl)
  | exists_ bty p =>
    refine .inr ⟨bty, p, rfl, ?_⟩
    cases h1 with
    | refine e1 =>
      simp only [Ty.Finer] at hu1
      cases h2 with
      | refine e2 =>
        simp only [Ty.Finer] at hu2
        exact ⟨hu1.2, hu1.1, hu2.1⟩
      | exists_ p2 =>
        simp only [Ty.Finer] at hu2
        rcases hu2 with hu2 | ⟨rfl, rfl⟩
        · exact ⟨hu1.2, hu1.1, hu2.1⟩
        · exact ⟨hu1.2, hu1.1, .refl _⟩
    | exists_ p1 =>
      simp only [Ty.Finer] at hu1
      cases h2 with
      | refine e2 =>
        simp only [Ty.Finer] at hu2
        rcases hu1 with hu1 | ⟨rfl, rfl⟩
        · exact ⟨hu2.2, hu1.1, hu2.1⟩
        · exact ⟨hu2.2, .refl _, hu2.1⟩
      | exists_ p2 =>
        simp only [Ty.Finer] at hu2
        rcases hu1 with hu1 | ⟨rfl, rfl⟩
        · rcases hu2 with hu2 | ⟨rfl, rfl⟩
          · exact ⟨hu1.2, hu1.1, hu2.1⟩
          · exact ⟨hu1.2, hu1.1, .refl _⟩
        · rcases hu2 with hu2 | ⟨rfl, rfl⟩
          · exact ⟨hu2.2, .refl _, hu2.1⟩
          · exact absurd rfl hne
  | _ => cases h1 <;> simp only [Ty.Finer] at hu1

/-- **The index or the predicate is lost** for a new unknown predicate. -/
lemma generalize {ty1 ty2 : Ty} {bty1 bty2 bty : BaseTy} (args : List Expr)
    (h1 : ty1.HasBase bty1) (h2 : ty2.HasBase bty2) (hne : ty1 ≠ ty2)
    (hindex : ∀ e, ty1 = .refine bty1 e → ty2 ≠ .refine bty2 e) (hK : K ≤ mid) (hlo : lo ≤ mid)
    (h : IsJoin (BaseTy.Finer K) (BaseTy.newKvars K) lo mid bty1 bty2 bty) :
    IsJoin (Ty.Finer K) (Ty.newKvars K) lo (mid + 1) ty1 ty2 (.exists_ bty (.kvar mid args)) := by
  have hbound : ∀ {ty : Ty} {bty' : BaseTy}, ty.HasBase bty' → bty'.Finer K bty →
      ty.Finer K (.exists_ bty (.kvar mid args)) := by
    intro ty bty' hty hbty
    cases hty with
    | refine e =>
      simp only [Ty.Finer]
      exact ⟨hbty, hK⟩
    | exists_ p =>
      simp only [Ty.Finer]
      exact .inl ⟨hbty, hK⟩
  refine ⟨hbound h1 h.left, hbound h2 h.right, fun u hu1 hu2 => ?_, ?_, ?_⟩
  · rcases finer_of_hasBase h1 h2 hne hindex hu1 hu2 with rfl | ⟨bty', p, rfl, hp, hb1, hb2⟩
    · simp only [Ty.Finer]
    · simp only [Ty.Finer]
      exact .inl ⟨h.least _ hb1 hb2, hp⟩
  · rw [Ty.newKvars_exists_new hK]
    exact List.nodup_cons.mpr ⟨fun hmem => lt_irrefl _ (h.mem _ hmem).2, h.nodup⟩
  · rw [Ty.newKvars_exists_new hK]
    refine List.forall_mem_cons.mpr ⟨⟨hlo, Nat.lt_succ_self _⟩, fun kvid hkvid => ?_⟩
    exact ⟨(h.mem kvid hkvid).1, (h.mem kvid hkvid).2.trans (Nat.lt_succ_self _)⟩

/-- A join of type arguments is one of the ADTs with them. -/
lemma adt {substs1 substs2 substs : Substs} (did : DefId)
    (h : IsJoin (Substs.Finer K) (Substs.newKvars K) lo hi substs1 substs2 substs) :
    IsJoin (BaseTy.Finer K) (BaseTy.newKvars K) lo hi (.adt did substs1) (.adt did substs2)
      (.adt did substs) where
  left := ⟨rfl, h.left⟩
  right := ⟨rfl, h.right⟩
  least u h1 h2 := by
    cases u with
    | adt did' substs' => exact ⟨h1.1, h.least _ h1.2 h2.2⟩
    | _ => exact h1.elim
  nodup := h.nodup
  mem := h.mem

/-- The arguments are joined one after the other. -/
lemma cons {ty1 ty2 ty : Ty} {substs1 substs2 substs : Substs} (hlo : lo ≤ mid) (hhi : mid ≤ hi)
    (h : IsJoin (Ty.Finer K) (Ty.newKvars K) lo mid ty1 ty2 ty)
    (h' : IsJoin (Substs.Finer K) (Substs.newKvars K) mid hi substs1 substs2 substs) :
    IsJoin (Substs.Finer K) (Substs.newKvars K) lo hi (.cons ty1 substs1) (.cons ty2 substs2)
      (.cons ty substs) where
  left := ⟨h.left, h'.left⟩
  right := ⟨h.right, h'.right⟩
  least u h1 h2 := by
    cases u with
    | nil => exact h1.elim
    | cons ty' substs' => exact ⟨h.least _ h1.1 h2.1, h'.least _ h1.2 h2.2⟩
  nodup := by
    rw [Substs.newKvars_cons]
    refine h.nodup.append h'.nodup fun kvid hkvid hkvid' => ?_
    exact absurd (h'.mem kvid hkvid').1 (Nat.not_le.mpr (h.mem kvid hkvid).2)
  mem kvid hkvid := by
    rw [Substs.newKvars_cons] at hkvid
    rcases List.mem_append.mp hkvid with hkvid | hkvid
    · exact ⟨(h.mem kvid hkvid).1, (h.mem kvid hkvid).2.trans_le hhi⟩
    · exact ⟨hlo.trans (h'.mem kvid hkvid).1, (h'.mem kvid hkvid).2⟩

/-- A join is a least bound. -/
lemma isBoundOf {ty1 ty2 ty : Ty} (h : IsJoin (Ty.Finer K) (Ty.newKvars K) lo hi ty1 ty2 ty) :
    Ty.IsBoundOf K {ty1, ty2} ty := by
  refine ⟨?_, fun u hu => h.least u (hu (Set.mem_insert _ _)) (hu (Set.mem_insert_of_mem _ rfl))⟩
  rintro ty' (rfl | rfl)
  · exact h.left
  · exact h.right

end IsJoin

end LiquidRust.Typeck
