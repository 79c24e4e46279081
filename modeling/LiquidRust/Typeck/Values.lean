import LiquidRust.Typeck.Subtyping

set_option relaxedAutoImplicit false
set_option autoImplicit false

/-!
# The values of types

The values that a type has when the program runs. A value of an ADT holds values of its type
arguments, unless it only takes them; a reference leads to a location, and what it may be used for
depends on what is stored there.

## Main definitions

* `LiquidRust.Typeck.Value`, `Store` — values, and what is stored at the locations.
* `LiquidRust.Typeck.Ty.Has`, `BaseTy.Has`, `Substs.Have` — the values of types.
* `LiquidRust.Typeck.Ty.HasIndex` — the indices of types.

## Main results

* `LiquidRust.Typeck.Ty.Asks.has` — where the comparison of two types has what it asks for, the
  values of the first one are values of the second one.
* `LiquidRust.Typeck.Ty.HasIndex.exists_has`, `Ty.Has.hasIndex` — the indices of a type are those
  of its values.
-/

namespace LiquidRust.Typeck

/-- A value of the program. That of an ADT has an index, and holds values for each of the type
arguments; of a value of a type parameter nothing is known. -/
inductive Value
  | int (n : ℤ)
  | bool (b : Bool)
  | adt (did : DefId) (n : ℤ) (contents : List (List Value))
  | ptr (loc : Loc)
  | param (p : ParamTy)

/-- The index of a value. -/
def Value.index : Value → Option Val
  | int n | adt _ n _ => some (.int n)
  | bool b => some (.bool b)
  | ptr _ | param _ => none

/-- What is stored at the locations. -/
abbrev Store := Loc → Value

section Has

variable (tcx : Tcx) (S : Store) (I : Interp) (ρ : Valuation)

mutual

/-- **The values of a type.** -/
def Ty.Has : Ty → Value → Prop
  | .refine bty e, u => bty.Has u ∧ ∃ v, u.index = some v ∧ e.eval I.div ρ = some v
  | .exists_ bty p, u => bty.Has u ∧ ∃ v, u.index = some v ∧ p.Holds I (ρ.bind v)
  | .uninit, _ => True
  | .strgRef loc, u => u = .ptr loc
  | .ref ty, u => ∃ loc, u = .ptr loc ∧ ty.Has (S loc)
  | .param p, u => u = .param p

/-- The values of a base type, whatever their index is. -/
def BaseTy.Has : BaseTy → Value → Prop
  | .int _, .int _ | .uint _, .int _ | .bool, .bool _ => True
  | .adt did substs, .adt did' _ contents =>
    did = did' ∧ substs.Have (tcx.variancesOf did) contents
  | _, _ => False

/-- The values that an ADT holds are of the types of its arguments. It holds none of an argument
that it only takes or does not use. -/
def Substs.Have : Substs → List Variance → List (List Value) → Prop
  | .cons ty substs, variance :: variances, us :: contents =>
    (variance = .covariant ∨ variance = .invariant → ∀ u ∈ us, ty.Has u) ∧
      substs.Have variances contents
  | _, _, _ => True

end

end Has

/-- The indices of a type. -/
def Ty.HasIndex (I : Interp) (ρ : Valuation) : Ty → Val → Prop
  | .refine bty e, v => v.sort = bty.sort ∧ e.eval I.div ρ = some v
  | .exists_ bty p, v => v.sort = bty.sort ∧ p.Holds I (ρ.bind v)
  | .uninit, _ | .strgRef _, _ | .ref _, _ | .param _, _ => False

/-- A value of a base type with a given index, that holds nothing. -/
def BaseTy.valueOf : BaseTy → Val → Value
  | .adt did _, .int n => .adt did n []
  | _, .int n => .int n
  | _, .bool b => .bool b

variable {tcx : Tcx} {S : Store} {I : Interp} {ρ : Valuation} {N : Set Name}

/-- The index of a value has the sort of its base type. -/
lemma BaseTy.Has.sort {bty : BaseTy} {u : Value} {v : Val} (h : bty.Has tcx S I ρ u)
    (hv : u.index = some v) : v.sort = bty.sort := by
  cases bty <;> cases u <;> first | exact h.elim | (obtain rfl := Option.some.inj hv; rfl)

/-- The value made for an index of the right sort has the base type and the index. -/
lemma BaseTy.has_valueOf (tcx : Tcx) (S : Store) (I : Interp) (ρ : Valuation) {bty : BaseTy}
    {v : Val} (h : v.sort = bty.sort) :
    bty.Has tcx S I ρ (bty.valueOf v) ∧ (bty.valueOf v).index = some v := by
  cases bty with
  | adt did substs =>
    cases v with
    | int n => exact ⟨⟨rfl, by cases substs <;> cases tcx.variancesOf did <;> trivial⟩, rfl⟩
    | bool b => cases h
  | bool =>
    cases v with
    | int n => cases h
    | bool b => exact ⟨trivial, rfl⟩
  | _ =>
    cases v with
    | int n => exact ⟨trivial, rfl⟩
    | bool b => cases h

/-- **An index of a type** is that of one of its values. -/
theorem Ty.HasIndex.exists_has (tcx : Tcx) (S : Store) {ty : Ty} {v : Val}
    (h : ty.HasIndex I ρ v) : ∃ u, ty.Has tcx S I ρ u ∧ u.index = some v := by
  cases ty with
  | refine bty e =>
    obtain ⟨hu, hindex⟩ := BaseTy.has_valueOf tcx S I ρ h.1
    exact ⟨_, ⟨hu, v, hindex, h.2⟩, hindex⟩
  | exists_ bty p =>
    obtain ⟨hu, hindex⟩ := BaseTy.has_valueOf tcx S I ρ h.1
    exact ⟨_, ⟨hu, v, hindex, h.2⟩, hindex⟩
  | _ => exact h.elim

/-- The index of a value is one of its type. -/
theorem Ty.Has.hasIndex {ty : Ty} {u : Value} {v : Val} (h : ty.Has tcx S I ρ u)
    (hty : match ty with
      | .refine _ _ | .exists_ _ _ => True
      | _ => False)
    (hv : u.index = some v) : ty.HasIndex I ρ v := by
  cases ty with
  | refine bty e =>
    obtain ⟨hbty, w, hw, he⟩ := h
    obtain rfl : w = v := Option.some.inj (hw.symm.trans hv)
    exact ⟨hbty.sort hv, he⟩
  | exists_ bty p =>
    obtain ⟨hbty, w, hw, hp⟩ := h
    obtain rfl : w = v := Option.some.inj (hw.symm.trans hv)
    exact ⟨hbty.sort hv, hp⟩
  | _ => exact hty.elim

mutual

/-- **Comparison is about values**: where it has what it asks for, the values of the first type
are values of the second one. -/
theorem Ty.Asks.has : ∀ {ty1 ty2 : Ty}, Ty.Asks tcx I ρ ty1 ty2 → ∀ {u : Value},
    ty1.Has tcx S I ρ u → ty2.Has tcx S I ρ u
  | .refine bty1 e1, .refine bty2 e2, h, u, hu => by
    rw [Ty.Asks] at h
    obtain ⟨hbty, v, hv, he1⟩ := hu
    refine ⟨h.1.has hbty, v, hv, ?_⟩
    rcases h.2 with rfl | heq
    · exact he1
    · rw [← Expr.eval_eq_of_holds heq, he1]
  | .refine bty1 e, .exists_ bty2 p, h, u, hu => by
    rw [Ty.Asks] at h
    obtain ⟨hbty, v, hv, he⟩ := hu
    exact ⟨h.1.has hbty, v, hv, (Pred.holds_substBoundVars he p).mp h.2⟩
  | .exists_ bty1 p, .refine bty2 e2, h, u, hu => by
    rw [Ty.Asks] at h
    obtain ⟨hbty, v, hv, hp⟩ := hu
    obtain ⟨hbty', he⟩ := h v (hbty.sort hv) hp
    exact ⟨hbty'.has hbty, v, hv, he⟩
  | .exists_ bty1 p, .exists_ bty2 q, h, u, hu => by
    rw [Ty.Asks] at h
    obtain ⟨hbty, v, hv, hp⟩ := hu
    split at h
    · next hpq => exact ⟨h.has hbty, v, hv, hpq ▸ hp⟩
    · obtain ⟨hbty', hq⟩ := h v (hbty.sort hv) hp
      exact ⟨hbty'.has hbty, v, hv, hq⟩
  | .strgRef _, .strgRef _, h, u, hu => by
    rw [Ty.Asks] at h
    exact h ▸ hu
  | .param _, .param _, h, u, hu => by
    rw [Ty.Asks] at h
    exact h ▸ hu
  | .refine _ _, .uninit, _, _, _ | .exists_ _ _, .uninit, _, _, _ | .uninit, .uninit, _, _, _
  | .strgRef _, .uninit, _, _, _ | .ref _, .uninit, _, _, _ | .param _, .uninit, _, _, _ => trivial
  | .refine _ _, .strgRef _, h, _, _ | .refine _ _, .ref _, h, _, _
  | .refine _ _, .param _, h, _, _ | .exists_ _ _, .strgRef _, h, _, _
  | .exists_ _ _, .ref _, h, _, _ | .exists_ _ _, .param _, h, _, _
  | .uninit, .refine _ _, h, _, _ | .uninit, .exists_ _ _, h, _, _
  | .uninit, .strgRef _, h, _, _ | .uninit, .ref _, h, _, _ | .uninit, .param _, h, _, _
  | .strgRef _, .refine _ _, h, _, _ | .strgRef _, .exists_ _ _, h, _, _
  | .strgRef _, .ref _, h, _, _ | .strgRef _, .param _, h, _, _ | .ref _, .refine _ _, h, _, _
  | .ref _, .exists_ _ _, h, _, _ | .ref _, .strgRef _, h, _, _ | .ref _, .ref _, h, _, _
  | .ref _, .param _, h, _, _ | .param _, .refine _ _, h, _, _ | .param _, .exists_ _ _, h, _, _
  | .param _, .strgRef _, h, _, _ | .param _, .ref _, h, _, _ => by simp only [Ty.Asks] at h
termination_by ty1 ty2 => sizeOf ty1 + sizeOf ty2

/-- What base types ask for carries values over. -/
theorem BaseTy.Asks.has : ∀ {bty1 bty2 : BaseTy}, BaseTy.Asks tcx I ρ bty1 bty2 →
    ∀ {u : Value}, bty1.Has tcx S I ρ u → bty2.Has tcx S I ρ u
  | .adt did1 substs1, .adt did2 substs2, h, .adt did n contents, hu => by
    rw [BaseTy.Asks] at h
    obtain ⟨rfl, hlen, hsubsts⟩ := h
    exact ⟨hu.1, hsubsts.haves hlen hu.2⟩
  | .int _, .int _, _, .int _, _ | .uint _, .uint _, _, .int _, _
  | .bool, .bool, _, .bool _, _ => trivial
  | .int _, .uint _, h, _, _ | .int _, .bool, h, _, _ | .int _, .adt _ _, h, _, _
  | .uint _, .int _, h, _, _ | .uint _, .bool, h, _, _ | .uint _, .adt _ _, h, _, _
  | .bool, .int _, h, _, _ | .bool, .uint _, h, _, _ | .bool, .adt _ _, h, _, _
  | .adt _ _, .int _, h, _, _ | .adt _ _, .uint _, h, _, _ | .adt _ _, .bool, h, _, _ => by
    simp only [BaseTy.Asks] at h
termination_by bty1 bty2 => sizeOf bty1 + sizeOf bty2

/-- The same for type arguments. -/
theorem Substs.Asks.haves : ∀ {variances : List Variance} {substs1 substs2 : Substs},
    Substs.Asks tcx I ρ variances substs1 substs2 → substs1.len = substs2.len →
    ∀ {contents : List (List Value)}, substs1.Have tcx S I ρ variances contents →
    substs2.Have tcx S I ρ variances contents
  | [], _, substs2, _, _, _, _ => by cases substs2 <;> trivial
  | _ :: _, _, .nil, _, _, _, _ | _ :: _, .cons _ _, .cons _ _, _, _, [], _ => trivial
  | _ :: _, .nil, .cons _ _, _, hlen, _, _ => nomatch hlen
  | variance :: variances, .cons ty1 substs1, .cons ty2 substs2, h, hlen, us :: contents, hu => by
    have hlen := Nat.succ.inj hlen
    cases variance with
    | covariant =>
      simp only [Substs.Asks] at h
      exact ⟨fun _ u hus => h.1.has (hu.1 (.inl rfl) u hus), h.2.haves hlen hu.2⟩
    | invariant =>
      simp only [Substs.Asks] at h
      exact ⟨fun _ u hus => h.1.1.has (hu.1 (.inr rfl) u hus), h.2.haves hlen hu.2⟩
    | contravariant =>
      simp only [Substs.Asks] at h
      exact ⟨by simp, h.2.haves hlen hu.2⟩
    | bivariant =>
      simp only [Substs.Asks] at h
      exact ⟨by simp, h.2.haves hlen hu.2⟩
termination_by _ substs1 substs2 => sizeOf substs1 + sizeOf substs2

end

end LiquidRust.Typeck
