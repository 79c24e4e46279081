import LiquidRust.Typeck.Meaning

set_option relaxedAutoImplicit false
set_option autoImplicit false

/-!
# Subtyping

What it means that a reference-free type is a subtype of another one, under values of the
variables and relations for the unknown predicates: the index of the first type is the index of
the second one or meets its predicate, whatever it is, and the arguments of ADTs are compared by
their variances. What the comparison of the checker asks for is more in some places, since it does
not look below equal indices or equal predicates.

## Main definitions

* `LiquidRust.Typeck.Ty.Scoped` — types whose names are given.
* `LiquidRust.Typeck.Ty.Plain` — those of them that are reference-free.
* `LiquidRust.Typeck.Ty.Sub`, `BaseTy.Sub`, `Substs.Sub` — subtyping.
* `LiquidRust.Typeck.Ty.Asks`, `BaseTy.Asks`, `Substs.Asks` — what the comparison asks for.

## Main results

* `LiquidRust.Typeck.Ty.asks_congr` — only the names of the types matter.
* `LiquidRust.Typeck.Ty.Asks.sub` — what is asked for implies subtyping.
-/

namespace LiquidRust.Typeck

mutual

/-- The names of a type are in `N`, and no index has the binder of a predicate. -/
def Ty.Scoped (N : Set Name) : Ty → Prop
  | .refine bty e => bty.Scoped N ∧ e.BoundIn N
  | .exists_ bty p => bty.Scoped N ∧ p.Over N
  | .uninit | .strgRef _ | .param _ => True
  | .ref ty => ty.Scoped N

/-- The same for base types. -/
def BaseTy.Scoped (N : Set Name) : BaseTy → Prop
  | .adt _ substs => substs.Scoped N
  | .int _ | .uint _ | .bool => True

/-- The same for type arguments. -/
def Substs.Scoped (N : Set Name) : Substs → Prop
  | .nil => True
  | .cons ty substs => ty.Scoped N ∧ substs.Scoped N

end

mutual

/-- A reference-free type: its names are in `N`, and no index has the binder of a predicate. -/
def Ty.Plain (N : Set Name) : Ty → Prop
  | .refine bty e => bty.Plain N ∧ e.BoundIn N
  | .exists_ bty p => bty.Plain N ∧ p.Over N
  | .param _ => True
  | .uninit | .strgRef _ | .ref _ => False

/-- The same for base types. -/
def BaseTy.Plain (N : Set Name) : BaseTy → Prop
  | .adt _ substs => substs.Plain N
  | .int _ | .uint _ | .bool => True

/-- The same for type arguments. -/
def Substs.Plain (N : Set Name) : Substs → Prop
  | .nil => True
  | .cons ty substs => ty.Plain N ∧ substs.Plain N

end

section Names

variable {N N' : Set Name}

mutual

/-- A type over some names is over more. -/
lemma Ty.scoped_mono (hN : N ⊆ N') : ∀ ty : Ty, ty.Scoped N → ty.Scoped N'
  | .refine bty _, h => ⟨bty.scoped_mono hN h.1, h.2.mono hN⟩
  | .exists_ bty _, h => ⟨bty.scoped_mono hN h.1, h.2.mono hN⟩
  | .uninit, _ | .strgRef _, _ | .param _, _ => trivial
  | .ref ty, h => ty.scoped_mono hN h

/-- The same for base types. -/
lemma BaseTy.scoped_mono (hN : N ⊆ N') : ∀ bty : BaseTy, bty.Scoped N → bty.Scoped N'
  | .adt _ substs, h => substs.scoped_mono hN h
  | .int _, _ | .uint _, _ | .bool, _ => trivial

/-- The same for type arguments. -/
lemma Substs.scoped_mono (hN : N ⊆ N') : ∀ substs : Substs, substs.Scoped N → substs.Scoped N'
  | .nil, _ => trivial
  | .cons ty substs, h => ⟨ty.scoped_mono hN h.1, substs.scoped_mono hN h.2⟩

end

mutual

/-- A plain type is over its names. -/
lemma Ty.scoped_of_plain : ∀ ty : Ty, ty.Plain N → ty.Scoped N
  | .refine bty _, h => ⟨bty.scoped_of_plain h.1, h.2⟩
  | .exists_ bty _, h => ⟨bty.scoped_of_plain h.1, h.2⟩
  | .param _, _ => trivial

/-- The same for base types. -/
lemma BaseTy.scoped_of_plain : ∀ bty : BaseTy, bty.Plain N → bty.Scoped N
  | .adt _ substs, h => substs.scoped_of_plain h
  | .int _, _ | .uint _, _ | .bool, _ => trivial

/-- The same for type arguments. -/
lemma Substs.scoped_of_plain : ∀ substs : Substs, substs.Plain N → substs.Scoped N
  | .nil, _ => trivial
  | .cons ty substs, h => ⟨ty.scoped_of_plain h.1, substs.scoped_of_plain h.2⟩

end

end Names

section Sub

variable (tcx : Tcx) (I : Interp) (ρ : Valuation)

mutual

/-- **Subtyping.** -/
def Ty.Sub : Ty → Ty → Prop
  | .refine bty1 e1, .refine bty2 e2 =>
    BaseTy.Sub bty1 bty2 ∧ e1.eval I.div ρ = e2.eval I.div ρ
  | .refine bty1 e, .exists_ bty2 p => BaseTy.Sub bty1 bty2 ∧ (p.substBoundVars e).Holds I ρ
  | .exists_ bty1 p, ty2 => ∀ v : Val, v.sort = bty1.sort → p.Holds I (ρ.bind v) →
      match ty2 with
      | .refine bty2 e2 => BaseTy.Sub bty1 bty2 ∧ some v = e2.eval I.div ρ
      | .exists_ bty2 q => BaseTy.Sub bty1 bty2 ∧ q.Holds I (ρ.bind v)
      | _ => False
  | .param p, .param q => p = q
  | _, _ => False
termination_by ty1 ty2 => sizeOf ty1 + sizeOf ty2

/-- The same for base types. -/
def BaseTy.Sub : BaseTy → BaseTy → Prop
  | .int int_ty1, .int int_ty2 => int_ty1 = int_ty2
  | .uint uint_ty1, .uint uint_ty2 => uint_ty1 = uint_ty2
  | .bool, .bool => True
  | .adt did1 substs1, .adt did2 substs2 =>
    did1 = did2 ∧ Substs.Sub (tcx.variancesOf did1) substs1 substs2
  | _, _ => False
termination_by bty1 bty2 => sizeOf bty1 + sizeOf bty2

/-- The arguments are compared by their variances. -/
def Substs.Sub : List Variance → Substs → Substs → Prop
  | variance :: variances, .cons ty1 substs1, .cons ty2 substs2 =>
    (match variance with
      | .covariant => Ty.Sub ty1 ty2
      | .invariant => Ty.Sub ty1 ty2 ∧ Ty.Sub ty2 ty1
      | .contravariant => Ty.Sub ty2 ty1
      | .bivariant => True) ∧ Substs.Sub variances substs1 substs2
  | _, _, _ => True
termination_by _ substs1 substs2 => sizeOf substs1 + sizeOf substs2

end

mutual

/-- **What the comparison of two types asks for.** Below equal indices, and below equal predicates
of existential types, only the base types are compared. -/
def Ty.Asks : Ty → Ty → Prop
  | .refine bty1 e1, .refine bty2 e2 =>
    BaseTy.Asks bty1 bty2 ∧ (e1 = e2 ∨ (Expr.binaryOp .eq e1 e2).Holds I ρ)
  | .refine bty1 e, .exists_ bty2 p => BaseTy.Asks bty1 bty2 ∧ (p.substBoundVars e).Holds I ρ
  | .exists_ bty1 p, .refine bty2 e => ∀ v : Val, v.sort = bty1.sort → p.Holds I (ρ.bind v) →
      BaseTy.Asks bty1 bty2 ∧ e.eval I.div ρ = some v
  | .exists_ bty1 p, .exists_ bty2 q =>
    if p = q then BaseTy.Asks bty1 bty2
    else ∀ v : Val, v.sort = bty1.sort → p.Holds I (ρ.bind v) →
      BaseTy.Asks bty1 bty2 ∧ q.Holds I (ρ.bind v)
  | .strgRef loc1, .strgRef loc2 => loc1 = loc2
  | .param p, .param q => p = q
  | _, .uninit => True
  | _, _ => False
termination_by ty1 ty2 => sizeOf ty1 + sizeOf ty2

/-- The same for base types. -/
def BaseTy.Asks : BaseTy → BaseTy → Prop
  | .int int_ty1, .int int_ty2 => int_ty1 = int_ty2
  | .uint uint_ty1, .uint uint_ty2 => uint_ty1 = uint_ty2
  | .bool, .bool => True
  | .adt did1 substs1, .adt did2 substs2 =>
    did1 = did2 ∧ substs1.len = substs2.len ∧
      Substs.Asks (tcx.variancesOf did1) substs1 substs2
  | _, _ => False
termination_by bty1 bty2 => sizeOf bty1 + sizeOf bty2

/-- The arguments are compared by their variances. -/
def Substs.Asks : List Variance → Substs → Substs → Prop
  | variance :: variances, .cons ty1 substs1, .cons ty2 substs2 =>
    (match variance with
      | .covariant => Ty.Asks ty1 ty2
      | .invariant => Ty.Asks ty1 ty2 ∧ Ty.Asks ty2 ty1
      | .contravariant => Ty.Asks ty2 ty1
      | .bivariant => True) ∧ Substs.Asks variances substs1 substs2
  | _, _, _ => True
termination_by _ substs1 substs2 => sizeOf substs1 + sizeOf substs2

end

end Sub

section Compare

variable (R : Ty → Ty → Prop)

/-- Arguments are related by `R` as their variances say. -/
def Substs.Compare : List Variance → Substs → Substs → Prop
  | variance :: variances, .cons ty1 substs1, .cons ty2 substs2 =>
    (match variance with
      | .covariant => R ty1 ty2
      | .invariant => R ty1 ty2 ∧ R ty2 ty1
      | .contravariant => R ty2 ty1
      | .bivariant => True) ∧ Substs.Compare variances substs1 substs2
  | _, _, _ => True

variable (tcx : Tcx)

/-- Base types with arguments that are related by `R`. -/
def BaseTy.Compare : BaseTy → BaseTy → Prop
  | .int int_ty1, .int int_ty2 => int_ty1 = int_ty2
  | .uint uint_ty1, .uint uint_ty2 => uint_ty1 = uint_ty2
  | .bool, .bool => True
  | .adt did1 substs1, .adt did2 substs2 =>
    did1 = did2 ∧ substs1.len = substs2.len ∧
      Substs.Compare R (tcx.variancesOf did1) substs1 substs2
  | _, _ => False

variable (I : Interp) (ρ : Valuation)

/-- What the comparison of two types asks for once the first one is unpacked. -/
def Ty.CompareOpen : Ty → Ty → Prop
  | .refine bty1 e1, .refine bty2 e2 =>
    BaseTy.Compare R tcx bty1 bty2 ∧ (Expr.binaryOp .eq e1 e2).Holds I ρ
  | .refine bty1 e, .exists_ bty2 p =>
    BaseTy.Compare R tcx bty1 bty2 ∧ (p.substBoundVars e).Holds I ρ
  | .exists_ bty1 p, .refine bty2 e => ∀ v : Val, v.sort = bty1.sort → p.Holds I (ρ.bind v) →
      BaseTy.Compare R tcx bty1 bty2 ∧ e.eval I.div ρ = some v
  | .exists_ bty1 p, .exists_ bty2 q => ∀ v : Val, v.sort = bty1.sort → p.Holds I (ρ.bind v) →
      BaseTy.Compare R tcx bty1 bty2 ∧ q.Holds I (ρ.bind v)
  | .strgRef loc1, .strgRef loc2 => loc1 = loc2
  | .param p, .param q => p = q
  | _, .uninit => True
  | _, _ => False

end Compare

variable {tcx : Tcx} {I : Interp} {ρ ρ' : Valuation} {N : Set Name}

/-- Expressions that are equal have the same value. -/
lemma Expr.eval_eq_of_holds {e1 e2 : Expr} (h : (Expr.binaryOp .eq e1 e2).Holds I ρ) :
    e1.eval I.div ρ = e2.eval I.div ρ := by
  change Fixpoint.BinOp.apply I.div .eq (e1.eval I.div ρ) (e2.eval I.div ρ) = _ at h
  cases h1 : e1.eval I.div ρ with
  | none =>
    rw [h1] at h
    cases h
  | some v =>
    cases h2 : e2.eval I.div ρ with
    | none =>
      rw [h1, h2] at h
      cases h
    | some w =>
      rw [h1, h2] at h
      cases v <;> cases w <;> simp_all [Fixpoint.BinOp.apply, Fixpoint.BinOp.eval]

/-- A variable is equal to an expression that has its value. -/
lemma Expr.holds_eq_iff {x : Name} {e : Expr} :
    (Expr.binaryOp .eq (.var (.free x)) e).Holds I ρ ↔ e.eval I.div ρ = some (ρ (.free x)) := by
  refine ⟨fun h => (eval_eq_of_holds h).symm, fun h => ?_⟩
  show Fixpoint.BinOp.apply I.div .eq (some (ρ (.free x))) (e.eval I.div ρ) = _
  rw [h]
  cases ρ (.free x) with
  | int n => simp [Fixpoint.BinOp.apply, Fixpoint.BinOp.eval]
  | bool b => simp [Fixpoint.BinOp.apply, Fixpoint.BinOp.eval]

/-! ### What is asked for below -/

/-- What type arguments ask for is a comparison by what types ask for. -/
lemma Substs.asks_iff {variances : List Variance} {substs1 substs2 : Substs} :
    Substs.Asks tcx I ρ variances substs1 substs2 ↔
      Substs.Compare (Ty.Asks tcx I ρ) variances substs1 substs2 := by
  induction variances generalizing substs1 substs2 with
  | nil => simp only [Asks, Compare]
  | cons variance variances ih =>
    cases substs1 with
    | nil => simp only [Asks, Compare]
    | cons ty1 substs1 =>
      cases substs2 with
      | nil => simp only [Asks, Compare]
      | cons ty2 substs2 =>
        cases variance <;> simp only [Asks, Compare, ih]

/-- The same for base types. -/
lemma BaseTy.asks_iff {bty1 bty2 : BaseTy} :
    BaseTy.Asks tcx I ρ bty1 bty2 ↔ BaseTy.Compare (Ty.Asks tcx I ρ) tcx bty1 bty2 := by
  cases bty1 <;> cases bty2 <;> simp only [Asks, Compare, Substs.asks_iff]

/-- Where nothing is left out, the comparison asks for what it asks for once the first type is
unpacked. -/
lemma Ty.asks_iff_compareOpen {ty1 ty2 : Ty}
    (hrefine : ∀ bty1 e1 bty2 e2, ty1 = .refine bty1 e1 → ty2 = .refine bty2 e2 → e1 ≠ e2)
    (hexists : ∀ bty1 p1 bty2 p2, ty1 = .exists_ bty1 p1 → ty2 = .exists_ bty2 p2 → p1 ≠ p2) :
    Ty.Asks tcx I ρ ty1 ty2 ↔ Ty.CompareOpen (Ty.Asks tcx I ρ) tcx I ρ ty1 ty2 := by
  cases ty1 with
  | refine bty1 e1 =>
    cases ty2 with
    | refine bty2 e2 =>
      rw [Asks, CompareOpen, BaseTy.asks_iff, or_iff_right (hrefine _ _ _ _ rfl rfl)]
    | exists_ bty2 p => rw [Asks, CompareOpen, BaseTy.asks_iff]
    | _ => simp only [Asks, CompareOpen]
  | exists_ bty1 p =>
    cases ty2 with
    | refine bty2 e2 => rw [Asks, CompareOpen, BaseTy.asks_iff]
    | exists_ bty2 q =>
      rw [Asks, if_neg (hexists _ _ _ _ rfl rfl), CompareOpen, BaseTy.asks_iff]
    | _ => simp only [Asks, CompareOpen]
  | _ => cases ty2 <;> simp only [Asks, CompareOpen]

mutual

/-- **Only the names of the types matter.** -/
theorem Ty.asks_congr (h : Valuation.AgreeOn N ρ ρ') : ∀ {ty1 ty2 : Ty}, ty1.Scoped N →
    ty2.Scoped N → (Ty.Asks tcx I ρ ty1 ty2 ↔ Ty.Asks tcx I ρ' ty1 ty2)
  | .refine bty1 e1, .refine bty2 e2, h1, h2 => by
    have he : (Expr.binaryOp .eq e1 e2).Over N := ⟨h1.2.over, h2.2.over⟩
    rw [Ty.Asks, Ty.Asks, BaseTy.asks_congr h h1.1 h2.1, Expr.holds_congr he h]
  | .refine bty1 e, .exists_ bty2 p, h1, h2 => by
    rw [Ty.Asks, Ty.Asks, BaseTy.asks_congr h h1.1 h2.1,
      Pred.holds_congr (h2.2.substBoundVars h1.2.over) h]
  | .exists_ bty1 p, .refine bty2 e2, h1, h2 => by
    rw [Ty.Asks, Ty.Asks, BaseTy.asks_congr h h1.1 h2.1, Expr.eval_congr h2.2.over h]
    refine forall_congr' fun v => imp_congr_right fun _ => ?_
    rw [Pred.holds_congr h1.2 (h.bind v)]
  | .exists_ bty1 p, .exists_ bty2 q, h1, h2 => by
    rw [Ty.Asks, Ty.Asks, BaseTy.asks_congr h h1.1 h2.1]
    split
    · rfl
    · refine forall_congr' fun v => imp_congr_right fun _ => ?_
      rw [Pred.holds_congr h1.2 (h.bind v), Pred.holds_congr h2.2 (h.bind v)]
  | .strgRef _, .strgRef _, _, _ | .param _, .param _, _, _ => by simp only [Ty.Asks]
  | .refine _ _, .uninit, _, _ | .exists_ _ _, .uninit, _, _ | .uninit, .uninit, _, _
  | .strgRef _, .uninit, _, _ | .ref _, .uninit, _, _ | .param _, .uninit, _, _ => by
    simp only [Ty.Asks]
  | .refine _ _, .strgRef _, _, _ | .refine _ _, .ref _, _, _ | .refine _ _, .param _, _, _
  | .exists_ _ _, .strgRef _, _, _ | .exists_ _ _, .ref _, _, _ | .exists_ _ _, .param _, _, _
  | .uninit, .refine _ _, _, _ | .uninit, .exists_ _ _, _, _ | .uninit, .strgRef _, _, _
  | .uninit, .ref _, _, _ | .uninit, .param _, _, _ | .strgRef _, .refine _ _, _, _
  | .strgRef _, .exists_ _ _, _, _ | .strgRef _, .ref _, _, _ | .strgRef _, .param _, _, _
  | .ref _, .refine _ _, _, _ | .ref _, .exists_ _ _, _, _ | .ref _, .strgRef _, _, _
  | .ref _, .ref _, _, _ | .ref _, .param _, _, _ | .param _, .refine _ _, _, _
  | .param _, .exists_ _ _, _, _ | .param _, .strgRef _, _, _ | .param _, .ref _, _, _ => by
    simp only [Ty.Asks]
termination_by ty1 ty2 => sizeOf ty1 + sizeOf ty2

/-- What base types ask for depends only on their names. -/
theorem BaseTy.asks_congr (h : Valuation.AgreeOn N ρ ρ') : ∀ {bty1 bty2 : BaseTy},
    bty1.Scoped N → bty2.Scoped N →
    (BaseTy.Asks tcx I ρ bty1 bty2 ↔ BaseTy.Asks tcx I ρ' bty1 bty2)
  | .adt did1 substs1, .adt did2 substs2, h1, h2 => by
    rw [BaseTy.Asks, BaseTy.Asks, Substs.asks_congr h _ h1 h2]
  | .int _, .int _, _, _ | .uint _, .uint _, _, _ | .bool, .bool, _, _ => by
    rw [BaseTy.Asks, BaseTy.Asks]
  | .int _, .uint _, _, _ | .int _, .bool, _, _ | .int _, .adt _ _, _, _ | .uint _, .int _, _, _
  | .uint _, .bool, _, _ | .uint _, .adt _ _, _, _ | .bool, .int _, _, _ | .bool, .uint _, _, _
  | .bool, .adt _ _, _, _ | .adt _ _, .int _, _, _ | .adt _ _, .uint _, _, _
  | .adt _ _, .bool, _, _ => by simp only [BaseTy.Asks]
termination_by bty1 bty2 => sizeOf bty1 + sizeOf bty2

/-- The same for type arguments. -/
theorem Substs.asks_congr (h : Valuation.AgreeOn N ρ ρ') : ∀ (variances : List Variance)
    {substs1 substs2 : Substs}, substs1.Scoped N → substs2.Scoped N →
    (Substs.Asks tcx I ρ variances substs1 substs2 ↔
      Substs.Asks tcx I ρ' variances substs1 substs2)
  | [], _, _, _, _ => by simp only [Substs.Asks]
  | _ :: _, .nil, _, _, _ | _ :: _, .cons _ _, .nil, _, _ => by simp only [Substs.Asks]
  | variance :: variances, .cons ty1 substs1, .cons ty2 substs2, h1, h2 => by
    have hsubsts := Substs.asks_congr h variances h1.2 h2.2
    have hty := Ty.asks_congr h h1.1 h2.1
    have hty' := Ty.asks_congr h h2.1 h1.1
    cases variance <;> simp only [Substs.Asks, hsubsts, hty, hty']
termination_by _ substs1 substs2 => sizeOf substs1 + sizeOf substs2

end

mutual

/-- **What is asked for implies subtyping** of reference-free types. -/
theorem Ty.Asks.sub : ∀ {ty1 ty2 : Ty}, ty1.Plain N → ty2.Plain N →
    Ty.Asks tcx I ρ ty1 ty2 → Ty.Sub tcx I ρ ty1 ty2
  | .refine bty1 e1, .refine bty2 e2, h1, h2, h => by
    rw [Ty.Asks] at h
    rw [Ty.Sub]
    refine ⟨h.1.sub h1.1 h2.1, ?_⟩
    rcases h.2 with rfl | heq
    · rfl
    · exact Expr.eval_eq_of_holds heq
  | .refine bty1 e, .exists_ bty2 p, h1, h2, h => by
    rw [Ty.Asks] at h
    rw [Ty.Sub]
    exact ⟨h.1.sub h1.1 h2.1, h.2⟩
  | .exists_ bty1 p, .refine bty2 e2, h1, h2, h => by
    rw [Ty.Asks] at h
    rw [Ty.Sub]
    exact fun v hv hp => ⟨(h v hv hp).1.sub h1.1 h2.1, (h v hv hp).2.symm⟩
  | .exists_ bty1 p, .exists_ bty2 q, h1, h2, h => by
    rw [Ty.Asks] at h
    rw [Ty.Sub]
    split at h
    · next hpq => exact fun v _ hp => ⟨h.sub h1.1 h2.1, hpq ▸ hp⟩
    · exact fun v hv hp => ⟨(h v hv hp).1.sub h1.1 h2.1, (h v hv hp).2⟩
  | .param p, .param q, _, _, h => by
    rw [Ty.Asks] at h
    rwa [Ty.Sub]
  | .refine _ _, .param _, _, _, h | .exists_ _ _, .param _, _, _, h
  | .param _, .refine _ _, _, _, h | .param _, .exists_ _ _, _, _, h => by
    simp only [Ty.Asks] at h
termination_by ty1 ty2 => sizeOf ty1 + sizeOf ty2

/-- What plain base types ask for makes them subtypes. -/
theorem BaseTy.Asks.sub : ∀ {bty1 bty2 : BaseTy}, bty1.Plain N → bty2.Plain N →
    BaseTy.Asks tcx I ρ bty1 bty2 → BaseTy.Sub tcx I ρ bty1 bty2
  | .adt did1 substs1, .adt did2 substs2, h1, h2, h => by
    rw [BaseTy.Asks] at h
    rw [BaseTy.Sub]
    exact ⟨h.1, h.2.2.sub h1 h2⟩
  | .int _, .int _, _, _, h | .uint _, .uint _, _, _, h | .bool, .bool, _, _, h => by
    rw [BaseTy.Asks] at h
    rwa [BaseTy.Sub]
  | .int _, .uint _, _, _, h | .int _, .bool, _, _, h | .int _, .adt _ _, _, _, h
  | .uint _, .int _, _, _, h | .uint _, .bool, _, _, h | .uint _, .adt _ _, _, _, h
  | .bool, .int _, _, _, h | .bool, .uint _, _, _, h | .bool, .adt _ _, _, _, h
  | .adt _ _, .int _, _, _, h | .adt _ _, .uint _, _, _, h | .adt _ _, .bool, _, _, h => by
    simp only [BaseTy.Asks] at h
termination_by bty1 bty2 => sizeOf bty1 + sizeOf bty2

/-- The same for type arguments. -/
theorem Substs.Asks.sub : ∀ {variances : List Variance} {substs1 substs2 : Substs},
    substs1.Plain N → substs2.Plain N → Substs.Asks tcx I ρ variances substs1 substs2 →
    Substs.Sub tcx I ρ variances substs1 substs2
  | [], _, _, _, _, _ => by simp only [Substs.Sub]
  | _ :: _, .nil, _, _, _, _ | _ :: _, .cons _ _, .nil, _, _, _ => by simp only [Substs.Sub]
  | variance :: variances, .cons ty1 substs1, .cons ty2 substs2, h1, h2, h => by
    cases variance with
    | covariant =>
      simp only [Substs.Asks] at h
      simp only [Substs.Sub]
      exact ⟨h.1.sub h1.1 h2.1, h.2.sub h1.2 h2.2⟩
    | invariant =>
      simp only [Substs.Asks] at h
      simp only [Substs.Sub]
      exact ⟨⟨h.1.1.sub h1.1 h2.1, h.1.2.sub h2.1 h1.1⟩, h.2.sub h1.2 h2.2⟩
    | contravariant =>
      simp only [Substs.Asks] at h
      simp only [Substs.Sub]
      exact ⟨h.1.sub h2.1 h1.1, h.2.sub h1.2 h2.2⟩
    | bivariant =>
      simp only [Substs.Asks] at h
      simp only [Substs.Sub]
      exact ⟨trivial, h.2.sub h1.2 h2.2⟩
termination_by _ substs1 substs2 => sizeOf substs1 + sizeOf substs2

end

end LiquidRust.Typeck
