import LiquidRust.Typeck.JoinShape
import LiquidRust.Typeck.SubtypingSound

set_option relaxedAutoImplicit false
set_option autoImplicit false

/-!
# The shortcuts of subtyping

The comparison of two types returns early where their indices or their predicates are equal. It
still compares the arguments of ADTs there, but not below the unpacked hypothesis. So its
constraint implies that of the general rule, and is more only where a predicate that no index meets
is compared with itself.

## Main definitions

* `LiquidRust.Typeck.Cursor.general` — the comparison without early returns.
* `LiquidRust.Typeck.Ty.Reaches` — the pairs of types that a comparison comes to.
* `LiquidRust.Typeck.Ty.PredicatesMet` — predicates that are compared with themselves are met.

## Main results

* `LiquidRust.Typeck.Cursor.general_of_shortcuts` — the constraint with shortcuts implies the
  general one, and they are equivalent where predicates are met.
* `LiquidRust.Typeck.Cursor.not_shortcuts_iff_general` — where they are not.
-/

namespace LiquidRust.Typeck

open Lib

namespace Cursor

variable (tcx : Tcx)

/-- `subtyping` without its early returns. -/
def generalN : ℕ → Ty → Ty → CursorM Unit
  | 0, _, _ => throw .stack
  | n + 1, ty1, ty2 => snapshot do
    let ty1 ← unpack ty1
    unpackedSubtyping tcx (generalN n) ty1 ty2

/-- The general comparison, as deep as the stack allows. -/
def general (ty1 ty2 : Ty) : CursorM Unit :=
  generalN tcx tcx.stack ty1 ty2

end Cursor

/-! ## What the two comparisons ask for -/

section Asks

variable (tcx : Tcx) (I : Interp) (ρ : Valuation)

/-- What the comparison without early returns asks for. -/
def Ty.GeneralN : ℕ → Ty → Ty → Prop
  | 0 => fun _ _ => True
  | n + 1 => Ty.CompareOpen (Ty.GeneralN n) tcx I ρ

/-- What the comparison asks for. -/
def Ty.ShortcutN : ℕ → Ty → Ty → Prop
  | 0, _, _ => True
  | n + 1, ty1, ty2 =>
    let open_ := Ty.CompareOpen (Ty.ShortcutN n) tcx I ρ ty1 ty2
    match ty1, ty2 with
    | .refine bty1 e1, .refine bty2 e2 =>
      if e1 = e2 then BaseTy.Compare (Ty.ShortcutN n) tcx bty1 bty2 else open_
    | .exists_ bty1 p1, .exists_ bty2 p2 =>
      if p1 = p2 then BaseTy.Compare (Ty.ShortcutN n) tcx bty1 bty2 else open_
    | _, _ => open_

variable {tcx I ρ}

/-- Below equal indices the shortcut compares the base types. -/
lemma Ty.shortcutN_refine {n : ℕ} {bty1 bty2 : BaseTy} {e : Expr} :
    Ty.ShortcutN tcx I ρ (n + 1) (.refine bty1 e) (.refine bty2 e) ↔
      BaseTy.Compare (Ty.ShortcutN tcx I ρ n) tcx bty1 bty2 := by
  simp only [ShortcutN, if_true]

/-- Below equal predicates the shortcut compares the base types. -/
lemma Ty.shortcutN_exists {n : ℕ} {bty1 bty2 : BaseTy} {p : Pred} :
    Ty.ShortcutN tcx I ρ (n + 1) (.exists_ bty1 p) (.exists_ bty2 p) ↔
      BaseTy.Compare (Ty.ShortcutN tcx I ρ n) tcx bty1 bty2 := by
  simp only [ShortcutN, if_true]

/-- There is no early return for other types. -/
lemma Ty.shortcutN_open {n : ℕ} {ty1 ty2 : Ty}
    (hrefine : ∀ bty1 e1 bty2 e2, ty1 = .refine bty1 e1 → ty2 = .refine bty2 e2 → e1 ≠ e2)
    (hexists : ∀ bty1 p1 bty2 p2, ty1 = .exists_ bty1 p1 → ty2 = .exists_ bty2 p2 → p1 ≠ p2) :
    Ty.ShortcutN tcx I ρ (n + 1) ty1 ty2 ↔
      Ty.CompareOpen (Ty.ShortcutN tcx I ρ n) tcx I ρ ty1 ty2 := by
  unfold ShortcutN
  dsimp only
  split
  · rw [if_neg (hrefine _ _ _ _ rfl rfl)]
  · rw [if_neg (hexists _ _ _ _ rfl rfl)]
  · rfl

end Asks

namespace Cursor

variable {tcx : Tcx} {N : Set Name} {R : Interp → Valuation → Ty → Ty → Prop}

/-- Only the names matter to what is asked for once the first type is unpacked. -/
lemma NamesMatter.compareOpen (hR : NamesMatter R) :
    NamesMatter fun I ρ => Ty.CompareOpen (R I ρ) tcx I ρ := by
  intro I ρ ρ' N ty1 ty2 h h1 h2
  show Ty.CompareOpen (R I ρ) tcx I ρ ty1 ty2 ↔ Ty.CompareOpen (R I ρ') tcx I ρ' ty1 ty2
  cases ty1 with
  | refine bty1 e1 =>
    cases ty2 with
    | refine bty2 e2 =>
      have he : (Expr.binaryOp .eq e1 e2).Over N := ⟨h1.2.over, h2.2.over⟩
      rw [Ty.CompareOpen, Ty.CompareOpen, hR.bty h h1.1 h2.1, Expr.holds_congr he h]
    | exists_ bty2 p =>
      rw [Ty.CompareOpen, Ty.CompareOpen, hR.bty h h1.1 h2.1,
        Pred.holds_congr (h2.2.substBoundVars h1.2.over) h]
    | _ => rfl
  | exists_ bty1 p =>
    cases ty2 with
    | refine bty2 e2 =>
      rw [Ty.CompareOpen, Ty.CompareOpen, hR.bty h h1.1 h2.1, Expr.eval_congr h2.2.over h]
      refine forall_congr' fun v => imp_congr_right fun _ => ?_
      rw [Pred.holds_congr h1.2 (h.bind v)]
    | exists_ bty2 q =>
      rw [Ty.CompareOpen, Ty.CompareOpen, hR.bty h h1.1 h2.1]
      refine forall_congr' fun v => imp_congr_right fun _ => ?_
      rw [Pred.holds_congr h1.2 (h.bind v), Pred.holds_congr h2.2 (h.bind v)]
    | _ => rfl
  | _ => cases ty2 <;> rfl

/-- Only the names of the types matter to the general comparison. -/
lemma namesMatter_generalN (n : ℕ) : NamesMatter fun I ρ => Ty.GeneralN tcx I ρ n := by
  induction n with
  | zero => exact fun _ _ _ _ _ _ _ _ _ => Iff.rfl
  | succ n ih => exact ih.compareOpen

/-- The same for the one with the shortcut. -/
lemma namesMatter_shortcutN (n : ℕ) : NamesMatter fun I ρ => Ty.ShortcutN tcx I ρ n := by
  induction n with
  | zero => exact fun _ _ _ _ _ _ _ _ _ => Iff.rfl
  | succ n ih =>
    intro I ρ ρ' N ty1 ty2 h h1 h2
    have hopen : Ty.CompareOpen (Ty.ShortcutN tcx I ρ n) tcx I ρ ty1 ty2 ↔
        Ty.CompareOpen (Ty.ShortcutN tcx I ρ' n) tcx I ρ' ty1 ty2 := ih.compareOpen h h1 h2
    dsimp only
    unfold Ty.ShortcutN
    dsimp only
    split
    · split
      · exact ih.bty h h1.1 h2.1
      · exact hopen
    · split
      · exact ih.bty h h1.1 h2.1
      · exact hopen
    · exact hopen

/-- **The nodes of the general comparison.** -/
lemma obligesSub_generalN (n : ℕ) :
    ObligesSub (fun I ρ => Ty.GeneralN tcx I ρ n) (generalN tcx n) := by
  induction n with
  | zero => exact fun _ _ _ _ _ _ _ _ => .throw
  | succ n ih => exact fun _ _ _ _ hc hN h1 h2 => ih.unpack (namesMatter_generalN n) hc hN h1 h2

/-- **The nodes of the comparison with early returns.** -/
lemma obligesSub_subtypingN (n : ℕ) :
    ObligesSub (fun I ρ => Ty.ShortcutN tcx I ρ n) (subtypingN tcx n) := by
  induction n with
  | zero => exact fun _ _ _ _ _ _ _ _ => .throw
  | succ n ih =>
    intro N ty1 ty2 c hc hN h1 h2
    have hunpack : Obliges
        (fun I ρ => Ty.CompareOpen (Ty.ShortcutN tcx I ρ n) tcx I ρ ty1 ty2)
        (snapshot (unpack ty1 >>= fun ty1 => unpackedSubtyping tcx (subtypingN tcx n) ty1 ty2))
        c := ih.unpack (namesMatter_shortcutN n) hc hN h1 h2
    unfold subtypingN
    dsimp only
    split
    · next bty1 e1 bty2 e2 =>
      split
      · next he =>
        subst he
        exact (ih.bty hc hN h1.1 h2.1).snapshot.congr fun I ρ => Ty.shortcutN_refine.symm
      · next he =>
        refine hunpack.congr fun I ρ => (Ty.shortcutN_open (fun _ _ _ _ h h' => ?_)
          fun _ _ _ _ h _ => by cases h).symm
        cases h
        cases h'
        exact he
    · next bty1 p1 bty2 p2 =>
      split
      · next hp =>
        subst hp
        exact (ih.bty hc hN h1.1 h2.1).snapshot.congr fun I ρ => Ty.shortcutN_exists.symm
      · next hp =>
        refine hunpack.congr fun I ρ => (Ty.shortcutN_open (fun _ _ _ _ h _ => by cases h)
          fun _ _ _ _ h h' => ?_).symm
        cases h
        cases h'
        exact hp
    · next hrefine hexists =>
      exact hunpack.congr fun I ρ => (Ty.shortcutN_open
        (fun bty1 e1 bty2 e2 h h' => (hrefine bty1 e1 bty2 e2 h h').elim)
        fun bty1 p1 bty2 p2 h h' => (hexists bty1 p1 bty2 p2 h h').elim).symm

end Cursor

/-! ## The pairs of types that are compared -/

/-- `Substs.Pairs variances substs1 substs2 ty1 ty2` states that the arguments `substs1` and
`substs2` are compared by comparing `ty1` with `ty2`, among others. -/
inductive Substs.Pairs : List Variance → Substs → Substs → Ty → Ty → Prop
  | sub {variance : Variance} {variances : List Variance} {ty1 ty2 : Ty}
      {substs1 substs2 : Substs} :
      variance = .covariant ∨ variance = .invariant →
      Pairs (variance :: variances) (.cons ty1 substs1) (.cons ty2 substs2) ty1 ty2
  | sup {variance : Variance} {variances : List Variance} {ty1 ty2 : Ty}
      {substs1 substs2 : Substs} :
      variance = .contravariant ∨ variance = .invariant →
      Pairs (variance :: variances) (.cons ty1 substs1) (.cons ty2 substs2) ty2 ty1
  | tail {variance : Variance} {variances : List Variance} {ty1 ty2 ty1' ty2' : Ty}
      {substs1 substs2 : Substs} : Pairs variances substs1 substs2 ty1 ty2 →
      Pairs (variance :: variances) (.cons ty1' substs1) (.cons ty2' substs2) ty1 ty2

/-- The base type of a type. -/
def Ty.bty? : Ty → Option BaseTy
  | .refine bty _ | .exists_ bty _ => some bty
  | .uninit | .strgRef _ | .ref _ | .param _ => none

section Reaches

variable (tcx : Tcx)

/-- `Ty.Reaches tcx ty1 ty2 ty1' ty2'` states that the comparison of `ty1` with `ty2` comes to that
of `ty1'` with `ty2'`, through the arguments of ADTs. -/
inductive Ty.Reaches : Ty → Ty → Ty → Ty → Prop
  | refl (ty1 ty2 : Ty) : Reaches ty1 ty2 ty1 ty2
  | args {ty1 ty2 arg1 arg2 ty1' ty2' : Ty} {did : DefId} {substs1 substs2 : Substs} :
      ty1.bty? = some (.adt did substs1) → ty2.bty? = some (.adt did substs2) →
      Substs.Pairs (tcx.variancesOf did) substs1 substs2 arg1 arg2 →
      Reaches arg1 arg2 ty1' ty2' → Reaches ty1 ty2 ty1' ty2'

variable (I : Interp) (ρ : Valuation)

/-- The indices that are compared with themselves have a value: they are well-sorted. -/
def Ty.IndicesValued (ty1 ty2 : Ty) : Prop :=
  ∀ ⦃bty1 bty2 e⦄, Ty.Reaches tcx ty1 ty2 (.refine bty1 e) (.refine bty2 e) →
    (e.eval I.div ρ).isSome

/-- **The predicates that are compared with themselves are met** by an index, if the base types
differ. -/
def Ty.PredicatesMet (ty1 ty2 : Ty) : Prop :=
  ∀ ⦃bty1 bty2 p⦄, Ty.Reaches tcx ty1 ty2 (.exists_ bty1 p) (.exists_ bty2 p) →
    bty1 = bty2 ∨ ∃ v : Val, v.sort = bty1.sort ∧ p.Holds I (ρ.bind v)

end Reaches

section Compare

variable {tcx : Tcx} {I : Interp} {ρ : Valuation} {N : Set Name} {R R' : Ty → Ty → Prop}

/-- Only the pairs that are compared matter. -/
lemma Substs.Compare.imp {variances : List Variance} {substs1 substs2 : Substs}
    (h : Substs.Compare R variances substs1 substs2)
    (hR : ∀ ty1 ty2, Substs.Pairs variances substs1 substs2 ty1 ty2 → R ty1 ty2 → R' ty1 ty2) :
    Substs.Compare R' variances substs1 substs2 := by
  induction variances generalizing substs1 substs2 with
  | nil => trivial
  | cons variance variances ih =>
    cases substs1 with
    | nil => trivial
    | cons ty1 substs1 =>
      cases substs2 with
      | nil => trivial
      | cons ty2 substs2 =>
        have hrest := fun h => ih h fun ty1 ty2 hpair => hR ty1 ty2 hpair.tail
        cases variance with
        | covariant => exact ⟨hR _ _ (.sub (.inl rfl)) h.1, hrest h.2⟩
        | invariant =>
          exact ⟨⟨hR _ _ (.sub (.inr rfl)) h.1.1, hR _ _ (.sup (.inr rfl)) h.1.2⟩, hrest h.2⟩
        | contravariant => exact ⟨hR _ _ (.sup (.inl rfl)) h.1, hrest h.2⟩
        | bivariant => exact ⟨trivial, hrest h.2⟩

/-- Paired type arguments of plain ones are plain. -/
lemma Substs.Pairs.plain {variances : List Variance} {substs1 substs2 : Substs} {ty1 ty2 : Ty}
    (h : Substs.Pairs variances substs1 substs2 ty1 ty2) (h1 : substs1.Plain N)
    (h2 : substs2.Plain N) : ty1.Plain N ∧ ty2.Plain N := by
  induction h with
  | sub _ => exact ⟨h1.1, h2.1⟩
  | sup _ => exact ⟨h2.1, h1.1⟩
  | tail _ ih => exact ih h1.2 h2.2

/-- The arguments of reference-free types are. -/
lemma Ty.Plain.substs {ty : Ty} {did : DefId} {substs : Substs} (h : ty.Plain N)
    (hbty : ty.bty? = some (.adt did substs)) : substs.Plain N := by
  cases ty with
  | refine bty e =>
    obtain rfl := Option.some.inj hbty
    exact h.1
  | exists_ bty p =>
    obtain rfl := Option.some.inj hbty
    exact h.1
  | _ => cases hbty

/-- Only the pairs that the comparison of base types comes to matter. -/
lemma BaseTy.Compare.imp {ty1 ty2 : Ty} {bty1 bty2 : BaseTy}
    (h : BaseTy.Compare R tcx bty1 bty2) (h1 : ty1.bty? = some bty1) (h2 : ty2.bty? = some bty2)
    (hR : ∀ arg1 arg2, (ty1.Plain N → ty2.Plain N → arg1.Plain N ∧ arg2.Plain N) →
      (∀ ty1' ty2', Ty.Reaches tcx arg1 arg2 ty1' ty2' → Ty.Reaches tcx ty1 ty2 ty1' ty2') →
      R arg1 arg2 → R' arg1 arg2) :
    BaseTy.Compare R' tcx bty1 bty2 := by
  cases bty1 with
  | adt did1 substs1 =>
    cases bty2 with
    | adt did2 substs2 =>
      obtain ⟨rfl, hlen, hsubsts⟩ := h
      exact ⟨rfl, hlen, hsubsts.imp fun arg1 arg2 hpair =>
        hR arg1 arg2 (fun hty1 hty2 => hpair.plain (hty1.substs h1) (hty2.substs h2))
          fun _ _ hreach => .args h1 h2 hpair hreach⟩
    | _ => exact h
  | _ => cases bty2 <;> exact h

/-- Only the base types matter to what is asked for once the first type is unpacked. -/
lemma Ty.CompareOpen.imp {ty1 ty2 : Ty} (h : Ty.CompareOpen R tcx I ρ ty1 ty2)
    (hR : ∀ {bty1 bty2}, ty1.bty? = some bty1 → ty2.bty? = some bty2 →
      BaseTy.Compare R tcx bty1 bty2 → BaseTy.Compare R' tcx bty1 bty2) :
    Ty.CompareOpen R' tcx I ρ ty1 ty2 := by
  cases ty1 with
  | refine bty1 e1 =>
    cases ty2 with
    | refine bty2 e2 => exact ⟨hR rfl rfl h.1, h.2⟩
    | exists_ bty2 p => exact ⟨hR rfl rfl h.1, h.2⟩
    | _ => exact h
  | exists_ bty1 p =>
    cases ty2 with
    | refine bty2 e2 => exact fun v hv hp => ⟨hR rfl rfl (h v hv hp).1, (h v hv hp).2⟩
    | exists_ bty2 q => exact fun v hv hp => ⟨hR rfl rfl (h v hv hp).1, (h v hv hp).2⟩
    | _ => exact h
  | _ => cases ty2 <;> exact h

/-- An index that has a value is equal to itself. -/
lemma Expr.holds_eq_self {e : Expr} (h : (e.eval I.div ρ).isSome) :
    (Expr.binaryOp .eq e e).Holds I ρ := by
  obtain ⟨v, hv⟩ := Option.isSome_iff_exists.mp h
  show Fixpoint.BinOp.apply I.div .eq (e.eval I.div ρ) (e.eval I.div ρ) = _
  rw [hv]
  cases v <;> simp [Fixpoint.BinOp.apply, Fixpoint.BinOp.eval]

/-- **What the comparison asks for implies what the general one asks for.** -/
lemma Ty.generalN_of_shortcutN {n : ℕ} {ty1 ty2 : Ty} (hv : Ty.IndicesValued tcx I ρ ty1 ty2)
    (h : Ty.ShortcutN tcx I ρ n ty1 ty2) : Ty.GeneralN tcx I ρ n ty1 ty2 := by
  induction n generalizing ty1 ty2 with
  | zero => trivial
  | succ n ih =>
    have hbty : ∀ {bty1 bty2}, ty1.bty? = some bty1 → ty2.bty? = some bty2 →
        BaseTy.Compare (Ty.ShortcutN tcx I ρ n) tcx bty1 bty2 →
        BaseTy.Compare (Ty.GeneralN tcx I ρ n) tcx bty1 bty2 :=
      fun h1 h2 h => h.imp (N := ∅) h1 h2 fun arg1 arg2 _ hreach =>
        ih fun _ _ _ hpair => hv (hreach _ _ hpair)
    by_cases hrefine : ∃ bty1 bty2 e, ty1 = .refine bty1 e ∧ ty2 = .refine bty2 e
    · obtain ⟨bty1, bty2, e, rfl, rfl⟩ := hrefine
      exact ⟨hbty rfl rfl (shortcutN_refine.mp h), Expr.holds_eq_self (hv (.refl _ _))⟩
    by_cases hexists : ∃ bty1 bty2 p, ty1 = .exists_ bty1 p ∧ ty2 = .exists_ bty2 p
    · obtain ⟨bty1, bty2, p, rfl, rfl⟩ := hexists
      exact fun v _ hp => ⟨hbty rfl rfl (shortcutN_exists.mp h), hp⟩
    refine ((shortcutN_open (fun bty1 e1 bty2 e2 h1 h2 he => hrefine ⟨bty1, bty2, e1, h1, he ▸ h2⟩)
      fun bty1 p1 bty2 p2 h1 h2 hp => hexists ⟨bty1, bty2, p1, h1, hp ▸ h2⟩).mp h).imp ?_
    exact fun h1 h2 h => hbty h1 h2 h

/-- Plain type arguments compare with themselves if plain types do. -/
lemma Substs.Compare.refl {substs : Substs} (hR : ∀ ty : Ty, ty.Plain N → R ty ty)
    (h : substs.Plain N) (variances : List Variance) :
    Substs.Compare R variances substs substs := by
  induction variances generalizing substs with
  | nil => trivial
  | cons variance variances ih =>
    cases substs with
    | nil => trivial
    | cons ty substs =>
      cases variance with
      | covariant => exact ⟨hR ty h.1, ih h.2⟩
      | invariant => exact ⟨⟨hR ty h.1, hR ty h.1⟩, ih h.2⟩
      | contravariant => exact ⟨hR ty h.1, ih h.2⟩
      | bivariant => exact ⟨trivial, ih h.2⟩

/-- The same for base types. -/
lemma BaseTy.Compare.refl {bty : BaseTy} (hR : ∀ ty : Ty, ty.Plain N → R ty ty)
    (h : bty.Plain N) : BaseTy.Compare R tcx bty bty := by
  cases bty with
  | adt did substs => exact ⟨rfl, rfl, .refl hR h _⟩
  | bool => trivial
  | _ => rfl

/-- Nothing is asked for when a type is compared with itself. -/
lemma Ty.shortcutN_refl (n : ℕ) (ty : Ty) (h : ty.Plain N) : Ty.ShortcutN tcx I ρ n ty ty := by
  induction n generalizing ty with
  | zero => trivial
  | succ n ih =>
    cases ty with
    | refine bty e => exact shortcutN_refine.mpr (.refl ih h.1)
    | exists_ bty p => exact shortcutN_exists.mpr (.refl ih h.1)
    | param p => exact (shortcutN_open (fun _ _ _ _ h _ => by cases h)
        fun _ _ _ _ h _ => by cases h).mpr rfl
    | _ => exact h.elim

/-- **What the general comparison asks for implies what the one with early returns asks for**,
where predicates are met. -/
lemma Ty.shortcutN_of_generalN {n : ℕ} {ty1 ty2 : Ty} (h1 : ty1.Plain N) (h2 : ty2.Plain N)
    (hmet : Ty.PredicatesMet tcx I ρ ty1 ty2) (h : Ty.GeneralN tcx I ρ n ty1 ty2) :
    Ty.ShortcutN tcx I ρ n ty1 ty2 := by
  induction n generalizing ty1 ty2 with
  | zero => trivial
  | succ n ih =>
    have hbty : ∀ {bty1 bty2}, ty1.bty? = some bty1 → ty2.bty? = some bty2 →
        BaseTy.Compare (Ty.GeneralN tcx I ρ n) tcx bty1 bty2 →
        BaseTy.Compare (Ty.ShortcutN tcx I ρ n) tcx bty1 bty2 :=
      fun hbty1 hbty2 h => h.imp hbty1 hbty2 fun arg1 arg2 hplain hreach =>
        ih (hplain h1 h2).1 (hplain h1 h2).2 fun _ _ _ hpair => hmet (hreach _ _ hpair)
    by_cases hrefine : ∃ bty1 bty2 e, ty1 = .refine bty1 e ∧ ty2 = .refine bty2 e
    · obtain ⟨bty1, bty2, e, rfl, rfl⟩ := hrefine
      exact shortcutN_refine.mpr (hbty rfl rfl h.1)
    by_cases hexists : ∃ bty1 bty2 p, ty1 = .exists_ bty1 p ∧ ty2 = .exists_ bty2 p
    · obtain ⟨bty1, bty2, p, rfl, rfl⟩ := hexists
      refine shortcutN_exists.mpr ?_
      rcases hmet (.refl _ _) with rfl | ⟨v, hv, hp⟩
      · exact .refl (shortcutN_refl n) h1.1
      · exact hbty rfl rfl (h v hv hp).1
    refine (shortcutN_open (fun bty1 e1 bty2 e2 h1 h2 he => hrefine ⟨bty1, bty2, e1, h1, he ▸ h2⟩)
      fun bty1 p1 bty2 p2 h1 h2 hp => hexists ⟨bty1, bty2, p1, h1, hp ▸ h2⟩).mpr ?_
    exact CompareOpen.imp h fun h1 h2 h => hbty h1 h2 h

end Compare

namespace Cursor

variable {tcx : Tcx} {N : Set Name}

/-- **The shortcuts of subtyping.** When two reference-free types are compared with and without
early returns, the nodes with early returns imply those without them, and they are equivalent under
relations and values that meet every predicate that is compared with itself, unless the base types
are the same.

**Proof sketch.** With and without early returns, the nodes that are pushed are true iff a
relation of the two types holds, by induction on the size of the stack (`obligesSub_subtypingN`,
`obligesSub_generalN`). An early return is left out where the types are equal, and a type is
compared with itself to true if its indices have values (`Ty.generalN_of_shortcutN`). For the
converse the predicates that are compared with themselves have to be met, which is all that the
shortcut asks for (`Ty.shortcutN_of_generalN`). -/
theorem general_of_shortcuts {c c₁ c₂ : Cursor} {ty1 ty2 : Ty} (hc : c.Valid)
    (hN : ∀ x ∈ N, x < c.builder.nameGen) (h1 : ty1.Plain N) (h2 : ty2.Plain N)
    (hrun₁ : (Cursor.subtyping tcx ty1 ty2).run c = .ok ((), c₁))
    (hrun₂ : (general tcx ty1 ty2).run c = .ok ((), c₂)) :
    ∃ nodes₁ nodes₂, Node.append nodes₁ c.builder.root c.node = some c₁.builder.root ∧
      Node.append nodes₂ c.builder.root c.node = some c₂.builder.root ∧
      ∀ I ρ, Ty.IndicesValued tcx I ρ ty1 ty2 →
        (Node.AllHold I ρ nodes₁ → Node.AllHold I ρ nodes₂) ∧
        (Ty.PredicatesMet tcx I ρ ty1 ty2 →
          (Node.AllHold I ρ nodes₁ ↔ Node.AllHold I ρ nodes₂)) := by
  have hs1 := ty1.scoped_of_plain h1
  have hs2 := ty2.scoped_of_plain h2
  obtain ⟨nodes₁, happ₁, hnodes₁⟩ :=
    wp_of_run_ok (obligesSub_subtypingN tcx.stack hc hN hs1 hs2) hrun₁
  obtain ⟨nodes₂, happ₂, hnodes₂⟩ :=
    wp_of_run_ok (obligesSub_generalN tcx.stack hc hN hs1 hs2) hrun₂
  refine ⟨nodes₁, nodes₂, happ₁.root, happ₂.root, fun I ρ hv => ?_⟩
  rw [hnodes₁, hnodes₂]
  exact ⟨Ty.generalN_of_shortcutN hv, fun hmet =>
    ⟨Ty.generalN_of_shortcutN hv, Ty.shortcutN_of_generalN h1 h2 hmet⟩⟩

/-- An ADT with one argument, as `Box`. -/
def boxTcx : Tcx :=
  { Tcx.ofStack 2 with variancesOf := fun _ => [.covariant] }

/-- `Box<i32@n>{b}`. -/
def boxTy (n : ℤ) (b : Bool) : Ty :=
  .exists_ (.adt 0 (.cons (.refine (.int .i32) (.constant (.ofI128 n))) .nil))
    (.expr (.constant (.bool b)))

/-- The box of the example is plain. -/
lemma plain_boxTy (n : ℤ) (b : Bool) : (boxTy n b).Plain ∅ :=
  ⟨⟨⟨trivial, trivial⟩, trivial⟩, trivial⟩

/-- Nothing below a box is compared with itself, except for the box. -/
lemma reaches_boxTy {n m : ℤ} {b : Bool} {ty1 ty2 : Ty}
    (h : Ty.Reaches boxTcx (boxTy n b) (boxTy m b) ty1 ty2) :
    (ty1 = boxTy n b ∧ ty2 = boxTy m b) ∨ (ty1 = .refine (.int .i32) (.constant (.ofI128 n)) ∧
      ty2 = .refine (.int .i32) (.constant (.ofI128 m))) := by
  cases h with
  | refl => exact .inl ⟨rfl, rfl⟩
  | args h1 h2 hpair hreach =>
    cases h1
    cases h2
    cases hpair with
    | sub _ =>
      cases hreach with
      | refl => exact .inr ⟨rfl, rfl⟩
      | args h1 => cases h1
    | sup hvar => rcases hvar with hvar | hvar <;> cases hvar
    | tail hpair => cases hpair

/-- The predicate that all boxes meet is compared with itself. -/
theorem general_of_shortcuts_boxTy :
    ∃ c₁ c₂ nodes₁ nodes₂,
      (Cursor.subtyping boxTcx (boxTy 1 true) (boxTy 2 true)).run
        ConstraintBuilder.new.asCursor = .ok ((), c₁) ∧
      (general boxTcx (boxTy 1 true) (boxTy 2 true)).run
        ConstraintBuilder.new.asCursor = .ok ((), c₂) ∧
      Node.append nodes₁ (.conj []) [] = some c₁.builder.root ∧
      Node.append nodes₂ (.conj []) [] = some c₂.builder.root ∧
      ∀ I ρ, Node.AllHold I ρ nodes₁ ↔ Node.AllHold I ρ nodes₂ := by
  obtain ⟨c₁, hrun₁⟩ : ∃ c₁, (Cursor.subtyping boxTcx (boxTy 1 true) (boxTy 2 true)).run
      ConstraintBuilder.new.asCursor = .ok ((), c₁) := ⟨_, rfl⟩
  obtain ⟨c₂, hrun₂⟩ : ∃ c₂, (general boxTcx (boxTy 1 true) (boxTy 2 true)).run
      ConstraintBuilder.new.asCursor = .ok ((), c₂) := ⟨_, rfl⟩
  obtain ⟨nodes₁, nodes₂, happ₁, happ₂, h⟩ := general_of_shortcuts valid_new (by simp)
    (plain_boxTy 1 true) (plain_boxTy 2 true) hrun₁ hrun₂
  refine ⟨c₁, c₂, nodes₁, nodes₂, hrun₁, hrun₂, happ₁, happ₂, fun I ρ => (h I ρ ?_).2 ?_⟩
  · intro bty1 bty2 e hreach
    rcases reaches_boxTy hreach with ⟨h1, -⟩ | ⟨h1, h2⟩
    · cases h1
    · cases h1
      cases h2
  · intro bty1 bty2 p hreach
    rcases reaches_boxTy hreach with ⟨h1, -⟩ | ⟨h1, -⟩
    · cases h1
      exact .inr ⟨.int 0, rfl, rfl⟩
    · cases h1

/-- **The shortcuts can be more** than the general comparison: `Box<i32@1>{false}` is compared with
`Box<i32@2>{false}`, where no index is below the quantifier, but the arguments are compared. -/
theorem not_shortcuts_iff_general :
    ¬ ∀ (tcx : Tcx) (N : Set Name) (ty1 ty2 : Ty) (c c₁ c₂ : Cursor) (nodes₁ nodes₂ : List Node),
      c.Valid → (∀ x ∈ N, x < c.builder.nameGen) → ty1.Plain N → ty2.Plain N →
      (∀ R, ty1.erase R = ty2.erase R) → (∀ R, (ty1.erase R).Fits tcx) →
      (Cursor.subtyping tcx ty1 ty2).run c = .ok ((), c₁) →
      (general tcx ty1 ty2).run c = .ok ((), c₂) →
      Node.append nodes₁ c.builder.root c.node = some c₁.builder.root →
      Node.append nodes₂ c.builder.root c.node = some c₂.builder.root →
      ∀ I ρ, Ty.IndicesValued tcx I ρ ty1 ty2 →
        (Node.AllHold I ρ nodes₁ ↔ Node.AllHold I ρ nodes₂) := by
  intro h
  let differ : Node := .head (.expr (.binaryOp .eq (.constant (.ofI128 1)) (.constant (.ofI128 2))))
  let false_ : Pred := .expr (.constant (.bool false))
  have hiff := h boxTcx ∅ (boxTy 1 false) (boxTy 2 false) ConstraintBuilder.new.asCursor _ _
    [differ] [.forAll 0 .int false_ [differ, .head false_]] valid_new (by simp)
    (plain_boxTy 1 false) (plain_boxTy 2 false) (fun _ => rfl)
    (fun _ => ⟨le_rfl, trivial, trivial⟩) rfl rfl rfl rfl ⟨fun _ _ => 0, fun _ _ => False⟩
    (fun _ => .int 0) fun bty1 bty2 e hreach => by
      rcases reaches_boxTy hreach with ⟨h1, -⟩ | ⟨h1, h2⟩
      · cases h1
      · cases h1
        cases h2
  have hgeneral : Node.AllHold ⟨fun _ _ => 0, fun _ _ => False⟩ (fun _ => .int 0)
      [.forAll 0 .int false_ [differ, .head false_]] := by
    refine ⟨fun v _ hfalse => ?_, trivial⟩
    have hval : some (Fixpoint.Val.bool false) = some (.bool true) := hfalse
    cases hval
  have hdiffer : some (Fixpoint.Val.bool false) = some (.bool true) := (hiff.mpr hgeneral).1
  cases hdiffer

end Cursor

end LiquidRust.Typeck
