import LiquidRust.Typeck.WritePlace

set_option relaxedAutoImplicit false
set_option autoImplicit false

/-!
# Stores

A store inhabits an environment if what it has at each location is of the type that the
environment has there. A place leads to a location of a store as it does in the environment, and
an operand has a value of the type that the checker gives it. Types without references of unknown
location do not speak of the store, so that their values stay when the store changes.

## Main definitions

* `LiquidRust.Typeck.TypeEnv.Inhabits` — the stores of an environment.
* `LiquidRust.Typeck.Ty.Stable` — types whose values depend neither on the store nor on new names.
* `LiquidRust.Typeck.TypeEnv.Unpacked` — strong environments of such types.
* `LiquidRust.Typeck.Store.place`, `Store.operand` — places and operands in a store.
* `LiquidRust.Typeck.Cursor.Proves` — what the nodes of an operation say about its result.

## Main results

* `LiquidRust.Typeck.Ty.Stable.has_congr` — the values of stable types.
* `LiquidRust.Typeck.TypeEnv.Inhabits.walkPlace` — places lead to the same location.
* `LiquidRust.Typeck.Checker.checkOperands_inhabits` — operands have values of their types.
-/

namespace LiquidRust.Typeck

open Lib Cursor
open Core.Ir (Place PlaceElem Operand)

/-! ## Stable types -/

mutual

/-- No reference of unknown location, at any depth. -/
def Ty.RefFree : Ty → Prop
  | .refine bty _ | .exists_ bty _ => bty.RefFree
  | .uninit | .strgRef _ | .param _ => True
  | .ref _ => False

/-- A base type without references. -/
def BaseTy.RefFree : BaseTy → Prop
  | .adt _ substs => substs.RefFree
  | .int _ | .uint _ | .bool => True

/-- Type arguments without references. -/
def Substs.RefFree : Substs → Prop
  | .nil => True
  | .cons ty substs => ty.RefFree ∧ substs.RefFree

end

/-- **A stable type**: the store does not matter to its values, and no name out of `N` does. -/
structure Ty.Stable (N : Set Name) (ty : Ty) : Prop where
  names : ty.Scoped N
  refFree : ty.RefFree

section Stable

variable {tcx : Tcx} {I : Interp} {ρ ρ' : Valuation} {N N' : Set Name}

mutual

/-- The values of a type depend only on its names, if it has no references. -/
lemma Ty.has_congr (S S' : Store) (h : Valuation.AgreeOn N ρ ρ') : ∀ {ty : Ty}, ty.Scoped N →
    ty.RefFree → ∀ u, ty.Has tcx S I ρ u ↔ ty.Has tcx S' I ρ' u
  | .refine _ _, hN, hfree, u => by
    rw [Ty.Has, Ty.Has, BaseTy.has_congr S S' h hN.1 hfree u, Expr.eval_congr hN.2.over h]
  | .exists_ _ _, hN, hfree, u => by
    refine and_congr (BaseTy.has_congr S S' h hN.1 hfree u) (exists_congr fun v => ?_)
    exact and_congr_right' (Pred.holds_congr hN.2 (h.bind v))
  | .uninit, _, _, _ | .strgRef _, _, _, _ | .param _, _, _, _ => Iff.rfl
  | .ref _, _, hfree, _ => hfree.elim

/-- The same for base types. -/
lemma BaseTy.has_congr (S S' : Store) (h : Valuation.AgreeOn N ρ ρ') : ∀ {bty : BaseTy},
    bty.Scoped N → bty.RefFree → ∀ u, bty.Has tcx S I ρ u ↔ bty.Has tcx S' I ρ' u
  | .adt did _, hN, hfree, .adt did' n contents =>
    and_congr_right' (Substs.have_congr S S' h hN hfree (tcx.variancesOf did) contents)
  | .adt _ _, _, _, .int _ | .adt _ _, _, _, .bool _ | .adt _ _, _, _, .ptr _
  | .adt _ _, _, _, .param _ => Iff.rfl
  | .int _, _, _, u | .uint _, _, _, u | .bool, _, _, u => by cases u <;> exact Iff.rfl

/-- The same for type arguments. -/
lemma Substs.have_congr (S S' : Store) (h : Valuation.AgreeOn N ρ ρ') : ∀ {substs : Substs},
    substs.Scoped N → substs.RefFree → ∀ variances contents,
    substs.Have tcx S I ρ variances contents ↔ substs.Have tcx S' I ρ' variances contents
  | .cons _ _, hN, hfree, _ :: variances, us :: contents => by
    refine and_congr (imp_congr_right fun _ => forall₂_congr fun u _ => ?_) ?_
    · exact Ty.has_congr S S' h hN.1 hfree.1 u
    · exact Substs.have_congr S S' h hN.2 hfree.2 variances contents
  | .nil, _, _, _, _ | .cons _ _, _, _, [], _ | .cons _ _, _, _, _ :: _, [] => Iff.rfl

end

/-- **The values of a stable type** stay when the store changes or new names get values. -/
lemma Ty.Stable.has_congr {ty : Ty} (hty : ty.Stable N) (h : Valuation.AgreeOn N ρ ρ')
    {S : Store} (S' : Store) {u : Value} (hu : ty.Has tcx S I ρ u) : ty.Has tcx S' I ρ' u :=
  (Ty.has_congr S S' h hty.names hty.refFree u).mp hu

/-- A stable type over some names is one over more. -/
lemma Ty.Stable.mono {ty : Ty} (hN : N ⊆ N') (h : ty.Stable N) : ty.Stable N' :=
  ⟨ty.scoped_mono hN h.names, h.refFree⟩

end Stable

/-! ## Environments -/

namespace TypeEnv

/-- **What is stored at each location** has the type of the location. -/
def Inhabits (tcx : Tcx) (I : Interp) (ρ : Valuation) (S : Store) (env : TypeEnv) : Prop :=
  ∀ ⦃loc ty⦄, env.lookupLoc loc = some ty → ty.Has tcx S I ρ (S loc)

/-- The names of the types of an environment are in `N`. -/
def Scoped (N : Set Name) (env : TypeEnv) : Prop :=
  ∀ ⦃loc ty⦄, env.lookupLoc loc = some ty → ty.Scoped N

/-- **An unpacked environment**: its bindings are strong and its types are stable. -/
structure Unpacked (N : Set Name) (env : TypeEnv) : Prop where
  strong : env.AllStrong
  stable : ∀ ⦃loc ty⦄, env.lookupLoc loc = some ty → ty.Stable N

section Insert

variable {tcx : Tcx} {I : Interp} {ρ ρ' : Valuation} {S : Store} {N N' : Set Name} {env : TypeEnv}
  {loc : Loc} {ty : Ty}

/-- What holds of the new type and of the types of the other locations. -/
lemma forall_lookupLoc_insertLoc {P : Loc → Ty → Prop} (hty : P loc ty)
    (h : ∀ ⦃loc' ty'⦄, loc' ≠ loc → env.lookupLoc loc' = some ty' → P loc' ty') ⦃loc' : Loc⦄
    ⦃ty' : Ty⦄ (hty' : (env.insertLoc loc ty).lookupLoc loc' = some ty') : P loc' ty' := by
  by_cases hloc : loc' = loc
  · subst hloc
    rw [lookupLoc_insertLoc_self] at hty'
    exact Option.some.inj hty' ▸ hty
  · rw [lookupLoc_insertLoc_of_ne hloc] at hty'
    exact h hloc hty'

/-- Writing a type that the store has keeps the environment inhabited. -/
lemma Inhabits.insertLoc (h : env.Inhabits tcx I ρ S) (hty : ty.Has tcx S I ρ (S loc)) :
    (env.insertLoc loc ty).Inhabits tcx I ρ S :=
  forall_lookupLoc_insertLoc hty fun _ _ _ hty' => h hty'

/-- Writing a type over the names keeps the environment over them. -/
lemma Scoped.insertLoc (h : env.Scoped N) (hty : ty.Scoped N) : (env.insertLoc loc ty).Scoped N :=
  forall_lookupLoc_insertLoc (P := fun _ ty => ty.Scoped N) hty fun _ _ _ hty' => h hty'

/-- Writing a stable type keeps the environment unpacked. -/
lemma Unpacked.insertLoc (h : env.Unpacked N) (hty : ty.Stable N) :
    (env.insertLoc loc ty).Unpacked N :=
  ⟨h.strong.insertLoc loc ty, forall_lookupLoc_insertLoc (P := fun _ ty => ty.Stable N) hty
    fun _ _ _ hty' => h.stable hty'⟩

/-- An unpacked environment over some names is one over more. -/
lemma Unpacked.mono (hN : N ⊆ N') (h : env.Unpacked N) : env.Unpacked N' :=
  ⟨h.strong, fun _ _ hty => (h.stable hty).mono hN⟩

/-- An unpacked environment is over its names. -/
lemma Unpacked.scoped (h : env.Unpacked N) : env.Scoped N :=
  fun _ _ hty => (h.stable hty).names

/-- **A value is stored** at one location of an unpacked environment, and new names get values. -/
lemma Inhabits.update (h : env.Inhabits tcx I ρ S) (henv : env.Unpacked N)
    (hagree : Valuation.AgreeOn N ρ ρ') {u : Value}
    (hty : ty.Has tcx (Function.update S loc u) I ρ' u) :
    (env.insertLoc loc ty).Inhabits tcx I ρ' (Function.update S loc u) := by
  refine forall_lookupLoc_insertLoc ?_ fun loc' ty' hloc hty' => ?_
  · rwa [Function.update_self]
  · rw [Function.update_of_ne hloc]
    exact (henv.stable hty').has_congr hagree _ (h hty')

end Insert

end TypeEnv

/-! ## Places and operands -/

namespace Store

variable (S : Store)

/-- Where a projection leads to from a location. -/
def projection : Loc → List PlaceElem → Option Loc
  | loc, [] => some loc
  | loc, .deref :: elems =>
    match S loc with
    | .ptr loc' => projection loc' elems
    | _ => none

/-- **The location of a place.** -/
def place (p : Place) : Option Loc :=
  S.projection (.local_ p.local_) p.projection

/-- **The value of an operand.** -/
def operand : Operand → Option Value
  | .copy p | .move p => (S.place p).map S
  | .constant (.int n _) => some (.int n)
  | .constant (.uint n _) => some (.int n)
  | .constant (.bool b) => some (.bool b)

end Store

namespace TypeEnv

variable {tcx : Tcx} {I : Interp} {ρ : Valuation} {S : Store} {N : Set Name} {env env' : TypeEnv}

/-- The store follows a projection as the environment does. -/
lemma Inhabits.walkProjection (h : env.Inhabits tcx I ρ S) {projection : List PlaceElem}
    {loc loc' : Loc} {ty ty' : Ty} (hty : env.lookupLoc loc = some ty)
    (hwalk : env.walkProjection loc ty projection = .ok (loc', ty')) :
    S.projection loc projection = some loc' ∧ env.lookupLoc loc' = some ty' := by
  induction projection generalizing loc ty with
  | nil =>
    cases hwalk
    exact ⟨rfl, hty⟩
  | cons elem projection ih =>
    cases ty with
    | strgRef referee =>
      have hptr : S loc = .ptr referee := h hty
      cases hreferee : env.lookupLoc referee with
      | none =>
        rw [TypeEnv.walkProjection, hreferee] at hwalk
        cases hwalk
      | some rty =>
        rw [TypeEnv.walkProjection, hreferee] at hwalk
        rw [Store.projection, hptr]
        exact ih hreferee hwalk
    | _ => cases hwalk

/-- **A place leads to the location** that it leads to in the environment. -/
lemma Inhabits.walkPlace (h : env.Inhabits tcx I ρ S) {p : Place} {loc : Loc} {ty : Ty}
    (hwalk : env.walkPlace p = .ok (loc, ty)) :
    S.place p = some loc ∧ env.lookupLoc loc = some ty := by
  cases hty : env.lookupLoc (.local_ p.local_) with
  | none =>
    rw [TypeEnv.walkPlace, hty] at hwalk
    cases hwalk
  | some ty₀ =>
    rw [TypeEnv.walkPlace, hty] at hwalk
    exact h.walkProjection hty hwalk

end TypeEnv

namespace Checker

open TypeEnv

variable {tcx : Tcx} {I : Interp} {ρ : Valuation} {S : Store} {N : Set Name} {env : TypeEnv}

/-- Operands leave an unpacked environment, and have stable types. -/
lemma checkOperand_unpacked (h : env.Unpacked N) (op : Operand) :
    post (checkOperand env op) (fun r => r.1.Unpacked N ∧ r.2.Stable N) (fun _ => True) := by
  cases op with
  | constant c => cases c <;> exact ⟨h, ⟨trivial, trivial⟩, trivial⟩
  | copy p =>
    rw [checkOperand, lookupPlace, post_bind, post_bind]
    cases hwalk : env.walkPlace p with
    | error f => trivial
    | ok r =>
      obtain ⟨ty, hty, hproj⟩ := walkPlace_eq_ok.mp hwalk
      exact ⟨h, h.stable (lookupLoc_of_walkProjection hty hproj)⟩
  | move p =>
    rw [checkOperand, movePlace]
    split
    · rw [post_bind, post_orError]
      exact ⟨fun ty hty => ⟨h.insertLoc ⟨trivial, trivial⟩, h.stable hty⟩, fun _ => trivial⟩
    · trivial

/-- **The value of an operand** is of its type. -/
lemma checkOperand_inhabits (h : env.Inhabits tcx I ρ S) (op : Operand) :
    post (checkOperand env op)
      (fun r => r.1.Inhabits tcx I ρ S ∧ ∃ u, S.operand op = some u ∧ r.2.Has tcx S I ρ u)
      (fun _ => True) := by
  cases op with
  | constant c =>
    refine ⟨h, ?_⟩
    cases c with
    | int n int_ty => exact ⟨.int n, rfl, trivial, .int n, rfl, by simp [Expr.eval]⟩
    | uint n uint_ty => exact ⟨.int n, rfl, trivial, .int n, rfl, rfl⟩
    | bool b => exact ⟨.bool b, rfl, trivial, .bool b, rfl, rfl⟩
  | copy p =>
    rw [checkOperand, lookupPlace, post_bind, post_bind]
    cases hwalk : env.walkPlace p with
    | error f => trivial
    | ok r =>
      obtain ⟨hplace, hty⟩ := h.walkPlace hwalk
      exact ⟨h, S r.1, by rw [Store.operand, hplace]; rfl, h hty⟩
  | move p =>
    rw [checkOperand, movePlace]
    split
    · next hprojection =>
      rw [post_bind, post_orError]
      have hvalue : S.operand (.move p) = some (S (.local_ p.local_)) := by
        rw [Store.operand, Store.place, hprojection]
        rfl
      exact ⟨fun ty hty => ⟨h.insertLoc trivial, _, hvalue, h hty⟩, fun _ => trivial⟩
    · trivial

/-- The operands of a call keep the environment unpacked. -/
lemma checkOperands_unpacked (h : env.Unpacked N) (ops : List Operand) :
    post (checkOperands env ops) (fun r => r.1.Unpacked N ∧ ∀ ty ∈ r.2, ty.Stable N)
      (fun _ => True) := by
  induction ops generalizing env with
  | nil => exact ⟨h, List.forall_mem_nil _⟩
  | cons op ops ih =>
    rw [checkOperands, post_bind]
    refine post_mono (checkOperand_unpacked h op) (fun r hr => ?_) fun _ h => h
    obtain ⟨henv, hty⟩ := hr
    rw [post_bind]
    exact post_mono (ih henv)
      (fun r' hr' => ⟨hr'.1, List.forall_mem_cons.mpr ⟨hty, hr'.2⟩⟩) fun _ h => h

/-- **The values of operands** are of their types. -/
lemma checkOperands_inhabits (h : env.Inhabits tcx I ρ S) (ops : List Operand) :
    post (checkOperands env ops)
      (fun r => r.1.Inhabits tcx I ρ S ∧
        List.Forall₂ (fun op ty => ∃ u, S.operand op = some u ∧ ty.Has tcx S I ρ u) ops r.2)
      (fun _ => True) := by
  induction ops generalizing env with
  | nil => exact ⟨h, .nil⟩
  | cons op ops ih =>
    rw [checkOperands, post_bind]
    refine post_mono (checkOperand_inhabits h op) (fun r hr => ?_) fun _ h => h
    obtain ⟨henv, hop⟩ := hr
    rw [post_bind]
    exact post_mono (ih henv) (fun r' hr' => ⟨hr'.1, .cons hop hr'.2⟩) fun _ h => h

end Checker

/-! ## What operations push about their results -/

/-- `c.Proves G P m` states that an operation that completes pushes nodes where the cursor is. Its
result satisfies `G`, and `P` if the nodes are true. -/
def Cursor.Proves {α : Type} (G : α → Prop) (P : Interp → Valuation → α → Prop) (m : CursorM α)
    (c : Cursor) : Prop :=
  wp m (fun a c' => ∃ nodes, c.Appends c' nodes ∧ G a ∧
    ∀ I ρ, Node.AllHold I ρ nodes → P I ρ a) (fun _ => True) c

namespace Cursor

variable {α β : Type} {G : α → Prop} {P : Interp → Valuation → α → Prop} {m : CursorM α}
  {c : Cursor}

/-- Returning what is right proves it. -/
lemma Proves.pure {a : α} (hc : c.Valid) (hG : G a) (hP : ∀ I ρ, P I ρ a) :
    c.Proves G P (Pure.pure a) :=
  ⟨[], .nil hc, hG, fun I ρ _ => hP I ρ⟩

/-- One step after another proves what the second does under the first. -/
lemma Proves.bind {H : β → Prop} {Q : Interp → Valuation → β → Prop} {k : α → CursorM β}
    (hm : c.Proves G P m)
    (hk : ∀ a (c' : Cursor), c'.Valid → c.builder.nameGen ≤ c'.builder.nameGen → G a →
      c'.Proves H (fun I ρ b => P I ρ a → Q I ρ b) (k a)) :
    c.Proves H Q (m >>= k) := by
  rw [Proves, wp_bind]
  refine wp_imp hm fun a c' ⟨nodes, happ, hG, hP⟩ => ?_
  refine wp_imp (hk a c' happ.valid happ.le.nameGen hG) fun b c'' ⟨nodes', happ', hH, hQ⟩ => ?_
  refine ⟨nodes ++ nodes', happ.trans happ', hH, fun I ρ hnodes => ?_⟩
  obtain ⟨hnodes, hnodes'⟩ := Node.allHold_append.mp hnodes
  exact hQ I ρ hnodes' (hP I ρ hnodes)

/-- What is proved, weaker properties are too. -/
lemma Proves.mono {G' : α → Prop} {P' : Interp → Valuation → α → Prop} (hm : c.Proves G P m)
    (hG : ∀ a, G a → G' a) (hP : ∀ I ρ a, G a → P I ρ a → P' I ρ a) : c.Proves G' P' m :=
  wp_imp hm fun a _ ⟨nodes, happ, hGa, hPa⟩ =>
    ⟨nodes, happ, hG a hGa, fun I ρ hnodes => hP I ρ a hGa (hPa I ρ hnodes)⟩

/-- An assertion proves its condition. -/
lemma Proves.assert (hc : c.Valid) (b : Bool) :
    c.Proves (fun _ => b = true) (fun _ _ _ => True) (Cursor.assert b) := by
  unfold Cursor.assert
  split
  · next hb => exact .pure hc hb fun _ _ => trivial
  · exact trivial

/-- The comparison of two types proves that the values of the first one are values of the second
one. -/
lemma proves_subtyping {tcx : Tcx} {N : Set Name} {ty1 ty2 : Ty} (hc : c.Valid)
    (hN : ∀ x ∈ N, x < c.builder.nameGen) (h1 : ty1.Scoped N) (h2 : ty2.Scoped N) :
    c.Proves (fun _ => True)
      (fun I ρ _ => ∀ (S : Store) (u : Value), ty1.Has tcx S I ρ u → ty2.Has tcx S I ρ u)
      (subtyping tcx ty1 ty2) :=
  wp_imp (obliges_subtyping hc hN h1 h2) fun _ _ ⟨nodes, happ, hP⟩ =>
    ⟨nodes, happ, trivial, fun I ρ hnodes _ _ hu => ((hP I ρ).mp hnodes).has hu⟩

/-- An operation that obliges a property proves it. -/
lemma Proves.of_obliges {m : CursorM Unit} {P : Interp → Valuation → Prop} (hm : Obliges P m c) :
    c.Proves (fun _ => True) (fun I ρ _ => P I ρ) m :=
  wp_imp hm fun _ _ ⟨nodes, happ, hP⟩ => ⟨nodes, happ, trivial, fun I ρ => (hP I ρ).mp⟩

/-- An operation that leaves the cursor as it is. -/
lemma Proves.of_wp (hc : c.Valid) (hm : wp m (fun a c' => c' = c ∧ G a) (fun _ => True) c) :
    c.Proves G (fun _ _ _ => True) m := by
  refine wp_imp hm fun a c' ⟨heq, hG⟩ => ?_
  subst heq
  exact ⟨[], .nil hc, hG, fun _ _ _ => trivial⟩

/-- What is looked up is there. -/
lemma Proves.orFail {f : Failure} {o : Option β} {k : β → CursorM α}
    (h : ∀ b, o = some b → c.Proves G P (k b)) : c.Proves G P (Typeck.orFail f o >>= k) := by
  rw [Proves, wp_bind, wp_orFail]
  exact ⟨h, fun _ => trivial⟩

/-- A computation that completes. -/
lemma Proves.ofExcept {x : Except Failure β} {k : β → CursorM α}
    (h : ∀ b, x = .ok b → c.Proves G P (k b)) : c.Proves G P (Typeck.ofExcept x >>= k) := by
  rw [Proves, wp_bind, wp_ofExcept]
  cases x with
  | ok b => exact h b rfl
  | error f => trivial

/-- The type of a strong binding is looked up. -/
lemma Proves.strongTy {env : TypeEnv} {f : Failure} {loc : Loc} {k : Ty → CursorM α}
    (h : ∀ ty, env.bindings.lookup loc = some (.strong ty) → env.lookupLoc loc = some ty →
      c.Proves G P (k ty)) :
    c.Proves G P (env.strongTy f loc >>= k) := by
  rw [TypeEnv.strongTy, bind_assoc]
  refine .orFail fun binding hbinding => ?_
  cases binding with
  | strong ty => exact h ty hbinding (by simp [TypeEnv.lookupLoc, hbinding, Binding.ty])
  | weak bound ty => exact trivial

/-- **A loop** proves what its steps prove. -/
lemma Proves.forM {l : List β} {f : β → CursorM Unit} {Q : Interp → Valuation → β → Prop}
    (hc : c.Valid)
    (hf : ∀ b ∈ l, ∀ c' : Cursor, c'.Valid → c.builder.nameGen ≤ c'.builder.nameGen →
      c'.Proves (fun _ => True) (fun I ρ _ => Q I ρ b) (f b)) :
    c.Proves (fun _ => True) (fun I ρ _ => ∀ b ∈ l, Q I ρ b) (l.forM f) := by
  induction l generalizing c with
  | nil => exact .pure hc trivial fun _ _ _ hb => nomatch hb
  | cons b l ih =>
    change c.Proves _ _ (f b >>= fun _ => l.forM f)
    refine (hf b (.head l) c hc le_rfl).bind fun _ c' hc' hle _ => ?_
    refine (ih hc' fun b' hb' c'' hc'' hle' => hf b' (.tail b hb') c'' hc'' (hle.trans hle')).mono
      (fun _ h => h) fun I ρ _ _ hl hb => ?_
    exact List.forall_mem_cons.mpr ⟨hb, hl⟩

end Cursor

end LiquidRust.Typeck
