import LiquidRust.Typeck.Join
import LiquidRust.Typeck.Over

set_option relaxedAutoImplicit false
set_option autoImplicit false

/-!
# Dangling locations

A pointer dangles if the location it leads to is not bound. No use of an environment makes a
pointer dangle, and none fails for a pointer that does, unless a pointer dangles before.

## Main definitions

* `LiquidRust.Typeck.TypeEnv.NoDangling` — every pointer leads to a location that is bound.
* `LiquidRust.Typeck.Leads` — operations that do not fail for a pointer.

## Main results

* `LiquidRust.Typeck.TypeEnv.leads_writePlace`, `leads_unpack` — the use of environments.
* `LiquidRust.Typeck.Checker.leads_checkStatement`, `leads_callEnsures`, `leads_callReturn` —
  statements and calls.
-/

namespace LiquidRust.Typeck

open Lib Cursor
open Core.Ir (BasicBlock Place PlaceElem Operand Rvalue Statement)

/-! ## Operations that do not fail for a pointer -/

variable {α β : Type}

/-- **Operations that do not fail for a pointer**, whatever the cursor is, and have a result with
`R`. -/
def Leads (R : α → Prop) (m : CursorM α) : Prop :=
  ∀ c, wp m (fun a _ => R a) (· ≠ .dangling) c

namespace Leads

variable {R R' : α → Prop} {m : CursorM α} {f : Failure}

/-- Returning what has the property leads to it. -/
lemma pure {a : α} (h : R a) : Leads R (Pure.pure a) :=
  fun _ => h

/-- Failing otherwise than by a dangling location leads to any property. -/
lemma throw (hf : f ≠ .dangling) : Leads R (MonadExcept.throw f : CursorM α) :=
  fun _ => hf

/-- One step after another leads to what the second does. -/
lemma bind {S : β → Prop} {k : α → CursorM β} (hm : Leads R m) (hk : ∀ a, R a → Leads S (k a)) :
    Leads S (m >>= k) := by
  intro c
  rw [wp_bind]
  exact wp_imp (hm c) fun a c' ha => hk a ha c'

/-- What leads to a property leads to a weaker one. -/
lemma mono (hm : Leads R m) (hR : ∀ a, R a → R' a) : Leads R' m :=
  fun c => wp_imp (hm c) fun a _ => hR a

/-- What the results have, whatever the failures are. -/
lemma and (hm : Leads R m) (h : ∀ c, wp m (fun a _ => R' a) (fun _ => True) c) :
    Leads (fun a => R a ∧ R' a) m :=
  fun c => wp_mono (wp_and (hm c) (h c)) (fun _ _ h => h) fun _ h => h.1

/-- A safe operation never runs into a dangling location. -/
lemma of_safe (hm : Safe m) : Leads (fun _ => True) m :=
  fun c => wp_mono (hm c) (fun _ _ _ => trivial) fun _ hf => hf.2

/-- Lifting a result leads to what it has. -/
lemma ofExcept {x : Except Failure α} (h : post x R (· ≠ .dangling)) :
    Leads R (Typeck.ofExcept x) := by
  intro c
  rwa [wp_ofExcept]

/-- Opening an option leads to what its value has. -/
lemma orFail {o : Option α} (h : ∀ a, o = some a → R a) (hf : o = none → f ≠ .dangling) :
    Leads R (Typeck.orFail f o) :=
  fun _ => wp_orFail.mpr ⟨h, hf⟩

/-- A fold leads to what each of its steps keeps. -/
lemma foldlM {S : β → Prop} {k : β → α → CursorM β} {l : List α} {b : β}
    (hk : ∀ a ∈ l, ∀ b, S b → Leads S (k b a)) (hb : S b) : Leads S (l.foldlM k b) :=
  fun _ => wp_foldlM (I := fun b _ => S b) (fun a ha b c h => hk a ha b h c) hb

/-- A loop runs into no dangling location if none of its steps does. -/
lemma forM {k : α → CursorM PUnit} {l : List α} (hk : ∀ a ∈ l, Leads (fun _ => True) (k a)) :
    Leads (fun _ => True) (l.forM k) :=
  fun _ => wp_forM (I := fun _ => True) (fun a ha c _ => hk a ha c) trivial

end Leads

/-! ## Types and environments -/

/-- Every expression is over all names. -/
lemma Expr.over_univ (e : Expr) : e.Over Set.univ := by
  induction e with
  | var x => cases x <;> trivial
  | constant c => trivial
  | binaryOp op e1 e2 ih1 ih2 => exact ⟨ih1, ih2⟩
  | unaryOp op e ih => exact ih

/-- Every predicate is over all names. -/
lemma Pred.over_univ (p : Pred) : p.Over Set.univ := by
  cases p with
  | kvar kvid args => exact fun e _ => e.over_univ
  | expr e => exact e.over_univ

/-- All pointers in a type lead to locations in `L`. -/
abbrev Ty.Within (L : Set Loc) (ty : Ty) : Prop :=
  ty.Over Set.univ L

/-- A shared reference points where its type does. -/
lemma Ty.within_ref {L : Set Loc} {ty : Ty} : (Ty.ref ty).Within L ↔ ty.Within L := Iff.rfl

/-- Naming the index of an existential leaves its pointers. -/
lemma leads_unpackTy {L : Set Loc} {ty : Ty} (h : ty.Within L) :
    Leads (Ty.Within L) (Cursor.unpack ty) := by
  cases ty with
  | exists_ bty p =>
    exact (Leads.of_safe Safe.freshName).bind fun x _ =>
      (Leads.of_safe (Safe.pushForall _ _ _)).bind fun _ _ => .pure ⟨h.1, Expr.over_univ _⟩
  | _ => exact .pure h

namespace TypeEnv

variable {env : TypeEnv} {loc : Loc} {ty : Ty} {L : Set Loc}

/-- The locations that are bound. -/
def locSet (env : TypeEnv) : Set Loc :=
  {loc | loc ∈ env.bindings}

/-- **No pointer dangles**: each one, at any depth, leads to a location that is bound. -/
def NoDangling (env : TypeEnv) : Prop :=
  env.Over Set.univ env.locSet

instance : DecidablePred (· ∈ env.locSet) := fun loc =>
  inferInstanceAs (Decidable (loc ∈ env.bindings))

instance : Decidable env.NoDangling :=
  inferInstanceAs (Decidable (env.Over Set.univ env.locSet))

/-- The pointers lead to locations in `L`, which are all bound. -/
structure Within (L : Set Loc) (env : TypeEnv) : Prop where
  types : env.Over Set.univ L
  bound : L ⊆ env.locSet

/-- An environment within some of its locations has no dangling one. -/
lemma Within.noDangling (h : env.Within L) : env.NoDangling :=
  h.types.mono le_rfl h.bound

/-- One without a dangling location is within its own. -/
lemma NoDangling.within (h : env.NoDangling) : env.Within env.locSet :=
  ⟨h, le_rfl⟩

/-- A new binding adds its location. -/
@[simp] lemma locSet_insert {binding : Binding} :
    locSet ⟨env.bindings.insert loc binding⟩ = insert loc env.locSet :=
  Set.ext fun _ => AList.mem_insert _

/-- `insert_loc` adds its location. -/
@[simp] lemma locSet_insertLoc : (env.insertLoc loc ty).locSet = insert loc env.locSet :=
  locSet_insert

/-- A location with a type is one of the environment. -/
lemma mem_locSet_of_lookupLoc (h : env.lookupLoc loc = some ty) : loc ∈ env.locSet :=
  mem_of_lookupLoc h

/-- A location of the environment has a type. -/
lemma lookupLoc_ne_none (h : loc ∈ env.locSet) : env.lookupLoc loc ≠ none := by
  obtain ⟨ty, hty⟩ := exists_lookupLoc h
  simp [hty]

/-- Inserting a type within the locations keeps the environment within them. -/
lemma Within.insertLoc (h : env.Within L) (hty : ty.Within L) :
    (env.insertLoc loc ty).Within L :=
  ⟨h.types.insertLoc hty, h.bound.trans (by simp [Set.subset_insert])⟩

/-- Inserting a binding that points to what is there leaves nothing dangling. -/
lemma NoDangling.insertBinding {binding : Binding} (h : env.NoDangling)
    (hb : binding.Over Set.univ (insert loc env.locSet)) :
    NoDangling ⟨env.bindings.insert loc binding⟩ := by
  rw [NoDangling, locSet_insert]
  exact (h.mono le_rfl (Set.subset_insert _ _)).insert hb

/-- Inserting a type that points to what is there leaves nothing dangling. -/
lemma NoDangling.insertLoc (h : env.NoDangling) (hty : ty.Within (insert loc env.locSet)) :
    (env.insertLoc loc ty).NoDangling :=
  h.insertBinding (show Binding.Over Set.univ _ (.strong ty) from hty)

/-- The empty environment has nothing dangling. -/
lemma noDangling_new : TypeEnv.new.NoDangling :=
  over_new

/-! ## The use of environments -/

/-- A projection leads to a location that is bound. -/
lemma NoDangling.walkProjection (h : env.NoDangling) (hloc : loc ∈ env.locSet)
    (hty : ty.Within env.locSet) (projection : List PlaceElem) :
    post (env.walkProjection loc ty projection)
      (fun r => r.1 ∈ env.locSet ∧ r.2.Within env.locSet) (· ≠ .dangling) := by
  induction projection generalizing loc ty with
  | nil => exact ⟨hloc, hty⟩
  | cons elem projection ih =>
    cases ty with
    | strgRef referee =>
      rw [TypeEnv.walkProjection, post_bind, post_orError]
      exact ⟨fun ty hty' => ih hty (h.lookupLoc hty'), fun hnone =>
        absurd hnone (lookupLoc_ne_none hty)⟩
    | ref ty => exact fun h => nomatch h
    | _ => exact fun h => nomatch h

/-- Walking down a place stays within the locations. -/
lemma NoDangling.walkPlace (h : env.NoDangling) (place : Place) :
    post (env.walkPlace place) (fun r => r.1 ∈ env.locSet ∧ r.2.Within env.locSet)
      (· ≠ .dangling) := by
  rw [TypeEnv.walkPlace, post_bind, post_orError]
  exact ⟨fun ty hty => h.walkProjection (mem_locSet_of_lookupLoc hty) (h.lookupLoc hty) _,
    fun _ => by decide⟩

/-- `lookup_place` stays within the locations. -/
lemma NoDangling.lookupPlace (h : env.NoDangling) (place : Place) :
    post (env.lookupPlace place) (·.Within env.locSet) (· ≠ .dangling) := by
  rw [TypeEnv.lookupPlace, post_bind]
  exact post_mono (h.walkPlace place) (fun _ h => h.2) fun _ h => h

/-- `get_loc` gives a location of the environment. -/
lemma NoDangling.getLoc (h : env.NoDangling) (place : Place) :
    post (env.getLoc place) (· ∈ env.locSet) (· ≠ .dangling) := by
  rw [TypeEnv.getLoc, post_bind]
  exact post_mono (h.walkPlace place) (fun _ h => h.1) fun _ h => h

/-- What is left of an environment after an operand, and the type of the operand. -/
structure OperandOk (env env' : TypeEnv) (ty : Ty) : Prop where
  noDangling : env'.NoDangling
  ty : ty.Within env'.locSet
  locs : env.locSet ⊆ env'.locSet

/-- `move_place` leaves nothing dangling. -/
lemma NoDangling.movePlace (h : env.NoDangling) (place : Place) :
    post (env.movePlace place) (fun r => OperandOk env r.1 r.2) (· ≠ .dangling) := by
  unfold TypeEnv.movePlace
  split
  · rw [post_bind, post_orError]
    refine ⟨fun ty hty => ⟨h.insertLoc trivial, ?_, ?_⟩, fun _ => by decide⟩
    · rw [locSet_insertLoc]
      exact (h.lookupLoc hty).mono le_rfl (Set.subset_insert _ _)
    · rw [locSet_insertLoc]
      exact Set.subset_insert _ _
  · exact fun h => nomatch h

variable (tcx : Tcx)

/-- `update_loc` leaves nothing dangling and loses no location. -/
lemma leads_updateLoc (h : env.NoDangling) (hty : ty.Within env.locSet) :
    Leads (fun env' => env'.NoDangling ∧ env.locSet ⊆ env'.locSet)
      (env.updateLoc tcx loc ty) := by
  refine (Leads.orFail (R := fun _ => True) (fun _ _ => trivial) fun _ => by decide).bind
    fun binding _ => ?_
  cases binding with
  | strong _ =>
    refine .pure ⟨h.insertLoc (hty.mono le_rfl (Set.subset_insert _ _)), ?_⟩
    rw [locSet_insertLoc]
    exact Set.subset_insert _ _
  | weak bound _ =>
    exact (Leads.of_safe (Safe.subtyping tcx ty bound)).bind fun _ _ => .pure ⟨h, le_rfl⟩

/-- **A place is written.** -/
lemma leads_writePlace (h : env.NoDangling) (place : Place) (hty : ty.Within env.locSet) :
    Leads NoDangling (env.writePlace tcx place ty) := by
  refine (Leads.ofExcept (h.walkPlace place)).bind fun p _ => ?_
  have hupdate : Leads NoDangling (env.updateLoc tcx p.1 ty) :=
    (leads_updateLoc tcx h hty).mono fun _ h => h.1
  obtain ⟨loc, pty⟩ := p
  cases pty with
  | exists_ bty p => exact .throw (by decide)
  | ref ty => exact .throw (by decide)
  | _ => exact hupdate

/-- A reference of unknown location becomes a pointer to a new location, which is bound. -/
lemma leads_unpackLoc (h : env.NoDangling) (loc : Loc) :
    Leads NoDangling (env.unpackLoc loc) := by
  refine (Leads.orFail (R := fun b => Binding.Over Set.univ env.locSet b) (fun b hb => h hb)
    fun _ => by decide).bind fun binding hb => ?_
  dsimp only
  split
  · next bty p hty =>
    have hty' : (Ty.exists_ bty p).Within env.locSet := hty ▸ hb.ty
    refine (leads_unpackTy hty').bind fun ty hty => .pure (h.insertBinding ?_)
    exact (hb.setTy hty).mono le_rfl (Set.subset_insert _ _)
  · next ty hty =>
    have hty' : ty.Within env.locSet := by
      have := hb.ty
      rwa [hty] at this
    refine (Leads.of_safe Safe.freshName).bind fun x _ => ?_
    refine (leads_unpackTy hty').bind fun uty huty => .pure ?_
    -- the new location is bound only after the pointer to it is there
    have hlocs : env.locSet ⊆ insert (.abstract x) (insert loc env.locSet) :=
      (Set.subset_insert _ _).trans (Set.subset_insert _ _)
    have hptr : (binding.setTy (.strgRef (.abstract x))).Over Set.univ
        (insert (.abstract x) (insert loc env.locSet)) :=
      (hb.mono le_rfl hlocs).setTy (Set.mem_insert _ _)
    have hweak : (Binding.weak ty uty).Over Set.univ
        (insert (.abstract x) (insert loc env.locSet)) :=
      ⟨hty'.mono le_rfl hlocs, huty.mono le_rfl hlocs⟩
    rw [NoDangling, locSet_insert, locSet_insert]
    exact ((Over.mono le_rfl hlocs h).insert hptr).insert hweak
  · exact .pure h

/-- **An environment is unpacked.** -/
lemma leads_unpack (h : env.NoDangling) : Leads NoDangling (env.unpack tcx) :=
  .foldlM (fun loc _ _ h' => leads_unpackLoc h' loc) h

end TypeEnv

/-! ## Lowering -/

namespace Subst

variable {L : Set Loc} {subst : Subst}

/-- Lowering an expression runs into no dangling location. -/
lemma notDangling_lowerExpr (subst : Subst) (e : Core.Expr) :
    post (subst.lowerExpr e) (fun _ => True) (· ≠ .dangling) := by
  induction e with
  | var x symbol =>
    cases x with
    | bound => trivial
    | free x => exact post_orError.mpr ⟨fun _ _ => trivial, fun _ => by decide⟩
  | literal lit => trivial
  | binaryOp op e1 e2 ih1 ih2 =>
    rw [Subst.lowerExpr, post_bind]
    refine post_mono ih1 (fun e1 _ => ?_) fun _ h => h
    rw [post_bind]
    exact post_mono ih2 (fun _ _ => trivial) fun _ h => h

mutual

/-- **Types are lowered** to types whose pointers lead where the substitution leads. -/
lemma leads_lowerTy (h : subst.Over Set.univ L) : ∀ ty : Core.Ty,
    Leads (Ty.Within L) (subst.lowerTy ty)
  | .refine bty e => by
    rw [lowerTy]
    exact (leads_lowerBaseTy h bty).bind fun bty hbty =>
      (Leads.ofExcept (subst.notDangling_lowerExpr e)).bind fun e _ => .pure ⟨hbty, e.over_univ⟩
  | .exists_ bty .infer => by
    rw [lowerTy]
    exact (Leads.of_safe (Safe.freshKvar _)).bind fun p _ =>
      (leads_lowerBaseTy h bty).bind fun bty hbty => .pure ⟨hbty, p.over_univ⟩
  | .exists_ bty (.expr e) => by
    rw [lowerTy]
    exact (Leads.ofExcept (subst.notDangling_lowerExpr e)).bind fun e _ =>
      (leads_lowerBaseTy h bty).bind fun bty hbty => .pure ⟨hbty, e.over_univ⟩
  | .mutRef loc => by
    rw [lowerTy]
    exact (Leads.orFail (fun loc hloc => h.locations hloc) fun _ => by decide).bind
      fun loc hloc => .pure hloc
  | .param p => by
    rw [lowerTy]
    refine .pure ?_
    cases hty : subst.types[p.index]? with
    | none => trivial
    | some ty => exact h.types ty (List.mem_of_getElem? hty)

/-- Lowering a base type stays within the locations of the substitution. -/
lemma leads_lowerBaseTy (h : subst.Over Set.univ L) : ∀ bty : Core.BaseTy,
    Leads (fun bty => bty.Over Set.univ L) (subst.lowerBaseTy bty)
  | .int _ | .uint _ | .bool => by
    rw [lowerBaseTy]
    exact .pure trivial
  | .adt did substs => by
    rw [lowerBaseTy]
    exact (leads_lowerTys h substs).bind fun substs hsubsts => .pure hsubsts

/-- Lowering type arguments stays within the locations of the substitution. -/
lemma leads_lowerTys (h : subst.Over Set.univ L) : ∀ tys : List Core.Ty,
    Leads (fun tys => tys.Over Set.univ L) (subst.lowerTys tys)
  | [] => by
    rw [lowerTys]
    exact .pure trivial
  | ty :: tys => by
    rw [lowerTys]
    exact (leads_lowerTy h ty).bind fun ty hty =>
      (leads_lowerTys h tys).bind fun tys htys => .pure ⟨hty, htys⟩

end

/-- The types of type parameters have no pointers. -/
lemma leads_withTypeSubsts (types : List Core.Ty) :
    Leads (fun subst => subst.Over Set.univ L) (withTypeSubsts types) := by
  refine .foldlM (fun ty _ subst h => ?_) over_withEmptyTypeSubsts
  refine (leads_lowerTy h ty).bind fun ty hty => .pure ⟨h.exprs, h.locations, fun ty' hty' => ?_⟩
  rcases List.mem_append.mp hty' with hty' | hty'
  · exact h.types ty' hty'
  · exact List.mem_singleton.mp hty' ▸ hty

/-- Inferring from two types runs into no dangling location. -/
lemma notDangling_inferFromTys (subst : Subst) (ty1 : Ty) (ty2 : Core.Ty) :
    post (subst.inferFromTys ty1 ty2) (fun _ => True) (· ≠ .dangling) := by
  unfold Subst.inferFromTys
  split
  · split
    · split
      · exact fun h => nomatch h
      · trivial
    · trivial
  · split
    · split
      · exact fun h => nomatch h
      · trivial
    · trivial
  · trivial

/-- **The substitution of a call** leads where the arguments and the environment lead. -/
lemma leads_inferFromFnCall (h : subst.Over Set.univ L) {env : TypeEnv} (henv : env.Within L)
    {actuals : List Ty} (hactuals : ∀ ty ∈ actuals, ty.Within L) (fn_sig : Core.FnSig) :
    post (subst.inferFromFnCall env actuals fn_sig)
      (fun r => ∀ subst ∈ r, Over Set.univ L subst) (· ≠ .dangling) := by
  have htys : ∀ {subst : Subst} {ty1 : Ty} (ty2 : Core.Ty), subst.Over Set.univ L → ty1.Within L →
      post (subst.inferFromTys ty1 ty2) (·.Over Set.univ L) (· ≠ .dangling) := fun ty2 h h1 =>
    post_mono (post_and (h.inferFromTys h1 ty2) (notDangling_inferFromTys _ _ ty2))
      (fun _ h => h.1) fun _ h => h.2
  have hrequires : ∀ binding ∈ fn_sig.requires, ∀ subst : Subst, subst.Over Set.univ L →
      post (subst.inferFromRequires env binding) (·.Over Set.univ L) (· ≠ .dangling) := by
    intro binding _ subst h
    rw [inferFromRequires, post_bind, post_orError]
    refine ⟨fun loc hloc => ?_, fun _ => by decide⟩
    rw [post_bind, post_orError]
    exact ⟨fun ty hty => htys _ h (henv.types.lookupLoc hty), fun hnone =>
      absurd hnone (TypeEnv.lookupLoc_ne_none (henv.bound (h.locations hloc)))⟩
  unfold Subst.inferFromFnCall
  split
  · intro h
    cases h
  · rw [post_bind]
    refine post_mono (post_foldlM (I := Over Set.univ L) (fun p hp subst h =>
      htys p.2 h (hactuals p.1 (List.of_mem_zip hp).1)) h) (fun subst h => ?_) fun _ h => h
    rw [post_bind]
    refine post_mono (post_foldlM (I := Over Set.univ L) hrequires h) (fun subst h => ?_)
      fun _ h => h
    rw [post_pure]
    split
    · rintro _ ⟨⟩
      exact h
    · intro _ h
      cases h

end Subst

/-! ## Statements and calls -/

namespace Checker

open TypeEnv

variable {env : TypeEnv} {subst : Subst}

/-- `check_operand` leaves nothing dangling. -/
lemma checkOperand_noDangling (h : env.NoDangling) (op : Operand) :
    post (checkOperand env op) (fun r => OperandOk env r.1 r.2) (· ≠ .dangling) := by
  cases op with
  | copy p =>
    rw [checkOperand, post_bind]
    exact post_mono (h.lookupPlace p) (fun _ hty => ⟨h, hty, le_rfl⟩) fun _ h => h
  | move p => exact h.movePlace p
  | constant c =>
    refine ⟨h, ?_, le_rfl⟩
    cases c <;> exact ⟨trivial, trivial⟩

/-- The operands of a call leave nothing dangling, one after another. -/
lemma checkOperands_noDangling (h : env.NoDangling) (ops : List Operand) :
    post (checkOperands env ops) (fun r => r.1.NoDangling ∧ (∀ ty ∈ r.2, ty.Within r.1.locSet) ∧
      env.locSet ⊆ r.1.locSet) (· ≠ .dangling) := by
  induction ops generalizing env with
  | nil => exact ⟨h, fun _ h => (nomatch h), le_rfl⟩
  | cons op ops ih =>
    rw [checkOperands, post_bind]
    refine post_mono (checkOperand_noDangling h op) (fun r hr => ?_) fun _ h => h
    rw [post_bind]
    refine post_mono (ih hr.noDangling) (fun r' ⟨henv, htys, hlocs⟩ => ?_) fun _ h => h
    exact ⟨henv, List.forall_mem_cons.mpr ⟨hr.ty.mono le_rfl hlocs, htys⟩, hr.locs.trans hlocs⟩

/-- The result of a binary operator points nowhere. -/
lemma leads_checkBinaryOp (op : Core.Ir.BinOp) (ty1 ty2 : Ty) (L : Set Loc) :
    Leads (Ty.Within L) (checkBinaryOp op ty1 ty2) := by
  have harith : ∀ op, Leads (Ty.Within L) (checkArithOp op ty1 ty2) := by
    intro op
    unfold checkArithOp
    split
    · refine (Leads.of_safe (Safe.assert _)).bind fun _ _ => ?_
      split
      · exact (Leads.of_safe (Safe.pushHead _)).bind fun _ _ => .pure ⟨trivial, Expr.over_univ _⟩
      · exact .pure ⟨trivial, Expr.over_univ _⟩
    · refine (Leads.of_safe (Safe.assert _)).bind fun _ _ => ?_
      split
      · exact (Leads.of_safe (Safe.pushHead _)).bind fun _ _ => .pure ⟨trivial, Expr.over_univ _⟩
      · exact .pure ⟨trivial, Expr.over_univ _⟩
    · exact .throw (by decide)
  have hcmp : ∀ op, Leads (Ty.Within L) (checkCmpOp op ty1 ty2) := by
    intro op
    unfold checkCmpOp
    split
    · exact (Leads.of_safe (Safe.assert _)).bind fun _ _ => .pure ⟨trivial, Expr.over_univ _⟩
    · exact (Leads.of_safe (Safe.assert _)).bind fun _ _ => .pure ⟨trivial, Expr.over_univ _⟩
    · exact .throw (by decide)
  have heq : ∀ op, Leads (Ty.Within L) (checkEq op ty1 ty2) := by
    intro op
    unfold checkEq
    split
    · exact (Leads.of_safe (Safe.assert _)).bind fun _ _ => .pure ⟨trivial, Expr.over_univ _⟩
    · exact .throw (by decide)
  cases op with
  | eq | ne => exact heq _
  | add | sub | mul | div => exact harith _
  | gt | lt | le => exact hcmp _

/-- The result of a unary operator points nowhere. -/
lemma leads_checkUnaryOp (op : Core.Ir.UnOp) (ty : Ty) (L : Set Loc) :
    Leads (Ty.Within L) (checkUnaryOp op ty) := by
  unfold checkUnaryOp
  split
  · exact .pure ⟨trivial, Expr.over_univ _⟩
  · exact .pure ⟨trivial, Expr.over_univ _⟩
  · exact .throw (by decide)

/-- `check_rvalue` leaves nothing dangling. -/
lemma leads_checkRvalue (h : env.NoDangling) (rvalue : Rvalue) :
    Leads (fun r => r.1.NoDangling ∧ r.2.Within r.1.locSet) (checkRvalue env rvalue) := by
  cases rvalue with
  | use op =>
    exact (Leads.ofExcept (checkOperand_noDangling h op)).mono fun _ hr => ⟨hr.noDangling, hr.ty⟩
  | binaryOp op op1 op2 =>
    exact (Leads.ofExcept (checkOperand_noDangling h op1)).bind fun r1 h1 =>
      (Leads.ofExcept (checkOperand_noDangling h1.noDangling op2)).bind fun r2 h2 =>
      (leads_checkBinaryOp op r1.2 r2.2 r2.1.locSet).bind fun ty hty => .pure ⟨h2.noDangling, hty⟩
  | mutRef place =>
    exact (Leads.ofExcept (h.getLoc place)).bind fun loc hloc => .pure ⟨h, hloc⟩
  | unaryOp op op1 =>
    exact (Leads.ofExcept (checkOperand_noDangling h op1)).bind fun r1 h1 =>
      (leads_checkUnaryOp op r1.2 r1.1.locSet).bind fun ty hty => .pure ⟨h1.noDangling, hty⟩

/-- **Statements make no pointer dangle.** -/
lemma leads_checkStatement (tcx : Tcx) (h : env.NoDangling) (stmt : Statement) :
    Leads NoDangling (checkStatement tcx env stmt) := by
  cases stmt with
  | assign p rvalue =>
    exact (leads_checkRvalue h rvalue).bind fun r hr => leads_writePlace tcx hr.1 p hr.2
  | nop => exact .pure h

variable (tcx : Tcx)

/-- The parameters of a call run into no dangling location. -/
lemma leads_callParams (subst : Subst) (fn_sig : Core.FnSig) :
    Leads (fun _ => True) (callParams subst fn_sig) :=
  .forM fun param _ => (Leads.ofExcept (subst.notDangling_lowerExpr param.pred)).bind
    fun _ _ => .of_safe (Safe.pushHead _)

/-- The arguments of a call run into no dangling location. -/
lemma leads_callArgs {L : Set Loc} (h : subst.Over Set.univ L) (actuals : List Ty)
    (fn_sig : Core.FnSig) : Leads (fun _ => True) (callArgs tcx subst actuals fn_sig) :=
  .forM fun p _ => (Subst.leads_lowerTy h p.2).bind fun _ _ => .of_safe (Safe.subtyping tcx _ _)

/-- The locations of `requires` are bound. -/
lemma leads_callRequires (h : subst.Over Set.univ env.locSet) (fn_sig : Core.FnSig) :
    Leads (fun _ => True) (callRequires tcx env subst fn_sig) :=
  .forM fun p _ =>
    (Leads.orFail (R := (· ∈ env.locSet)) (fun _ hloc => h.locations hloc)
      fun _ => by decide).bind fun loc hloc =>
    (Leads.orFail (R := fun _ => True) (fun _ _ => trivial) fun hnone =>
      absurd hnone (lookupLoc_ne_none hloc)).bind fun _ _ =>
    (Subst.leads_lowerTy h p.2).bind fun _ _ => .of_safe (Safe.subtyping tcx _ _)

/-- **A binding of `ensures`**: a new location is bound. -/
lemma leads_callEnsures (h : env.NoDangling) (hsubst : subst.Over Set.univ env.locSet)
    (binding : Core.Name × Core.Ty) :
    Leads (fun r => r.1.NoDangling ∧ r.2.Over Set.univ r.1.locSet)
      (callEnsures tcx env subst binding) := by
  refine (Subst.leads_lowerTy hsubst binding.2).bind fun ty hty => ?_
  refine (leads_unpackTy hty).bind fun ty hty => ?_
  dsimp only
  cases subst.lowerLoc binding.1 with
  | some loc =>
    exact (leads_updateLoc tcx h hty).bind fun env' h' =>
      .pure ⟨h'.1, hsubst.mono le_rfl h'.2⟩
  | none =>
    refine (Leads.of_safe Safe.freshName).bind fun x _ => .pure ⟨h.insertLoc ?_, ?_⟩
    · exact hty.mono le_rfl (Set.subset_insert _ _)
    · rw [locSet_insertLoc]
      exact (hsubst.mono le_rfl (Set.subset_insert _ _)).insertLoc _ (Set.mem_insert _ _)

/-- Writing the result of a call leaves nothing dangling. -/
lemma leads_callReturn (h : env.NoDangling) (hsubst : subst.Over Set.univ env.locSet)
    (fn_sig : Core.FnSig) (p : Place) : Leads NoDangling (callReturn tcx env subst fn_sig p) :=
  (Subst.leads_lowerTy hsubst fn_sig.ret).bind fun _ hty =>
    (leads_unpackTy hty).bind fun _ hty => leads_writePlace tcx h p hty

/-- A return runs into no dangling location. -/
lemma leads_checkReturn (self : Checker) (env : TypeEnv) :
    Leads (fun _ => True) (self.checkReturn env) :=
  (Leads.ofExcept (R := fun _ => True)
    (post_orError.mpr ⟨fun _ _ => trivial, fun _ => by decide⟩)).bind fun _ _ =>
  (Leads.of_safe (Safe.subtyping _ _ _)).bind fun _ _ => .forM fun _ _ =>
  (Leads.orFail (R := fun _ => True) (fun _ _ => trivial) fun _ => by decide).bind fun _ _ =>
  .of_safe (Safe.subtyping _ _ _)

/-- The guard of a listed target runs into no dangling location. -/
lemma notDangling_switchGuard (ty : Ty) (bits : ℕ) :
    post (switchGuard ty bits) (fun _ => True) (· ≠ .dangling) := by
  unfold switchGuard
  split
  · split <;> trivial
  · rw [post_bind, post_orError]
    exact ⟨fun _ _ => trivial, fun _ => by decide⟩
  · trivial
  · exact fun h => nomatch h

/-- The guard of the `otherwise` target runs into no dangling location. -/
lemma notDangling_otherwiseGuard (ty : Ty) (targets : List (ℕ × BasicBlock)) :
    post (otherwiseGuard ty targets) (fun _ => True) (· ≠ .dangling) := by
  have hguards : post (targets.mapM fun p => switchGuard ty p.1) (fun _ => True)
      (· ≠ .dangling) := by
    induction targets with
    | nil => trivial
    | cons p targets ih =>
      rw [List.mapM_cons, post_bind]
      refine post_mono (notDangling_switchGuard ty p.1) (fun e _ => ?_) fun _ h => h
      rw [post_bind]
      exact post_mono ih (fun _ _ => trivial) fun _ h => h
  rw [otherwiseGuard, post_bind]
  refine post_mono hguards (fun es _ => ?_) fun _ h => h
  cases es.map Expr.not with
  | nil => trivial
  | cons e es => trivial

end Checker

end LiquidRust.Typeck
