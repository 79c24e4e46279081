import LiquidRust.Typeck.Closed

set_option relaxedAutoImplicit false
set_option autoImplicit false

/-!
# The steps of a check keep the tree closed

Operations on environments, statements and calls push nodes whose names are in scope, if this is
so of the environment they start from.

## Main results

* `LiquidRust.Typeck.TypeEnv.emits_writePlace`, `emits_unpack_env`, `emits_transformInto` — the
  operations on environments.
* `LiquidRust.Typeck.Checker.emits_checkStatement`, `emits_callEnsures`, `emits_checkReturn` —
  statements, calls and returns.
-/

namespace LiquidRust.Typeck

open Lib Cursor
open Core.Ir (BasicBlock BasicBlockData Place PlaceElem Operand Rvalue Statement Terminator
  SwitchTargets Body returnPlace)

/-! ## Operations on environments -/

namespace TypeEnv

variable {N : Set Name} {L : Set Loc} {env other : TypeEnv} {loc : Loc} {ty : Ty} {c : Cursor}

/-- Walking down a projection reaches a type over the same names. -/
lemma Over.walkProjection (h : env.Over N L) (hty : ty.Over N L) (projection : List PlaceElem) :
    post (env.walkProjection loc ty projection) (fun r => r.2.Over N L) (fun _ => True) := by
  induction projection generalizing loc ty with
  | nil => exact hty
  | cons elem projection ih =>
    cases ty with
    | strgRef referee =>
      rw [TypeEnv.walkProjection, post_bind, post_orError]
      exact ⟨fun ty hty => ih (h.lookupLoc hty), fun _ => trivial⟩
    | _ => trivial

/-- Walking down a place reaches a type over the same names. -/
lemma Over.walkPlace (h : env.Over N L) (place : Place) :
    post (env.walkPlace place) (fun r => r.2.Over N L) (fun _ => True) := by
  rw [TypeEnv.walkPlace, post_bind, post_orError]
  exact ⟨fun ty hty => h.walkProjection (h.lookupLoc hty) _, fun _ => trivial⟩

/-- `lookup_place` gives a type over the same names. -/
lemma Over.lookupPlace (h : env.Over N L) (place : Place) :
    post (env.lookupPlace place) (·.Over N L) (fun _ => True) := by
  rw [TypeEnv.lookupPlace, post_bind]
  exact post_mono (h.walkPlace place) (fun _ h => h) fun _ h => h

/-- `move_place` leaves environment and type over the same names. -/
lemma Over.movePlace (h : env.Over N L) (place : Place) :
    post (env.movePlace place) (fun r => r.1.Over N L ∧ r.2.Over N L) (fun _ => True) := by
  unfold TypeEnv.movePlace
  split
  · rw [post_bind, post_orError]
    exact ⟨fun ty hty => ⟨h.insertLoc trivial, h.lookupLoc hty⟩, fun _ => trivial⟩
  · trivial

/-- `weakening` brings no names in. -/
lemma Over.weakening (h : env.Over N L) (other : TypeEnv) : (env.weakening other).Over N L := by
  intro loc binding hb
  rw [TypeEnv.weakening, lookup_retain] at hb
  obtain ⟨binding', hb', hother⟩ := Option.bind_eq_some_iff.mp hb
  obtain ⟨ty, -, rfl⟩ := Option.map_eq_some_iff.mp hother
  split
  · trivial
  · exact h hb'

variable (tcx : Tcx)

/-- Environments whose names are in scope. -/
abbrev InScope (N : Set Name) (env : TypeEnv) : Prop :=
  env.Over N Set.univ

/-- `update_loc` emits closed nodes and keeps the environment in scope. -/
lemma emits_updateLoc (hc : c.Tidy) (h : env.InScope c.scope) (hty : ty.Over c.scope Set.univ) :
    Emits InScope (env.updateLoc tcx loc ty) c := by
  refine (Emits.orFail (R := fun N b => Binding.Over N Set.univ b) hc fun b hb => h hb).bind
    fun binding c' hc' hle hb => ?_
  cases binding with
  | strong _ => exact .pure hc' ((h.mono hle.scope le_rfl).insertLoc (hty.mono hle.scope le_rfl))
  | weak bound _ =>
    refine (emits_subtyping tcx hc' (hty.mono hle.scope le_rfl) hb.1).bind
      fun _ c'' hc'' hle' _ => ?_
    exact .pure hc'' (h.mono (hle.trans hle').scope le_rfl)

/-- `write_place` emits closed nodes and keeps the environment in scope. -/
lemma emits_writePlace (hc : c.Tidy) (h : env.InScope c.scope) (place : Place)
    (hty : ty.Over c.scope Set.univ) : Emits InScope (env.writePlace tcx place ty) c := by
  refine (Emits.ofExcept (R := AnyResult) hc (post_mono (h.walkPlace place) (fun _ _ => trivial)
    fun _ h => h)).bind fun p c' hc' hle _ => ?_
  have hupdate : Emits InScope (env.updateLoc tcx p.1 ty) c' :=
    emits_updateLoc tcx hc' (h.mono hle.scope le_rfl) (hty.mono hle.scope le_rfl)
  obtain ⟨loc, pty⟩ := p
  cases pty with
  | exists_ bty p => exact .throw
  | ref ty => exact .throw
  | _ => exact hupdate

/-- Unpacking at a location emits closed nodes and keeps the environment in scope. -/
lemma emits_unpackLoc (hc : c.Tidy) (h : env.InScope c.scope) (loc : Loc) :
    Emits InScope (env.unpackLoc loc) c := by
  refine (Emits.orFail (R := fun N b => Binding.Over N Set.univ b) hc fun b hb => h hb).bind
    fun binding c' hc' hle hb => ?_
  have h' := h.mono (M := Set.univ) hle.scope le_rfl
  dsimp only
  split
  · next bty p hty =>
    have hty' : (Ty.exists_ bty p).Over c'.scope Set.univ := hty ▸ hb.ty
    refine (emits_unpack hc' hty').bind fun ty c'' hc'' hle' hty'' => ?_
    exact .pure hc'' ((h'.mono hle'.scope le_rfl).insert
      ((hb.mono hle'.scope le_rfl).setTy hty''))
  · next ty hty =>
    have hty' : ty.Over c'.scope Set.univ := by
      have := hb.ty
      rwa [hty] at this
    refine (emits_freshName hc').bind fun x c'' hc'' hle' _ => ?_
    refine (emits_unpack hc'' (hty'.mono hle'.scope le_rfl)).bind fun uty c3 hc3 hle3 huty => ?_
    have hscope := (hle'.trans hle3).scope
    have hptr : (binding.setTy (.strgRef (.abstract x))).Over c3.scope Set.univ :=
      (hb.mono hscope le_rfl).setTy (Set.mem_univ _)
    have hweak : (Binding.weak ty uty).Over c3.scope Set.univ :=
      ⟨hty'.mono hscope le_rfl, huty⟩
    exact .pure hc3 (((h'.mono hscope le_rfl).insert hptr).insert hweak)
  · exact .pure hc' h'

/-- Unpacking the environment emits closed nodes and keeps it in scope. -/
lemma emits_unpack_env (hc : c.Tidy) (h : env.InScope c.scope) :
    Emits InScope (env.unpack tcx) c :=
  .foldlM hc h fun loc _ _ _ hc' _ h' => emits_unpackLoc hc' h' loc

/-! ## Join points -/

/-- The type at a strong location is in scope. -/
lemma emits_strongTy {f : Failure} (hc : c.Tidy) (h : env.InScope c.scope) :
    Emits (fun N ty => ty.Over N Set.univ) (env.strongTy f loc) c := by
  refine (Emits.orFail (R := fun N b => Binding.Over N Set.univ b) hc fun b hb => h hb).bind
    fun binding c' hc' _ hb => ?_
  cases binding with
  | strong ty => exact .pure hc' hb
  | weak bound ty => exact .throw

/-- `ref_weak` emits closed nodes and keeps the environment in scope. -/
lemma emits_refWeak : ∀ (env : TypeEnv) (loc : Loc) (bound : Ty) {c : Cursor}, c.Tidy →
    env.InScope c.scope → bound.Over c.scope Set.univ →
    Emits InScope (env.refWeak tcx loc bound) c
  | env, loc, .exists_ bty p, c, hc, h, hbound => by
    rw [refWeak]
    refine (emits_strongTy hc h).bind fun ty c' hc' hle hty => ?_
    refine (emits_subtyping tcx hc' hty (hbound.mono hle.scope le_rfl)).bind
      fun _ c'' hc'' hle' _ => ?_
    have hscope := (hle.trans hle').scope
    exact .pure hc'' ((h.mono hscope le_rfl).insertLoc (hbound.mono hscope le_rfl))
  | env, loc, .ref bound, c, hc, h, hbound => by
    rw [refWeak]
    refine (emits_strongTy hc h).bind fun ty c' hc' hle hty => ?_
    have hbound' := hbound.mono (M := Set.univ) hle.scope le_rfl
    cases ty with
    | strgRef loc2 =>
      refine (emits_refWeak env loc2 bound hc' (h.mono hle.scope le_rfl) hbound').bind
        fun env' c'' hc'' hle' h' => ?_
      exact .pure hc'' (h'.insertLoc (hbound'.mono hle'.scope le_rfl))
    | ref bound2 =>
      refine (emits_assert hc' _).bind fun _ c'' hc'' hle' _ => ?_
      exact .pure hc'' (h.mono (hle.trans hle').scope le_rfl)
    | _ => exact .throw
  | env, loc, .refine _ _, c, hc, h, _ | env, loc, .uninit, c, hc, h, _
  | env, loc, .strgRef _, c, hc, h, _ | env, loc, .param _, c, hc, h, _ => by
    rw [refWeak]
    exact (emits_strongTy hc h).bind fun _ _ _ _ _ => .throw

/-- A step of `transform_into` emits closed nodes and keeps the environment in scope. -/
lemma emits_transformLoc (hc : c.Tidy) (h : env.InScope c.scope) (hother : other.InScope c.scope)
    (loc : Loc) : Emits InScope (transformLoc tcx other env loc) c := by
  refine (emits_strongTy hc h).bind fun ty1 c1 hc1 hle1 hty1 => ?_
  refine (emits_strongTy hc1 (hother.mono hle1.scope le_rfl)).bind fun ty2 c2 hc2 hle2 hty2 => ?_
  have hty1' := hty1.mono (M := Set.univ) hle2.scope le_rfl
  have h2 := h.mono (M := Set.univ) (hle1.trans hle2).scope le_rfl
  dsimp only
  split
  · next bound =>
    have hbound : bound.Over c2.scope Set.univ := hty2
    refine (emits_refWeak tcx env _ bound hc2 h2 hbound).bind fun env' c3 hc3 hle3 h3 => ?_
    exact .pure hc3 (h3.insertLoc (hbound.mono hle3.scope le_rfl))
  · refine (emits_subtyping tcx hc2 hty1' hty2).bind fun _ c3 hc3 hle3 _ => ?_
    exact .pure hc3 ((h2.mono hle3.scope le_rfl).insertLoc (hty2.mono hle3.scope le_rfl))

/-- **The transformation at an edge**, if the environment of the join point is in scope. -/
lemma emits_transformInto (hc : c.Tidy) (h : env.InScope c.scope)
    (hother : other.InScope c.scope) : Emits InScope (env.transformInto tcx other) c := by
  refine (Emits.ofExcept (R := AnyResult) hc
    (post_of_forall (fun _ => trivial) fun _ => trivial)).bind
    fun levels c' hc' hle _ => ?_
  refine .foldlM hc' ((h.weakening other).mono hle.scope le_rfl)
    fun loc _ env' c'' hc'' hle' h' => ?_
  exact emits_transformLoc tcx hc'' h' (hother.mono (hle.trans hle').scope le_rfl) loc

/-- The environment of a join point is made without pushing a node. -/
lemma wp_inferBbEnv_quiet (env : TypeEnv) (shape : TypeEnvShape) (c : Cursor) :
    wp (env.inferBbEnv shape) (fun _ c' => c.Quiet c') (fun _ => True) c := by
  rw [inferBbEnv, wp_bind]
  have hcollect : wp ((shape.flatMap fun p => p.2.walk).foldlM collectKvar fun _ => none)
      (fun _ c' => c.Quiet c') (fun _ => True) c := by
    refine wp_foldlM (I := fun _ c' => c.Quiet c') (fun ty _ kvars c' hq => ?_) (.refl c)
    unfold collectKvar
    split
    · split
      · exact hq
      · rw [wp_bind]
        exact wp_imp (wp_freshKvarAtLastScope_quiet _) fun _ _ hq' => hq.trans hq'
    · exact hq
  refine wp_imp hcollect fun kvars c' hq => ?_
  refine wp_foldlM (I := fun _ c' => c.Quiet c') (fun p _ bbEnv c' hq => ?_) hq
  rw [wp_bind, wp_orFail]
  refine ⟨fun ty2 _ => ?_, fun _ => trivial⟩
  rw [wp_bind, wp_orFail]
  exact ⟨fun ty _ => hq, fun _ => trivial⟩

end TypeEnv

/-! ## Statements and calls -/

namespace Checker

open TypeEnv

variable {N : Set Name} {L : Set Loc} {env : TypeEnv} {subst : Subst} {c : Cursor}

/-- `check_operand` leaves environment and type over the same names. -/
lemma checkOperand_over (h : env.Over N L) (op : Operand) :
    post (checkOperand env op) (fun r => r.1.Over N L ∧ r.2.Over N L) (fun _ => True) := by
  cases op with
  | copy p =>
    rw [checkOperand, post_bind]
    exact post_mono (h.lookupPlace p) (fun _ hty => ⟨h, hty⟩) fun _ h => h
  | move p => exact h.movePlace p
  | constant c =>
    refine ⟨h, ?_⟩
    cases c <;> exact ⟨trivial, trivial⟩

/-- The operands of a call leave environment and types over the same names. -/
lemma checkOperands_over (h : env.Over N L) (ops : List Operand) :
    post (checkOperands env ops) (fun r => r.1.Over N L ∧ ∀ ty ∈ r.2, ty.Over N L)
      (fun _ => True) := by
  induction ops generalizing env with
  | nil => exact ⟨h, fun _ h => nomatch h⟩
  | cons op ops ih =>
    rw [checkOperands, post_bind]
    refine post_mono (checkOperand_over h op) (fun r ⟨henv, hty⟩ => ?_) fun _ h => h
    rw [post_bind]
    exact post_mono (ih henv) (fun r' ⟨henv', htys⟩ =>
      ⟨henv', List.forall_mem_cons.mpr ⟨hty, htys⟩⟩)
      fun _ h => h

/-- A type with a base type that has no arguments. -/
lemma over_refine {bty : BaseTy} {e : Expr} (hbty : ∀ {N : Set Name} {L : Set Loc}, bty.Over N L)
    (he : e.Over N) : (Ty.refine bty e).Over N L :=
  ⟨hbty, he⟩

/-- Types with an index of types whose names are in scope. -/
abbrev TyInScope (N : Set Name) (ty : Ty) : Prop :=
  ty.Over N Set.univ

/-- `check_binary_op` emits closed nodes and gives a type in scope. -/
lemma emits_checkBinaryOp (hc : c.Tidy) (op : Core.Ir.BinOp) {ty1 ty2 : Ty}
    (h1 : TyInScope c.scope ty1) (h2 : TyInScope c.scope ty2) :
    Emits TyInScope (checkBinaryOp op ty1 ty2) c := by
  have harith : ∀ op, Emits TyInScope (checkArithOp op ty1 ty2) c := by
    intro op
    have hdone : ∀ {bty : BaseTy} {e1 e2 : Expr} {b : Bool},
        (∀ {N : Set Name} {L : Set Loc}, bty.Over N L) → e1.Over c.scope → e2.Over c.scope →
        Emits TyInScope (do
          assert b
          if op = .div then pushHead (.expr (.binaryOp .ne e2 .zero))
          pure (.refine bty (.binaryOp op e1 e2))) c := by
      intro bty e1 e2 b hbty he1 he2
      refine (emits_assert hc _).bind fun _ c' hc' hle _ => ?_
      have he : (Expr.binaryOp op e1 e2).Over c'.scope :=
        ⟨he1.mono hle.scope, he2.mono hle.scope⟩
      split
      · have hhead : (Pred.expr (.binaryOp .ne e2 .zero)).Over c'.scope :=
          ⟨he2.mono hle.scope, trivial⟩
        refine (emits_pushHead hc' hhead).bind fun _ c'' hc'' hle' _ => ?_
        exact .pure hc'' (over_refine hbty (he.mono hle'.scope))
      · exact .pure hc' (over_refine hbty he)
    unfold checkArithOp
    split
    · exact hdone trivial h1.2 h2.2
    · exact hdone trivial h1.2 h2.2
    · exact .throw
  have hcmp : ∀ op, Emits TyInScope (checkCmpOp op ty1 ty2) c := by
    intro op
    unfold checkCmpOp
    split
    · exact (emits_assert hc _).bind fun _ c' hc' hle _ =>
        .pure hc' (over_refine trivial ⟨h1.2.mono hle.scope, h2.2.mono hle.scope⟩)
    · exact (emits_assert hc _).bind fun _ c' hc' hle _ =>
        .pure hc' (over_refine trivial ⟨h1.2.mono hle.scope, h2.2.mono hle.scope⟩)
    · exact .throw
  have heq : ∀ op, Emits TyInScope (checkEq op ty1 ty2) c := by
    intro op
    unfold checkEq
    split
    · exact (emits_assert hc _).bind fun _ c' hc' hle _ =>
        .pure hc' (over_refine trivial ⟨h1.2.mono hle.scope, h2.2.mono hle.scope⟩)
    · exact .throw
  cases op with
  | eq | ne => exact heq _
  | add | sub | mul | div => exact harith _
  | gt | lt | le => exact hcmp _

/-- `check_unary_op` emits closed nodes and gives a type in scope. -/
lemma emits_checkUnaryOp (hc : c.Tidy) (op : Core.Ir.UnOp) {ty : Ty}
    (h : TyInScope c.scope ty) : Emits TyInScope (checkUnaryOp op ty) c := by
  unfold checkUnaryOp
  split
  · exact .pure hc ⟨trivial, h.2⟩
  · exact .pure hc ⟨trivial, h.2⟩
  · exact .throw

/-- `check_rvalue` emits closed nodes and gives a type in scope. -/
lemma emits_checkRvalue (hc : c.Tidy) (h : env.InScope c.scope) (rvalue : Rvalue) :
    Emits (fun N r => InScope N r.1 ∧ TyInScope N r.2) (checkRvalue env rvalue) c := by
  cases rvalue with
  | use op => exact .ofExcept hc (checkOperand_over h op)
  | binaryOp op op1 op2 =>
    refine (Emits.ofExcept (R := fun N r => InScope N r.1 ∧ TyInScope N r.2) hc
      (checkOperand_over h op1)).bind fun r1 c1 hc1 hle1 h1 => ?_
    refine (Emits.ofExcept (R := fun N r => InScope N r.1 ∧ TyInScope N r.2) hc1
      (checkOperand_over h1.1 op2)).bind fun r2 c2 hc2 hle2 h2 => ?_
    refine (emits_checkBinaryOp hc2 op (h1.2.mono hle2.scope le_rfl) h2.2).bind
      fun ty c3 hc3 hle3 hty => ?_
    exact .pure hc3 ⟨h2.1.mono hle3.scope le_rfl, hty⟩
  | mutRef place =>
    refine (Emits.ofExcept (R := AnyResult) hc
      (post_of_forall (fun _ => trivial) fun _ => trivial)).bind fun loc c' hc' hle _ => ?_
    exact .pure hc' ⟨h.mono hle.scope le_rfl, Set.mem_univ _⟩
  | unaryOp op op1 =>
    refine (Emits.ofExcept (R := fun N r => InScope N r.1 ∧ TyInScope N r.2) hc
      (checkOperand_over h op1)).bind fun r1 c1 hc1 hle1 h1 => ?_
    refine (emits_checkUnaryOp hc1 op h1.2).bind fun ty c2 hc2 hle2 hty => ?_
    exact .pure hc2 ⟨h1.1.mono hle2.scope le_rfl, hty⟩

/-- `check_statement` emits closed nodes and keeps the environment in scope. -/
lemma emits_checkStatement (tcx : Tcx) (hc : c.Tidy) (h : env.InScope c.scope)
    (stmt : Statement) : Emits InScope (checkStatement tcx env stmt) c := by
  cases stmt with
  | assign p rvalue =>
    exact (emits_checkRvalue hc h rvalue).bind fun r c' hc' hle hr =>
      emits_writePlace tcx hc' hr.1 p hr.2
  | nop => exact .pure hc h

/-- Substitutions whose names are in scope. -/
abbrev SubstInScope (N : Set Name) (subst : Subst) : Prop :=
  subst.Over N Set.univ

/-- Lowering by a substitution in scope gives a type in scope. -/
lemma emits_lowerTy (hc : c.Tidy) (h : SubstInScope c.scope subst) (ty : Core.Ty) :
    Emits TyInScope (subst.lowerTy ty) c :=
  .quiet hc (Subst.wp_lowerTy_over h c le_rfl ty)

/-- The constraints of the parameters of a call are closed. -/
lemma emits_callParams (hc : c.Tidy) (h : SubstInScope c.scope subst) (fn_sig : Core.FnSig) :
    Emits AnyResult (callParams subst fn_sig) c := by
  refine .forM hc fun param _ c' hc' hle => ?_
  refine (Emits.ofExcept (R := fun N e => Expr.Over N e) hc'
    ((h.mono hle.scope le_rfl).lowerExpr param.pred)).bind fun e c'' hc'' _ he => ?_
  exact emits_pushHead hc'' he

variable (tcx : Tcx)

/-- The constraints of the arguments of a call are closed. -/
lemma emits_callArgs (hc : c.Tidy) (h : SubstInScope c.scope subst) {actuals : List Ty}
    (hactuals : ∀ ty ∈ actuals, TyInScope c.scope ty) (fn_sig : Core.FnSig) :
    Emits AnyResult (callArgs tcx subst actuals fn_sig) c := by
  refine .forM hc fun p hp c' hc' hle => ?_
  refine (emits_lowerTy hc' (h.mono hle.scope le_rfl) p.2).bind fun ty c'' hc'' hle' hty => ?_
  exact emits_subtyping tcx hc''
    ((hactuals p.1 (List.of_mem_zip hp).1).mono (hle.trans hle').scope le_rfl) hty

/-- The constraints of the locations that a call requires are closed. -/
lemma emits_callRequires (hc : c.Tidy) (henv : env.InScope c.scope)
    (h : SubstInScope c.scope subst) (fn_sig : Core.FnSig) :
    Emits AnyResult (callRequires tcx env subst fn_sig) c := by
  refine .forM hc fun p _ c' hc' hle => ?_
  refine (Emits.orFail (R := AnyResult) hc' fun _ _ => trivial).bind fun loc c1 hc1 hle1 _ => ?_
  refine (Emits.orFail (R := TyInScope) hc1 fun ty hty =>
    (henv.mono (hle.trans hle1).scope le_rfl).lookupLoc hty).bind fun ty c2 hc2 hle2 hty => ?_
  have hscope := ((hle.trans hle1).trans hle2).scope
  refine (emits_lowerTy hc2 (h.mono hscope le_rfl) p.2).bind fun ty' c3 hc3 hle3 hty' => ?_
  exact emits_subtyping tcx hc3 (hty.mono hle3.scope le_rfl) hty'

/-- What a call ensures emits closed nodes and stays in scope. -/
lemma emits_callEnsures (hc : c.Tidy) (henv : env.InScope c.scope)
    (h : SubstInScope c.scope subst) (binding : Core.Name × Core.Ty) :
    Emits (fun N r => InScope N r.1 ∧ SubstInScope N r.2)
      (callEnsures tcx env subst binding) c := by
  refine (emits_lowerTy hc h binding.2).bind fun ty c1 hc1 hle1 hty => ?_
  refine (emits_unpack hc1 hty).bind fun ty c2 hc2 hle2 hty => ?_
  have hscope := (hle1.trans hle2).scope
  dsimp only
  cases subst.lowerLoc binding.1 with
  | some loc =>
    refine (emits_updateLoc tcx hc2 (henv.mono hscope le_rfl) hty).bind
      fun env c3 hc3 hle3 henv => ?_
    exact .pure hc3 ⟨henv, h.mono (hscope.trans hle3.scope) le_rfl⟩
  | none =>
    refine (emits_freshName hc2).bind fun x c3 hc3 hle3 _ => ?_
    have hscope' := hscope.trans hle3.scope
    exact .pure hc3 ⟨(henv.mono hscope' le_rfl).insertLoc (hty.mono hle3.scope le_rfl),
      (h.mono hscope' le_rfl).insertLoc _ (Set.mem_univ _)⟩

/-- Writing the result of a call keeps the environment in scope. -/
lemma emits_callReturn (hc : c.Tidy) (henv : env.InScope c.scope)
    (h : SubstInScope c.scope subst) (fn_sig : Core.FnSig) (p : Place) :
    Emits InScope (callReturn tcx env subst fn_sig p) c := by
  refine (emits_lowerTy hc h fn_sig.ret).bind fun ty c1 hc1 hle1 hty => ?_
  refine (emits_unpack hc1 hty).bind fun ty c2 hc2 hle2 hty => ?_
  exact emits_writePlace tcx hc2 (henv.mono (hle1.trans hle2).scope le_rfl) p hty

/-- The return type and the types that are ensured are in scope where the body starts. -/
structure ResultInScope (checker : Checker) (N : Set Name) : Prop where
  retTy : TyInScope N checker.retTy
  ensures : ∀ p ∈ checker.ensures, TyInScope N p.2

/-- What the signature returns is in scope of more names too. -/
lemma ResultInScope.mono {self : Checker} {N' : Set Name} (hN : N ⊆ N')
    (h : self.ResultInScope N) : self.ResultInScope N' :=
  ⟨h.retTy.mono hN le_rfl, fun p hp => (h.ensures p hp).mono hN le_rfl⟩

/-- The constraints of a return are closed. -/
lemma emits_checkReturn {self : Checker} (hc : c.Tidy) (henv : env.InScope c.scope)
    (h : self.ResultInScope c.scope) : Emits AnyResult (self.checkReturn env) c := by
  refine (Emits.ofExcept (R := TyInScope) hc (post_orError.mpr
    ⟨fun ty hty => henv.lookupLoc hty, fun _ => trivial⟩)).bind fun ty c1 hc1 hle1 hty => ?_
  have h1 := h.mono hle1.scope
  refine (emits_subtyping _ hc1 hty h1.retTy).bind fun _ c2 hc2 hle2 _ => ?_
  refine .forM hc2 fun p hp c3 hc3 hle3 => ?_
  have hscope := ((hle1.trans hle2).trans hle3).scope
  refine (Emits.orFail (R := TyInScope) hc3 fun ty hty =>
    (henv.mono hscope le_rfl).lookupLoc hty).bind fun ty c4 hc4 hle4 hty => ?_
  exact emits_subtyping _ hc4 hty
    ((h1.ensures p hp).mono (hle2.trans (hle3.trans hle4)).scope le_rfl)

/-- The guard of a listed target is over the names of the discriminant. -/
lemma switchGuard_over {ty : Ty} (hty : ty.Over N L) (bits : ℕ) :
    post (switchGuard ty bits) (·.Over N) (fun _ => True) := by
  unfold switchGuard
  split
  · split
    · exact hty.2
    · exact hty.2
  · rw [post_bind, post_orError]
    refine ⟨fun c hc => ?_, fun _ => trivial⟩
    obtain ⟨k, -, rfl⟩ := Option.map_eq_some_iff.mp hc
    exact ⟨hty.2, trivial⟩
  · exact ⟨hty.2, trivial⟩
  · trivial

/-- The guard of the `otherwise` target is over the names of the discriminant. -/
lemma otherwiseGuard_over {ty : Ty} (hty : ty.Over N L) (targets : List (ℕ × BasicBlock)) :
    post (otherwiseGuard ty targets) (fun e => ∀ e' ∈ e, e'.Over N) (fun _ => True) := by
  have hguards : post (targets.mapM fun p => switchGuard ty p.1) (fun es => ∀ e ∈ es, e.Over N)
      (fun _ => True) := by
    induction targets with
    | nil => exact fun _ h => nomatch h
    | cons p targets ih =>
      rw [List.mapM_cons, post_bind]
      refine post_mono (switchGuard_over hty p.1) (fun e he => ?_) fun _ h => h
      rw [post_bind]
      exact post_mono ih (fun es hes => List.forall_mem_cons.mpr ⟨he, hes⟩) fun _ h => h
  rw [otherwiseGuard, post_bind]
  refine post_mono hguards (fun es hes => ?_) fun _ h => h
  have hnot : ∀ e ∈ es.map Expr.not, e.Over N := by
    intro e he
    obtain ⟨e', he', rfl⟩ := List.mem_map.mp he
    exact hes e' he'
  cases hmap : es.map Expr.not with
  | nil => exact fun _ h => nomatch h
  | cons e es' =>
    rw [hmap] at hnot
    obtain ⟨he, hes'⟩ := List.forall_mem_cons.mp hnot
    rintro _ ⟨⟩
    clear hmap hnot
    induction es' generalizing e with
    | nil => exact he
    | cons e' es' ih =>
      obtain ⟨he', hes'⟩ := List.forall_mem_cons.mp hes'
      exact ih _ ⟨he, he'⟩ hes'

end Checker

end LiquidRust.Typeck
