import LiquidRust.Typeck.ClosedSteps
import LiquidRust.Typeck.Trace

set_option relaxedAutoImplicit false
set_option autoImplicit false

/-!
# The constraint of a check is closed

In the check, the environment of a join point is used at the edges to it and where it is taken up.
If its names are in scope at all these places, the constraint that is built is closed.

## Main definitions

* `LiquidRust.Typeck.Event.Scoped` — the condition on the events of a run.

## Main results

* `LiquidRust.Typeck.GlobalEnv.check_closed` — the constraint of a check is closed if all its
  events meet the condition.
-/

namespace LiquidRust.Typeck

open Lib Cursor TypeEnv
open Core.Ir (BasicBlock BasicBlockData Place Operand Statement Terminator SwitchTargets Body
  returnPlace)

/-- **The names of a join point's environment are in scope** at an edge to it, and where the join
point is taken up. -/
def Event.Scoped : Event → Prop
  | .edge _ _ (some bbEnv) _ cursor => bbEnv.InScope cursor.scope
  | .takeUp _ bbEnv cursor => bbEnv.InScope cursor.scope
  | .edge _ _ none _ _ | .block _ | .env _ | .shape _ _ _ => True

instance (e : Event) : Decidable e.Scoped :=
  match e with
  | .edge _ _ (some bbEnv) _ cursor =>
    inferInstanceAs (Decidable (bbEnv.Over cursor.scope Set.univ))
  | .takeUp _ bbEnv cursor => inferInstanceAs (Decidable (bbEnv.Over cursor.scope Set.univ))
  | .edge _ _ none _ _ | .block _ | .env _ | .shape _ _ _ => .isTrue trivial

/-- A state of a check whose tree is closed. -/
structure State.Tidy (s : State) : Prop where
  cursor : s.cursor.Tidy
  mode : ∃ shapes, s.mode = .check shapes

variable {α β : Type}

/-! ## Steps -/

/-- Steps that keep the tree closed. -/
def Runs (R : Set Name → α → Prop) (m : CheckM α) (s : State) : Prop :=
  wp m (fun a s' => s'.Tidy ∧ s.cursor.Le s'.cursor ∧ R s'.cursor.scope a) (fun _ => True) s

/-- Steps that keep the tree closed if their events meet the condition. -/
def RunsIf (R : Set Name → α → Prop) (m : CheckM α) (s : State) : Prop :=
  wpIf Event.Scoped m (fun a s' => s'.Tidy ∧ s.cursor.Le s'.cursor ∧ R s'.cursor.scope a)
    (fun _ => True) s

section Steps

variable {R : Set Name → α → Prop} {S : Set Name → β → Prop} {m : CheckM α} {s : State}

/-- Returning keeps the state tidy. -/
lemma Runs.pure {a : α} (hs : s.Tidy) (h : R s.cursor.scope a) : Runs R (Pure.pure a) s :=
  ⟨hs, .refl _, h⟩

/-- Stopping keeps the state tidy. -/
lemma Runs.stop {e : Stop} : Runs R (Typeck.stop e) s :=
  trivial

/-- One step after another keeps the state tidy if each does. -/
lemma Runs.bind {k : α → CheckM β} (hm : Runs R m s)
    (hk : ∀ a s', s'.Tidy → s.cursor.Le s'.cursor → R s'.cursor.scope a → Runs S (k a) s') :
    Runs S (m >>= k) s := by
  rw [Runs, wp_bind]
  refine wp_imp hm fun a s' ⟨hs', hle, ha⟩ => ?_
  exact wp_imp (hk a s' hs' hle ha) fun b s'' ⟨hs'', hle', hb⟩ => ⟨hs'', hle.trans hle', hb⟩

/-- A cursor operation that emits closed nodes keeps the state tidy. -/
lemma Runs.liftCursor {m : CursorM α} (hs : s.Tidy) (hm : Emits R m s.cursor) :
    Runs R (Typeck.liftCursor m) s := by
  rw [Runs, wp_liftCursor]
  exact wp_imp hm fun a c ⟨hc, hle, ha⟩ => ⟨⟨hc, hs.mode⟩, hle, ha⟩

/-- Recording an event keeps the state tidy. -/
lemma Runs.record {e : Event} (hs : s.Tidy) : Runs AnyResult (Typeck.record e) s :=
  ⟨⟨hs.cursor, hs.mode⟩, .refl _, trivial⟩

/-- A fold keeps the state tidy if each of its steps does. -/
lemma Runs.foldlM {γ : Type} {k : β → γ → CheckM β} {l : List γ} {b : β} (hs : s.Tidy)
    (hb : S s.cursor.scope b) (hk : ∀ a b s', s'.Tidy → S s'.cursor.scope b →
      Runs S (k b a) s') : Runs S (l.foldlM k b) s := by
  induction l generalizing b s with
  | nil => exact .pure hs hb
  | cons a l ih => exact (hk a b s hs hb).bind fun b s' hs' _ hb' => ih hs' hb'

/-- What keeps the state tidy does so if the events keep names in scope. -/
lemma Runs.runsIf (h : Runs R m s) : RunsIf R m s :=
  wpIf_of_wp h

/-- Steps without a condition, and then steps with one. -/
lemma RunsIf.of_runs {k : α → CheckM β} (hm : Runs R m s)
    (hk : ∀ a s', s'.Tidy → s.cursor.Le s'.cursor → R s'.cursor.scope a → RunsIf S (k a) s') :
    RunsIf S (m >>= k) s := by
  refine wpIf_bind_of_wp (wp_imp hm fun a s' ⟨hs', hle, ha⟩ => ?_)
  exact wpIf_imp (hk a s' hs' hle ha) fun b s'' ⟨hs'', hle', hb⟩ => ⟨hs'', hle.trans hle', hb⟩

/-- Steps with a condition, one after the other. -/
lemma RunsIf.bind {k : α → CheckM β} (hext : ∀ a, Extends (k a)) (hm : RunsIf R m s)
    (hk : ∀ a s', s'.Tidy → s.cursor.Le s'.cursor → R s'.cursor.scope a → RunsIf S (k a) s') :
    RunsIf S (m >>= k) s := by
  refine wpIf_bind hext (wpIf_imp hm fun a s' ⟨hs', hle, ha⟩ _ => ?_)
  refine wpIf_imp (hk a s' hs' hle ha) fun b s'' ⟨hs'', hle', hb⟩ => ⟨hs'', hle.trans hle', hb⟩

/-- What comes after an event may assume that it meets the condition. -/
lemma RunsIf.record {e : Event} {k : Unit → CheckM β} (hs : s.Tidy) (hext : ∀ a, Extends (k a))
    (hk : e.Scoped → ∀ s', s'.cursor = s.cursor → s'.Tidy → RunsIf S (k ()) s') :
    RunsIf S (Typeck.record e >>= k) s :=
  wpIf_bind hext (wpIf_record fun he _ => hk he _ rfl ⟨hs.cursor, hs.mode⟩)

/-- A snapshot keeps the state tidy, if what runs in it does. -/
lemma RunsIf.withSnapshot (hs : s.Tidy) (hm : RunsIf AnyResult m s) :
    RunsIf AnyResult (Typeck.withSnapshot m) s :=
  wpIf_withSnapshot (wpIf_imp hm fun _ _ ⟨hs', hle, _⟩ =>
    ⟨⟨hle.tidy_restore hs.cursor hs'.cursor, hs'.mode⟩, hle.restore, trivial⟩)

/-- A loop keeps the state tidy, if each of its steps does. -/
lemma RunsIf.forM {γ : Type} {k : γ → CheckM PUnit} {l : List γ} (hs : s.Tidy)
    (hext : ∀ a, Extends (k a))
    (hk : ∀ a s', s'.Tidy → s.cursor.Le s'.cursor → RunsIf AnyResult (k a) s') :
    RunsIf AnyResult (l.forM k) s := by
  induction l generalizing s with
  | nil => exact (Runs.pure hs trivial).runsIf
  | cons a l ih =>
    refine .bind (fun _ => .forM fun a _ => hext a) (hk a s hs (.refl _)) fun _ s' hs' hle _ => ?_
    exact ih hs' fun a s'' hs'' hle' => hk a s'' hs'' (hle.trans hle')

end Steps

/-! ## Blocks -/

namespace Checker

variable {self : Checker} {env : TypeEnv} {s : State}

/-- `check_call`, once its substitution is inferred, keeps the state tidy. -/
lemma runs_checkCallWith (hs : s.Tidy) (henv : env.InScope s.cursor.scope) {subst : Subst}
    (hsubst : SubstInScope s.cursor.scope subst) {actuals : List Ty}
    (hactuals : ∀ ty ∈ actuals, TyInScope s.cursor.scope ty) (fn_sig : Core.FnSig)
    (destination : Option (Place × BasicBlock)) :
    Runs (fun N r => ∀ p ∈ r, p.1.InScope N)
      (self.checkCallWith env subst actuals fn_sig destination) s := by
  rw [checkCallWith]
  dsimp only
  refine (Runs.liftCursor hs (emits_callParams hs.cursor hsubst fn_sig)).bind
    fun _ s1 hs1 hle1 _ => ?_
  refine (Runs.liftCursor hs1 (emits_callArgs _ hs1.cursor (hsubst.mono hle1.scope le_rfl)
    (fun ty hty => (hactuals ty hty).mono hle1.scope le_rfl) fn_sig)).bind fun _ s2 hs2 hle2 _ => ?_
  have hscope := (hle1.trans hle2).scope
  refine (Runs.liftCursor hs2 (emits_callRequires _ hs2.cursor (henv.mono hscope le_rfl)
    (hsubst.mono hscope le_rfl) fn_sig)).bind fun _ s3 hs3 hle3 _ => ?_
  have hscope := hscope.trans hle3.scope
  refine (Runs.foldlM (S := fun N r => InScope N r.1 ∧ SubstInScope N r.2) hs3
    ⟨henv.mono hscope le_rfl, hsubst.mono hscope le_rfl⟩ fun binding p s' hs' hp => ?_).bind
    fun p s4 hs4 hle4 hp => ?_
  · refine (Runs.liftCursor hs' (emits_callEnsures _ hs'.cursor hp.1 hp.2 binding)).bind
      fun p s'' hs'' _ hp => ?_
    refine (Runs.record hs'').bind fun _ s3 hs3 hle _ => ?_
    exact .pure hs3 ⟨hp.1.mono hle.scope le_rfl, hp.2.mono hle.scope le_rfl⟩
  · cases destination with
    | none => exact .pure hs4 fun _ h => nomatch h
    | some d =>
      refine (Runs.liftCursor hs4 (emits_callReturn _ hs4.cursor hp.1 hp.2 fn_sig d.1)).bind
        fun env s5 hs5 _ henv => ?_
      refine (Runs.record hs5).bind fun _ s6 hs6 hle6 _ => ?_
      refine .pure hs6 ?_
      rintro _ ⟨⟩
      exact henv.mono hle6.scope le_rfl

/-- `check_call` keeps the state tidy. -/
lemma runs_checkCall (hs : s.Tidy) (henv : env.InScope s.cursor.scope) (func : DefId)
    (substs : List Core.Ty) (args : List Operand) (destination : Option (Place × BasicBlock)) :
    Runs (fun N r => ∀ p ∈ r, p.1.InScope N)
      (self.checkCall env func substs args destination) s := by
  refine (Runs.liftCursor hs (Emits.orFail (R := AnyResult) hs.cursor fun _ _ => trivial)).bind
    fun fn_sig s1 hs1 hle1 _ => ?_
  refine (Runs.liftCursor hs1 (Emits.ofExcept (R := fun N r => InScope N r.1 ∧ ∀ ty ∈ r.2,
    TyInScope N ty) hs1.cursor (checkOperands_over (henv.mono hle1.scope le_rfl) args))).bind
    fun r s2 hs2 hle2 hr => ?_
  obtain ⟨env, actuals⟩ := r
  refine (Runs.record hs2).bind fun _ s3 hs3 hle3 _ => ?_
  refine (Runs.liftCursor hs3 (Emits.quiet (R := SubstInScope) hs3.cursor
    (Subst.wp_withTypeSubsts_over le_rfl substs))).bind fun subst s4 hs4 hle4 hsubst => ?_
  have hscope := (hle3.trans hle4).scope
  have henv' := hr.1.mono (M := Set.univ) hscope le_rfl
  have hactuals : ∀ ty ∈ actuals, TyInScope s4.cursor.scope ty :=
    fun ty hty => (hr.2 ty hty).mono hscope le_rfl
  refine (Runs.liftCursor hs4 (Emits.ofExcept (R := fun N r => ∀ subst ∈ r, SubstInScope N subst)
    hs4.cursor (Subst.inferFromFnCall_over hsubst henv' hactuals fn_sig))).bind
    fun r s5 hs5 hle5 hr => ?_
  cases r with
  | none => exact .stop
  | some subst =>
    exact runs_checkCallWith hs5 (henv'.mono hle5.scope le_rfl) (hr subst rfl)
      (fun ty hty => (hactuals ty hty).mono hle5.scope le_rfl) fn_sig destination

/-- The statements of a block keep the state tidy. -/
lemma runs_checkStatements (hs : s.Tidy) (henv : env.InScope s.cursor.scope)
    (statements : List Statement) : Runs InScope (self.checkStatements env statements) s := by
  refine Runs.foldlM hs henv fun stmt env s' hs' henv => ?_
  refine (Runs.liftCursor hs' (emits_checkStatement _ hs'.cursor henv stmt)).bind
    fun env s'' hs'' _ henv => ?_
  refine (Runs.record hs'').bind fun _ s3 hs3 hle _ => ?_
  exact .pure hs3 (henv.mono hle.scope le_rfl)

/-- Entering a block keeps the state tidy. -/
lemma runs_enterBlock (hs : s.Tidy) (bb : BasicBlock) : Runs AnyResult (self.enterBlock bb) s := by
  have hmodify : Runs AnyResult
      (modify fun s => { s with visited := bb :: s.visited } : CheckM PUnit) s :=
    ⟨⟨hs.cursor, hs.mode⟩, .refl _, trivial⟩
  refine hmodify.bind fun _ s1 hs1 _ _ => ?_
  refine (Runs.record hs1).bind fun _ s2 hs2 _ _ => ?_
  split
  · exact .liftCursor hs2 (emits_pushScope hs2.cursor)
  · exact .pure hs2 trivial

section Goto

variable {goto : TypeEnv → BasicBlock → CheckM Unit} {c₀ : Cursor}

/-- **An edge** that keeps the tree closed, from any cursor below `c₀`. -/
def GotoRuns (c₀ : Cursor) (goto : TypeEnv → BasicBlock → CheckM Unit) : Prop :=
  (∀ env bb, Extends (goto env bb)) ∧
  ∀ ⦃env : TypeEnv⦄ (bb : BasicBlock) ⦃s : State⦄, s.Tidy → c₀.Le s.cursor →
    env.InScope s.cursor.scope → RunsIf AnyResult (goto env bb) s

/-- A target of a switch keeps the state tidy if its `goto` does. -/
lemma runsIf_checkTarget (hgoto : GotoRuns c₀ goto) (hs : s.Tidy) (hle : c₀.Le s.cursor)
    (henv : env.InScope s.cursor.scope) {guard : Option Expr}
    (hguard : ∀ e ∈ guard, e.Over s.cursor.scope) (bb : BasicBlock) :
    RunsIf AnyResult (checkTarget goto env guard bb) s := by
  refine .withSnapshot hs ?_
  cases guard with
  | none => exact hgoto.2 bb hs hle henv
  | some e =>
    refine .of_runs (Runs.liftCursor hs (emits_pushGuard hs.cursor (hguard e rfl)))
      fun _ s' hs' hle' _ => ?_
    exact hgoto.2 bb hs' (hle.trans hle') (henv.mono hle'.scope le_rfl)

/-- A switch keeps the state tidy if its `goto` does. -/
lemma runsIf_checkSwitchInt (hgoto : GotoRuns c₀ goto) (hs : s.Tidy) (hle : c₀.Le s.cursor)
    (henv : env.InScope s.cursor.scope) (discr : Operand) (targets : SwitchTargets) :
    RunsIf AnyResult (checkSwitchInt goto env discr targets) s := by
  refine .of_runs (Runs.liftCursor hs (Emits.ofExcept (R := fun N r => InScope N r.1 ∧
    TyInScope N r.2) hs.cursor (checkOperand_over henv discr))) fun r s1 hs1 hle1 hr => ?_
  obtain ⟨env, discr_ty⟩ := r
  refine .of_runs (.record hs1) fun _ s2 hs2 hle2 _ => ?_
  have henv2 := hr.1.mono (M := Set.univ) hle2.scope le_rfl
  have hty2 := hr.2.mono (M := Set.univ) hle2.scope le_rfl
  have hle := (hle.trans hle1).trans hle2
  refine .bind (R := AnyResult) (fun _ => ?_) (.forM hs2 (fun p => ?_) fun p s3 hs3 hle3 => ?_)
    fun _ s3 hs3 hle3 _ => ?_
  · exact (Extends.liftCursor _).bind fun _ => extends_checkTarget hgoto.1 _ _ _
  · exact (Extends.liftCursor _).bind fun _ => extends_checkTarget hgoto.1 _ _ _
  · refine .of_runs (Runs.liftCursor hs3 (Emits.ofExcept (R := fun N e => Expr.Over N e) hs3.cursor
      (switchGuard_over (hty2.mono hle3.scope le_rfl) p.1))) fun e s4 hs4 hle4 he => ?_
    refine runsIf_checkTarget hgoto hs4 ((hle.trans hle3).trans hle4)
      (henv2.mono (hle3.trans hle4).scope le_rfl) ?_ p.2
    rintro _ ⟨⟩
    exact he
  · refine .of_runs (Runs.liftCursor hs3 (Emits.ofExcept (R := fun N e => ∀ e' ∈ e, Expr.Over N e')
      hs3.cursor (otherwiseGuard_over (hty2.mono hle3.scope le_rfl) _))) fun e s4 hs4 hle4 he => ?_
    exact runsIf_checkTarget hgoto hs4 ((hle.trans hle3).trans hle4)
      (henv2.mono (hle3.trans hle4).scope le_rfl) he _

variable (hself : self.ResultInScope c₀.scope)

include hself

/-- A terminator keeps the state tidy if its `goto` does. -/
lemma runsIf_checkTerminator (hgoto : GotoRuns c₀ goto) (hs : s.Tidy) (hle : c₀.Le s.cursor)
    (henv : env.InScope s.cursor.scope) (terminator : Terminator) :
    RunsIf AnyResult (self.checkTerminator goto env terminator) s := by
  cases terminator with
  | return_ =>
    exact (Runs.liftCursor hs (emits_checkReturn hs.cursor henv (hself.mono hle.scope))).runsIf
  | goto target => exact hgoto.2 target hs hle henv
  | switchInt discr targets => exact runsIf_checkSwitchInt hgoto hs hle henv discr targets
  | call func substs args destination =>
    refine .of_runs (runs_checkCall hs henv func substs args destination) fun r s' hs' hle' hr => ?_
    cases r with
    | none => exact (Runs.pure hs' trivial).runsIf
    | some p => exact hgoto.2 p.2 hs' (hle.trans hle') (hr p rfl)
  | drop place target =>
    refine .of_runs (Runs.liftCursor hs (Emits.ofExcept (R := fun N r => InScope N r.1 ∧
      TyInScope N r.2) hs.cursor (henv.movePlace place))) fun r s1 hs1 hle1 hr => ?_
    refine .of_runs (.record hs1) fun _ s2 hs2 hle2 _ => ?_
    exact hgoto.2 target hs2 ((hle.trans hle1).trans hle2) (hr.1.mono hle2.scope le_rfl)

/-- A whole block keeps the state tidy if its `goto` does. -/
lemma runsIf_checkBasicBlock (hgoto : GotoRuns c₀ goto) (hs : s.Tidy) (hle : c₀.Le s.cursor)
    (henv : env.InScope s.cursor.scope) (bb : BasicBlock) :
    RunsIf AnyResult (self.checkBasicBlock goto env bb) s := by
  refine .of_runs (runs_enterBlock hs bb) fun _ s1 hs1 hle1 _ => ?_
  split
  · exact Runs.stop.runsIf
  · next data _ =>
    refine .of_runs (runs_checkStatements hs1 (henv.mono hle1.scope le_rfl) data.statements)
      fun env s2 hs2 hle2 henv => ?_
    cases data.terminator with
    | none => exact (Runs.pure hs2 trivial).runsIf
    | some terminator =>
      exact runsIf_checkTerminator hself hgoto hs2 ((hle.trans hle1).trans hle2) henv terminator

end Goto

/-! ## Join points -/

/-- A subtyping check at a join point keeps the state tidy. -/
lemma runs_checkBbEnv (hs : s.Tidy) (env : TypeEnv) (target : BasicBlock)
    (shapes : AList fun _ : BasicBlock => TypeEnvShape) :
    Runs AnyResult (checkBbEnv env target shapes) s := by
  have hmodify : ∀ {f : State → State} {s : State}, s.Tidy → (f s).cursor = s.cursor →
      (∃ shapes, (f s).mode = .check shapes) → Runs AnyResult (modify f : CheckM PUnit) s := by
    intro f s hs hcursor hmode
    rw [Runs, wp_modify]
    exact ⟨⟨hcursor ▸ hs.cursor, hmode⟩, hcursor ▸ .refl _, trivial⟩
  have hget : Runs (fun _ _ => True) (get : CheckM State) s := ⟨hs, .refl _, trivial⟩
  refine hget.bind fun s' s1 hs1 _ _ => ?_
  split
  · exact .pure hs1 trivial
  · split
    · exact .stop
    · next shape _ =>
      refine (Runs.record hs1).bind fun _ s2 hs2 _ _ => ?_
      refine (hmodify hs2 rfl ⟨_, rfl⟩).bind fun _ s3 hs3 _ _ => ?_
      have hquiet : Emits AnyResult (env.inferBbEnv shape) s3.cursor :=
        .quiet hs3.cursor (wp_imp (wp_inferBbEnv_quiet env shape s3.cursor)
          fun _ _ h => ⟨trivial, h⟩)
      refine (Runs.liftCursor hs3 hquiet).bind fun bbEnv s4 hs4 _ _ => ?_
      refine (Runs.record hs4).bind fun _ s5 hs5 _ _ => ?_
      refine (hmodify hs5 rfl hs5.mode).bind fun _ s6 hs6 _ _ => ?_
      exact .pure hs6 trivial

/-- **An edge to a join point.** -/
lemma runsIf_checkGotoJoinPoint (hs : s.Tidy) (henv : env.InScope s.cursor.scope)
    (target : BasicBlock) : RunsIf AnyResult (self.checkGotoJoinPoint env target) s := by
  obtain ⟨shapes, hmode⟩ := hs.mode
  have hedge : RunsIf AnyResult (do
      let bbEnv ← checkBbEnv env target shapes
      record (.edge target env (some bbEnv) (target ∈ s.visited) s.cursor)
      let env ← liftCursor (env.transformInto self.globalEnv.tcx bbEnv)
      record (.env env)) s := by
    refine .of_runs (runs_checkBbEnv hs env target shapes) fun bbEnv s1 hs1 hle1 _ => ?_
    refine .record hs1 (fun _ => (Extends.liftCursor _).bind fun _ => Extends.record _)
      fun hbbEnv s2 hcursor hs2 => ?_
    have hle2 : s.cursor.Le s2.cursor := hcursor ▸ hle1
    refine .of_runs (Runs.liftCursor hs2 (emits_transformInto _ hs2.cursor
      (henv.mono hle2.scope le_rfl) (TypeEnv.Over.mono hle2.scope le_rfl hbbEnv)))
        fun _ s3 hs3 _ _ => ?_
    exact (Runs.record hs3).runsIf
  rw [RunsIf, wpIf, checkGotoJoinPoint, wp_bind, wp_get, hmode]
  exact hedge

variable {c₀ : Cursor}

/-- **Every edge keeps the tree closed.** -/
lemma gotoRuns_checkGoto (hself : self.ResultInScope c₀.scope) (fuel : ℕ) :
    GotoRuns c₀ (self.checkGoto fuel) := by
  refine ⟨self.extends_checkGoto fuel, ?_⟩
  induction fuel with
  | zero => exact fun _ _ _ _ _ _ => Runs.stop.runsIf
  | succ fuel ih =>
    intro env bb s hs hle henv
    rw [checkGoto]
    split
    · exact runsIf_checkGotoJoinPoint hs henv bb
    · exact runsIf_checkBasicBlock hself ⟨self.extends_checkGoto fuel, ih⟩ hs hle henv bb

/-- A block is taken up. -/
lemma runsIf_takeUp (hself : self.ResultInScope c₀.scope) (hs : s.Tidy) (hle : c₀.Le s.cursor)
    (fuel : ℕ) (bb : BasicBlock) : RunsIf AnyResult (self.takeUp fuel bb) s := by
  unfold takeUp
  rw [RunsIf, wpIf, wp_bind, wp_get]
  split
  · rw [wp_bind, wp_get]
    change RunsIf AnyResult _ s
    split
    · exact Runs.stop.runsIf
    · next bbEnv _ =>
      refine .record hs (fun _ => (Extends.liftCursor _).bind fun _ => (Extends.record _).bind
        fun _ => self.extends_checkBasicBlock (self.extends_checkGoto fuel) _ bb)
        fun hbbEnv s1 hcursor hs1 => ?_
      have hbbEnv1 : bbEnv.InScope s1.cursor.scope := hcursor ▸ hbbEnv
      refine .of_runs (Runs.liftCursor hs1 (emits_unpack_env _ hs1.cursor hbbEnv1))
        fun env s2 hs2 hle2 henv => ?_
      refine .of_runs (.record hs2) fun _ s3 hs3 hle3 _ => ?_
      exact runsIf_checkBasicBlock hself (gotoRuns_checkGoto hself fuel) hs3
        ((hcursor ▸ hle).trans (hle2.trans hle3)) (henv.mono hle3.scope le_rfl) bb
  · exact fun _ => ⟨hs, .refl _, trivial⟩

/-- **A check keeps the tree closed** if its events meet the condition. -/
theorem runsIf_run (hs : s.Tidy) (hself : self.ResultInScope s.cursor.scope)
    (henv : env.InScope s.cursor.scope) (fuel : ℕ) : RunsIf AnyResult (self.run fuel env) s := by
  refine .bind (fun _ => .forM fun bb _ => self.extends_takeUp fuel bb)
    ((gotoRuns_checkGoto hself fuel).2 _ hs (.refl _) henv) fun _ s1 hs1 hle1 _ => ?_
  exact .forM hs1 (self.extends_takeUp fuel) fun bb s2 hs2 hle2 =>
    runsIf_takeUp hself hs2 (hle1.trans hle2) fuel bb

end Checker

/-! ## The prologue -/

namespace GlobalEnv

open Checker

variable {c : Cursor} {body : Body} {fn_sig : Core.FnSig}

/-- Binding a parameter of the signature keeps the substitution in scope. -/
lemma emits_bindParam {subst : Subst} (hc : c.Tidy) (h : SubstInScope c.scope subst)
    (param : Core.Param) : Emits SubstInScope (bindParam subst param) c := by
  refine (emits_freshName hc).bind fun x c1 hc1 hle1 _ => ?_
  have hsubset : c.scope ⊆ insert x c1.scope := hle1.scope.trans (Set.subset_insert x _)
  have hsubst := (h.mono (M := Set.univ) hsubset le_rfl).insertExpr param.name.name
    (e := .var (.free x)) (Set.mem_insert x _)
  refine (Emits.ofExcept (R := fun N e => e.Over (insert x N)) hc1
    (hsubst.lowerExpr param.pred)).bind fun e c2 hc2 hle2 he => ?_
  have hp : (Pred.expr e).Over (insert x c2.scope) := he
  refine (emits_pushForall hc2 hp).bind fun _ c3 hc3 hle3 hx => ?_
  have hinsert : insert x c1.scope ⊆ c3.scope :=
    Set.insert_subset hx (hle2.scope.trans hle3.scope)
  exact .pure hc3 (hsubst.mono hinsert le_rfl)

/-- Binding a required location keeps environment and substitution in scope. -/
lemma emits_bindRequired {p : TypeEnv × Subst} (hc : c.Tidy)
    (h : p.1.InScope c.scope ∧ SubstInScope c.scope p.2) (binding : Core.Name × Core.Ty) :
    Emits (fun N p => InScope N p.1 ∧ SubstInScope N p.2) (bindRequired p binding) c := by
  refine (emits_lowerTy hc h.2 binding.2).bind fun ty c1 hc1 hle1 hty => ?_
  refine (emits_freshName hc1).bind fun x c2 hc2 hle2 _ => ?_
  refine (emits_unpack hc2 (hty.mono hle2.scope le_rfl)).bind fun ty c3 hc3 hle3 hty => ?_
  have hscope := ((hle1.trans hle2).trans hle3).scope
  exact .pure hc3 ⟨(h.1.mono hscope le_rfl).insertLoc hty,
    (h.2.mono hscope le_rfl).insertLoc _ (Set.mem_univ _)⟩

variable (body fn_sig) in
/-- **What the prologue makes of a signature** is in scope. -/
lemma emits_prologue (hc : c.Tidy) : Emits (fun N p => p.env.InScope N ∧ TyInScope N p.retTy ∧
      ∀ q ∈ p.ensures, TyInScope N q.2) (prologue body fn_sig) c := by
  refine (Emits.foldlM (S := SubstInScope) hc Subst.over_withEmptyTypeSubsts
    fun param _ subst c' hc' _ h => emits_bindParam hc' h param).bind
      fun subst c1 hc1 hle1 hsubst => ?_
  refine (Emits.foldlM (S := fun N p => InScope N p.1 ∧ SubstInScope N p.2) hc1
    ⟨over_new, hsubst⟩ fun binding _ p c' hc' _ h => emits_bindRequired hc' h binding).bind
    fun p c2 hc2 hle2 hp => ?_
  obtain ⟨env, subst⟩ := p
  obtain ⟨henv, hsubst⟩ := hp
  refine (Emits.foldlM (S := InScope) hc2 henv fun q _ env c' hc' hle henv => ?_).bind
    fun env c3 hc3 hle3 henv => ?_
  · refine (emits_lowerTy hc' (hsubst.mono hle.scope le_rfl) q.2).bind fun ty c1 hc1 hle1 hty => ?_
    refine (emits_unpack hc1 hty).bind fun ty c2 hc2 hle2 hty => ?_
    exact .pure hc2 ((henv.mono (hle1.trans hle2).scope le_rfl).insertLoc hty)
  have hsubst3 := hsubst.mono (M := Set.univ) hle3.scope le_rfl
  have henv3 : ((body.varsAndTempsIter.foldl (fun env l => env.insertLoc (.local_ l) .uninit)
      env).insertLoc (.local_ returnPlace) .uninit).InScope c3.scope := by
    refine TypeEnv.Over.insertLoc ?_ trivial
    generalize body.varsAndTempsIter = vars
    induction vars generalizing env with
    | nil => exact henv
    | cons l vars ih => exact ih _ (henv.insertLoc trivial)
  refine (Emits.mapM (S := fun N q => TyInScope N q.2) hc3
    (fun {_ _ q} hN (h : TyInScope _ q.2) => Ty.Over.mono hN le_rfl h)
    fun binding _ c' hc' hle => ?_).bind fun ensures c4 hc4 hle4 hensures => ?_
  · refine (emits_lowerTy hc' (hsubst3.mono hle.scope le_rfl) binding.2).bind
      fun ty c1 hc1 hle1 hty => ?_
    refine (Emits.orFail (R := AnyResult) hc1 fun _ _ => trivial).bind fun loc c2 hc2 hle2 _ => ?_
    exact .pure hc2 (hty.mono hle2.scope le_rfl)
  · refine (emits_lowerTy hc4 (hsubst3.mono hle4.scope le_rfl) fn_sig.ret).bind
      fun retTy c5 hc5 hle5 hret => ?_
    exact .pure hc5 ⟨henv3.mono (hle4.trans hle5).scope le_rfl, hret,
      fun q hq => (hensures q hq).mono hle5.scope le_rfl⟩

/-- The first cursor is tidy. -/
lemma tidy_new : ConstraintBuilder.new.asCursor.Tidy :=
  ⟨valid_new, trivial⟩

/-- **The constraint of a check is closed**: every name in it is bound on the path to it, if the
names of the environments of join points are in scope at the edges to them and where they are
taken up.

**Proof sketch.** Every operation on a cursor pushes nodes whose names are bound on its path
(`Emits`), and keeps the types that are in scope. The steps of the checker follow, where an edge
to a join point and its take-up need that the names of the environment are in scope, which the
events say (`RunsIf`). The run is by induction on the fuel (`runsIf_run`), and a tidy cursor has a
closed tree. -/
theorem check_closed {globalEnv : GlobalEnv} {body : Body} {fn_sig : Core.FnSig} {fuel : ℕ}
    {shapes : AList fun _ : BasicBlock => TypeEnvShape} {checker : Checker} {s : State}
    (h : globalEnv.checkOrInfer body fn_sig fuel (.check shapes) = .ok (checker, s))
    (hscoped : ∀ e ∈ s.trace, e.Scoped) : s.cursor.builder.root.Closed ∅ := by
  have hprologue := emits_prologue body fn_sig tidy_new
  unfold checkOrInfer at h
  cases hp : (prologue body fn_sig).run ConstraintBuilder.new.asCursor with
  | error f =>
    rw [hp] at h
    cases h
  | ok r =>
    obtain ⟨p, cursor⟩ := r
    rw [hp] at h
    obtain ⟨hcursor, -, henv, hret, hensures⟩ := wp_of_run_ok hprologue hp
    dsimp only at h
    cases hchecker : globalEnv.checker body p.retTy p.ensures with
    | error f =>
      rw [hchecker] at h
      cases h
    | ok checker' =>
      rw [hchecker] at h
      dsimp only at h
      have hself : checker'.ResultInScope cursor.scope := by
        unfold GlobalEnv.checker at hchecker
        cases hmap : body.joinPoints.mapM fun bb =>
            orError Failure.missing (body.mir.immediateDominator bb) with
        | error f =>
          rw [hmap] at hchecker
          cases hchecker
        | ok dominators =>
          rw [hmap] at hchecker
          obtain rfl := Except.ok.inj hchecker
          exact ⟨hret, hensures⟩
      have hrun := runsIf_run (s := initialState (.check shapes) cursor p.env)
        ⟨hcursor, shapes, rfl⟩ hself henv fuel
      rw [RunsIf, wpIf] at hrun
      cases hs : (checker'.run fuel p.env).run (initialState (.check shapes) cursor p.env) with
      | error e =>
        rw [hs] at h
        cases h
      | ok r =>
        rw [hs] at h
        obtain ⟨⟨⟩, s'⟩ := r
        obtain ⟨rfl, rfl⟩ := Prod.mk.inj (Except.ok.inj h)
        exact (wp_of_run_ok hrun hs hscoped).1.cursor.closed

/-- The type of non-negative integers. -/
def natTy : Core.Ty :=
  .exists_ (.int .i32) (.expr (.binaryOp .ge (.var .bound "v") (.literal (.int 0))))

/-- The signature `fn(bool) -> i32{v: v >= 0}`. -/
def branchSig : Core.FnSig where
  params := []
  requires := []
  args := [.exists_ .bool .tt]
  ret := natTy
  ensures := []

/-- Surroundings with one function `fn() -> i32`. -/
def branchGlobalEnv : GlobalEnv where
  specs := fun _ => some ⟨[], [], [], .exists_ (.int .i32) .tt, []⟩
  tcx := .ofStack 8

/-- A local variable. -/
def localPlace (l : Local) : Place :=
  ⟨l, []⟩

/-- A branch on the argument: both targets set the result and go on to block 3. -/
def branchBody : Body where
  basicBlocks :=
    [⟨[], some (.switchInt (.copy (localPlace 1)) ⟨[(0, 1)], 2⟩)⟩,
      ⟨[.assign (localPlace 0) (.use (.constant (.int 0 .i32)))], some (.goto 3)⟩,
      ⟨[.assign (localPlace 0) (.use (.constant (.int 1 .i32)))], some (.goto 3)⟩,
      ⟨[], some .return_⟩]
  argCount := 1
  nlocals := 2
  mir :=
    { predecessors := fun
        | 1 => [0]
        | 2 => [0]
        | 3 => [1, 2]
        | _ => []
      reversePostorder := [0, 2, 1, 3]
      immediateDominator := fun _ => some 0 }

/-- The constraint of the branch is closed. -/
theorem check_closed_branch : ∃ shapes checker s,
    branchGlobalEnv.infer branchBody branchSig 6 = .ok shapes ∧
    branchGlobalEnv.checkOrInfer branchBody branchSig 6 (.check shapes) = .ok (checker, s) ∧
    s.cursor.builder.root.Closed ∅ := by
  have hruns : ((branchGlobalEnv.infer branchBody branchSig 6).bind fun shapes =>
      (branchGlobalEnv.checkOrInfer branchBody branchSig 6 (.check shapes)).bind fun p =>
        .ok (decide (∀ e ∈ p.2.trace, e.Scoped))) = .ok true := by
    decide +kernel
  cases hinfer : branchGlobalEnv.infer branchBody branchSig 6 with
  | error e =>
    rw [hinfer] at hruns
    exact nomatch hruns
  | ok shapes =>
    rw [hinfer] at hruns
    cases hcheck : branchGlobalEnv.checkOrInfer branchBody branchSig 6 (.check shapes) with
    | error e =>
      rw [Except.bind, hcheck] at hruns
      exact nomatch hruns
    | ok p =>
      rw [Except.bind, hcheck] at hruns
      have hscoped := of_decide_eq_true (Except.ok.inj hruns)
      exact ⟨shapes, p.1, p.2, rfl, hcheck, check_closed hcheck hscoped⟩

/-- A call in one target of a branch, followed by a branch inside of it. Block 6, where the inner
branch ends, returns the result of the call. -/
def callInBranchBody : Body where
  basicBlocks :=
    [⟨[], some (.switchInt (.copy (localPlace 1)) ⟨[(0, 1)], 5⟩)⟩,
      ⟨[], some (.call 0 [] [] (some (localPlace 2, 2)))⟩,
      ⟨[], some (.switchInt (.copy (localPlace 1)) ⟨[(0, 3)], 4⟩)⟩,
      ⟨[], some (.goto 6)⟩,
      ⟨[], some (.goto 6)⟩,
      ⟨[.assign (localPlace 0) (.use (.constant (.int 0 .i32)))], some .return_⟩,
      ⟨[.assign (localPlace 0) (.use (.copy (localPlace 2)))], some .return_⟩]
  argCount := 1
  nlocals := 3
  mir :=
    { predecessors := fun
        | 1 => [0]
        | 2 => [1]
        | 3 => [2]
        | 4 => [2]
        | 5 => [0]
        | 6 => [3, 4]
        | _ => []
      reversePostorder := [0, 5, 1, 2, 4, 3, 6]
      immediateDominator := fun
        | 0 => none
        | 1 => some 0
        | 2 => some 1
        | 5 => some 0
        | _ => some 2 }

/-- **Some constraints are not closed.** Block 6 is taken up where the run starts. The name of the
result of the call is bound in the branch only. -/
theorem check_not_closed : ¬∀ (globalEnv : GlobalEnv) (body : Body) (fn_sig : Core.FnSig)
    (fuel : ℕ) (shapes : AList fun _ : BasicBlock => TypeEnvShape) (builder : ConstraintBuilder),
    globalEnv.infer body fn_sig fuel = .ok shapes →
    globalEnv.check body fn_sig fuel shapes = .ok builder → builder.root.Closed ∅ := by
  intro hclaim
  have hruns : ((branchGlobalEnv.infer callInBranchBody branchSig 9).bind fun shapes =>
      (branchGlobalEnv.check callInBranchBody branchSig 9 shapes).bind fun builder =>
        .ok (decide (builder.root.Closed ∅))) = .ok false := by
    decide +kernel
  cases hinfer : branchGlobalEnv.infer callInBranchBody branchSig 9 with
  | error e =>
    rw [hinfer] at hruns
    exact nomatch hruns
  | ok shapes =>
    rw [hinfer] at hruns
    cases hcheck : branchGlobalEnv.check callInBranchBody branchSig 9 shapes with
    | error e =>
      rw [Except.bind, hcheck] at hruns
      exact nomatch hruns
    | ok builder =>
      rw [Except.bind, hcheck] at hruns
      exact of_decide_eq_false (Except.ok.inj hruns) (hclaim _ _ _ _ _ _ hinfer hcheck)

end GlobalEnv

end LiquidRust.Typeck
