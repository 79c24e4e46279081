import LiquidRust.Typeck.Checker

set_option relaxedAutoImplicit false
set_option autoImplicit false

/-!
# Runs under a condition on their trace

The trace of a run only gets longer. So what holds of a run as long as its events meet a condition
can be shown step by step: a step may assume that the events before it meet the condition.

## Main definitions

* `LiquidRust.Typeck.Extends` — the trace gets longer.
* `LiquidRust.Typeck.wpIf` — the weakest precondition, if all events meet a condition.

## Main results

* `LiquidRust.Typeck.Checker.extends_checkGoto`, `extends_takeUp` — the checker extends the trace.
* `LiquidRust.Typeck.wpIf_bind` — one step after another.
-/

namespace LiquidRust.Typeck

open Lib
open Core.Ir (BasicBlock BasicBlockData Place Operand SwitchTargets Terminator)

variable {α β : Type}

/-! ## Traces get longer -/

/-- Steps that extend the trace, also when they stop. -/
def Extends (m : CheckM α) : Prop :=
  ∀ s, wp m (fun _ s' => s.trace <:+ s'.trace) (fun e => s.trace <:+ e.state.trace) s

namespace Extends

variable {m : CheckM α}

/-- Returning extends the trace. -/
lemma pure (a : α) : Extends (Pure.pure a) :=
  fun _ => List.suffix_rfl

/-- Stopping extends the trace. -/
lemma stop (e : Stop) : Extends (Typeck.stop e : CheckM α) :=
  fun _ => List.suffix_rfl

/-- One step after another extends the trace. -/
lemma bind {k : α → CheckM β} (hm : Extends m) (hk : ∀ a, Extends (k a)) : Extends (m >>= k) := by
  intro s
  rw [wp_bind]
  refine wp_imp (hm s) fun a s' h => ?_
  exact wp_mono (hk a s') (fun _ _ h' => h.trans h') fun _ h' => h.trans h'

/-- Reading the state extends the trace. -/
lemma get : Extends (MonadState.get : CheckM State) :=
  fun _ => List.suffix_rfl

/-- A change that keeps the trace extends it. -/
lemma modify {f : State → State} (hf : ∀ s, (f s).trace = s.trace) :
    Extends (modify f : CheckM PUnit) := by
  intro s
  rw [wp_modify]
  exact hf s ▸ List.suffix_rfl

/-- A cursor operation extends the trace. -/
lemma liftCursor (m : CursorM α) : Extends (Typeck.liftCursor m) := by
  intro s
  rw [wp_liftCursor]
  exact wp_of_forall (fun _ _ => List.suffix_rfl) fun _ => List.suffix_rfl

/-- Recording an event extends the trace. -/
lemma record (e : Event) : Extends (Typeck.record e) :=
  fun _ => List.suffix_cons _ _

/-- A snapshot extends the trace. -/
lemma withSnapshot (hm : Extends m) : Extends (Typeck.withSnapshot m) := by
  intro s
  rw [wp_withSnapshot]
  exact hm s

/-- A fold extends the trace. -/
lemma foldlM {k : β → α → CheckM β} {l : List α} (hk : ∀ a ∈ l, ∀ b, Extends (k b a)) (b : β) :
    Extends (l.foldlM k b) := by
  induction l generalizing b with
  | nil => exact pure b
  | cons a l ih => exact (hk a (.head _) b).bind fun b => ih (fun a ha => hk a (.tail _ ha)) b

/-- A loop extends the trace. -/
lemma forM {k : α → CheckM PUnit} {l : List α} (hk : ∀ a ∈ l, Extends (k a)) :
    Extends (l.forM k) := by
  induction l with
  | nil => exact pure _
  | cons a l ih => exact (hk a (.head _)).bind fun _ => ih fun a ha => hk a (.tail _ ha)

end Extends

namespace Checker

variable (self : Checker)

/-- What a call ensures extends the trace. -/
lemma extends_checkEnsures (p : TypeEnv × Subst) (binding : Core.Name × Core.Ty) :
    Extends (self.checkEnsures p binding) :=
  (Extends.liftCursor _).bind fun _ => (Extends.record _).bind fun _ => Extends.pure _

/-- `check_call` extends the trace, once its substitution is inferred. -/
lemma extends_checkCallWith (env : TypeEnv) (subst : Subst) (actuals : List Ty)
    (fn_sig : Core.FnSig) (destination : Option (Place × BasicBlock)) :
    Extends (self.checkCallWith env subst actuals fn_sig destination) := by
  refine (Extends.liftCursor _).bind fun _ => (Extends.liftCursor _).bind fun _ =>
    (Extends.liftCursor _).bind fun _ =>
    (Extends.foldlM (fun _ _ p => self.extends_checkEnsures p _) _).bind fun p => ?_
  cases destination with
  | none => exact Extends.pure none
  | some d =>
    exact (Extends.liftCursor _).bind fun _ => (Extends.record _).bind fun _ => Extends.pure _

/-- `check_call` extends the trace. -/
lemma extends_checkCall (env : TypeEnv) (func : DefId) (substs : List Core.Ty)
    (args : List Operand) (destination : Option (Place × BasicBlock)) :
    Extends (self.checkCall env func substs args destination) := by
  refine (Extends.liftCursor _).bind fun fn_sig => (Extends.liftCursor _).bind fun _ =>
    (Extends.record _).bind fun _ => (Extends.liftCursor _).bind fun _ =>
    (Extends.liftCursor _).bind fun subst => ?_
  cases subst with
  | none => exact Extends.stop _
  | some subst => exact self.extends_checkCallWith _ _ _ _ _

section Goto

variable {goto : TypeEnv → BasicBlock → CheckM Unit} (hgoto : ∀ env bb, Extends (goto env bb))

include hgoto

/-- A target of a switch extends the trace. -/
lemma extends_checkTarget (env : TypeEnv) (guard : Option Expr) (bb : BasicBlock) :
    Extends (checkTarget goto env guard bb) := by
  refine Extends.withSnapshot ?_
  cases guard with
  | none => exact (Extends.pure ()).bind fun _ => hgoto env bb
  | some e => exact (Extends.liftCursor _).bind fun _ => hgoto env bb

/-- A switch extends the trace. -/
lemma extends_checkSwitchInt (env : TypeEnv) (discr : Operand) (targets : SwitchTargets) :
    Extends (checkSwitchInt goto env discr targets) :=
  (Extends.liftCursor _).bind fun _ => (Extends.record _).bind fun _ =>
    (Extends.forM fun _ _ => (Extends.liftCursor _).bind fun _ =>
      extends_checkTarget hgoto _ _ _).bind fun _ =>
    (Extends.liftCursor _).bind fun _ => extends_checkTarget hgoto _ _ _

/-- A terminator extends the trace. -/
lemma extends_checkTerminator (env : TypeEnv) (terminator : Terminator) :
    Extends (self.checkTerminator goto env terminator) := by
  cases terminator with
  | return_ => exact Extends.liftCursor _
  | goto target => exact hgoto env target
  | switchInt discr targets => exact extends_checkSwitchInt hgoto env discr targets
  | call func substs args destination =>
    refine (self.extends_checkCall env func substs args destination).bind fun r => ?_
    cases r with
    | none => exact Extends.pure ()
    | some p => exact hgoto _ _
  | drop place target =>
    exact (Extends.liftCursor _).bind fun _ => (Extends.record _).bind fun _ => hgoto _ _

/-- The statements and the terminator of a block extend the trace. -/
lemma extends_checkBlockData (env : TypeEnv) (data : BasicBlockData) :
    Extends (self.checkBlockData goto env data) := by
  refine (Extends.foldlM (fun _ _ _ => (Extends.liftCursor _).bind fun _ =>
    (Extends.record _).bind fun _ => Extends.pure _) env).bind fun env => ?_
  cases data.terminator with
  | none => exact Extends.pure ()
  | some terminator => exact self.extends_checkTerminator hgoto env terminator

omit hgoto in
/-- Entering a block extends the trace. -/
lemma extends_enterBlock (bb : BasicBlock) : Extends (self.enterBlock bb) := by
  refine (Extends.modify (by intro; rfl)).bind fun _ => (Extends.record _).bind fun _ => ?_
  split
  · exact Extends.liftCursor _
  · exact Extends.pure ()

/-- A whole block extends the trace. -/
lemma extends_checkBasicBlock (env : TypeEnv) (bb : BasicBlock) :
    Extends (self.checkBasicBlock goto env bb) := by
  refine (self.extends_enterBlock bb).bind fun _ => ?_
  split
  · exact Extends.stop _
  · exact self.extends_checkBlockData hgoto env _

end Goto

/-- An edge to a join point in inference extends the trace. -/
lemma extends_inferJoinPoint (env : TypeEnv) (target : BasicBlock) :
    Extends (self.inferJoinPoint env target) := by
  refine Extends.get.bind fun s => ?_
  split
  · exact (Extends.liftCursor _).bind fun _ => (Extends.record _).bind fun _ =>
      Extends.modify (by intro; rfl)
  · exact Extends.modify (by intro; rfl)

/-- A subtyping check at a join point extends the trace. -/
lemma extends_checkBbEnv (env : TypeEnv) (target : BasicBlock)
    (shapes : AList fun _ : BasicBlock => TypeEnvShape) :
    Extends (checkBbEnv env target shapes) := by
  refine Extends.get.bind fun s => ?_
  split
  · exact Extends.pure _
  · split
    · exact Extends.stop _
    · exact (Extends.record _).bind fun _ => (Extends.modify (by intro; rfl)).bind fun _ =>
        (Extends.liftCursor _).bind fun _ => (Extends.record _).bind fun _ =>
        (Extends.modify (by intro; rfl)).bind fun _ => Extends.pure _

/-- An edge to a join point extends the trace. -/
lemma extends_checkGotoJoinPoint (env : TypeEnv) (target : BasicBlock) :
    Extends (self.checkGotoJoinPoint env target) := by
  refine Extends.get.bind fun s => ?_
  split
  · exact (Extends.record _).bind fun _ => self.extends_inferJoinPoint env target
  · exact (extends_checkBbEnv env target _).bind fun _ => (Extends.record _).bind fun _ =>
      (Extends.liftCursor _).bind fun _ => Extends.record _

/-- **Every edge extends the trace.** -/
lemma extends_checkGoto (fuel : ℕ) (env : TypeEnv) (target : BasicBlock) :
    Extends (self.checkGoto fuel env target) := by
  induction fuel generalizing env target with
  | zero => exact Extends.stop _
  | succ fuel ih =>
    rw [checkGoto]
    split
    · exact self.extends_checkGotoJoinPoint env target
    · exact self.extends_checkBasicBlock ih env target

/-- **So does every block that is taken up.** -/
lemma extends_takeUp (fuel : ℕ) (bb : BasicBlock) : Extends (self.takeUp fuel bb) := by
  refine Extends.get.bind fun s => ?_
  split
  · refine Extends.get.bind fun s => ?_
    split
    · exact Extends.stop _
    · exact (Extends.record _).bind fun _ => (Extends.liftCursor _).bind fun _ =>
        (Extends.record _).bind fun _ => self.extends_checkBasicBlock (self.extends_checkGoto fuel)
          _ bb
  · exact Extends.pure ()

end Checker

/-! ## The condition -/

/-- **The weakest precondition under a condition**: it counts only if all events of the trace meet
`P`, whether the run ends or stops. -/
def wpIf (P : Event → Prop) (m : CheckM α) (Q : α → State → Prop) (E : Stopped → Prop)
    (s : State) : Prop :=
  wp m (fun a s' => (∀ e ∈ s'.trace, P e) → Q a s') (fun e => (∀ e' ∈ e.state.trace, P e') → E e) s

section

variable {P : Event → Prop} {Q Q' : α → State → Prop} {E : Stopped → Prop} {s : State}
  {m : CheckM α}

/-- What holds without the condition holds under it. -/
lemma wpIf_of_wp (h : wp m Q E s) : wpIf P m Q E s :=
  wp_mono h (fun _ _ h _ => h) fun _ h _ => h

/-- A weaker result holds too. -/
lemma wpIf_imp (h : wpIf P m Q E s) (hQ : ∀ a s', Q a s' → Q' a s') : wpIf P m Q' E s :=
  wp_imp h fun a s' h' hP => hQ a s' (h' hP)

/-- **One step after another.** The second one may assume that the events up to it meet the
condition: if they do not, those of the whole run do not. -/
lemma wpIf_bind {k : α → CheckM β} {Q : β → State → Prop} (hk : ∀ a, Extends (k a))
    (h : wpIf P m (fun a s' => (∀ e ∈ s'.trace, P e) → wpIf P (k a) Q E s') E s) :
    wpIf P (m >>= k) Q E s := by
  rw [wpIf, wp_bind]
  refine wp_imp h fun a s' h' => ?_
  by_cases hP : ∀ e ∈ s'.trace, P e
  · exact h' hP hP
  · exact wp_mono (hk a s') (fun _ _ hs hP' => absurd (fun e he => hP' e (hs.subset he)) hP)
      fun _ hs hP' => absurd (fun e he => hP' e (hs.subset he)) hP

/-- Steps without a condition, and then steps with one. -/
lemma wpIf_bind_of_wp {k : α → CheckM β} {Q : β → State → Prop}
    (h : wp m (fun a s' => wpIf P (k a) Q E s') E s) : wpIf P (m >>= k) Q E s := by
  rw [wpIf, wp_bind]
  exact wp_mono h (fun _ _ h => h) fun _ h _ => h

/-- An event that is recorded meets the condition. -/
lemma wpIf_record {e : Event} {Q : Unit → State → Prop}
    (h : P e → Q () { s with trace := e :: s.trace }) : wpIf P (record e) Q E s := by
  rw [wpIf, wp_record]
  exact fun hP => h (hP e (.head _))

/-- A snapshot meets what the steps in it do, once the cursor is back. -/
lemma wpIf_withSnapshot
    (h : wpIf P m (fun a s' => Q a
      { s' with cursor := { s.cursor with builder := s'.cursor.builder } })
      E s) : wpIf P (withSnapshot m) Q E s := by
  rw [wpIf, wp_withSnapshot]
  exact h

end

end LiquidRust.Typeck
