import LiquidRust.Typeck.DanglingJoin
import LiquidRust.Typeck.Trace

set_option relaxedAutoImplicit false
set_option autoImplicit false

/-!
# Runs without dangling locations

The environments that are met at the join points of a run may have pointers to locations that only
one of them binds. If this does not happen, no pointer dangles in the run.

## Main definitions

* `LiquidRust.Typeck.Event.Matched` — the condition on the events of a run.
* `LiquidRust.Typeck.GlobalEnv.IsRun` — the runs of either phase, with their trace.

## Main results

* `LiquidRust.Typeck.GlobalEnv.isRun_noDangling` — no pointer dangles in a run whose events meet
  the condition.
-/

namespace LiquidRust.Typeck

open Lib Cursor TypeEnv
open Core.Ir (BasicBlock BasicBlockData Body Place Operand Statement Terminator SwitchTargets
  returnPlace)

/-- **No pointer is left behind** where two environments meet, and where the environment of a join
point is made. Inference joins the stored environment with the arriving one, and the check
transforms the arriving environment into the stored one. -/
def Event.Matched (mode : Mode) : Event → Prop
  | .edge _ arriving (some bbEnv) _ _ =>
    match mode with
    | .inference => CommonClosed bbEnv arriving
    | .check _ => CommonClosed arriving bbEnv
  | .shape _ arriving found => ShapeClosed arriving found
  | .edge _ _ none _ _ | .block _ | .env _ | .takeUp _ _ _ => True

instance (mode : Mode) (e : Event) : Decidable (e.Matched mode) :=
  match mode, e with
  | .inference, .edge _ env (some bbEnv) _ _ => inferInstanceAs (Decidable (CommonClosed bbEnv env))
  | .check _, .edge _ env (some bbEnv) _ _ => inferInstanceAs (Decidable (CommonClosed env bbEnv))
  | _, .shape _ env shape => inferInstanceAs (Decidable (ShapeClosed env shape))
  | _, .edge _ _ none _ _ | _, .block _ | _, .env _ | _, .takeUp _ _ _ => .isTrue trivial

/-- Two modes of the same phase. A check takes shapes away while it runs. -/
def Mode.SamePhase : Mode → Mode → Prop
  | .inference, .inference | .check _, .check _ => True
  | _, _ => False

/-- A mode is of its own phase. -/
lemma Mode.samePhase_self (mode : Mode) : mode.SamePhase mode := by
  cases mode <;> trivial

/-- A phase that checks goes on with other shapes. -/
lemma Mode.SamePhase.check {mode : Mode} {shapes : AList fun _ : BasicBlock => TypeEnvShape}
    (h : (Mode.check shapes).SamePhase mode) (shapes' : AList fun _ : BasicBlock => TypeEnvShape) :
    (Mode.check shapes').SamePhase mode := by
  cases mode <;> exact h

/-- An edge of a run of inference. -/
lemma Event.Matched.inference {mode : Mode} {target : BasicBlock} {env bbEnv : TypeEnv}
    {visited : Bool} {cursor : Cursor} (hphase : Mode.inference.SamePhase mode)
    (h : Event.Matched mode (.edge target env (some bbEnv) visited cursor)) :
    CommonClosed bbEnv env := by
  cases mode with
  | inference => exact h
  | check shapes => exact hphase.elim

/-- An edge of a run of the check. -/
lemma Event.Matched.check {mode : Mode} {shapes : AList fun _ : BasicBlock => TypeEnvShape}
    {target : BasicBlock} {env bbEnv : TypeEnv} {visited : Bool} {cursor : Cursor}
    (hphase : (Mode.check shapes).SamePhase mode)
    (h : Event.Matched mode (.edge target env (some bbEnv) visited cursor)) :
    CommonClosed env bbEnv := by
  cases mode with
  | inference => exact hphase.elim
  | check shapes => exact h

/-- No environment of the trace has a dangling pointer. -/
def TraceOk (trace : List Event) : Prop :=
  ∀ env, .env env ∈ trace → env.NoDangling

/-- A state of a phase whose environments have no dangling pointer. -/
structure State.NoDangling (mode : Mode) (s : State) : Prop where
  phase : s.mode.SamePhase mode
  trace : TraceOk s.trace
  bbEnvs : ∀ ⦃bb env⦄, s.bbEnvs.lookup bb = some env → env.NoDangling

/-- A run that did not stop for a dangling pointer. -/
structure Stopped.NoDangling (e : Stopped) : Prop where
  stop : e.stop ≠ .failure .dangling
  trace : TraceOk e.state.trace

variable {mode : Mode}

/-- Recording an environment without dangling locations keeps the state so. -/
lemma State.NoDangling.record {s : State} (hs : s.NoDangling mode) {e : Event}
    (he : ∀ env, e = .env env → env.NoDangling) :
    State.NoDangling mode { s with trace := e :: s.trace } := by
  refine ⟨hs.phase, fun env henv => ?_, hs.bbEnvs⟩
  rcases List.mem_cons.mp henv with h | henv
  · exact he env h.symm
  · exact hs.trace env henv

variable {α β γ : Type}

/-! ## Steps -/

/-- Steps that make no pointer dangle. -/
def Moves (mode : Mode) (R : α → Prop) (m : CheckM α) : Prop :=
  ∀ s, s.NoDangling mode → wp m (fun a s' => s'.NoDangling mode ∧ R a) Stopped.NoDangling s

/-- Steps that make no pointer dangle if their events meet the condition. -/
def MovesIf (mode : Mode) (R : α → Prop) (m : CheckM α) : Prop :=
  ∀ s, s.NoDangling mode →
    wpIf (Event.Matched mode) m (fun a s' => s'.NoDangling mode ∧ R a) Stopped.NoDangling s

section Steps

variable {R : α → Prop} {S : β → Prop} {m : CheckM α}

/-- Returning leaves nothing dangling. -/
lemma Moves.pure {a : α} (h : R a) : Moves mode R (Pure.pure a) :=
  fun _ hs => ⟨hs, h⟩

/-- Stopping for another reason leaves nothing dangling. -/
lemma Moves.stop {e : Stop} (he : e ≠ .failure .dangling) : Moves mode R (Typeck.stop e) :=
  fun _ hs => ⟨he, hs.trace⟩

/-- One step after another leaves nothing dangling if neither does. -/
lemma Moves.bind {k : α → CheckM β} (hm : Moves mode R m) (hk : ∀ a, R a → Moves mode S (k a)) :
    Moves mode S (m >>= k) := by
  intro s hs
  rw [wp_bind]
  exact wp_imp (hm s hs) fun a s' ⟨hs', ha⟩ => hk a ha s' hs'

/-- A cursor operation that leads to no dangling location leaves nothing dangling. -/
lemma Moves.liftCursor {m : CursorM α} (hm : Leads R m) : Moves mode R (Typeck.liftCursor m) := by
  intro s hs
  rw [wp_liftCursor]
  exact wp_mono (hm s.cursor) (fun a c ha => ⟨⟨hs.phase, hs.trace, hs.bbEnvs⟩, ha⟩) fun f hf =>
    ⟨fun h => hf (Stop.failure.inj h), hs.trace⟩

/-- Recording an event leaves nothing dangling. -/
lemma Moves.record {e : Event} (he : ∀ env, e = .env env → env.NoDangling) :
    Moves mode (fun _ => True) (Typeck.record e) :=
  fun _ hs => ⟨hs.record he, trivial⟩

/-- Recording an environment without dangling locations leaves nothing dangling. -/
lemma Moves.recordEnv {env : TypeEnv} (henv : env.NoDangling) :
    Moves mode (fun _ => True) (Typeck.record (.env env)) := by
  refine Moves.record ?_
  rintro _ ⟨⟩
  exact henv

/-- A fold leaves nothing dangling if each of its steps does not. -/
lemma Moves.foldlM {k : β → γ → CheckM β} {l : List γ} {b : β} (hb : S b)
    (hk : ∀ a b, S b → Moves mode S (k b a)) : Moves mode S (l.foldlM k b) := by
  induction l generalizing b with
  | nil => exact .pure hb
  | cons a l ih => exact (hk a b hb).bind fun b hb' => ih hb'

/-- What leaves nothing dangling does so if the events are matched. -/
lemma Moves.movesIf (h : Moves mode R m) : MovesIf mode R m :=
  fun s hs => wpIf_of_wp (h s hs)

/-- Steps without a condition, and then steps with one. -/
lemma MovesIf.of_moves {k : α → CheckM β} (hm : Moves mode R m)
    (hk : ∀ a, R a → MovesIf mode S (k a)) : MovesIf mode S (m >>= k) :=
  fun s hs => wpIf_bind_of_wp (wp_imp (hm s hs) fun a s' ⟨hs', ha⟩ => hk a ha s' hs')

/-- Steps with a condition, one after the other. -/
lemma MovesIf.bind {k : α → CheckM β} (hext : ∀ a, Extends (k a)) (hm : MovesIf mode R m)
    (hk : ∀ a, R a → MovesIf mode S (k a)) : MovesIf mode S (m >>= k) :=
  fun s hs => wpIf_bind hext (wpIf_imp (hm s hs) fun a s' ⟨hs', ha⟩ _ => hk a ha s' hs')

/-- What comes after an event may assume that it meets the condition. -/
lemma MovesIf.record {e : Event} {k : Unit → CheckM β} (hext : ∀ a, Extends (k a))
    (he : ∀ env, e = .env env → env.NoDangling) (hk : e.Matched mode → MovesIf mode S (k ())) :
    MovesIf mode S (Typeck.record e >>= k) := by
  refine fun s hs => wpIf_bind hext (wpIf_record fun hmatched _ => ?_)
  exact hk hmatched _ (wp_imp (Moves.record he s hs) fun _ _ h => h.1)

/-- A snapshot leaves nothing dangling if what runs in it does not. -/
lemma MovesIf.withSnapshot (hm : MovesIf mode R m) : MovesIf mode R (Typeck.withSnapshot m) :=
  fun s hs => wpIf_withSnapshot (wpIf_imp (hm s hs) fun _ _ ⟨hs', ha⟩ =>
    ⟨⟨hs'.phase, hs'.trace, hs'.bbEnvs⟩, ha⟩)

/-- A loop leaves nothing dangling if its steps do not. -/
lemma MovesIf.forM {k : γ → CheckM PUnit} {l : List γ} (hext : ∀ a, Extends (k a))
    (hk : ∀ a, MovesIf mode (fun _ => True) (k a)) : MovesIf mode (fun _ => True) (l.forM k) := by
  induction l with
  | nil => exact (Moves.pure trivial).movesIf
  | cons a l ih => exact .bind (fun _ => .forM fun a _ => hext a) (hk a) fun _ _ => ih

end Steps

/-! ## Blocks -/

namespace Checker

variable {self : Checker} {env : TypeEnv}

/-- `check_call`, once its substitution is inferred, leaves nothing dangling. -/
lemma moves_checkCallWith (henv : env.NoDangling) {subst : Subst}
    (hsubst : subst.Over Set.univ env.locSet) (actuals : List Ty) (fn_sig : Core.FnSig)
    (destination : Option (Place × BasicBlock)) :
    Moves mode (fun r => ∀ p ∈ r, p.1.NoDangling)
      (self.checkCallWith env subst actuals fn_sig destination) := by
  rw [checkCallWith]
  dsimp only
  refine (Moves.liftCursor (leads_callParams subst fn_sig)).bind fun _ _ => ?_
  refine (Moves.liftCursor (leads_callArgs _ hsubst actuals fn_sig)).bind fun _ _ => ?_
  refine (Moves.liftCursor (leads_callRequires _ hsubst fn_sig)).bind fun _ _ => ?_
  refine (Moves.foldlM (S := fun p : TypeEnv × Subst => p.1.NoDangling ∧
    p.2.Over Set.univ p.1.locSet) ⟨henv, hsubst⟩ fun binding p hp => ?_).bind fun p hp => ?_
  · exact (Moves.liftCursor (leads_callEnsures _ hp.1 hp.2 binding)).bind fun p hp =>
      (Moves.recordEnv hp.1).bind fun _ _ => .pure hp
  · cases destination with
    | none => exact .pure fun _ h => nomatch h
    | some d =>
      refine (Moves.liftCursor (leads_callReturn _ hp.1 hp.2 fn_sig d.1)).bind fun env henv => ?_
      refine (Moves.recordEnv henv).bind fun _ _ => .pure ?_
      rintro _ ⟨⟩
      exact henv

/-- `check_call` leaves nothing dangling. -/
lemma moves_checkCall (henv : env.NoDangling) (func : DefId) (substs : List Core.Ty)
    (args : List Operand) (destination : Option (Place × BasicBlock)) :
    Moves mode (fun r => ∀ p ∈ r, p.1.NoDangling)
      (self.checkCall env func substs args destination) := by
  refine (Moves.liftCursor (Leads.orFail (R := fun _ => True) (fun _ _ => trivial)
    fun _ => by decide)).bind fun fn_sig _ => ?_
  refine (Moves.liftCursor (Leads.ofExcept (checkOperands_noDangling henv args))).bind
    fun r hr => ?_
  obtain ⟨env, actuals⟩ := r
  refine (Moves.recordEnv hr.1).bind fun _ _ => ?_
  refine (Moves.liftCursor (Subst.leads_withTypeSubsts (L := env.locSet) substs)).bind
    fun subst hsubst => ?_
  refine (Moves.liftCursor (Leads.ofExcept (Subst.leads_inferFromFnCall hsubst hr.1.within hr.2.1
    fn_sig))).bind fun r hsubst => ?_
  cases r with
  | none => exact .stop (by decide)
  | some subst => exact moves_checkCallWith hr.1 (hsubst subst rfl) actuals fn_sig destination

/-- The statements of a block leave nothing dangling. -/
lemma moves_checkStatements (henv : env.NoDangling) (statements : List Statement) :
    Moves mode TypeEnv.NoDangling (self.checkStatements env statements) :=
  .foldlM henv fun stmt _ henv =>
    (Moves.liftCursor (leads_checkStatement _ henv stmt)).bind fun _ henv =>
      (Moves.recordEnv henv).bind fun _ _ => .pure henv

/-- A part of the state that holds no environment is changed. -/
lemma moves_modify {f : State → State}
    (hphase : ∀ s, s.mode.SamePhase mode → (f s).mode.SamePhase mode)
    (htrace : ∀ s, (f s).trace = s.trace) (hbbEnvs : ∀ s, (f s).bbEnvs = s.bbEnvs) :
    Moves mode (fun _ => True) (modify f : CheckM PUnit) := by
  refine fun s hs => ⟨⟨hphase s hs.phase, ?_, ?_⟩, trivial⟩
  · rw [htrace]
    exact hs.trace
  · rw [hbbEnvs]
    exact hs.bbEnvs

/-- An environment is stored for a join point. -/
lemma moves_store (bb : BasicBlock) (henv : env.NoDangling) :
    Moves mode (fun _ => True)
      (modify fun s => { s with bbEnvs := s.bbEnvs.insert bb env } : CheckM PUnit) := by
  refine fun s hs => ⟨⟨hs.phase, hs.trace, fun bb' env' h => ?_⟩, trivial⟩
  by_cases hbb : bb' = bb
  · subst hbb
    obtain rfl := Option.some.inj ((AList.lookup_insert _).symm.trans h)
    exact henv
  · exact hs.bbEnvs ((AList.lookup_insert_ne hbb).symm.trans h)

/-- Entering a block leaves nothing dangling. -/
lemma moves_enterBlock (bb : BasicBlock) : Moves mode (fun _ => True) (self.enterBlock bb) := by
  refine (moves_modify (by intro _ h; exact h) (by intro; rfl) (by intro; rfl)).bind fun _ _ => ?_
  refine (Moves.record (by simp)).bind fun _ _ => ?_
  split
  · exact .liftCursor (.of_safe Safe.pushScope)
  · exact .pure trivial

section Goto

variable {goto : TypeEnv → BasicBlock → CheckM Unit}

/-- **An edge** that makes no pointer dangle. -/
def GotoMoves (mode : Mode) (goto : TypeEnv → BasicBlock → CheckM Unit) : Prop :=
  (∀ env bb, Extends (goto env bb)) ∧
  ∀ ⦃env : TypeEnv⦄ (bb : BasicBlock), env.NoDangling → MovesIf mode (fun _ => True) (goto env bb)

/-- A target of a switch, below its guard. -/
lemma movesIf_checkTarget (hgoto : GotoMoves mode goto) (henv : env.NoDangling)
    (guard : Option Expr) (bb : BasicBlock) :
    MovesIf mode (fun _ => True) (checkTarget goto env guard bb) := by
  refine .withSnapshot ?_
  cases guard with
  | none => exact hgoto.2 bb henv
  | some e =>
    exact .of_moves (.liftCursor (.of_safe (Safe.pushGuard e))) fun _ _ => hgoto.2 bb henv

/-- A switch leaves nothing dangling if its `goto` does not. -/
lemma movesIf_checkSwitchInt (hgoto : GotoMoves mode goto) (henv : env.NoDangling) (discr : Operand)
    (targets : SwitchTargets) :
    MovesIf mode (fun _ => True) (checkSwitchInt goto env discr targets) := by
  refine .of_moves (.liftCursor (.ofExcept (checkOperand_noDangling henv discr))) fun r hr => ?_
  obtain ⟨env, discr_ty⟩ := r
  refine .of_moves (.recordEnv hr.noDangling) fun _ _ => ?_
  refine .bind (R := fun _ => True) (fun _ => ?_) (.forM (fun p => ?_) fun p => ?_) fun _ _ => ?_
  · exact (Extends.liftCursor _).bind fun _ => extends_checkTarget hgoto.1 _ _ _
  · exact (Extends.liftCursor _).bind fun _ => extends_checkTarget hgoto.1 _ _ _
  · exact .of_moves (.liftCursor (.ofExcept (notDangling_switchGuard discr_ty p.1)))
      fun e _ => movesIf_checkTarget hgoto hr.noDangling (some e) p.2
  · exact .of_moves (.liftCursor (.ofExcept (notDangling_otherwiseGuard discr_ty _)))
      fun e _ => movesIf_checkTarget hgoto hr.noDangling e _

/-- A terminator leaves nothing dangling if its `goto` does not. -/
lemma movesIf_checkTerminator (hgoto : GotoMoves mode goto) (henv : env.NoDangling)
    (terminator : Terminator) :
    MovesIf mode (fun _ => True) (self.checkTerminator goto env terminator) := by
  cases terminator with
  | return_ => exact (Moves.liftCursor (leads_checkReturn self env)).movesIf
  | goto target => exact hgoto.2 target henv
  | switchInt discr targets => exact movesIf_checkSwitchInt hgoto henv discr targets
  | call func substs args destination =>
    refine .of_moves (moves_checkCall henv func substs args destination) fun r hr => ?_
    cases r with
    | none => exact (Moves.pure trivial).movesIf
    | some p => exact hgoto.2 p.2 (hr p rfl)
  | drop place target =>
    refine .of_moves (.liftCursor (.ofExcept (henv.movePlace place))) fun r hr => ?_
    exact .of_moves (.recordEnv hr.noDangling) fun _ _ => hgoto.2 target hr.noDangling

/-- A whole block leaves nothing dangling if its `goto` does not. -/
lemma movesIf_checkBasicBlock (hgoto : GotoMoves mode goto) (henv : env.NoDangling)
    (bb : BasicBlock) : MovesIf mode (fun _ => True) (self.checkBasicBlock goto env bb) := by
  refine .of_moves (moves_enterBlock bb) fun _ _ => ?_
  split
  · exact (Moves.stop (by simp)).movesIf
  · next data _ =>
    refine .of_moves (moves_checkStatements henv data.statements) fun env henv => ?_
    cases data.terminator with
    | none => exact (Moves.pure trivial).movesIf
    | some terminator => exact movesIf_checkTerminator hgoto henv terminator

end Goto

/-! ## Join points -/

/-- **An edge to a join point in inference.** The environments that meet are joined. -/
lemma movesIf_inferJoinPoint {s : State} (hs : s.NoDangling mode) (henv : env.NoDangling)
    (target : BasicBlock)
    (hmatched : ∀ bbEnv, s.bbEnvs.lookup target = some bbEnv → CommonClosed bbEnv env) :
    wpIf (Event.Matched mode) (self.inferJoinPoint env target) (fun _ s' => s'.NoDangling mode)
      Stopped.NoDangling s := by
  refine wpIf_of_wp ?_
  rw [inferJoinPoint, wp_bind, wp_get]
  split
  · next bbEnv hbbEnv =>
    have hjoin := leads_joinWith self.globalEnv.tcx (hmatched bbEnv hbbEnv) henv
    have hmoves : Moves mode (fun _ => True) (do
        let bbEnv ← liftCursor (bbEnv.joinWith self.globalEnv.tcx env)
        record (.env bbEnv)
        modify fun s => { s with bbEnvs := s.bbEnvs.insert target bbEnv }) :=
      (Moves.liftCursor hjoin).bind fun _ h => (Moves.recordEnv h).bind fun _ _ =>
        moves_store target h
    exact wp_imp (hmoves s hs) fun _ _ h => h.1
  · exact wp_imp (moves_store target henv s hs) fun _ _ h => h.1

/-- The environment of a join point in the check is made from a shape at the first edge. -/
lemma movesIf_checkBbEnv (env : TypeEnv) (target : BasicBlock)
    {shapes : AList fun _ : BasicBlock => TypeEnvShape}
    (hphase : (Mode.check shapes).SamePhase mode) :
    MovesIf mode TypeEnv.NoDangling (checkBbEnv env target shapes) := by
  intro s hs
  rw [checkBbEnv, wpIf, wp_bind, wp_get]
  split
  · next bbEnv hbbEnv => exact fun _ => ⟨hs, hs.bbEnvs hbbEnv⟩
  · split
    · exact (Moves.stop (by simp)).movesIf s hs
    · next shape _ =>
      refine MovesIf.record (fun _ => ?_) (by simp)
        (fun hshape => ?_) s hs
      · exact (Extends.modify (by intro; rfl)).bind fun _ => (Extends.liftCursor _).bind fun _ =>
          (Extends.record _).bind fun _ => (Extends.modify (by intro; rfl)).bind fun _ =>
          Extends.pure _
      · exact ((moves_modify (fun _ _ => hphase.check _) (by intro; rfl)
            (by intro; rfl)).bind fun _ _ =>
          (Moves.liftCursor (leads_inferBbEnv hshape)).bind fun _ h =>
          (Moves.recordEnv h).bind fun _ _ => (moves_store target h).bind fun _ _ =>
          .pure h).movesIf

/-- **An edge to a join point.** -/
lemma movesIf_checkGotoJoinPoint (henv : env.NoDangling) (target : BasicBlock) :
    MovesIf mode (fun _ => True) (self.checkGotoJoinPoint env target) := by
  intro s hs
  rw [checkGotoJoinPoint, wpIf, wp_bind, wp_get]
  split
  · next hmode =>
    refine wpIf_bind (fun _ => self.extends_inferJoinPoint env target)
      (wpIf_record fun hmatched _ => ?_)
    refine wpIf_imp (movesIf_inferJoinPoint (s := { s with trace := _ :: s.trace }) ?_ henv target
      fun bbEnv hbbEnv => ?_) fun _ _ h => ⟨h, trivial⟩
    · exact hs.record (by simp)
    · rw [show s.bbEnvs.lookup target = some bbEnv from hbbEnv] at hmatched
      exact hmatched.inference (hmode ▸ hs.phase)
  · next shapes hmode =>
    have hphase : (Mode.check shapes).SamePhase mode := hmode ▸ hs.phase
    refine MovesIf.bind (fun bbEnv => ?_) (movesIf_checkBbEnv env target hphase)
      (fun bbEnv _ => ?_) s hs
    · exact (Extends.record _).bind fun _ => (Extends.liftCursor _).bind fun _ => Extends.record _
    · refine .record (fun _ => (Extends.liftCursor _).bind fun _ => Extends.record _)
        (by simp) fun hmatched => ?_
      exact ((Moves.liftCursor (leads_transformInto self.globalEnv.tcx
        (hmatched.check hphase))).bind fun _ h => Moves.recordEnv h).movesIf

/-- **No edge makes a pointer dangle.** -/
lemma gotoMoves_checkGoto (fuel : ℕ) : GotoMoves mode (self.checkGoto fuel) := by
  refine ⟨self.extends_checkGoto fuel, ?_⟩
  induction fuel with
  | zero => exact fun _ _ _ => (Moves.stop (by simp)).movesIf
  | succ fuel ih =>
    intro env bb henv
    rw [checkGoto]
    split
    · exact movesIf_checkGotoJoinPoint henv bb
    · exact movesIf_checkBasicBlock ⟨self.extends_checkGoto fuel, ih⟩ henv bb

/-- A block is taken up. -/
lemma movesIf_takeUp (fuel : ℕ) (bb : BasicBlock) :
    MovesIf mode (fun _ => True) (self.takeUp fuel bb) := by
  intro s hs
  rw [takeUp, wpIf, wp_bind, wp_get]
  split
  · rw [wp_bind, wp_get]
    split
    · exact (Moves.stop (by simp)).movesIf s hs
    · next bbEnv hbbEnv =>
      refine MovesIf.of_moves (Moves.record (by simp))
        (fun _ _ => ?_) s hs
      refine .of_moves (.liftCursor (leads_unpack _ (hs.bbEnvs hbbEnv))) fun env henv => ?_
      exact .of_moves (.recordEnv henv) fun _ _ =>
        movesIf_checkBasicBlock (gotoMoves_checkGoto fuel) henv bb
  · exact fun _ => ⟨hs, trivial⟩

/-- **A run makes no pointer dangle** if its events meet the condition. -/
theorem movesIf_run (henv : env.NoDangling) (fuel : ℕ) :
    MovesIf mode (fun _ => True) (self.run fuel env) :=
  .bind (fun _ => .forM fun bb _ => self.extends_takeUp fuel bb)
    ((gotoMoves_checkGoto fuel).2 _ henv) fun _ _ =>
    .forM (self.extends_takeUp fuel) (movesIf_takeUp fuel)

end Checker

/-! ## The prologue -/

namespace GlobalEnv

open Checker

variable {body : Body} {fn_sig : Core.FnSig} {L : Set Loc}

/-- Binding a parameter of the signature keeps the substitution within the locations. -/
lemma leads_bindParam {subst : Subst} (h : subst.Over Set.univ L) (param : Core.Param) :
    Leads (fun subst => subst.Over Set.univ L) (bindParam subst param) :=
  (Leads.of_safe Safe.freshName).bind fun _ _ =>
    (Leads.ofExcept (Subst.notDangling_lowerExpr _ _)).bind fun _ _ =>
    (Leads.of_safe (Safe.pushForall _ _ _)).bind fun _ _ =>
    .pure (h.insertExpr _ (Expr.over_univ _))

/-- Environments and substitutions that lead to locations of the environment. -/
def PrologueOk (p : TypeEnv × Subst) : Prop :=
  p.1.NoDangling ∧ p.2.Over Set.univ p.1.locSet

/-- Binding a required location keeps the prologue right. -/
lemma leads_bindRequired {p : TypeEnv × Subst} (h : PrologueOk p)
    (binding : Core.Name × Core.Ty) : Leads PrologueOk (bindRequired p binding) := by
  refine (Subst.leads_lowerTy h.2 binding.2).bind fun ty hty => ?_
  refine (Leads.of_safe Safe.freshName).bind fun x _ => ?_
  refine (leads_unpackTy hty).bind fun ty hty => .pure ⟨h.1.insertLoc ?_, ?_⟩
  · exact hty.mono le_rfl (Set.subset_insert _ _)
  · rw [locSet_insertLoc]
    exact (h.2.mono le_rfl (Set.subset_insert _ _)).insertLoc _ (Set.mem_insert _ _)

/-- Binding an argument keeps the prologue right. -/
lemma leads_bindArg {p : TypeEnv × Subst} (h : PrologueOk p) (arg : Local × Core.Ty) :
    Leads (fun env => PrologueOk (env, p.2)) (bindArg p.2 p.1 arg) := by
  refine (Subst.leads_lowerTy h.2 arg.2).bind fun ty hty => ?_
  refine (leads_unpackTy hty).bind fun ty hty => .pure ⟨h.1.insertLoc ?_, ?_⟩
  · exact hty.mono le_rfl (Set.subset_insert _ _)
  · rw [locSet_insertLoc]
    exact h.2.mono le_rfl (Set.subset_insert _ _)

/-- An uninitialized local keeps the prologue right. -/
lemma PrologueOk.insertUninit {p : TypeEnv × Subst} (h : PrologueOk p) (loc : Loc) :
    PrologueOk (p.1.insertLoc loc .uninit, p.2) := by
  refine ⟨h.1.insertLoc trivial, ?_⟩
  rw [locSet_insertLoc]
  exact h.2.mono le_rfl (Set.subset_insert _ _)

variable (body fn_sig) in
/-- **The environment that the prologue makes** has no dangling pointer. -/
lemma leads_prologue : Leads (fun p => p.env.NoDangling) (prologue body fn_sig) := by
  refine (Leads.foldlM (S := fun subst : Subst => subst.Over Set.univ ∅)
    (fun param _ subst h => leads_bindParam h param) Subst.over_withEmptyTypeSubsts).bind
    fun subst hsubst => ?_
  refine (Leads.foldlM (S := PrologueOk) (fun binding _ p h => leads_bindRequired h binding)
    ⟨noDangling_new, hsubst.mono le_rfl (Set.empty_subset _)⟩).bind fun p hp => ?_
  obtain ⟨env, subst⟩ := p
  refine (Leads.foldlM (S := fun env => PrologueOk (env, subst))
    (fun arg _ env h => leads_bindArg h arg) hp).bind fun env henv => ?_
  have hvars : PrologueOk (body.varsAndTempsIter.foldl
      (fun env l => env.insertLoc (.local_ l) .uninit) env, subst) := by
    generalize body.varsAndTempsIter = vars
    induction vars generalizing env with
    | nil => exact henv
    | cons l vars ih => exact ih _ (henv.insertUninit _)
  have hret := hvars.insertUninit (.local_ returnPlace)
  have hensures : Leads (fun _ => True) (prologueEnsures subst fn_sig.ensures) := fun c =>
    wp_imp (wp_mapM (I := fun _ => True) (R := fun _ _ => True) (fun binding _ c _ =>
      wp_imp (((Subst.leads_lowerTy hret.2 binding.2).bind fun _ _ =>
        (Leads.orFail (R := fun _ => True) (fun _ _ => trivial) fun _ => by decide).bind
          fun _ _ => .pure (R := fun _ => True) trivial) c) fun _ _ _ => ⟨trivial, trivial⟩)
      trivial)
      fun _ _ _ => trivial
  exact hensures.bind fun _ _ => (Subst.leads_lowerTy hret.2 fn_sig.ret).bind
    fun _ _ => .pure hret.1

/-! ## Runs -/

/-- **The runs of a phase** on a function, with the trace and, if the run stops, the reason. -/
inductive IsRun (globalEnv : GlobalEnv) (body : Body) (fn_sig : Core.FnSig) (fuel : ℕ)
    (mode : Mode) : List Event → Option Stop → Prop
  | prologue {f : Failure} : (prologue body fn_sig).run ConstraintBuilder.new.asCursor = .error f →
      IsRun globalEnv body fn_sig fuel mode [] (some (.failure f))
  | checker {p : Prologue} {cursor : Cursor} {f : Failure} :
      (GlobalEnv.prologue body fn_sig).run ConstraintBuilder.new.asCursor = .ok (p, cursor) →
      globalEnv.checker body p.retTy p.ensures = .error f →
      IsRun globalEnv body fn_sig fuel mode [.env p.env] (some (.failure f))
  | stopped {p : Prologue} {cursor : Cursor} {self : Checker} {e : Stopped} :
      (GlobalEnv.prologue body fn_sig).run ConstraintBuilder.new.asCursor = .ok (p, cursor) →
      globalEnv.checker body p.retTy p.ensures = .ok self →
      (self.run fuel p.env).run (initialState mode cursor p.env) = .error e →
      IsRun globalEnv body fn_sig fuel mode e.state.trace (some e.stop)
  | done {p : Prologue} {cursor : Cursor} {self : Checker} {s : State} :
      (GlobalEnv.prologue body fn_sig).run ConstraintBuilder.new.asCursor = .ok (p, cursor) →
      globalEnv.checker body p.retTy p.ensures = .ok self →
      (self.run fuel p.env).run (initialState mode cursor p.env) = .ok ((), s) →
      IsRun globalEnv body fn_sig fuel mode s.trace none

section IsRun

variable {globalEnv : GlobalEnv} {fuel : ℕ} {mode : Mode}

/-- What `check_or_infer` returns is the result of a run. -/
lemma isRun_of_checkOrInfer :
    (∀ e, globalEnv.checkOrInfer body fn_sig fuel mode = .error e →
      ∃ trace, globalEnv.IsRun body fn_sig fuel mode trace (some e)) ∧
    ∀ r, globalEnv.checkOrInfer body fn_sig fuel mode = .ok r →
      globalEnv.IsRun body fn_sig fuel mode r.2.trace none := by
  unfold checkOrInfer
  cases hp : (prologue body fn_sig).run ConstraintBuilder.new.asCursor with
  | error f =>
    refine ⟨?_, fun _ h => nomatch h⟩
    rintro _ ⟨⟩
    exact ⟨_, .prologue hp⟩
  | ok r =>
    obtain ⟨p, cursor⟩ := r
    dsimp only
    cases hchecker : globalEnv.checker body p.retTy p.ensures with
    | error f =>
      refine ⟨?_, fun _ h => nomatch h⟩
      rintro _ ⟨⟩
      exact ⟨_, .checker hp hchecker⟩
    | ok self =>
      dsimp only
      cases hrun : (self.run fuel p.env).run (initialState mode cursor p.env) with
      | error e =>
        refine ⟨?_, fun _ h => nomatch h⟩
        rintro _ ⟨⟩
        exact ⟨_, .stopped hp hchecker hrun⟩
      | ok r =>
        obtain ⟨⟨⟩, s⟩ := r
        refine ⟨fun _ h => (nomatch h), ?_⟩
        rintro _ ⟨⟩
        exact .done hp hchecker hrun

variable (globalEnv body) in
/-- The checker is made, or a block has no immediate dominator. -/
lemma notDangling_checker (retTy : Ty) (ensures : List (Loc × Ty)) :
    post (globalEnv.checker body retTy ensures) (fun _ => True) (· ≠ .dangling) := by
  have hdominators : post (body.joinPoints.mapM fun bb =>
      orError Failure.missing (body.mir.immediateDominator bb))
        (fun _ => True) (· ≠ .dangling) := by
    induction body.joinPoints with
    | nil => trivial
    | cons bb bbs ih =>
      rw [List.mapM_cons, post_bind, post_orError]
      refine ⟨fun _ _ => ?_, fun _ => by decide⟩
      rw [post_bind]
      exact post_mono ih (fun _ _ => trivial) fun _ h => h
  rw [checker, post_bind]
  exact post_mono hdominators (fun _ _ => trivial) fun _ h => h

/-- **No location dangles.** In every run of either phase whose events meet the condition, all
pointers of the environments that are reached lead to bound locations, and the run does not stop
for a location that is missing.

**Proof sketch.** Outside of join points every operation keeps that no pointer dangles, since a
location is only ever replaced (`Leads`). Weakening drops the locations that one environment has,
and the condition on the edge says that nothing that stays leads to them, so the join and the
transformation keep it as well. The steps of the checker follow (`Moves`, and `MovesIf` below the
events with a condition), and the run by induction on the fuel (`movesIf_run`). -/
theorem isRun_noDangling {trace : List Event} {stop : Option Stop}
    (h : globalEnv.IsRun body fn_sig fuel mode trace stop)
    (hmatched : ∀ e ∈ trace, e.Matched mode) :
    (∀ env, .env env ∈ trace → env.NoDangling) ∧ stop ≠ some (.failure .dangling) := by
  have hprologue := leads_prologue body fn_sig ConstraintBuilder.new.asCursor
  have henv : ∀ {p : Prologue} {cursor : Cursor},
      (prologue body fn_sig).run ConstraintBuilder.new.asCursor = .ok (p, cursor) →
      p.env.NoDangling ∧ (initialState mode cursor p.env).NoDangling mode := by
    intro p cursor hp
    have henv := wp_of_run_ok (Q := fun p _ => p.env.NoDangling) hprologue hp
    refine ⟨henv, Mode.samePhase_self mode, fun env h => ?_, fun bb env hlookup => ?_⟩
    · obtain rfl := Event.env.inj (List.mem_singleton.mp h)
      exact henv
    · cases hlookup
  cases h with
  | prologue hp =>
    refine ⟨fun _ h => (nomatch h), fun h => ?_⟩
    exact wp_of_run_error hprologue hp (Stop.failure.inj (Option.some.inj h))
  | @checker p _ _ hp hchecker =>
    refine ⟨(henv hp).2.trace, fun h => ?_⟩
    have hf := notDangling_checker body globalEnv p.retTy p.ensures
    rw [hchecker] at hf
    exact hf (Stop.failure.inj (Option.some.inj h))
  | stopped hp _ hrun =>
    have hstop := wp_of_run_error (movesIf_run (henv hp).1 fuel _ (henv hp).2) hrun hmatched
    exact ⟨hstop.trace, fun h => hstop.stop (Option.some.inj h)⟩
  | done hp _ hrun =>
    have hs := wp_of_run_ok (movesIf_run (henv hp).1 fuel _ (henv hp).2) hrun hmatched
    exact ⟨hs.1.trace, fun h => nomatch h⟩

end IsRun

/-- The type `i32` with any index. -/
def i32Ty : Core.Ty :=
  .exists_ (.int .i32) .tt

/-- The signature `fn(bool, i32, i32) -> i32`. -/
def pointerSig : Core.FnSig where
  params := []
  requires := []
  args := [.exists_ .bool .tt, i32Ty, i32Ty]
  ret := i32Ty
  ensures := []

/-- A branch on the first argument, whose targets take pointers to the others. Block 3 reads
through the pointer. -/
def pointerBody : Body where
  basicBlocks :=
    [⟨[], some (.switchInt (.copy ⟨1, []⟩) ⟨[(0, 1)], 2⟩)⟩,
      ⟨[.assign ⟨4, []⟩ (.mutRef ⟨2, []⟩)], some (.goto 3)⟩,
      ⟨[.assign ⟨4, []⟩ (.mutRef ⟨3, []⟩)], some (.goto 3)⟩,
      ⟨[.assign ⟨0, []⟩ (.use (.copy ⟨4, [.deref]⟩))], some .return_⟩]
  argCount := 3
  nlocals := 5
  mir :=
    { predecessors := fun
        | 1 => [0]
        | 2 => [0]
        | 3 => [1, 2]
        | _ => []
      reversePostorder := [0, 2, 1, 3]
      immediateDominator := fun _ => some 0 }

/-- Surroundings with one function `fn() -> ref<l>; l: i32`, which makes a new location. -/
def newLocGlobalEnv : GlobalEnv where
  specs := fun _ => some ⟨[], [], [], .mutRef 0, [(0, i32Ty)]⟩
  tcx := .ofStack 8

/-- The same branch, whose targets call the function. -/
def newLocBody : Body :=
  { pointerBody with
    basicBlocks :=
      [⟨[], some (.switchInt (.copy ⟨1, []⟩) ⟨[(0, 1)], 2⟩)⟩,
        ⟨[], some (.call 0 [] [] (some (⟨4, []⟩, 3)))⟩,
        ⟨[], some (.call 0 [] [] (some (⟨4, []⟩, 3)))⟩,
        ⟨[.assign ⟨0, []⟩ (.use (.copy ⟨4, [.deref]⟩))], some .return_⟩] }

/-- Both phases on the branch that takes pointers. -/
theorem isRun_noDangling_pointers : ∃ shapes trace,
    newLocGlobalEnv.infer pointerBody pointerSig 6 = .ok shapes ∧
    newLocGlobalEnv.IsRun pointerBody pointerSig 6 (.check shapes) trace none ∧
    ∀ env, .env env ∈ trace → env.NoDangling := by
  have hruns : ((newLocGlobalEnv.infer pointerBody pointerSig 6).bind fun shapes =>
      (newLocGlobalEnv.checkOrInfer pointerBody pointerSig 6 (.check shapes)).bind fun p =>
        .ok (decide (∀ e ∈ p.2.trace, e.Matched (.check shapes)))) = .ok true := by
    decide +kernel
  cases hinfer : newLocGlobalEnv.infer pointerBody pointerSig 6 with
  | error e =>
    rw [hinfer] at hruns
    exact nomatch hruns
  | ok shapes =>
    rw [hinfer] at hruns
    cases hcheck : newLocGlobalEnv.checkOrInfer pointerBody pointerSig 6 (.check shapes) with
    | error e =>
      rw [Except.bind, hcheck] at hruns
      exact nomatch hruns
    | ok p =>
      rw [Except.bind, hcheck] at hruns
      have hrun := isRun_of_checkOrInfer.2 p hcheck
      exact ⟨shapes, p.2.trace, rfl, hrun,
        (isRun_noDangling hrun (of_decide_eq_true (Except.ok.inj hruns))).1⟩

/-- **Some runs stop for a location that is missing.** Each target of the branch has a pointer to
the location that its call has made. -/
theorem isRun_dangling : ¬∀ (globalEnv : GlobalEnv) (body : Body) (fn_sig : Core.FnSig) (fuel : ℕ)
    (mode : Mode) (trace : List Event) (stop : Option Stop),
    globalEnv.IsRun body fn_sig fuel mode trace stop →
    (∀ env, .env env ∈ trace → env.NoDangling) ∧ stop ≠ some (.failure .dangling) := by
  intro hclaim
  have hstop : (newLocGlobalEnv.infer newLocBody pointerSig 6).map (fun _ => ()) =
      .error (.failure .dangling) := by
    decide +kernel
  cases hinfer : newLocGlobalEnv.checkOrInfer newLocBody pointerSig 6 .inference with
  | ok r =>
    rw [infer, hinfer] at hstop
    exact nomatch hstop
  | error e =>
    rw [infer, hinfer] at hstop
    obtain ⟨trace, hrun⟩ := isRun_of_checkOrInfer.1 e hinfer
    obtain rfl : e = .failure .dangling := Except.error.inj hstop
    exact (hclaim _ _ _ _ _ _ _ hrun).2 rfl

end GlobalEnv

end LiquidRust.Typeck
