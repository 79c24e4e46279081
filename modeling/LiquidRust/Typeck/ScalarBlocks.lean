import LiquidRust.Lib.Safety
import LiquidRust.Typeck.ScalarCalls
import LiquidRust.Typeck.ScalarJoins
import LiquidRust.Typeck.Switch
import LiquidRust.Typeck.Checker

set_option relaxedAutoImplicit false
set_option autoImplicit false

/-!
# Blocks over integers and booleans are sound

An execution does not go wrong if its statements can be executed, a switch is about an integer or a
boolean, calls meet the preconditions of the functions that are called, and what is returned meets
the postcondition. A block that is checked does not go wrong before its terminator, and after it
only if a block that it goes to does.

## Main definitions

* `LiquidRust.Typeck.Config.Ok` — nothing goes wrong in the next step.
* `LiquidRust.Typeck.Setting` — what is fixed while a check is shown to be sound.

## Main results

* `LiquidRust.Typeck.Discr.eval_guard` — the guards of a switch.
* `LiquidRust.Typeck.Setting.wp_checkStatements_safe` — the statements of a block.
* `LiquidRust.Typeck.Setting.wp_checkReturn_safe` — the end of an execution.
-/

namespace LiquidRust.Typeck

open Lib Cursor
open Core.Ir (BasicBlock Body Operand Statement Terminator SwitchTargets returnPlace)

/-! ## What does not go wrong -/

/-- Nothing goes wrong at a terminator. -/
def TerminatorOk (specs : DefId → Option Core.FnSig) (Post : Value → Prop) (S : Store) :
    Terminator → Prop
  | .return_ => Post (S (.local_ returnPlace))
  | .switchInt discr _ => ∃ u, S.operand discr = some u ∧ u.IsDiscr
  | .call func _ args _ => ∃ fn_sig us inst, specs func = some fn_sig ∧
      args.mapM S.operand = some us ∧ fn_sig.Pre inst us
  | .goto _ | .drop _ _ => True

/-- **Nothing goes wrong in the next step**: a statement can be executed, a call meets its
precondition, and what is returned the postcondition. -/
def Config.Ok (body : Body) (specs : DefId → Option Core.FnSig) (Post : Value → Prop)
    (cfg : Config) : Prop :=
  match cfg.statements with
  | stmt :: _ => (cfg.store.exec stmt).isSome
  | [] => ∀ terminator ∈ terminatorAt body cfg.block,
      TerminatorOk specs Post cfg.store terminator

/-- What is fixed while a check is shown to be sound: the checker, what calls may do, the meaning
of the constraint, the locations, a property of valuations that the names in `N` decide, the
postcondition, and the tree and the trace that the check ends with. -/
structure Setting where
  self : Checker
  discrs : BasicBlock → Discr
  calls : Calls
  I : Interp
  D : Set Loc
  N : Set Name
  Q : Valuation → Prop
  Post : Value → Prop
  tree : Node
  trace : List Event

namespace Setting

variable (W : Setting)

/-- What is known of the ADTs. -/
abbrev tcx : Tcx :=
  W.self.globalEnv.tcx

/-- The signatures of the functions that are called. -/
abbrev specs : DefId → Option Core.FnSig :=
  W.self.globalEnv.specs

/-- The body that is checked. -/
abbrev body : Body :=
  W.self.body

/-- Nothing goes wrong in fewer than `n` steps. -/
def Safe (n : ℕ) (cfg : Config) : Prop :=
  SafeFor (Step W.body W.discrs W.calls) (Config.Ok W.body W.specs W.Post) n cfg

/-- **What a setting has**: signatures and statements have no references, the functions that are
called keep their contracts, the constraint is true, and its result type is the postcondition. -/
structure Fair : Prop where
  specs : ∀ ⦃func fn_sig⦄, W.specs func = some fn_sig → fn_sig.Scalar
  statements : ∀ bb, ∀ stmt ∈ statementsAt W.body bb,
    Checker.RefFreeStatement stmt ∧ Checker.ComputesStatement W.I stmt
  switches : ∀ ⦃bb discr targets⦄, terminatorAt W.body bb = some (.switchInt discr targets) →
    targets.targets ≠ [] ∧ ∀ p ∈ targets.targets, (W.discrs bb).IsNonNegative p.1
  respect : W.calls.Respect W.specs
  tree : ∀ ρ, W.tree.Holds W.I ρ
  names : ∀ ⦃ρ ρ'⦄, Valuation.AgreeOn W.N ρ ρ' → W.Q ρ → W.Q ρ'
  retTy : W.self.retTy.Scoped W.N
  result : ∀ ⦃ρ S u⦄, W.Q ρ → W.self.retTy.Has W.tcx S W.I ρ u → W.Post u
  ensures : W.self.ensures = []

variable {W} {n : ℕ} {bb : BasicBlock} {S S' : Store}

/-- A statement is a step. -/
lemma safe_statement {stmt : Statement} {rest : List Statement} (hexec : S.exec stmt = some S')
    (h : W.Safe n ⟨bb, rest, S'⟩) : W.Safe n ⟨bb, stmt :: rest, S⟩ := by
  cases n with
  | zero => trivial
  | succ n =>
    refine ⟨Option.isSome_iff_exists.mpr ⟨S', hexec⟩, fun cfg hstep => ?_⟩
    cases hstep with
    | statement hexec' =>
      obtain rfl := Option.some.inj (hexec.symm.trans hexec')
      exact SafeFor.pred h

/-- After a terminator, one step less is left. -/
lemma safe_terminator (h : ∀ terminator ∈ terminatorAt W.body bb,
      TerminatorOk W.specs W.Post S terminator ∧ ∀ target S',
        Goes (W.discrs bb) W.calls S terminator target S' → W.Safe n (.enter W.body target S')) :
    W.Safe (n + 1) ⟨bb, [], S⟩ := by
  refine ⟨fun terminator hterminator => (h terminator hterminator).1, fun cfg hstep => ?_⟩
  cases hstep with
  | terminator hterminator hgoes => exact (h _ hterminator).2 _ _ hgoes

end Setting

/-! ## Guards -/

variable {tcx : Tcx} {I : Interp} {ρ : Valuation} {S : Store} {u : Value} {ty : DiscrTy} {e : Expr}

/-- The values of the types of discriminants. -/
lemma Value.isDiscr_of_has (h : (Ty.refine ty.baseTy e).Has tcx S I ρ u) : u.IsDiscr := by
  cases ty with
  | bool =>
    obtain ⟨b, rfl, -⟩ := Checker.has_bool h
    trivial
  | integral ty =>
    obtain ⟨n, rfl, -⟩ := Checker.has_integral h
    trivial

/-- A boolean is listed with its number. -/
lemma Discr.isListed_bool {discr : Discr} {bits : ℕ} {b : Bool} (hdiscr : discr.Has (.bool b))
    (hbits : discr.IsNonNegative bits) : discr.IsListed bits (.bool b) ↔ b = decide (bits ≠ 0) := by
  have hbool : discr.ty = .bool := hdiscr
  rw [IsListed, hbits.2, if_pos hbool, Value.index, Option.some.injEq, Fixpoint.Val.bool.injEq]

/-- An integer is listed with itself. -/
lemma Discr.isListed_int {discr : Discr} {bits : ℕ} {n : ℤ} (hdiscr : discr.Has (.int n))
    (hbits : discr.IsNonNegative bits) : discr.IsListed bits (.int n) ↔ n = bits := by
  have hint : discr.ty ≠ .bool := hdiscr
  rw [IsListed, hbits.2, if_neg hint, Value.index, Option.some.injEq, Fixpoint.Val.int.injEq]

/-- **The guard of a target** is true of the discriminants that are listed with it, if that is not
a negative number. -/
lemma Discr.eval_guard {discr : Discr} (h : (Ty.refine ty.baseTy e).Has tcx S I ρ u)
    (hdiscr : discr.Has u) {bits : ℕ} (hbits : discr.IsNonNegative bits) :
    (ty.guard e bits).eval I.div ρ = some (.bool (decide (discr.IsListed bits u))) := by
  cases ty with
  | bool =>
    obtain ⟨b, rfl, he⟩ := Checker.has_bool h
    simp only [isListed_bool hdiscr hbits]
    by_cases hzero : bits = 0
    · simp [DiscrTy.guard, hzero, Expr.not, Expr.eval, he, Fixpoint.UnOp.eval]
    · simp [DiscrTy.guard, hzero, he]
  | integral ty =>
    obtain ⟨n, rfl, he⟩ := Checker.has_integral h
    simp only [isListed_int hdiscr hbits]
    cases ty with
    | int int_ty =>
      have hvalue : Expr.asI128 bits = bits := if_pos hbits.1
      rw [DiscrTy.guard, Expr.eval, he, Expr.eval, Fixpoint.Constant.eval_ofI128, hvalue]
      rfl
    | uint uint_ty =>
      rw [DiscrTy.guard, Expr.eval, he]
      rfl

/-- The discriminant of a switch is an integer or a boolean, or has no value. -/
lemma Ty.Indexed.discrTy {N : Set Name} {discr_ty : Ty} (h : discr_ty.Indexed N) :
    discr_ty = .uninit ∨
      ∃ (ty : DiscrTy) (e : Expr), discr_ty = .refine ty.baseTy e ∧ e.Over N := by
  cases discr_ty with
  | refine bty e =>
    refine .inr ?_
    cases bty with
    | int int_ty => exact ⟨.integral (.int int_ty), e, rfl, h.2.over⟩
    | uint uint_ty => exact ⟨.integral (.uint uint_ty), e, rfl, h.2.over⟩
    | bool => exact ⟨.bool, e, rfl, h.2.over⟩
    | adt did substs => cases h.1
  | uninit => exact .inl rfl
  | _ => exact h.elim

/-- The guards of a switch speak of the names of its discriminant. -/
lemma DiscrTy.over_guard {N : Set Name} (he : e.Over N) (ty : DiscrTy) (bits : ℕ) :
    (ty.guard e bits).Over N := by
  rcases ty with _ | _ | _
  · show (if bits ≠ 0 then e else e.not).Over N
    split
    · exact he
    · exact he
  · exact ⟨he, trivial⟩
  · exact ⟨he, trivial⟩

/-- A conjunction is over the names its parts are. -/
lemma Checker.over_conjunction {N : Set Name} {es : List Expr} (hes : ∀ e ∈ es, e.Over N) :
    ∀ e ∈ conjunction es, e.Over N := by
  have hfold : ∀ (es : List Expr) (e : Expr), e.Over N → (∀ e ∈ es, e.Over N) →
      (es.foldl (fun e1 e2 => .binaryOp .and e1 e2) e).Over N := by
    intro es
    induction es with
    | nil => exact fun e he _ => he
    | cons e₁ es ih =>
      intro e he hes
      exact ih (.binaryOp .and e e₁) ⟨he, hes e₁ (.head _)⟩ fun e' he' => hes e' (.tail _ he')
  cases es with
  | nil =>
    intro e he
    cases he
  | cons e es =>
    intro e' he'
    obtain rfl := Option.some.inj he'
    exact hfold es e (hes e (.head _)) fun e' he' => hes e' (.tail _ he')

/-! ## Steps of a block -/

/-- The cursor of an event. -/
def Event.cursor? : Event → Option Cursor
  | .edge _ _ _ _ cursor | .takeUp _ _ cursor => some cursor
  | .block _ | .env _ | .shape _ _ _ => none

/-- No block is visited, and no join point is come to. -/
structure Steady (s s' : State) : Prop where
  visited : s'.visited = s.visited
  bbEnvs : s'.bbEnvs = s.bbEnvs
  mode : s'.mode = s.mode
  trace : ∃ envs : List TypeEnv, s'.trace = envs.map Event.env ++ s.trace

namespace Steady

variable {α β : Type} {s s' s'' : State}

/-- A state is steady with itself. -/
lemma refl (s : State) : Steady s s :=
  ⟨rfl, rfl, rfl, [], rfl⟩

/-- One steady step after another. -/
lemma trans (h : Steady s s') (h' : Steady s' s'') : Steady s s'' where
  visited := h'.visited.trans h.visited
  bbEnvs := h'.bbEnvs.trans h.bbEnvs
  mode := h'.mode.trans h.mode
  trace := by
    obtain ⟨envs, htrace⟩ := h.trace
    obtain ⟨envs', htrace'⟩ := h'.trace
    exact ⟨envs' ++ envs, by rw [htrace', htrace, List.map_append, List.append_assoc]⟩

/-- A new cursor keeps the state steady. -/
lemma withCursor (s : State) (cursor : Cursor) : Steady s { s with cursor } :=
  ⟨rfl, rfl, rfl, [], rfl⟩

/-- Recording an environment keeps the state steady. -/
lemma withEnv (s : State) (env : TypeEnv) : Steady s { s with trace := .env env :: s.trace } :=
  ⟨rfl, rfl, rfl, [env], rfl⟩

/-- The steps of calls are of this kind. -/
abbrev Kept (m : CheckM α) : Prop :=
  Keeps Steady (fun _ => True) m

/-- A cursor operation keeps the state steady. -/
lemma kept_liftCursor (m : CursorM α) : Kept (liftCursor m) := by
  intro s
  rw [wp_liftCursor]
  exact wp_of_forall (fun _ c => withCursor s c) fun _ => trivial

/-- Recording an environment keeps the state steady. -/
lemma kept_record (env : TypeEnv) : Kept (record (.env env)) :=
  fun s => withEnv s env

/-- One step after another keeps the state steady if each does. -/
lemma kept_bind {m : CheckM α} {k : α → CheckM β} (hm : Kept m) (hk : ∀ a, Kept (k a)) :
    Kept (m >>= k) :=
  Keeps.bind (R := Steady) (fun _ _ _ => trans) hm hk

/-- Returning keeps the state steady. -/
lemma kept_pure (a : α) : Kept (pure a) :=
  Keeps.pure (R := Steady) refl a

/-- `check_call` keeps the state steady. -/
lemma kept_checkCall (self : Checker) (env : TypeEnv) (func : DefId) (substs : List Core.Ty)
    (args : List Operand) (destination : Option (Core.Ir.Place × BasicBlock)) :
    Kept (self.checkCall env func substs args destination) := by
  refine kept_bind (kept_liftCursor _) fun fn_sig => ?_
  refine kept_bind (kept_liftCursor _) fun r => ?_
  refine kept_bind (kept_record _) fun _ => ?_
  refine kept_bind (kept_liftCursor _) fun subst => ?_
  refine kept_bind (kept_liftCursor _) fun inferred => ?_
  cases inferred with
  | none => exact fun _ => trivial
  | some subst =>
    refine kept_bind (kept_liftCursor _) fun _ => kept_bind (kept_liftCursor _) fun _ =>
      kept_bind (kept_liftCursor _) fun _ => kept_bind (Keeps.foldlM (R := Steady) refl
        (fun _ _ _ => trans) (fun binding _ p => ?_) _) fun p => ?_
    · exact kept_bind (kept_liftCursor _) fun p => kept_bind (kept_record _) fun _ =>
        kept_pure _
    · cases destination with
      | none => exact kept_pure _
      | some d =>
        exact kept_bind (kept_liftCursor _) fun env => kept_bind (kept_record _) fun _ =>
          kept_pure _

end Steady

/-- Steps of a block: the cursor is ready in the end, where it was or below. -/
structure Advances (s s' : State) : Prop extends Steady s s' where
  ready : s'.cursor.Ready
  le : s.cursor.Le s'.cursor

namespace Setting

variable {W : Setting} {s : State} {env : TypeEnv}

/-- **The statements of a block** can be executed one after the other. -/
lemma wp_checkStatements_safe (hW : W.Fair) (hs : s.cursor.Ready)
    (henv : env.Local (Ty.Indexed (namesBefore s.cursor.builder.nameGen)) W.D)
    {stmts : List Statement}
    (hstmts : ∀ stmt ∈ stmts, Checker.RefFreeStatement stmt ∧ Checker.ComputesStatement W.I stmt) :
    wp (W.self.checkStatements env stmts) (fun env' s' => Advances s s' ∧
        env'.Local (Ty.Indexed (namesBefore s'.cursor.builder.nameGen)) W.D ∧
        (s'.cursor.builder.root.Grows W.tree → ∀ ρ S, s.cursor.Assumes W.I ρ →
          env.Inhabits W.tcx W.I ρ S → s'.cursor.Assumes W.I ρ ∧ ∀ n bb,
            (∀ S', env'.Inhabits W.tcx W.I ρ S' → W.Safe n ⟨bb, [], S'⟩) →
              W.Safe n ⟨bb, stmts, S⟩))
      (fun _ => True) s := by
  induction stmts generalizing env s with
  | nil =>
    exact ⟨⟨.refl s, hs, .refl _⟩, henv, fun _ ρ S hρ hS => ⟨hρ, fun n bb h => h S hS⟩⟩
  | cons stmt stmts ih =>
    obtain ⟨⟨hfree, hcomputes⟩, hstmts⟩ := List.forall_mem_cons.mp hstmts
    have hstep := (Checker.proves_checkStatement W.tcx hs.toValid henv hfree).ready
      (F := W.tree) (I := W.I) (KeepsNamed.checkStatement stmt) hs
    rw [Checker.checkStatements, List.foldlM_cons, wp_bind, wp_bind, wp_liftCursor]
    refine wp_imp hstep fun env₁ c₁ h => ?_
    obtain ⟨hc₁, hle₁, -, henv₁, hexec⟩ := h
    rw [wp_bind, wp_record, wp_pure]
    have hmono := namesBefore_mono hle₁.nameGen
    refine wp_imp (ih (s := { s with cursor := c₁, trace := .env env₁ :: s.trace }) hc₁
      (henv₁.mono fun ty (h : ty.Indexed _) => h.mono hmono) hstmts) fun env₂ s₂ h => ?_
    obtain ⟨hadv, henv₂, hrest⟩ := h
    refine ⟨⟨(Steady.withCursor s c₁).trans ((Steady.withEnv _ env₁).trans hadv.toSteady),
      hadv.ready, hle₁.trans hadv.le⟩, henv₂, fun hgrows ρ S hρ hS => ?_⟩
    obtain ⟨hρ₁, hexec⟩ := hexec (hadv.le.root.trans hgrows) ρ (hW.tree ρ) hρ
    obtain ⟨S', hS', hinhabits⟩ := hexec hcomputes S hS
    obtain ⟨hρ₂, hrest⟩ := hrest hgrows ρ S' hρ₁ hinhabits
    exact ⟨hρ₂, fun n bb h => safe_statement hS' (hrest n bb h)⟩

/-- **The end of an execution**: what is returned meets the postcondition. -/
lemma wp_checkReturn_safe (hW : W.Fair) (hs : s.cursor.Ready)
    (hN : W.N ⊆ namesBefore s.cursor.builder.nameGen)
    (henv : env.Local (Ty.Indexed (namesBefore s.cursor.builder.nameGen)) W.D) :
    wp (W.self.checkReturn env) (fun _ c' => c'.Ready ∧ s.cursor.Le c' ∧
        (c'.builder.root.Grows W.tree → ∀ ρ S, s.cursor.Assumes W.I ρ → W.Q ρ →
          env.Inhabits W.tcx W.I ρ S → W.Post (S (.local_ returnPlace))))
      (fun _ => True) s.cursor := by
  have hproves : s.cursor.Proves (fun _ => True) (fun I ρ _ => ∀ S, env.Inhabits W.tcx I ρ S →
      W.self.retTy.Has W.tcx S I ρ (S (.local_ returnPlace))) (W.self.checkReturn env) := by
    rw [Checker.checkReturn]
    refine .ofExcept fun ty hty => ?_
    rw [hW.ensures]
    have hlookup : env.lookupLoc (.local_ returnPlace) = some ty := by
      rw [TypeEnv.lookupLocal] at hty
      cases hl : env.lookupLoc (.local_ returnPlace) with
      | none =>
        rw [hl] at hty
        cases hty
      | some ty' =>
        rw [hl] at hty
        exact congrArg some (Except.ok.inj hty)
    refine (proves_subtyping hs.toValid (N := namesBefore s.cursor.builder.nameGen)
      (fun x hx => hx) (henv.types hlookup).joined.stable.names
      (W.self.retTy.scoped_mono hN hW.retTy)).bind fun _ c' hc' _ _ => ?_
    exact .pure hc' trivial fun I ρ h S hS => h S _ (hS hlookup)
  have hnamed : KeepsNamed (W.self.checkReturn env) := by
    refine (KeepsNamed.ofExcept _).bind fun ty => (KeepsNamed.subtyping _ _ _).bind fun _ => ?_
    exact .forM fun p _ => (KeepsNamed.orFail _ _).bind fun ty => .subtyping _ _ _
  refine wp_imp (hproves.ready (F := W.tree) (I := W.I) hnamed hs) fun _ c' h => ?_
  obtain ⟨hc', hle, -, -, h⟩ := h
  exact ⟨hc', hle, fun hgrows ρ S hρ hQ hS =>
    hW.result hQ ((h hgrows ρ (hW.tree ρ) hρ).2 S hS)⟩

end Setting

end LiquidRust.Typeck
