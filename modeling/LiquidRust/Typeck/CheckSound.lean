import LiquidRust.Typeck.ScalarPrologue
import LiquidRust.Typeck.ScalarTraversal

set_option relaxedAutoImplicit false
set_option autoImplicit false

/-!
# The check is sound

If a function over integers and booleans is checked with the shapes that inference found, and the
constraint of the check is true for some meaning of its unknown predicates, then no execution of
the function goes wrong: its statements can be executed, its calls meet the preconditions of the
functions that they call, and what it returns meets its postcondition. If all functions of a
crate are checked, then no execution of any of them goes wrong, however deep the calls are.

## Main definitions

* `LiquidRust.Typeck.Checkable` — functions over integers and booleans with join points in line.
* `LiquidRust.Typeck.Solves` — the constraint of a check is true.
* `LiquidRust.Typeck.Crate.calls` — what the functions of a crate do.

## Main results

* `LiquidRust.Typeck.GlobalEnv.check_sound` — a function that is checked does not go wrong.
* `LiquidRust.Typeck.Crate.Accepted.runs_ok` — a crate that is accepted does not go wrong.
-/

namespace LiquidRust.Typeck

open Lib Cursor
open Core.Ir (BasicBlock Body startBlock returnPlace Statement)

/-- **Functions over integers and booleans**: the compiler's view of the control-flow graph is
right, its join points are in line, no statement takes a reference, and each switch lists values,
none of which is that of a negative number. -/
structure Checkable (body : Body) (discrs : BasicBlock → Discr) (fn_sig : Core.FnSig) :
    Prop where
  cfg : body.CorrectCfg
  line : body.JoinsInLine
  statements : ∀ bb, ∀ stmt ∈ statementsAt body bb, Checker.RefFreeStatement stmt
  switches : ∀ ⦃bb discr targets⦄, terminatorAt body bb = some (.switchInt discr targets) →
    targets.targets ≠ [] ∧ ∀ p ∈ targets.targets, (discrs bb).IsNonNegative p.1
  sig : fn_sig.Scalar

/-- **A solution of a constraint**: the constraint is true, and its division is that of the
statements. -/
structure Solves (I : Interp) (body : Body) (builder : ConstraintBuilder) : Prop where
  holds : ∀ ρ, builder.root.Holds I ρ
  computes : ∀ bb, ∀ stmt ∈ statementsAt body bb, Checker.ComputesStatement I stmt

namespace GlobalEnv

variable {globalEnv : GlobalEnv} {body : Body} {discrs : BasicBlock → Discr}
  {fn_sig : Core.FnSig} {fuel : ℕ} {mode : Mode}

/-! ## The parts of a phase -/

/-- A phase runs the checker after the prologue. -/
lemma checkOrInfer_eq_ok {checker : Checker} {s : State}
    (h : globalEnv.checkOrInfer body fn_sig fuel mode = .ok (checker, s)) :
    ∃ p cursor, (prologue body fn_sig).run ConstraintBuilder.new.asCursor = .ok (p, cursor) ∧
      globalEnv.checker body p.retTy p.ensures = .ok checker ∧
      (checker.run fuel p.env).run (initialState mode cursor p.env) = .ok ((), s) := by
  unfold checkOrInfer at h
  cases hp : (prologue body fn_sig).run ConstraintBuilder.new.asCursor with
  | error f =>
    rw [hp] at h
    cases h
  | ok r =>
    obtain ⟨p, cursor⟩ := r
    rw [hp] at h
    dsimp only at h
    cases hchecker : globalEnv.checker body p.retTy p.ensures with
    | error f =>
      rw [hchecker] at h
      cases h
    | ok checker' =>
      rw [hchecker] at h
      dsimp only at h
      cases hs : (checker'.run fuel p.env).run (initialState mode cursor p.env) with
      | error e =>
        rw [hs] at h
        cases h
      | ok r =>
        obtain ⟨⟨⟩, s'⟩ := r
        rw [hs] at h
        cases h
        exact ⟨p, cursor, rfl, hchecker, hs⟩

/-- The checker is about the function. -/
lemma checker_eq_ok {retTy : Ty} {ensures : List (Loc × Ty)} {checker : Checker}
    (h : globalEnv.checker body retTy ensures = .ok checker) :
    ∃ dominatesJoinPoint,
      checker = { globalEnv, body, dominatesJoinPoint, retTy, ensures } := by
  obtain ⟨dominators, -, h⟩ := except_bind_eq_ok.mp h
  exact ⟨_, (Except.ok.inj h).symm⟩

/-- A completed inference comes from a completed walk in inference mode. -/
lemma infer_eq_ok {shapes : AList fun _ : BasicBlock => TypeEnvShape}
    (h : globalEnv.infer body fn_sig fuel = .ok shapes) : ∃ checker s,
      globalEnv.checkOrInfer body fn_sig fuel .inference = .ok (checker, s) ∧
      shapes = GlobalEnv.shapes globalEnv.tcx s.bbEnvs := by
  obtain ⟨⟨checker, s⟩, hrun, h⟩ := except_bind_eq_ok.mp h
  exact ⟨checker, s, hrun, (Except.ok.inj h).symm⟩

/-- A completed check comes from a completed walk in check mode. -/
lemma check_eq_ok {shapes : AList fun _ : BasicBlock => TypeEnvShape} {builder : ConstraintBuilder}
    (h : globalEnv.check body fn_sig fuel shapes = .ok builder) : ∃ checker s,
      globalEnv.checkOrInfer body fn_sig fuel (.check shapes) = .ok (checker, s) ∧
      builder = s.cursor.builder := by
  obtain ⟨⟨checker, s⟩, hrun, h⟩ := except_bind_eq_ok.mp h
  exact ⟨checker, s, hrun, (Except.ok.inj h).symm⟩

/-- The shape of a join point is that of the environment that inference ends with. -/
lemma lookup_shapes {tcx : Tcx} {bbEnvs : AList fun _ : BasicBlock => TypeEnv} {bb : BasicBlock}
    {shape : TypeEnvShape} (h : (shapes tcx bbEnvs).lookup bb = some shape) :
    ∃ bbEnv, bbEnvs.lookup bb = some bbEnv ∧ shape = bbEnv.intoShape tcx := by
  have hmem := AList.mem_lookup_iff.mp h
  obtain ⟨⟨bb', bbEnv⟩, hentry, heq⟩ := List.mem_map.mp hmem
  cases heq
  exact ⟨bbEnv, AList.mem_lookup_iff.mpr hentry, rfl⟩

/-! ## Phases -/

section Phase

variable {I : Interp} {calls : Calls} {inst : Instance} {p : Prologue} {cursor : Cursor}
  {N : Set Name} {subst : Subst} {dominatesJoinPoint : BasicBlock → Bool} {tree : Node}
  {trace : List Event}

/-- The setting of the phases of a function. -/
def functionSetting (globalEnv : GlobalEnv) (body : Body) (fn_sig : Core.FnSig)
    (dominatesJoinPoint : BasicBlock → Bool) (discrs : BasicBlock → Discr) (calls : Calls)
    (I : Interp) (inst : Instance) (p : Prologue) (N : Set Name) (subst : Subst) (tree : Node)
    (trace : List Event) : Setting where
  self := { globalEnv, body, dominatesJoinPoint, retTy := p.retTy, ensures := p.ensures }
  discrs := discrs
  calls := calls
  I := I
  D := p.env.locSet
  N := N
  Q ρ := subst.Matches I ρ inst
  Post := fn_sig.Post inst
  tree := tree
  trace := trace

/-- The setting of a checkable function is fair, if its tree holds. -/
lemma fair_functionSetting (hbody : Checkable body discrs fn_sig)
    (hspecs : ∀ ⦃func sig⦄, globalEnv.specs func = some sig → sig.Scalar)
    (hcomputes : ∀ bb, ∀ stmt ∈ statementsAt body bb, Checker.ComputesStatement I stmt)
    (hcalls : calls.Respect globalEnv.specs)
    (hmeets : Meets globalEnv.tcx I body fn_sig p cursor N subst)
    (htree : ∀ ρ, tree.Holds I ρ) :
    (functionSetting globalEnv body fn_sig dominatesJoinPoint discrs calls I inst p N subst tree
      trace).Fair where
  specs := hspecs
  statements bb stmt hstmt := ⟨hbody.statements bb stmt hstmt, hcomputes bb stmt hstmt⟩
  switches := hbody.switches
  respect := hcalls
  tree := htree
  names _ _ hagree hmatches := hmatches.congr hmeets.closed hagree
  retTy := hmeets.retTy
  result _ _ u hmatches :=
    (hmatches.has_iff hmeets.closed _ _ hbody.sig.ret hbody.sig.names.ret hmeets.result u).mp
  ensures := hmeets.ensures

/-- The state the walk starts from is good. -/
lemma good_initialState (hmeets : Meets globalEnv.tcx I body fn_sig p cursor N subst)
    (hshapes : ∀ ⦃shapes⦄, mode = .check shapes → ∀ ⦃bb shape⦄, shapes.lookup bb = some shape →
      TypeEnv.LocalShape p.env.locSet shape) :
    (functionSetting globalEnv body fn_sig dominatesJoinPoint discrs calls I inst p N subst tree
      trace).Good (initialState mode cursor p.env) where
  ready := hmeets.ready
  names := hmeets.names
  joined bb bbEnv h := by cases h
  shapes := hshapes
  events := by
    intro e he cursor' hcursor'
    obtain rfl := List.mem_singleton.mp he
    cases hcursor'

/-- **The shapes that inference finds** are of the locations of the first environment, and there is
one for each join point that can be reached. -/
lemma shapes_of_infer (hbody : Checkable body discrs fn_sig)
    (hspecs : ∀ ⦃func sig⦄, globalEnv.specs func = some sig → sig.Scalar)
    (hcomputes : ∀ bb, ∀ stmt ∈ statementsAt body bb, Checker.ComputesStatement I stmt)
    (hfuel : body.basicBlocks.length < fuel)
    (hmeets : Meets globalEnv.tcx I body fn_sig p cursor N subst)
    (hprologue : (prologue body fn_sig).run ConstraintBuilder.new.asCursor = .ok (p, cursor))
    {shapes : AList fun _ : BasicBlock => TypeEnvShape}
    (hinfer : globalEnv.infer body fn_sig fuel = .ok shapes) :
    (∀ bb, body.ReachableJoin bb → bb ∈ shapes) ∧
      ∀ ⦃bb shape⦄, shapes.lookup bb = some shape → TypeEnv.LocalShape p.env.locSet shape := by
  obtain ⟨checker, s, hrun, rfl⟩ := infer_eq_ok hinfer
  obtain ⟨p', cursor', hprologue', hchecker, hrun⟩ := checkOrInfer_eq_ok hrun
  obtain ⟨rfl, rfl⟩ := Prod.mk.inj (Except.ok.inj (hprologue.symm.trans hprologue'))
  obtain ⟨dominatesJoinPoint, rfl⟩ := checker_eq_ok hchecker
  -- inference makes no obligations that are looked at, and calls do not matter to it
  let W := functionSetting globalEnv body fn_sig dominatesJoinPoint discrs
    (fun _ _ _ _ _ _ => False) I (fun _ => .int 0) p N subst (.conj []) []
  have hW : W.Fair := by
    refine fair_functionSetting hbody hspecs hcomputes ?_ hmeets fun ρ => trivial
    intro func sig substs us S u S' _ h
    exact h.elim
  have hgood : W.Good (initialState .inference cursor p.env) :=
    good_initialState hmeets fun _ h => (by cases h)
  have hsettled := wp_of_run_ok
    (Setting.wp_run_safe hW hbody.line hgood rfl rfl rfl hmeets.env fuel) hrun
  have hcfg : W.self.body.CorrectCfg := hbody.cfg
  have hwalk := wp_of_run_ok (Checker.wp_run hcfg hfuel p.env rfl
    (Checker.walkInv_initialState .inference cursor p.env (by simp [Mode.shapes])) rfl) hrun
  obtain ⟨-, -, hjoined, -⟩ := hwalk
  refine ⟨fun bb hbb => Checker.mem_shapes.mpr ((hjoined bb).mpr hbb), fun bb shape hshape => ?_⟩
  obtain ⟨bbEnv, hbbEnv, rfl⟩ := lookup_shapes hshape
  exact (hsettled.1.good.joined hbbEnv).intoShape

/-- **A function that is checked** is safe for any number of steps. -/
lemma safeFor_of_check (hbody : Checkable body discrs fn_sig)
    (hspecs : ∀ ⦃func sig⦄, globalEnv.specs func = some sig → sig.Scalar)
    (hfuel : body.basicBlocks.length < fuel)
    {shapes : AList fun _ : BasicBlock => TypeEnvShape}
    (hinfer : globalEnv.infer body fn_sig fuel = .ok shapes) {builder : ConstraintBuilder}
    (hcheck : globalEnv.check body fn_sig fuel shapes = .ok builder)
    (hsolves : Solves I body builder) (hcalls : calls.Respect globalEnv.specs) {us : List Value}
    {S : Store} (hpre : fn_sig.Pre inst us) (hargs : S.HasArgs body us) (n : ℕ) :
    SafeFor (Step body discrs calls) (Config.Ok body globalEnv.specs (fn_sig.Post inst)) n
      (.enter body startBlock S) := by
  obtain ⟨checker, s, hrun, rfl⟩ := check_eq_ok hcheck
  obtain ⟨p, cursor, hprologue, hchecker, hrun⟩ := checkOrInfer_eq_ok hrun
  obtain ⟨dominatesJoinPoint, rfl⟩ := checker_eq_ok hchecker
  obtain ⟨N, subst, hmeets⟩ := wp_of_run_ok
    (wp_prologue_meets globalEnv.tcx I body hbody.sig) hprologue
  obtain ⟨hcover, hshapes⟩ :=
    shapes_of_infer hbody hspecs hsolves.computes hfuel hmeets hprologue hinfer
  let W := functionSetting globalEnv body fn_sig dominatesJoinPoint discrs calls I inst p N subst
    s.cursor.builder.root s.trace
  have hW : W.Fair :=
    fair_functionSetting hbody hspecs hsolves.computes hcalls hmeets hsolves.holds
  have hgood : W.Good (initialState (.check shapes) cursor p.env) := by
    refine good_initialState hmeets ?_
    rintro _ ⟨⟩
    exact hshapes
  obtain ⟨hsettled, hleads⟩ := wp_of_run_ok
    (Setting.wp_run_safe hW hbody.line hgood rfl rfl rfl hmeets.env fuel) hrun
  have hmode : ∀ shapes' ∈ (Mode.check shapes).shapes, ∀ bb, body.ReachableJoin bb →
      bb ∈ shapes' := by
    rintro _ ⟨⟩
    exact hcover
  have hcfg : W.self.body.CorrectCfg := hbody.cfg
  have hwalk := wp_of_run_ok (Checker.wp_run hcfg hfuel p.env rfl
    (Checker.walkInv_initialState (.check shapes) cursor p.env hmode) rfl) hrun
  obtain ⟨-, hvisited, -, hchecks⟩ := hwalk
  have hfinal : W.Final s := by
    refine ⟨?_, List.suffix_rfl, .refl⟩
    cases hmode' : s.mode with
    | inference =>
      simp [walk, hmode', initialState, Mode.shapes] at hchecks
    | check shapes' => exact ⟨shapes', hmode'⟩
  have hjoin := hsettled.safe hfinal rfl (fun bb hbb => (hvisited bb).mpr hbb) n
  obtain ⟨ρ, hρ, hmatches, hS⟩ := hmeets.enters hpre hargs
  exact hleads n hfinal hjoin ρ S hρ hmatches (fun e he => (by cases he)) hS

end Phase

/-- **A function that is checked does not go wrong.** Take a function over integers and booleans
that inference and the check succeed on, and a meaning of the unknown predicates for which the
constraint is true. Then for all arguments that meet the precondition, whatever the functions that
are called return within their contracts, nothing goes wrong in any execution.

**Proof sketch.** Inference leaves a shape for every join point that is reached, with the locations
of the function (`shapes_of_infer`), so the check has the shapes that it asks for. A store is
related to an environment by a meaning of the names on the path of the cursor, and where the
constraint below is true, statements, calls, switches and edges keep the relation. What the
traversal goes through is safe for `n` steps if the join points still to come are
(`Setting.wp_run_safe`), and these are by induction on `n` (`safeFor_of_check`). -/
theorem check_sound (hbody : Checkable body discrs fn_sig)
    (hspecs : ∀ ⦃func sig⦄, globalEnv.specs func = some sig → sig.Scalar)
    (hfuel : body.basicBlocks.length < fuel)
    {shapes : AList fun _ : BasicBlock => TypeEnvShape}
    (hinfer : globalEnv.infer body fn_sig fuel = .ok shapes) {builder : ConstraintBuilder}
    (hcheck : globalEnv.check body fn_sig fuel shapes = .ok builder) {I : Interp}
    (hsolves : Solves I body builder) {calls : Calls} (hcalls : calls.Respect globalEnv.specs)
    {inst : Instance} {us : List Value} {S : Store} (hpre : fn_sig.Pre inst us)
    (hargs : S.HasArgs body us) {cfg : Config}
    (hsteps : Steps body discrs calls (.enter body startBlock S) cfg) :
    cfg.Ok body globalEnv.specs (fn_sig.Post inst) :=
  forall_safeFor_iff.mp
    (safeFor_of_check hbody hspecs hfuel hinfer hcheck hsolves hcalls hpre hargs) cfg hsteps

end GlobalEnv

/-! ### A loop that counts -/

/-- `fn<m: int>(i32@m) -> i32@{m + 1}`. -/
def succSig : Core.FnSig where
  params := [⟨⟨0, "m"⟩, .int, .literal (.bool true)⟩]
  requires := []
  args := [.refine (.int .i32) (.var (.free 0) "m")]
  ret := .refine (.int .i32) (.binaryOp .add (.var (.free 0) "m") (.literal (.int 1)))
  ensures := []

/-- `fn<n: int>(i32@n) -> i32{v: v >= 0}`. -/
def countSig : Core.FnSig where
  params := [⟨⟨0, "n"⟩, .int, .literal (.bool true)⟩]
  requires := []
  args := [.refine (.int .i32) (.var (.free 0) "n")]
  ret := .exists_ (.int .i32) (.expr (.binaryOp .ge (.var .bound "v") (.literal (.int 0))))
  ensures := []

/-- It adds one. -/
def succBody : Body where
  basicBlocks :=
    [⟨[.assign ⟨0, []⟩ (.binaryOp .add (.copy ⟨1, []⟩) (.constant (.int 1 .i32)))], some .return_⟩]
  argCount := 1
  nlocals := 2
  mir := ⟨fun _ => [], [0], fun _ => none⟩

/-- It counts from zero up to its argument in a loop, with calls of function 1. -/
def countBody : Body where
  basicBlocks :=
    [⟨[.assign ⟨0, []⟩ (.use (.constant (.int 0 .i32)))], some (.goto 1)⟩,
      ⟨[.assign ⟨2, []⟩ (.binaryOp .lt (.copy ⟨0, []⟩) (.copy ⟨1, []⟩))],
        some (.switchInt (.move ⟨2, []⟩) ⟨[(0, 3)], 2⟩)⟩,
      ⟨[], some (.call 1 [] [.copy ⟨0, []⟩] (some (⟨0, []⟩, 1)))⟩,
      ⟨[], some .return_⟩]
  argCount := 1
  nlocals := 3
  mir :=
    { predecessors := fun
        | 1 => [0, 2]
        | 2 | 3 => [1]
        | _ => []
      reversePostorder := [0, 1, 2, 3]
      immediateDominator := fun _ => some 0 }

/-- The switch is on a boolean. -/
def countDiscrs : BasicBlock → Discr :=
  fun _ => ⟨.w64, .bool⟩

/-- Two functions. -/
def countEnv : GlobalEnv where
  specs := fun
    | 0 => some countSig
    | 1 => some succSig
    | _ => none
  tcx := .ofStack 8

/-- The constraint of the loop. -/
def countTree : Node :=
  .conj [.forAll 0 .int (.expr .tt)
    [.head (.kvar 0 [.constant (.int .positive 0), .var (.free 0)]),
      .forAll 1 .int (.kvar 0 [.var (.free 1), .var (.free 0)])
        [.guard (.unaryOp .not (.binaryOp .lt (.var (.free 1)) (.var (.free 0))))
            [.head (.expr (.binaryOp .ge (.var (.free 1)) (.constant (.int .positive 0))))],
          .guard (.unaryOp .not (.unaryOp .not (.binaryOp .lt (.var (.free 1)) (.var (.free 0)))))
            [.head (.kvar 0
              [.binaryOp .add (.var (.free 1)) (.constant (.int .positive 1)), .var (.free 0)])]]]]

/-- The tree of a function: inference, and then the check. -/
def GlobalEnv.tree (globalEnv : GlobalEnv) (body : Body) (fn_sig : Core.FnSig) (fuel : ℕ) :
    Except Stop Node := do
  let shapes ← globalEnv.infer body fn_sig fuel
  let builder ← globalEnv.check body fn_sig fuel shapes
  pure builder.root

/-- The tree of a function comes from its inference and its check. -/
lemma GlobalEnv.exists_of_tree {globalEnv : GlobalEnv} {body : Body} {fn_sig : Core.FnSig}
    {fuel : ℕ} {n : Node} (h : (globalEnv.tree body fn_sig fuel).toOption = some n) :
    ∃ shapes builder,
      globalEnv.infer body fn_sig fuel = .ok shapes ∧
      globalEnv.check body fn_sig fuel shapes = .ok builder ∧ builder.root = n := by
  unfold tree at h
  cases hinfer : globalEnv.infer body fn_sig fuel with
  | error e =>
    rw [hinfer] at h
    cases h
  | ok shapes =>
    rw [hinfer] at h
    cases hcheck : globalEnv.check body fn_sig fuel shapes with
    | error e =>
      simp only [Except.bind, bind, hcheck] at h
      cases h
    | ok builder =>
      simp only [Except.bind, bind, hcheck] at h
      cases h
      exact ⟨shapes, builder, rfl, hcheck, rfl⟩

/-- The tree of the counting function. -/
lemma count_tree : (countEnv.tree countBody countSig 5).toOption = some countTree := by
  decide +kernel

/-- The tree of the successor function. -/
lemma succ_tree : (countEnv.tree succBody succSig 5).toOption =
    some (.conj [.forAll 0 .int (.expr .tt) []]) := by
  decide +kernel

/-- The counter is not negative. -/
def countInterp : Interp where
  div := Int.tdiv
  kvar _ vs := ∃ n rest, 0 ≤ n ∧ vs = .int n :: rest

/-- The tree of the counting function holds at the chosen predicates. -/
lemma countTree_holds (ρ : Valuation) : countTree.Holds countInterp ρ := by
  refine ⟨fun v hv _ => ?_, trivial⟩
  refine ⟨⟨[.int 0, v], .cons rfl (.cons rfl .nil), 0, [v], le_rfl, rfl⟩, fun w _ hw => ?_, trivial⟩
  obtain ⟨_, hvs, n, rest, hn, rfl⟩ := hw
  obtain ⟨hn', -⟩ := List.forall₂_cons.mp hvs
  obtain rfl : w = .int n := Option.some.inj hn'
  refine ⟨fun _ => ⟨?_, trivial⟩, fun _ => ⟨⟨[.int (n + 1), v], ?_, n + 1, [v], ?_, rfl⟩, trivial⟩,
    trivial⟩
  · exact congrArg (fun b : Bool => some (Fixpoint.Val.bool b)) (decide_eq_true hn)
  · exact .cons rfl (.cons rfl .nil)
  · omega

/-- The control flow of the counting function is correct. -/
lemma countBody_correctCfg : countBody.CorrectCfg where
  start := by decide
  targets := by
    intro bb target h
    rcases bb with _ | _ | _ | _ | bb
    · rw [List.mem_singleton.mp h]
      decide
    · rcases List.mem_pair.mp h with rfl | rfl <;> decide
    · rw [List.mem_singleton.mp h]
      decide
    · exact absurd h (List.not_mem_nil)
    · exact absurd h (List.not_mem_nil)
  predecessors := by
    intro bb target
    rcases bb with _ | _ | _ | _ | bb <;> rcases target with _ | _ | _ | _ | target <;>
      simp [countBody, Body.successors, Core.Ir.Terminator.successors]
  reversePostorder := by
    refine ⟨[3, 2, 1, 0], ?_, rfl⟩
    have h2 : Visits countBody.Edge [3, 1, 0] [2] [2] :=
      @Visits.visit _ _ _ _ [1] [] _ _ (by decide) (fun w => Iff.rfl) (.seen (by decide) (.nil _))
        (.nil _)
    have h3 : Visits countBody.Edge [1, 0] [3, 2] [3, 2] :=
      @Visits.visit _ _ _ _ [] [] _ _ (by decide) (fun w => Iff.rfl) (.nil _) h2
    have h1 : Visits countBody.Edge [0] [1] [3, 2, 1] :=
      @Visits.visit _ _ _ _ [3, 2] [3, 2] _ _ (by decide) (fun w => Iff.rfl) h3 (.nil _)
    exact @Visits.visit _ _ _ _ [1] [3, 2, 1] _ _ (by decide) (fun w => Iff.rfl) h1 (.nil _)

/-- The control flow of the successor function is correct. -/
lemma succBody_correctCfg : succBody.CorrectCfg where
  start := by decide
  targets := by
    intro bb target h
    rcases bb with _ | bb
    · exact absurd h (List.not_mem_nil)
    · exact absurd h (List.not_mem_nil)
  predecessors := by
    intro bb target
    rcases bb with _ | bb <;> simp [succBody, Body.successors, Core.Ir.Terminator.successors]
  reversePostorder :=
    ⟨[0], @Visits.visit _ _ _ _ [] [] _ _ (by decide) (fun w => Iff.rfl) (.nil _) (.nil _), rfl⟩

/-- The signature of the successor function speaks of scalars only. -/
lemma succSig_scalar : succSig.Scalar where
  names := by
    constructor <;> simp [succSig, Core.ParamsScoped, Core.BindingsScoped, Core.Ty.Scoped,
      Core.BaseTy.Scoped, Core.Expr.ScopedIn, Core.FreeIn, Core.FnSig.paramNames]
  sorted := by
    constructor <;> simp [succSig, Core.ParamsSorted, Core.Ty.WellSorted,
      Core.BaseTy.WellSorted, Core.FnSig.sorts]
    · exact .literal _
    · exact .var rfl
    · exact .arith (by decide) (.var rfl) (.literal _)
  requires := rfl
  args := by simp [succSig, Core.Ty.IsScalar, Core.BaseTy.isScalar]
  ret := rfl
  ensures := rfl

/-- The signature of the counting function speaks of scalars only. -/
lemma countSig_scalar : countSig.Scalar where
  names := by
    constructor <;> simp [countSig, Core.ParamsScoped, Core.BindingsScoped, Core.Ty.Scoped,
      Core.BaseTy.Scoped, Core.Expr.ScopedIn, Core.FreeIn, Core.FnSig.paramNames,
      Core.BoundOrFreeIn]
  sorted := by
    constructor <;> simp [countSig, Core.ParamsSorted, Core.Ty.WellSorted,
      Core.BaseTy.WellSorted, Core.FnSig.sorts]
    · exact .literal _
    · exact .var rfl
    · exact .cmp (by decide) (.var rfl) (.literal _)
  requires := rfl
  args := by simp [countSig, Core.Ty.IsScalar, Core.BaseTy.isScalar]
  ret := rfl
  ensures := rfl

/-- Every signature of their environment speaks of scalars only. -/
lemma countEnv_scalar {func : DefId} {fn_sig : Core.FnSig} (h : countEnv.specs func = some fn_sig) :
    fn_sig.Scalar := by
  rcases func with _ | _ | func
  · exact Option.some.inj h ▸ countSig_scalar
  · exact Option.some.inj h ▸ succSig_scalar
  · cases h

/-- The counting function is checkable. -/
lemma countBody_checkable : Checkable countBody countDiscrs countSig where
  cfg := countBody_correctCfg
  line := by
    have hjoin : ∀ bb, countBody.isJoinPoint bb = true → bb = 1 := by
      intro bb hbb
      rcases bb with _ | _ | _ | _ | bb <;> first | rfl | cases hbb
    intro bb bb' hbb hbb' hne
    exact absurd ((hjoin bb hbb.1).trans (hjoin bb' hbb'.1).symm) hne
  statements := by
    intro bb stmt hstmt
    rcases bb with _ | _ | _ | _ | bb <;> simp [statementsAt, countBody] at hstmt
    · subst hstmt
      trivial
    · subst hstmt
      trivial
  switches := by
    intro bb discr targets h
    rcases bb with _ | _ | _ | _ | bb <;> simp [terminatorAt, countBody] at h
    obtain ⟨-, rfl⟩ := h
    exact ⟨List.cons_ne_nil _ _, by decide⟩
  sig := countSig_scalar

/-- The successor function is checkable. -/
lemma succBody_checkable : Checkable succBody countDiscrs succSig where
  cfg := succBody_correctCfg
  line := by
    intro bb bb' hbb
    cases hbb.1
  statements := by
    intro bb stmt hstmt
    rcases bb with _ | bb <;> simp [statementsAt, succBody] at hstmt
    subst hstmt
    trivial
  switches := by
    intro bb discr targets h
    rcases bb with _ | bb <;> simp [terminatorAt, succBody] at h
  sig := succSig_scalar

/-- The argument is one. -/
def countStart : Store :=
  Function.update (fun _ => .bool false) (.local_ 1) (.int 1)

/-- The loop is run once. -/
lemma count_steps (calls : Calls) (hcall : ∀ S, calls 1 [] [.int 0] S (.int 1) S) :
    ∃ S, Steps countBody countDiscrs calls (.enter countBody startBlock countStart) ⟨3, [], S⟩ :=
  ⟨_, .head (.statement rfl) <| .head (.terminator rfl (.goto 1)) <| .head (.statement rfl) <|
    .head (.terminator rfl (.switchInt _ rfl rfl)) <|
    .head (.terminator rfl (.call 1 rfl (hcall _) rfl)) <| .head (.statement rfl) <|
    .head (.terminator rfl (.switchInt _ rfl rfl)) .refl⟩

/-- What function 1 does. -/
def succCalls : Calls :=
  fun func _ us S u S' => func = 1 ∧ S' = S ∧ ∃ n, us = [.int n] ∧ u = .int (n + 1)

/-- What the successor function returns meets its signature. -/
lemma succ_post {inst : Instance} {n : ℤ} (h : succSig.Pre inst [.int n]) :
    succSig.Post inst (.int (n + 1)) := by
  obtain ⟨⟨-, v, hv, he⟩, -⟩ := List.forall₂_cons.mp h.args
  obtain rfl := Option.some.inj hv
  refine ⟨trivial, _, rfl, ?_⟩
  have hn : inst (.free 0) = .int n := Option.some.inj he
  show (lowerBinOp .add).apply Int.tdiv (some (inst (.free 0))) _ = _
  rw [hn]
  rfl

/-- Calls of the successor function respect its signature. -/
lemma succCalls_respect : succCalls.Respect countEnv.specs := by
  rintro func fn_sig substs us S u S' hsig ⟨rfl, rfl, n, rfl, rfl⟩
  obtain rfl := Option.some.inj hsig
  exact ⟨rfl, fun inst hpre => succ_post hpre⟩

/-- The chosen predicates solve the constraint of the counting function. -/
lemma countBody_solves {builder : ConstraintBuilder} (h : builder.root = countTree) :
    Solves countInterp countBody builder where
  holds ρ := h ▸ countTree_holds ρ
  computes := by
    intro bb stmt hstmt
    rcases bb with _ | _ | _ | _ | bb <;> simp [statementsAt, countBody] at hstmt
    · subst hstmt
      trivial
    · subst hstmt
      exact fun hop => (by cases hop)

/-- The chosen predicates solve the constraint of the successor function. -/
lemma succBody_solves {builder : ConstraintBuilder}
    (h : builder.root = .conj [.forAll 0 .int (.expr .tt) []]) :
    Solves countInterp succBody builder where
  holds ρ := by
    rw [h]
    exact ⟨fun _ _ _ => trivial, trivial⟩
  computes := by
    intro bb stmt hstmt
    rcases bb with _ | bb <;> simp [statementsAt, succBody] at hstmt
    subst hstmt
    exact fun hop => (by cases hop)

/-- The argument 1 meets the signature of the counting function. -/
lemma countSig_pre : countSig.Pre (fun _ => .int 1) [.int 1] where
  params := by
    intro param hparam
    obtain rfl := List.mem_singleton.mp hparam
    exact ⟨rfl, rfl⟩
  args := .cons ⟨trivial, _, rfl, rfl⟩ .nil

/-- The first state of the run has the argument 1. -/
lemma countStart_hasArgs : countStart.HasArgs countBody [.int 1] :=
  rfl

/-- The loop comes to its end with a result that is not negative. -/
theorem GlobalEnv.check_sound_count : ∃ S,
    Steps countBody countDiscrs succCalls (.enter countBody startBlock countStart) ⟨3, [], S⟩ ∧
      Config.Ok countBody countEnv.specs (countSig.Post fun _ => .int 1) ⟨3, [], S⟩ := by
  obtain ⟨S, hsteps⟩ := count_steps succCalls fun S => ⟨rfl, rfl, 0, rfl, rfl⟩
  obtain ⟨shapes, builder, hinfer, hcheck, hroot⟩ := exists_of_tree count_tree
  exact ⟨S, hsteps, check_sound countBody_checkable (fun _ _ => countEnv_scalar) (by decide) hinfer
    hcheck (countBody_solves hroot) succCalls_respect countSig_pre countStart_hasArgs hsteps⟩

/-! ## Crates -/

/-- A crate: its signatures, which of them are assumed, and the bodies of its functions with the
discriminants of their switches. -/
structure Crate where
  globalEnv : GlobalEnv
  assume : DefId → Bool
  body : DefId → Option Body
  discrs : DefId → BasicBlock → Discr

/-- A body returns a value for some arguments. -/
def Returns (body : Body) (discrs : BasicBlock → Discr) (calls : Calls) (us : List Value)
    (u : Value) : Prop :=
  ∃ S bb S', S.HasArgs body us ∧
    Steps body discrs calls (.enter body startBlock S) ⟨bb, [], S'⟩ ∧
    terminatorAt body bb = some .return_ ∧ u = S' (.local_ returnPlace)

namespace Crate

variable (crate : Crate)

/-- **What the functions of a crate do**, if calls are nested less than `n` deep. The store of a
function is its own. What an assumed function does is given. -/
def calls (assumed : Calls) : ℕ → Calls
  | 0 => fun func substs us S u S' => crate.assume func = true ∧ assumed func substs us S u S'
  | n + 1 => fun func substs us S u S' =>
    if crate.assume func then assumed func substs us S u S'
    else S' = S ∧ ∃ body, crate.body func = some body ∧
      Returns body (crate.discrs func) (calls assumed n) us u

/-- **What `check_crate` accepts**: the functions that are not assumed are checked, and their
constraints are true. -/
structure Accepted (crate : Crate) (fuel : ℕ) (I : DefId → Interp) : Prop where
  specs : ∀ ⦃func fn_sig⦄, crate.globalEnv.specs func = some fn_sig → fn_sig.Scalar
  checked : ∀ ⦃func fn_sig body⦄, crate.globalEnv.specs func = some fn_sig →
    crate.assume func = false → crate.body func = some body →
      Checkable body (crate.discrs func) fn_sig ∧ body.basicBlocks.length < fuel ∧
      ∃ shapes builder,
        crate.globalEnv.infer body fn_sig fuel = .ok shapes ∧
        crate.globalEnv.check body fn_sig fuel shapes = .ok builder ∧ Solves (I func) body builder

variable {crate} {fuel : ℕ} {I : DefId → Interp} {assumed : Calls}

/-- One function of a crate is safe, if the functions that it calls keep their contracts. -/
lemma Accepted.safeFor (h : crate.Accepted fuel I) {func : DefId} {fn_sig : Core.FnSig}
    {body : Body} (hsig : crate.globalEnv.specs func = some fn_sig)
    (hassume : crate.assume func = false) (hbody : crate.body func = some body) {calls : Calls}
    (hcalls : calls.Respect crate.globalEnv.specs) {inst : Instance} {us : List Value} {S : Store}
    (hpre : fn_sig.Pre inst us) (hargs : S.HasArgs body us) (n : ℕ) :
    SafeFor (Step body (crate.discrs func) calls)
      (Config.Ok body crate.globalEnv.specs (fn_sig.Post inst)) n (.enter body startBlock S) := by
  obtain ⟨hcheckable, hfuel, shapes, builder, hinfer, hcheck, hsolves⟩ :=
    h.checked hsig hassume hbody
  exact GlobalEnv.safeFor_of_check hcheckable h.specs hfuel hinfer hcheck hsolves hcalls hpre
    hargs n

/-- **The functions of a crate keep their contracts**, however deep calls are nested. -/
lemma Accepted.respect (h : crate.Accepted fuel I)
    (hassumed : assumed.Respect crate.globalEnv.specs) (n : ℕ) :
    (crate.calls assumed n).Respect crate.globalEnv.specs := by
  induction n with
  | zero => exact fun func fn_sig substs us S u S' hsig hcall => hassumed hsig hcall.2
  | succ n ih =>
    intro func fn_sig substs us S u S' hsig hcall
    rw [calls] at hcall
    split at hcall
    · exact hassumed hsig hcall
    · next hassume =>
      obtain ⟨rfl, body, hbody, S₀, bb, S₁, hargs, hsteps, hreturn, rfl⟩ := hcall
      refine ⟨rfl, fun inst hpre => ?_⟩
      have hsafe := h.safeFor hsig (Bool.eq_false_iff.mpr hassume) hbody ih hpre hargs
      exact forall_safeFor_iff.mp hsafe _ hsteps _ hreturn

/-- **A crate that is accepted does not go wrong**: in no execution of any of its functions, for
arguments that meet the precondition, and however deep calls are nested.

**Proof sketch.** By induction on the depth of calls, what the functions of the crate return meets
their contracts: a function that is checked does not go wrong if the functions that it calls keep
theirs (`Accepted.respect`). So the functions at any depth do not. -/
theorem Accepted.runs_ok (h : crate.Accepted fuel I)
    (hassumed : assumed.Respect crate.globalEnv.specs) {func : DefId} {fn_sig : Core.FnSig}
    {body : Body} (hsig : crate.globalEnv.specs func = some fn_sig)
    (hassume : crate.assume func = false) (hbody : crate.body func = some body)
    {inst : Instance} {us : List Value} {S : Store} (hpre : fn_sig.Pre inst us)
    (hargs : S.HasArgs body us) {n : ℕ} {cfg : Config}
    (hsteps : Steps body (crate.discrs func) (crate.calls assumed n)
      (.enter body startBlock S) cfg) :
    cfg.Ok body crate.globalEnv.specs (fn_sig.Post inst) :=
  forall_safeFor_iff.mp
    (h.safeFor hsig hassume hbody (h.respect hassumed n) hpre hargs) cfg hsteps

/-- The two functions as a crate. -/
def countCrate : Crate where
  globalEnv := countEnv
  assume _ := false
  body := fun
    | 0 => some countBody
    | 1 => some succBody
    | _ => none
  discrs _ := countDiscrs

/-- The crate of the two functions is accepted. -/
lemma countCrate_accepted : countCrate.Accepted 5 fun _ => countInterp where
  specs _ _ := countEnv_scalar
  checked := by
    intro func fn_sig body hsig _ hbody
    rcases func with _ | _ | func
    · obtain rfl := Option.some.inj hsig
      obtain rfl := Option.some.inj hbody
      obtain ⟨shapes, builder, hinfer, hcheck, hroot⟩ := GlobalEnv.exists_of_tree count_tree
      exact ⟨countBody_checkable, by decide, shapes, builder, hinfer, hcheck,
        countBody_solves hroot⟩
    · obtain rfl := Option.some.inj hsig
      obtain rfl := Option.some.inj hbody
      obtain ⟨shapes, builder, hinfer, hcheck, hroot⟩ := GlobalEnv.exists_of_tree succ_tree
      exact ⟨succBody_checkable, by decide, shapes, builder, hinfer, hcheck,
        succBody_solves hroot⟩
    · cases hsig

/-- Function 1 returns one more than zero. -/
lemma succBody_returns (calls : Calls) :
    Returns succBody countDiscrs calls [.int 0] (.int 1) :=
  ⟨Function.update (fun _ => .bool false) (.local_ 1) (.int 0), 0, _, rfl,
    .head (.statement rfl) .refl, rfl, rfl⟩

/-- The loop, with a call of the other function. -/
theorem Accepted.runs_ok_count : ∃ S,
    Steps countBody countDiscrs (countCrate.calls (fun _ _ _ _ _ _ => False) 1)
      (.enter countBody startBlock countStart) ⟨3, [], S⟩ ∧
    Config.Ok countBody countEnv.specs (countSig.Post fun _ => .int 1) ⟨3, [], S⟩ := by
  obtain ⟨S, hsteps⟩ := count_steps (countCrate.calls (fun _ _ _ _ _ _ => False) 1) fun S =>
    ⟨rfl, succBody, rfl, succBody_returns _⟩
  have hsig : countCrate.globalEnv.specs 0 = some countSig := rfl
  have hnone : Calls.Respect (fun _ _ _ _ _ _ => False) countCrate.globalEnv.specs :=
    fun _ _ _ _ _ _ _ _ h => h.elim
  exact ⟨S, hsteps, countCrate_accepted.runs_ok hnone hsig rfl rfl countSig_pre
    countStart_hasArgs hsteps⟩

end Crate

end LiquidRust.Typeck
