import LiquidRust.Driver.LowerBodySound
import LiquidRust.Typeck.CheckSound

set_option relaxedAutoImplicit false
set_option autoImplicit false

/-!
# The machine does not go wrong

What is checked is what the bodies of the compiler are lowered to. An execution on the machine is
one of the lowered body, as long as that does not come to the complement of an integer, and one
that is checked does not. So what the check shows of the integers holds on the machine: no divisor
is zero, calls meet the preconditions of the functions that are called, and what is returned meets
the postcondition.

## Main definitions

* `LiquidRust.Driver.Mir.Config.Ok` — nothing goes wrong in the next step on the machine.
* `LiquidRust.Driver.Crate` — a crate, with the bodies of the compiler.
* `LiquidRust.Driver.Crate.calls` — what its functions do on the machine.

## Main results

* `LiquidRust.Driver.Crate.Accepted.machine_ok` — a crate that is accepted does not go wrong.
-/

namespace LiquidRust.Driver

open LiquidRust.Core (DefId)
open Core.Ir (BasicBlock startBlock returnPlace)
open Lib (except_bind_eq_ok SafeFor forall_safeFor_iff)
open Typeck (Interp)

namespace Mir

variable {pointer : PointerWidth}

/-! ## What does not go wrong -/

/-- **The store at the beginning of a function**: the arguments are in their local variables. -/
def Store.HasArgs (body : Body) (s : Store pointer) (vs : List (Value pointer)) : Prop :=
  (List.range' 1 body.argCount).map (fun l => s (.local_ l)) = vs.map some

/-- No divisor is zero. -/
def StatementOk (s : Store pointer) : Statement → Prop
  | .assign _ (.binaryOp .div op1 op2) => ∀ v1 s₁ v2 s₂, s.operand op1 = some (v1, s₁) →
      s₁.operand op2 = some (v2, s₂) → v2.abs ≠ .int 0
  | _ => True

/-- Calls meet preconditions, and what is returned meets the postcondition. -/
def TerminatorOk (specs : DefId → Option Core.FnSig) (Post : Typeck.Value → Prop)
    (s : Store pointer) : Terminator → Prop
  | .return_ => ∀ v, s (.local_ returnPlace) = some v → Post v.abs
  | .call (.fnDef func _) args _ _ => ∀ vs s', s.operands args = some (vs, s') →
      ∃ fn_sig inst, specs func = some fn_sig ∧ fn_sig.Pre inst (vs.map Value.abs)
  | _ => True

/-- **Nothing goes wrong in the next step** on the machine. -/
def Config.Ok (body : Body) (specs : DefId → Option Core.FnSig) (Post : Typeck.Value → Prop)
    (c : Config pointer) : Prop :=
  match c.statements with
  | stmt :: _ => StatementOk c.store stmt
  | [] => ∀ terminator ∈ body.terminatorAt c.block, TerminatorOk specs Post c.store terminator

/-- **The functions that are called keep their contracts**, and leave what the caller has
stored. -/
structure Calls.Respect (calls : Calls pointer) (specs : DefId → Option Core.FnSig) : Prop where
  frame : ∀ ⦃func substs vs s v s'⦄, calls func substs vs s v s' → s' = s
  contract : ∀ ⦃func fn_sig substs vs s v s'⦄, specs func = some fn_sig →
    calls func substs vs s v s' → ∀ inst, fn_sig.Pre inst (vs.map Value.abs) →
      fn_sig.Post inst v.abs

/-- What calls on the machine do over the integers. -/
def Calls.abs (calls : Calls pointer) : Typeck.Calls :=
  fun func _ us S u S' => S' = S ∧ ∃ substs vs s v s', us = vs.map Value.abs ∧ u = v.abs ∧
    calls func substs vs s v s'

/-- The store over the integers, where locations that are not initialized have any value. -/
def Store.abs (s : Store pointer) : Typeck.Store :=
  fun loc => (s loc).elim (.bool false) Value.abs

section

variable {calls : Calls pointer} {specs : DefId → Option Core.FnSig} {Post : Typeck.Value → Prop}
  {s : Store pointer} {S : Typeck.Store}

/-- A store has the values of the machine, read as integers. -/
lemma Store.represents_abs (s : Store pointer) : Represents s s.abs := by
  intro loc v hv
  rw [Store.abs, hv]
  rfl

/-- Calls that keep their contracts on the machine keep them over the integers. -/
lemma Calls.Respect.abs (h : calls.Respect specs) : calls.abs.Respect specs := by
  rintro func fn_sig substs us S u S' hsig ⟨rfl, substs', vs, s, v, s', rfl, rfl, hcall⟩
  exact ⟨rfl, h.contract hsig hcall⟩

/-- Calls that keep their contracts leave the store, over the integers as on the machine. -/
lemma Calls.Respect.represented (h : calls.Respect specs) : CallsRepresented calls calls.abs := by
  intro func substs tys vs s v s' S _ hcall hs
  obtain rfl := h.frame hcall
  exact ⟨S, ⟨rfl, substs, vs, s', v, s', rfl, rfl, hcall⟩, hs⟩

/-- A quotient over the integers has a divisor that is not zero. -/
lemma Represents.statementOk (h : Represents s S) {stmt : Statement} {stmt' : Core.Ir.Statement}
    (hkeeps : Keeps.statement pointer stmt) (hlower : lowerStatement pointer stmt = .ok stmt')
    (hexec : (S.exec stmt').isSome) : StatementOk s stmt := by
  unfold StatementOk
  split
  · next p op1 op2 =>
    intro v1 s₁ v2 s₂ hv1 hv2 hzero
    obtain ⟨p', -, hrest⟩ := except_bind_eq_ok.mp hlower
    obtain ⟨rvalue', hrvalue', heq⟩ := except_bind_eq_ok.mp hrest
    obtain ⟨op', hop', hrest⟩ := except_bind_eq_ok.mp hrvalue'
    obtain ⟨op1', hop1', hrest⟩ := except_bind_eq_ok.mp hrest
    obtain ⟨op2', hop2', heq'⟩ := except_bind_eq_ok.mp hrest
    cases heq
    cases heq'
    cases hop'
    obtain ⟨hvalue1, h₁⟩ := h.operand hkeeps.1 hop1' hv1
    obtain ⟨hvalue2, -⟩ := h₁.operand hkeeps.2 hop2' hv2
    rw [hzero] at hvalue2
    have hnone : v1.abs.binaryOp .div (.int 0) = none := by
      cases v1.abs <;> rfl
    simp [Typeck.Store.exec, Typeck.Store.rvalue, hvalue1, hvalue2, hnone] at hexec
  · trivial

/-- Terminators over the integers are those of the machine. -/
lemma Represents.terminatorOk (h : Represents s S) {terminator : Terminator}
    {terminator' : Core.Ir.Terminator} (hkeeps : Keeps.terminator pointer terminator)
    (hlower : lowerTerminator pointer terminator = .ok terminator')
    (hok : Typeck.TerminatorOk specs Post S terminator') :
    TerminatorOk specs Post s terminator := by
  unfold TerminatorOk
  split
  · cases hlower
    intro v hv
    have hok : Post (S (.local_ returnPlace)) := hok
    rwa [h hv] at hok
  · next func substs args destination cleanup =>
    intro vs s' hvs
    obtain ⟨substs', -, hrest⟩ := except_bind_eq_ok.mp hlower
    obtain ⟨destination', -, hrest⟩ := except_bind_eq_ok.mp hrest
    obtain ⟨args', hargs', heq⟩ := except_bind_eq_ok.mp hrest
    cases heq
    obtain ⟨fn_sig, us, inst, hsig, hus, hpre⟩ := hok
    obtain ⟨hvalues, -⟩ := h.operands hkeeps hargs' hvs
    rw [hvalues] at hus
    obtain rfl := Option.some.inj hus
    exact ⟨fn_sig, inst, hsig, hpre⟩
  · trivial

end

end Mir

/-! ## Executions -/

section

variable {pointer : PointerWidth} {body : Mir.Body} {ir : Core.Ir.Body}
  {specs : DefId → Option Core.FnSig} {Post : Typeck.Value → Prop} {c : Mir.Config pointer}
  {c' : Typeck.Config}

/-- The complement of an integer has no value, so that it is not come to. -/
lemma not_atComplement (hok : c'.Ok ir specs Post) : ¬AtComplement c' := by
  rintro ⟨p, rvalue, rest, hstatements, op, n, rfl, hop⟩
  rw [Typeck.Config.Ok, hstatements] at hok
  simp [Typeck.Store.exec, Typeck.Store.rvalue, hop, Typeck.Value.unaryOp] at hok

/-- **What is represented does not go wrong** if what represents it does not. -/
lemma Mir.Config.Represented.ok (hrep : c.Represented c') (h : lower pointer body = .ok ir)
    (hkeeps : body.KeepsValues pointer) (hok : c'.Ok ir specs Post) : c.Ok body specs Post := by
  obtain ⟨bb, statements, s⟩ := c
  obtain ⟨bb', statements', S⟩ := c'
  obtain ⟨rfl, hstatements, hkeeps₁, hs⟩ := hrep
  cases hstatements with
  | cons hstmt _ => exact hs.statementOk (hkeeps₁ _ (.head _)) hstmt hok
  | nil =>
    intro terminator hterminator
    have hlower := lower_terminatorAt h bb'
    rw [hterminator] at hlower
    obtain ⟨terminator', hterminator', hlower⟩ := lowerTerminator?_some hlower
    exact hs.terminatorOk (keeps_terminatorAt hkeeps hterminator) hlower (hok _ hterminator')

/-- The arguments of a body are those of the lowered one. -/
lemma lower_argCount (h : lower pointer body = .ok ir) : ir.argCount = body.argCount := by
  obtain ⟨basicBlocks, -, heq⟩ := except_bind_eq_ok.mp h
  cases heq
  rfl

/-- The arguments on the machine, read as integers. -/
lemma Mir.Store.HasArgs.abs {s : Mir.Store pointer} {vs : List (Mir.Value pointer)}
    (hargs : s.HasArgs body vs) (h : lower pointer body = .ok ir) :
    s.abs.HasArgs ir (vs.map Mir.Value.abs) := by
  rw [Typeck.Store.HasArgs, Core.Ir.Body.argsIter, lower_argCount h]
  have hmap := congrArg (List.map fun v : Option (Mir.Value pointer) =>
    v.elim (.bool false) Mir.Value.abs) hargs
  rw [List.map_map, List.map_map] at hmap
  exact hmap

/-- **Executions on the machine** do not go wrong if those over the integers do not. -/
lemma machine_ok_of_ok (h : lower pointer body = .ok ir) (hkeeps : body.KeepsValues pointer)
    {calls : Mir.Calls pointer} (hcalls : calls.Respect specs) {s : Mir.Store pointer}
    (hok : ∀ c', Typeck.Steps ir (body.discrs pointer) calls.abs (.enter ir startBlock s.abs) c' →
      c'.Ok ir specs Post)
    (hsteps : Mir.Steps body calls ⟨startBlock, body.statementsAt startBlock, s⟩ c) :
    c.Ok body specs Post := by
  suffices hrep : ∃ c', Typeck.Steps ir (body.discrs pointer) calls.abs
      (.enter ir startBlock s.abs) c' ∧ c.Represented c' by
    obtain ⟨c', hsteps', hrep⟩ := hrep
    exact hrep.ok h hkeeps (hok c' hsteps')
  induction hsteps with
  | refl => exact ⟨_, .refl, represented_enter h hkeeps startBlock s.represents_abs⟩
  | tail _ hstep ih =>
    obtain ⟨c', hsteps', hrep⟩ := ih
    rcases lower_step h hkeeps hcalls.represented hrep hstep with hcomplement | ⟨c'', hstep', hrep'⟩
    · exact absurd hcomplement (not_atComplement (hok c' hsteps'))
    · exact ⟨c'', hsteps'.tail hstep', hrep'⟩

end

/-! ## Crates -/

/-- A crate: its signatures, which of them are assumed, and the bodies of the compiler. -/
structure Crate (pointer : PointerWidth) where
  globalEnv : Typeck.GlobalEnv
  assume : DefId → Bool
  body : DefId → Option Mir.Body

/-- A body returns a value for some arguments. -/
def Mir.Returns {pointer : PointerWidth} (body : Mir.Body) (calls : Mir.Calls pointer)
    (vs : List (Mir.Value pointer)) (v : Mir.Value pointer) : Prop :=
  ∃ s bb s', Mir.Store.HasArgs body s vs ∧
    Mir.Steps body calls ⟨startBlock, body.statementsAt startBlock, s⟩ ⟨bb, [], s'⟩ ∧
    body.terminatorAt bb = some .return_ ∧ s' (.local_ returnPlace) = some v

namespace Crate

variable {pointer : PointerWidth} (crate : Crate pointer)

/-- **What the functions of a crate do on the machine**, if calls are nested less than `n` deep. -/
def calls (assumed : Mir.Calls pointer) : ℕ → Mir.Calls pointer
  | 0 => fun func substs vs s v s' => crate.assume func = true ∧ assumed func substs vs s v s'
  | n + 1 => fun func substs vs s v s' =>
    if crate.assume func then assumed func substs vs s v s'
    else s' = s ∧ ∃ body, crate.body func = some body ∧ Mir.Returns body (calls assumed n) vs v

/-- The crate that is checked. -/
def ir : Typeck.Crate where
  globalEnv := crate.globalEnv
  assume := crate.assume
  body func := (crate.body func).bind fun body => (lower pointer body).toOption
  discrs func := (crate.body func).elim (fun _ => ⟨pointer, .bool⟩) (Mir.Body.discrs pointer)

/-- **What `check_crate` accepts**: the bodies of functions that are not assumed are lowered, and
what they are lowered to is accepted. Their constants are kept. -/
structure Accepted (fuel : ℕ) (I : DefId → Interp) : Prop where
  checked : crate.ir.Accepted fuel I
  lowered : ∀ ⦃func body⦄, crate.assume func = false → crate.body func = some body →
    body.KeepsValues pointer ∧ ∃ ir, lower pointer body = .ok ir

variable {crate} {fuel : ℕ} {I : DefId → Interp} {assumed calls : Mir.Calls pointer} {func : DefId}
  {fn_sig : Core.FnSig} {body : Mir.Body} {inst : Typeck.Instance}
  {vs : List (Mir.Value pointer)} {s : Mir.Store pointer} {c : Mir.Config pointer}

/-- One function of a crate, if the functions that it calls keep their contracts. -/
lemma Accepted.ok (h : crate.Accepted fuel I) (hsig : crate.globalEnv.specs func = some fn_sig)
    (hassume : crate.assume func = false) (hbody : crate.body func = some body)
    (hcalls : calls.Respect crate.globalEnv.specs) (hpre : fn_sig.Pre inst (vs.map Mir.Value.abs))
    (hargs : s.HasArgs body vs)
    (hsteps : Mir.Steps body calls ⟨startBlock, body.statementsAt startBlock, s⟩ c) :
    c.Ok body crate.globalEnv.specs (fn_sig.Post inst) := by
  obtain ⟨hkeeps, ir, hlower⟩ := h.lowered hassume hbody
  have hir : crate.ir.body func = some ir := by
    show (crate.body func).bind (fun body => (lower pointer body).toOption) = some ir
    rw [hbody, Option.bind_some, hlower]
    rfl
  have hdiscrs : crate.ir.discrs func = body.discrs pointer := by
    show (crate.body func).elim _ (Mir.Body.discrs pointer) = _
    rw [hbody, Option.elim_some]
  have hsafe := h.checked.safeFor hsig hassume hir hcalls.abs hpre (hargs.abs hlower)
  rw [hdiscrs] at hsafe
  exact machine_ok_of_ok hlower hkeeps hcalls (forall_safeFor_iff.mp hsafe) hsteps

/-- **The functions of a crate keep their contracts on the machine.** -/
lemma Accepted.respect (h : crate.Accepted fuel I)
    (hassumed : assumed.Respect crate.globalEnv.specs) (n : ℕ) :
    (crate.calls assumed n).Respect crate.globalEnv.specs := by
  induction n with
  | zero =>
    exact ⟨fun _ _ _ _ _ _ hcall => hassumed.frame hcall.2,
      fun _ _ _ _ _ _ _ hsig hcall => hassumed.contract hsig hcall.2⟩
  | succ n ih =>
    refine ⟨fun func substs vs s v s' hcall => ?_,
      fun func fn_sig substs vs s v s' hsig hcall inst hpre => ?_⟩
    · rw [Crate.calls] at hcall
      split at hcall
      · exact hassumed.frame hcall
      · exact hcall.1
    · rw [Crate.calls] at hcall
      split at hcall
      · exact hassumed.contract hsig hcall inst hpre
      · next hassume =>
        obtain ⟨-, body, hbody, s₀, bb, s₁, hargs, hsteps, hreturn, hv⟩ := hcall
        exact h.ok hsig (Bool.eq_false_iff.mpr hassume) hbody ih hpre hargs hsteps _ hreturn v hv

/-- **A crate that is accepted does not go wrong on the machine**: in no execution of any of its
functions, for arguments that meet the precondition, and however deep calls are nested.

**Proof sketch.** An execution on the machine is one of the lowered body, up to a complement
(`lower_simulates`). The lowered body is checked, so its execution does not go wrong, and it never
comes to a complement (`not_atComplement`). What goes wrong on the machine goes wrong over the
integers (`Represented.ok`). -/
theorem Accepted.machine_ok (h : crate.Accepted fuel I)
    (hassumed : assumed.Respect crate.globalEnv.specs)
    (hsig : crate.globalEnv.specs func = some fn_sig) (hassume : crate.assume func = false)
    (hbody : crate.body func = some body) (hpre : fn_sig.Pre inst (vs.map Mir.Value.abs))
    (hargs : s.HasArgs body vs) {n : ℕ}
    (hsteps : Mir.Steps body (crate.calls assumed n)
      ⟨startBlock, body.statementsAt startBlock, s⟩ c) :
    c.Ok body crate.globalEnv.specs (fn_sig.Post inst) :=
  h.ok hsig hassume hbody (h.respect hassumed n) hpre hargs hsteps

end Crate

/-! ### A loop that counts -/

/-- It adds one. -/
def succMir : Mir.Body where
  basicBlocks :=
    [⟨[.assign ⟨0, []⟩ (.binaryOp .add (.copy ⟨1, []⟩)
        (.constant (.scalar (.int .i32) (.int 1 4))))], some .return_⟩]
  argCount := 1
  localDecls := 2
  graph := Typeck.succBody.mir

/-- It counts from zero up to its argument in a loop, with calls of function 1. -/
def countMir : Mir.Body where
  basicBlocks :=
    [⟨[.assign ⟨0, []⟩ (.use (.constant (.scalar (.int .i32) (.int 0 4))))], some (.goto 1)⟩,
      ⟨[.assign ⟨2, []⟩ (.binaryOp .lt (.copy ⟨0, []⟩) (.copy ⟨1, []⟩))],
        some (.switchInt (.move ⟨2, []⟩) .bool ⟨[(0, 3)], 2⟩)⟩,
      ⟨[], some (.call (.fnDef 1 []) [.copy ⟨0, []⟩] (some (⟨0, []⟩, 1)) none)⟩,
      ⟨[], some .return_⟩]
  argCount := 1
  localDecls := 3
  graph := Typeck.countBody.mir

/-- The increment is lowered. -/
lemma lower_succMir : lower .w64 succMir = .ok Typeck.succBody := by
  rfl

/-- The loop is lowered. -/
lemma lower_countMir : lower .w64 countMir = .ok Typeck.countBody := by
  rfl

/-- The constants of the increment are kept. -/
lemma succMir_keepsValues : succMir.KeepsValues .w64 := by
  constructor
  · intro data hdata stmt hstmt
    obtain rfl := List.mem_singleton.mp hdata
    obtain rfl := List.mem_singleton.mp hstmt
    exact ⟨trivial, .inl (by decide)⟩
  · intro data hdata terminator hterminator
    obtain rfl := List.mem_singleton.mp hdata
    obtain rfl := Option.mem_some_iff.mp hterminator
    trivial

/-- The constants and the targets of the loop are kept. -/
lemma countMir_keepsValues : countMir.KeepsValues .w64 := by
  constructor
  · intro data hdata stmt hstmt
    simp only [countMir, List.mem_cons, List.not_mem_nil, or_false] at hdata
    obtain rfl | rfl | rfl | rfl := hdata <;>
      simp only [List.mem_cons, List.not_mem_nil, or_false] at hstmt
    · subst hstmt
      exact .inl (by decide)
    · subst hstmt
      exact ⟨trivial, trivial⟩
  · intro data hdata terminator hterminator
    simp only [countMir, List.mem_cons, List.not_mem_nil, or_false] at hdata
    obtain rfl | rfl | rfl | rfl := hdata <;> obtain rfl := Option.mem_some_iff.mp hterminator
    · trivial
    · exact ⟨trivial, fun p hp => by rw [List.mem_singleton.mp hp]; decide⟩
    · exact fun op hop => by rw [List.mem_singleton.mp hop]; trivial
    · trivial

/-- The two functions as a crate. -/
def countCrate : Crate .w64 where
  globalEnv := Typeck.countEnv
  assume _ := false
  body := fun
    | 0 => some countMir
    | 1 => some succMir
    | _ => none

/-- What the crate is lowered to. -/
lemma countCrate_ir : countCrate.ir = Typeck.Crate.countCrate := by
  rw [Crate.ir, Typeck.Crate.countCrate, Typeck.Crate.mk.injEq]
  refine ⟨rfl, rfl, funext fun func => ?_, funext fun func => funext fun bb => ?_⟩
  · rcases func with _ | _ | func <;> rfl
  · rcases func with _ | _ | func
    · rcases bb with _ | _ | _ | _ | bb <;> rfl
    · rcases bb with _ | bb <;> rfl
    · rfl

/-- The crate is accepted. -/
lemma countCrate_accepted : countCrate.Accepted 5 fun _ => Typeck.countInterp where
  checked := countCrate_ir ▸ Typeck.Crate.countCrate_accepted
  lowered := by
    intro func body _ hbody
    rcases func with _ | _ | func
    · obtain rfl := Option.some.inj hbody
      exact ⟨countMir_keepsValues, _, lower_countMir⟩
    · obtain rfl := Option.some.inj hbody
      exact ⟨succMir_keepsValues, _, lower_succMir⟩
    · cases hbody

/-- A number of 32 bits. -/
def i32Value (n : ℕ) : Mir.Value .w64 :=
  .scalar (.int (.int .i32) (.ofNat _ n))

/-- Function 1 returns one more than zero. -/
lemma succMir_returns (calls : Mir.Calls .w64) :
    Mir.Returns succMir calls [i32Value 0] (i32Value 1) :=
  ⟨Function.update (fun _ => none) (.local_ 1) (some (i32Value 0)), 0, _, rfl,
    .head (.statement rfl) .refl, rfl, rfl⟩

/-- The argument is one. -/
def countMirStart : Mir.Store .w64 :=
  Function.update (fun _ => none) (.local_ 1) (some (i32Value 1))

/-- The loop is run once. -/
lemma countMir_steps (calls : Mir.Calls .w64)
    (hcall : ∀ s, calls 1 [] [i32Value 0] s (i32Value 1) s) : ∃ s,
    Mir.Steps countMir calls ⟨startBlock, countMir.statementsAt startBlock, countMirStart⟩
      ⟨3, [], s⟩ :=
  ⟨_, .head (.statement rfl) <| .head (.terminator rfl (.goto 1)) <| .head (.statement rfl) <|
    .head (.terminator rfl (.switchInt _ rfl rfl)) <|
    .head (.terminator rfl (.call 1 none rfl (hcall _) rfl)) <| .head (.statement rfl) <|
    .head (.terminator rfl (.switchInt _ rfl rfl)) .refl⟩

/-- The loop, with a call of the other function. -/
theorem Crate.Accepted.machine_ok_count : ∃ s,
    Mir.Steps countMir (countCrate.calls (fun _ _ _ _ _ _ => False) 1)
      ⟨startBlock, countMir.statementsAt startBlock, countMirStart⟩ ⟨3, [], s⟩ ∧
    Mir.Config.Ok countMir Typeck.countEnv.specs (Typeck.countSig.Post fun _ => .int 1)
      ⟨3, [], s⟩ := by
  obtain ⟨s, hsteps⟩ := countMir_steps (countCrate.calls (fun _ _ _ _ _ _ => False) 1) fun s =>
    ⟨rfl, succMir, rfl, succMir_returns _⟩
  have hnone : Mir.Calls.Respect (fun _ _ _ _ _ _ => False : Mir.Calls .w64)
      countCrate.globalEnv.specs :=
    ⟨fun _ _ _ _ _ _ h => h.elim, fun _ _ _ _ _ _ _ _ h => h.elim⟩
  have hsig : countCrate.globalEnv.specs 0 = some Typeck.countSig := rfl
  have hpre : Typeck.countSig.Pre (fun _ => .int 1) ([i32Value 1].map Mir.Value.abs) :=
    Typeck.countSig_pre
  have hargs : countMirStart.HasArgs countMir [i32Value 1] := rfl
  exact ⟨s, hsteps, countCrate_accepted.machine_ok hnone hsig rfl rfl hpre hargs hsteps⟩

end LiquidRust.Driver
