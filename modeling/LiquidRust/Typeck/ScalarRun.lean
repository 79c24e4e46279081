import LiquidRust.Core.Dominance
import LiquidRust.Typeck.ScalarBlocks
import LiquidRust.Typeck.Traversal

set_option relaxedAutoImplicit false
set_option autoImplicit false

/-!
# Edges and blocks are sound

The recursion along edges ends at join points. What is proved of it is that a block does not go
wrong for one step more than the join points that are come to in the environments that the check
makes for them. Meanwhile the cursor moves down in the tree, and the edges to join points are
followed below the place where it ends.

## Main definitions

* `LiquidRust.Typeck.Setting.Good` — what holds of a state at any time.
* `LiquidRust.Typeck.Setting.Segment` — what a part of the traversal does.
* `LiquidRust.Typeck.Setting.Leads` — an environment at a block leads to no error.

## Main results

* `LiquidRust.Typeck.Setting.wp_checkBlockData_safe` — blocks are sound.
* `LiquidRust.Typeck.Setting.soundGoto_checkGoto` — edges are sound.
-/

namespace LiquidRust.Typeck

open Lib Cursor
open Core.Ir (BasicBlock Body Operand Statement Terminator SwitchTargets BasicBlockData startBlock)

/-! ## States -/

/-- The state of a check, not of inference. -/
def State.Checks (s : State) : Prop :=
  ∃ shapes, s.mode = .check shapes

/-- A later state of one phase. -/
structure Later (s s' : State) : Prop where
  le : s.cursor.Le s'.cursor
  trace : s.trace <:+ s'.trace
  checks : s'.Checks → s.Checks

/-- An event of a part of the traversal that ends in `s`: an edge leads to a join point, from the
place of the cursor or below. -/
def Event.Below (body : Body) (s : State) : Event → Prop
  | .edge target _ bbEnv _ cursor =>
    body.isJoinPoint target = true ∧ body.Via s.visited target ∧ s.cursor.node <+: cursor.node ∧
      (s.Checks → ∃ bbEnv', bbEnv = some bbEnv' ∧ s.bbEnvs.lookup target = some bbEnv')
  | .takeUp _ _ _ => False
  | .block _ | .env _ | .shape _ _ _ => True

section

variable {s s' s'' : State}

/-- A state later than a later one is later. -/
lemma Later.trans (h : Later s s') (h' : Later s' s'') : Later s s'' :=
  ⟨h.le.trans h'.le, h.trace.trans h'.trace, fun hc => h.checks (h'.checks hc)⟩

/-- An advance leads to a later state. -/
lemma Advances.later (h : Advances s s') : Later s s' where
  le := h.le
  trace := by
    obtain ⟨envs, htrace⟩ := h.trace
    exact ⟨_, htrace.symm⟩
  checks hc := by rwa [State.Checks, h.mode] at hc

/-- An event without a cursor is below any state. -/
lemma Event.below_of_cursor {body : Body} {e : Event} (h : e.cursor? = none) : e.Below body s := by
  cases e with
  | edge target env bbEnv visited cursor => cases h
  | takeUp bb bbEnv cursor => cases h
  | _ => trivial

/-- An event below one state is below a later one. -/
lemma Event.Below.mono {body : Body} {e : Event} (h : e.Below body s)
    (hvisited : ∀ bb ∈ s.visited, bb ∈ s'.visited) (hnode : s'.cursor.node <+: s.cursor.node)
    (hchecks : s'.Checks → s.Checks) (hbbEnvs : s'.Checks → ∀ ⦃bb bbEnv⦄,
      s.bbEnvs.lookup bb = some bbEnv → s'.bbEnvs.lookup bb = some bbEnv) : e.Below body s' := by
  cases e with
  | edge target env bbEnv visited cursor =>
    obtain ⟨hjoin, hvia, hcursor, hlookup⟩ := h
    refine ⟨hjoin, hvia.mono hvisited, hnode.trans hcursor, fun hc => ?_⟩
    obtain ⟨bbEnv', hbbEnv, hmem⟩ := hlookup (hchecks hc)
    exact ⟨bbEnv', hbbEnv, hbbEnvs hc hmem⟩
  | takeUp bb bbEnv cursor => exact h.elim
  | _ => trivial

end

namespace Setting

variable (W : Setting)

/-- **What holds of a state at any time**: the environments of join points and the shapes are of
the same locations, and the cursors that events recorded are places of the tree. -/
structure Good (s : State) : Prop where
  ready : s.cursor.Ready
  names : W.N ⊆ namesBefore s.cursor.builder.nameGen
  joined : ∀ ⦃bb bbEnv⦄, s.bbEnvs.lookup bb = some bbEnv →
    bbEnv.Local (Ty.Joined (namesBefore s.cursor.builder.nameGen)) W.D
  shapes : ∀ ⦃shapes⦄, s.mode = .check shapes → ∀ ⦃bb shape⦄, shapes.lookup bb = some shape →
    TypeEnv.LocalShape W.D shape
  events : ∀ e ∈ s.trace, ∀ cursor ∈ e.cursor?,
    cursor.Valid ∧ cursor.builder.root.Grows s.cursor.builder.root

/-- A state of the check, which ends with the tree and the trace of the setting. -/
structure Final (s : State) : Prop where
  checks : s.Checks
  trace : s.trace <:+ W.trace
  root : s.cursor.builder.root.Grows W.tree

/-- **What a part of the traversal does.** It visits blocks that are no join points. In a check,
the environments of join points stay. -/
structure Segment (s s' : State) : Prop extends Later s s' where
  good : W.Good s'
  visited : ∀ bb ∈ s.visited, bb ∈ s'.visited
  entered : ∀ bb ∈ s'.visited, bb ∉ s.visited →
    W.body.Via s'.visited bb ∧ W.body.isJoinPoint bb = false
  events : ∃ es, s'.trace = es ++ s.trace ∧ ∀ e ∈ es, e.Below W.body s'
  bbEnvs : s'.Checks → ∀ ⦃bb bbEnv⦄,
    s.bbEnvs.lookup bb = some bbEnv → s'.bbEnvs.lookup bb = some bbEnv
  joined : ∀ bb ∈ s'.bbEnvs, bb ∉ s.bbEnvs →
    W.body.isJoinPoint bb = true ∧ W.body.Via s'.visited bb

/-- Nothing goes wrong in fewer than `n` steps from the join points, in the environments that the
edges to them lead to. -/
def JoinSafe (n : ℕ) : Prop :=
  ∀ ⦃target env bbEnv visited cursor⦄, Event.edge target env (some bbEnv) visited cursor ∈ W.trace →
    ∀ ρ S, cursor.Assumes W.I ρ → W.Q ρ → bbEnv.Inhabits W.tcx W.I ρ S →
      W.Safe n (.enter W.body target S)

/-- **An environment leads to no error** at a block, under a guard: not in fewer than `n` steps, if
the join points do not. -/
def Leads (s s' : State) (env : TypeEnv) (guard : Option Expr) (bb : BasicBlock) : Prop :=
  ∀ n, W.Final s' → W.JoinSafe n → ∀ ρ S, s.cursor.Assumes W.I ρ → W.Q ρ →
    Checker.GuardHolds W.I.div ρ guard → env.Inhabits W.tcx W.I ρ S →
      W.Safe n (.enter W.body bb S)

/-- **Edges are sound.** -/
def SoundGoto (goto : TypeEnv → BasicBlock → CheckM Unit) : Prop :=
  ∀ ⦃env target s⦄, W.Good s → env.Local (Ty.Indexed (namesBefore s.cursor.builder.nameGen)) W.D →
    W.body.Via s.visited target →
    wp (goto env target) (fun _ s' => W.Segment s s' ∧ W.Leads s s' env none target)
      (fun _ => True) s

variable {W} {s s' s'' : State} {env : TypeEnv} {n : ℕ} {bb target : BasicBlock}

/-- A state is final if a later one is. -/
lemma Final.of_later (h : W.Final s') (hlater : Later s s') : W.Final s :=
  ⟨hlater.checks h.checks, hlater.trace.trans h.trace, hlater.le.root.trans h.root⟩

/-- The types of an environment stay indexed. -/
lemma indexed_of_le {c c' : Cursor} (hle : c.Le c') {D : Set Loc}
    (h : env.Local (Ty.Indexed (namesBefore c.builder.nameGen)) D) :
    env.Local (Ty.Indexed (namesBefore c'.builder.nameGen)) D :=
  h.mono fun _ hty => hty.mono (namesBefore_mono hle.nameGen)

/-- A joined environment stays so at a later cursor. -/
lemma joined_of_le {c c' : Cursor} (hle : c.Le c') {D : Set Loc}
    (h : env.Local (Ty.Joined (namesBefore c.builder.nameGen)) D) :
    env.Local (Ty.Joined (namesBefore c'.builder.nameGen)) D :=
  h.mono fun _ hty => hty.mono (namesBefore_mono hle.nameGen)

/-- The cursor moves, and the rest stays. -/
lemma Good.withCursor {c : Cursor} (h : W.Good s) (hc : c.Ready) (hle : s.cursor.Le c) :
    W.Good { s with cursor := c } where
  ready := hc
  names := h.names.trans (namesBefore_mono hle.nameGen)
  joined _ _ hbbEnv := joined_of_le hle (h.joined hbbEnv)
  shapes := h.shapes
  events e he cursor hcursor :=
    ⟨(h.events e he cursor hcursor).1, (h.events e he cursor hcursor).2.trans hle.root⟩

/-- An event is recorded. -/
lemma Good.withEvent {e : Event} (h : W.Good s)
    (he : ∀ cursor ∈ e.cursor?, cursor.Valid ∧ cursor.builder.root.Grows s.cursor.builder.root) :
    W.Good { s with trace := e :: s.trace } :=
  ⟨h.ready, h.names, h.joined, h.shapes, List.forall_mem_cons.mpr ⟨he, h.events⟩⟩

/-- An advance leads from a good state to a good one. -/
lemma Good.advance (h : W.Good s) (hadv : Advances s s') : W.Good s' where
  ready := hadv.ready
  names := h.names.trans (namesBefore_mono hadv.le.nameGen)
  joined bb bbEnv hbbEnv := joined_of_le hadv.le (h.joined (hadv.bbEnvs ▸ hbbEnv))
  shapes shapes hmode := h.shapes (hadv.mode ▸ hmode)
  events := by
    obtain ⟨envs, htrace⟩ := hadv.trace
    intro e he cursor hcursor
    rw [htrace] at he
    rcases List.mem_append.mp he with he | he
    · obtain ⟨env, -, rfl⟩ := List.mem_map.mp he
      cases hcursor
    · obtain ⟨hvalid, hgrows⟩ := h.events e he cursor hcursor
      exact ⟨hvalid, hgrows.trans hadv.le.root⟩

namespace Segment

/-- An advance is a segment without a visit. -/
lemma of_advances (hs : W.Good s) (h : Advances s s') : W.Segment s s' where
  toLater := h.later
  good := hs.advance h
  visited bb hbb := by rwa [h.visited]
  entered bb hbb hnew := absurd (h.visited ▸ hbb) hnew
  events := by
    obtain ⟨envs, htrace⟩ := h.trace
    refine ⟨_, htrace, fun e he => ?_⟩
    obtain ⟨env, -, rfl⟩ := List.mem_map.mp he
    trivial
  bbEnvs _ bb bbEnv hbbEnv := by rwa [h.bbEnvs]
  joined bb hbb hnew := absurd (h.bbEnvs ▸ hbb) hnew

/-- Steps of a block come before a part. -/
lemma after (h : Advances s s') (h' : W.Segment s' s'') : W.Segment s s'' where
  toLater := h.later.trans h'.toLater
  good := h'.good
  visited bb hbb := h'.visited bb (h.visited.symm ▸ hbb)
  entered bb hbb hnew := h'.entered bb hbb (h.visited ▸ hnew)
  events := by
    obtain ⟨envs, htrace⟩ := h.trace
    obtain ⟨es, htrace', hbelow⟩ := h'.events
    refine ⟨es ++ envs.map .env, by rw [htrace', htrace, List.append_assoc], ?_⟩
    refine List.forall_mem_append.mpr ⟨hbelow, fun e he => ?_⟩
    obtain ⟨env, -, rfl⟩ := List.mem_map.mp he
    trivial
  bbEnvs hc bb bbEnv hbbEnv := h'.bbEnvs hc (h.bbEnvs.symm ▸ hbbEnv)
  joined bb hbb hnew := h'.joined bb hbb (h.bbEnvs ▸ hnew)

/-- Two parts one after the other, if the cursor ends where the first one does. -/
lemma trans (h : W.Segment s s') (h' : W.Segment s' s'')
    (hnode : s''.cursor.node = s'.cursor.node) : W.Segment s s'' where
  toLater := h.toLater.trans h'.toLater
  good := h'.good
  visited bb hbb := h'.visited bb (h.visited bb hbb)
  entered bb hbb hnew := by
    by_cases hmem : bb ∈ s'.visited
    · obtain ⟨hvia, hjoin⟩ := h.entered bb hmem hnew
      exact ⟨hvia.mono h'.visited, hjoin⟩
    · exact h'.entered bb hbb hmem
  events := by
    obtain ⟨es, htrace, hbelow⟩ := h.events
    obtain ⟨es', htrace', hbelow'⟩ := h'.events
    refine ⟨es' ++ es, by rw [htrace', htrace, List.append_assoc], ?_⟩
    refine List.forall_mem_append.mpr ⟨hbelow', fun e he => ?_⟩
    exact (hbelow e he).mono h'.visited (hnode ▸ List.prefix_rfl) h'.checks h'.bbEnvs
  bbEnvs hc bb bbEnv hbbEnv := h'.bbEnvs hc (h.bbEnvs (h'.checks hc) hbbEnv)
  joined bb hbb hnew := by
    by_cases hmem : bb ∈ s'.bbEnvs
    · obtain ⟨hjoin, hvia⟩ := h.joined bb hmem hnew
      exact ⟨hjoin, hvia.mono h'.visited⟩
    · exact h'.joined bb hbb hmem

/-- A part in a snapshot. -/
lemma snapshot (hs : W.Good s) (h : W.Segment s s') :
    W.Segment s { s' with cursor := { s.cursor with builder := s'.cursor.builder } } where
  le := h.le.restore
  trace := h.trace
  checks := h.checks
  good :=
    { ready := hs.ready.restore h.le h.good.ready
      names := h.good.names
      joined := h.good.joined
      shapes := h.good.shapes
      events := h.good.events }
  visited := h.visited
  entered := h.entered
  events := by
    obtain ⟨es, htrace, hbelow⟩ := h.events
    exact ⟨es, htrace, fun e he => (hbelow e he).mono (fun _ h => h) h.le.node id fun _ _ _ h => h⟩
  bbEnvs := h.bbEnvs
  joined := h.joined

end Segment

/-! ## Switches -/

variable {goto : TypeEnv → BasicBlock → CheckM Unit}

/-- **A target of a switch**, under its guard. -/
lemma wp_checkTarget_safe (hgoto : W.SoundGoto goto) (hs : W.Good s)
    (henv : env.Local (Ty.Indexed (namesBefore s.cursor.builder.nameGen)) W.D)
    (hvia : W.body.Via s.visited target) {guard : Option Expr}
    (hguard : ∀ e ∈ guard, e.Over (namesBefore s.cursor.builder.nameGen)) :
    wp (Checker.checkTarget goto env guard target)
      (fun _ s' => W.Segment s s' ∧ s'.cursor.node = s.cursor.node ∧ W.Leads s s' env guard target)
      (fun _ => True) s := by
  -- the target is followed once the guard is pushed
  have hrest : ∀ s₁, Advances s s₁ → (∀ ρ, s.cursor.Assumes W.I ρ →
      Checker.GuardHolds W.I.div ρ guard → s₁.cursor.Assumes W.I ρ) →
      wp (goto env target) (fun _ s₂ =>
        W.Segment s { s₂ with cursor := { s.cursor with builder := s₂.cursor.builder } } ∧
        W.Leads s { s₂ with cursor := { s.cursor with builder := s₂.cursor.builder } } env guard
          target) (fun _ => True) s₁ := by
    intro s₁ hadv hassumes
    refine wp_imp (hgoto (hs.advance hadv) (indexed_of_le hadv.le henv) (by rwa [hadv.visited]))
      fun _ s₂ h => ?_
    obtain ⟨hsegment, hleads⟩ := h
    refine ⟨(hsegment.after hadv).snapshot hs, fun n hfinal hjoin ρ S hρ hQ hholds hS => ?_⟩
    have hfinal' : W.Final s₂ := ⟨hfinal.checks, hfinal.trace, hfinal.root⟩
    refine hleads n hfinal' hjoin ρ S (hassumes ρ hρ hholds) hQ (fun e he => ?_) hS
    cases he
  rw [Checker.checkTarget, wp_withSnapshot]
  cases guard with
  | none =>
    refine wp_imp (hrest s ⟨.refl s, hs.ready, .refl _⟩ fun ρ hρ _ => hρ) fun _ s₂ h => ?_
    exact ⟨h.1, rfl, h.2⟩
  | some e =>
    dsimp only
    rw [wp_bind, wp_liftCursor]
    refine wp_imp (wp_pushGuard_ready hs.ready (hguard e rfl)) fun _ c h => ?_
    obtain ⟨hc, hle, hassumes⟩ := h
    refine wp_imp (hrest { s with cursor := c } ⟨.withCursor s c, hc, hle⟩
      fun ρ hρ hholds => hassumes W.I ρ hρ (hholds e rfl)) fun _ s₂ h => ?_
    exact ⟨h.1, rfl, h.2⟩

/-- **The targets of a switch**, one after the other. -/
lemma wp_checkTargets_safe (hgoto : W.SoundGoto goto) (hs : W.Good s)
    (henv : env.Local (Ty.Indexed (namesBefore s.cursor.builder.nameGen)) W.D)
    {branches : List (Option Expr × BasicBlock)}
    (hvia : ∀ b ∈ branches, W.body.Via s.visited b.2)
    (hguards : ∀ b ∈ branches, ∀ e ∈ b.1, e.Over (namesBefore s.cursor.builder.nameGen)) :
    wp (branches.forM fun b => Checker.checkTarget goto env b.1 b.2)
      (fun _ s' => W.Segment s s' ∧ s'.cursor.node = s.cursor.node ∧
        ∀ b ∈ branches, W.Leads s s' env b.1 b.2) (fun _ => True) s := by
  induction branches generalizing s with
  | nil => exact ⟨.of_advances hs ⟨.refl s, hs.ready, .refl _⟩, rfl, fun b hb => (by cases hb)⟩
  | cons b branches ih =>
    obtain ⟨hvia₁, hvia⟩ := List.forall_mem_cons.mp hvia
    obtain ⟨hguard, hguards⟩ := List.forall_mem_cons.mp hguards
    change wp (Checker.checkTarget goto env b.1 b.2 >>= fun _ =>
      branches.forM fun b => Checker.checkTarget goto env b.1 b.2) _ _ _
    rw [wp_bind]
    refine wp_imp (wp_checkTarget_safe hgoto hs henv hvia₁ hguard) fun _ s₁ h => ?_
    obtain ⟨hsegment₁, hnode₁, hleads₁⟩ := h
    have hmono := namesBefore_mono hsegment₁.le.nameGen
    refine wp_imp (ih hsegment₁.good (indexed_of_le hsegment₁.le henv)
      (fun b hb => (hvia b hb).mono hsegment₁.visited)
      fun b hb e he => Expr.Over.mono hmono (hguards b hb e he)) fun _ s₂ h => ?_
    obtain ⟨hsegment₂, hnode₂, hleads₂⟩ := h
    have hassumes : ∀ {ρ}, s.cursor.Assumes W.I ρ → s₁.cursor.Assumes W.I ρ := fun {ρ} hρ =>
      (assumes_of_node_eq hs.ready.toValid hsegment₁.good.ready.toValid hsegment₁.le.root
        hnode₁).mpr hρ
    refine ⟨hsegment₁.trans hsegment₂ hnode₂, hnode₂.trans hnode₁,
      List.forall_mem_cons.mpr ⟨fun n hfinal hjoin => ?_, fun b hb n hfinal hjoin ρ S hρ => ?_⟩⟩
    · exact hleads₁ n (hfinal.of_later hsegment₂.toLater) hjoin
    · exact hleads₂ b hb n hfinal hjoin ρ S (hassumes hρ)

/-- **Switches are sound**: the guard of the target that is taken is true. -/
lemma wp_checkSwitchInt_safe (hgoto : W.SoundGoto goto) (hs : W.Good s)
    (henv : env.Local (Ty.Indexed (namesBefore s.cursor.builder.nameGen)) W.D) (op : Operand)
    {discr : Discr} {targets : SwitchTargets} (hne : targets.targets ≠ [])
    (hbits : ∀ p ∈ targets.targets, discr.IsNonNegative p.1)
    (hvia : ∀ t ∈ targets.targets.map Prod.snd ++ [targets.otherwise], W.body.Via s.visited t) :
    wp (Checker.checkSwitchInt goto env op targets)
      (fun _ s' => W.Segment s s' ∧ ∀ n, W.Final s' → W.JoinSafe n → ∀ ρ S,
        s.cursor.Assumes W.I ρ → W.Q ρ → env.Inhabits W.tcx W.I ρ S →
          ∃ u, S.operand op = some u ∧ u.IsDiscr ∧ (discr.Has u →
            W.Safe n (.enter W.body (discr.takenTarget targets u) S))) (fun _ => True) s := by
  cases hop : Checker.checkOperand env op with
  | error f =>
    rw [Checker.checkSwitchInt, hop]
    trivial
  | ok r =>
    obtain ⟨env₁, discr_ty⟩ := r
    have hlocal := Checker.checkOperand_local henv op
    rw [hop] at hlocal
    obtain ⟨henv₁, hty⟩ := hlocal
    rcases hty.discrTy with rfl | ⟨ty, e, rfl, he⟩
    · -- there is a target, and it has no guard
      obtain ⟨p, ps, hps⟩ := List.exists_cons_of_ne_nil hne
      rw [Checker.checkSwitchInt, hop, hps]
      trivial
    · have hover : ∀ p ∈ targets.targets, ¬ty.Overflows p.1 := fun p hp =>
        ty.not_overflows_of_lt (hbits p hp).1
      have hbranches := Checker.switchBranches_eq e hover
      rw [Checker.checkSwitchInt_eq goto hop hbranches, wp_bind, wp_record]
      have hadv : Advances s { s with trace := .env env₁ :: s.trace } :=
        ⟨.withEnv s env₁, hs.ready, .refl _⟩
      refine wp_imp (wp_checkTargets_safe hgoto (hs.advance hadv) henv₁ (fun b hb => ?_)
        fun b hb => ?_) fun _ s' h => ?_
      · refine hvia b.2 ?_
        rcases List.mem_append.mp hb with hb | hb
        · obtain ⟨p, hp, rfl⟩ := List.mem_map.mp hb
          exact List.mem_append_left _ (List.mem_map_of_mem hp)
        · obtain rfl := List.mem_singleton.mp hb
          exact List.mem_append_right _ (List.mem_singleton_self _)
      · rcases List.mem_append.mp hb with hb | hb
        · obtain ⟨p, hp, rfl⟩ := List.mem_map.mp hb
          rintro _ ⟨⟩
          exact ty.over_guard he p.1
        · obtain rfl := List.mem_singleton.mp hb
          refine Checker.over_conjunction fun e' he' => ?_
          obtain ⟨p, hp, rfl⟩ := List.mem_map.mp he'
          exact ty.over_guard he p.1
      · obtain ⟨hsegment, -, hleads⟩ := h
        refine ⟨hsegment.after hadv, fun n hfinal hjoin ρ S hρ hQ hS => ?_⟩
        have hvalue := Checker.checkOperand_inhabits hS op
        rw [hop] at hvalue
        obtain ⟨hS₁, u, hu, hhas⟩ := hvalue
        refine ⟨u, hu, Value.isDiscr_of_has hhas, fun hdiscr => ?_⟩
        have heval : ∀ p ∈ targets.targets, (ty.guard e p.1).eval W.I.div ρ =
            some (.bool (decide (discr.IsListed p.1 u))) := fun p hp =>
          Discr.eval_guard hhas hdiscr (hbits p hp)
        rw [Discr.takenTarget]
        cases hfind : targets.targets.find? fun p => discr.IsListed p.1 u with
        | some p =>
          have hp := List.mem_of_find?_eq_some hfind
          have hlisted := List.find?_some hfind
          refine hleads (some (ty.guard e p.1), p.2)
            (List.mem_append_left _ (List.mem_map_of_mem hp)) n hfinal hjoin ρ S hρ hQ ?_ hS₁
          rintro _ ⟨⟩
          rw [heval p hp]
          simpa using hlisted
        | none =>
          refine hleads (_, targets.otherwise)
            (List.mem_append_right _ (List.mem_singleton_self _)) n hfinal hjoin ρ S hρ hQ ?_ hS₁
          refine (Checker.guardHolds_conjunction heval).mpr fun p hp => ?_
          simpa using List.find?_eq_none.mp hfind p hp

/-! ## Terminators and blocks -/

/-- **Terminators are sound**: nothing goes wrong at them, nor where they go to. -/
lemma wp_checkTerminator_safe (hW : W.Fair) (hgoto : W.SoundGoto goto) (hs : W.Good s)
    (henv : env.Local (Ty.Indexed (namesBefore s.cursor.builder.nameGen)) W.D)
    {terminator : Terminator} (hterminator : terminatorAt W.body bb = some terminator)
    (hvia : ∀ t ∈ terminator.successors, W.body.Via s.visited t) :
    wp (W.self.checkTerminator goto env terminator)
      (fun _ s' => W.Segment s s' ∧ ∀ n, W.Final s' → W.JoinSafe n → ∀ ρ S,
        s.cursor.Assumes W.I ρ → W.Q ρ → env.Inhabits W.tcx W.I ρ S →
          TerminatorOk W.specs W.Post S terminator ∧ ∀ target S',
            Goes (W.discrs bb) W.calls S terminator target S' →
              W.Safe n (.enter W.body target S'))
      (fun _ => True) s := by
  cases terminator with
  | return_ =>
    rw [Checker.checkTerminator, wp_liftCursor]
    refine wp_imp (wp_checkReturn_safe hW hs.ready hs.names henv) fun _ c h => ?_
    obtain ⟨hc, hle, hpost⟩ := h
    refine ⟨.of_advances hs ⟨.withCursor s c, hc, hle⟩, fun n hfinal _ ρ S hρ hQ hS => ?_⟩
    refine ⟨hpost hfinal.root ρ S hρ hQ hS, fun target S' hgoes => ?_⟩
    cases hgoes
  | goto target =>
    refine wp_imp (hgoto hs henv (hvia target (List.mem_singleton_self _))) fun _ s' h => ?_
    obtain ⟨hsegment, hleads⟩ := h
    refine ⟨hsegment, fun n hfinal hjoin ρ S hρ hQ hS => ⟨trivial, fun target' S' hgoes => ?_⟩⟩
    cases hgoes
    exact hleads n hfinal hjoin ρ S hρ hQ (fun e he => (by cases he)) hS
  | switchInt op targets =>
    obtain ⟨hne, hbits⟩ := hW.switches hterminator
    refine wp_imp (wp_checkSwitchInt_safe hgoto hs henv op hne hbits hvia) fun _ s' h => ?_
    obtain ⟨hsegment, hleads⟩ := h
    refine ⟨hsegment, fun n hfinal hjoin ρ S hρ hQ hS => ?_⟩
    obtain ⟨u, hu, hdiscr, hsafe⟩ := hleads n hfinal hjoin ρ S hρ hQ hS
    refine ⟨⟨u, hu, hdiscr⟩, fun target S' hgoes => ?_⟩
    cases hgoes with
    | switchInt _ hu' hhas =>
      obtain rfl := Option.some.inj (hu.symm.trans hu')
      exact hsafe hhas
  | drop place target =>
    rw [Checker.checkTerminator, wp_bind, wp_liftCursor, wp_ofExcept]
    cases hmove : env.movePlace place with
    | error f => trivial
    | ok r =>
      obtain ⟨env₁, ty⟩ := r
      have hlocal := Checker.checkOperand_local henv (.move place)
      rw [Checker.checkOperand, hmove] at hlocal
      rw [post_ok, wp_bind, wp_record]
      have hadv : Advances s { s with trace := .env env₁ :: s.trace } :=
        ⟨.withEnv s env₁, hs.ready, .refl _⟩
      refine wp_imp (hgoto (hs.advance hadv) hlocal.1
        (hvia target (List.mem_singleton_self _))) fun _ s' h => ?_
      obtain ⟨hsegment, hleads⟩ := h
      refine ⟨hsegment.after hadv, fun n hfinal hjoin ρ S hρ hQ hS => ⟨trivial, ?_⟩⟩
      intro target' S' hgoes
      cases hgoes
      have hvalue := Checker.checkOperand_inhabits hS (.move place)
      rw [Checker.checkOperand, hmove] at hvalue
      exact hleads n hfinal hjoin ρ S hρ hQ (fun e he => (by cases he)) hvalue.1
  | call func substs args destination =>
    rw [Checker.checkTerminator, wp_bind]
    refine wp_mono (wp_and (wp_and (Checker.wp_checkCall_contract (I := W.I) (F := W.tree) W.self
      hs.ready henv (fun _ h => hW.specs h) substs args destination)
      (Steady.kept_checkCall W.self env func substs args destination s))
      (Checker.wp_checkCall env func substs args destination rfl)) (fun r s₁ h => ?_)
      fun _ _ => trivial
    obtain ⟨⟨⟨hc₁, hle₁, henv₁, hmeets⟩, hsteady⟩, -, hr⟩ := h
    have hadv : Advances s s₁ := ⟨hsteady, hc₁, hle₁⟩
    cases r with
    | none =>
      obtain rfl : destination = none := by simpa using hr.symm
      refine ⟨.of_advances hs hadv, fun n hfinal _ ρ S hρ hQ hS => ?_⟩
      obtain ⟨fn_sig, hsig, us, inst, hus, hpre, -⟩ := hmeets hfinal.root hW.tree ρ S hρ hS
      refine ⟨⟨fn_sig, us, inst, hsig, hus, hpre⟩, fun target S' hgoes => ?_⟩
      cases hgoes
    | some r =>
      obtain ⟨env₂, target⟩ := r
      obtain ⟨⟨p, bb'⟩, rfl, hd⟩ := Option.map_eq_some_iff.mp hr.symm
      obtain rfl : bb' = target := hd
      have hvia₁ : W.body.Via s₁.visited bb' := by
        rw [hadv.visited]
        exact hvia bb' (List.mem_singleton_self _)
      refine wp_imp (hgoto (hs.advance hadv) (henv₁ env₂ bb' rfl) hvia₁) fun _ s₂ h => ?_
      obtain ⟨hsegment, hleads⟩ := h
      refine ⟨hsegment.after hadv, fun n hfinal hjoin ρ S hρ hQ hS => ?_⟩
      obtain ⟨fn_sig, hsig, us, inst, hus, hpre, hreturn⟩ :=
        hmeets (hsegment.le.root.trans hfinal.root) hW.tree ρ S hρ hS
      obtain ⟨p', hp', hpost⟩ := hreturn env₂ bb' rfl
      cases hp'
      refine ⟨⟨fn_sig, us, inst, hsig, hus, hpre⟩, fun target' S' hgoes => ?_⟩
      cases hgoes with
      | call _ hus' hcalls hplace =>
        obtain rfl := Option.some.inj (hus.symm.trans hus')
        -- the function that is called leaves the store and keeps its contract
        obtain ⟨rfl, hrespect⟩ := hW.respect hsig hcalls
        obtain ⟨ρ', loc, hagree, hρ', hplace', hS'⟩ := hpost _ (hrespect inst hpre)
        obtain rfl := Option.some.inj (hplace'.symm.trans hplace)
        exact hleads n hfinal hjoin ρ' _ hρ' (hW.names (hagree.mono hs.names) hQ)
          (fun e he => (by cases he)) hS'

/-- **Blocks are sound**: nothing goes wrong in a block, and one step less is left after it. -/
lemma wp_checkBlockData_safe (hW : W.Fair) (hgoto : W.SoundGoto goto) (hs : W.Good s)
    (henv : env.Local (Ty.Indexed (namesBefore s.cursor.builder.nameGen)) W.D)
    {data : BasicBlockData} (hdata : W.body.basicBlocks[bb]? = some data)
    (hvia : W.body.Via s.visited bb) (hbb : bb ∈ s.visited) :
    wp (W.self.checkBlockData goto env data)
      (fun _ s' => W.Segment s s' ∧ ∀ n, W.Final s' → W.JoinSafe n → ∀ ρ S,
        s.cursor.Assumes W.I ρ → W.Q ρ → env.Inhabits W.tcx W.I ρ S →
          W.Safe (n + 1) (.enter W.body bb S))
      (fun _ => True) s := by
  have hstatements : statementsAt W.body bb = data.statements := by rw [statementsAt, hdata]; rfl
  have hterminator : terminatorAt W.body bb = data.terminator := by rw [terminatorAt, hdata]; rfl
  rw [Checker.checkBlockData, wp_bind]
  refine wp_imp (wp_checkStatements_safe hW hs.ready henv fun stmt hstmt =>
    hW.statements bb stmt (hstatements ▸ hstmt)) fun env₁ s₁ h => ?_
  obtain ⟨hadv, henv₁, hstmts⟩ := h
  have hlast : ∀ {s'}, W.Segment s₁ s' → (∀ n, W.Final s' → W.JoinSafe n → ∀ ρ S,
      s₁.cursor.Assumes W.I ρ → W.Q ρ → env₁.Inhabits W.tcx W.I ρ S →
        W.Safe (n + 1) ⟨bb, [], S⟩) → W.Segment s s' ∧ ∀ n, W.Final s' → W.JoinSafe n → ∀ ρ S,
          s.cursor.Assumes W.I ρ → W.Q ρ → env.Inhabits W.tcx W.I ρ S →
            W.Safe (n + 1) (.enter W.body bb S) := by
    intro s' hsegment hsafe
    refine ⟨hsegment.after hadv, fun n hfinal hjoin ρ S hρ hQ hS => ?_⟩
    obtain ⟨hρ₁, hrest⟩ := hstmts (hsegment.le.root.trans hfinal.root) ρ S hρ hS
    rw [Config.enter, hstatements]
    exact hrest (n + 1) bb fun S' hS' => hsafe n hfinal hjoin ρ S' hρ₁ hQ hS'
  cases hdata' : data.terminator with
  | none =>
    refine hlast (.of_advances (hs.advance hadv) ⟨.refl s₁, hadv.ready, .refl _⟩) ?_
    intro n _ _ ρ S _ _ _
    refine safe_terminator fun terminator h => ?_
    rw [hterminator, hdata'] at h
    cases h
  | some terminator =>
    rw [hdata'] at hterminator
    refine wp_imp (wp_checkTerminator_safe hW hgoto (hs.advance hadv) henv₁ hterminator
      fun t ht => ?_) fun _ s' h => hlast h.1 fun n hfinal hjoin ρ S hρ hQ hS => ?_
    · rw [hadv.visited]
      refine hvia.edge hbb ?_
      rw [Body.Edge, successors_eq, hterminator]
      exact ht
    · refine safe_terminator fun terminator' h' => ?_
      rw [hterminator] at h'
      obtain rfl := Option.some.inj h'
      exact h.2 n hfinal hjoin ρ S hρ hQ hS

/-- A block is entered: it is visited, and the cursor stays where it is. -/
structure EntersBlock (W : Setting) (bb : BasicBlock) (s s' : State) : Prop extends Later s s' where
  good : W.Good s'
  visited : s'.visited = bb :: s.visited
  bbEnvs : s'.bbEnvs = s.bbEnvs
  node : s'.cursor.node = s.cursor.node
  recorded : s'.trace = .block bb :: s.trace

/-- Entering a block records the visit. -/
lemma wp_enterBlock_safe (hs : W.Good s) (bb : BasicBlock) :
    wp (W.self.enterBlock bb) (fun _ s' => W.EntersBlock bb s s') (fun _ => True) s := by
  rw [Checker.enterBlock, wp_bind, wp_modify, wp_bind, wp_record]
  have hgood : ∀ c : Cursor, c.Ready → s.cursor.Le c → W.Good
      { s with cursor := c, visited := bb :: s.visited, trace := .block bb :: s.trace } := by
    intro c hc hle
    have hblock := (hs.withCursor hc hle).withEvent (e := .block bb) fun _ h => (by cases h)
    exact ⟨hblock.ready, hblock.names, hblock.joined, hblock.shapes, hblock.events⟩
  split
  · rw [wp_liftCursor]
    refine wp_imp (wp_pushScope_ready hs.ready) fun _ c h => ?_
    obtain ⟨hc, hle, hnode⟩ := h
    exact ⟨⟨hle, List.suffix_cons _ _, id⟩, hgood c hc hle, rfl, rfl, hnode, rfl⟩
  · exact ⟨⟨.refl _, List.suffix_cons _ _, id⟩, hgood _ hs.ready (.refl _), rfl, rfl, rfl, rfl⟩

/-- A block that is no join point comes before a part. -/
lemma Segment.enter (h : W.EntersBlock bb s s') (h' : W.Segment s' s'')
    (hvia : W.body.Via s.visited bb) (hjoin : W.body.isJoinPoint bb = false) :
    W.Segment s s'' where
  toLater := h.toLater.trans h'.toLater
  good := h'.good
  visited b hb := h'.visited b (h.visited ▸ .tail bb hb)
  entered b hb hnew := by
    by_cases hmem : b ∈ s'.visited
    · rw [h.visited] at hmem
      obtain rfl := (List.mem_cons.mp hmem).resolve_right hnew
      exact ⟨hvia.mono fun b' hb' => h'.visited b' (h.visited ▸ .tail b hb'), hjoin⟩
    · exact h'.entered b hb hmem
  events := by
    obtain ⟨es, htrace, hbelow⟩ := h'.events
    refine ⟨es ++ [.block bb], by rw [htrace, h.recorded, List.append_assoc]; rfl, ?_⟩
    exact List.forall_mem_append.mpr ⟨hbelow, List.forall_mem_singleton.mpr trivial⟩
  bbEnvs hc b bbEnv hbbEnv := h'.bbEnvs hc (h.bbEnvs.symm ▸ hbbEnv)
  joined b hb hnew := h'.joined b hb (h.bbEnvs ▸ hnew)

/-- **A block is entered**, and does not go wrong for one step more than the join points. -/
lemma wp_checkBasicBlock_safe (hW : W.Fair) (hgoto : W.SoundGoto goto) (hs : W.Good s)
    (henv : env.Local (Ty.Indexed (namesBefore s.cursor.builder.nameGen)) W.D)
    (hvia : W.body.Via s.visited bb) :
    wp (W.self.checkBasicBlock goto env bb)
      (fun _ s' => ∃ s₁, W.EntersBlock bb s s₁ ∧ W.Segment s₁ s' ∧ ∀ n, W.Final s' → W.JoinSafe n →
        ∀ ρ S, s.cursor.Assumes W.I ρ → W.Q ρ → env.Inhabits W.tcx W.I ρ S →
          W.Safe (n + 1) (.enter W.body bb S))
      (fun _ => True) s := by
  rw [Checker.checkBasicBlock, wp_bind]
  refine wp_imp (wp_enterBlock_safe hs bb) fun _ s₁ henters => ?_
  cases hdata : W.self.body.basicBlocks[bb]? with
  | none => trivial
  | some data =>
    have hvisited : ∀ b ∈ s.visited, b ∈ s₁.visited := fun b hb =>
      henters.visited ▸ .tail bb hb
    have hbb : bb ∈ s₁.visited := henters.visited ▸ .head _
    refine wp_imp (wp_checkBlockData_safe hW hgoto henters.good (indexed_of_le henters.le henv)
      hdata (hvia.mono hvisited) hbb) fun _ s' h => ?_
    obtain ⟨hsegment, hsafe⟩ := h
    refine ⟨s₁, henters, hsegment, fun n hfinal hjoin ρ S hρ hQ hS => ?_⟩
    refine hsafe n hfinal hjoin ρ S ?_ hQ hS
    exact (assumes_of_node_eq hs.ready.toValid henters.good.ready.toValid henters.le.root
      henters.node).mpr hρ

/-! ## Join points -/

/-- The environment of a join point is stored. -/
lemma Good.withBbEnv {bbEnv : TypeEnv} (h : W.Good s)
    (hbbEnv : bbEnv.Local (Ty.Joined (namesBefore s.cursor.builder.nameGen)) W.D)
    (target : BasicBlock) : W.Good { s with bbEnvs := s.bbEnvs.insert target bbEnv } where
  ready := h.ready
  names := h.names
  joined bb bbEnv' hlookup := by
    by_cases hbb : bb = target
    · subst hbb
      rw [AList.lookup_insert] at hlookup
      exact Option.some.inj hlookup ▸ hbbEnv
    · rw [AList.lookup_insert_ne hbb] at hlookup
      exact h.joined hlookup
  shapes := h.shapes
  events := h.events

/-- An edge to a join point, which visits nothing. -/
lemma Segment.arrive (hlater : Later s s') (hgood : W.Good s') (hvisited : s'.visited = s.visited)
    (hjoin : W.body.isJoinPoint target = true) (hvia : W.body.Via s.visited target)
    (hevents : ∃ es, s'.trace = es ++ s.trace ∧ ∀ e ∈ es, e.Below W.body s')
    (hbbEnvs : s'.Checks → ∀ ⦃bb bbEnv⦄,
      s.bbEnvs.lookup bb = some bbEnv → s'.bbEnvs.lookup bb = some bbEnv)
    (hjoined : ∀ bb ∈ s'.bbEnvs, bb ∈ s.bbEnvs ∨ bb = target) : W.Segment s s' where
  toLater := hlater
  good := hgood
  visited bb hbb := by rwa [hvisited]
  entered bb hbb hnew := absurd (hvisited ▸ hbb) hnew
  events := hevents
  bbEnvs := hbbEnvs
  joined bb hbb hnew := by
    obtain rfl := (hjoined bb hbb).resolve_left hnew
    exact ⟨hjoin, by rwa [hvisited]⟩

/-- An edge in inference. -/
lemma wp_inferJoinPoint_safe (hs : W.Good s) (hmode : s.mode = .inference)
    (henv : env.Local (Ty.Indexed (namesBefore s.cursor.builder.nameGen)) W.D)
    (hjoin : W.body.isJoinPoint target = true) (hvia : W.body.Via s.visited target) :
    wp (W.self.inferJoinPoint env target)
      (fun _ s' => W.Segment s s' ∧ s'.cursor.node = s.cursor.node ∧ ¬s'.Checks)
      (fun _ => True) s := by
  have hchecks : ¬s.Checks := by
    rintro ⟨shapes, hshapes⟩
    cases hmode.symm.trans hshapes
  have hinsert : ∀ bbEnv, ∀ bb ∈ s.bbEnvs.insert target bbEnv, bb ∈ s.bbEnvs ∨ bb = target := by
    intro bbEnv bb hbb
    exact ((AList.mem_insert _).mp hbb).symm
  rw [Checker.inferJoinPoint, wp_bind, wp_get]
  cases hlookup : s.bbEnvs.lookup target with
  | none =>
    rw [wp_modify]
    refine ⟨.arrive ⟨.refl _, List.suffix_rfl, fun h => h⟩ (hs.withBbEnv henv.joined target) rfl
      hjoin hvia ⟨[], rfl, by simp⟩ (fun h => absurd h hchecks) (hinsert env), rfl,
      hchecks⟩
  | some bbEnv =>
    dsimp only
    rw [wp_bind, wp_liftCursor]
    refine wp_imp (TypeEnv.wp_joinWith_joined hs.ready.named.varsIn (hs.joined hlookup)
      henv.joined) fun bbEnv' c h => ?_
    obtain ⟨hquiet, hbbEnv'⟩ := h
    rw [wp_bind, wp_record, wp_modify]
    have hgood := ((hs.withCursor (hquiet.ready hs.ready) hquiet.le).withEvent (e := .env bbEnv')
      fun _ h => (by cases h)).withBbEnv (hbbEnv'.mono fun _ hty =>
        hty.mono (namesBefore_mono hquiet.nameGen)) target
    refine ⟨.arrive ⟨hquiet.le, List.suffix_cons _ _, fun h => h⟩ hgood rfl hjoin hvia
      ⟨[.env bbEnv'], rfl, by simp [Event.Below]⟩ (fun h => absurd h hchecks) (hinsert bbEnv'),
      hquiet.node, hchecks⟩

/-- **The environment of a join point** in the check: it is there, or made from its shape. -/
lemma wp_checkBbEnv_safe (hs : W.Good s)
    {shapes : AList fun _ : BasicBlock => TypeEnvShape} (hmode : s.mode = .check shapes)
    (henv : env.Local (Ty.Indexed (namesBefore s.cursor.builder.nameGen)) W.D)
    (target : BasicBlock) :
    wp (Checker.checkBbEnv env target shapes)
      (fun bbEnv s' => W.Good s' ∧ s.cursor.Quiet s'.cursor ∧ s'.visited = s.visited ∧ s'.Checks ∧
        s'.bbEnvs.lookup target = some bbEnv ∧
        (∀ ⦃bb bbEnv⦄, s.bbEnvs.lookup bb = some bbEnv → s'.bbEnvs.lookup bb = some bbEnv) ∧
        (∀ bb ∈ s'.bbEnvs, bb ∈ s.bbEnvs ∨ bb = target) ∧
        ∃ es, s'.trace = es ++ s.trace ∧ ∀ e ∈ es, e.cursor? = none)
      (fun _ => True) s := by
  rw [Checker.checkBbEnv, wp_bind, wp_get]
  cases hlookup : s.bbEnvs.lookup target with
  | some bbEnv =>
    exact ⟨hs, .refl _, rfl, ⟨shapes, hmode⟩, hlookup, fun _ _ h => h, fun _ h => .inl h,
      [], rfl, by simp⟩
  | none =>
    cases hshape : shapes.lookup target with
    | none => trivial
    | some shape =>
      dsimp only
      rw [wp_bind, wp_record, wp_bind, wp_modify, wp_bind, wp_liftCursor]
      refine wp_imp (TypeEnv.wp_inferBbEnv_joined hs.ready.toValid hs.ready.named.varsIn henv
        (hs.shapes hmode hshape)) fun bbEnv c h => ?_
      obtain ⟨hquiet, hbbEnv⟩ := h
      rw [wp_bind, wp_record, wp_bind, wp_modify, wp_pure]
      have hshaped : W.Good { s with
          cursor := c
          mode := .check (shapes.erase target)
          trace := .env bbEnv :: .shape target env shape :: s.trace } := by
        have hcursor := hs.withCursor (hquiet.ready hs.ready) hquiet.le
        refine ⟨hcursor.ready, hcursor.names, hcursor.joined, fun shapes' h => ?_, ?_⟩
        · cases h
          intro bb shape' hlookup'
          by_cases hbb : bb = target
          · subst hbb
            rw [AList.lookup_erase] at hlookup'
            cases hlookup'
          · rw [AList.lookup_erase_ne hbb] at hlookup'
            exact hs.shapes hmode hlookup'
        · refine List.forall_mem_cons.mpr ⟨fun _ h => (by cases h), ?_⟩
          exact List.forall_mem_cons.mpr ⟨fun _ h => (by cases h), hcursor.events⟩
      refine ⟨hshaped.withBbEnv (hbbEnv.mono fun _ hty =>
        hty.mono (namesBefore_mono hquiet.nameGen)) target, hquiet, rfl, ⟨_, rfl⟩,
        AList.lookup_insert _, fun bb bbEnv' h => ?_,
        fun bb hbb => ((AList.mem_insert _).mp hbb).symm, [.env bbEnv, .shape target env shape],
        rfl, by simp [Event.cursor?]⟩
      have hne : bb ≠ target := by
        rintro rfl
        cases hlookup.symm.trans h
      rwa [AList.lookup_insert_ne hne]

/-- **Edges to join points are sound**: a store of the environment that arrives is one of the
environment of the join point. -/
lemma wp_checkGotoJoinPoint_safe (hW : W.Fair) (hs : W.Good s)
    (henv : env.Local (Ty.Indexed (namesBefore s.cursor.builder.nameGen)) W.D)
    (hjoin : W.body.isJoinPoint target = true) (hvia : W.body.Via s.visited target) :
    wp (W.self.checkGotoJoinPoint env target)
      (fun _ s' => W.Segment s s' ∧ W.Leads s s' env none target) (fun _ => True) s := by
  rw [Checker.checkGotoJoinPoint, wp_bind, wp_get]
  have hself : ∀ cursor ∈ some s.cursor,
      cursor.Valid ∧ cursor.builder.root.Grows s.cursor.builder.root := by
    rintro _ ⟨⟩
    exact ⟨hs.ready.toValid, .refl⟩
  cases hmode : s.mode with
  | inference =>
    have hchecks : ¬s.Checks := by
      rintro ⟨shapes, hshapes⟩
      cases hmode.symm.trans hshapes
    dsimp only
    rw [wp_bind, wp_record]
    let edge := Event.edge target env (s.bbEnvs.lookup target) (target ∈ s.visited) s.cursor
    have hedge : W.Segment s { s with trace := edge :: s.trace } :=
      .arrive ⟨.refl _, List.suffix_cons _ _, fun h => h⟩ (hs.withEvent hself) rfl hjoin hvia
        ⟨[edge], rfl, List.forall_mem_singleton.mpr
          ⟨hjoin, hvia, List.prefix_rfl, fun h => absurd h hchecks⟩⟩
        (fun _ _ _ h => h) fun _ h => .inl h
    refine wp_imp (wp_inferJoinPoint_safe hedge.good hmode henv hjoin hvia) fun _ s' h => ?_
    obtain ⟨hsegment, hnode, hchecks'⟩ := h
    exact ⟨hedge.trans hsegment hnode, fun n hfinal => absurd hfinal.checks hchecks'⟩
  | check shapes =>
    dsimp only
    rw [wp_bind]
    refine wp_imp (wp_checkBbEnv_safe hs hmode henv target) fun bbEnv s₁ h => ?_
    obtain ⟨hs₁, hquiet, hvisited, hchecks, hlookup, hkeep, hkeys, es, htrace, hes⟩ := h
    rw [wp_bind, wp_record, wp_bind, wp_liftCursor]
    have henv₁ := indexed_of_le hquiet.le henv
    refine wp_imp ((TypeEnv.proves_transformInto W.tcx hs₁.ready.toValid (fun x hx => hx)
      henv₁.joined (hs₁.joined hlookup)).ready (F := W.tree) (I := W.I)
      (KeepsNamed.transformInto env bbEnv) hs₁.ready) fun env' c h => ?_
    obtain ⟨hc, hle, hnode, -, hsound⟩ := h
    rw [wp_record]
    let edge := Event.edge target env (some bbEnv) (target ∈ s.visited) s.cursor
    have hgood : W.Good
        { s₁ with cursor := c, trace := .env env' :: edge :: s₁.trace } := by
      have hedge := hs₁.withEvent (e := edge) fun cursor hcursor =>
        ⟨(hself cursor hcursor).1, hquiet.root ▸ (hself cursor hcursor).2⟩
      exact (hedge.withCursor hc hle).withEvent fun _ h => (by cases h)
    refine ⟨.arrive ⟨hquiet.le.trans hle, ?_, fun _ => ⟨shapes, hmode⟩⟩ hgood hvisited hjoin hvia
      ⟨.env env' :: edge :: es, by rw [htrace]; rfl, ?_⟩ (fun _ => hkeep) hkeys, ?_⟩
    · exact ⟨.env env' :: edge :: es, by rw [htrace]; rfl⟩
    · refine List.forall_mem_cons.mpr ⟨trivial, List.forall_mem_cons.mpr ⟨?_, fun e he =>
        Event.below_of_cursor (hes e he)⟩⟩
      refine ⟨hjoin, by rwa [hvisited], ?_, fun _ => ⟨bbEnv, rfl, hlookup⟩⟩
      exact (hnode.trans hquiet.node) ▸ List.prefix_rfl
    · intro n hfinal hsafe ρ S hρ hQ _ hS
      have hmem : edge ∈ W.trace := hfinal.trace.subset (.tail _ (.head _))
      have hρ₁ := (hquiet.assumes_iff hs.ready.toValid).mpr hρ
      exact hsafe hmem ρ S hρ hQ ((hsound hfinal.root ρ (hW.tree ρ) hρ₁).2 S hS)

/-! ## Edges -/

/-- **Edges are sound**, with any fuel. -/
theorem soundGoto_checkGoto (hW : W.Fair) (fuel : ℕ) : W.SoundGoto (W.self.checkGoto fuel) := by
  induction fuel with
  | zero => exact fun _ _ _ _ _ _ => trivial
  | succ fuel ih =>
    intro env target s hs henv hvia
    rw [Checker.checkGoto]
    cases hjoin : W.self.body.isJoinPoint target with
    | true =>
      rw [if_pos rfl]
      exact wp_checkGotoJoinPoint_safe hW hs henv hjoin hvia
    | false =>
      rw [if_neg (by simp)]
      refine wp_imp (wp_checkBasicBlock_safe hW ih hs henv hvia) fun _ s' h => ?_
      obtain ⟨s₁, henters, hsegment, hsafe⟩ := h
      refine ⟨.enter henters hsegment hvia hjoin, fun n hfinal hsafe' ρ S hρ hQ _ hS => ?_⟩
      exact SafeFor.pred (hsafe n hfinal hsafe' ρ S hρ hQ hS)

end Setting

end LiquidRust.Typeck
