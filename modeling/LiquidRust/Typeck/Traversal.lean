import Mathlib.Data.List.Perm.Subperm
import LiquidRust.Core.Cfg
import LiquidRust.Typeck.Checker

set_option relaxedAutoImplicit false
set_option autoImplicit false

/-!
# The traversal of the control-flow graph

The checker follows edges with no test whether a block was visited. It still visits each reachable
block once: a block that is not a join point is entered along its only edge, and a join point is
taken up when all that comes before it in the reverse postorder is done.

## Main definitions

* `LiquidRust.Typeck.walk` — the part of a state that the traversal depends on.
* `LiquidRust.Typeck.WalkInv` — what holds of it at any time.
* `LiquidRust.Typeck.Enters` — what a part of the traversal adds to it.

## Main results

* `LiquidRust.Typeck.Checker.wp_checkBasicBlock`, `goodGoto_checkGoto` — a block and an edge.
* `LiquidRust.Typeck.Checker.run_checks_once` — every reachable block is checked once.
-/

namespace LiquidRust.Typeck

open Lib
open Core.Ir (BasicBlock Body Terminator startBlock SwitchTargets Operand)

/-- The blocks that were checked, the last one first. -/
def blocksOf (trace : List Event) : List BasicBlock :=
  trace.filterMap fun
    | .block bb => some bb
    | _ => none

/-- The join points whose shapes were removed, the last one first. -/
def shapesOf (trace : List Event) : List BasicBlock :=
  trace.filterMap fun
    | .shape bb _ _ => some bb
    | _ => none

/-- The part of a state that the traversal depends on. -/
structure Walk where
  visited : List BasicBlock
  joined : List BasicBlock
  shapes : Option (List BasicBlock)
  blocks : List BasicBlock
  removed : List BasicBlock

/-- The shapes of the join points, in the phase of checking. -/
def Mode.shapes : Mode → Option (AList fun _ : BasicBlock => TypeEnvShape)
  | .inference => none
  | .check shapes => some shapes

/-- The walk of a state. -/
def walk (s : State) : Walk where
  visited := s.visited
  joined := s.bbEnvs.keys
  shapes := s.mode.shapes.map AList.keys
  blocks := blocksOf s.trace
  removed := shapesOf s.trace

/-- The failures of statements and of operations on environments. -/
def IsFailure (e : Stopped) : Prop :=
  ∃ f, e.stop = .failure f

/-- The steps that are no part of the traversal. -/
abbrev Still {α : Type} (m : CheckM α) : Prop :=
  Keeps (fun s s' => walk s' = walk s) IsFailure m

section Still

variable {α β : Type} {m : CheckM α}

/-- Returning keeps the walk. -/
lemma Still.pure (a : α) : Still (Pure.pure a) :=
  Keeps.pure (R := fun s s' => walk s' = walk s) (fun _ => rfl) a

/-- One step after another keeps the walk. -/
lemma Still.bind {k : α → CheckM β} (hm : Still m) (hk : ∀ a, Still (k a)) : Still (m >>= k) :=
  Keeps.bind (R := fun s s' => walk s' = walk s) (fun _ _ _ h h' => h'.trans h) hm hk

/-- A fold keeps the walk. -/
lemma Still.foldlM {k : β → α → CheckM β} {l : List α} (hk : ∀ a ∈ l, ∀ b, Still (k b a)) (b : β) :
    Still (l.foldlM k b) :=
  Keeps.foldlM (R := fun s s' => walk s' = walk s) (fun _ => rfl) (fun _ _ _ h h' => h'.trans h)
    hk b

/-- A cursor operation keeps the walk. -/
lemma Still.liftCursor (m : CursorM α) : Still (Typeck.liftCursor m) := by
  intro s
  rw [wp_liftCursor, wp_iff]
  exact ⟨fun _ _ _ => rfl, fun f _ => ⟨f, rfl⟩⟩

/-- Recording an environment keeps the walk. -/
lemma Still.record_env (env : TypeEnv) : Still (record (.env env)) :=
  fun _ => rfl

/-- What comes after such a step starts with the walk that there was. -/
lemma Still.wp_bind {k : α → CheckM β} {Q : β → State → Prop} {w : Walk} {s : State}
    (hm : Still m) (hs : walk s = w) (hk : ∀ a s', walk s' = w → wp (k a) Q IsFailure s') :
    wp (m >>= k) Q IsFailure s := by
  rw [Lib.wp_bind]
  exact wp_imp (hm s) fun a s' hs' => hk a s' (hs'.trans hs)

end Still

/-! ## The invariant -/

section Walk

variable (body : Body)

/-- **What holds of a walk at any time.** No block is visited twice, and a block that is not a
join point is visited after a predecessor. Shapes are removed as environments are stored, and
those that are still to come are there. -/
structure WalkInv (w : Walk) : Prop where
  nodup : w.visited.Nodup
  blocks : w.blocks = w.visited
  reachable : ∀ bb ∈ w.visited, body.Reachable bb
  joined : ∀ bb ∈ w.joined, body.isJoinPoint bb = true ∧ body.Reachable bb
  entered : ∀ bb ∈ w.visited, body.isJoinPoint bb = false →
    bb = startBlock ∨ ∃ u ∈ w.visited, body.Edge u bb
  removed : ∀ shapes ∈ w.shapes, w.removed.Nodup ∧ (∀ bb, bb ∈ w.removed ↔ bb ∈ w.joined) ∧
    ∀ bb, body.isJoinPoint bb = true → body.Reachable bb → bb ∈ w.joined ∨ bb ∈ shapes

/-- An edge to `t` was followed: a join point has an environment, any other block was visited. -/
def Arrived (w : Walk) (t : BasicBlock) : Prop :=
  if body.isJoinPoint t then t ∈ w.joined else t ∈ w.visited

/-- **What a part of the traversal adds**: blocks that are roots, or else are no join points and
have a predecessor among the new blocks. All edges that leave them are followed. -/
structure Enters (roots : BasicBlock → Prop) (w w' : Walk) : Prop where
  new : ∃ new, w'.visited = new ++ w.visited ∧
    (∀ bb ∈ new, roots bb ∨ body.isJoinPoint bb = false ∧ ∃ u ∈ new, body.Edge u bb) ∧
    ∀ bb ∈ new, ∀ t, body.Edge bb t → Arrived body w' t
  joined : w.joined ⊆ w'.joined
  mode : w'.shapes.isSome = w.shapes.isSome

/-- An edge to `t` may be followed. -/
structure CanEnter (w : Walk) (t : BasicBlock) : Prop where
  reachable : body.Reachable t
  new : body.isJoinPoint t = false → t ∉ w.visited
  entered : body.isJoinPoint t = false → t = startBlock ∨ ∃ u ∈ w.visited, body.Edge u t

variable {body} {roots roots' : BasicBlock → Prop} {w w' w'' : Walk} {t : BasicBlock}

/-- A walk that goes nowhere enters no block. -/
lemma Enters.refl : Enters body roots w w :=
  ⟨⟨[], rfl, by simp, by simp⟩, List.Subset.refl _, rfl⟩

/-- What enters some roots enters more. -/
lemma Enters.mono (h : Enters body roots w w') (hr : ∀ bb, roots bb → roots' bb) :
    Enters body roots' w w' := by
  obtain ⟨⟨new, hv, hnew, harr⟩, hj, hmode⟩ := h
  exact ⟨⟨new, hv, fun bb hbb => (hnew bb hbb).imp_left (hr bb), harr⟩, hj, hmode⟩

/-- Blocks that are visited stay so. -/
lemma Enters.visited_subset (h : Enters body roots w w') : w.visited ⊆ w'.visited := by
  obtain ⟨⟨new, hv, -⟩, -⟩ := h
  rw [hv]
  exact List.subset_append_right _ _

/-- The number of visited blocks does not fall. -/
lemma Enters.length_le (h : Enters body roots w w') : w.visited.length ≤ w'.visited.length := by
  obtain ⟨⟨new, hv, -⟩, -⟩ := h
  simp [hv]

/-- An edge that was followed stays so. -/
lemma Enters.arrived (h : Enters body roots w w') (ht : Arrived body w t) : Arrived body w' t := by
  unfold Arrived at ht ⊢
  split
  · rw [if_pos ‹_›] at ht
    exact h.joined ht
  · rw [if_neg ‹_›] at ht
    exact h.visited_subset ht

/-- One part of the walk after another. -/
lemma Enters.trans (h : Enters body roots w w') (h' : Enters body roots' w' w'') :
    Enters body (fun bb => roots bb ∨ roots' bb) w w'' := by
  have harrived : ∀ t, Arrived body w' t → Arrived body w'' t := fun _ => h'.arrived
  obtain ⟨⟨new, hv, hnew, harr⟩, hj, hmode⟩ := h
  obtain ⟨⟨new', hv', hnew', harr'⟩, hj', hmode'⟩ := h'
  refine ⟨⟨new' ++ new, by rw [hv', hv, List.append_assoc], fun bb hbb => ?_,
    fun bb hbb t he => ?_⟩,
    fun _ hx => hj' (hj hx), hmode'.trans hmode⟩
  · rcases List.mem_append.mp hbb with hbb | hbb
    · rcases hnew' bb hbb with hr | ⟨hjoin, u, hu, he⟩
      · exact .inl (.inr hr)
      · exact .inr ⟨hjoin, u, List.mem_append_left _ hu, he⟩
    · rcases hnew bb hbb with hr | ⟨hjoin, u, hu, he⟩
      · exact .inl (.inl hr)
      · exact .inr ⟨hjoin, u, List.mem_append_right _ hu, he⟩
  · rcases List.mem_append.mp hbb with hbb | hbb
    · exact harr' bb hbb t he
    · exact harrived t (harr bb hbb t he)

/-- The visited blocks are at most all blocks. -/
lemma WalkInv.length_le (h : WalkInv body w) (hcfg : body.CorrectCfg) :
    w.visited.length ≤ body.basicBlocks.length := by
  have hsub : w.visited ⊆ List.range body.basicBlocks.length := fun bb hbb =>
    List.mem_range.mpr (Core.Ir.Body.lt_length_of_reachable hcfg (h.reachable bb hbb))
  simpa using (List.subperm_of_subset h.nodup hsub).length_le

/-- The walk when a block is visited. -/
def Walk.visit (w : Walk) (bb : BasicBlock) : Walk :=
  { w with visited := bb :: w.visited, blocks := bb :: w.blocks }

/-- Visiting a new block that an edge leads to keeps the invariant. -/
lemma WalkInv.visit (h : WalkInv body w) (hreach : body.Reachable t) (hnew : t ∉ w.visited)
    (hent : body.isJoinPoint t = false → t = startBlock ∨ ∃ u ∈ w.visited, body.Edge u t) :
    WalkInv body (w.visit t) where
  nodup := List.nodup_cons.mpr ⟨hnew, h.nodup⟩
  blocks := congrArg (List.cons t) h.blocks
  reachable := List.forall_mem_cons.mpr ⟨hreach, h.reachable⟩
  joined := h.joined
  entered := by
    have hmono : ∀ bb, (bb = startBlock ∨ ∃ u ∈ w.visited, body.Edge u bb) →
        bb = startBlock ∨ ∃ u ∈ (w.visit t).visited, body.Edge u bb := fun bb hbb =>
      hbb.imp_right fun ⟨u, hu, he⟩ => ⟨u, .tail _ hu, he⟩
    exact List.forall_mem_cons.mpr ⟨fun hj => hmono t (hent hj), fun bb hbb hj =>
      hmono bb (h.entered bb hbb hj)⟩
  removed := h.removed

/-- The successors of a block that is not visited yet can all be entered. -/
lemma WalkInv.successor_new (h : WalkInv body w) (hcfg : body.CorrectCfg) {bb : BasicBlock}
    (hreach : body.Reachable bb) (hnew : bb ∉ w.visited) (he : body.Edge bb t)
    (ht : body.isJoinPoint t = false) : t ∉ (w.visit bb).visited := by
  intro hmem
  rcases List.mem_cons.mp hmem with rfl | hmem
  · exact hcfg.not_edge_self ht hreach he
  · rcases h.entered t hmem ht with rfl | ⟨u, hu, he'⟩
    · exact hcfg.ne_start_of_edge ht he rfl
    · exact hnew (hcfg.pred_unique ht he he' ▸ hu)

/-- An environment is stored for a join point, and its shape may be removed. -/
lemma WalkInv.store (h : WalkInv body w) (ht : body.isJoinPoint t = true)
    (hreach : body.Reachable t) (hvisited : w'.visited = w.visited) (hblocks : w'.blocks = w.blocks)
    (hjoined : ∀ bb, bb ∈ w'.joined ↔ bb = t ∨ bb ∈ w.joined)
    (hremoved : ∀ shapes ∈ w'.shapes, w'.removed.Nodup ∧
      (∀ bb, bb ∈ w'.removed ↔ bb ∈ w'.joined) ∧
      ∀ bb, body.isJoinPoint bb = true → body.Reachable bb → bb ∈ w'.joined ∨ bb ∈ shapes) :
    WalkInv body w' where
  nodup := hvisited ▸ h.nodup
  blocks := by rw [hvisited, hblocks, h.blocks]
  reachable := hvisited ▸ h.reachable
  joined := by
    intro bb hbb
    rcases (hjoined bb).mp hbb with rfl | hbb
    · exact ⟨ht, hreach⟩
    · exact h.joined bb hbb
  entered := hvisited ▸ h.entered
  removed := hremoved

/-- All edges out of visited blocks are followed. -/
def Complete (body : Body) (w : Walk) : Prop :=
  ∀ u ∈ w.visited, ∀ t, body.Edge u t → Arrived body w t

/-- A part of the walk leaves it complete. -/
lemma Enters.complete (h : Enters body roots w w') (hw : Complete body w) :
    Complete body w' := by
  intro u hu t he
  obtain ⟨new, hv, -, harr⟩ := h.new
  rw [hv] at hu
  rcases List.mem_append.mp hu with hu | hu
  · exact harr u hu t he
  · exact h.arrived (hw u hu t he)

/-! ## Edges out of a block -/

/-- **The edges of a block that are followed.** The block `bb` has been visited with the walk `w`,
and the edges to `done` have led to `w'`. -/
structure Leaves (body : Body) (bb : BasicBlock) (done : List BasicBlock) (w w' : Walk) : Prop where
  inv : WalkInv body w'
  enters : Enters body (fun t => t ∈ done ∧ body.isJoinPoint t = false) (w.visit bb) w'
  arrived : ∀ t ∈ done, Arrived body w' t

/-- The next edge of a block can be followed. -/
lemma Leaves.canEnter {bb : BasicBlock} {done rest : List BasicBlock}
    (h : Leaves body bb done w w') (hcfg : body.CorrectCfg) (hw : WalkInv body w)
    (hreach : body.Reachable bb) (hnew : bb ∉ w.visited)
    (hsucc : body.successors bb = done ++ t :: rest) : CanEnter body w' t := by
  have he : body.Edge bb t := by
    rw [Core.Ir.Body.Edge, hsucc]
    simp
  have hbb : bb ∈ w'.visited := h.enters.visited_subset (.head _)
  refine ⟨.tail hreach he, fun ht hmem => ?_, fun _ => .inr ⟨bb, hbb, he⟩⟩
  obtain ⟨new, hv, hroots, -⟩ := h.enters.new
  rw [hv] at hmem
  rcases List.mem_append.mp hmem with hmem | hmem
  · rcases hroots t hmem with ⟨hdone, -⟩ | ⟨-, u, hu, he'⟩
    · -- the edge would be there twice
      have hcount := hcfg.count_le_one (u := bb) ht
      rw [hsucc, List.count_append, List.count_cons_self] at hcount
      have := List.count_pos_iff.mpr hdone
      omega
    · -- the block itself would be visited twice
      obtain rfl := hcfg.pred_unique ht he he'
      have hnodup := h.inv.nodup
      rw [hv, List.nodup_append] at hnodup
      exact hnodup.2.2 bb hu bb (.head _) rfl
  · exact hw.successor_new hcfg hreach hnew he ht hmem

end Walk

namespace Checker

variable {self : Checker}

/-- The statements of a block keep the walk. -/
lemma still_checkStatements (env : TypeEnv) (statements : List Core.Ir.Statement) :
    Still (self.checkStatements env statements) :=
  Still.foldlM (fun _ _ _ => (Still.liftCursor _).bind fun _ => (Still.record_env _).bind fun _ =>
    Still.pure _) env

/-- A call leaves the walk, and goes to its destination. -/
lemma wp_checkCall (env : TypeEnv) (func : Core.DefId) (substs : List Core.Ty)
    (args : List Operand) (destination : Option (Core.Ir.Place × BasicBlock)) {s : State}
    {w : Walk} (hs : walk s = w) :
    wp (self.checkCall env func substs args destination)
      (fun r s' => walk s' = w ∧ r.map Prod.snd = destination.map Prod.snd) IsFailure s := by
  refine (Still.liftCursor _).wp_bind hs fun fn_sig s hs => ?_
  refine (Still.liftCursor _).wp_bind hs fun p s hs => ?_
  refine (Still.record_env _).wp_bind hs fun _ s hs => ?_
  refine (Still.liftCursor _).wp_bind hs fun subst s hs => ?_
  refine (Still.liftCursor _).wp_bind hs fun subst' s hs => ?_
  cases subst' with
  | none => exact ⟨_, rfl⟩
  | some subst' =>
    refine (Still.liftCursor _).wp_bind hs fun _ s hs => ?_
    refine (Still.liftCursor _).wp_bind hs fun _ s hs => ?_
    refine (Still.liftCursor _).wp_bind hs fun _ s hs => ?_
    refine Still.wp_bind (Still.foldlM (fun b _ p => ?_) _) hs fun p s hs => ?_
    · exact (Still.liftCursor _).bind fun _ => (Still.record_env _).bind fun _ => Still.pure _
    · cases destination with
      | none => exact ⟨hs, rfl⟩
      | some d =>
        refine (Still.liftCursor _).wp_bind hs fun _ s hs => ?_
        refine (Still.record_env _).wp_bind hs fun _ s hs => ?_
        exact ⟨hs, rfl⟩

/-- What the traversal needs of `goto` with fuel `n`: an edge that may be followed is. -/
def GoodGoto (body : Body) (n : ℕ) (goto : TypeEnv → BasicBlock → CheckM Unit) : Prop :=
  ∀ ⦃env t s w⦄, walk s = w → WalkInv body w → CanEnter body w t →
    body.basicBlocks.length < n + w.visited.length →
    wp (goto env t)
      (fun _ s' => WalkInv body (walk s') ∧
        Enters body (fun bb => bb = t ∧ body.isJoinPoint bb = false) w (walk s') ∧
        Arrived body (walk s') t)
      IsFailure s

section Block

variable {n : ℕ} {goto : TypeEnv → BasicBlock → CheckM Unit} {bb : BasicBlock} {w : Walk}
  {s : State}

/-- What is known when a block is visited. -/
structure AtBlock (body : Body) (n : ℕ) (bb : BasicBlock) (w : Walk) : Prop where
  cfg : body.CorrectCfg
  inv : WalkInv body w
  reachable : body.Reachable bb
  new : bb ∉ w.visited
  entered : body.isJoinPoint bb = false → bb = startBlock ∨ ∃ u ∈ w.visited, body.Edge u bb
  fuel : body.basicBlocks.length < n + (w.visit bb).visited.length

/-- At first no edge is followed. -/
lemma AtBlock.leaves (h : AtBlock self.body n bb w) : Leaves self.body bb [] w (w.visit bb) :=
  ⟨h.inv.visit h.reachable h.new h.entered, .refl, by simp⟩

/-- The next edge of a block. -/
lemma wp_next (h : AtBlock self.body n bb w) (hgoto : GoodGoto self.body n goto) (env : TypeEnv)
    {done rest : List BasicBlock} {t : BasicBlock}
    (hsucc : self.body.successors bb = done ++ t :: rest)
    (hleaves : Leaves self.body bb done w (walk s)) :
    wp (goto env t) (fun _ s' => Leaves self.body bb (done ++ [t]) w (walk s')) IsFailure s := by
  have hfuel := h.fuel
  have hlen := hleaves.enters.length_le
  refine wp_imp (hgoto rfl hleaves.inv (hleaves.canEnter h.cfg h.inv h.reachable h.new hsucc)
    (by omega)) fun _ s' h' => ?_
  obtain ⟨hinv', henters', harrived'⟩ := h'
  refine ⟨hinv', (hleaves.enters.trans henters').mono fun b hb => ?_, fun b hb => ?_⟩
  · rcases hb with ⟨hb, hj⟩ | ⟨rfl, hj⟩
    · exact ⟨List.mem_append_left _ hb, hj⟩
    · exact ⟨by simp, hj⟩
  · rcases List.mem_append.mp hb with hb | hb
    · exact henters'.arrived (hleaves.arrived b hb)
    · rw [List.mem_singleton] at hb
      exact hb ▸ harrived'

/-- A target of a switch is the next edge. -/
lemma wp_checkTarget (h : AtBlock self.body n bb w) (hgoto : GoodGoto self.body n goto)
    (env : TypeEnv) (guard : Option Expr) {done rest : List BasicBlock} {t : BasicBlock}
    (hsucc : self.body.successors bb = done ++ t :: rest)
    (hleaves : Leaves self.body bb done w (walk s)) :
    wp (checkTarget goto env guard t)
      (fun _ s' => Leaves self.body bb (done ++ [t]) w (walk s')) IsFailure s := by
  rw [checkTarget, wp_withSnapshot]
  cases guard with
  | none => exact wp_next h hgoto env hsucc hleaves
  | some e =>
    refine (Still.liftCursor _).wp_bind rfl fun _ s' hs' => ?_
    exact wp_next h hgoto env hsucc (hs' ▸ hleaves)

/-- The switch at the end of a block. -/
lemma wp_checkSwitchInt (h : AtBlock self.body n bb w) (hgoto : GoodGoto self.body n goto)
    (env : TypeEnv) (discr : Operand) (targets : SwitchTargets)
    (hsucc : self.body.successors bb = targets.targets.map Prod.snd ++ [targets.otherwise])
    (hs : walk s = w.visit bb) :
    wp (checkSwitchInt goto env discr targets)
      (fun _ s' => Leaves self.body bb (self.body.successors bb) w (walk s')) IsFailure s := by
  refine (Still.liftCursor _).wp_bind hs fun p s hs => ?_
  refine (Still.record_env _).wp_bind hs fun _ s hs => ?_
  rw [wp_bind]
  refine wp_imp (wp_forM_done (I := fun done s =>
    Leaves self.body bb (done.map Prod.snd) w (walk s)) (fun done a rest hsplit s hs => ?_)
    (hs ▸ h.leaves)) fun _ s hs => ?_
  · refine (Still.liftCursor _).wp_bind rfl fun e s' hs' => ?_
    rw [List.map_append]
    have hsucc' : self.body.successors bb =
        done.map Prod.snd ++ a.2 :: (rest.map Prod.snd ++ [targets.otherwise]) := by
      rw [hsucc, hsplit]
      simp
    exact wp_checkTarget h hgoto p.1 (some e) hsucc' (hs' ▸ hs)
  · refine (Still.liftCursor _).wp_bind rfl fun guard s' hs' => ?_
    have hsucc' : self.body.successors bb =
        targets.targets.map Prod.snd ++ targets.otherwise :: [] := hsucc
    have := wp_checkTarget h hgoto p.1 guard hsucc' (hs' ▸ hs)
    rwa [← hsucc] at this

/-- The beginning of a block. -/
lemma wp_enterBlock (bb : BasicBlock) (hs : walk s = w) :
    wp (self.enterBlock bb) (fun _ s' => walk s' = w.visit bb) IsFailure s := by
  subst hs
  rw [enterBlock, wp_bind, wp_modify, wp_bind, wp_record]
  split
  · exact Still.liftCursor _ _
  · rfl

/-- The end of a block: its edges, one after the other. -/
lemma wp_checkTerminator (h : AtBlock self.body n bb w) (hgoto : GoodGoto self.body n goto)
    (env : TypeEnv) (terminator : Terminator)
    (hsucc : self.body.successors bb = terminator.successors) (hs : walk s = w.visit bb) :
    wp (self.checkTerminator goto env terminator)
      (fun _ s' => Leaves self.body bb (self.body.successors bb) w (walk s')) IsFailure s := by
  cases terminator with
  | return_ =>
    refine wp_imp (Still.liftCursor (self.checkReturn env) s) fun _ s' hs' => ?_
    rw [hsucc, hs', hs]
    exact h.leaves
  | goto target =>
    rw [hsucc]
    have hsucc' : self.body.successors bb = [] ++ target :: [] := hsucc
    exact wp_next h hgoto env hsucc' (hs ▸ h.leaves)
  | switchInt discr targets => exact wp_checkSwitchInt h hgoto env discr targets hsucc hs
  | call func substs args destination =>
    rw [checkTerminator, wp_bind]
    refine wp_imp (wp_checkCall env func substs args destination hs) fun r s' hr => ?_
    obtain ⟨hs', hr⟩ := hr
    rw [Terminator.successors] at hsucc
    cases r with
    | none =>
      obtain rfl : destination = none := by simpa using hr.symm
      dsimp only
      rw [hsucc, wp_pure, hs']
      exact h.leaves
    | some r =>
      obtain ⟨d, rfl, hd⟩ := Option.map_eq_some_iff.mp hr.symm
      have hsucc' : self.body.successors bb = [] ++ r.2 :: [] := by simpa [hd] using hsucc
      rw [hsucc']
      exact wp_next h hgoto r.1 hsucc' (hs' ▸ h.leaves)
  | drop place target =>
    refine (Still.liftCursor _).wp_bind hs fun p s hs => ?_
    refine (Still.record_env _).wp_bind hs fun _ s hs => ?_
    rw [hsucc]
    have hsucc' : self.body.successors bb = [] ++ target :: [] := hsucc
    exact wp_next h hgoto p.1 hsucc' (hs ▸ h.leaves)

/-- **A block**: its statements, and its edges one after the other. -/
theorem wp_checkBasicBlock (h : AtBlock self.body n bb w) (hgoto : GoodGoto self.body n goto)
    (env : TypeEnv) (hs : walk s = w) :
    wp (self.checkBasicBlock goto env bb)
      (fun _ s' => WalkInv self.body (walk s') ∧ Enters self.body (· = bb) w (walk s') ∧
        bb ∈ (walk s').visited)
      IsFailure s := by
  -- the blocks entered from the edges of `bb`, and `bb` itself
  suffices hleaves : wp (self.checkBasicBlock goto env bb)
      (fun _ s' => Leaves self.body bb (self.body.successors bb) w (walk s')) IsFailure s by
    refine wp_imp hleaves fun _ s' hs' => ⟨hs'.inv, ⟨?_, hs'.enters.joined, hs'.enters.mode⟩,
      hs'.enters.visited_subset (.head _)⟩
    obtain ⟨new, hv, hroots, harr⟩ := hs'.enters.new
    refine ⟨new ++ [bb], by simp [hv, Walk.visit], fun b hb => ?_, fun b hb t he => ?_⟩
    · rcases List.mem_append.mp hb with hb | hb
      · rcases hroots b hb with ⟨he, hj⟩ | ⟨hj, u, hu, he⟩
        · exact .inr ⟨hj, bb, by simp, he⟩
        · exact .inr ⟨hj, u, List.mem_append_left _ hu, he⟩
      · exact .inl (List.mem_singleton.mp hb)
    · rcases List.mem_append.mp hb with hb | hb
      · exact harr b hb t he
      · rw [List.mem_singleton] at hb
        exact hs'.arrived t (hb ▸ he)
  have hlt := Core.Ir.Body.lt_length_of_reachable h.cfg h.reachable
  have hdata : self.body.basicBlocks[bb]? = some self.body.basicBlocks[bb] := by simp [hlt]
  rw [checkBasicBlock, wp_bind, hdata]
  refine wp_imp (wp_enterBlock bb hs) fun _ s hs => ?_
  refine (still_checkStatements env _).wp_bind hs fun env s hs => ?_
  cases hterm : self.body.basicBlocks[bb].terminator with
  | none =>
    have hsucc : self.body.successors bb = [] := by
      simp only [Core.Ir.Body.successors, hdata, hterm, Option.elim]
    dsimp only
    rw [hsucc, wp_pure, hs]
    exact h.leaves
  | some terminator =>
    refine wp_checkTerminator h hgoto env terminator ?_ hs
    simp only [Core.Ir.Body.successors, hdata, hterm, Option.elim]

end Block

/-! ## Join points and edges -/

variable {w : Walk} {s : State}

/-- The state when an environment is stored for a join point. -/
lemma mem_joined_insert (s : State) (t bb : BasicBlock) (env : TypeEnv) :
    bb ∈ (walk { s with bbEnvs := s.bbEnvs.insert t env }).joined ↔
      bb = t ∨ bb ∈ (walk s).joined := by
  change bb ∈ s.bbEnvs.insert t env ↔ bb = t ∨ bb ∈ s.bbEnvs
  exact AList.mem_insert s.bbEnvs

/-- What an edge to a join point does to the walk. -/
structure Stores (body : Body) (t : BasicBlock) (w w' : Walk) : Prop where
  inv : WalkInv body w'
  visited : w'.visited = w.visited
  joined : ∀ bb, bb ∈ w'.joined ↔ bb = t ∨ bb ∈ w.joined
  mode : w'.shapes.isSome = w.shapes.isSome

variable {t : BasicBlock}

/-- In inference an edge to a join point stores its environment. -/
lemma wp_inferJoinPoint (env : TypeEnv) (ht : self.body.isJoinPoint t = true)
    (hs : walk s = w) (hw : WalkInv self.body w) (hreach : self.body.Reachable t)
    (hmode : w.shapes = none) :
    wp (self.inferJoinPoint env t) (fun _ s' => Stores self.body t w (walk s')) IsFailure s := by
  have hstore : ∀ (s : State) (env : TypeEnv), walk s = w →
      Stores self.body t w (walk { s with bbEnvs := s.bbEnvs.insert t env }) := by
    intro s env hs
    have hjoined : ∀ bb, bb ∈ (walk { s with bbEnvs := s.bbEnvs.insert t env }).joined ↔
        bb = t ∨ bb ∈ w.joined := fun bb => hs ▸ mem_joined_insert s t bb env
    refine ⟨hw.store ht hreach (congrArg Walk.visited hs :) (congrArg Walk.blocks hs :) hjoined ?_,
      (congrArg Walk.visited hs :), hjoined, congrArg Option.isSome (congrArg Walk.shapes hs :)⟩
    have hshapes : (walk { s with bbEnvs := s.bbEnvs.insert t env }).shapes = none :=
      (congrArg Walk.shapes hs :).trans hmode
    simp [hshapes]
  rw [inferJoinPoint, wp_bind, wp_get]
  cases s.bbEnvs.lookup t with
  | some bbEnv =>
    refine (Still.liftCursor _).wp_bind hs fun bbEnv s hs => ?_
    refine (Still.record_env _).wp_bind hs fun _ s hs => ?_
    exact hstore s bbEnv hs
  | none => exact hstore s env hs

/-- The environment of a join point in the check: it is there, or made from a shape that is. -/
lemma wp_checkBbEnv (env : TypeEnv) (ht : self.body.isJoinPoint t = true)
    (hs : walk s = w) (hw : WalkInv self.body w) (hreach : self.body.Reachable t)
    {shapes : AList fun _ : BasicBlock => TypeEnvShape} (hmode : s.mode = .check shapes) :
    wp (checkBbEnv env t shapes) (fun _ s' => Stores self.body t w (walk s')) IsFailure s := by
  subst hs
  have hshapes : (walk s).shapes = some shapes.keys := by simp [walk, hmode, Mode.shapes]
  obtain ⟨hnodup, hiff, hcover⟩ := hw.removed _ hshapes
  rw [checkBbEnv, wp_bind, wp_get]
  cases hlookup : s.bbEnvs.lookup t with
  | some bbEnv =>
    have hmem : t ∈ (walk s).joined := by
      simp only [walk]
      exact AList.lookup_isSome.mp (by simp [hlookup])
    exact ⟨hw, rfl, fun bb => ⟨.inr, fun h => h.elim (fun h => h ▸ hmem) id⟩, rfl⟩
  | none =>
    have hnew : t ∉ (walk s).joined := by
      simp only [walk]
      exact AList.lookup_eq_none.mp hlookup
    have hshape : t ∈ shapes :=
      AList.mem_keys.mp ((hcover t ht hreach).resolve_left hnew)
    obtain ⟨shape, hshape⟩ := Option.isSome_iff_exists.mp (AList.lookup_isSome.mpr hshape)
    rw [hshape]
    dsimp only
    rw [wp_bind, wp_record, wp_bind, wp_modify]
    refine (Still.liftCursor _).wp_bind rfl fun bbEnv s' hs' => ?_
    refine (Still.record_env _).wp_bind hs' fun _ s' hs' => ?_
    rw [wp_bind, wp_modify, wp_pure]
    have hjoined : ∀ bb, bb ∈ (walk { s' with bbEnvs := s'.bbEnvs.insert t bbEnv }).joined ↔
        bb = t ∨ bb ∈ (walk s).joined := by
      intro bb
      rw [mem_joined_insert, hs']
      rfl
    have hremoved : (walk { s' with bbEnvs := s'.bbEnvs.insert t bbEnv }).removed =
        t :: (walk s).removed := (congrArg Walk.removed hs' :)
    have hshapes' : (walk { s' with bbEnvs := s'.bbEnvs.insert t bbEnv }).shapes =
        some (shapes.erase t).keys := (congrArg Walk.shapes hs' :)
    refine ⟨hw.store ht hreach (congrArg Walk.visited hs' :) (congrArg Walk.blocks hs' :) hjoined
      ?_, (congrArg Walk.visited hs' :), hjoined, by rw [hshapes', hshapes]; rfl⟩
    intro shapes' hmem
    obtain rfl : (shapes.erase t).keys = shapes' := Option.some.inj (hshapes' ▸ hmem)
    rw [hremoved]
    refine ⟨List.nodup_cons.mpr ⟨fun h => hnew ((hiff t).mp h), hnodup⟩, fun bb => ?_,
      fun bb hbb hr => ?_⟩
    · rw [hjoined, List.mem_cons, hiff]
    · rw [hjoined, ← AList.mem_keys, AList.mem_erase]
      by_cases hb : bb = t
      · exact .inl (.inl hb)
      · rcases hcover bb hbb hr with h | h
        · exact .inl (.inr h)
        · exact .inr ⟨hb, AList.mem_keys.mp h⟩

/-- An edge to a join point leaves an environment there, and visits nothing. -/
lemma wp_checkGotoJoinPoint (env : TypeEnv) (ht : self.body.isJoinPoint t = true)
    (hs : walk s = w) (hw : WalkInv self.body w) (hreach : self.body.Reachable t) :
    wp (self.checkGotoJoinPoint env t) (fun _ s' => Stores self.body t w (walk s')) IsFailure
      s := by
  rw [checkGotoJoinPoint, wp_bind, wp_get]
  cases hmode : s.mode with
  | inference =>
    have hshapes : w.shapes = none := by simp [← hs, walk, hmode, Mode.shapes]
    dsimp only
    rw [wp_bind, wp_record]
    exact wp_inferJoinPoint env ht hs hw hreach hshapes
  | check shapes =>
    dsimp only
    rw [wp_bind]
    refine wp_imp (wp_checkBbEnv env ht hs hw hreach hmode) fun bbEnv s' hstores => ?_
    rw [wp_bind, wp_record]
    refine (Still.liftCursor _).wp_bind rfl fun env s'' hs'' => ?_
    exact wp_imp (Still.record_env env s'') fun _ s''' hs''' => hs'''.trans hs'' ▸ hstores

/-- **An edge** can be followed with the fuel for the blocks that are not visited yet. -/
theorem goodGoto_checkGoto (hcfg : self.body.CorrectCfg) (n : ℕ) :
    GoodGoto self.body n (self.checkGoto n) := by
  induction n with
  | zero =>
    intro env t s w hs hw _ hfuel
    have := hw.length_le hcfg
    omega
  | succ n ih =>
    intro env t s w hs hw hcan hfuel
    rw [checkGoto]
    cases ht : self.body.isJoinPoint t with
    | true =>
      rw [if_pos rfl]
      refine wp_imp (wp_checkGotoJoinPoint env ht hs hw hcan.reachable) fun _ s' h' => ?_
      refine ⟨h'.inv, ⟨⟨[], h'.visited, by simp, by simp⟩, fun bb hbb =>
        (h'.joined bb).mpr (.inr hbb), h'.mode⟩, ?_⟩
      rw [Arrived, if_pos ht]
      exact (h'.joined t).mpr (.inl rfl)
    | false =>
      rw [if_neg (by simp)]
      have hblock : AtBlock self.body n t w :=
        ⟨hcfg, hw, hcan.reachable, hcan.new ht, hcan.entered, by
          simp only [Walk.visit, List.length_cons]
          omega⟩
      refine wp_imp (wp_checkBasicBlock hblock ih env hs) fun _ s' h' => ?_
      refine ⟨h'.1, h'.2.1.mono fun bb hbb => ⟨hbb, hbb ▸ ht⟩, ?_⟩
      rw [Arrived, if_neg (by simp [ht])]
      exact h'.2.2

/-! ## Runs -/

/-- What holds while join points are taken up: all edges out of visited blocks are followed, and
the blocks that are done are visited. -/
structure Progress (body : Body) (done : List BasicBlock) (w : Walk) : Prop where
  inv : WalkInv body w
  complete : Complete body w
  start : Arrived body w startBlock
  done : ∀ bb ∈ done, bb ∈ w.visited

/-- When a block of the reverse postorder is not visited yet, it is a join point with an
environment. -/
lemma Progress.joined {body : Body} {done rest : List BasicBlock} {bb : BasicBlock}
    (h : Progress body done w) (hcfg : body.CorrectCfg)
    (hrpo : body.reversePostorder = done ++ bb :: rest) (hnew : bb ∉ w.visited) :
    body.isJoinPoint bb = true ∧ bb ∈ w.joined := by
  have harrived : Arrived body w bb := by
    rcases hcfg.reversePostorder.exists_pred_before hrpo with rfl | ⟨u, hu, he⟩
    · exact h.start
    · exact h.complete u (h.done u hu) bb he
  unfold Arrived at harrived
  split at harrived
  · exact ⟨‹_›, harrived⟩
  · exact absurd harrived hnew

/-- **Taking up a block**, unless it was visited before. -/
lemma wp_takeUp (hcfg : self.body.CorrectCfg) {fuel : ℕ}
    (hfuel : self.body.basicBlocks.length < fuel) {done rest : List BasicBlock} {bb : BasicBlock}
    (hrpo : self.body.reversePostorder = done ++ bb :: rest)
    (h : Progress self.body done (walk s)) :
    wp (self.takeUp fuel bb)
      (fun _ s' => Progress self.body (done ++ [bb]) (walk s') ∧
        (walk s').shapes.isSome = (walk s).shapes.isSome) IsFailure s := by
  rw [takeUp, wp_bind, wp_get]
  by_cases hbb : bb ∈ s.visited
  · rw [if_neg (not_not_intro hbb)]
    refine ⟨⟨h.inv, h.complete, h.start, fun b hb => ?_⟩, rfl⟩
    rcases List.mem_append.mp hb with hb | hb
    · exact h.done b hb
    · exact List.mem_singleton.mp hb ▸ hbb
  · obtain ⟨hjoin, hmem⟩ := h.joined hcfg hrpo hbb
    obtain ⟨bbEnv, hbbEnv⟩ := Option.isSome_iff_exists.mp
      (AList.lookup_isSome.mpr (show bb ∈ s.bbEnvs from hmem))
    rw [if_pos hbb, wp_bind, wp_get, hbbEnv]
    dsimp only
    rw [wp_bind, wp_record]
    refine Still.wp_bind (Still.liftCursor _) (w := walk s) rfl fun env s' hs' => ?_
    refine (Still.record_env _).wp_bind hs' fun _ s' hs' => ?_
    have hblock : AtBlock self.body fuel bb (walk s) :=
      ⟨hcfg, h.inv, (h.inv.joined bb hmem).2, hbb, by simp [hjoin], by omega⟩
    refine wp_imp (wp_checkBasicBlock hblock (goodGoto_checkGoto hcfg fuel) env hs') ?_
    rintro _ s'' ⟨hinv, henters, hvisited⟩
    refine ⟨⟨hinv, henters.complete h.complete, henters.arrived h.start, fun b hb => ?_⟩,
      henters.mode⟩
    rcases List.mem_append.mp hb with hb | hb
    · exact henters.visited_subset (h.done b hb)
    · exact List.mem_singleton.mp hb ▸ hvisited

/-- **A run** visits the reachable blocks, and stores an environment for each reachable join
point. -/
theorem wp_run (hcfg : self.body.CorrectCfg) {fuel : ℕ}
    (hfuel : self.body.basicBlocks.length < fuel) (env : TypeEnv) (hs : walk s = w)
    (hw : WalkInv self.body w) (hvisited : w.visited = []) :
    wp (self.run fuel env)
      (fun _ s' => WalkInv self.body (walk s') ∧
        (∀ bb, bb ∈ (walk s').visited ↔ self.body.Reachable bb) ∧
        (∀ bb, bb ∈ (walk s').joined ↔ self.body.ReachableJoin bb) ∧
        (walk s').shapes.isSome = w.shapes.isSome)
      IsFailure s := by
  subst hs
  rw [run, wp_bind]
  have hcan : CanEnter self.body (walk s) startBlock :=
    ⟨.refl, by simp [hvisited], fun _ => .inl rfl⟩
  refine wp_imp (goodGoto_checkGoto hcfg fuel rfl hw hcan (by omega)) fun _ s₁ h₁ => ?_
  obtain ⟨hinv, henters, harrived⟩ := h₁
  have hcomplete : Complete self.body (walk s₁) :=
      henters.complete fun u hu => by simp [hvisited] at hu
  refine wp_imp (wp_forM_done (I := fun done s' => Progress self.body done (walk s') ∧
      (walk s').shapes.isSome = (walk s).shapes.isSome)
    (fun done bb rest hrpo s' hs' => wp_imp (wp_takeUp hcfg hfuel hrpo hs'.1) fun _ s'' h'' =>
      ⟨h''.1, h''.2.trans hs'.2⟩)
    ⟨⟨hinv, hcomplete, harrived, by simp⟩, henters.mode⟩) fun _ s₂ ⟨h₂, hmode⟩ => ?_
  have hall : ∀ bb, bb ∈ (walk s₂).visited ↔ self.body.Reachable bb := fun bb =>
    ⟨h₂.inv.reachable bb, fun h => h₂.done bb (hcfg.reversePostorder.mem_iff.mpr h)⟩
  refine ⟨h₂.inv, hall, fun bb => ⟨h₂.inv.joined bb, fun ⟨hjoin, hreach⟩ => ?_⟩, hmode⟩
  have harr : Arrived self.body (walk s₂) bb := by
    rcases Relation.ReflTransGen.cases_tail hreach with rfl | ⟨u, hu, he⟩
    · exact h₂.start
    · exact h₂.complete u ((hall u).mpr hu) bb he
  rwa [Arrived, if_pos hjoin] at harr

/-- The checked blocks are the reachable ones, each once. -/
def ChecksOnce (body : Body) (trace : List Event) : Prop :=
  (blocksOf trace).Nodup ∧ ∀ bb, bb ∈ blocksOf trace ↔ body.Reachable bb

/-- The shapes that are removed are those of the reachable join points, each once. -/
def RemovesOnce (body : Body) (trace : List Event) : Prop :=
  (shapesOf trace).Nodup ∧ ∀ bb, bb ∈ shapesOf trace ↔ body.ReachableJoin bb

/-- A walk that visited the reachable blocks checks each once. -/
lemma checksOnce_of_walkInv {body : Body} (hinv : WalkInv body (walk s))
    (hall : ∀ bb, bb ∈ (walk s).visited ↔ body.Reachable bb) : ChecksOnce body s.trace := by
  have hblocks : blocksOf s.trace = (walk s).visited := hinv.blocks
  exact ⟨hblocks ▸ hinv.nodup, fun bb => hblocks ▸ hall bb⟩

/-- The walk that a run starts with. A check needs the shapes of the reachable join points. -/
lemma walkInv_initialState {body : Body} (mode : Mode) (cursor : Cursor) (env : TypeEnv)
    (hmode : ∀ shapes ∈ mode.shapes, ∀ bb, body.ReachableJoin bb → bb ∈ shapes) :
    WalkInv body (walk (GlobalEnv.initialState mode cursor env)) := by
  refine ⟨List.nodup_nil, rfl, by simp [walk, GlobalEnv.initialState],
    by simp [walk, GlobalEnv.initialState], by simp [walk, GlobalEnv.initialState], ?_⟩
  intro keys hkeys
  obtain ⟨shapes, hshapes, rfl⟩ := Option.mem_map.mp hkeys
  exact ⟨List.nodup_nil, fun _ => Iff.rfl, fun bb hjoin hreach =>
    .inr (AList.mem_keys.mp (hmode shapes hshapes bb ⟨hjoin, hreach⟩))⟩

/-- The shapes that inference ends with are those of the environments that it stored. -/
lemma mem_shapes {tcx : Tcx} {bbEnvs : AList fun _ : BasicBlock => TypeEnv} {bb : BasicBlock} :
    bb ∈ GlobalEnv.shapes tcx bbEnvs ↔ bb ∈ bbEnvs := by
  have hkeys : (GlobalEnv.shapes tcx bbEnvs).keys = bbEnvs.keys := by
    simp [GlobalEnv.shapes, AList.keys, List.keys, Function.comp_def]
  rw [AList.mem_keys, AList.mem_keys, hkeys]

/-- **Every reachable block is checked once.** With fuel for all blocks, a run does not run out
of it and misses no environment, no shape and no block: it fails only where a statement or an
operation on environments does. If inference succeeds, every reachable block was checked once, and
no other. So it is in a check with the shapes that inference found, and each of these is removed
once.

**Proof sketch.** A block that is not a join point has one edge to it, and a block that dominates
it is checked before, so an edge never leads to a block that was visited. By induction on the
fuel, an edge adds the blocks that can be reached without a join point, and stores an environment
at the join points that it comes to (`goodGoto_checkGoto`). When a join point is taken up in
reverse postorder, all edges to it from blocks before it have been followed, so it has an
environment, and the shapes that are removed are those that inference stored (`wp_run`). -/
theorem run_checks_once {self : Checker} (h : self.body.CorrectCfg) {fuel : ℕ}
    (hfuel : self.body.basicBlocks.length < fuel) (env : TypeEnv) (cursor : Cursor) :
    (∀ e, (self.run fuel env).run (GlobalEnv.initialState .inference cursor env) = .error e →
      IsFailure e) ∧
    ∀ s, (self.run fuel env).run (GlobalEnv.initialState .inference cursor env) = .ok ((), s) →
      ChecksOnce self.body s.trace ∧
      ∀ (self' : Checker) (tcx : Tcx) (env' : TypeEnv) (cursor' : Cursor),
        self'.body = self.body →
        (∀ e, (self'.run fuel env').run (GlobalEnv.initialState
            (.check (GlobalEnv.shapes tcx s.bbEnvs)) cursor' env') = .error e → IsFailure e) ∧
        ∀ s', (self'.run fuel env').run (GlobalEnv.initialState
            (.check (GlobalEnv.shapes tcx s.bbEnvs)) cursor' env') = .ok ((), s') →
          ChecksOnce self.body s'.trace ∧ RemovesOnce self.body s'.trace := by
  have hrun := wp_run h hfuel env rfl
    (walkInv_initialState .inference cursor env (by simp [Mode.shapes])) rfl
  refine ⟨fun e he => wp_of_run_error hrun he, fun s hs => ?_⟩
  obtain ⟨hinv, hall, hkeys, -⟩ := wp_of_run_ok hrun hs
  refine ⟨checksOnce_of_walkInv hinv hall, fun self' tcx env' cursor' hbody => ?_⟩
  have hmode : ∀ shapes ∈ (Mode.check (GlobalEnv.shapes tcx s.bbEnvs)).shapes, ∀ bb,
      self'.body.ReachableJoin bb → bb ∈ shapes := by
    rintro shapes hshapes bb hbb
    obtain rfl := Option.some.inj hshapes
    exact mem_shapes.mpr ((hkeys bb).mpr (hbody ▸ hbb))
  rw [← hbody] at h hfuel ⊢
  have hrun' := wp_run h hfuel env' rfl (walkInv_initialState _ cursor' env' hmode) rfl
  refine ⟨fun e he => wp_of_run_error hrun' he, fun s' hs' => ?_⟩
  obtain ⟨hinv', hall', hjoined, hsome⟩ := wp_of_run_ok hrun' hs'
  refine ⟨checksOnce_of_walkInv hinv' hall', ?_⟩
  obtain ⟨shapes, hshapes⟩ := Option.isSome_iff_exists.mp hsome
  obtain ⟨hnodup, hiff, -⟩ := hinv'.removed shapes hshapes
  exact ⟨hnodup, fun bb => (hiff bb).trans (hjoined bb)⟩

/-- A loop: block 1 goes back to itself or on to block 2. -/
def loopBody : Body where
  basicBlocks :=
    [⟨[], some (.goto 1)⟩, ⟨[], some (.switchInt (.constant (.bool true)) ⟨[(0, 2)], 1⟩)⟩,
      ⟨[], some .return_⟩]
  argCount := 0
  nlocals := 1
  mir :=
    { predecessors := fun
        | 1 => [0, 1]
        | 2 => [1]
        | _ => []
      reversePostorder := [0, 1, 2]
      immediateDominator := fun _ => some 0 }

/-- The control flow of the example loop is correct. -/
lemma loopBody_correctCfg : loopBody.CorrectCfg where
  start := by decide
  targets := by
    intro bb target h
    rcases bb with _ | _ | _ | bb
    · rw [List.mem_singleton.mp h]
      decide
    · rcases List.mem_pair.mp h with rfl | rfl <;> decide
    · exact absurd h (List.not_mem_nil)
    · exact absurd h (List.not_mem_nil)
  predecessors := by
    intro bb target
    rcases bb with _ | _ | _ | bb <;> rcases target with _ | _ | _ | target <;>
      simp [loopBody, Body.successors, Terminator.successors]
  reversePostorder := by
    refine ⟨[2, 1, 0], ?_, rfl⟩
    have h2 : Visits loopBody.Edge [1, 0] [2, 1] [2] :=
      @Visits.visit _ _ _ _ [] [] _ _ (by decide) (fun w => Iff.rfl) (.nil _)
        (.seen (by decide) (.nil _))
    have h1 : Visits loopBody.Edge [0] [1] [2, 1] :=
      @Visits.visit _ _ _ _ [2, 1] [2] _ _ (by decide) (fun w => Iff.rfl) h2 (.nil _)
    exact @Visits.visit _ _ _ _ [1] [2, 1] _ _ (by decide) (fun w => Iff.rfl) h1 (.nil _)

/-- A checker of `loopBody`. -/
def loopChecker : Checker where
  globalEnv := ⟨fun _ => none, .ofStack 8⟩
  body := loopBody
  dominatesJoinPoint := fun bb => bb = 0
  retTy := .uninit
  ensures := []

/-- The environment at the beginning of `loopBody`. -/
def loopEnv : TypeEnv :=
  TypeEnv.new.insertLoc (.local_ 0) .uninit

/-- A phase of the checker on `loopBody`. -/
def loopRun (mode : Mode) : Except Stopped (Unit × State) :=
  (loopChecker.run 4 loopEnv).run
    (GlobalEnv.initialState mode ConstraintBuilder.new.asCursor loopEnv)

/-- Both phases succeed on the loop, and check its three blocks once. -/
theorem run_checks_once_loop : ∃ s s', loopRun .inference = .ok ((), s) ∧
    ChecksOnce loopBody s.trace ∧
    loopRun (.check (GlobalEnv.shapes (.ofStack 8) s.bbEnvs)) = .ok ((), s') ∧
    ChecksOnce loopBody s'.trace ∧ RemovesOnce loopBody s'.trace := by
  have hruns : ((loopRun .inference).bind fun p =>
      loopRun (.check (GlobalEnv.shapes (.ofStack 8) p.2.bbEnvs))).isOk = true := by
    decide +kernel
  have hchecks := @run_checks_once loopChecker loopBody_correctCfg 4
    (by decide) loopEnv ConstraintBuilder.new.asCursor
  cases hs : loopRun .inference with
  | error e =>
    rw [hs] at hruns
    exact nomatch hruns
  | ok p =>
    obtain ⟨⟨⟩, s⟩ := p
    rw [hs] at hruns
    obtain ⟨honce, hcheck⟩ := hchecks.2 s hs
    cases hs' : loopRun (.check (GlobalEnv.shapes (.ofStack 8) s.bbEnvs)) with
    | error e =>
      rw [Except.bind, hs'] at hruns
      exact nomatch hruns
    | ok p' =>
      obtain ⟨⟨⟩, s'⟩ := p'
      exact ⟨s, s', rfl, honce, hs', (hcheck loopChecker _ _ _ rfl).2 s' hs'⟩

end Checker

end LiquidRust.Typeck
