import LiquidRust.Core.Ir
import LiquidRust.Lib.Postorder

set_option relaxedAutoImplicit false
set_option autoImplicit false

/-!
# Control-flow graphs

The graph that the terminators of a body make, and what it means that the compiler computes
predecessors and a reverse postorder of this graph.

## Main definitions

* `LiquidRust.Core.Ir.Body.successors`, `Edge`, `Reachable` — the graph.
* `LiquidRust.Core.Ir.Body.CorrectCfg` — predecessors are counted per edge, and the reverse
  postorder is one.

## Main results

* `LiquidRust.Core.Ir.Body.CorrectCfg.pred_unique` — a block that is not a join point has one
  incoming edge at most.
-/

namespace LiquidRust.Core.Ir

open Lib
open Relation (ReflTransGen)

/-- The blocks that a terminator goes to, one for each edge. -/
def Terminator.successors : Terminator → List BasicBlock
  | return_ => []
  | call _ _ _ destination => destination.toList.map Prod.snd
  | switchInt _ targets => targets.targets.map Prod.snd ++ [targets.otherwise]
  | goto target => [target]
  | drop _ target => [target]

namespace Body

variable (body : Body)

/-- The targets of the edges that leave a block. -/
def successors (bb : BasicBlock) : List BasicBlock :=
  match body.basicBlocks[bb]? with
  | some data => data.terminator.elim [] Terminator.successors
  | none => []

/-- There is an edge from one block to another one. -/
def Edge (bb target : BasicBlock) : Prop :=
  target ∈ body.successors bb

/-- There is a path from the entry block. -/
def Reachable (bb : BasicBlock) : Prop :=
  ReflTransGen body.Edge startBlock bb

/-- A join point with a path from the entry block. -/
def ReachableJoin (bb : BasicBlock) : Prop :=
  body.isJoinPoint bb = true ∧ body.Reachable bb

/-- **What the compiler computes is right**: there is an entry block, all edges lead to blocks,
the predecessors are counted per edge, and the reverse postorder is one. -/
structure CorrectCfg : Prop where
  start : startBlock < body.basicBlocks.length
  targets : ∀ ⦃bb target⦄, body.Edge bb target → target < body.basicBlocks.length
  predecessors : ∀ bb target,
    (body.mir.predecessors target).count bb = (body.successors bb).count target
  reversePostorder : IsReversePostorder body.Edge startBlock body.reversePostorder

variable {body}

/-- A block that can be reached is one of the body. -/
lemma lt_length_of_reachable (h : body.CorrectCfg) {bb : BasicBlock} (hbb : body.Reachable bb) :
    bb < body.basicBlocks.length := by
  cases hbb with
  | refl => exact h.start
  | tail _ he => exact h.targets he

namespace CorrectCfg

variable {u u' t : BasicBlock}

/-- A block that is not a join point has one predecessor at most, and the entry block none. -/
lemma length_predecessors (ht : body.isJoinPoint t = false) :
    (body.mir.predecessors t).length ≤ if t = startBlock then 0 else 1 := by
  simpa [isJoinPoint] using ht

/-- The source of an edge is a predecessor of its target. -/
lemma mem_predecessors (h : body.CorrectCfg) (he : body.Edge u t) :
    u ∈ body.mir.predecessors t := by
  rw [← List.count_pos_iff, h.predecessors]
  exact List.count_pos_iff.mpr he

/-- **One incoming edge**: it comes from one block. -/
theorem pred_unique (h : body.CorrectCfg) (ht : body.isJoinPoint t = false) (he : body.Edge u t)
    (he' : body.Edge u' t) : u = u' := by
  have hlen : (body.mir.predecessors t).length ≤ 1 := by
    have := length_predecessors ht
    split at this <;> omega
  have hu := h.mem_predecessors he
  have hu' := h.mem_predecessors he'
  match hp : body.mir.predecessors t, hlen with
  | [], _ => simp [hp] at hu
  | [p], _ =>
    rw [hp, List.mem_singleton] at hu hu'
    rw [hu, hu']

/-- It is there once. -/
lemma count_le_one (h : body.CorrectCfg) (ht : body.isJoinPoint t = false) :
    (body.successors u).count t ≤ 1 := by
  rw [← h.predecessors]
  have := length_predecessors ht
  have hcount := (body.mir.predecessors t).count_le_length (a := u)
  split at this <;> omega

/-- The entry block has a predecessor only if it is a join point. -/
lemma ne_start_of_edge (h : body.CorrectCfg) (ht : body.isJoinPoint t = false)
    (he : body.Edge u t) : t ≠ startBlock := by
  rintro rfl
  have hlen := length_predecessors ht
  rw [if_pos rfl, Nat.le_zero, List.length_eq_zero_iff] at hlen
  have := h.mem_predecessors he
  rw [hlen] at this
  exact absurd this (by simp)

/-- A block that can be reached and is not a join point has no edge to itself: that would be its
only incoming edge. -/
lemma not_edge_self (h : body.CorrectCfg) (ht : body.isJoinPoint t = false)
    (hreach : body.Reachable t) : ¬body.Edge t t := by
  intro hself
  have hne : ∀ b, body.Reachable b → b ≠ t := by
    intro b hb
    induction hb with
    | refl => exact (h.ne_start_of_edge ht hself).symm
    | tail _ he ih =>
      rintro rfl
      exact ih (h.pred_unique ht he hself)
  exact hne t hreach rfl

end CorrectCfg

end Body

end LiquidRust.Core.Ir
