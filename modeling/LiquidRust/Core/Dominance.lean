import LiquidRust.Core.Cfg

set_option relaxedAutoImplicit false
set_option autoImplicit false

/-!
# Join points in line

A block dominates another one if every path to the other one from the entry block goes through it.
The join points of a function are in line if of any two of them one dominates the other. Then a
traversal that takes up join points one after the other has at most one of them ahead of it.

## Main definitions

* `LiquidRust.Core.Ir.Body.Via` — paths through blocks that were visited.
* `LiquidRust.Core.Ir.Body.Dominates`, `JoinsInLine` — dominance, and join points in line.

## Main results

* `LiquidRust.Core.Ir.Body.JoinsInLine.eq_of_via` — only one join point is ahead.
-/

namespace LiquidRust.Core.Ir.Body

open Relation (ReflTransGen)

variable (body : Body)

/-- There is a path from the entry block through blocks that were visited. -/
def Via (visited : List BasicBlock) (bb : BasicBlock) : Prop :=
  ReflTransGen (fun u t => body.Edge u t ∧ u ∈ visited) startBlock bb

/-- All paths from the entry block to `bb` go through `dom`. -/
def Dominates (dom bb : BasicBlock) : Prop :=
  ¬ReflTransGen (fun u t => body.Edge u t ∧ u ≠ dom) startBlock bb

/-- **The join points are in line**: of any two that can be reached one dominates the other. -/
def JoinsInLine : Prop :=
  ∀ ⦃bb bb'⦄, body.ReachableJoin bb → body.ReachableJoin bb' → bb ≠ bb' →
    body.Dominates bb bb' ∨ body.Dominates bb' bb

variable {body} {visited visited' : List BasicBlock} {bb bb' : BasicBlock}

/-- A path by way of visited blocks is one when more blocks are visited. -/
lemma Via.mono (h : body.Via visited bb) (hsub : ∀ b ∈ visited, b ∈ visited') :
    body.Via visited' bb :=
  ReflTransGen.mono (fun _ _ h => ⟨h.1, hsub _ h.2⟩) _ _ h

/-- The entry block is reached without a step. -/
lemma Via.start (visited : List BasicBlock) : body.Via visited startBlock :=
  .refl

/-- A path goes on along the edges of visited blocks. -/
lemma Via.edge (h : body.Via visited bb) (hbb : bb ∈ visited) (he : body.Edge bb bb') :
    body.Via visited bb' :=
  ReflTransGen.tail h ⟨he, hbb⟩

/-- What is reached by way of visited blocks can be reached. -/
lemma Via.reachable (h : body.Via visited bb) : body.Reachable bb :=
  ReflTransGen.mono (fun _ _ h => h.1) _ _ h

/-- A block that was not visited dominates none that is come to through visited ones. -/
lemma Via.not_dominates (h : body.Via visited bb) (hnew : bb' ∉ visited) :
    ¬body.Dominates bb' bb :=
  not_not_intro (ReflTransGen.mono (fun _ _ h => ⟨h.1, fun heq => hnew (heq ▸ h.2)⟩) _ _ h)

/-- **Only one join point is ahead** of the blocks that were visited. -/
theorem JoinsInLine.eq_of_via (hline : body.JoinsInLine) (hbb : body.isJoinPoint bb = true)
    (hbb' : body.isJoinPoint bb' = true) (h : body.Via visited bb) (h' : body.Via visited bb')
    (hnew : bb ∉ visited) (hnew' : bb' ∉ visited) : bb = bb' := by
  by_contra hne
  rcases hline ⟨hbb, h.reachable⟩ ⟨hbb', h'.reachable⟩ hne with hdom | hdom
  · exact h'.not_dominates hnew hdom
  · exact h.not_dominates hnew' hdom

end LiquidRust.Core.Ir.Body
