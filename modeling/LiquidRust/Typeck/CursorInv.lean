import Mathlib.Logic.Relation
import Mathlib.Order.Lattice
import LiquidRust.Lib.Wp
import LiquidRust.Typeck.ConstraintBuilder

set_option relaxedAutoImplicit false
set_option autoImplicit false

/-!
# Cursors stay valid

A cursor is valid if it is at a node where a child can be pushed and its variables are those that
the nodes on its path bind. Every operation keeps this, and the tree only grows.

## Main definitions

* `LiquidRust.Typeck.Node.labelsAt` — the labels on a path of a tree.
* `LiquidRust.Typeck.Node.Grows` — a tree becomes another one by pushing nodes.
* `LiquidRust.Typeck.Cursor.Valid`, `Le` — valid cursors, and later cursors.
* `LiquidRust.Typeck.Cursor.Frame` — what every operation on a cursor keeps.

## Main results

* `LiquidRust.Typeck.Node.push_spec` — what is on the paths after a node is pushed.
* `LiquidRust.Typeck.Cursor.Safe.unpack`, `Safe.subtyping` — the operations keep cursors valid and
  fail neither for a name nor for a pointer.
-/

namespace LiquidRust.Typeck

open Lib

/-- What a node adds to the hypotheses of the nodes below it. -/
inductive Label
  | forAll (x : Name) (sort : Srt) (p : Pred)
  | guard (e : Expr)

/-- The variable that a label binds. -/
def Label.var : Label → Option (Name × Srt)
  | forAll x sort _ => some (x, sort)
  | guard _ => none

namespace Node

/-- The label of a node; a conjunction and a head have none. -/
def labels : Node → List Label
  | forAll x sort p _ => [.forAll x sort p]
  | guard e _ => [.guard e]
  | conj _ | head _ => []

/-- The labels on a path, if it leads to a node where a child can be pushed. -/
def labelsAt : Node → List ℕ → Option (List Label)
  | n, [] => n.children.map fun _ => n.labels
  | n, i :: path => do
    let cs ← n.children
    let c ← cs[i]?
    let ls ← labelsAt c path
    pure (n.labels ++ ls)

/-- A node with new children has them. -/
@[simp] lemma children_withChildren {n : Node} {cs cs' : List Node} (h : n.children = some cs) :
    (n.withChildren cs').children = some cs' := by
  cases n <;> simp_all [children, withChildren]

/-- New children keep the labels of a node. -/
@[simp] lemma labels_withChildren (n : Node) (cs : List Node) :
    (n.withChildren cs).labels = n.labels := by
  cases n <;> rfl

/-- The labels along a path are those of the node and those below its child. -/
lemma labelsAt_cons_eq_some {n : Node} {i : ℕ} {path : List ℕ} {ls : List Label} :
    labelsAt n (i :: path) = some ls ↔ ∃ cs c ls', n.children = some cs ∧ cs[i]? = some c ∧
      labelsAt c path = some ls' ∧ ls = n.labels ++ ls' := by
  simp only [labelsAt, Option.bind_eq_bind, Option.bind_eq_some_iff, Option.pure_def,
    Option.some.injEq]
  constructor
  · rintro ⟨cs, hcs, c, hc, ls', hls', rfl⟩
    exact ⟨cs, c, ls', hcs, hc, hls', rfl⟩
  · rintro ⟨cs, c, ls', hcs, hc, hls', rfl⟩
    exact ⟨cs, hcs, c, hc, ls', hls', rfl⟩

/-- Pushing below a node pushes below its child. -/
lemma push_cons_eq_some {node n n' : Node} {i k : ℕ} {path : List ℕ} :
    push node n (i :: path) = some (n', k) ↔ ∃ cs c c', n.children = some cs ∧
      cs[i]? = some c ∧ push node c path = some (c', k) ∧ n' = n.withChildren (cs.set i c') := by
  simp only [push, Option.bind_eq_bind, Option.bind_eq_some_iff, Option.pure_def,
    Option.some.injEq, Prod.mk.injEq]
  constructor
  · rintro ⟨cs, hcs, c, hc, ⟨c', k'⟩, hpush, rfl, rfl⟩
    exact ⟨cs, c, c', hcs, hc, hpush, rfl⟩
  · rintro ⟨cs, c, c', hcs, hc, hpush, rfl⟩
    exact ⟨cs, hcs, c, hc, (c', k), hpush, rfl, rfl⟩

/-- Pushing at a node puts the new one after its children. -/
lemma push_nil_eq_some {node n n' : Node} {k : ℕ} :
    push node n [] = some (n', k) ↔ ∃ cs, n.children = some cs ∧
      n' = n.withChildren (cs ++ [node]) ∧ k = cs.length := by
  simp only [push, Option.bind_eq_bind, Option.bind_eq_some_iff, Option.pure_def,
    Option.some.injEq, Prod.mk.injEq]
  constructor
  · rintro ⟨cs, hcs, rfl, rfl⟩
    exact ⟨cs, hcs, rfl, rfl⟩
  · rintro ⟨cs, hcs, rfl, rfl⟩
    exact ⟨cs, hcs, rfl, rfl⟩

/-- A child can be pushed where a path has labels. -/
lemma exists_push (node : Node) {n : Node} {path : List ℕ} {ls : List Label}
    (h : labelsAt n path = some ls) : ∃ n' k, push node n path = some (n', k) := by
  induction path generalizing n ls with
  | nil =>
    obtain ⟨cs, hcs, -⟩ := Option.map_eq_some_iff.mp h
    exact ⟨_, _, push_nil_eq_some.mpr ⟨cs, hcs, rfl, rfl⟩⟩
  | cons i path ih =>
    obtain ⟨cs, c, ls', hcs, hc, hls', -⟩ := labelsAt_cons_eq_some.mp h
    obtain ⟨c', k, hpush⟩ := ih hls'
    exact ⟨_, k, push_cons_eq_some.mpr ⟨cs, c, c', hcs, hc, hpush, rfl⟩⟩

/-- **The paths after a push**: those of before have their labels, and that of the new node has
also the node's own. -/
theorem push_spec {node n n' : Node} {path : List ℕ} {k : ℕ}
    (h : push node n path = some (n', k)) :
    (∀ q ls, labelsAt n q = some ls → labelsAt n' q = some ls) ∧
      ∀ ls, labelsAt n path = some ls → node.isHead = false →
        labelsAt n' (path ++ [k]) = some (ls ++ node.labels) := by
  induction path generalizing n n' with
  | nil =>
    obtain ⟨cs, hcs, rfl, rfl⟩ := push_nil_eq_some.mp h
    constructor
    · intro q ls hq
      cases q with
      | nil => simpa [labelsAt, hcs] using hq
      | cons i q =>
        obtain ⟨cs', c, ls', hcs', hc, hls', rfl⟩ := labelsAt_cons_eq_some.mp hq
        cases hcs.symm.trans hcs'
        have hi := (List.getElem?_eq_some_iff.mp hc).1
        exact labelsAt_cons_eq_some.mpr ⟨cs ++ [node], c, ls', children_withChildren hcs,
          by rwa [List.getElem?_append_left hi], hls', by simp⟩
    · intro ls hls hnode
      have hlabels : ls = n.labels := by simpa [labelsAt, hcs] using hls.symm
      refine labelsAt_cons_eq_some.mpr ⟨cs ++ [node], node, node.labels,
        children_withChildren hcs, by simp, ?_, by simp [hlabels]⟩
      cases node <;> simp_all [labelsAt, children, isHead]
  | cons i path ih =>
    obtain ⟨cs, c, c', hcs, hc, hpush, rfl⟩ := push_cons_eq_some.mp h
    have hi := (List.getElem?_eq_some_iff.mp hc).1
    obtain ⟨hold, hnew⟩ := ih hpush
    have hset : (cs.set i c')[i]? = some c' := by simp [hi]
    constructor
    · intro q ls hq
      cases q with
      | nil => simpa [labelsAt, hcs, children_withChildren hcs] using hq
      | cons j q =>
        obtain ⟨cs', d, ls', hcs', hd, hls', rfl⟩ := labelsAt_cons_eq_some.mp hq
        cases hcs.symm.trans hcs'
        by_cases hij : i = j
        · subst hij
          cases hc.symm.trans hd
          exact labelsAt_cons_eq_some.mpr ⟨_, c', ls', children_withChildren hcs, hset,
            hold q ls' hls', by simp⟩
        · exact labelsAt_cons_eq_some.mpr ⟨_, d, ls', children_withChildren hcs,
            by rwa [List.getElem?_set_ne hij], hls', by simp⟩
    · intro ls hls hnode
      obtain ⟨cs', d, ls', hcs', hd, hls', rfl⟩ := labelsAt_cons_eq_some.mp hls
      cases hcs.symm.trans hcs'
      cases hc.symm.trans hd
      exact labelsAt_cons_eq_some.mpr ⟨_, c', _, children_withChildren hcs, hset,
        hnew ls' hls' hnode, by simp⟩

/-- `n` grows to `n'` by pushing nodes. -/
def Grows : Node → Node → Prop :=
  Relation.ReflTransGen fun n n' => ∃ node path k, push node n path = some (n', k)

/-- The labels along a path stay when the tree grows. -/
lemma Grows.labelsAt {n n' : Node} (h : n.Grows n') {path : List ℕ} {ls : List Label}
    (hls : n.labelsAt path = some ls) : n'.labelsAt path = some ls := by
  induction h with
  | refl => exact hls
  | tail _ hstep ih =>
    obtain ⟨node, q, k, hpush⟩ := hstep
    exact (push_spec hpush).1 path ls ih

end Node

namespace Cursor

/-- **A valid cursor** is at a node, and its variables are those bound on the path. -/
structure Valid (c : Cursor) : Prop where
  labels : ∃ ls, c.builder.root.labelsAt c.node = some ls ∧
    ls.filterMap Label.var = c.builder.vars.take c.nvars
  nvars : c.nvars ≤ c.builder.vars.length
  scopes : ∀ scope ∈ c.builder.scopes, scope ≤ c.builder.vars.length

/-- **A later cursor** of one run: the tree has grown, and the cursor is at the node where it was
or below, with the variables that it had there. -/
structure Le (c c' : Cursor) : Prop where
  root : c.builder.root.Grows c'.builder.root
  nameGen : c.builder.nameGen ≤ c'.builder.nameGen
  node : c.node <+: c'.node
  nvars : c.nvars ≤ c'.nvars
  vars : c'.builder.vars.take c.nvars = c.builder.vars.take c.nvars

namespace Le

/-- Doing nothing leads to a later cursor. -/
lemma refl (c : Cursor) : c.Le c :=
  ⟨.refl, le_rfl, List.prefix_rfl, le_rfl, rfl⟩

/-- A cursor later than a later one is later. -/
lemma trans {c c' c'' : Cursor} (h : c.Le c') (h' : c'.Le c'') : c.Le c'' where
  root := h.root.trans h'.root
  nameGen := h.nameGen.trans h'.nameGen
  node := h.node.trans h'.node
  nvars := h.nvars.trans h'.nvars
  vars := by
    have := congrArg (List.take c.nvars) h'.vars
    rw [List.take_take, List.take_take, min_eq_left h.nvars] at this
    exact this.trans h.vars

/-- The cursor as it was, in the tree as it is. -/
lemma restore {c c' : Cursor} (h : c.Le c') : c.Le { c with builder := c'.builder } :=
  ⟨h.root, h.nameGen, List.prefix_rfl, le_rfl, h.vars⟩

/-- Going back to an earlier position keeps the cursor valid. -/
lemma valid_restore {c c' : Cursor} (h : c.Le c') (hc : c.Valid) (hc' : c'.Valid) :
    Valid { c with builder := c'.builder } := by
  obtain ⟨ls, hls, hvars⟩ := hc.labels
  exact ⟨⟨ls, h.root.labelsAt hls, hvars.trans h.vars.symm⟩, h.nvars.trans hc'.nvars, hc'.scopes⟩

end Le

/-- **The frame of an operation**: a valid cursor stays valid and becomes a later one. -/
def Frame (c c' : Cursor) : Prop :=
  c.Valid → c'.Valid ∧ c.Le c'

/-- A cursor is a frame of itself. -/
lemma Frame.refl (c : Cursor) : c.Frame c :=
  fun hc => ⟨hc, .refl c⟩

/-- One frame after another. -/
lemma Frame.trans (c c' c'' : Cursor) (h : c.Frame c') (h' : c'.Frame c'') : c.Frame c'' := by
  intro hc
  obtain ⟨hc', hle⟩ := h hc
  obtain ⟨hc'', hle'⟩ := h' hc'
  exact ⟨hc'', hle.trans hle'⟩

/-- The failures that are not about the names of a signature or the target of a pointer. -/
def NotLookup (f : Failure) : Prop :=
  f ≠ .lookup ∧ f ≠ .dangling

instance : DecidablePred NotLookup := fun f =>
  inferInstanceAs (Decidable (f ≠ .lookup ∧ f ≠ .dangling))

/-- Operations that keep cursors valid, or fail with `E`. -/
abbrev Framed {α : Type} (E : Failure → Prop) (m : CursorM α) : Prop :=
  Keeps Frame E m

/-- Operations that keep cursors valid, and do not look up names or pointers. -/
abbrev Safe {α : Type} (m : CursorM α) : Prop :=
  Framed NotLookup m

variable {α β : Type}

/-- The cursor of a new builder is valid. -/
lemma valid_new : ConstraintBuilder.new.asCursor.Valid :=
  ⟨⟨[], rfl, rfl⟩, le_rfl, by simp [ConstraintBuilder.new, ConstraintBuilder.asCursor]⟩

/-! ## Operations -/

/-- Opening an option meets what its value does, or fails. -/
lemma wp_orFail {Q : α → Cursor → Prop} {E : Failure → Prop} {f : Failure} {o : Option α}
    {c : Cursor} : wp (orFail f o) Q E c ↔ (∀ a, o = some a → Q a c) ∧ (o = none → E f) := by
  cases o <;> simp [orFail]

/-- A snapshot ends with the cursor as it was, in the tree that `m` leaves. -/
@[simp] lemma wp_snapshot {m : CursorM α} {Q : α → Cursor → Prop} {E : Failure → Prop}
    {c : Cursor} : wp (snapshot m) Q E c =
      wp m (fun a c' => Q a { c with builder := c'.builder }) E c := by
  rw [snapshot, wp_bind, wp_get, wp_bind]
  rfl

/-- An assertion goes on, or stops the run. -/
lemma wp_assert {b : Bool} {Q : Unit → Cursor → Prop} {E : Failure → Prop} {c : Cursor} :
    wp (Cursor.assert b) Q E c ↔ (b = true → Q () c) ∧ (b = false → E .assertion) := by
  cases b <;> simp [Cursor.assert]

section Framed

variable {E : Failure → Prop} {m : CursorM α} {f : Failure}

/-- An operation with fewer failures is framed by more. -/
lemma Framed.mono {E' : Failure → Prop} (hm : Framed E m) (hE : ∀ f, E f → E' f) :
    Framed E' m :=
  fun c => wp_mono (hm c) (fun _ _ h => h) hE

/-- Returning is framed. -/
lemma Framed.pure (a : α) : Framed E (Pure.pure a) :=
  Keeps.pure Frame.refl a

/-- Failing in an allowed way is framed. -/
lemma Framed.throw (hf : E f) : Framed E (MonadExcept.throw f : CursorM α) :=
  Keeps.throw hf

/-- One step after another is framed if each is. -/
lemma Framed.bind {k : α → CursorM β} (hm : Framed E m) (hk : ∀ a, Framed E (k a)) :
    Framed E (m >>= k) :=
  Keeps.bind Frame.trans hm hk

/-- Reading the cursor is framed. -/
lemma Framed.get : Framed E (MonadState.get : CursorM Cursor) :=
  Frame.refl

/-- Opening an option is framed if its failure is allowed. -/
lemma Framed.orFail (hf : E f) (o : Option α) : Framed E (Typeck.orFail f o) := by
  cases o with
  | some a => exact .pure a
  | none => exact .throw hf

/-- A loop is framed if each of its steps is. -/
lemma Framed.forM {k : α → CursorM PUnit} {l : List α} (hk : ∀ a ∈ l, Framed E (k a)) :
    Framed E (l.forM k) :=
  Keeps.forM Frame.refl Frame.trans hk

/-- A snapshot is framed if what runs in it is. -/
lemma Framed.snapshot (hm : Framed E m) : Framed E (Cursor.snapshot m) := by
  intro c
  rw [wp_snapshot]
  refine wp_imp (hm c) fun a c' h hc => ?_
  obtain ⟨hc', hle⟩ := h hc
  exact ⟨hle.valid_restore hc hc', hle.restore⟩

end Framed

/-- A node is pushed and becomes the place of the cursor, unless it is a head. -/
lemma wp_pushNode {node : Node} {Q : Unit → Cursor → Prop} {E : Failure → Prop} {c : Cursor}
    (hQ : ∀ root i, Node.push node c.builder.root c.node = some (root, i) →
      Q () { c with
        builder := { c.builder with root := root }
        node := if node.isHead then c.node else c.node ++ [i] })
    (hE : Node.push node c.builder.root c.node = none → E .unreachable) :
    wp (pushNode node) Q E c := by
  rw [pushNode, wp_bind, wp_get, wp_bind, wp_orFail]
  exact ⟨fun p hp => hQ p.1 p.2 hp, hE⟩

/-- Running into unreachable code is no failed lookup. -/
lemma notLookup_unreachable : NotLookup .unreachable := by decide

/-- A node can be pushed at a valid cursor. -/
lemma Valid.push_ne_none {c : Cursor} (hc : c.Valid) (node : Node) :
    Node.push node c.builder.root c.node ≠ none := by
  obtain ⟨ls, hls, -⟩ := hc.labels
  obtain ⟨root, i, hpush⟩ := Node.exists_push node hls
  simp [hpush]

/-- A head or a guard is pushed. This fails only where no node can be pushed. -/
lemma wp_pushNode_of_var_nil {node : Node} (hvar : node.labels.filterMap Label.var = [])
    (c : Cursor) :
    wp (pushNode node) (fun _ => Frame c) (fun f => f = .unreachable ∧ ¬c.Valid) c := by
  refine wp_pushNode (fun root i hpush hc => ?_) fun hnone =>
    ⟨rfl, fun hc => hc.push_ne_none node hnone⟩
  obtain ⟨ls, hls, hvars⟩ := hc.labels
  obtain ⟨hold, hnew⟩ := Node.push_spec hpush
  have hgrows : c.builder.root.Grows root := .single ⟨_, _, _, hpush⟩
  cases hhead : node.isHead with
  | true =>
    exact ⟨⟨⟨ls, hold _ _ hls, hvars⟩, hc.nvars, hc.scopes⟩,
      ⟨hgrows, le_rfl, by simp, le_rfl, rfl⟩⟩
  | false =>
    exact ⟨⟨⟨_, hnew ls hls hhead, by simpa [hvar] using hvars⟩, hc.nvars, hc.scopes⟩,
      ⟨hgrows, le_rfl, by simp, le_rfl, rfl⟩⟩

/-- Pushing a head frames the cursor and fails at no valid one. -/
lemma wp_pushNode_head (p : Pred) (c : Cursor) :
    wp (pushNode (.head p)) (fun _ => Frame c) (fun f => f = .unreachable ∧ ¬c.Valid) c :=
  wp_pushNode_of_var_nil rfl c

/-- Pushing a guard frames the cursor and fails at no valid one. -/
lemma wp_pushNode_guard (e : Expr) (c : Cursor) :
    wp (pushNode (.guard e [])) (fun _ => Frame c) (fun f => f = .unreachable ∧ ¬c.Valid) c :=
  wp_pushNode_of_var_nil rfl c

/-- Pushing a node that binds no name is safe. -/
lemma Safe.pushNode {node : Node} (hvar : node.labels.filterMap Label.var = []) :
    Safe (Cursor.pushNode node) := fun c =>
  wp_mono (wp_pushNode_of_var_nil hvar c) (fun _ _ h => h) fun _ hf =>
    hf.1 ▸ notLookup_unreachable

/-- Pushing a guard is safe. -/
lemma Safe.pushGuard (e : Expr) : Safe (Cursor.pushGuard e) :=
  Safe.pushNode rfl

/-- Pushing a head is safe. -/
lemma Safe.pushHead (p : Pred) : Safe (Cursor.pushHead p) := by
  unfold Cursor.pushHead
  split
  · exact Framed.pure ()
  · exact Safe.pushNode rfl

/-- A head is pushed at a valid cursor. -/
lemma Valid.wp_pushHead {c : Cursor} (hc : c.Valid) (p : Pred) :
    wp (Cursor.pushHead p) (fun _ c' => c'.Valid) (fun _ => False) c := by
  unfold Cursor.pushHead
  split
  · exact hc
  · exact wp_mono (wp_pushNode_of_var_nil rfl c) (fun _ _ h => (h hc).1) fun _ hf => hf.2 hc

/-- The entries of a vector after one is overwritten or pushed. -/
lemma take_setOrPush {xs : List α} {i : ℕ} (a : α) (hi : i ≤ xs.length) :
    (setOrPush xs i a).take i = xs.take i ∧ (setOrPush xs i a).take (i + 1) = xs.take i ++ [a] ∧
      i + 1 ≤ (setOrPush xs i a).length := by
  unfold setOrPush
  split
  · next h =>
    refine ⟨by rw [List.take_set_of_le le_rfl], ?_, by simpa using Nat.succ_le_of_lt h⟩
    rw [List.take_add_one, List.take_set_of_le le_rfl]
    simp [h]
  · next h =>
    obtain rfl : i = xs.length := by omega
    simp [List.take_of_length_le]

/-- Setting or pushing an entry makes no list shorter. -/
lemma length_le_setOrPush (xs : List α) (i : ℕ) (a : α) :
    xs.length ≤ (setOrPush xs i a).length := by
  unfold setOrPush
  split <;> simp

/-- The entries after setting one are the new one and old ones. -/
lemma eq_or_mem_of_mem_setOrPush {xs : List α} {i : ℕ} {a b : α} (h : b ∈ setOrPush xs i a) :
    b = a ∨ b ∈ xs := by
  unfold setOrPush at h
  split at h
  · exact (List.mem_or_eq_of_mem_set h).symm
  · rcases List.mem_append.mp h with h | h
    · exact .inr h
    · exact .inl (List.mem_singleton.mp h)

/-- A variable is bound. This fails only where no node can be pushed. -/
lemma wp_pushForall (x : Name) (sort : Srt) (p : Pred) (c : Cursor) :
    wp (pushForall x sort p) (fun _ => Frame c) (fun f => f = .unreachable ∧ ¬c.Valid) c := by
  rw [Cursor.pushForall, wp_bind]
  refine wp_pushNode (fun root i hpush => ?_) fun hnone =>
    ⟨rfl, fun hc => hc.push_ne_none _ hnone⟩
  rw [pushVar, wp_modify]
  intro hc
  obtain ⟨ls, hls, hvars⟩ := hc.labels
  obtain ⟨hold, hnew⟩ := Node.push_spec hpush
  obtain ⟨hkeep, hlast, hlen⟩ := take_setOrPush (x, sort) hc.nvars
  refine ⟨⟨⟨_, hnew ls hls rfl, ?_⟩, hlen, fun scope hscope => ?_⟩,
    ⟨.single ⟨_, _, _, hpush⟩, le_rfl, ?_, ?_, hkeep⟩⟩
  · rw [List.filterMap_append, hvars, hlast]
    rfl
  · exact (hc.scopes scope hscope).trans (length_le_setOrPush _ _ _)
  · simp [Node.isHead]
  · exact Nat.le_succ _

/-- Pushing a quantifier is safe. -/
lemma Safe.pushForall (x : Name) (sort : Srt) (p : Pred) : Safe (Cursor.pushForall x sort p) :=
  fun c => wp_mono (wp_pushForall x sort p c) (fun _ _ h => h) fun f hf => hf.1 ▸ by decide

/-- A fresh name is the next one. -/
@[simp] lemma wp_freshName {Q : Name → Cursor → Prop} {E : Failure → Prop} {c : Cursor} :
    wp freshName Q E c = Q c.builder.nameGen
      { c with builder := { c.builder with nameGen := c.builder.nameGen + 1 } } := rfl

/-- Taking a fresh name is safe. -/
lemma Safe.freshName : Safe Cursor.freshName := by
  intro c
  exact fun hc => ⟨⟨hc.labels, hc.nvars, hc.scopes⟩,
    ⟨.refl, Nat.le_succ _, List.prefix_rfl, le_rfl, rfl⟩⟩

/-- Pushing a scope is safe. -/
lemma Safe.pushScope : Safe Cursor.pushScope := by
  intro c
  refine fun hc => ⟨⟨hc.labels, hc.nvars, fun scope hscope => ?_⟩,
    ⟨.refl, le_rfl, List.prefix_rfl, le_rfl, rfl⟩⟩
  rcases eq_or_mem_of_mem_setOrPush hscope with rfl | hscope
  · exact hc.nvars
  · exact hc.scopes scope hscope

/-- A new unknown predicate. This fails only if the variables of the scope are not there. -/
lemma wp_freshKvarAtScope (sort : Srt) (scope : ℕ) (c : Cursor) :
    wp (freshKvarAtScope sort scope) (fun _ => Frame c)
      (fun f => f = .missing ∧ ¬scope ≤ c.builder.vars.length) c := by
  rw [freshKvarAtScope, wp_bind, wp_get, wp_bind, wp_orFail]
  refine ⟨fun vars _ hc => ⟨⟨hc.labels, hc.nvars, hc.scopes⟩, ?_⟩, fun hnone => ⟨rfl, fun h => ?_⟩⟩
  · exact ⟨.refl, le_rfl, List.prefix_rfl, le_rfl, rfl⟩
  · simp [varsInScope, h] at hnone

/-- A new unknown predicate over the binder and the first variables. -/
lemma run_freshKvarAtScope (sort : Srt) {scope : ℕ} {c : Cursor}
    (h : scope ≤ c.builder.vars.length) :
    (freshKvarAtScope sort scope).run c = .ok
      (.kvar c.builder.kvars.length
        (.var .bound :: (c.builder.vars.take scope).map fun v => .var (.free v.1)),
        { c with builder.kvars := c.builder.kvars ++
          [sort :: (c.builder.vars.take scope).map Prod.snd] }) := by
  have hvars : c.varsInScope scope = some (c.builder.vars.take scope) := by
    simp [varsInScope, h]
  simp only [freshKvarAtScope, StateT.run_bind, StateT.run_get, pure_bind, hvars]
  rfl

/-- A fresh variable at a scope is safe. -/
lemma Safe.freshKvarAtScope (sort : Srt) (scope : ℕ) :
    Safe (Cursor.freshKvarAtScope sort scope) := fun c =>
  wp_mono (wp_freshKvarAtScope sort scope c) (fun _ _ h => h) fun _ hf => hf.1 ▸ by decide

/-- A fresh variable is safe. -/
lemma Safe.freshKvar (sort : Srt) : Safe (Cursor.freshKvar sort) :=
  Framed.get.bind fun _ => Safe.freshKvarAtScope sort _

/-- A fresh variable at the last scope is safe. -/
lemma Safe.freshKvarAtLastScope (sort : Srt) : Safe (Cursor.freshKvarAtLastScope sort) :=
  Framed.get.bind fun _ => Safe.freshKvarAtScope sort _

/-- A valid cursor has the variables that are in scope. -/
lemma Valid.wp_freshKvar {c : Cursor} (hc : c.Valid) (sort : Srt) :
    wp (Cursor.freshKvar sort) (fun _ c' => c'.Valid) (fun _ => False) c := by
  rw [Cursor.freshKvar, wp_bind, wp_get]
  exact wp_mono (wp_freshKvarAtScope sort _ c) (fun _ _ h => (h hc).1) fun _ hf => hf.2 hc.nvars

/-- The last scope of a valid cursor lies in its builder. -/
lemma Valid.lastScope_le {c : Cursor} (hc : c.Valid) :
    c.builder.scopes.getLast?.getD 0 ≤ c.builder.vars.length := by
  cases hlast : c.builder.scopes.getLast? with
  | none => exact Nat.zero_le _
  | some scope => exact hc.scopes scope (List.mem_of_getLast? hlast)

/-- It also has those of the last scope. -/
lemma Valid.wp_freshKvarAtLastScope {c : Cursor} (hc : c.Valid) (sort : Srt) :
    wp (Cursor.freshKvarAtLastScope sort) (fun _ c' => c'.Valid) (fun _ => False) c := by
  rw [Cursor.freshKvarAtLastScope, wp_bind, wp_get]
  exact wp_mono (wp_freshKvarAtScope sort _ c) (fun _ _ h => (h hc).1) fun _ hf =>
    hf.2 hc.lastScope_le

/-- A fresh name leaves valid cursors valid. -/
lemma Valid.withNameGen {c : Cursor} (hc : c.Valid) (n : ℕ) :
    Valid { c with builder := { c.builder with nameGen := n } } :=
  ⟨hc.labels, hc.nvars, hc.scopes⟩

/-- A type is unpacked where a node can be pushed. -/
lemma Valid.wp_unpack {c : Cursor} (hc : c.Valid) (ty : Ty) :
    wp (Cursor.unpack ty) (fun _ c' => c'.Valid) (fun _ => False) c := by
  cases ty with
  | exists_ bty p =>
    rw [Cursor.unpack, wp_bind, wp_freshName, wp_bind]
    exact wp_mono (wp_pushForall _ _ _ _) (fun _ c' h => (h (hc.withNameGen _)).1)
      fun _ hf => hf.2 (hc.withNameGen _)
  | _ => exact hc

/-! ## Subtyping -/

/-- **A property of computations** that subtyping has because unpacking does. -/
structure Composed (P : ∀ {α : Type}, CursorM α → Prop) : Prop where
  pure : ∀ {α : Type} (a : α), P (Pure.pure a)
  throw : ∀ {α : Type} (f : Failure), NotLookup f → P (MonadExcept.throw f : CursorM α)
  bind : ∀ {α β : Type} {m : CursorM α} {k : α → CursorM β}, P m → (∀ a, P (k a)) → P (m >>= k)
  snapshot : ∀ {α : Type} {m : CursorM α}, P m → P (Cursor.snapshot m)
  unpack : ∀ ty, P (Cursor.unpack ty)
  pushHead : ∀ p, P (Cursor.pushHead p)

namespace Composed

variable {P : ∀ {α : Type}, CursorM α → Prop} (hP : Composed P)
include hP

/-- An assertion has the property. -/
lemma assert (b : Bool) : P (Cursor.assert b) := by
  unfold Cursor.assert
  split
  · exact hP.pure ()
  · exact hP.throw _ (by decide)

variable (tcx : Tcx) {sub : Ty → Ty → CursorM Unit}

/-- Subtyping of type arguments has the property if that of types does. -/
lemma substsSubtyping (hsub : ∀ ty1 ty2, P (sub ty1 ty2)) (variances : List Variance)
    (substs1 substs2 : Substs) : P (Cursor.substsSubtyping sub variances substs1 substs2) := by
  induction variances generalizing substs1 substs2 with
  | nil => exact hP.pure ()
  | cons variance variances ih =>
    cases substs1 with
    | nil => exact hP.pure ()
    | cons ty1 substs1 =>
      cases substs2 with
      | nil => exact hP.pure ()
      | cons ty2 substs2 =>
        have hrest := ih substs1 substs2
        cases variance with
        | covariant => exact hP.bind (hsub ty1 ty2) fun _ => hrest
        | invariant =>
          exact hP.bind (hsub ty1 ty2) fun _ => hP.bind (hsub ty2 ty1) fun _ => hrest
        | contravariant => exact hP.bind (hsub ty2 ty1) fun _ => hrest
        | bivariant => exact hrest

/-- Subtyping of base types has the property if that of types does. -/
lemma btySubtyping (hsub : ∀ ty1 ty2, P (sub ty1 ty2)) (bty1 bty2 : BaseTy) :
    P (Cursor.btySubtyping tcx sub bty1 bty2) := by
  unfold Cursor.btySubtyping
  split
  · exact hP.assert _
  · exact hP.assert _
  · exact hP.pure ()
  · exact hP.bind (hP.assert _) fun _ => hP.bind (hP.assert _) fun _ =>
      hP.substsSubtyping hsub _ _ _
  · exact hP.throw _ notLookup_unreachable

/-- Subtyping of unpacked types has the property if that of types does. -/
lemma unpackedSubtyping (hsub : ∀ ty1 ty2, P (sub ty1 ty2)) (ty1 ty2 : Ty) :
    P (Cursor.unpackedSubtyping tcx sub ty1 ty2) := by
  unfold Cursor.unpackedSubtyping
  split
  · exact hP.bind (hP.btySubtyping tcx hsub _ _) fun _ => hP.pushHead _
  · exact hP.bind (hP.btySubtyping tcx hsub _ _) fun _ => hP.pushHead _
  · exact hP.assert _
  · exact hP.pure ()
  · exact hP.assert _
  · exact hP.throw _ notLookup_unreachable

/-- Subtyping at any depth has the property. -/
lemma subtypingN (n : ℕ) (ty1 ty2 : Ty) : P (Cursor.subtypingN tcx n ty1 ty2) := by
  induction n generalizing ty1 ty2 with
  | zero => exact hP.throw _ (by decide)
  | succ n ih =>
    have hunpacked : P (Cursor.unpack ty1 >>= fun ty1 =>
        Cursor.unpackedSubtyping tcx (Cursor.subtypingN tcx n) ty1 ty2) :=
      hP.bind (hP.unpack ty1) fun ty1 => hP.unpackedSubtyping tcx ih ty1 ty2
    unfold Cursor.subtypingN
    refine hP.snapshot ?_
    dsimp only
    split
    · split
      · exact hP.btySubtyping tcx ih _ _
      · exact hunpacked
    · split
      · exact hP.btySubtyping tcx ih _ _
      · exact hunpacked
    · exact hunpacked

/-- Subtyping has the property. -/
lemma subtyping (ty1 ty2 : Ty) : P (Cursor.subtyping tcx ty1 ty2) :=
  hP.subtypingN tcx _ ty1 ty2

end Composed

/-- **A property of computations** that unpacking and subtyping have because their parts do. -/
structure Compositional (P : ∀ {α : Type}, CursorM α → Prop) : Prop where
  pure : ∀ {α : Type} (a : α), P (Pure.pure a)
  throw : ∀ {α : Type} (f : Failure), NotLookup f → P (MonadExcept.throw f : CursorM α)
  bind : ∀ {α β : Type} {m : CursorM α} {k : α → CursorM β}, P m → (∀ a, P (k a)) → P (m >>= k)
  snapshot : ∀ {α : Type} {m : CursorM α}, P m → P (Cursor.snapshot m)
  freshName : P Cursor.freshName
  pushForall : ∀ x sort p, P (Cursor.pushForall x sort p)
  pushHead : ∀ p, P (Cursor.pushHead p)

namespace Compositional

variable {P : ∀ {α : Type}, CursorM α → Prop} (hP : Compositional P)
include hP

/-- Unpacking has the property. -/
lemma unpack (ty : Ty) : P (Cursor.unpack ty) := by
  cases ty with
  | exists_ bty p =>
    exact hP.bind hP.freshName fun _ => hP.bind (hP.pushForall _ _ _) fun _ => hP.pure _
  | _ => exact hP.pure _

/-- The property is closed under composition. -/
lemma composed : Composed P where
  pure := hP.pure
  throw := hP.throw
  bind := hP.bind
  snapshot := hP.snapshot
  unpack := hP.unpack
  pushHead := hP.pushHead

/-- Subtyping has the property, from its closure under composition. -/
lemma subtyping (tcx : Tcx) (ty1 ty2 : Ty) : P (Cursor.subtyping tcx ty1 ty2) :=
  hP.composed.subtyping tcx ty1 ty2

end Compositional

/-- Safety is compositional. -/
lemma Safe.compositional : Compositional Safe where
  pure := .pure
  throw _ hf := .throw hf
  bind := .bind
  snapshot := .snapshot
  freshName := .freshName
  pushForall := .pushForall
  pushHead := .pushHead

/-- An assertion is safe. -/
lemma Safe.assert (b : Bool) : Safe (Cursor.assert b) :=
  Safe.compositional.composed.assert b

/-- Unpacking is safe. -/
lemma Safe.unpack (ty : Ty) : Safe (Cursor.unpack ty) :=
  Safe.compositional.unpack ty

/-- Subtyping is safe. -/
theorem Safe.subtyping (tcx : Tcx) (ty1 ty2 : Ty) : Safe (Cursor.subtyping tcx ty1 ty2) :=
  Safe.compositional.subtyping tcx ty1 ty2

end Cursor

end LiquidRust.Typeck
