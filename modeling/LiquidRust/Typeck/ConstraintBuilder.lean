import LiquidRust.Typeck.Ty

set_option relaxedAutoImplicit false
set_option autoImplicit false

/-!
# The constraint builder

The builder of `liquid-rust-typeck/src/constraint_builder.rs`. A constraint is a tree, and a
cursor is a place in it where new nodes are pushed. The source keeps the place as a pointer to a
node; here it is the path to the node from the root. A snapshot of a cursor shares the builder
with it, so what the snapshot adds to the tree stays there when the cursor is used again.

## Main definitions

* `LiquidRust.Typeck.Failure` — how an operation of the checker can fail.
* `LiquidRust.Typeck.Node` — constraint trees.
* `LiquidRust.Typeck.ConstraintBuilder`, `Cursor` — the builder, and a place in its tree.
* `LiquidRust.Typeck.CursorM` — operations on a cursor.
* `LiquidRust.Typeck.Cursor.unpack`, `subtyping` — the obligations for types.
-/

namespace LiquidRust.Typeck

/-- How an operation fails: with an error that was reported, or with a panic. The panics are told
apart by what was looked for in vain: the names of a signature (`lookup`), the place that a
pointer leads to (`dangling`), or anything else (`missing`). `stack` is a recursion that is
deeper than the stack, and `overflow` is that of an integer. -/
inductive Failure
  | errorReported
  | todo
  | unreachable
  | assertion
  | lookup
  | dangling
  | missing
  | stack
  | overflow
  deriving DecidableEq, Repr

/-- `rustc_middle::ty::Variance`. -/
inductive Variance
  | covariant
  | invariant
  | contravariant
  | bivariant
  deriving DecidableEq, Repr

/-- What the checker takes from its surroundings: the variances of ADTs, the order in which a
hash map with the given keys is iterated, and the size of the stack. -/
structure Tcx where
  variancesOf : DefId → List Variance
  hashOrder : List Loc → List Loc
  hashOrder_perm : ∀ locs, (hashOrder locs).Perm locs
  stack : ℕ

/-- Surroundings without ADTs, where maps are iterated in the order of their entries. -/
def Tcx.ofStack (stack : ℕ) : Tcx where
  variancesOf := fun _ => []
  hashOrder := id
  hashOrder_perm := fun _ => .refl _
  stack := stack

/-! ## Trees -/

/-- Nodes of the constraint. A head has no children. -/
inductive Node
  | conj (children : List Node)
  | forAll (x : Name) (sort : Srt) (p : Pred) (children : List Node)
  | guard (e : Expr) (children : List Node)
  | head (p : Pred)

mutual

/-- Two trees are the same. -/
def Node.isSame : Node → Node → Bool
  | .conj ns, .conj ns' => Node.areSame ns ns'
  | .forAll x sort p ns, .forAll x' sort' p' ns' =>
    x = x' && sort = sort' && p = p' && Node.areSame ns ns'
  | .guard e ns, .guard e' ns' => e = e' && Node.areSame ns ns'
  | .head p, .head p' => p = p'
  | _, _ => false

/-- The same for children. -/
def Node.areSame : List Node → List Node → Bool
  | [], [] => true
  | n :: ns, n' :: ns' => n.isSame n' && Node.areSame ns ns'
  | _, _ => false

end

mutual

/-- The test for equal nodes is right. -/
lemma Node.isSame_iff : ∀ n n' : Node, n.isSame n' = true ↔ n = n'
  | .conj ns, n' => by cases n' <;> simp [isSame, Node.areSame_iff ns]
  | .forAll x sort p ns, n' => by cases n' <;> simp [isSame, Node.areSame_iff ns, and_assoc]
  | .guard e ns, n' => by cases n' <;> simp [isSame, Node.areSame_iff ns]
  | .head p, n' => by cases n' <;> simp [isSame]

/-- The same for lists of children. -/
lemma Node.areSame_iff : ∀ ns ns' : List Node, Node.areSame ns ns' = true ↔ ns = ns'
  | [], ns' => by cases ns' <;> simp [areSame]
  | n :: ns, ns' => by cases ns' <;> simp [areSame, Node.isSame_iff n, Node.areSame_iff ns]

end

instance : DecidableEq Node :=
  fun n n' => decidable_of_iff _ (Node.isSame_iff n n')

namespace Node

/-- Whether a node is a head. -/
def isHead : Node → Bool
  | head _ => true
  | _ => false

/-- The children of a node that is not a head. -/
def children : Node → Option (List Node)
  | conj children | forAll _ _ _ children | guard _ children => some children
  | head _ => none

/-- The node with other children. -/
def withChildren : Node → List Node → Node
  | conj _, cs => conj cs
  | forAll x sort p _, cs => forAll x sort p cs
  | guard e _, cs => guard e cs
  | head p, _ => head p

/-- A new last child of the node at a path, and its index. There is none if the path leads to a
head or out of the tree. -/
def push (node : Node) : Node → List ℕ → Option (Node × ℕ)
  | n, [] => do
    let cs ← n.children
    pure (n.withChildren (cs ++ [node]), cs.length)
  | n, i :: path => do
    let cs ← n.children
    let c ← cs[i]?
    let (c, k) ← push node c path
    pure (n.withChildren (cs.set i c), k)

end Node

/-! ## Builders and cursors -/

/-- The constraint so far, with the state of its cursors. -/
structure ConstraintBuilder where
  root : Node
  kvars : List (List Srt)
  scopes : List ℕ
  vars : List (Name × Srt)
  nameGen : ℕ

/-- A cursor: the path of its node, and how many scopes and variables it has. -/
structure Cursor where
  builder : ConstraintBuilder
  node : List ℕ
  nscopes : ℕ
  nvars : ℕ

namespace ConstraintBuilder

/-- `ConstraintBuilder::new`. -/
def new : ConstraintBuilder where
  root := .conj []
  kvars := []
  scopes := []
  vars := []
  nameGen := 0

/-- `as_cursor`: the cursor at the root. -/
def asCursor (builder : ConstraintBuilder) : Cursor where
  builder := builder
  node := []
  nscopes := 0
  nvars := 0

end ConstraintBuilder

/-- Operations that change a cursor. -/
abbrev CursorM (α : Type) := StateT Cursor (Except Failure) α

/-- The result of a computation that may fail. -/
def orFail {α : Type} (f : Failure) : Option α → CursorM α
  | some a => pure a
  | none => throw f

namespace Cursor

/-- `snapshot`: the computation uses a copy of the cursor. -/
def snapshot {α : Type} (m : CursorM α) : CursorM α := do
  let cursor ← get
  let a ← m
  modify fun cursor' => { cursor with builder := cursor'.builder }
  pure a

/-- An entry of a vector is overwritten, or pushed if there is none. -/
def setOrPush {α : Type} (xs : List α) (i : ℕ) (a : α) : List α :=
  if i < xs.length then xs.set i a else xs ++ [a]

/-- `push_scope`: the scope ends at the variables of the cursor. -/
def pushScope : CursorM Unit :=
  modify fun cursor =>
    { cursor with
      builder.scopes := setOrPush cursor.builder.scopes cursor.nscopes cursor.nvars
      nscopes := cursor.nscopes + 1 }

/-- `push_node`: the cursor goes down to the new node, unless it is a head. -/
def pushNode (node : Node) : CursorM Unit := do
  let cursor ← get
  let (root, i) ← orFail .unreachable (Node.push node cursor.builder.root cursor.node)
  set { cursor with
    builder.root := root
    node := if node.isHead then cursor.node else cursor.node ++ [i] }

/-- The variable of a quantifier. -/
def pushVar (x : Name) (sort : Srt) : CursorM Unit :=
  modify fun cursor =>
    { cursor with
      builder.vars := setOrPush cursor.builder.vars cursor.nvars (x, sort)
      nvars := cursor.nvars + 1 }

/-- `push_forall`: the cursor goes down below a quantifier. -/
def pushForall (x : Name) (sort : Srt) (p : Pred) : CursorM Unit := do
  pushNode (.forAll x sort p [])
  pushVar x sort

/-- `push_guard`: the cursor goes down below a guard. -/
def pushGuard (e : Expr) : CursorM Unit :=
  pushNode (.guard e [])

/-- `push_head`: there is no node for a head that is true. -/
def pushHead (p : Pred) : CursorM Unit :=
  if p.isTrue then pure () else pushNode (.head p)

/-- The variables of the first `scope` entries. -/
def varsInScope (scope : ℕ) (cursor : Cursor) : Option (List (Name × Srt)) :=
  if scope ≤ cursor.builder.vars.length then some (cursor.builder.vars.take scope) else none

/-- A new unknown predicate over the binder and the variables of a scope. -/
def freshKvarAtScope (sort : Srt) (scope : ℕ) : CursorM Pred := do
  let cursor ← get
  let vars ← orFail .missing (cursor.varsInScope scope)
  set { cursor with builder.kvars := cursor.builder.kvars ++ [sort :: vars.map Prod.snd] }
  pure (.kvar cursor.builder.kvars.length
    (.var .bound :: vars.map fun v => .var (.free v.1)))

/-- `fresh_kvar`: an unknown predicate over the variables of the cursor. -/
def freshKvar (sort : Srt) : CursorM Pred := do
  let cursor ← get
  freshKvarAtScope sort cursor.nvars

/-- The last scope of the builder, which need not be one of the cursor. -/
def freshKvarAtLastScope (sort : Srt) : CursorM Pred := do
  let cursor ← get
  freshKvarAtScope sort (cursor.builder.scopes.getLast?.getD 0)

/-- `fresh_name`: the next name of the builder. -/
def freshName : CursorM Name := do
  let cursor ← get
  set { cursor with builder.nameGen := cursor.builder.nameGen + 1 }
  pure cursor.builder.nameGen

/-- An existential type becomes the type of a new name. -/
def unpack (ty : Ty) : CursorM Ty :=
  match ty with
  | .exists_ bty p => do
    let fresh ← freshName
    pushForall fresh bty.sort (p.substBoundVars (.var (.free fresh)))
    pure (.refine bty (.var (.free fresh)))
  | _ => pure ty

variable (tcx : Tcx)

/-- `debug_assert!`. -/
def assert (b : Bool) : CursorM Unit :=
  if b then pure () else throw .assertion

/-- `polymorphic_subtyping` on the arguments of an ADT, with `sub` for the subtyping of
types. -/
def substsSubtyping (sub : Ty → Ty → CursorM Unit) :
    List Variance → Substs → Substs → CursorM Unit
  | variance :: variances, .cons ty1 substs1, .cons ty2 substs2 => do
    match variance with
    | .covariant => sub ty1 ty2
    | .invariant => do
      sub ty1 ty2
      sub ty2 ty1
    | .contravariant => sub ty2 ty1
    | .bivariant => pure ()
    substsSubtyping sub variances substs1 substs2
  | _, _, _ => pure ()

/-- `bty_subtyping`, with `sub` for the types in it. -/
def btySubtyping (sub : Ty → Ty → CursorM Unit) : BaseTy → BaseTy → CursorM Unit
  | .int int_ty1, .int int_ty2 => assert (int_ty1 = int_ty2)
  | .uint uint_ty1, .uint uint_ty2 => assert (uint_ty1 = uint_ty2)
  | .bool, .bool => pure ()
  | .adt did1 substs1, .adt did2 substs2 => do
    assert (did1 = did2)
    assert (substs1.len = substs2.len)
    substsSubtyping sub (tcx.variancesOf did1) substs1 substs2
  | _, _ => throw .unreachable

/-- The second part of `subtyping`, after `ty1` is unpacked. -/
def unpackedSubtyping (sub : Ty → Ty → CursorM Unit) : Ty → Ty → CursorM Unit
  | .refine bty1 e1, .refine bty2 e2 => do
    btySubtyping tcx sub bty1 bty2
    pushHead (.expr (.binaryOp .eq e1 e2))
  | .refine bty1 e, .exists_ bty2 p => do
    btySubtyping tcx sub bty1 bty2
    let p := p.substBoundVars e
    pushHead (p.substBoundVars e)
  | .strgRef loc1, .strgRef loc2 => assert (loc1 = loc2)
  | _, .uninit => pure ()
  | .param param1, .param param2 => assert (param1 = param2)
  | _, _ => throw .unreachable

/-- The obligations for `ty1` to be a subtype of `ty2`. A trivial one, between types with one
index or one predicate, is left out. The recursion into ADTs is bounded. -/
def subtypingN : ℕ → Ty → Ty → CursorM Unit
  | 0, _, _ => throw .stack
  | n + 1, ty1, ty2 => snapshot <|
    let unpacked := do
      let ty1 ← unpack ty1
      unpackedSubtyping tcx (subtypingN n) ty1 ty2
    match ty1, ty2 with
    | .refine bty1 e1, .refine bty2 e2 =>
      if e1 = e2 then btySubtyping tcx (subtypingN n) bty1 bty2 else unpacked
    | .exists_ bty1 p1, .exists_ bty2 p2 =>
      if p1 = p2 then btySubtyping tcx (subtypingN n) bty1 bty2 else unpacked
    | _, _ => unpacked

/-- `subtyping`, as deep as the stack allows. -/
def subtyping (ty1 ty2 : Ty) : CursorM Unit :=
  subtypingN tcx tcx.stack ty1 ty2

end Cursor

end LiquidRust.Typeck
