import Mathlib.Data.List.Perm.Basic
import Mathlib.Data.List.Infix
import LiquidRust.Typeck.CursorInv

set_option relaxedAutoImplicit false
set_option autoImplicit false

/-!
# Sessions of cursors

All cursors of a builder write into one stack of variables and one stack of scopes, which are
overwritten and never truncated; a cursor keeps only its own depth in them. A session is a builder
with its live cursors, of which only the last one can be used. It also records what the builder
does not: the heads that were pushed with the labels on the path of their cursor, and the
variables that were bound where a cursor opened its scopes.

A cursor knows the variables that are bound on its path. It does not know its last scope: the last
entry of the shared stack may be left over from a cursor that is gone.

## Main definitions

* `LiquidRust.Typeck.Node.heads` — the heads of a tree with the labels above them.
* `LiquidRust.Typeck.Session`, `Session.Op`, `Session.run` — sessions and their operations.
* `LiquidRust.Typeck.Session.Inv` — the invariant of sessions.
* `LiquidRust.Typeck.Session.Scripted` — computations that are runs of operations.

## Main results

* `LiquidRust.Typeck.Session.run_knows` — cursors know what is bound above them, and heads stay
  where they were pushed.
* `LiquidRust.Typeck.Session.atLastScope_iff` — when an unknown predicate at the last scope is
  over the variables of that scope.
-/

namespace LiquidRust.Typeck

open Lib

/-! ## The heads of a tree -/

namespace Node

/-- A head with more labels above it. -/
def underLabels (ls : List Label) (h : List Label × Pred) : List Label × Pred :=
  (ls ++ h.1, h.2)

mutual

/-- The heads of a tree, each with the labels above it. -/
def heads : Node → List (List Label × Pred)
  | conj children => allHeads children
  | forAll x sort p children => (allHeads children).map (underLabels [.forAll x sort p])
  | guard e children => (allHeads children).map (underLabels [.guard e])
  | head p => [([], p)]

/-- The heads of children. -/
def allHeads : List Node → List (List Label × Pred)
  | [] => []
  | child :: children => child.heads ++ allHeads children

end

/-- A head under labels under labels is under all of them. -/
@[simp] lemma underLabels_underLabels (ls ls' : List Label) (h : List Label × Pred) :
    underLabels ls (underLabels ls' h) = underLabels (ls ++ ls') h := by
  simp [underLabels]

/-- The heads of a node are those of its children, under its labels. -/
lemma heads_of_children {n : Node} {cs : List Node} (h : n.children = some cs) :
    n.heads = (allHeads cs).map (underLabels n.labels) := by
  cases n with
  | conj children =>
    cases h
    have hid : underLabels [] = id := by
      funext h
      simp [underLabels]
    rw [heads, labels, hid, List.map_id]
  | forAll x sort p children =>
    cases h
    rfl
  | guard e children =>
    cases h
    rfl
  | head p => cases h

/-- The heads of two lists of children are those of each. -/
lemma allHeads_append (cs cs' : List Node) :
    allHeads (cs ++ cs') = allHeads cs ++ allHeads cs' := by
  induction cs with
  | nil => rfl
  | cons c cs ih => simp [allHeads, ih]

/-- A child gets more heads. -/
lemma allHeads_set {cs : List Node} {i : ℕ} {c c' : Node} {hs : List (List Label × Pred)}
    (hc : cs[i]? = some c) (h : c'.heads.Perm (c.heads ++ hs)) :
    (allHeads (cs.set i c')).Perm (allHeads cs ++ hs) := by
  induction cs generalizing i with
  | nil => simp at hc
  | cons d cs ih =>
    cases i with
    | zero =>
      obtain rfl : d = c := by simpa using hc
      show (c'.heads ++ allHeads cs).Perm (d.heads ++ allHeads cs ++ hs)
      refine (h.append_right _).trans ?_
      rw [List.append_assoc, List.append_assoc]
      exact List.perm_append_comm.append_left _
    | succ i =>
      have hrest := ih (by simpa using hc)
      show (d.heads ++ allHeads (cs.set i c')).Perm (d.heads ++ allHeads cs ++ hs)
      rw [List.append_assoc]
      exact hrest.append_left _

/-- **The heads after a push** are those of before and those of the new node, which are below the
labels on the path. -/
theorem heads_push {node n n' : Node} {path : List ℕ} {k : ℕ} {ls : List Label}
    (h : push node n path = some (n', k)) (hls : labelsAt n path = some ls) :
    n'.heads.Perm (n.heads ++ node.heads.map (underLabels ls)) := by
  induction path generalizing n n' ls with
  | nil =>
    obtain ⟨cs, hcs, rfl, rfl⟩ := push_nil_eq_some.mp h
    obtain rfl : n.labels = ls := by simpa [labelsAt, hcs] using hls
    rw [heads_of_children (children_withChildren hcs), heads_of_children hcs, allHeads_append,
      List.map_append, labels_withChildren]
    simp [allHeads]
  | cons i path ih =>
    obtain ⟨cs, c, c', hcs, hc, hpush, rfl⟩ := push_cons_eq_some.mp h
    obtain ⟨cs', d, ls', hcs', hd, hls', rfl⟩ := labelsAt_cons_eq_some.mp hls
    cases hcs.symm.trans hcs'
    cases hc.symm.trans hd
    have hset := (allHeads_set hc (ih hpush hls')).map (underLabels n.labels)
    rw [heads_of_children (children_withChildren hcs), heads_of_children hcs,
      labels_withChildren]
    refine hset.trans (.of_eq ?_)
    simp [Function.comp_def]

end Node

/-! ## Sessions -/

/-- What a cursor has of its own, and the variables that were bound on its path whenever a scope
was opened on it. -/
structure View where
  node : List ℕ
  nscopes : ℕ
  nvars : ℕ
  marks : List (List (Name × Srt))

namespace View

/-- The cursor at the root. -/
def root : View where
  node := []
  nscopes := 0
  nvars := 0
  marks := []

/-- A view as a cursor of the builder. -/
def cursor (v : View) (builder : ConstraintBuilder) : Cursor where
  builder := builder
  node := v.node
  nscopes := v.nscopes
  nvars := v.nvars

/-- The labels on the path of a cursor. -/
def labels (v : View) (builder : ConstraintBuilder) : List Label :=
  (builder.root.labelsAt v.node).getD []

/-- The variables that are bound on the path of a cursor. -/
def vars (v : View) (builder : ConstraintBuilder) : List (Name × Srt) :=
  (v.labels builder).filterMap Label.var

/-- The variables that were bound where the last scope was opened, or none if none was. -/
def lastMark (v : View) : List (Name × Srt) :=
  v.marks.getLast?.getD []

end View

/-- A builder with its live cursors, and the heads that were pushed with the labels on the path of
their cursor. -/
structure Session where
  builder : ConstraintBuilder
  top : View
  suspended : List View
  pushed : List (List Label × Pred)

/-- The operations on one cursor. -/
inductive CursorOp
  | freshName
  | pushForall (x : Name) (sort : Srt) (p : Pred)
  | pushGuard (e : Expr)
  | pushHead (p : Pred)
  | pushScope
  | freshKvar (sort : Srt)
  | freshKvarAtLastScope (sort : Srt)

namespace CursorOp

/-- What an operation does to the cursor in use. -/
def run : CursorOp → CursorM Unit
  | freshName => (fun _ => ()) <$> Cursor.freshName
  | pushForall x sort p => Cursor.pushForall x sort p
  | pushGuard e => Cursor.pushGuard e
  | pushHead p => Cursor.pushHead p
  | pushScope => Cursor.pushScope
  | freshKvar sort => (fun _ => ()) <$> Cursor.freshKvar sort
  | freshKvarAtLastScope sort => (fun _ => ()) <$> Cursor.freshKvarAtLastScope sort

/-- The heads that an operation pushes where the path has the labels `ls`. -/
def heads (ls : List Label) : CursorOp → List (List Label × Pred)
  | pushHead p => if p.isTrue then [] else [(ls, p)]
  | _ => []

/-- The scopes that an operation opens where the path binds `vars`. -/
def marks (vars : List (Name × Srt)) : CursorOp → List (List (Name × Srt))
  | pushScope => [vars]
  | _ => []

end CursorOp

namespace Session

/-- The operations of a session: on the last cursor, or the beginning or the end of a snapshot.
When no cursor is suspended, the builder can give a new one. -/
inductive Op
  | onCursor (op : CursorOp)
  | snapshot
  | drop
  | asCursor

/-- A new builder with its first cursor. -/
def start : Session where
  builder := .new
  top := .root
  suspended := []
  pushed := []

/-- The cursor in use. -/
def cursor (s : Session) : Cursor :=
  s.top.cursor s.builder

/-- The live cursors, the last one first. -/
def live (s : Session) : List View :=
  s.top :: s.suspended

/-- The session after the last cursor became `c` by an operation. -/
def after (s : Session) (op : CursorOp) (c : Cursor) : Session where
  builder := c.builder
  top :=
    { node := c.node
      nscopes := c.nscopes
      nvars := c.nvars
      marks := s.top.marks ++ op.marks (s.top.vars s.builder) }
  suspended := s.suspended
  pushed := s.pushed ++ op.heads (s.top.labels s.builder)

/-- One operation, unless it fails. -/
def step (s : Session) : Op → Option Session
  | .onCursor op =>
    match op.run.run s.cursor with
    | .ok (_, c) => some (s.after op c)
    | .error _ => none
  | .snapshot => some { s with suspended := s.top :: s.suspended }
  | .drop =>
    match s.suspended with
    | v :: suspended => some { s with top := v, suspended := suspended }
    | [] => none
  | .asCursor =>
    match s.suspended with
    | _ :: _ => none
    | [] => some { s with top := .root }

/-- A script of operations, unless one of them fails. -/
def run (s : Session) : List Op → Option Session
  | [] => some s
  | op :: ops => (s.step op).bind fun s => s.run ops

/-- Running two scripts in a row is running one after the other. -/
lemma run_append {s : Session} {ops ops' : List Op} :
    s.run (ops ++ ops') = (s.run ops).bind fun s => s.run ops' := by
  induction ops generalizing s with
  | nil => rfl
  | cons op ops ih =>
    rw [List.cons_append, run, run, Option.bind_assoc]
    congr 1
    funext s
    exact ih

/-! ## What an operation on a cursor does -/

/-- What is known of the cursor after an operation. -/
structure Step (op : CursorOp) (c c' : Cursor) : Prop where
  valid : c'.Valid
  le : c.Le c'
  scopes : (op = .pushScope ∧
      c'.builder.scopes = Cursor.setOrPush c.builder.scopes c.nscopes c.nvars ∧
      c'.nscopes = c.nscopes + 1) ∨
    (op ≠ .pushScope ∧ c'.builder.scopes = c.builder.scopes ∧ c'.nscopes = c.nscopes)
  heads : ∀ ls, c.builder.root.labelsAt c.node = some ls →
    c'.builder.root.heads.Perm (c.builder.root.heads ++ op.heads ls)

/-- An operation that leaves the scopes as they are and pushes no heads. -/
lemma step_of_frame {op : CursorOp} {c c' : Cursor} (hc : c.Valid) (hframe : c.Frame c')
    (hop : op ≠ .pushScope) (hscopes : c'.builder.scopes = c.builder.scopes)
    (hnscopes : c'.nscopes = c.nscopes) (hroot : c'.builder.root = c.builder.root)
    (hheads : ∀ ls, op.heads ls = []) : Step op c c' where
  valid := (hframe hc).1
  le := (hframe hc).2
  scopes := .inr ⟨hop, hscopes, hnscopes⟩
  heads ls hls := by rw [hroot, hheads ls, List.append_nil]

/-- A node is pushed: the scopes stay, and the heads of the node are below the path. -/
lemma wp_pushNode_heads (node : Node) {c : Cursor} {ls : List Label}
    (hls : c.builder.root.labelsAt c.node = some ls) :
    wp (Cursor.pushNode node) (fun _ c' => c'.builder.scopes = c.builder.scopes ∧
        c'.nscopes = c.nscopes ∧ c'.builder.root.heads.Perm
          (c.builder.root.heads ++ node.heads.map (Node.underLabels ls)))
      (fun _ => True) c := by
  refine Cursor.wp_pushNode (fun root i hpush => ?_) fun _ => trivial
  exact ⟨rfl, rfl, Node.heads_push hpush hls⟩

/-- A guard or a quantifier is pushed, or a head. -/
lemma step_of_heads {op : CursorOp} {c c' : Cursor} {ls : List Label} (hc : c.Valid)
    (hframe : c.Frame c') (hls : c.builder.root.labelsAt c.node = some ls)
    (hop : op ≠ .pushScope) (hscopes : c'.builder.scopes = c.builder.scopes)
    (hnscopes : c'.nscopes = c.nscopes)
    (hheads : c'.builder.root.heads.Perm (c.builder.root.heads ++ op.heads ls)) :
    Step op c c' where
  valid := (hframe hc).1
  le := (hframe hc).2
  scopes := .inr ⟨hop, hscopes, hnscopes⟩
  heads ls' hls' := by
    obtain rfl : ls = ls' := Option.some.inj (hls.symm.trans hls')
    exact hheads

/-- A new unknown predicate leaves everything else as it is. -/
lemma wp_freshKvarAtScope_step {op : CursorOp} {c : Cursor} (hc : c.Valid) (sort : Srt)
    {scope : ℕ} (hscope : scope ≤ c.builder.vars.length) (hop : op ≠ .pushScope)
    (hheads : ∀ ls, op.heads ls = []) :
    wp (Cursor.freshKvarAtScope sort scope) (fun _ => Step op c) (fun _ => False) c := by
  rw [wp, Cursor.run_freshKvarAtScope sort hscope]
  refine step_of_frame hc (fun hc => ⟨⟨hc.labels, hc.nvars, hc.scopes⟩, ?_⟩) hop rfl rfl rfl hheads
  exact ⟨.refl, le_rfl, List.prefix_rfl, le_rfl, rfl⟩

/-- **Every operation succeeds** on a valid cursor, and this is what it does. -/
theorem wp_op {c : Cursor} (hc : c.Valid) (op : CursorOp) :
    wp op.run (fun _ => Step op c) (fun _ => False) c := by
  obtain ⟨ls, hls, -⟩ := hc.labels
  cases op with
  | freshName =>
    rw [CursorOp.run, wp_map, Cursor.wp_freshName]
    refine step_of_frame hc (fun hc => ⟨hc.withNameGen _, ?_⟩) (by simp) rfl rfl rfl fun _ => rfl
    exact ⟨.refl, Nat.le_succ _, List.prefix_rfl, le_rfl, rfl⟩
  | pushForall x sort p =>
    have hheads : wp (Cursor.pushForall x sort p) (fun _ c' =>
        c'.builder.scopes = c.builder.scopes ∧ c'.nscopes = c.nscopes ∧
          c'.builder.root.heads.Perm (c.builder.root.heads ++ [])) (fun _ => True) c := by
      rw [Cursor.pushForall, wp_bind]
      exact wp_imp (wp_pushNode_heads (.forAll x sort p []) hls) fun _ c' h => h
    exact wp_mono (wp_and (Cursor.wp_pushForall x sort p c) hheads)
      (fun _ c' h => step_of_heads hc h.1 hls (by simp) h.2.1 h.2.2.1 h.2.2.2)
      fun _ hf => hf.1.2 hc
  | pushGuard e =>
    exact wp_mono (wp_and (Cursor.wp_pushNode_guard e c)
        (wp_pushNode_heads (.guard e []) hls))
      (fun _ c' h => step_of_heads hc h.1 hls (by simp) h.2.1 h.2.2.1 h.2.2.2)
      fun _ hf => hf.1.2 hc
  | pushHead p =>
    rw [CursorOp.run, Cursor.pushHead]
    split
    · next htrue =>
      exact step_of_frame hc (Cursor.Frame.refl c) (by simp) rfl rfl rfl fun ls => by
        simp [CursorOp.heads, htrue]
    · next htrue =>
      have hheads : CursorOp.heads ls (.pushHead p) = [(ls, p)] := by
        simp [CursorOp.heads, htrue]
      refine wp_mono (wp_and (Cursor.wp_pushNode_head p c)
        (wp_pushNode_heads (.head p) hls)) (fun _ c' h => ?_) fun _ hf => hf.1.2 hc
      refine step_of_heads hc h.1 hls (by simp) h.2.1 h.2.2.1 (h.2.2.2.trans (.of_eq ?_))
      rw [hheads]
      simp [Node.heads, Node.underLabels]
  | pushScope =>
    rw [CursorOp.run, Cursor.pushScope, wp_modify]
    have hframe := Cursor.Safe.pushScope c hc
    exact
      { valid := hframe.1
        le := hframe.2
        scopes := .inl ⟨rfl, rfl, rfl⟩
        heads := fun ls _ => .of_eq (List.append_nil _).symm }
  | freshKvar sort =>
    rw [CursorOp.run, wp_map, Cursor.freshKvar, wp_bind, wp_get]
    exact wp_freshKvarAtScope_step hc sort hc.nvars (by simp) fun _ => rfl
  | freshKvarAtLastScope sort =>
    rw [CursorOp.run, wp_map, Cursor.freshKvarAtLastScope, wp_bind, wp_get]
    exact wp_freshKvarAtScope_step hc sort hc.lastScope_le (by simp) fun _ => rfl

/-! ## The invariant -/

/-- One cursor was made from the other. -/
structure Above (v w : View) : Prop where
  node : v.node <+: w.node
  nscopes : v.nscopes ≤ w.nscopes
  nvars : v.nvars ≤ w.nvars

/-- The scopes of a cursor are where its marks were made. -/
structure Marked (builder : ConstraintBuilder) (v : View) : Prop where
  marks : v.marks = (builder.scopes.take v.nscopes).map fun scope => builder.vars.take scope
  nscopes : v.nscopes ≤ builder.scopes.length
  scope_le : ∀ scope ∈ builder.scopes.take v.nscopes, scope ≤ v.nvars

/-- **The invariant of sessions.** -/
structure Inv (s : Session) : Prop where
  root : s.builder.root.labelsAt [] = some []
  valid : ∀ v ∈ s.live, (v.cursor s.builder).Valid
  marked : ∀ v ∈ s.live, Marked s.builder v
  nested : s.live.Pairwise fun w v => Above v w
  heads : s.builder.root.heads.Perm s.pushed

/-- A view is above itself. -/
lemma Above.refl (v : View) : Above v v :=
  ⟨List.prefix_rfl, le_rfl, le_rfl⟩

/-- The invariant holds initially. -/
lemma inv_start : Inv start where
  root := rfl
  valid v hv := by
    obtain rfl : v = .root := by simpa [live, start] using hv
    exact Cursor.valid_new
  marked v hv := by
    obtain rfl : v = .root := by simpa [live, start] using hv
    exact ⟨rfl, le_rfl, by simp [start, ConstraintBuilder.new]⟩
  nested := by simp [live, start]
  heads := .refl _

section OnCursor

variable {s : Session} {op : CursorOp} {c : Cursor}

/-- A suspended cursor comes before the one in use. -/
lemma le_of_above {builder : ConstraintBuilder} {v w : View} (h : Above v w) :
    (v.cursor builder).Le (w.cursor builder) :=
  ⟨.refl, le_rfl, h.node, h.nvars, rfl⟩

/-- An operation leaves the scopes of a suspended cursor. -/
lemma Step.take_scopes (h : Step op s.cursor c) (hs : s.top.nscopes ≤ s.builder.scopes.length)
    {n : ℕ} (hn : n ≤ s.top.nscopes) :
    c.builder.scopes.take n = s.builder.scopes.take n ∧ n ≤ c.nscopes ∧
      c.nscopes ≤ c.builder.scopes.length := by
  rcases h.scopes with ⟨-, hscopes, hnscopes⟩ | ⟨-, hscopes, hnscopes⟩
  · obtain ⟨htake, -, hlen⟩ := Cursor.take_setOrPush s.top.nvars hs
    rw [hscopes, hnscopes]
    refine ⟨?_, hn.trans (Nat.le_succ _), hlen⟩
    have := congrArg (List.take n) htake
    rwa [List.take_take, List.take_take, min_eq_left hn] at this
  · rw [hscopes, hnscopes]
    exact ⟨rfl, hn, hs⟩

/-- The variables of the scopes of a cursor stay. -/
lemma map_take_vars {scopes : List ℕ} {n : ℕ} {vars vars' : List (Name × Srt)}
    (hle : ∀ scope ∈ scopes, scope ≤ n) (h : vars'.take n = vars.take n) :
    (scopes.map fun scope => vars'.take scope) = scopes.map fun scope => vars.take scope := by
  refine List.map_congr_left fun scope hscope => ?_
  have := congrArg (List.take scope) h
  rwa [List.take_take, List.take_take, min_eq_left (hle scope hscope)] at this

/-- A suspended cursor stays as it is. -/
lemma Step.suspended (h : Step op s.cursor c) (hs : Inv s) {v : View} (hv : v ∈ s.suspended) :
    (v.cursor c.builder).Valid ∧ Marked c.builder v ∧ Above v (s.after op c).top := by
  have hmem : v ∈ s.live := .tail _ hv
  have habove : Above v s.top := List.rel_of_pairwise_cons hs.nested hv
  have hle : (v.cursor s.builder).Le c := (le_of_above habove).trans h.le
  obtain ⟨hmarks, hnscopes, hscope⟩ := hs.marked v hmem
  obtain ⟨htake, hn, hlen⟩ := h.take_scopes (hs.marked s.top (.head _)).nscopes habove.nscopes
  refine ⟨hle.valid_restore (hs.valid v hmem) h.valid, ⟨?_, hn.trans hlen, ?_⟩,
    ⟨hle.node, hn, hle.nvars⟩⟩
  · rw [hmarks, htake]
    exact (map_take_vars hscope hle.vars).symm
  · rw [htake]
    exact hscope

/-- The variables on the path of a valid cursor. -/
lemma vars_eq_take {builder : ConstraintBuilder} {v : View} (hv : (v.cursor builder).Valid) :
    v.vars builder = builder.vars.take v.nvars := by
  obtain ⟨ls, hls, hvars⟩ := hv.labels
  change builder.root.labelsAt v.node = some ls at hls
  rw [View.vars, View.labels, hls]
  exact hvars

/-- The scopes of the cursor in use after an operation, and the variables at these scopes. -/
lemma Step.marks (h : Step op s.cursor c) (hs : Inv s) :
    (∀ scope ∈ c.builder.scopes.take c.nscopes, scope ≤ s.top.nvars) ∧
      s.top.marks ++ op.marks (s.top.vars s.builder) =
        (c.builder.scopes.take c.nscopes).map fun scope => s.builder.vars.take scope := by
  obtain ⟨hmarks, hnscopes, hscope⟩ := hs.marked s.top (.head _)
  rcases h.scopes with ⟨rfl, hscopes, hn⟩ | ⟨hop, hscopes, hn⟩
  · obtain ⟨-, htake, -⟩ := Cursor.take_setOrPush s.top.nvars hnscopes
    have htake' : c.builder.scopes.take c.nscopes =
        s.builder.scopes.take s.top.nscopes ++ [s.top.nvars] := by
      rw [hscopes, hn]
      exact htake
    rw [htake', List.map_append, hmarks, CursorOp.marks,
      vars_eq_take (hs.valid s.top (.head _))]
    refine ⟨fun scope hmem => ?_, rfl⟩
    rcases List.mem_append.mp hmem with hmem | hmem
    · exact hscope scope hmem
    · exact (List.mem_singleton.mp hmem).le
  · have hnil : op.marks (s.top.vars s.builder) = [] := by
      cases op <;> first | rfl | exact absurd rfl hop
    rw [hscopes, hn, hnil, List.append_nil]
    exact ⟨hscope, hmarks⟩

/-- The cursor in use stays marked. -/
lemma Step.marked (h : Step op s.cursor c) (hs : Inv s) : Marked c.builder (s.after op c).top := by
  obtain ⟨hle, hmarks⟩ := h.marks hs
  have hnscopes := (hs.marked s.top (.head _)).nscopes
  refine ⟨?_, (h.take_scopes hnscopes le_rfl).2.2,
    fun scope hmem => (hle scope hmem).trans h.le.nvars⟩
  show s.top.marks ++ _ = (c.builder.scopes.take c.nscopes).map _
  rw [hmarks]
  exact (map_take_vars hle h.le.vars).symm

/-- An operation on the cursor in use. -/
lemma Step.inv (h : Step op s.cursor c) (hs : Inv s) : Inv (s.after op c) where
  root := h.le.root.labelsAt hs.root
  valid v hv := by
    rcases List.mem_cons.mp hv with rfl | hv
    · exact h.valid
    · exact (h.suspended hs hv).1
  marked v hv := by
    rcases List.mem_cons.mp hv with rfl | hv
    · exact h.marked hs
    · exact (h.suspended hs hv).2.1
  nested := List.pairwise_cons.mpr
    ⟨fun v hv => (h.suspended hs hv).2.2, (List.pairwise_cons.mp hs.nested).2⟩
  heads := by
    obtain ⟨ls, hls, -⟩ := (hs.valid s.top (.head _)).labels
    have hlabels : s.top.labels s.builder = ls := by
      change s.builder.root.labelsAt s.top.node = some ls at hls
      rw [View.labels, hls]
      rfl
    show c.builder.root.heads.Perm (s.pushed ++ op.heads (s.top.labels s.builder))
    rw [hlabels]
    exact (h.heads ls hls).trans (hs.heads.append_right _)

end OnCursor

/-- What an operation on the cursor in use does to the session. -/
lemma step_onCursor {s s' : Session} {op : CursorOp} (hs : Inv s)
    (h : s.step (.onCursor op) = some s') : ∃ c, Step op s.cursor c ∧ s' = s.after op c := by
  have hop := wp_op (hs.valid s.top (.head _)) op
  unfold step at h
  dsimp only at h
  split at h
  · next c hc =>
    obtain rfl := Option.some.inj h
    exact ⟨c, (wp_iff.mp hop).1 () c hc, rfl⟩
  · cases h

/-- **One operation keeps the invariant.** -/
theorem Inv.step {s s' : Session} {op : Op} (hs : Inv s) (h : s.step op = some s') : Inv s' := by
  cases op with
  | onCursor op =>
    obtain ⟨c, hstep, rfl⟩ := step_onCursor hs h
    exact hstep.inv hs
  | snapshot =>
    obtain rfl := Option.some.inj h
    have hmem : ∀ v ∈ s.top :: s.live, v ∈ s.live := fun v hv => by
      rcases List.mem_cons.mp hv with rfl | hv
      · exact .head _
      · exact hv
    refine ⟨hs.root, fun v hv => hs.valid v (hmem v hv), fun v hv => hs.marked v (hmem v hv),
      List.pairwise_cons.mpr ⟨fun v hv => ?_, hs.nested⟩, hs.heads⟩
    rcases List.mem_cons.mp hv with rfl | hv
    · exact .refl _
    · exact List.rel_of_pairwise_cons hs.nested hv
  | drop =>
    unfold Session.step at h
    dsimp only at h
    split at h
    · next v suspended hsuspended =>
      obtain rfl := Option.some.inj h
      have hlive : s.live = s.top :: v :: suspended := by rw [live, hsuspended]
      have hnested := hs.nested
      rw [hlive] at hnested
      exact ⟨hs.root, fun w hw => hs.valid w (hlive ▸ .tail _ hw),
        fun w hw => hs.marked w (hlive ▸ .tail _ hw), (List.pairwise_cons.mp hnested).2, hs.heads⟩
    · cases h
  | asCursor =>
    unfold Session.step at h
    dsimp only at h
    split at h
    · cases h
    · next hsuspended =>
      obtain rfl := Option.some.inj h
      have hlive : live { s with top := .root } = [.root] := by rw [live, hsuspended]
      have hvalid := hs.valid s.top (.head _)
      refine ⟨hs.root, fun v hv => ?_, fun v hv => ?_, by rw [hlive]; simp, hs.heads⟩
      · obtain rfl : v = .root := by simpa [hlive] using hv
        exact ⟨⟨[], hs.root, rfl⟩, Nat.zero_le _, hvalid.scopes⟩
      · obtain rfl : v = .root := by simpa [hlive] using hv
        exact ⟨rfl, Nat.zero_le _, by simp [View.root]⟩

/-- **The invariant holds in every run.** -/
theorem Inv.run {ops : List Op} {s s' : Session} (hs : Inv s) (h : s.run ops = some s') :
    Inv s' := by
  induction ops generalizing s with
  | nil =>
    obtain rfl := Option.some.inj h
    exact hs
  | cons op ops ih =>
    obtain ⟨s₁, hstep, hrun⟩ := Option.bind_eq_some_iff.mp h
    exact ih (hs.step hstep) hrun

/-! ## Unpacking and subtyping -/

/-- A computation on the cursor in use is a run of operations if it completes. -/
def Scripted {α : Type} (m : CursorM α) : Prop :=
  ∀ ⦃s : Session⦄ ⦃a c⦄, m.run s.cursor = .ok (a, c) →
    ∃ ops s', s.run ops = some s' ∧ s'.cursor = c ∧ s'.suspended = s.suspended

namespace Scripted

variable {α β : Type} {m : CursorM α}

/-- Returning is scripted. -/
lemma pure (a : α) : Scripted (Pure.pure a) := by
  intro s b c h
  cases h
  exact ⟨[], s, rfl, rfl, rfl⟩

/-- Failing is scripted. -/
lemma throw (f : Failure) : Scripted (MonadExcept.throw f : CursorM α) := by
  intro s a c h
  cases h

/-- One step after another is scripted if each is. -/
lemma bind {k : α → CursorM β} (hm : Scripted m) (hk : ∀ a, Scripted (k a)) :
    Scripted (m >>= k) := by
  intro s b c h
  rw [StateT.run_bind] at h
  cases hrun : m.run s.cursor with
  | error f =>
    rw [hrun] at h
    cases h
  | ok p =>
    obtain ⟨a, c₁⟩ := p
    rw [hrun] at h
    change (k a).run c₁ = .ok (b, c) at h
    obtain ⟨ops, s₁, hops, rfl, hsuspended⟩ := hm hrun
    obtain ⟨ops', s₂, hops', hs₂, hsuspended'⟩ := hk a h
    refine ⟨ops ++ ops', s₂, ?_, hs₂, hsuspended'.trans hsuspended⟩
    rw [run_append, hops]
    exact hops'

/-- An operation on a cursor. -/
lemma op (op : CursorOp) : Scripted op.run := by
  intro s a c h
  refine ⟨[.onCursor op], s.after op c, ?_, rfl, rfl⟩
  simp [Session.run, step, h]

/-- Taking a fresh name is scripted. -/
lemma freshName : Scripted Cursor.freshName := by
  intro s x c h
  cases h
  exact ⟨[.onCursor .freshName], _, rfl, rfl, rfl⟩

/-- A snapshot is opened and dropped. -/
lemma snapshot (hm : Scripted m) : Scripted (Cursor.snapshot m) := by
  intro s a c h
  rw [Cursor.snapshot, StateT.run_bind, StateT.run_get, pure_bind, StateT.run_bind] at h
  cases hrun : m.run s.cursor with
  | error f =>
    rw [hrun] at h
    cases h
  | ok p =>
    obtain ⟨b, c₁⟩ := p
    rw [hrun] at h
    cases h
    let s₀ : Session := { s with suspended := s.top :: s.suspended }
    have hrun₀ : m.run s₀.cursor = .ok (b, c₁) := hrun
    obtain ⟨ops, s₁, hops, rfl, hsuspended⟩ := hm hrun₀
    refine ⟨.snapshot :: (ops ++ [.drop]), { s₁ with top := s.top, suspended := s.suspended },
      ?_, rfl, rfl⟩
    show s₀.run (ops ++ [.drop]) = _
    rw [run_append, hops]
    simp [Session.run, step, hsuspended, s₀]

/-- Scripted computations are compositional. -/
lemma compositional : Cursor.Compositional Scripted where
  pure := pure
  throw f _ := throw f
  bind := bind
  snapshot := snapshot
  freshName := freshName
  pushForall x sort p := op (.pushForall x sort p)
  pushHead p := op (.pushHead p)

end Scripted

/-! ## What cursors know -/

/-- A live cursor has as many variables as its path binds, they are the first ones of the builder,
and a new unknown predicate is over them. -/
structure Knows (builder : ConstraintBuilder) (v : View) : Prop where
  path : ∃ ls, builder.root.labelsAt v.node = some ls
  length : (v.vars builder).length = v.nvars
  take : builder.vars.take v.nvars = v.vars builder
  freshKvar : ∀ sort, (Cursor.freshKvar sort).run (v.cursor builder) = .ok
    (.kvar builder.kvars.length
      (.var .bound :: (v.vars builder).map fun x => .var (.free x.1)),
      v.cursor { builder with
        kvars := builder.kvars ++ [sort :: (v.vars builder).map Prod.snd] })

/-- After an operation, the cursors that were suspended are live as they were, with the same path
and the same variables. -/
structure KeepsSuspended (s s' : Session) : Prop where
  live : s.suspended <:+ s'.live
  labels : ∀ v ∈ s.suspended, s'.builder.root.labelsAt v.node = s.builder.root.labelsAt v.node
  vars : ∀ v ∈ s.suspended, s'.builder.vars.take v.nvars = s.builder.vars.take v.nvars

/-- A valid cursor knows its variables. -/
lemma knows_of_valid {builder : ConstraintBuilder} {v : View} (hv : (v.cursor builder).Valid) :
    Knows builder v where
  path := by
    obtain ⟨ls, hls, -⟩ := hv.labels
    exact ⟨ls, hls⟩
  length := by
    rw [vars_eq_take hv]
    exact List.length_take_of_le hv.nvars
  take := (vars_eq_take hv).symm
  freshKvar sort := by
    have hrun := Cursor.run_freshKvarAtScope sort hv.nvars
    rw [vars_eq_take hv]
    exact hrun

/-- The operations leave the suspended cursors alone. -/
lemma Inv.keepsSuspended {s s' : Session} {op : Op} (hs : Inv s) (h : s.step op = some s') :
    KeepsSuspended s s' := by
  cases op with
  | onCursor op =>
    obtain ⟨c, hstep, rfl⟩ := step_onCursor hs h
    refine ⟨List.suffix_cons _ _, fun v hv => ?_, fun v hv => ?_⟩
    · obtain ⟨ls, hls, -⟩ := (hs.valid v (.tail _ hv)).labels
      change s.builder.root.labelsAt v.node = some ls at hls
      rw [hls]
      exact hstep.le.root.labelsAt hls
    · have habove : Above v s.top := List.rel_of_pairwise_cons hs.nested hv
      exact ((le_of_above habove).trans hstep.le).vars
  | snapshot =>
    obtain rfl := Option.some.inj h
    exact ⟨(List.suffix_cons _ _).trans (List.suffix_cons _ _), fun _ _ => rfl, fun _ _ => rfl⟩
  | drop =>
    unfold Session.step at h
    dsimp only at h
    split at h
    · next v suspended hsuspended =>
      obtain rfl := Option.some.inj h
      exact ⟨hsuspended ▸ List.suffix_rfl, fun _ _ => rfl, fun _ _ => rfl⟩
    · cases h
  | asCursor =>
    unfold Session.step at h
    dsimp only at h
    split at h
    · cases h
    · next hsuspended =>
      obtain rfl := Option.some.inj h
      exact ⟨hsuspended ▸ List.nil_suffix, fun _ _ => rfl, fun _ _ => rfl⟩

/-- **Cursors know what is bound above them.** In every run of operations on a new builder, each
live cursor has the variables that are bound on its path, no operation changes what a suspended
cursor sees, and the tree has exactly the heads that were pushed, each below the labels that were
on the path of its cursor. Unpacking and subtyping are such runs.

**Proof sketch.** The invariant says that every live cursor is valid, and that the heads of the
tree are those that were pushed. A step pushes a node below the cursor it is about, which the
paths of the suspended cursors do not lead to, and only adds to the shared stacks above what these
see (`Inv.step`). Unpacking and subtyping are made of such operations (`Scripted.compositional`). -/
theorem run_knows {ops : List Op} {s : Session} (h : start.run ops = some s) :
    (∀ v ∈ s.live, Knows s.builder v) ∧
      (∀ op s', s.step op = some s' → KeepsSuspended s s') ∧
      s.builder.root.heads.Perm s.pushed ∧
      (∀ ty, Scripted (Cursor.unpack ty)) ∧
      ∀ tcx ty1 ty2, Scripted (Cursor.subtyping tcx ty1 ty2) := by
  have hs := inv_start.run h
  exact ⟨fun v hv => knows_of_valid (hs.valid v hv), fun _ _ hstep => hs.keepsSuspended hstep,
    hs.heads, Scripted.compositional.unpack, Scripted.compositional.subtyping⟩

/-- Two heads are pushed, one of them with a snapshot. -/
def twoHeads : List Op :=
  [.onCursor (.pushForall 0 .int (.expr .tt)), .snapshot, .onCursor (.pushGuard .zero),
    .onCursor (.pushHead (.expr .zero)), .drop, .onCursor (.pushHead (.kvar 0 []))]

/-- A script that pushes two heads at different cursors. -/
theorem run_knows_twoHeads : ∃ s, start.run twoHeads = some s ∧ Knows s.builder s.top ∧
    s.builder.root.heads.Perm s.pushed ∧ s.pushed.length = 2 := by
  refine ⟨_, rfl, ?_⟩
  obtain ⟨hknows, -, hheads, -⟩ := run_knows (show start.run twoHeads = some _ from rfl)
  exact ⟨hknows _ (.head _), hheads, rfl⟩

/-! ## The last scope -/

/-- A new unknown predicate at the last scope is over the variables that were bound where a scope
was last opened on the cursor, and these are bound on its path. -/
def AtLastScope (builder : ConstraintBuilder) (v : View) : Prop :=
  ∀ sort, ∃ p c, (Cursor.freshKvarAtLastScope sort).run (v.cursor builder) = .ok (p, c) ∧
    p = .kvar builder.kvars.length (.var .bound :: v.lastMark.map fun x => .var (.free x.1)) ∧
    ∀ x ∈ v.lastMark, x ∈ v.vars builder

/-- The depth of the last scope of a cursor, or 0 if it has none. -/
def ownScope (builder : ConstraintBuilder) (v : View) : ℕ :=
  (builder.scopes.take v.nscopes).getLast?.getD 0

/-- The last mark of a cursor has the variables of its last scope. -/
lemma Marked.lastMark_eq {builder : ConstraintBuilder} {v : View} (h : Marked builder v) :
    v.lastMark = builder.vars.take (ownScope builder v) ∧ ownScope builder v ≤ v.nvars := by
  rw [View.lastMark, h.marks, List.getLast?_map, ownScope]
  cases hlast : (builder.scopes.take v.nscopes).getLast? with
  | none => exact ⟨rfl, Nat.zero_le _⟩
  | some scope => exact ⟨rfl, h.scope_le scope (List.mem_of_getLast? hlast)⟩

/-- **Unknown predicates at the last scope.** In every run of operations on a new builder, one
that is made with a live cursor is over the variables of the last scope of the cursor if and only
if the last entry of the shared stack is as deep as that scope.

**Proof sketch.** The arguments of a new unknown predicate are a part of the shared variables, up
to the last entry of the shared stack. The invariant says which entry is the last scope of a
cursor (`Inv.marked`), and two parts of one length are the same. -/
theorem atLastScope_iff {ops : List Op} {s : Session} (h : start.run ops = some s) {v : View}
    (hv : v ∈ s.live) :
    AtLastScope s.builder v ↔ s.builder.scopes.getLast?.getD 0 = ownScope s.builder v := by
  have hs := inv_start.run h
  have hvalid := hs.valid v hv
  obtain ⟨hmark, hown⟩ := (hs.marked v hv).lastMark_eq
  have hrun : ∀ sort, ∃ c, (Cursor.freshKvarAtLastScope sort).run (v.cursor s.builder) = .ok
      (.kvar s.builder.kvars.length (.var .bound ::
        (s.builder.vars.take (s.builder.scopes.getLast?.getD 0)).map
          fun x => .var (.free x.1)), c) :=
    fun sort => ⟨_, Cursor.run_freshKvarAtScope sort hvalid.lastScope_le⟩
  have hlast : s.builder.scopes.getLast?.getD 0 ≤ s.builder.vars.length := hvalid.lastScope_le
  have hnvars : v.nvars ≤ s.builder.vars.length := hvalid.nvars
  constructor
  · intro hat
    obtain ⟨p, c, hp, rfl, -⟩ := hat .int
    obtain ⟨c', hc'⟩ := hrun .int
    have heq := Except.ok.inj (hp.symm.trans hc')
    simp only [Prod.mk.injEq, Pred.kvar.injEq, List.cons.injEq, true_and] at heq
    have hlen := congrArg List.length heq.1
    rw [hmark, List.length_map, List.length_map, List.length_take, List.length_take] at hlen
    omega
  · intro heq sort
    obtain ⟨c, hc⟩ := hrun sort
    refine ⟨_, c, hc, ?_, fun x hx => ?_⟩
    · rw [heq, hmark]
    · rw [hmark] at hx
      rw [vars_eq_take hvalid]
      exact List.take_subset_take_left _ hown hx

/-- A snapshot opens a scope below a quantifier and is dropped. -/
def staleScope : List Op :=
  [.onCursor .pushScope, .snapshot, .onCursor (.pushForall 0 .int (.expr .tt)),
    .onCursor .pushScope, .drop]

/-- A scope below a quantifier is the last one of its cursor. -/
theorem atLastScope_pushScope : ∃ s, start.run
      [.onCursor (.pushForall 0 .int (.expr .tt)), .onCursor .pushScope] = some s ∧
    AtLastScope s.builder s.top := by
  obtain ⟨s, hs, hscope⟩ : ∃ s, start.run
        [.onCursor (.pushForall 0 .int (.expr .tt)), .onCursor .pushScope] = some s ∧
      s.builder.scopes.getLast?.getD 0 = ownScope s.builder s.top := ⟨_, rfl, rfl⟩
  exact ⟨s, hs, (atLastScope_iff hs (.head _)).mpr hscope⟩

/-- The scope of the snapshot is still the last one for the first cursor. Its variable is not bound
on the path of that cursor. -/
theorem not_atLastScope_stale :
    ∃ s, start.run staleScope = some s ∧ ¬AtLastScope s.builder s.top := by
  refine ⟨_, rfl, fun h => ?_⟩
  obtain ⟨p, c, hp, rfl, -⟩ := h .int
  have heq := Except.ok.inj hp
  have hargs : Pred.kvar 0 [.var .bound, .var (.free 0)] = .kvar 0 [.var .bound] :=
    congrArg Prod.fst heq
  exact absurd hargs (by decide)

end Session

end LiquidRust.Typeck
