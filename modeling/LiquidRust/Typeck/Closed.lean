import LiquidRust.Typeck.Over

set_option relaxedAutoImplicit false
set_option autoImplicit false

/-!
# Closed constraints

A constraint is closed if every name in it is bound on its path. What is pushed at a cursor keeps
the tree closed if its names are in scope there.

## Main definitions

* `LiquidRust.Typeck.Node.Closed` — all names are bound on their paths.
* `LiquidRust.Typeck.Cursor.Tidy` — a valid cursor in a closed tree.
* `LiquidRust.Typeck.Cursor.Emits` — operations that keep this, and whose results are in scope.

## Main results

* `LiquidRust.Typeck.Node.Closed.push` — a node is pushed.
* `LiquidRust.Typeck.Cursor.emits_unpack`, `emits_subtyping` — the obligations for types.
-/

namespace LiquidRust.Typeck

open Lib

/-! ## Trees -/

mutual

/-- **All names of a constraint are bound** on the path to them, or are in `N`. A quantifier binds
its variable in its own predicate, too. -/
def Node.Closed (N : Set Name) : Node → Prop
  | .conj children => Node.ClosedAll N children
  | .forAll x _ p children => p.Over (insert x N) ∧ Node.ClosedAll (insert x N) children
  | .guard e children => e.Over N ∧ Node.ClosedAll N children
  | .head p => p.Over N

/-- Closed children. -/
def Node.ClosedAll (N : Set Name) : List Node → Prop
  | [] => True
  | child :: children => child.Closed N ∧ Node.ClosedAll N children

end

mutual

/-- Whether a node is closed is decidable if the names are. -/
instance Node.decidableClosed (N : Set Name) [DecidablePred (· ∈ N)] :
    (n : Node) → Decidable (n.Closed N)
  | .conj children => Node.decidableClosedAll N children
  | .forAll x _ p children =>
    have : DecidablePred (· ∈ insert x N) := fun y =>
      inferInstanceAs (Decidable (y = x ∨ y ∈ N))
    have := Node.decidableClosedAll (insert x N) children
    inferInstanceAs (Decidable (p.Over (insert x N) ∧ Node.ClosedAll (insert x N) children))
  | .guard e children =>
    have := Node.decidableClosedAll N children
    inferInstanceAs (Decidable (e.Over N ∧ Node.ClosedAll N children))
  | .head p => inferInstanceAs (Decidable (p.Over N))

/-- The same for children. -/
instance Node.decidableClosedAll (N : Set Name) [DecidablePred (· ∈ N)] :
    (children : List Node) → Decidable (Node.ClosedAll N children)
  | [] => .isTrue trivial
  | child :: children =>
    have := Node.decidableClosed N child
    have := Node.decidableClosedAll N children
    inferInstanceAs (Decidable (child.Closed N ∧ Node.ClosedAll N children))

end

/-- The names that the labels on a path bind. -/
def boundNames (ls : List Label) : Set Name :=
  {x | x ∈ (ls.filterMap Label.var).map Prod.fst}

namespace Node

variable {N : Set Name} {n n' node : Node}

/-- Children are closed iff each of them is. -/
lemma closedAll_iff {children : List Node} :
    ClosedAll N children ↔ ∀ child ∈ children, child.Closed N := by
  induction children with
  | nil => simp [ClosedAll]
  | cons child children ih => simp [ClosedAll, ih]

/-- The names of a node itself are bound. -/
def LabelClosed (N : Set Name) : Node → Prop
  | .conj _ => True
  | .forAll x _ p _ => p.Over (insert x N)
  | .guard e _ => e.Over N
  | .head p => p.Over N

/-- A node is closed iff its label is and its new children are under its names. -/
lemma closed_withChildren_iff {cs : List Node} (h : (n.children).isSome) :
    (n.withChildren cs).Closed N ↔
      n.LabelClosed N ∧ ∀ child ∈ cs, child.Closed (N ∪ boundNames n.labels) := by
  cases n with
  | conj children => simp [withChildren, Closed, LabelClosed, closedAll_iff, labels, boundNames]
  | guard e children =>
    simp [withChildren, Closed, LabelClosed, closedAll_iff, labels, boundNames, Label.var]
  | forAll x sort p children =>
    simp [withChildren, Closed, LabelClosed, closedAll_iff, labels, boundNames, Label.var]
  | head p => exact absurd h (by simp [children])

/-- A node is closed iff its label is and its children are under its names. -/
lemma closed_iff {cs : List Node} (h : n.children = some cs) :
    n.Closed N ↔ n.LabelClosed N ∧ ∀ child ∈ cs, child.Closed (N ∪ boundNames n.labels) := by
  have hn : n.withChildren cs = n := by
    cases n with
    | head p => exact nomatch h
    | _ =>
      obtain rfl := Option.some.inj h
      rfl
  rw [← closed_withChildren_iff (by simp [h]), hn]

/-- **A node is pushed** whose names are bound on the path to it. -/
theorem Closed.push {path : List ℕ} {ls : List Label} {k : ℕ} (h : n.Closed N)
    (hls : n.labelsAt path = some ls) (hnode : node.Closed (N ∪ boundNames ls))
    (hpush : push node n path = some (n', k)) : n'.Closed N := by
  induction path generalizing n n' N ls with
  | nil =>
    obtain ⟨cs, hcs, rfl, rfl⟩ := push_nil_eq_some.mp hpush
    have hlabels : ls = n.labels := by simpa [labelsAt, hcs] using hls.symm
    obtain ⟨hlabel, hchildren⟩ := (closed_iff hcs).mp h
    refine (closed_withChildren_iff (by simp [hcs])).mpr ⟨hlabel, fun child hchild => ?_⟩
    rcases List.mem_append.mp hchild with hchild | hchild
    · exact hchildren child hchild
    · rw [List.mem_singleton.mp hchild, ← hlabels]
      exact hnode
  | cons i path ih =>
    obtain ⟨cs, c, c', hcs, hc, hpush', rfl⟩ := push_cons_eq_some.mp hpush
    obtain ⟨cs', d, ls', hcs', hd, hls', rfl⟩ := labelsAt_cons_eq_some.mp hls
    cases hcs.symm.trans hcs'
    cases hc.symm.trans hd
    obtain ⟨hlabel, hchildren⟩ := (closed_iff hcs).mp h
    refine (closed_withChildren_iff (by simp [hcs])).mpr ⟨hlabel, fun child hchild => ?_⟩
    rcases List.mem_or_eq_of_mem_set hchild with hchild | rfl
    · exact hchildren child hchild
    · refine ih (hchildren c (List.mem_of_getElem? hc)) hls' ?_ hpush'
      have hnames : boundNames (n.labels ++ ls') = boundNames n.labels ∪ boundNames ls' := by
        ext x
        simp [boundNames]
      rwa [hnames, ← Set.union_assoc] at hnode

end Node

namespace Cursor

/-! ## Cursors in closed trees -/

/-- **A valid cursor in a closed tree.** -/
structure Tidy (c : Cursor) : Prop extends c.Valid where
  closed : c.builder.root.Closed ∅

variable {c c' : Cursor} {α β : Type}

/-- The variables in scope are those that the path binds. -/
lemma Valid.scope_eq (hc : c.Valid) {ls : List Label}
    (hls : c.builder.root.labelsAt c.node = some ls) : c.scope = boundNames ls := by
  obtain ⟨ls', hls', hvars⟩ := hc.labels
  obtain rfl := Option.some.inj (hls.symm.trans hls')
  rw [scope, ← hvars, boundNames]

/-- Variables stay in scope. -/
lemma Le.scope (h : c.Le c') : c.scope ⊆ c'.scope := by
  intro x hx
  rw [Cursor.scope, Set.mem_ofPred_eq, ← h.vars] at hx
  obtain ⟨v, hv, rfl⟩ := List.mem_map.mp hx
  refine List.mem_map.mpr ⟨v, ?_, rfl⟩
  have htake := List.take_take (i := c.nvars) (j := c'.nvars) (l := c'.builder.vars)
  rw [min_eq_left h.nvars] at htake
  exact List.mem_of_mem_take (htake.symm ▸ hv)

/-- A quiet operation keeps the cursor tidy. -/
lemma Quiet.tidy (h : c.Quiet c') (hc : c.Tidy) : c'.Tidy :=
  ⟨h.valid hc.toValid, h.root ▸ hc.closed⟩

/-- Going back to an earlier position keeps the cursor tidy. -/
lemma Le.tidy_restore (h : c.Le c') (hc : c.Tidy) (hc' : c'.Tidy) :
    Tidy { c with builder := c'.builder } :=
  ⟨h.valid_restore hc.toValid hc'.toValid, hc'.closed⟩

/-- **Operations that keep the tree closed**, with a result that meets `R` in the new scope. -/
def Emits (R : Set Name → α → Prop) (m : CursorM α) (c : Cursor) : Prop :=
  wp m (fun a c' => c'.Tidy ∧ c.Le c' ∧ R c'.scope a) (fun _ => True) c

/-- Results that do not matter. -/
abbrev AnyResult {α : Type} : Set Name → α → Prop :=
  fun _ _ => True

namespace Emits

variable {R : Set Name → α → Prop} {S : Set Name → β → Prop} {m : CursorM α}

/-- Returning emits nothing. -/
lemma pure {a : α} (hc : c.Tidy) (h : R c.scope a) : Emits R (Pure.pure a) c :=
  ⟨hc, .refl c, h⟩

/-- Failing emits nothing. -/
lemma throw {f : Failure} : Emits R (MonadExcept.throw f) c :=
  trivial

/-- One step after another emits closed nodes if each does. -/
lemma bind {k : α → CursorM β} (hm : Emits R m c)
    (hk : ∀ a c', c'.Tidy → c.Le c' → R c'.scope a → Emits S (k a) c') :
    Emits S (m >>= k) c := by
  rw [Emits, wp_bind]
  refine wp_imp hm fun a c' ⟨hc', hle, ha⟩ => ?_
  exact wp_imp (hk a c' hc' hle ha) fun b c'' ⟨hc'', hle', hb⟩ => ⟨hc'', hle.trans hle', hb⟩

/-- Lifting a result emits nothing. -/
lemma ofExcept {x : Except Failure α} (hc : c.Tidy)
    (h : post x (R c.scope) (fun _ => True)) : Emits R (Typeck.ofExcept x) c := by
  rw [Emits, wp_ofExcept]
  exact post_mono h (fun _ ha => ⟨hc, .refl c, ha⟩) fun _ h => h

/-- Opening an option emits nothing. -/
lemma orFail {f : Failure} {o : Option α} (hc : c.Tidy) (h : ∀ a, o = some a → R c.scope a) :
    Emits R (Typeck.orFail f o) c := by
  rw [Emits, wp_orFail]
  exact ⟨fun a ha => ⟨hc, .refl c, h a ha⟩, fun _ => trivial⟩

/-- Steps that push no node. -/
lemma quiet (hc : c.Tidy) (h : wp m (fun a c' => R c.scope a ∧ c.Quiet c') (fun _ => True) c) :
    Emits R m c :=
  wp_imp h fun _ _ ⟨ha, hq⟩ => ⟨hq.tidy hc, hq.le, hq.scope ▸ ha⟩

/-- A snapshot emits closed nodes if what runs in it does. -/
lemma snapshot (hc : c.Tidy) (hm : Emits AnyResult m c) :
    Emits AnyResult (Cursor.snapshot m) c := by
  rw [Emits, wp_snapshot]
  exact wp_imp hm fun _ c' ⟨hc', hle, _⟩ => ⟨hle.tidy_restore hc hc', hle.restore, trivial⟩

/-- A fold emits closed nodes if each of its steps does. -/
lemma foldlM {γ : Type} {k : β → γ → CursorM β} {l : List γ} {b : β} (hc : c.Tidy)
    (hb : S c.scope b) (hk : ∀ a ∈ l, ∀ b c', c'.Tidy → c.Le c' → S c'.scope b →
      Emits S (k b a) c') : Emits S (l.foldlM k b) c := by
  induction l generalizing b c with
  | nil => exact pure hc hb
  | cons a l ih =>
    refine (hk a (.head _) b c hc (.refl c) hb).bind fun b c' hc' hle hb' => ?_
    exact ih hc' hb' fun a ha b c'' hc'' hle' hb'' =>
      hk a (.tail _ ha) b c'' hc'' (hle.trans hle') hb''

/-- A loop emits closed nodes if each of its steps does. -/
lemma forM {γ : Type} {k : γ → CursorM PUnit} {l : List γ} (hc : c.Tidy)
    (hk : ∀ a ∈ l, ∀ c', c'.Tidy → c.Le c' → Emits AnyResult (k a) c') :
    Emits AnyResult (l.forM k) c := by
  induction l generalizing c with
  | nil => exact pure hc trivial
  | cons a l ih =>
    refine (hk a (.head _) c hc (.refl c)).bind fun _ c' hc' hle _ => ?_
    exact ih hc' fun a ha c'' hc'' hle' => hk a (.tail _ ha) c'' hc'' (hle.trans hle')

/-- A map emits closed nodes if each of its steps does. -/
lemma mapM {γ : Type} {k : γ → CursorM β} {l : List γ} (hc : c.Tidy)
    (hmono : ∀ {N N' b}, N ⊆ N' → S N b → S N' b)
    (hk : ∀ a ∈ l, ∀ c', c'.Tidy → c.Le c' → Emits S (k a) c') :
    Emits (fun N bs => ∀ b ∈ bs, S N b) (l.mapM k) c := by
  induction l generalizing c with
  | nil => exact pure hc fun _ h => nomatch h
  | cons a l ih =>
    rw [List.mapM_cons]
    refine (hk a (.head _) c hc (.refl c)).bind fun b c' hc' hle hb => ?_
    refine (ih hc' fun a ha c'' hc'' hle' =>
      hk a (.tail _ ha) c'' hc'' (hle.trans hle')).bind fun bs c'' hc'' hle' hbs => ?_
    exact pure hc'' (List.forall_mem_cons.mpr ⟨hmono hle'.scope hb, hbs⟩)

end Emits

/-! ## The builder -/

/-- An assertion emits nothing. -/
lemma emits_assert (hc : c.Tidy) (b : Bool) : Emits AnyResult (Cursor.assert b) c := by
  unfold Cursor.assert
  split
  · exact .pure hc trivial
  · exact .throw

/-- A node without children is pushed whose names are in scope. -/
lemma wp_pushNode_closed {node : Node} (hc : c.Tidy) (hnode : node.Closed c.scope) :
    wp (pushNode node) (fun _ c' => c'.builder.root.Closed ∅) (fun _ => True) c := by
  refine wp_pushNode (fun root i hpush => ?_) fun _ => trivial
  obtain ⟨ls, hls, -⟩ := hc.labels
  rw [hc.toValid.scope_eq hls] at hnode
  exact hc.closed.push hls (by rwa [Set.empty_union]) hpush

/-- Pushing a closed node that binds no name. -/
lemma emits_pushNode {node : Node} (hvar : node.labels.filterMap Label.var = []) (hc : c.Tidy)
    (hnode : node.Closed c.scope) : Emits AnyResult (pushNode node) c := by
  refine wp_mono (wp_and (wp_pushNode_of_var_nil hvar c) (wp_pushNode_closed hc hnode)) ?_
    fun _ _ => trivial
  rintro _ c' ⟨h, hclosed⟩
  obtain ⟨hc', hle⟩ := h hc.toValid
  exact ⟨⟨hc', hclosed⟩, hle, trivial⟩

/-- Pushing a head over the names in scope. -/
lemma emits_pushHead {p : Pred} (hc : c.Tidy) (hp : p.Over c.scope) :
    Emits AnyResult (pushHead p) c := by
  unfold pushHead
  split
  · exact .pure hc trivial
  · exact emits_pushNode rfl hc hp

/-- Pushing a guard over the names in scope. -/
lemma emits_pushGuard {e : Expr} (hc : c.Tidy) (he : e.Over c.scope) :
    Emits AnyResult (pushGuard e) c :=
  emits_pushNode rfl hc ⟨he, trivial⟩

/-- Pushing a scope emits nothing. -/
lemma emits_pushScope (hc : c.Tidy) : Emits AnyResult pushScope c := by
  have hroot : wp pushScope (fun _ c' => c'.builder.root = c.builder.root) (fun _ => True) c := rfl
  refine wp_mono (wp_and (Safe.pushScope c) hroot) (fun _ c' ⟨h, hroot⟩ => ?_) fun _ _ => trivial
  obtain ⟨hc', hle⟩ := h hc.toValid
  exact ⟨⟨hc', hroot ▸ hc.closed⟩, hle, trivial⟩

/-- A variable is bound, and its predicate may speak of it. -/
lemma emits_pushForall {x : Name} {sort : Srt} {p : Pred} (hc : c.Tidy)
    (hp : p.Over (insert x c.scope)) : Emits (fun N _ => x ∈ N) (pushForall x sort p) c := by
  have hclosed : wp (pushForall x sort p)
      (fun _ c' => c'.builder.root.Closed ∅ ∧ x ∈ c'.scope) (fun _ => True) c := by
    rw [pushForall, wp_bind]
    refine wp_pushNode (fun root i hpush => ?_) fun _ => trivial
    obtain ⟨ls, hls, -⟩ := hc.labels
    rw [hc.toValid.scope_eq hls] at hp
    have hnode : (Node.forAll x sort p []).Closed (∅ ∪ boundNames ls) := by
      rw [Set.empty_union]
      exact ⟨hp, trivial⟩
    rw [pushVar, wp_modify]
    refine ⟨hc.closed.push hls hnode hpush, ?_⟩
    obtain ⟨-, hlast, -⟩ := take_setOrPush (x, sort) hc.nvars
    exact List.mem_map.mpr ⟨(x, sort), hlast ▸ by simp, rfl⟩
  refine wp_mono (wp_and (wp_pushForall x sort p c) hclosed) ?_ fun _ _ => trivial
  rintro _ c' ⟨h, hclosed, hx⟩
  obtain ⟨hc', hle⟩ := h hc.toValid
  exact ⟨⟨hc', hclosed⟩, hle, hx⟩

/-- A fresh name emits nothing. -/
lemma emits_freshName (hc : c.Tidy) : Emits AnyResult freshName c :=
  .quiet hc ⟨trivial, rfl, rfl, rfl, rfl, rfl, Nat.le_succ _⟩

/-- **A type is unpacked**: its index is a variable in scope. -/
lemma emits_unpack {L : Set Loc} {ty : Ty} (hc : c.Tidy) (hty : ty.Over c.scope L) :
    Emits (fun N ty => ty.Over N L) (Cursor.unpack ty) c := by
  cases ty with
  | exists_ bty p =>
    refine (emits_freshName hc).bind fun x c' hc' hle _ => ?_
    have hp : (p.substBoundVars (.var (.free x))).Over (insert x c'.scope) :=
      (hty.2.mono (hle.scope.trans (Set.subset_insert x _))).substBoundVars
        (Set.mem_insert x _)
    refine (emits_pushForall hc' hp).bind fun _ c'' hc'' hle' hx => ?_
    exact .pure hc'' ⟨bty.over_mono (hle.scope.trans hle'.scope) le_rfl hty.1, hx⟩
  | _ => exact .pure hc hty

/-! ## Subtyping -/

section Subtyping

variable (tcx : Tcx) {sub : Ty → Ty → CursorM Unit} {L : Set Loc}

/-- A comparison that keeps the tree closed, for types whose names are in scope. -/
def EmitsSub (L : Set Loc) (sub : Ty → Ty → CursorM Unit) : Prop :=
  ∀ {ty1 ty2 c}, c.Tidy → ty1.Over c.scope L → ty2.Over c.scope L →
    Emits AnyResult (sub ty1 ty2) c

/-- Subtyping of type arguments emits closed nodes if that of types does. -/
lemma emits_substsSubtyping (hsub : EmitsSub L sub) {variances : List Variance}
    {substs1 substs2 : Substs} {c : Cursor} (hc : c.Tidy) (h1 : substs1.Over c.scope L)
    (h2 : substs2.Over c.scope L) :
    Emits AnyResult (substsSubtyping sub variances substs1 substs2) c := by
  induction variances generalizing substs1 substs2 c with
  | nil => exact .pure hc trivial
  | cons variance variances ih =>
    cases substs1 with
    | nil => exact .pure hc trivial
    | cons ty1 substs1 =>
      cases substs2 with
      | nil => exact .pure hc trivial
      | cons ty2 substs2 =>
        have hrest : ∀ c' : Cursor, c'.Tidy → c.Le c' →
            Emits AnyResult (substsSubtyping sub variances substs1 substs2) c' :=
          fun c' hc' hle => ih hc' (substs1.over_mono hle.scope le_rfl h1.2)
            (substs2.over_mono hle.scope le_rfl h2.2)
        cases variance with
        | covariant => exact (hsub hc h1.1 h2.1).bind fun _ c' hc' hle _ => hrest c' hc' hle
        | invariant =>
          refine (hsub hc h1.1 h2.1).bind fun _ c' hc' hle _ => ?_
          refine (hsub hc' (h2.1.mono hle.scope le_rfl) (h1.1.mono hle.scope le_rfl)).bind
            fun _ c'' hc'' hle' _ => ?_
          exact hrest c'' hc'' (hle.trans hle')
        | contravariant => exact (hsub hc h2.1 h1.1).bind fun _ c' hc' hle _ => hrest c' hc' hle
        | bivariant => exact hrest c hc (.refl c)

/-- Subtyping of base types emits closed nodes if that of types does. -/
lemma emits_btySubtyping (hsub : EmitsSub L sub) {bty1 bty2 : BaseTy} {c : Cursor} (hc : c.Tidy)
    (h1 : bty1.Over c.scope L) (h2 : bty2.Over c.scope L) :
    Emits AnyResult (btySubtyping tcx sub bty1 bty2) c := by
  unfold btySubtyping
  split
  · exact emits_assert hc _
  · exact emits_assert hc _
  · exact .pure hc trivial
  · next did1 substs1 did2 substs2 =>
    refine (emits_assert hc _).bind fun _ c' hc' hle _ => ?_
    refine (emits_assert hc' _).bind fun _ c'' hc'' hle' _ => ?_
    have hscope := (hle.trans hle').scope
    exact emits_substsSubtyping hsub hc'' (substs1.over_mono hscope le_rfl h1)
      (substs2.over_mono hscope le_rfl h2)
  · exact .throw

/-- Subtyping of unpacked types emits closed nodes if that of types does. -/
lemma emits_unpackedSubtyping (hsub : EmitsSub L sub) {ty1 ty2 : Ty} {c : Cursor} (hc : c.Tidy)
    (h1 : ty1.Over c.scope L) (h2 : ty2.Over c.scope L) :
    Emits AnyResult (unpackedSubtyping tcx sub ty1 ty2) c := by
  unfold unpackedSubtyping
  split
  · refine (emits_btySubtyping tcx hsub hc h1.1 h2.1).bind fun _ c' hc' hle _ => ?_
    exact emits_pushHead hc' ⟨h1.2.mono hle.scope, h2.2.mono hle.scope⟩
  · refine (emits_btySubtyping tcx hsub hc h1.1 h2.1).bind fun _ c' hc' hle _ => ?_
    have he := h1.2.mono hle.scope
    exact emits_pushHead hc' (((h2.2.mono hle.scope).substBoundVars he).substBoundVars he)
  · exact emits_assert hc _
  · exact .pure hc trivial
  · exact emits_assert hc _
  · exact .throw

/-- Subtyping emits closed nodes, at any depth. -/
lemma emits_subtypingN (n : ℕ) : EmitsSub L (subtypingN tcx n) := by
  induction n with
  | zero => exact fun _ _ _ => .throw
  | succ n ih =>
    intro ty1 ty2 c hc h1 h2
    have hunpacked : Emits AnyResult (Cursor.unpack ty1 >>= fun ty1 =>
        unpackedSubtyping tcx (subtypingN tcx n) ty1 ty2) c :=
      (emits_unpack hc h1).bind fun ty1 c' hc' hle h1' =>
        emits_unpackedSubtyping tcx ih hc' h1' (h2.mono hle.scope le_rfl)
    unfold subtypingN
    refine .snapshot hc ?_
    dsimp only
    split
    · split
      · exact emits_btySubtyping tcx ih hc h1.1 h2.1
      · exact hunpacked
    · split
      · exact emits_btySubtyping tcx ih hc h1.1 h2.1
      · exact hunpacked
    · exact hunpacked

/-- **The obligations for types** whose names are in scope. -/
theorem emits_subtyping : EmitsSub L (Cursor.subtyping tcx) :=
  emits_subtypingN tcx _

end Subtyping

end Cursor

end LiquidRust.Typeck
