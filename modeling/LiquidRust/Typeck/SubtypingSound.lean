import LiquidRust.Typeck.Subtyping

set_option relaxedAutoImplicit false
set_option autoImplicit false

/-!
# The obligations of subtyping

When the subtyping of the checker completes, it has pushed nodes where its cursor is. They are true
iff what the comparison asks for is, so their truth implies subtyping. Obligations that are left
out are trivial, and what is pushed below a quantifier speaks of every index that the first type
can have.

## Main definitions

* `LiquidRust.Typeck.Node.append` — nodes become the last children of the node at a path.
* `LiquidRust.Typeck.Cursor.Obliges` — what the nodes say that an operation pushes.

## Main results

* `LiquidRust.Typeck.Cursor.obliges_subtyping` — the nodes say what the comparison asks for.
* `LiquidRust.Typeck.Cursor.subtyping_sound` — subtyping is sound.
-/

namespace LiquidRust.Typeck

open Lib

/-! ## Nodes at a path -/

namespace Node

/-- More last children of the node at a path. -/
def append (nodes : List Node) : Node → List ℕ → Option Node
  | n, [] => do
    let cs ← n.children
    pure (n.withChildren (cs ++ nodes))
  | n, i :: path => do
    let cs ← n.children
    let c ← cs[i]?
    let c ← append nodes c path
    pure (n.withChildren (cs.set i c))

/-- Appending at a node puts the new nodes after its children. -/
lemma append_nil_eq_some {nodes : List Node} {n n' : Node} :
    append nodes n [] = some n' ↔ ∃ cs, n.children = some cs ∧
      n' = n.withChildren (cs ++ nodes) := by
  simp only [append, Option.bind_eq_bind, Option.bind_eq_some_iff, Option.pure_def,
    Option.some.injEq]
  exact exists_congr fun cs => and_congr_right fun _ => eq_comm

/-- Appending below a node appends below its child. -/
lemma append_cons_eq_some {nodes : List Node} {n n' : Node} {i : ℕ} {path : List ℕ} :
    append nodes n (i :: path) = some n' ↔ ∃ cs c c', n.children = some cs ∧
      cs[i]? = some c ∧ append nodes c path = some c' ∧ n' = n.withChildren (cs.set i c') := by
  simp only [append, Option.bind_eq_bind, Option.bind_eq_some_iff, Option.pure_def,
    Option.some.injEq]
  constructor
  · rintro ⟨cs, hcs, c, hc, c', hc', rfl⟩
    exact ⟨cs, c, c', hcs, hc, hc', rfl⟩
  · rintro ⟨cs, c, c', hcs, hc, hc', rfl⟩
    exact ⟨cs, hcs, c, hc, c', hc', rfl⟩

/-- A node with its own children is itself. -/
lemma withChildren_children {n : Node} {cs : List Node} (h : n.children = some cs) :
    n.withChildren cs = n := by
  cases n with
  | head p => cases h
  | _ =>
    obtain rfl := Option.some.inj h
    rfl

/-- The last children given are those it has. -/
@[simp] lemma withChildren_withChildren (n : Node) (cs cs' : List Node) :
    (n.withChildren cs).withChildren cs' = n.withChildren cs' := by
  cases n <;> rfl

/-- Nothing is appended. -/
lemma append_of_nil {n : Node} {path : List ℕ} {ls : List Label} (h : labelsAt n path = some ls) :
    append [] n path = some n := by
  induction path generalizing n ls with
  | nil =>
    obtain ⟨cs, hcs, -⟩ := Option.map_eq_some_iff.mp h
    exact append_nil_eq_some.mpr ⟨cs, hcs, by rw [List.append_nil, withChildren_children hcs]⟩
  | cons i path ih =>
    obtain ⟨cs, c, ls', hcs, hc, hls', -⟩ := labelsAt_cons_eq_some.mp h
    refine append_cons_eq_some.mpr ⟨cs, c, c, hcs, hc, ih hls', ?_⟩
    obtain ⟨hi, rfl⟩ := List.getElem?_eq_some_iff.mp hc
    rw [List.set_getElem_self, withChildren_children hcs]

/-- Nodes are appended twice. -/
lemma append_append {nodes nodes' : List Node} {n n₁ n₂ : Node} {path : List ℕ}
    (h : append nodes n path = some n₁) (h' : append nodes' n₁ path = some n₂) :
    append (nodes ++ nodes') n path = some n₂ := by
  induction path generalizing n n₁ n₂ with
  | nil =>
    obtain ⟨cs, hcs, rfl⟩ := append_nil_eq_some.mp h
    obtain ⟨cs', hcs', rfl⟩ := append_nil_eq_some.mp h'
    rw [children_withChildren hcs] at hcs'
    obtain rfl := Option.some.inj hcs'
    exact append_nil_eq_some.mpr ⟨cs, hcs, by simp⟩
  | cons i path ih =>
    obtain ⟨cs, c, c₁, hcs, hc, hc₁, rfl⟩ := append_cons_eq_some.mp h
    obtain ⟨cs', d, c₂, hcs', hd, hc₂, rfl⟩ := append_cons_eq_some.mp h'
    rw [children_withChildren hcs] at hcs'
    obtain rfl := Option.some.inj hcs'
    have hi := (List.getElem?_eq_some_iff.mp hc).1
    obtain rfl : c₁ = d := by simpa [hi] using hd
    exact append_cons_eq_some.mpr ⟨cs, c, c₂, hcs, hc, ih hc₁ hc₂, by simp⟩

/-- What is appended can be read off. -/
lemma append_inj {nodes nodes' : List Node} {n n' : Node} {path : List ℕ}
    (h : append nodes n path = some n') (h' : append nodes' n path = some n') :
    nodes = nodes' := by
  induction path generalizing n n' with
  | nil =>
    obtain ⟨cs, hcs, rfl⟩ := append_nil_eq_some.mp h
    obtain ⟨cs', hcs', heq⟩ := append_nil_eq_some.mp h'
    obtain rfl := Option.some.inj (hcs.symm.trans hcs')
    have hchildren := congrArg children heq
    rw [children_withChildren hcs, children_withChildren hcs] at hchildren
    exact List.append_cancel_left (Option.some.inj hchildren)
  | cons i path ih =>
    obtain ⟨cs, d, d', hcs, hd, hd', rfl⟩ := append_cons_eq_some.mp h
    obtain ⟨cs', e, e', hcs', he, he', heq⟩ := append_cons_eq_some.mp h'
    obtain rfl := Option.some.inj (hcs.symm.trans hcs')
    obtain rfl := Option.some.inj (hd.symm.trans he)
    have hchildren := congrArg children heq
    rw [children_withChildren hcs, children_withChildren hcs] at hchildren
    have hset := congrArg (·[i]?) (Option.some.inj hchildren)
    have hi := (List.getElem?_eq_some_iff.mp hd).1
    simp only [List.getElem?_set_self hi, Option.some.injEq] at hset
    exact ih hd' (hset ▸ he')

/-- Pushing a node appends it. -/
lemma append_of_push {node n n' : Node} {path : List ℕ} {k : ℕ}
    (h : push node n path = some (n', k)) : append [node] n path = some n' := by
  induction path generalizing n n' with
  | nil =>
    obtain ⟨cs, hcs, rfl, -⟩ := push_nil_eq_some.mp h
    exact append_nil_eq_some.mpr ⟨cs, hcs, rfl⟩
  | cons i path ih =>
    obtain ⟨cs, c, c', hcs, hc, hpush, rfl⟩ := push_cons_eq_some.mp h
    exact append_cons_eq_some.mpr ⟨cs, c, c', hcs, hc, ih hpush, rfl⟩

/-- Nodes are appended to a new node. -/
lemma append_below_push {node n n₁ n₂ : Node} {nodes : List Node} {path : List ℕ} {k : ℕ}
    (hnode : node.children = some []) (h : push node n path = some (n₁, k))
    (h' : append nodes n₁ (path ++ [k]) = some n₂) :
    append [node.withChildren nodes] n path = some n₂ := by
  induction path generalizing n n₁ n₂ with
  | nil =>
    obtain ⟨cs, hcs, rfl, rfl⟩ := push_nil_eq_some.mp h
    obtain ⟨cs', c, c', hcs', hc, hc', rfl⟩ := append_cons_eq_some.mp h'
    rw [children_withChildren hcs] at hcs'
    obtain rfl := Option.some.inj hcs'
    obtain rfl : node = c := by simpa using hc
    obtain ⟨ds, hds, rfl⟩ := append_nil_eq_some.mp hc'
    obtain rfl := Option.some.inj (hnode.symm.trans hds)
    exact append_nil_eq_some.mpr ⟨cs, hcs, by simp⟩
  | cons i path ih =>
    obtain ⟨cs, c, c₁, hcs, hc, hpush, rfl⟩ := push_cons_eq_some.mp h
    obtain ⟨cs', d, c₂, hcs', hd, hc₂, rfl⟩ := append_cons_eq_some.mp h'
    rw [children_withChildren hcs] at hcs'
    obtain rfl := Option.some.inj hcs'
    have hi := (List.getElem?_eq_some_iff.mp hc).1
    obtain rfl : c₁ = d := by simpa [hi] using hd
    exact append_cons_eq_some.mpr ⟨cs, c, c₂, hcs, hc, ih hpush hc₂, by simp⟩

end Node

namespace Cursor

/-- **What an operation pushes**: the cursor is where it was with the variables and the scopes that
it had, and the nodes are new children there. -/
structure Appends (c c' : Cursor) (nodes : List Node) : Prop where
  valid : c'.Valid
  le : c.Le c'
  root : Node.append nodes c.builder.root c.node = some c'.builder.root
  node : c'.node = c.node
  nscopes : c'.nscopes = c.nscopes
  nvars : c'.nvars = c.nvars
  scopes : c'.builder.scopes = c.builder.scopes

/-- **The obligations of an operation**: if it completes, the nodes that it pushes are true iff `P`
holds. -/
def Obliges (P : Interp → Valuation → Prop) (m : CursorM Unit) (c : Cursor) : Prop :=
  wp m (fun _ c' => ∃ nodes, c.Appends c' nodes ∧
    ∀ I ρ, Node.AllHold I ρ nodes ↔ P I ρ) (fun _ => True) c

/-- Nothing is pushed. -/
lemma Appends.nil {c : Cursor} (hc : c.Valid) : c.Appends c [] := by
  obtain ⟨ls, hls, -⟩ := hc.labels
  exact ⟨hc, .refl c, Node.append_of_nil hls, rfl, rfl, rfl, rfl⟩

/-- One appending after another. -/
lemma Appends.trans {c c' c'' : Cursor} {nodes nodes' : List Node} (h : c.Appends c' nodes)
    (h' : c'.Appends c'' nodes') : c.Appends c'' (nodes ++ nodes') where
  valid := h'.valid
  le := h.le.trans h'.le
  root := Node.append_append h.root (h.node ▸ h'.root)
  node := h'.node.trans h.node
  nscopes := h'.nscopes.trans h.nscopes
  nvars := h'.nvars.trans h.nvars
  scopes := h'.scopes.trans h.scopes

section Obliges

variable {P Q : Interp → Valuation → Prop} {m : CursorM Unit} {c : Cursor}

/-- An equivalent property is obliged too. -/
lemma Obliges.congr (h : Obliges P m c) (hPQ : ∀ I ρ, P I ρ ↔ Q I ρ) : Obliges Q m c :=
  wp_imp h fun _ _ ⟨nodes, happ, hP⟩ => ⟨nodes, happ, fun I ρ => (hP I ρ).trans (hPQ I ρ)⟩

/-- Failing obliges anything. -/
lemma Obliges.throw {f : Failure} : Obliges P (MonadExcept.throw f) c :=
  trivial

/-- Nothing is pushed for what is true. -/
lemma Obliges.pure (hc : c.Valid) (hP : ∀ I ρ, P I ρ) : Obliges P (Pure.pure ()) c :=
  ⟨[], .nil hc, fun I ρ => iff_of_true trivial (hP I ρ)⟩

/-- One step after another obliges what both do. -/
lemma Obliges.bind {k : Unit → CursorM Unit} (hm : Obliges P m c)
    (hk : ∀ c', c'.Valid → c.builder.nameGen ≤ c'.builder.nameGen → Obliges Q (k ()) c') :
    Obliges (fun I ρ => P I ρ ∧ Q I ρ) (m >>= k) c := by
  rw [Obliges, wp_bind]
  refine wp_imp hm fun _ c' ⟨nodes, happ, hP⟩ => ?_
  refine wp_imp (hk c' happ.valid happ.le.nameGen) fun _ c'' ⟨nodes', happ', hQ⟩ => ?_
  refine ⟨nodes ++ nodes', happ.trans happ', fun I ρ => ?_⟩
  rw [Node.allHold_append, hP, hQ]

/-- An assertion obliges its condition. -/
lemma Obliges.assert (hc : c.Valid) (b : Bool) :
    Obliges (fun _ _ => b = true) (Cursor.assert b) c := by
  unfold Cursor.assert
  split
  · next hb => exact .pure hc fun _ _ => hb
  · exact .throw

/-- Pushing a head obliges it. -/
lemma Obliges.pushHead (hc : c.Valid) (p : Pred) :
    Obliges (fun I ρ => p.Holds I ρ) (Cursor.pushHead p) c := by
  unfold Cursor.pushHead
  split
  · next htrue => exact .pure hc fun _ _ => Pred.holds_of_isTrue htrue
  · have hroot : wp (pushNode (.head p)) (fun _ c' => c.Frame c' → c.Appends c' [.head p])
        (fun _ => True) c := by
      refine wp_pushNode (fun root i hpush hframe => ?_) fun _ => trivial
      obtain ⟨hc', hle⟩ := hframe hc
      exact ⟨hc', hle, Node.append_of_push hpush, rfl, rfl, rfl, rfl⟩
    refine wp_mono (wp_and (wp_pushNode_head p c) hroot)
      (fun _ c' ⟨hframe, happ⟩ => ?_) fun _ _ => trivial
    exact ⟨[.head p], happ hframe, fun I ρ => and_iff_left trivial⟩

/-- A snapshot of an operation that ends where it began. -/
lemma Obliges.snapshot (hm : Obliges P m c) : Obliges P (Cursor.snapshot m) c := by
  rw [Obliges, wp_snapshot]
  refine wp_imp hm fun _ c' ⟨nodes, happ, hP⟩ => ⟨nodes, ?_, hP⟩
  have hc' : { c with builder := c'.builder } = c' := by
    obtain ⟨builder, node, nscopes, nvars⟩ := c'
    rw [show node = c.node from happ.node, show nscopes = c.nscopes from happ.nscopes,
      show nvars = c.nvars from happ.nvars]
  rwa [hc']

/-- **A type is unpacked in a snapshot**: what follows is an obligation for every index. -/
lemma Obliges.unpack {bty : BaseTy} {p : Pred} {k : Ty → CursorM Unit} (hc : c.Valid)
    (hk : ∀ c' : Cursor, c'.Valid → c.builder.nameGen < c'.builder.nameGen →
      Obliges Q (k (.refine bty (.var (.free c.builder.nameGen)))) c') :
    Obliges (fun I ρ => ∀ v : Val, v.sort = bty.sort →
        (p.substBoundVars (.var (.free c.builder.nameGen))).Holds I (ρ.set c.builder.nameGen v) →
        Q I (ρ.set c.builder.nameGen v))
      (Cursor.snapshot (Cursor.unpack (.exists_ bty p) >>= k)) c := by
  let x := c.builder.nameGen
  let c₀ : Cursor := { c with builder := { c.builder with nameGen := x + 1 } }
  have hc₀ : c₀.Valid := hc.withNameGen _
  have hle₀ : c.Le c₀ := ⟨.refl, Nat.le_succ _, List.prefix_rfl, le_rfl, rfl⟩
  -- the quantifier that is pushed, and the cursor below it
  have hpush : wp (Cursor.pushForall x bty.sort (p.substBoundVars (.var (.free x))))
      (fun _ c₁ => c₁.builder.scopes = c.builder.scopes ∧ c₁.builder.nameGen = x + 1 ∧
        ∃ i, c₁.node = c.node ++ [i] ∧
          Node.push (.forAll x bty.sort (p.substBoundVars (.var (.free x))) []) c.builder.root
            c.node = some (c₁.builder.root, i)) (fun _ => True) c₀ := by
    rw [Cursor.pushForall, wp_bind]
    exact wp_pushNode (fun root i hroot => ⟨rfl, rfl, i, rfl, hroot⟩) fun _ => trivial
  rw [Obliges, wp_snapshot, wp_bind, Cursor.unpack, wp_bind, wp_freshName, wp_bind]
  refine wp_mono (wp_and (wp_pushForall x bty.sort _ c₀) hpush) (fun _ c₁ h => ?_)
    fun _ _ => trivial
  obtain ⟨hframe, hscopes, hgen, i, hnode, hroot⟩ := h
  obtain ⟨hc₁, hle₁⟩ := hframe hc₀
  rw [wp_pure]
  refine wp_imp (hk c₁ hc₁ (hgen ▸ Nat.lt_succ_self x)) fun _ c₂ hobliges => ?_
  obtain ⟨nodes, happ, hQ⟩ := hobliges
  have hle : c.Le c₂ := (hle₀.trans hle₁).trans happ.le
  refine ⟨[.forAll x bty.sort (p.substBoundVars (.var (.free x))) nodes], ?_, fun I ρ => ?_⟩
  · refine ⟨hle.valid_restore hc happ.valid, hle.restore, ?_, rfl, rfl, rfl,
      happ.scopes.trans hscopes⟩
    exact Node.append_below_push rfl hroot (hnode ▸ happ.root)
  · refine (and_iff_left trivial).trans ?_
    exact forall_congr' fun v => imp_congr_right fun _ => imp_congr_right fun _ => hQ I _

end Obliges

/-! ## Comparisons -/

variable {tcx : Tcx} {sub : Ty → Ty → CursorM Unit} {N : Set Name} {c : Cursor}
  {R : Interp → Valuation → Ty → Ty → Prop}

/-- The nodes of a comparison say that `R` holds, for types whose names come from the builder. -/
def ObligesSub (R : Interp → Valuation → Ty → Ty → Prop) (sub : Ty → Ty → CursorM Unit) : Prop :=
  ∀ ⦃N ty1 ty2 c⦄, c.Valid → (∀ x ∈ N, x < c.builder.nameGen) → Ty.Scoped N ty1 →
    Ty.Scoped N ty2 → Obliges (fun I ρ => R I ρ ty1 ty2) (sub ty1 ty2) c

/-- Only the names of the types matter to a relation. -/
def NamesMatter (R : Interp → Valuation → Ty → Ty → Prop) : Prop :=
  ∀ ⦃I ρ ρ' N ty1 ty2⦄, Valuation.AgreeOn N ρ ρ' → Ty.Scoped N ty1 → Ty.Scoped N ty2 →
    (R I ρ ty1 ty2 ↔ R I ρ' ty1 ty2)

/-- The arguments of an ADT are compared by their variances. -/
lemma ObligesSub.substs (hsub : ObligesSub R sub) {variances : List Variance}
    {substs1 substs2 : Substs} (hc : c.Valid) (hN : ∀ x ∈ N, x < c.builder.nameGen)
    (h1 : substs1.Scoped N) (h2 : substs2.Scoped N) :
    Obliges (fun I ρ => Substs.Compare (R I ρ) variances substs1 substs2)
      (substsSubtyping sub variances substs1 substs2) c := by
  induction variances generalizing substs1 substs2 c with
  | nil => exact .pure hc fun _ _ => trivial
  | cons variance variances ih =>
    cases substs1 with
    | nil => exact .pure hc fun _ _ => trivial
    | cons ty1 substs1 =>
      cases substs2 with
      | nil => exact .pure hc fun _ _ => trivial
      | cons ty2 substs2 =>
        have hrest : ∀ c' : Cursor, c'.Valid → c.builder.nameGen ≤ c'.builder.nameGen →
            Obliges (fun I ρ => Substs.Compare (R I ρ) variances substs1 substs2)
              (substsSubtyping sub variances substs1 substs2) c' :=
          fun c' hc' hle => ih hc' (fun x hx => (hN x hx).trans_le hle) h1.2 h2.2
        cases variance with
        | covariant => exact (hsub hc hN h1.1 h2.1).bind hrest
        | invariant =>
          refine ((hsub hc hN h1.1 h2.1).bind fun c' hc' hle =>
            (hsub hc' (fun x hx => (hN x hx).trans_le hle) h2.1 h1.1).bind fun c'' hc'' hle' =>
              hrest c'' hc'' (hle.trans hle')).congr fun I ρ => ?_
          rw [Substs.Compare, and_assoc]
        | contravariant => exact (hsub hc hN h2.1 h1.1).bind hrest
        | bivariant =>
          refine (hrest c hc le_rfl).congr fun I ρ => ?_
          rw [Substs.Compare, true_and]

/-- Subtyping of base types obliges the comparison by what types are obliged to. -/
lemma ObligesSub.bty (hsub : ObligesSub R sub) {bty1 bty2 : BaseTy} (hc : c.Valid)
    (hN : ∀ x ∈ N, x < c.builder.nameGen) (h1 : bty1.Scoped N) (h2 : bty2.Scoped N) :
    Obliges (fun I ρ => BaseTy.Compare (R I ρ) tcx bty1 bty2) (btySubtyping tcx sub bty1 bty2)
      c := by
  unfold btySubtyping
  split
  · exact (Obliges.assert hc _).congr fun I ρ => by rw [BaseTy.Compare, decide_eq_true_eq]
  · exact (Obliges.assert hc _).congr fun I ρ => by rw [BaseTy.Compare, decide_eq_true_eq]
  · exact .pure hc fun _ _ => trivial
  · next did1 substs1 did2 substs2 =>
    refine ((Obliges.assert hc _).bind fun c' hc' hle => (Obliges.assert hc' _).bind
      fun c'' hc'' hle' => hsub.substs hc''
        (fun x hx => (hN x hx).trans_le (hle.trans hle')) h1 h2).congr fun I ρ => ?_
    rw [BaseTy.Compare, decide_eq_true_eq, decide_eq_true_eq]
  · exact .throw

/-- A type with an index, or a parameter, is compared. -/
lemma ObligesSub.unpacked (hsub : ObligesSub R sub) {ty1 ty2 : Ty} (hc : c.Valid)
    (hN : ∀ x ∈ N, x < c.builder.nameGen) (h1 : ty1.Scoped N) (h2 : ty2.Scoped N)
    (hunpacked : ∀ bty p, ty1 ≠ .exists_ bty p) :
    Obliges (fun I ρ => Ty.CompareOpen (R I ρ) tcx I ρ ty1 ty2)
      (unpackedSubtyping tcx sub ty1 ty2) c := by
  unfold unpackedSubtyping
  split
  · next bty1 e1 bty2 e2 =>
    exact (hsub.bty hc hN h1.1 h2.1).bind fun c' hc' _ => .pushHead hc' _
  · next bty1 e bty2 p =>
    refine ((hsub.bty hc hN h1.1 h2.1).bind fun c' hc' _ => .pushHead hc' _).congr fun I ρ => ?_
    rw [Ty.CompareOpen, Pred.substBoundVars_substBoundVars h1.2]
  · exact (Obliges.assert hc _).congr fun I ρ => by rw [Ty.CompareOpen, decide_eq_true_eq]
  · refine .pure hc fun _ _ => ?_
    cases ty1 with
    | exists_ bty p => exact absurd rfl (hunpacked bty p)
    | _ => trivial
  · exact (Obliges.assert hc _).congr fun I ρ => by rw [Ty.CompareOpen, decide_eq_true_eq]
  · exact .throw

/-- Only the names matter to the comparison of type arguments. -/
lemma NamesMatter.substs (hR : NamesMatter R) {I : Interp} {ρ ρ' : Valuation}
    (h : Valuation.AgreeOn N ρ ρ') {variances : List Variance} {substs1 substs2 : Substs}
    (h1 : substs1.Scoped N) (h2 : substs2.Scoped N) :
    Substs.Compare (R I ρ) variances substs1 substs2 ↔
      Substs.Compare (R I ρ') variances substs1 substs2 := by
  induction variances generalizing substs1 substs2 with
  | nil => rfl
  | cons variance variances ih =>
    cases substs1 with
    | nil => rfl
    | cons ty1 substs1 =>
      cases substs2 with
      | nil => rfl
      | cons ty2 substs2 =>
        simp only [Substs.Compare, ih h1.2 h2.2, hR h h1.1 h2.1, hR h h2.1 h1.1]

/-- The same for base types. -/
lemma NamesMatter.bty (hR : NamesMatter R) {I : Interp} {ρ ρ' : Valuation}
    (h : Valuation.AgreeOn N ρ ρ') {bty1 bty2 : BaseTy} (h1 : bty1.Scoped N)
    (h2 : bty2.Scoped N) :
    BaseTy.Compare (R I ρ) tcx bty1 bty2 ↔ BaseTy.Compare (R I ρ') tcx bty1 bty2 := by
  cases bty1 with
  | adt did1 substs1 =>
    cases bty2 with
    | adt did2 substs2 => rw [BaseTy.Compare, BaseTy.Compare, hR.substs h h1 h2]
    | _ => rfl
  | _ => cases bty2 <;> rfl

/-- What is asked for a new name as the index is asked for every index. -/
lemma compareOpen_exists_iff_of_fresh (hR : NamesMatter R) {I : Interp} {ρ : Valuation} {x : Name}
    (hx : x ∉ N) {bty : BaseTy} {p : Pred} {ty2 : Ty} (h1 : Ty.Scoped N (.exists_ bty p))
    (h2 : ty2.Scoped N)
    (hty2 : match ty2 with
      | .refine _ _ | .uninit | .exists_ _ _ => True
      | _ => False) :
    (∀ v : Val, v.sort = bty.sort → (p.substBoundVars (.var (.free x))).Holds I (ρ.set x v) →
      Ty.CompareOpen (R I (ρ.set x v)) tcx I (ρ.set x v) (.refine bty (.var (.free x))) ty2) ↔
      Ty.CompareOpen (R I ρ) tcx I ρ (.exists_ bty p) ty2 := by
  have hagree : ∀ v, Valuation.AgreeOn N ρ (ρ.set x v) := fun v => Valuation.agreeOn_set hx v
  have hfresh : ∀ v, (Expr.var (.free x)).eval I.div (ρ.set x v) = some v :=
    fun v => congrArg some (ρ.set_self x v)
  have hp : ∀ v, (p.substBoundVars (.var (.free x))).Holds I (ρ.set x v) ↔ p.Holds I (ρ.bind v) :=
    fun v => (Pred.holds_substBoundVars (hfresh v) p).trans
      (Pred.holds_congr h1.2 ((hagree v).bind v)).symm
  cases ty2 with
  | refine bty2 e2 =>
    refine forall_congr' fun v => imp_congr_right fun _ => imp_congr (hp v) ?_
    rw [Ty.CompareOpen, Expr.holds_eq_iff, Valuation.set_self, hR.bty (hagree v) h1.1 h2.1,
      Expr.eval_congr h2.2.over (hagree v)]
  | exists_ bty2 q =>
    refine forall_congr' fun v => imp_congr_right fun _ => imp_congr (hp v) ?_
    rw [Ty.CompareOpen, Pred.holds_substBoundVars (hfresh v), hR.bty (hagree v) h1.1 h2.1,
      Pred.holds_congr h2.2 ((hagree v).bind v)]
  | uninit => simp only [Ty.CompareOpen, implies_true]
  | _ => exact hty2.elim

/-- **The nodes of a comparison after the first type is unpacked**, in a snapshot. -/
lemma ObligesSub.unpack (hsub : ObligesSub R sub) (hR : NamesMatter R) {ty1 ty2 : Ty}
    (hc : c.Valid) (hN : ∀ x ∈ N, x < c.builder.nameGen) (h1 : ty1.Scoped N)
    (h2 : ty2.Scoped N) :
    Obliges (fun I ρ => Ty.CompareOpen (R I ρ) tcx I ρ ty1 ty2)
      (Cursor.snapshot (Cursor.unpack ty1 >>= fun ty1 => unpackedSubtyping tcx sub ty1 ty2)) c := by
  cases ty1 with
  | exists_ bty p =>
    have hx : c.builder.nameGen ∉ N := fun hx => (hN _ hx).false
    -- the comparison of the type with the new name as its index
    have hfresh := Obliges.unpack (p := p)
      (Q := fun I ρ =>
        Ty.CompareOpen (R I ρ) tcx I ρ (.refine bty (.var (.free c.builder.nameGen))) ty2)
      (k := fun ty1 => unpackedSubtyping tcx sub ty1 ty2) hc fun c' hc' hlt => by
        have hN' : ∀ x ∈ insert c.builder.nameGen N, x < c'.builder.nameGen := by
          rintro x (rfl | hx)
          · exact hlt
          · exact (hN x hx).trans hlt
        have hsubset := Set.subset_insert c.builder.nameGen N
        exact hsub.unpacked hc' hN' ⟨bty.scoped_mono hsubset h1.1, Set.mem_insert _ _⟩
          (ty2.scoped_mono hsubset h2) fun _ _ h => by cases h
    cases ty2 with
    | refine bty2 e2 =>
      exact hfresh.congr fun I ρ => compareOpen_exists_iff_of_fresh hR hx h1 h2 trivial
    | exists_ bty2 q =>
      exact hfresh.congr fun I ρ => compareOpen_exists_iff_of_fresh hR hx h1 h2 trivial
    | uninit =>
      exact hfresh.congr fun I ρ => compareOpen_exists_iff_of_fresh hR hx h1 h2 trivial
    | _ =>
      -- a type with an index is compared with none of the others
      rw [Obliges, wp_snapshot, wp_bind, Cursor.unpack, wp_bind, wp_freshName, wp_bind]
      exact wp_of_forall (fun _ _ => trivial) fun _ => trivial
  | refine bty1 e1 => exact (hsub.unpacked hc hN h1 h2 fun _ _ h => by cases h).snapshot
  | _ => exact (hsub.unpacked hc hN h1 h2 fun _ _ h => by cases h).snapshot

/-! ## Subtyping -/

variable (tcx)

/-- A comparison whose nodes say what it asks for, for types whose names come from the builder. -/
def ExactSub (sub : Ty → Ty → CursorM Unit) : Prop :=
  ∀ ⦃N ty1 ty2 c⦄, c.Valid → (∀ x ∈ N, x < c.builder.nameGen) → Ty.Scoped N ty1 →
    Ty.Scoped N ty2 → Obliges (fun I ρ => Ty.Asks tcx I ρ ty1 ty2) (sub ty1 ty2) c

variable {tcx}

/-- An exact comparison obliges what it asks for. -/
lemma ExactSub.obligesSub (hsub : ExactSub tcx sub) :
    ObligesSub (fun I ρ => Ty.Asks tcx I ρ) sub :=
  hsub

/-- Only the names of the types matter to what they ask for. -/
lemma namesMatter_asks : NamesMatter (fun I ρ => Ty.Asks tcx I ρ) :=
  fun _ _ _ _ _ _ h h1 h2 => Ty.asks_congr h h1 h2

/-- The comparison of base types is exact if that of types is. -/
lemma ExactSub.bty (hsub : ExactSub tcx sub) {bty1 bty2 : BaseTy} (hc : c.Valid)
    (hN : ∀ x ∈ N, x < c.builder.nameGen) (h1 : bty1.Scoped N) (h2 : bty2.Scoped N) :
    Obliges (fun I ρ => BaseTy.Asks tcx I ρ bty1 bty2) (btySubtyping tcx sub bty1 bty2) c :=
  (hsub.obligesSub.bty hc hN h1 h2).congr fun _ _ => BaseTy.asks_iff.symm

/-- The comparison after the first type is unpacked, in a snapshot. -/
lemma ExactSub.unpack (hsub : ExactSub tcx sub) {ty1 ty2 : Ty} (hc : c.Valid)
    (hN : ∀ x ∈ N, x < c.builder.nameGen) (h1 : ty1.Scoped N) (h2 : ty2.Scoped N)
    (hrefine : ∀ bty1 e1 bty2 e2, ty1 = .refine bty1 e1 → ty2 = .refine bty2 e2 → e1 ≠ e2)
    (hexists : ∀ bty1 p1 bty2 p2, ty1 = .exists_ bty1 p1 → ty2 = .exists_ bty2 p2 → p1 ≠ p2) :
    Obliges (fun I ρ => Ty.Asks tcx I ρ ty1 ty2)
      (Cursor.snapshot (Cursor.unpack ty1 >>= fun ty1 => unpackedSubtyping tcx sub ty1 ty2)) c :=
  (hsub.obligesSub.unpack namesMatter_asks hc hN h1 h2).congr fun _ _ =>
    (Ty.asks_iff_compareOpen hrefine hexists).symm

/-- Subtyping is exact, at any depth. -/
theorem exactSub_subtypingN (n : ℕ) : ExactSub tcx (subtypingN tcx n) := by
  induction n with
  | zero => exact fun _ _ _ _ _ _ _ _ => .throw
  | succ n ih =>
    intro N ty1 ty2 c hc hN h1 h2
    unfold subtypingN
    dsimp only
    split
    · next bty1 e1 bty2 e2 =>
      split
      · next he =>
        refine ((ih.bty hc hN h1.1 h2.1).snapshot).congr fun I ρ => ?_
        rw [Ty.Asks, and_iff_left (.inl he)]
      · next he =>
        refine ih.unpack hc hN h1 h2 (fun _ _ _ _ h h' => ?_) fun _ _ _ _ => nofun
        cases h
        cases h'
        exact he
    · next bty1 p1 bty2 p2 =>
      split
      · next hp =>
        refine ((ih.bty hc hN h1.1 h2.1).snapshot).congr fun I ρ => ?_
        rw [Ty.Asks, if_pos hp]
      · next hp =>
        refine ih.unpack hc hN h1 h2 (fun _ _ _ _ => nofun) fun _ _ _ _ h h' => ?_
        cases h
        cases h'
        exact hp
    · next hrefine hexists =>
      exact ih.unpack hc hN h1 h2
        (fun bty1 e1 bty2 e2 h h' => (hrefine bty1 e1 bty2 e2 h h').elim)
        fun bty1 p1 bty2 p2 h h' => (hexists bty1 p1 bty2 p2 h h').elim

/-- **The nodes of a comparison say what it asks for.** -/
theorem obliges_subtyping {ty1 ty2 : Ty} (hc : c.Valid) (hN : ∀ x ∈ N, x < c.builder.nameGen)
    (h1 : ty1.Scoped N) (h2 : ty2.Scoped N) :
    Obliges (fun I ρ => Ty.Asks tcx I ρ ty1 ty2) (Cursor.subtyping tcx ty1 ty2) c :=
  exactSub_subtypingN _ hc hN h1 h2

/-- **Subtyping is sound.** When the comparison of two reference-free types completes, it has
pushed nodes where the cursor is, and whenever they are true, the first type is a subtype of the
second one. The cursor is where it was, with the variables and the scopes that it had.

**Proof sketch.** The nodes that are pushed are true iff the types ask for what they compare
(`obliges_subtyping`, by induction on the size of the stack, and on the variances for the
arguments of an ADT). What is asked for implies the relation of subtyping, by induction on the
types (`Ty.Asks.sub`). -/
theorem subtyping_sound {c' : Cursor} {ty1 ty2 : Ty} (hc : c.Valid)
    (hN : ∀ x ∈ N, x < c.builder.nameGen) (h1 : ty1.Plain N) (h2 : ty2.Plain N)
    (h : (Cursor.subtyping tcx ty1 ty2).run c = .ok ((), c')) :
    (∃ nodes, Node.append nodes c.builder.root c.node = some c'.builder.root ∧
      ∀ I ρ, Node.AllHold I ρ nodes → Ty.Sub tcx I ρ ty1 ty2) ∧
      c'.node = c.node ∧ c'.nvars = c.nvars ∧ c'.nscopes = c.nscopes ∧
      c'.builder.vars.take c.nvars = c.builder.vars.take c.nvars ∧
      c'.builder.scopes = c.builder.scopes := by
  obtain ⟨nodes, happ, hnodes⟩ := wp_of_run_ok (obliges_subtyping hc hN (ty1.scoped_of_plain h1)
    (ty2.scoped_of_plain h2)) h
  exact ⟨⟨nodes, happ.root, fun I ρ hnodes' => ((hnodes I ρ).mp hnodes').sub h1 h2⟩, happ.node,
    happ.nvars, happ.nscopes, happ.le.vars, happ.scopes⟩

/-- The integers with an order relation to zero. -/
def intTy (op : BinOp) : Ty :=
  .exists_ (.int .i32) (.expr (.binaryOp op (.var .bound) .zero))

/-- The positive integers are compared with the nonnegative ones. -/
theorem subtyping_sound_positive :
    ∃ c', (Cursor.subtyping (.ofStack 2) (intTy .gt) (intTy .ge)).run
        ConstraintBuilder.new.asCursor = .ok ((), c') ∧
      ∃ nodes, Node.append nodes (.conj []) [] = some c'.builder.root ∧
        ∀ I ρ, Node.AllHold I ρ nodes → Ty.Sub (.ofStack 2) I ρ (intTy .gt) (intTy .ge) := by
  obtain ⟨c', hrun⟩ : ∃ c', (Cursor.subtyping (.ofStack 2) (intTy .gt) (intTy .ge)).run
      ConstraintBuilder.new.asCursor = .ok ((), c') := ⟨_, rfl⟩
  have hplain : ∀ op, (intTy op).Plain ∅ := fun op => ⟨trivial, trivial, trivial⟩
  exact ⟨c', hrun, (subtyping_sound valid_new (by simp) (hplain .gt) (hplain .ge) hrun).1⟩

end Cursor

end LiquidRust.Typeck
