import LiquidRust.Typeck.Stores

set_option relaxedAutoImplicit false
set_option autoImplicit false

/-!
# What is assumed at a cursor

The quantifiers and guards on the path to a cursor are the hypotheses of what is pushed there. If
the tree that a run ends with is true, then whatever was pushed at a cursor is true of all values
for which the hypotheses on its path are. When a type is unpacked, the index of a value gives the
new name a value for which the new hypothesis is true.

## Main definitions

* `LiquidRust.Typeck.Cursor.Ready` — a valid cursor, where nothing speaks of names to come.

## Main results

* `LiquidRust.Typeck.Cursor.Appends.allHold` — what was pushed is true where its hypotheses are.
* `LiquidRust.Typeck.Cursor.assumes_of_below` — there are fewer hypotheses further up.
* `LiquidRust.Typeck.Cursor.wp_unpack_ready` — a type is unpacked, and its value is known.
-/

namespace LiquidRust.Typeck

open Lib

/-! ## Truth and growth -/

namespace Node

variable {I : Interp} {ρ : Valuation}

/-- What is below a true node is true, where its own hypotheses are. -/
lemma Holds.children {n : Node} {cs : List Node} (h : n.Holds I ρ) (hcs : n.children = some cs)
    (hlabels : ∀ l ∈ n.labels, l.Holds I ρ) : AllHold I ρ cs := by
  cases n with
  | head p => cases hcs
  | conj cs' =>
    obtain rfl := Option.some.inj hcs
    exact h
  | guard e cs' =>
    obtain rfl := Option.some.inj hcs
    exact h (hlabels _ (List.mem_singleton_self _))
  | forAll x sort p cs' =>
    obtain rfl := Option.some.inj hcs
    obtain ⟨hsort, hp⟩ := hlabels _ (List.mem_singleton_self _)
    have hself : ρ.set x (ρ (.free x)) = ρ := Function.update_eq_self _ _
    have hall := h (ρ (.free x)) hsort
    rw [hself] at hall
    exact hall hp

/-- A node stays true when less is below it. -/
lemma Holds.of_withChildren {n : Node} {cs cs' : List Node} (hcs : n.children = some cs)
    (hmono : ∀ ρ, AllHold I ρ cs' → AllHold I ρ cs) (h : (n.withChildren cs').Holds I ρ) :
    n.Holds I ρ := by
  cases n with
  | head p => cases hcs
  | conj _ =>
    obtain rfl := Option.some.inj hcs
    exact hmono ρ h
  | guard e _ =>
    obtain rfl := Option.some.inj hcs
    exact fun he => hmono ρ (h he)
  | forAll x sort p _ =>
    obtain rfl := Option.some.inj hcs
    exact fun v hv hp => hmono _ (h v hv hp)

/-- A tree was true before nodes were appended, if it is now. -/
lemma Holds.of_append {nodes : List Node} {n n' : Node} {path : List ℕ}
    (happ : append nodes n path = some n') (h : n'.Holds I ρ) : n.Holds I ρ := by
  induction path generalizing n n' ρ with
  | nil =>
    obtain ⟨cs, hcs, rfl⟩ := append_nil_eq_some.mp happ
    exact h.of_withChildren hcs fun ρ h => (allHold_append.mp h).1
  | cons i path ih =>
    obtain ⟨cs, c, c', hcs, hc, hc', rfl⟩ := append_cons_eq_some.mp happ
    refine h.of_withChildren hcs fun ρ hall => ?_
    rw [allHold_iff] at hall ⊢
    intro d hd
    obtain ⟨j, hj, rfl⟩ := List.mem_iff_getElem.mp hd
    obtain ⟨hi, hci⟩ := List.getElem?_eq_some_iff.mp hc
    by_cases hij : i = j
    · subst hij
      rw [hci]
      exact ih hc' (hall c' (List.mem_set hi c'))
    · refine hall cs[j] (List.mem_iff_getElem.mpr ⟨j, by simpa using hj, ?_⟩)
      exact List.getElem_set_ne hij _

/-- **A tree was true before it grew**, if it is now. -/
lemma Grows.holds {n n' : Node} (hgrows : n.Grows n') (h : n'.Holds I ρ) : n.Holds I ρ := by
  induction hgrows with
  | refl => exact h
  | tail _ hstep ih =>
    obtain ⟨node, path, k, hpush⟩ := hstep
    exact ih (h.of_append (append_of_push hpush))

/-- **What was appended is true** where the hypotheses on the path are. -/
lemma Holds.appended {nodes : List Node} {n n' : Node} {path : List ℕ} {ls : List Label}
    (happ : append nodes n path = some n') (h : n'.Holds I ρ) (hls : n.labelsAt path = some ls)
    (hlabels : ∀ l ∈ ls, l.Holds I ρ) : AllHold I ρ nodes := by
  induction path generalizing n n' ls with
  | nil =>
    obtain ⟨cs, hcs, rfl⟩ := append_nil_eq_some.mp happ
    obtain rfl : n.labels = ls := by simpa [labelsAt, hcs] using hls
    have hall := h.children (children_withChildren hcs) (by simpa using hlabels)
    exact (allHold_append.mp hall).2
  | cons i path ih =>
    obtain ⟨cs, c, c', hcs, hc, hc', rfl⟩ := append_cons_eq_some.mp happ
    obtain ⟨cs', d, ls', hcs', hd, hls', rfl⟩ := labelsAt_cons_eq_some.mp hls
    obtain rfl := Option.some.inj (hcs.symm.trans hcs')
    obtain rfl := Option.some.inj (hc.symm.trans hd)
    obtain ⟨hn, hbelow⟩ := List.forall_mem_append.mp hlabels
    have hall := h.children (children_withChildren hcs) (by simpa using hn)
    have hi := (List.getElem?_eq_some_iff.mp hc).1
    exact ih hc' (allHold_iff.mp hall c' (List.mem_set hi c')) hls' hbelow

/-- The labels further up are the first ones. -/
lemma labelsAt_prefix {n : Node} {path rest : List ℕ} {ls ls' : List Label}
    (h : n.labelsAt path = some ls) (h' : n.labelsAt (path ++ rest) = some ls') : ls <+: ls' := by
  induction path generalizing n ls ls' with
  | nil =>
    obtain ⟨cs, hcs, rfl⟩ := Option.map_eq_some_iff.mp h
    cases rest with
    | nil =>
      obtain ⟨_, _, rfl⟩ := Option.map_eq_some_iff.mp h'
      exact List.prefix_rfl
    | cons i rest =>
      obtain ⟨_, _, ls'', _, _, _, rfl⟩ := labelsAt_cons_eq_some.mp h'
      exact List.prefix_append _ _
  | cons i path ih =>
    obtain ⟨cs, c, l, hcs, hc, hl, rfl⟩ := labelsAt_cons_eq_some.mp h
    obtain ⟨cs', d, l', hcs', hd, hl', rfl⟩ := labelsAt_cons_eq_some.mp h'
    obtain rfl := Option.some.inj (hcs.symm.trans hcs')
    obtain rfl := Option.some.inj (hc.symm.trans hd)
    exact (List.prefix_append_right_inj _).mpr (ih hl hl')

end Node

/-- The names of a label are in `N`. -/
def Label.Over (N : Set Name) : Label → Prop
  | forAll x _ p => x ∈ N ∧ p.Over N
  | guard e => e.Over N

section Label

variable {I : Interp} {ρ ρ' : Valuation} {N N' : Set Name}

/-- A label over some names is over more of them. -/
lemma Label.Over.mono (hN : N ⊆ N') {l : Label} (h : l.Over N) : l.Over N' := by
  cases l with
  | forAll x sort p => exact ⟨hN h.1, h.2.mono hN⟩
  | guard e => exact Expr.Over.mono hN h

/-- A label holds at every valuation that agrees on its names. -/
lemma Label.Over.holds_congr {l : Label} (hl : l.Over N) (hagree : Valuation.AgreeOn N ρ ρ')
    (h : l.Holds I ρ) : l.Holds I ρ' := by
  cases l with
  | forAll x sort p =>
    exact ⟨hagree.2 x hl.1 ▸ h.1, (Pred.holds_congr hl.2 hagree).mp h.2⟩
  | guard e => exact (Expr.holds_congr hl hagree).mp h

end Label

namespace Cursor

variable {c c' : Cursor} {I : Interp} {ρ ρ' : Valuation} {F : Node}

/-! ## Cursors and what they assume -/

/-- The variables of the builder have names that were made. -/
def Named (c : Cursor) : Prop :=
  ∀ v ∈ c.builder.vars, v.1 < c.builder.nameGen

/-- **A cursor where operations start**: it is valid, and neither the hypotheses on its path nor
the variables of the builder are named by what is to come. -/
structure Ready (c : Cursor) : Prop extends c.Valid where
  labels_over : ∀ ls, c.builder.root.labelsAt c.node = some ls →
    ∀ l ∈ ls, l.Over (namesBefore c.builder.nameGen)
  named : c.Named

/-- The hypotheses are the labels in any later tree. -/
lemma Valid.assumes_iff (hc : c.Valid) (hgrows : c.builder.root.Grows F) :
    c.Assumes I ρ ↔ ∀ ls, F.labelsAt c.node = some ls → ∀ l ∈ ls, l.Holds I ρ := by
  obtain ⟨ls, hls, -⟩ := hc.labels
  have hls' := hgrows.labelsAt hls
  constructor
  · intro h ls₁ h₁
    obtain rfl := Option.some.inj (hls'.symm.trans h₁)
    exact h ls hls
  · intro h ls₁ h₁
    obtain rfl := Option.some.inj (hls.symm.trans h₁)
    exact h ls hls'

/-- **There are fewer hypotheses further up** in one tree. -/
lemma assumes_of_below (hc : c.Valid) (hc' : c'.Valid) (hgrows : c.builder.root.Grows F)
    (hgrows' : c'.builder.root.Grows F) (hnode : c.node <+: c'.node) (h : c'.Assumes I ρ) :
    c.Assumes I ρ := by
  rw [hc.assumes_iff hgrows]
  rw [hc'.assumes_iff hgrows'] at h
  obtain ⟨ls', hls', -⟩ := hc'.labels
  obtain ⟨rest, hrest⟩ := hnode
  intro ls hls l hl
  have hls'' := hgrows'.labelsAt hls'
  have hlabels := Node.labelsAt_prefix hls (hrest ▸ hls'')
  exact h ls' hls'' l (hlabels.subset hl)

/-- The cursor stays where it is while the tree grows. -/
lemma assumes_of_node_eq (hc : c.Valid) (hc' : c'.Valid)
    (hgrows : c.builder.root.Grows c'.builder.root) (hnode : c'.node = c.node) :
    c'.Assumes I ρ ↔ c.Assumes I ρ :=
  ⟨assumes_of_below hc hc' hgrows .refl (hnode ▸ List.prefix_rfl),
    assumes_of_below hc' hc .refl hgrows (hnode ▸ List.prefix_rfl)⟩

/-- Appending nodes keeps what the cursor assumes. -/
lemma Appends.assumes_iff {nodes : List Node} (h : c.Appends c' nodes) (hc : c.Valid) :
    c'.Assumes I ρ ↔ c.Assumes I ρ :=
  assumes_of_node_eq hc h.valid h.le.root h.node

/-- A quiet operation keeps what the cursor assumes. -/
lemma Quiet.assumes_iff (h : c.Quiet c') (hc : c.Valid) : c'.Assumes I ρ ↔ c.Assumes I ρ :=
  assumes_of_node_eq hc (h.valid hc) h.le.root h.node

/-- **What was pushed is true** where the hypotheses are, if the final tree is. -/
lemma Appends.allHold {nodes : List Node} (h : c.Appends c' nodes) (hc : c.Valid)
    (hgrows : c'.builder.root.Grows F) (hF : F.Holds I ρ) (hρ : c.Assumes I ρ) :
    Node.AllHold I ρ nodes := by
  obtain ⟨ls, hls, -⟩ := hc.labels
  exact (hgrows.holds hF).appended h.root hls (hρ ls hls)

/-- Values of names to come do not matter to the hypotheses. -/
lemma Ready.assumes_congr (hc : c.Ready)
    (hagree : Valuation.AgreeOn (namesBefore c.builder.nameGen) ρ ρ') (h : c.Assumes I ρ) :
    c.Assumes I ρ' :=
  fun ls hls l hl => (hc.labels_over ls hls l hl).holds_congr hagree (h ls hls l hl)

/-- A later generation of names has more of them before it. -/
lemma namesBefore_mono {gen gen' : Name} (h : gen ≤ gen') : namesBefore gen ⊆ namesBefore gen' :=
  fun _ hx => lt_of_lt_of_le hx h

/-- A cursor that stays where it is stays ready. -/
lemma Ready.of_node_eq (hc : c.Ready) (hc' : c'.Valid)
    (hgrows : c.builder.root.Grows c'.builder.root) (hnode : c'.node = c.node)
    (hgen : c.builder.nameGen ≤ c'.builder.nameGen) (hnamed : c'.Named) : c'.Ready where
  toValid := hc'
  labels_over := by
    obtain ⟨ls, hls, -⟩ := hc.labels
    intro ls' hls' l hl
    rw [hnode] at hls'
    obtain rfl := Option.some.inj ((hgrows.labelsAt hls).symm.trans hls')
    exact (hc.labels_over ls hls l hl).mono (namesBefore_mono hgen)
  named := hnamed

/-- A quiet operation keeps the names of the cursor fresh. -/
lemma Quiet.named (h : c.Quiet c') (hc : c.Named) : c'.Named := by
  intro v hv
  rw [h.vars] at hv
  exact (hc v hv).trans_le h.nameGen

/-- A quiet operation keeps the cursor ready. -/
lemma Quiet.ready (h : c.Quiet c') (hc : c.Ready) : c'.Ready :=
  hc.of_node_eq (h.valid hc.toValid) h.le.root h.node h.nameGen (h.named hc.named)

/-- Appending nodes keeps the cursor ready if its names stay fresh. -/
lemma Appends.ready {nodes : List Node} (h : c.Appends c' nodes) (hc : c.Ready)
    (hnamed : c'.Named) : c'.Ready :=
  hc.of_node_eq h.valid h.le.root h.node h.le.nameGen hnamed

/-- The cursor as it was, in the tree as it is. -/
lemma Ready.restore (hc : c.Ready) (hle : c.Le c') (hc' : c'.Ready) :
    Ready { c with builder := c'.builder } :=
  hc.of_node_eq (hle.valid_restore hc.toValid hc'.toValid) hle.root rfl hle.nameGen hc'.named

/-- The first cursor is ready. -/
lemma ready_new : ConstraintBuilder.new.asCursor.Ready where
  toValid := valid_new
  labels_over := by
    rintro ls ⟨⟩ l hl
    cases hl
  named := by
    intro v hv
    cases hv

/-! ## The names of the variables -/

/-- Operations after which the variables of the builder still have names that were made. -/
def KeepsNamed {α : Type} (m : CursorM α) : Prop :=
  ∀ c, c.Named → wp m (fun _ c' => c'.Named) (fun _ => True) c

namespace KeepsNamed

variable {α β : Type} {m : CursorM α}

/-- Returning keeps the names fresh. -/
lemma pure (a : α) : KeepsNamed (Pure.pure a) :=
  fun _ hc => hc

/-- Failing keeps the names fresh. -/
lemma throw (f : Failure) : KeepsNamed (MonadExcept.throw f : CursorM α) :=
  fun _ _ => trivial

/-- One step after another keeps the names fresh. -/
lemma bind {k : α → CursorM β} (hm : KeepsNamed m) (hk : ∀ a, KeepsNamed (k a)) :
    KeepsNamed (m >>= k) := by
  intro c hc
  rw [wp_bind]
  exact wp_imp (hm c hc) fun a c' hc' => hk a c' hc'

/-- A snapshot keeps the names fresh. -/
lemma snapshot (hm : KeepsNamed m) : KeepsNamed (Cursor.snapshot m) := by
  intro c hc
  rw [wp_snapshot]
  exact hm c hc

/-- Lifting a result keeps the names fresh. -/
lemma ofExcept (x : Except Failure α) : KeepsNamed (Typeck.ofExcept x) := by
  cases x with
  | ok a => exact pure a
  | error f => exact throw f

/-- Opening an option keeps the names fresh. -/
lemma orFail (f : Failure) (o : Option α) : KeepsNamed (Typeck.orFail f o) := by
  cases o with
  | some a => exact pure a
  | none => exact throw f

/-- A fold keeps the names fresh if each of its steps does. -/
lemma foldlM {k : β → α → CursorM β} {l : List α} (hk : ∀ a ∈ l, ∀ b, KeepsNamed (k b a)) (b : β) :
    KeepsNamed (l.foldlM k b) := fun _ hc =>
  wp_foldlM (I := fun _ c => c.Named) (fun a ha b c hc => hk a ha b c hc) hc

/-- A loop keeps the names fresh if each of its steps does. -/
lemma forM {k : α → CursorM PUnit} {l : List α} (hk : ∀ a ∈ l, KeepsNamed (k a)) :
    KeepsNamed (l.forM k) := fun _ hc =>
  wp_forM (I := fun c => c.Named) (fun a ha c hc => hk a ha c hc) hc

/-- Pushing a node keeps the names fresh. -/
lemma pushNode (node : Node) : KeepsNamed (Cursor.pushNode node) :=
  fun _ hc => wp_pushNode (fun _ _ _ => hc) fun _ => trivial

/-- Pushing a head keeps the names fresh. -/
lemma pushHead (p : Pred) : KeepsNamed (Cursor.pushHead p) := by
  unfold Cursor.pushHead
  split
  · exact pure ()
  · exact pushNode _

/-- A name that was made becomes a variable. -/
lemma wp_pushForall_named {x : Name} (sort : Srt) (p : Pred) {c : Cursor} (hc : c.Named)
    (hx : x < c.builder.nameGen) :
    wp (Cursor.pushForall x sort p) (fun _ c' => c'.Named) (fun _ => True) c := by
  rw [Cursor.pushForall, wp_bind]
  refine wp_pushNode (fun _ _ _ => ?_) fun _ => trivial
  rw [pushVar, wp_modify]
  intro v hv
  rcases eq_or_mem_of_mem_setOrPush hv with rfl | hv
  · exact hx
  · exact hc v hv

/-- Unpacking keeps the names fresh. -/
lemma unpack (ty : Ty) : KeepsNamed (Cursor.unpack ty) := by
  cases ty with
  | exists_ bty p =>
    intro c hc
    rw [Cursor.unpack, wp_bind, wp_freshName, wp_bind]
    refine wp_imp (wp_pushForall_named _ _ (fun v hv => ?_) ?_) fun _ c' hc' => hc'
    · exact (hc v hv).trans (Nat.lt_succ_self _)
    · exact Nat.lt_succ_self _
  | _ => exact pure _

/-- Operations that keep the names fresh are closed under composition. -/
lemma composed : Composed KeepsNamed where
  pure := pure
  throw f _ := throw f
  bind := bind
  snapshot := snapshot
  unpack := unpack
  pushHead := pushHead

/-- Subtyping keeps the names fresh. -/
lemma subtyping (tcx : Tcx) (ty1 ty2 : Ty) : KeepsNamed (Cursor.subtyping tcx ty1 ty2) :=
  composed.subtyping tcx ty1 ty2

end KeepsNamed

/-! ## What is known after an operation -/

/-- **What was pushed about a result is true** where the hypotheses are, if the final tree is. -/
lemma Proves.ready {α : Type} {G : α → Prop} {P : Interp → Valuation → α → Prop} {m : CursorM α}
    (hm : c.Proves G P m) (hnamed : KeepsNamed m) (hc : c.Ready) :
    wp m (fun a c' => c'.Ready ∧ c.Le c' ∧ c'.node = c.node ∧ G a ∧
      (c'.builder.root.Grows F → ∀ ρ, F.Holds I ρ → c.Assumes I ρ → c'.Assumes I ρ ∧ P I ρ a))
      (fun _ => True) c := by
  refine wp_mono (wp_and hm (hnamed c hc.named)) (fun a c' h => ?_) fun _ _ => trivial
  obtain ⟨⟨nodes, happ, hG, hP⟩, hnamed'⟩ := h
  refine ⟨happ.ready hc hnamed', happ.le, happ.node, hG, fun hgrows ρ hF hρ => ⟨?_, ?_⟩⟩
  · exact (happ.assumes_iff hc.toValid).mpr hρ
  · exact hP I ρ (happ.allHold hc.toValid hgrows hF hρ)

/-- **A hypothesis is added**, and the cursor is below it. -/
lemma Ready.below {l : Label} (hc : c.Ready) (hc' : c'.Valid)
    (hls : ∀ ls, c.builder.root.labelsAt c.node = some ls →
      c'.builder.root.labelsAt c'.node = some (ls ++ [l]))
    (hl : l.Over (namesBefore c'.builder.nameGen))
    (hgen : c.builder.nameGen ≤ c'.builder.nameGen) (hnamed : c'.Named) :
    c'.Ready ∧ ∀ I ρ, c.Assumes I ρ → l.Holds I ρ → c'.Assumes I ρ := by
  obtain ⟨ls, hlabels, -⟩ := hc.labels
  have hlabels' := hls ls hlabels
  refine ⟨⟨hc', fun ls' hls' => ?_, hnamed⟩, fun I ρ hρ hholds ls' hls' => ?_⟩
  · obtain rfl := Option.some.inj (hlabels'.symm.trans hls')
    refine List.forall_mem_append.mpr ⟨fun l' hl' => ?_, List.forall_mem_singleton.mpr hl⟩
    exact (hc.labels_over ls hlabels l' hl').mono (namesBefore_mono hgen)
  · obtain rfl := Option.some.inj (hlabels'.symm.trans hls')
    exact List.forall_mem_append.mpr ⟨hρ ls hlabels, List.forall_mem_singleton.mpr hholds⟩

/-- **A guard** is assumed below it. -/
lemma wp_pushGuard_ready {e : Expr} (hc : c.Ready) (he : e.Over (namesBefore c.builder.nameGen)) :
    wp (Cursor.pushGuard e) (fun _ c' => c'.Ready ∧ c.Le c' ∧
      ∀ I ρ, c.Assumes I ρ → e.Holds I ρ → c'.Assumes I ρ) (fun _ => True) c := by
  have hlabels : wp (Cursor.pushGuard e) (fun _ c' =>
      c'.builder.nameGen = c.builder.nameGen ∧ c'.builder.vars = c.builder.vars ∧
      ∀ ls, c.builder.root.labelsAt c.node = some ls →
        c'.builder.root.labelsAt c'.node = some (ls ++ [.guard e])) (fun _ => True) c :=
    wp_pushNode (fun root i hpush => ⟨rfl, rfl, fun ls hls => (Node.push_spec hpush).2 ls hls rfl⟩)
      fun _ => trivial
  refine wp_mono (wp_and (wp_pushNode_guard e c) hlabels) (fun _ c' h => ?_) fun _ _ => trivial
  obtain ⟨hframe, hgen, hvars, hls⟩ := h
  obtain ⟨hc', hle⟩ := hframe hc.toValid
  have hnamed : c'.Named := by
    intro v hv
    rw [hgen]
    exact hc.named v (hvars ▸ hv)
  obtain ⟨hready, hassumes⟩ := hc.below hc' hls (hgen ▸ he) hgen.ge hnamed
  exact ⟨hready, hle, hassumes⟩

/-- **A name that was made is quantified**, and its hypothesis is assumed below. -/
lemma wp_pushForall_ready {x : Name} {sort : Srt} {p : Pred} (hc : c.Ready)
    (hx : x < c.builder.nameGen) (hp : p.Over (namesBefore c.builder.nameGen)) :
    wp (Cursor.pushForall x sort p) (fun _ c' => c'.Ready ∧ c.Le c' ∧
      c'.builder.nameGen = c.builder.nameGen ∧
      ∀ I ρ, c.Assumes I ρ → (ρ (.free x)).sort = sort → p.Holds I ρ → c'.Assumes I ρ)
      (fun _ => True) c := by
  have hlabels : wp (Cursor.pushForall x sort p) (fun _ c' =>
      c'.builder.nameGen = c.builder.nameGen ∧
      ∀ ls, c.builder.root.labelsAt c.node = some ls →
        c'.builder.root.labelsAt c'.node = some (ls ++ [.forAll x sort p])) (fun _ => True) c := by
    rw [Cursor.pushForall, wp_bind]
    exact wp_pushNode
      (fun root i hpush => ⟨rfl, fun ls hls => (Node.push_spec hpush).2 ls hls rfl⟩)
      fun _ => trivial
  refine wp_mono (wp_and (wp_and (wp_pushForall x sort p c) hlabels)
    (KeepsNamed.wp_pushForall_named sort p hc.named hx)) (fun _ c' h => ?_) fun _ _ => trivial
  obtain ⟨⟨hframe, hgen, hls⟩, hnamed⟩ := h
  obtain ⟨hc', hle⟩ := hframe hc.toValid
  obtain ⟨hready, hassumes⟩ := hc.below hc' hls (hgen ▸ ⟨hx, hp⟩) hgen.ge hnamed
  exact ⟨hready, hle, hgen, fun I ρ hρ hsort hholds => hassumes I ρ hρ ⟨hsort, hholds⟩⟩

/-- A scope begins. -/
lemma wp_pushScope_ready (hc : c.Ready) : wp Cursor.pushScope
    (fun _ c' => c'.Ready ∧ c.Le c' ∧ c'.node = c.node) (fun _ => True) c := by
  have hframe := Safe.pushScope c
  rw [Cursor.pushScope, wp_modify] at hframe ⊢
  obtain ⟨hc', hle⟩ := hframe hc.toValid
  exact ⟨hc.of_node_eq hc' .refl rfl le_rfl hc.named, hle, rfl⟩

/-- A name is made. -/
lemma Ready.withNameGen (hc : c.Ready) {gen : Name} (hgen : c.builder.nameGen ≤ gen) :
    Ready { c with builder := { c.builder with nameGen := gen } } :=
  hc.of_node_eq (hc.toValid.withNameGen gen) .refl rfl hgen fun v hv =>
    (hc.named v hv).trans_le hgen

/-- **A type is unpacked**: whatever value it has, the new name gets its index, and what is assumed
of it is true. -/
theorem wp_unpack_ready (tcx : Tcx) {ty : Ty} (hc : c.Ready)
    (hty : ty.Stable (namesBefore c.builder.nameGen)) :
    wp (Cursor.unpack ty) (fun ty' c' => c'.Ready ∧ c.Le c' ∧
      ty'.Stable (namesBefore c'.builder.nameGen) ∧
      ∀ I ρ S u, c.Assumes I ρ → ty.Has tcx S I ρ u →
        ∃ ρ', Valuation.AgreeOn (namesBefore c.builder.nameGen) ρ ρ' ∧ c'.Assumes I ρ' ∧
          ty'.Has tcx S I ρ' u) (fun _ => True) c := by
  cases ty with
  | exists_ bty p =>
    let x := c.builder.nameGen
    have hsucc : namesBefore x ⊆ namesBefore (x + 1) := namesBefore_mono (Nat.le_succ x)
    have hx : x ∈ namesBefore (x + 1) := Nat.lt_succ_self x
    have hmade := hc.withNameGen (Nat.le_succ x)
    rw [Cursor.unpack, wp_bind, wp_freshName, wp_bind]
    refine wp_imp (wp_pushForall_ready hmade hx ((hty.names.2.mono hsucc).substBoundVars hx))
      fun _ c' hpushed => ?_
    obtain ⟨hc', hle, hgen, hassumes⟩ := hpushed
    rw [wp_pure]
    refine ⟨hc', ⟨hle.root, (Nat.le_succ x).trans hle.nameGen, hle.node, hle.nvars, hle.vars⟩, ?_,
      fun I ρ S u hρ hu => ?_⟩
    · rw [hgen]
      exact ⟨⟨bty.scoped_mono hsucc hty.names.1, hx⟩, hty.refFree⟩
    · obtain ⟨hbty, v, hv, hp⟩ := hu
      have hagree : Valuation.AgreeOn (namesBefore x) ρ (ρ.set x v) :=
        Valuation.agreeOn_set (show x ∉ namesBefore x from lt_irrefl x) v
      have hself : (Expr.var (.free x)).eval I.div (ρ.set x v) = some v :=
        congrArg some (ρ.set_self x v)
      refine ⟨ρ.set x v, hagree, hassumes I _ ?_ ?_ ?_, ?_, v, hv, hself⟩
      · exact hc.assumes_congr hagree hρ
      · rw [ρ.set_self]
        exact hbty.sort hv
      · refine (Pred.holds_substBoundVars hself p).mpr ?_
        exact (Pred.holds_congr hty.names.2 (hagree.bind v)).mp hp
      · exact (BaseTy.has_congr S S hagree hty.names.1 hty.refFree u).mp hbty
  | _ => exact ⟨hc, .refl c, hty, fun I ρ S u hρ hu => ⟨ρ, .refl, hρ, hu⟩⟩

end Cursor

end LiquidRust.Typeck
