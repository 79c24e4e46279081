import LiquidRust.Typeck.Meaning

set_option relaxedAutoImplicit false
set_option autoImplicit false

/-!
# From trees to constraints

A tree becomes a constraint for the solver, by `Node::into_fixpoint` of
`liquid-rust-typeck/src/constraint_builder.rs`. What has no heads is left out. The solver's
unknown predicates have variables as their arguments, so another argument gets a new name, which
is quantified outside of the predicate and equal to the argument.

## Main definitions

* `LiquidRust.Typeck.Expr.toFixpoint`, `predToFixpoint`, `stitch` — the parts.
* `LiquidRust.Typeck.Node.intoFixpoint`, `ConstraintBuilder.intoFixpoint` — the constraint.
* `LiquidRust.Typeck.Node.WellFormed` — trees with bound variables and well-sorted arguments.

## Main results

* `LiquidRust.Typeck.Node.wp_intoFixpoint` — the constraint of a well-formed tree is true when
  the tree is.
* `LiquidRust.Typeck.ConstraintBuilder.intoFixpoint_preserves` — the same for a builder.
-/

namespace LiquidRust.Typeck

open Lib

/-! ## The translation -/

/-- The translation makes names after those of the builder. -/
abbrev FixpointM := StateT ℕ (Except Failure)

/-- A binding of a new name to an argument. -/
abbrev ArgBinding := Name × Srt × Fixpoint.Expr

/-- `expr_to_fixpoint`. -/
def Expr.toFixpoint : Expr → Except Failure Fixpoint.Expr
  | .var (.free x) => .ok (.var x)
  | .constant c => .ok (.constant c)
  | .binaryOp op e1 e2 => do
    let e1 ← e1.toFixpoint
    let e2 ← e2.toFixpoint
    pure (.binaryOp op e1 e2)
  | .unaryOp op e => do
    let e ← e.toFixpoint
    pure (.unaryOp op e)
  | .var .bound => .error .unreachable

/-- `IndexGen::fresh`. -/
def fresh : FixpointM Name :=
  modifyGet fun n => (n, n + 1)

/-- An argument that is not a variable becomes a new name. -/
def argToFixpoint (arg : Expr) (sort : Srt) : FixpointM (List ArgBinding × Name) :=
  match arg with
  | .var (.free x) => pure ([], x)
  | arg => do
    let x ← fresh
    let e ← liftM arg.toFixpoint
    pure ([(x, sort, .binaryOp .eq (.var x) e)], x)

/-- The arguments with their sorts, as long as there are both. -/
def argsToFixpoint : List Expr → List Srt → FixpointM (List ArgBinding × List Name)
  | arg :: args, sort :: sorts => do
    let (binding, x) ← argToFixpoint arg sort
    let (bindings, xs) ← argsToFixpoint args sorts
    pure (binding ++ bindings, x :: xs)
  | _, _ => pure ([], [])

/-- Bindings become quantifiers, the first one outermost. -/
def stitch (bindings : List ArgBinding) (c : Fixpoint.Constraint) : Fixpoint.Constraint :=
  bindings.reverse.foldl (fun c b => .forAll b.1 b.2.1 (.expr b.2.2) c) c

/-- No constraint, the only one, or a conjunction. -/
def conjoin : List Fixpoint.Constraint → Option Fixpoint.Constraint
  | [] => none
  | [c] => some c
  | cs => some (.conj cs)

section IntoFixpoint

variable (kvars : List (List Srt))

/-- `pred_to_fixpoint`: a predicate, with the bindings of its arguments. -/
def predToFixpoint : Pred → FixpointM (List ArgBinding × Fixpoint.Pred)
  | .expr e => do
    let e ← liftM e.toFixpoint
    pure ([], .expr e)
  | .kvar kvid args => do
    let sorts ← liftM (orError .missing kvars[kvid]?)
    let (bindings, xs) ← argsToFixpoint args sorts
    pure (bindings, .kvar kvid xs)

mutual

/-- `Node::into_fixpoint`. A node without heads below it has no constraint. -/
def Node.intoFixpoint : Node → FixpointM (Option Fixpoint.Constraint)
  | .conj children => do
    let cs ← Node.allIntoFixpoint children
    pure (conjoin cs)
  | .forAll x sort p children => do
    let (bindings, p) ← predToFixpoint kvars p
    let cs ← Node.allIntoFixpoint children
    pure ((conjoin cs).map fun c => stitch bindings (.forAll x sort p c))
  | .guard e children => do
    let e ← liftM e.toFixpoint
    let cs ← Node.allIntoFixpoint children
    pure ((conjoin cs).map fun c => .guard e c)
  | .head p => do
    let (bindings, p) ← predToFixpoint kvars p
    pure (some (stitch bindings (.pred p)))

/-- The constraints of the children that have one. -/
def Node.allIntoFixpoint : List Node → FixpointM (List Fixpoint.Constraint)
  | [] => pure []
  | child :: children => do
    let c ← child.intoFixpoint
    let cs ← Node.allIntoFixpoint children
    pure (c.toList ++ cs)

end

end IntoFixpoint

/-- The constraint and the sorts of the unknown predicates, in the order of their numbers. -/
structure FixpointTask where
  kvars : List (KVid × List Srt)
  constraint : Fixpoint.Constraint

/-- `ConstraintBuilder::into_fixpoint`. -/
def ConstraintBuilder.intoFixpoint (builder : ConstraintBuilder) : Except Failure FixpointTask := do
  let (constraint, _) ← (builder.root.intoFixpoint builder.kvars).run builder.nameGen
  pure
    { kvars := builder.kvars.zipIdx.map fun p => (p.2, p.1)
      constraint := constraint.getD .tt }

/-! ## Well-formed trees -/

/-- The sorts of the variables that are bound. -/
abbrev SortCtx := Name → Option Srt

/-- The variables that are bound. -/
def SortCtx.dom (Γ : SortCtx) : Set Name :=
  {x | (Γ x).isSome}

/-- The sort of an expression, if its variables are bound and it is well-sorted. -/
def Expr.sort (Γ : SortCtx) : Expr → Option Srt
  | .var (.free x) => Γ x
  | .var .bound => none
  | .constant c => some c.sort
  | .binaryOp op e1 e2 => (e1.sort Γ).bind fun a => (e2.sort Γ).bind fun b => op.sort a b
  | .unaryOp op e => (e.sort Γ).bind op.sort

/-- The variables of a predicate are bound, and an unknown predicate has arguments of the sorts
with which it was declared. -/
def Pred.WellFormed (kvars : List (List Srt)) (Γ : SortCtx) : Pred → Prop
  | .kvar kvid args => ∃ sorts, kvars[kvid]? = some sorts ∧
      List.Forall₂ (fun e s => Expr.sort Γ e = some s) args sorts
  | .expr e => e.BoundIn Γ.dom

/-- The arguments of an unknown predicate are variables. -/
def Pred.OverVars : Pred → Prop
  | .kvar _ args => ∃ xs : List Name, args = xs.map fun x => .var (.free x)
  | .expr _ => True

section WellFormed

variable (kvars : List (List Srt)) (gen : ℕ)

mutual

/-- **A well-formed tree**: its predicates are, the names that it binds come before `gen`, and
those of its unknown predicates that are hypotheses are over variables. -/
def Node.WellFormed (Γ : SortCtx) : Node → Prop
  | .conj children => Node.AllWellFormed Γ children
  | .forAll x sort p children => x < gen ∧ p.OverVars ∧
      p.WellFormed kvars (Function.update Γ x (some sort)) ∧
      Node.AllWellFormed (Function.update Γ x (some sort)) children
  | .guard e children => e.BoundIn Γ.dom ∧ Node.AllWellFormed Γ children
  | .head p => p.WellFormed kvars Γ

/-- Well-formed children. -/
def Node.AllWellFormed (Γ : SortCtx) : List Node → Prop
  | [] => True
  | child :: children => child.WellFormed Γ ∧ Node.AllWellFormed Γ children

end

end WellFormed

namespace Valuation

/-- The values of the variables. -/
def names (ρ : Valuation) : Name → Val :=
  fun x => ρ (.free x)

/-- The variables that are bound have values of their sorts. -/
def Respects (Γ : SortCtx) (ρ : Valuation) : Prop :=
  ∀ ⦃x s⦄, Γ x = some s → (ρ (.free x)).sort = s

/-- Setting a variable sets its name. -/
lemma names_set (ρ : Valuation) (x : Name) (v : Val) :
    (ρ.set x v).names = Function.update ρ.names x v := by
  funext y
  by_cases h : y = x
  · subst h
    simp [names]
  · rw [names, set_of_ne ρ h, Function.update_of_ne h, names]

/-- Setting a variable to a value of its sort respects the sorts. -/
lemma Respects.set {Γ : SortCtx} {ρ : Valuation} (h : ρ.Respects Γ) (x : Name) (v : Val) :
    (ρ.set x v).Respects (Function.update Γ x (some v.sort)) := by
  intro y s hy
  by_cases hyx : y = x
  · subst hyx
    rw [Function.update_self] at hy
    rw [set_self]
    exact Option.some.inj hy
  · rw [Function.update_of_ne hyx] at hy
    rw [set_of_ne ρ hyx]
    exact h hy

/-- A name that is not bound gets a value. -/
lemma Respects.set_of_notMem {Γ : SortCtx} {ρ : Valuation} (h : ρ.Respects Γ) {x : Name}
    (hx : x ∉ Γ.dom) (v : Val) : (ρ.set x v).Respects Γ := by
  intro y s hy
  have hyx : y ≠ x := by
    rintro rfl
    exact hx (by simp [SortCtx.dom, hy])
  rw [set_of_ne ρ hyx]
  exact h hy

end Valuation

namespace Expr

variable {Γ : SortCtx} {N : Set Name} {e : Expr}

/-- An expression with a sort is over the names that have one. -/
lemma boundIn_of_sort {s : Srt} (h : e.sort Γ = some s) : e.BoundIn Γ.dom := by
  induction e generalizing s with
  | var x =>
    cases x with
    | bound => cases h
    | free x =>
      change Γ x = some s at h
      show (Γ x).isSome
      rw [h]
      rfl
  | constant c => trivial
  | binaryOp op e1 e2 ih1 ih2 =>
    obtain ⟨a, ha, hb⟩ := Option.bind_eq_some_iff.mp h
    obtain ⟨b, hb, -⟩ := Option.bind_eq_some_iff.mp hb
    exact ⟨ih1 ha, ih2 hb⟩
  | unaryOp op e ih =>
    obtain ⟨a, ha, -⟩ := Option.bind_eq_some_iff.mp h
    exact ih ha

/-- A well-sorted expression has a value of its sort. -/
lemma exists_eval_of_sort (div : ℤ → ℤ → ℤ) {ρ : Valuation} (hρ : ρ.Respects Γ) {s : Srt}
    (h : e.sort Γ = some s) : ∃ v, e.eval div ρ = some v ∧ v.sort = s := by
  induction e generalizing s with
  | var x =>
    cases x with
    | bound => cases h
    | free x => exact ⟨_, rfl, hρ h⟩
  | constant c =>
    obtain rfl := Option.some.inj h
    exact ⟨_, rfl, by rcases c with ⟨_ | _, n⟩ | b <;> rfl⟩
  | binaryOp op e1 e2 ih1 ih2 =>
    obtain ⟨a, ha, h⟩ := Option.bind_eq_some_iff.mp h
    obtain ⟨b, hb, h⟩ := Option.bind_eq_some_iff.mp h
    obtain ⟨v, hv, rfl⟩ := ih1 ha
    obtain ⟨w, hw, rfl⟩ := ih2 hb
    rw [← op.sort_eval div v w] at h
    obtain ⟨u, hu, rfl⟩ := Option.map_eq_some_iff.mp h
    exact ⟨u, by rw [eval, hv, hw]; exact hu, rfl⟩
  | unaryOp op e ih =>
    obtain ⟨a, ha, h⟩ := Option.bind_eq_some_iff.mp h
    obtain ⟨v, hv, rfl⟩ := ih ha
    rw [← op.sort_eval v] at h
    obtain ⟨u, hu, rfl⟩ := Option.map_eq_some_iff.mp h
    exact ⟨u, by rw [eval, hv]; exact hu, rfl⟩

/-- Expressions with sorts, one by one, are over the names that have one. -/
lemma boundIn_of_forall₂_sort {args : List Expr} {sorts : List Srt}
    (h : List.Forall₂ (fun e s => Expr.sort Γ e = some s) args sorts) :
    ∀ e ∈ args, e.BoundIn Γ.dom := by
  induction h with
  | nil => simp
  | cons hsort _ ih => exact List.forall_mem_cons.mpr ⟨boundIn_of_sort hsort, ih⟩

/-- Expressions with sorts have values, one by one. -/
lemma exists_forall₂_eval (div : ℤ → ℤ → ℤ) {ρ : Valuation} (hρ : ρ.Respects Γ)
    {args : List Expr} {sorts : List Srt}
    (h : List.Forall₂ (fun e s => Expr.sort Γ e = some s) args sorts) :
    ∃ vs, List.Forall₂ (fun e v => Expr.eval div ρ e = some v) args vs := by
  induction h with
  | nil => exact ⟨[], .nil⟩
  | cons hsort _ ih =>
    obtain ⟨v, hv, -⟩ := exists_eval_of_sort div hρ hsort
    obtain ⟨vs, hvs⟩ := ih
    exact ⟨v :: vs, .cons hv hvs⟩

/-- **The translation of an expression** keeps its value. -/
lemma BoundIn.exists_toFixpoint (h : e.BoundIn N) : ∃ e', e.toFixpoint = .ok e' ∧
    ∀ div ρ, e'.eval div (Valuation.names ρ) = e.eval div ρ := by
  induction e with
  | var x =>
    cases x with
    | bound => exact h.elim
    | free x => exact ⟨_, rfl, fun _ _ => rfl⟩
  | constant c => exact ⟨_, rfl, fun _ _ => rfl⟩
  | binaryOp op e1 e2 ih1 ih2 =>
    obtain ⟨e1', h1, heval1⟩ := ih1 h.1
    obtain ⟨e2', h2, heval2⟩ := ih2 h.2
    refine ⟨.binaryOp op e1' e2', by rw [toFixpoint, h1, h2]; rfl, fun div ρ => ?_⟩
    rw [Fixpoint.Expr.eval, heval1, heval2, eval]
  | unaryOp op e ih =>
    obtain ⟨e', h', heval⟩ := ih h
    refine ⟨.unaryOp op e', by rw [toFixpoint, h']; rfl, fun div ρ => ?_⟩
    rw [Fixpoint.Expr.eval, heval, eval]

end Expr

/-! ## Arguments -/

/-- Stitching quantifies over the first argument outermost. -/
@[simp] lemma stitch_cons (b : ArgBinding) (bindings : List ArgBinding)
    (c : Fixpoint.Constraint) :
    stitch (b :: bindings) c = .forAll b.1 b.2.1 (.expr b.2.2) (stitch bindings c) := by
  simp [stitch, List.foldl_append]

/-- An argument that is no variable takes a fresh one. -/
lemma argToFixpoint_of_ne {arg : Expr} (h : ∀ x, arg ≠ .var (.free x)) (sort : Srt) :
    argToFixpoint arg sort = (do
      let x ← fresh
      let e ← liftM arg.toFixpoint
      pure ([(x, sort, .binaryOp .eq (.var x) e)], x)) := by
  unfold argToFixpoint
  split
  · next x => exact absurd rfl (h x)
  · rfl

/-- A variable stands for itself. -/
@[simp] lemma argToFixpoint_var (x : Name) (sort : Srt) :
    argToFixpoint (.var (.free x)) sort = pure ([], x) := rfl

/-- Variables stay. -/
lemma argsToFixpoint_vars {xs : List Name} {sorts : List Srt} (h : xs.length = sorts.length) :
    argsToFixpoint (xs.map fun x => .var (.free x)) sorts = pure ([], xs) := by
  induction xs generalizing sorts with
  | nil => rfl
  | cons x xs ih =>
    cases sorts with
    | nil => cases h
    | cons sort sorts =>
      rw [List.map_cons, argsToFixpoint, argToFixpoint_var, ih (by simpa using h)]
      rfl

/-- **What the translated arguments mean**: an unknown predicate over them, after more arguments
that were there before, is the relation on the values of the arguments. -/
structure TranslatesArgs (Γ : SortCtx) (n : ℕ) (args : List Expr) (bindings : List ArgBinding)
    (xs : List Name) : Prop where
  holds : ∀ (I : Interp) (ρ : Valuation), ρ.Respects Γ → ∀ vs,
    List.Forall₂ (fun e v => Expr.eval I.div ρ e = some v) args vs →
    ∀ (kvid : KVid) (done : List Name), (∀ x ∈ done, x < n) →
      ((stitch bindings (.pred (.kvar kvid (done ++ xs)))).Holds I.div I.kvar ρ.names ↔
        I.kvar kvid (done.map ρ.names ++ vs))
  argsBound : ∀ (N : Set Name) (kvid : KVid) (done : List Name), Γ.dom ⊆ N → (∀ x ∈ done, x ∈ N) →
    (stitch bindings (.pred (.kvar kvid (done ++ xs)))).ArgsBound N

/-- A variable comes first. -/
lemma TranslatesArgs.cons_var {Γ : SortCtx} {n : ℕ} {args : List Expr}
    {bindings : List ArgBinding} {xs : List Name} (h : TranslatesArgs Γ n args bindings xs)
    {x : Name} (hx : x ∈ Γ.dom) (hn : x < n) :
    TranslatesArgs Γ n (.var (.free x) :: args) bindings (x :: xs) where
  holds I ρ hρ vs hvs kvid done hdone := by
    obtain ⟨v, vs, hv, hvs', rfl⟩ := List.forall₂_cons_left_iff.mp hvs
    obtain rfl : ρ.names x = v := Option.some.inj hv
    have hdone' : ∀ y ∈ done ++ [x], y < n := by
      intro y hy
      rcases List.mem_append.mp hy with hy | hy
      · exact hdone y hy
      · exact List.mem_singleton.mp hy ▸ hn
    simpa using h.holds I ρ hρ vs hvs' kvid (done ++ [x]) hdone'
  argsBound N kvid done hN hdone := by
    have hdone' : ∀ y ∈ done ++ [x], y ∈ N := by
      intro y hy
      rcases List.mem_append.mp hy with hy | hy
      · exact hdone y hy
      · exact List.mem_singleton.mp hy ▸ hN hx
    simpa using h.argsBound N kvid (done ++ [x]) hN hdone'

/-- The equation of a new name has one solution. -/
lemma holds_eq_fresh {I : Interp} {ρ : Valuation} {N : Set Name} {x : Name} (hx : x ∉ N) {e : Expr}
    (he : e.BoundIn N) {e' : Fixpoint.Expr}
    (heval : ∀ div ρ, e'.eval div (Valuation.names ρ) = e.eval div ρ) {u : Val}
    (hu : e.eval I.div ρ = some u) (v : Val) (hsort : v.sort = u.sort) :
    (Fixpoint.Expr.binaryOp .eq (.var x) e').Holds I.div (Function.update ρ.names x v) ↔ v = u := by
  have hagree : e.eval I.div (ρ.set x v) = some u :=
    (Expr.eval_congr he.over (Valuation.agreeOn_set hx v)).symm.trans hu
  rw [← Valuation.names_set, Fixpoint.Expr.Holds, Fixpoint.Expr.eval, heval, hagree,
    Fixpoint.Expr.eval, Valuation.names, Valuation.set_self]
  cases v <;> cases u <;> simp_all [Fixpoint.BinOp.apply, Fixpoint.BinOp.eval, Fixpoint.Val.sort]

/-- Another argument comes first. -/
lemma TranslatesArgs.cons_fresh {Γ : SortCtx} {n : ℕ} {args : List Expr}
    {bindings : List ArgBinding} {xs : List Name} (h : TranslatesArgs Γ (n + 1) args bindings xs)
    (hn : n ∉ Γ.dom) (hargs : ∀ e ∈ args, e.BoundIn Γ.dom) {e : Expr} {s : Srt}
    (hsort : e.sort Γ = some s) {e' : Fixpoint.Expr}
    (heval : ∀ div ρ, e'.eval div (Valuation.names ρ) = e.eval div ρ) :
    TranslatesArgs Γ n (e :: args) ((n, s, .binaryOp .eq (.var n) e') :: bindings) (n :: xs) where
  holds I ρ hρ vs hvs kvid done hdone := by
    obtain ⟨u, vs, hu, hvs', rfl⟩ := List.forall₂_cons_left_iff.mp hvs
    obtain ⟨u', hu', rfl⟩ := Expr.exists_eval_of_sort I.div hρ hsort
    obtain rfl : u = u' := Option.some.inj (hu.symm.trans hu')
    -- the arguments do not see the new name
    have hvs'' : List.Forall₂ (fun e v => Expr.eval I.div (ρ.set n u) e = some v) args vs :=
      (Expr.forall₂_eval_congr (fun e he => (hargs e he).over) (Valuation.agreeOn_set hn u) vs).mp
        hvs'
    have hdone' : ∀ y ∈ done ++ [n], y < n + 1 := by
      intro y hy
      rcases List.mem_append.mp hy with hy | hy
      · exact (hdone y hy).trans (Nat.lt_succ_self n)
      · exact List.mem_singleton.mp hy ▸ Nat.lt_succ_self n
    have hmap : (done ++ [n]).map (ρ.set n u).names = done.map ρ.names ++ [u] := by
      rw [List.map_append, List.map_singleton, Valuation.names, Valuation.set_self]
      congr 1
      exact List.map_congr_left fun y hy => ρ.set_of_ne (hdone y hy).ne u
    have hrest := h.holds I (ρ.set n u) (hρ.set_of_notMem hn u) vs hvs'' kvid (done ++ [n]) hdone'
    rw [hmap, List.append_assoc, List.append_assoc, Valuation.names_set] at hrest
    have heq := holds_eq_fresh hn (Expr.boundIn_of_sort hsort) heval hu
    rw [stitch_cons]
    constructor
    · intro hall
      exact hrest.mp (hall u rfl ((heq u rfl).mpr rfl))
    · intro hk v hv hbinding
      obtain rfl := (heq v hv).mp hbinding
      exact hrest.mpr hk
  argsBound N kvid done hN hdone := by
    rw [stitch_cons]
    refine ⟨trivial, ?_⟩
    have hdone' : ∀ y ∈ done ++ [n], y ∈ insert n N := by
      intro y hy
      rcases List.mem_append.mp hy with hy | hy
      · exact .inr (hdone y hy)
      · exact .inl (List.mem_singleton.mp hy)
    simpa using h.argsBound (insert n N) kvid (done ++ [n])
      (hN.trans (Set.subset_insert n N)) hdone'

/-- **Well-sorted arguments** are translated. -/
lemma wp_argsToFixpoint {Γ : SortCtx} {args : List Expr} {sorts : List Srt}
    (hargs : List.Forall₂ (fun e s => Expr.sort Γ e = some s) args sorts) {n : ℕ}
    (hΓ : ∀ x ∈ Γ.dom, x < n) :
    wp (argsToFixpoint args sorts) (fun r n' => n ≤ n' ∧ TranslatesArgs Γ n args r.1 r.2)
      (fun _ => False) n := by
  induction hargs generalizing n with
  | nil =>
    refine ⟨le_rfl, fun I ρ _ vs hvs kvid done _ => ?_, fun N kvid done _ hdone => ?_⟩
    · obtain rfl := List.forall₂_nil_left_iff.mp hvs
      rw [List.append_nil, List.append_nil]
      rfl
    · rw [List.append_nil]
      exact hdone
  | @cons arg sort args sorts hsort hrest ih =>
    rw [argsToFixpoint, wp_bind]
    by_cases hvar : ∃ x, arg = .var (.free x)
    · obtain ⟨x, rfl⟩ := hvar
      have hx : x ∈ Γ.dom := Expr.boundIn_of_sort hsort
      rw [argToFixpoint_var, wp_pure]
      dsimp only
      rw [wp_bind]
      exact wp_imp (ih hΓ) fun r n' h => ⟨h.1, h.2.cons_var hx (hΓ x hx)⟩
    · have hbound := Expr.boundIn_of_forall₂_sort hrest
      obtain ⟨e', hok, heval⟩ := (Expr.boundIn_of_sort hsort).exists_toFixpoint
      have hn : n ∉ Γ.dom := fun h => (hΓ n h).false
      rw [argToFixpoint_of_ne (fun x hx => hvar ⟨x, hx⟩), wp_bind, fresh, wp_modifyGet, wp_bind,
        wp_liftM, hok, post_ok, wp_pure]
      dsimp only
      rw [wp_bind]
      exact wp_imp (ih fun x hx => (hΓ x hx).trans (Nat.lt_succ_self n)) fun r n' h =>
        ⟨(Nat.le_succ n).trans h.1, h.2.cons_fresh hn hbound hsort heval⟩

/-! ## Predicates -/

/-- A predicate that is a head. -/
lemma wp_predToFixpoint {kvars : List (List Srt)} {Γ : SortCtx} {p : Pred}
    (hp : p.WellFormed kvars Γ) {n : ℕ} (hΓ : ∀ x ∈ Γ.dom, x < n) :
    wp (predToFixpoint kvars p) (fun r n' => n ≤ n' ∧
        (∀ (I : Interp) (ρ : Valuation), ρ.Respects Γ →
          ((stitch r.1 (.pred r.2)).Holds I.div I.kvar ρ.names ↔ p.Holds I ρ)) ∧
        (stitch r.1 (.pred r.2)).ArgsBound Γ.dom)
      (fun _ => False) n := by
  cases p with
  | expr e =>
    obtain ⟨e', hok, heval⟩ := Expr.BoundIn.exists_toFixpoint hp
    rw [predToFixpoint, wp_bind, wp_liftM, hok]
    refine ⟨le_rfl, fun I ρ _ => ?_, trivial⟩
    show e'.eval I.div ρ.names = _ ↔ e.eval I.div ρ = _
    rw [heval]
  | kvar kvid args =>
    obtain ⟨sorts, hsorts, hargs⟩ := hp
    rw [predToFixpoint, wp_bind, wp_liftM, hsorts, orError, post_ok, wp_bind]
    refine wp_imp (wp_argsToFixpoint hargs hΓ) fun r n' h => ⟨h.1, fun I ρ hρ => ?_, ?_⟩
    · have hholds := fun vs hvs => h.2.holds I ρ hρ vs hvs kvid [] (by simp)
      obtain ⟨vs, hvs⟩ := Expr.exists_forall₂_eval I.div hρ hargs
      constructor
      · intro hc
        exact ⟨vs, hvs, (hholds vs hvs).mp hc⟩
      · rintro ⟨vs, hvs, hk⟩
        exact (hholds vs hvs).mpr hk
    · exact h.2.argsBound _ kvid [] subset_rfl (by simp)

/-- A predicate that is a hypothesis needs no new names. -/
lemma wp_predToFixpoint_vars {kvars : List (List Srt)} {Γ : SortCtx} {p : Pred}
    (hvars : p.OverVars) (hp : p.WellFormed kvars Γ) (n : ℕ) :
    wp (predToFixpoint kvars p) (fun r _ => r.1 = []) (fun _ => True) n := by
  cases p with
  | expr e =>
    rw [predToFixpoint, wp_bind, wp_liftM]
    exact post_of_forall (fun _ => rfl) fun _ => trivial
  | kvar kvid args =>
    obtain ⟨sorts, hsorts, hargs⟩ := hp
    obtain ⟨xs, rfl⟩ := hvars
    have hlen : xs.length = sorts.length := by simpa using hargs.length_eq
    rw [predToFixpoint, wp_bind, wp_liftM, hsorts, orError, post_ok, wp_bind,
      argsToFixpoint_vars hlen]
    rfl

/-! ## Trees -/

/-- **The constraint of a tree** is true when the tree is, and its arguments are bound. -/
structure Translates (Γ : SortCtx) (node : Node) (c : Option Fixpoint.Constraint) : Prop where
  holds : ∀ (I : Interp) (ρ : Valuation), ρ.Respects Γ →
    ((c.getD .tt).Holds I.div I.kvar ρ.names ↔ node.Holds I ρ)
  argsBound : (c.getD .tt).ArgsBound Γ.dom

/-- The constraints of some trees. -/
structure TranslatesAll (Γ : SortCtx) (nodes : List Node) (cs : List Fixpoint.Constraint) :
    Prop where
  holds : ∀ (I : Interp) (ρ : Valuation), ρ.Respects Γ →
    (Fixpoint.Constraint.AllHold I.div I.kvar ρ.names cs ↔ Node.AllHold I ρ nodes)
  argsBound : Fixpoint.Constraint.AllArgsBound Γ.dom cs

section Translates

variable {kvars : List (List Srt)} {Γ : SortCtx} {nodes : List Node}

/-- Constraints for the children conjoin to one for the conjunction. -/
lemma TranslatesAll.conj {cs : List Fixpoint.Constraint} (h : TranslatesAll Γ nodes cs) :
    Translates Γ (.conj nodes) (conjoin cs) := by
  unfold conjoin
  split
  · refine ⟨fun I ρ hρ => ?_, trivial⟩
    refine Iff.trans ?_ (h.holds I ρ hρ)
    exact ⟨fun _ => trivial, fun _ => rfl⟩
  · next c =>
    refine ⟨fun I ρ hρ => ?_, h.argsBound.1⟩
    refine Iff.trans ?_ (h.holds I ρ hρ)
    simp [Fixpoint.Constraint.AllHold]
  · exact ⟨h.holds, h.argsBound⟩

/-- A tree comes first. -/
lemma TranslatesAll.cons {cs : List Fixpoint.Constraint} (h : TranslatesAll Γ nodes cs)
    {node : Node} {c : Option Fixpoint.Constraint} (hc : Translates Γ node c) :
    TranslatesAll Γ (node :: nodes) (c.toList ++ cs) := by
  cases c with
  | none =>
    refine ⟨fun I ρ hρ => ?_, h.argsBound⟩
    have hnode := (hc.holds I ρ hρ).mp rfl
    exact (h.holds I ρ hρ).trans ⟨fun hall => ⟨hnode, hall⟩, fun hall => hall.2⟩
  | some c =>
    exact ⟨fun I ρ hρ => and_congr (hc.holds I ρ hρ) (h.holds I ρ hρ),
      hc.argsBound, h.argsBound⟩

/-- A guard is left out if nothing is below it. -/
lemma Translates.guard {c : Option Fixpoint.Constraint} (h : Translates Γ (.conj nodes) c)
    {e : Expr} {e' : Fixpoint.Expr}
    (heval : ∀ div ρ, e'.eval div (Valuation.names ρ) = e.eval div ρ) :
    Translates Γ (.guard e nodes) (c.map fun c => .guard e' c) := by
  cases c with
  | none =>
    refine ⟨fun I ρ hρ => ?_, trivial⟩
    have hall := (h.holds I ρ hρ).mp rfl
    exact ⟨fun _ _ => hall, fun _ => rfl⟩
  | some c =>
    refine ⟨fun I ρ hρ => imp_congr ?_ (h.holds I ρ hρ), h.argsBound⟩
    show e'.eval I.div ρ.names = _ ↔ e.eval I.div ρ = _
    rw [heval]

/-- Giving a name a sort adds it. -/
lemma dom_update (x : Name) (sort : Srt) :
    SortCtx.dom (Function.update Γ x (some sort)) = insert x Γ.dom := by
  ext y
  by_cases h : y = x
  · subst h
    simp [SortCtx.dom]
  · simp [SortCtx.dom, h]

/-- A quantifier is left out if nothing is below it. -/
lemma Translates.forAll {c : Option Fixpoint.Constraint} {x : Name} {sort : Srt}
    (h : Translates (Function.update Γ x (some sort)) (.conj nodes) c) {p : Pred}
    {p' : Fixpoint.Pred}
    (hp : ∀ (I : Interp) (ρ : Valuation), ρ.Respects (Function.update Γ x (some sort)) →
      (p'.Holds I.div I.kvar ρ.names ↔ p.Holds I ρ))
    (hbound : p'.ArgsBound (SortCtx.dom (Function.update Γ x (some sort)))) :
    Translates Γ (.forAll x sort p nodes) (c.map fun c => .forAll x sort p' c) := by
  have hset : ∀ (ρ : Valuation), ρ.Respects Γ → ∀ v, v.sort = sort →
      (ρ.set x v).Respects (Function.update Γ x (some sort)) := by
    rintro ρ hρ v rfl
    exact hρ.set x v
  cases c with
  | none =>
    refine ⟨fun I ρ hρ => ⟨fun _ v hv _ => ?_, fun _ => rfl⟩, trivial⟩
    exact (h.holds I _ (hset ρ hρ v hv)).mp rfl
  | some c =>
    refine ⟨fun I ρ hρ => forall_congr' fun v => imp_congr_right fun hv => ?_, ?_⟩
    · rw [← Valuation.names_set]
      exact imp_congr (hp I _ (hset ρ hρ v hv)) (h.holds I _ (hset ρ hρ v hv))
    · rw [dom_update] at hbound
      have hc := h.argsBound
      rw [dom_update] at hc
      exact ⟨hbound, hc⟩

variable {gen : ℕ}

/-- The names with a sort stay below the generation. -/
lemma lt_of_mem_dom_update (hΓ : ∀ x ∈ Γ.dom, x < gen) {x : Name} (hx : x < gen) (sort : Srt) :
    ∀ y ∈ SortCtx.dom (Function.update Γ x (some sort)), y < gen := by
  rw [dom_update]
  rintro y (rfl | hy)
  · exact hx
  · exact hΓ y hy

variable (kvars)

mutual

/-- **Well-formed trees are translated**, with new names from `n` on. -/
theorem Node.wp_intoFixpoint : ∀ (node : Node) {Γ : SortCtx}, node.WellFormed kvars gen Γ →
    (∀ x ∈ Γ.dom, x < gen) → ∀ {n : ℕ}, gen ≤ n →
    wp (node.intoFixpoint kvars) (fun c n' => n ≤ n' ∧ Translates Γ node c) (fun _ => False) n
  | .conj children, Γ, hwf, hΓ, n, hn => by
    rw [intoFixpoint, wp_bind]
    exact wp_imp (Node.wp_allIntoFixpoint children hwf hΓ hn) fun cs n' h => ⟨h.1, h.2.conj⟩
  | .forAll x sort p children, Γ, hwf, hΓ, n, hn => by
    obtain ⟨hx, hvars, hp, hchildren⟩ := hwf
    have hΓ' := lt_of_mem_dom_update hΓ hx sort
    rw [intoFixpoint, wp_bind]
    refine wp_mono (wp_and (wp_predToFixpoint hp fun y hy => (hΓ' y hy).trans_le hn)
      (wp_predToFixpoint_vars hvars hp n)) (fun r n₁ h => ?_) fun _ h => h.1
    obtain ⟨bindings, p'⟩ := r
    obtain ⟨⟨hn₁, hholds, hbound⟩, rfl⟩ := h
    dsimp only
    rw [wp_bind]
    exact wp_imp (Node.wp_allIntoFixpoint children hchildren hΓ' (hn.trans hn₁)) fun cs n₂ h =>
      ⟨hn₁.trans h.1, h.2.conj.forAll hholds hbound⟩
  | .guard e children, Γ, hwf, hΓ, n, hn => by
    obtain ⟨e', hok, heval⟩ := hwf.1.exists_toFixpoint
    rw [intoFixpoint, wp_bind, wp_liftM, hok, post_ok, wp_bind]
    exact wp_imp (Node.wp_allIntoFixpoint children hwf.2 hΓ hn) fun cs n' h =>
      ⟨h.1, h.2.conj.guard heval⟩
  | .head p, Γ, hwf, hΓ, n, hn => by
    rw [intoFixpoint, wp_bind]
    exact wp_imp (wp_predToFixpoint hwf fun y hy => (hΓ y hy).trans_le hn) fun r n' h =>
      ⟨h.1, h.2.1, h.2.2⟩

/-- Well-formed children are translated one by one, with names that grow. -/
theorem Node.wp_allIntoFixpoint : ∀ (nodes : List Node) {Γ : SortCtx},
    Node.AllWellFormed kvars gen Γ nodes → (∀ x ∈ Γ.dom, x < gen) → ∀ {n : ℕ}, gen ≤ n →
    wp (Node.allIntoFixpoint kvars nodes) (fun cs n' => n ≤ n' ∧ TranslatesAll Γ nodes cs)
      (fun _ => False) n
  | [], Γ, _, _, n, _ => ⟨le_rfl, fun _ _ _ => Iff.rfl, trivial⟩
  | node :: nodes, Γ, hwf, hΓ, n, hn => by
    rw [allIntoFixpoint, wp_bind]
    refine wp_imp (Node.wp_intoFixpoint node hwf.1 hΓ hn) fun c n₁ h => ?_
    obtain ⟨hn₁, hc⟩ := h
    rw [wp_bind]
    exact wp_imp (Node.wp_allIntoFixpoint nodes hwf.2 hΓ (hn.trans hn₁)) fun cs n₂ h =>
      ⟨hn₁.trans h.1, h.2.cons hc⟩

end

end Translates

/-- **`into_fixpoint` preserves the meaning of a constraint.** If the variables of the tree are
bound, by the tree or by `Γ`, its names come from the builder, its unknown predicates are used with
the sorts of their declaration, and those that are hypotheses are over variables, then there is a
constraint. For all relations and all values of the free variables it is true if and only if the
tree is, and the arguments of its unknown predicates are bound.

**Proof sketch.** By induction on the tree. A node that binds a variable or has a hypothesis is
translated with the constraint of its children, and the variables that name the arguments of
unknown predicates are stitched around it with equations, which are met by exactly one value each.
New names come after those of the builder, so they do not capture a variable
(`Node.wp_intoFixpoint`). -/
theorem ConstraintBuilder.intoFixpoint_preserves {builder : ConstraintBuilder} {Γ : SortCtx}
    (hroot : builder.root.WellFormed builder.kvars builder.nameGen Γ)
    (hΓ : ∀ x ∈ Γ.dom, x < builder.nameGen) :
    ∃ task, builder.intoFixpoint = .ok task ∧
      (∀ (I : Interp) (ρ : Valuation), ρ.Respects Γ →
        (task.constraint.Holds I.div I.kvar ρ.names ↔ builder.root.Holds I ρ)) ∧
      task.constraint.ArgsBound Γ.dom := by
  have hwp := Node.wp_intoFixpoint builder.kvars builder.root hroot hΓ le_rfl
  rw [intoFixpoint]
  cases hrun : (builder.root.intoFixpoint builder.kvars).run builder.nameGen with
  | error f => exact (wp_of_run_error hwp hrun).elim
  | ok r =>
    obtain ⟨c, n⟩ := r
    have h := (wp_iff.mp hwp).1 c n hrun
    exact ⟨_, rfl, h.2.holds, h.2.argsBound⟩

/-- A predicate of `x` that has to hold of `x + 1`, next to nodes without heads. -/
def successorBuilder : ConstraintBuilder where
  root := .conj [.forAll 0 .int (.kvar 0 [.var (.free 0)])
    [.conj [], .head (.kvar 0 [.binaryOp .add (.var (.free 0)) (.constant (.int .positive 1))])],
    .guard .tt []]
  kvars := [[.int]]
  scopes := []
  vars := [(0, .int)]
  nameGen := 1

example : successorBuilder.intoFixpoint = .ok
    { kvars := [(0, [.int])]
      constraint := .forAll 0 .int (.kvar 0 [0]) <| .forAll 1 .int
        (.expr (.binaryOp .eq (.var 1) (.binaryOp .add (.var 0) (.constant (.int .positive 1)))))
        (.pred (.kvar 0 [1])) } := rfl

/-- The constraint of the successor function is well formed. -/
lemma successorBuilder_wellFormed :
    successorBuilder.root.WellFormed successorBuilder.kvars successorBuilder.nameGen
      fun _ => none := by
  refine ⟨⟨by decide, ⟨[0], rfl⟩, ⟨[.int], rfl, ?_⟩, trivial, ⟨[.int], rfl, ?_⟩, trivial⟩,
    ⟨trivial, trivial⟩, trivial⟩
  · exact .cons (by decide) .nil
  · exact .cons (by decide) .nil

/-- Its task has the same solutions and declares its variables. -/
theorem ConstraintBuilder.intoFixpoint_preserves_successor :
    ∃ task, successorBuilder.intoFixpoint = .ok task ∧
      (∀ (I : Interp) (ρ : Valuation), ρ.Respects (fun _ => none) →
        (task.constraint.Holds I.div I.kvar ρ.names ↔ successorBuilder.root.Holds I ρ)) ∧
      task.constraint.ArgsBound (SortCtx.dom fun _ => none) :=
  ConstraintBuilder.intoFixpoint_preserves successorBuilder_wellFormed fun _ hx => nomatch hx

end LiquidRust.Typeck
