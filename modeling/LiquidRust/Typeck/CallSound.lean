import LiquidRust.Typeck.Instantiation

set_option relaxedAutoImplicit false
set_option autoImplicit false

/-!
# Calls are sound

The nodes that a call pushes say that the values of the arguments, and what is at the locations of
`requires`, are of the types that the signature asks for. After the call, what is at the locations
of `ensures` is of the types there, and the value that is returned is at its place. The names that
the call makes get the indices of these values, and with them the store inhabits the environment
that is passed on.

## Main definitions

* `LiquidRust.Typeck.Subst.CallPre`, `CallPost` — the contract of a call.
* `LiquidRust.Typeck.Cursor.Wraps`, `Valuation.Extends` — what is pushed below, and the values of
  the names there.
* `LiquidRust.Typeck.Checker.Ensuring` — what holds while the bindings of `ensures` are processed.
* `LiquidRust.Typeck.Checker.SoundCall` — sound calls.

## Main results

* `LiquidRust.Typeck.Checker.checkCall_sound` — calls are sound.
-/

namespace LiquidRust.Typeck

open Lib Cursor
open Core (FreeIn)
open Core.Ir (Place Operand BasicBlock)

namespace Subst

/-! ## The contract of a call -/

variable (tcx : Tcx) (I : Interp) (ρ : Valuation) (S : Store)

/-- A value of the type that `ty₀` stands for. -/
def Has (subst : Subst) (ty₀ : Core.Ty) (u : Value) : Prop :=
  ∃ ty, subst.Instantiates ty₀ ty ∧ ty.Has tcx S I ρ u

/-- What is stored at the location of a binding has its type. -/
def HasAt (subst : Subst) (binding : Core.Name × Core.Ty) : Prop :=
  ∃ loc, subst.locations binding.1 = some loc ∧ subst.Has tcx I ρ S binding.2 (S loc)

/-- **The precondition of a call**: the predicates of the parameters are true, the arguments have
the types of the signature, and so has what is at the locations of `requires`. -/
structure CallPre (subst : Subst) (fn_sig : Core.FnSig) (args : List Operand) : Prop where
  params : ∀ param ∈ fn_sig.params, ∃ e, subst.lowerExpr param.pred = .ok e ∧ e.Holds I ρ
  args : List.Forall₂ (fun op ty₀ => ∃ u, S.operand op = some u ∧ subst.Has tcx I ρ S ty₀ u) args
    fn_sig.args
  requires : ∀ binding ∈ fn_sig.requires, subst.HasAt tcx I ρ S binding

/-- **The postcondition of a call** that leaves the store `S'` and returns `u`: what is at the
locations of `ensures` has the types there, the other locations are as they were, and `u` has the
type that is returned. -/
structure CallPost (subst : Subst) (fn_sig : Core.FnSig) (S' : Store) (u : Value) : Prop where
  ensures : ∀ binding ∈ fn_sig.ensures, subst.HasAt tcx I ρ S' binding
  frame : ∀ loc, (∀ binding ∈ fn_sig.ensures, subst.locations binding.1 ≠ some loc) → S' loc = S loc
  ret : subst.Has tcx I ρ S' fn_sig.ret u

end Subst

/-! ## The precondition -/

namespace Checker

variable {tcx : Tcx} {N : Set Name} {subst : Subst} {fn_sig : Core.FnSig} {env : TypeEnv}
  {actuals : List Ty} {c : Cursor}

/-- Lowering a scoped type by a closed substitution gives the type lowered at the values. -/
lemma proves_lowerTy {ps locs : List Core.Name} {ty₀ : Core.Ty} (hc : c.Valid)
    (hs : subst.Closed N) (h : ty₀.Scoped ps locs) (hfree : ty₀.ParamFree) :
    c.Proves (subst.Lowers N ty₀) (fun _ _ _ => True) (subst.lowerTy ty₀) :=
  .of_wp hc (Subst.wp_lowerTy_lowers hs h hfree c)

/-- A type of a signature is compared with an actual one: the values of this are values of the
type of the signature. -/
lemma proves_lowerTy_subtyping {ps locs : List Core.Name} {ty₀ : Core.Ty} {ty : Ty} (hc : c.Valid)
    (hN : ∀ x ∈ N, x < c.builder.nameGen) (hs : subst.Closed N) (hty : ty.Stable N)
    (h : ty₀.Scoped ps locs) (hfree : ty₀.ParamFree) :
    c.Proves (fun _ => True)
      (fun I ρ _ => ∀ S u, ty.Has tcx S I ρ u → subst.Has tcx I ρ S ty₀ u)
      (subst.lowerTy ty₀ >>= fun ty' => subtyping tcx ty ty') := by
  refine (proves_lowerTy hc hs h hfree).bind fun ty' c' hc' hgen hlowers => ?_
  refine (proves_subtyping hc' (fun x hx => (hN x hx).trans_le hgen) hty.names
    hlowers.stable.names).mono (fun _ h => h) fun I ρ _ _ hsub _ S u hu => ?_
  exact ⟨ty', hlowers.instantiates (.refl subst), hsub S u hu⟩

/-- The predicates of the parameters are true. -/
lemma proves_callParams (hc : c.Valid) :
    c.Proves (fun _ => True)
      (fun I ρ _ => ∀ param ∈ fn_sig.params,
        ∃ e, subst.lowerExpr param.pred = .ok e ∧ e.Holds I ρ)
      (callParams subst fn_sig) := by
  refine .forM hc fun param _ c' hc' _ => .ofExcept fun e he => ?_
  refine (Proves.of_obliges (Obliges.pushHead hc' (.expr e))).mono (fun _ h => h) ?_
  exact fun I ρ _ _ hholds => ⟨e, he, hholds⟩

/-- The arguments have the types of the signature. -/
lemma proves_callArgs (hc : c.Valid) (hN : ∀ x ∈ N, x < c.builder.nameGen) (hs : subst.Closed N)
    (hactuals : ∀ ty ∈ actuals, ty.Stable N) (hscoped : fn_sig.Scoped)
    (hfree : fn_sig.ParamFree) :
    c.Proves (fun _ => True)
      (fun I ρ _ => ∀ p ∈ actuals.zip fn_sig.args, ∀ S u, p.1.Has tcx S I ρ u →
        subst.Has tcx I ρ S p.2 u)
      (callArgs tcx subst actuals fn_sig) := by
  refine .forM hc fun p hp c' hc' hgen => ?_
  obtain ⟨hactual, hformal⟩ := List.of_mem_zip hp
  exact proves_lowerTy_subtyping hc' (fun x hx => (hN x hx).trans_le hgen) hs
    (hactuals p.1 hactual) (hscoped.args p.2 hformal) (hfree.args p.2 hformal)

/-- What is at the locations of `requires` has the types that are required. -/
lemma proves_callRequires (hc : c.Valid) (hN : ∀ x ∈ N, x < c.builder.nameGen)
    (hs : subst.Closed N) (henv : env.Unpacked N) (hscoped : fn_sig.Scoped)
    (hfree : fn_sig.ParamFree) :
    c.Proves (fun _ => True)
      (fun I ρ _ => ∀ binding ∈ fn_sig.requires, ∀ S, env.Inhabits tcx I ρ S →
        subst.HasAt tcx I ρ S binding)
      (callRequires tcx env subst fn_sig) := by
  refine .forM hc fun binding hbinding c' hc' hgen => ?_
  refine .orFail fun loc hloc => .orFail fun ty hty => ?_
  obtain ⟨locs, hbscoped⟩ := hscoped.requires.exists_scoped hbinding
  refine (proves_lowerTy_subtyping hc' (fun x hx => (hN x hx).trans_le hgen) hs (henv.stable hty)
    hbscoped (hfree.requires binding hbinding)).mono (fun _ h => h) ?_
  exact fun I ρ _ _ hhas S hS => ⟨loc, hloc, hhas S (S loc) (hS hty)⟩

end Checker

/-! ## What is pushed below -/

/-- **What is pushed below a later cursor** is pushed below the earlier one, in `wrap`. -/
def Cursor.Wraps (c c' : Cursor) (wrap : List Node → List Node) : Prop :=
  ∀ rest root, Node.append rest c'.builder.root c'.node = some root →
    Node.append (wrap rest) c.builder.root c.node = some root

/-- **A valuation is extended** by values of the names from `gen` on, of which all is true that is
assumed in `wrap`. -/
structure Valuation.Extends (gen : Name) (wrap : List Node → List Node) (I : Interp)
    (ρ ρ' : Valuation) : Prop where
  agree : Valuation.AgreeOn (namesBefore gen) ρ ρ'
  below : ∀ rest, Node.AllHold I ρ (wrap rest) → Node.AllHold I ρ' rest

namespace Cursor

variable {c c' c'' : Cursor} {wrap wrap' : List Node → List Node}

/-- No node is pushed, and the cursor stays. -/
lemma Wraps.of_eq (hroot : c'.builder.root = c.builder.root) (hnode : c'.node = c.node) :
    c.Wraps c' id := by
  intro rest root h
  rwa [hroot, hnode] at h

/-- One wrapping after another. -/
lemma Wraps.trans (h : c.Wraps c' wrap) (h' : c'.Wraps c'' wrap') : c.Wraps c'' (wrap ∘ wrap') :=
  fun rest root hrest => h _ root (h' rest root hrest)

/-- Appending nodes wraps the tree in them. -/
lemma Appends.wraps {nodes : List Node} (h : c.Appends c' nodes) : c.Wraps c' (nodes ++ ·) := by
  intro rest root hrest
  rw [h.node] at hrest
  exact Node.append_append h.root hrest

/-- Nothing is wrapped but what the operations pushed. -/
lemma Wraps.append_nil (h : c.Wraps c' wrap) (hc' : c'.Valid) :
    Node.append (wrap []) c.builder.root c.node = some c'.builder.root :=
  h [] _ (Appends.nil hc').root

end Cursor

namespace Valuation.Extends

variable {gen gen' : Name} {wrap wrap' : List Node → List Node} {I : Interp}
  {ρ ρ' ρ'' : Valuation}

/-- A valuation extends itself. -/
lemma refl : Valuation.Extends gen id I ρ ρ :=
  ⟨.refl, fun _ h => h⟩

/-- Nodes before what is pushed give no names. -/
lemma append (nodes : List Node) : Valuation.Extends gen (nodes ++ ·) I ρ ρ :=
  ⟨.refl, fun _ h => (Node.allHold_append.mp h).2⟩

/-- One extension after another. -/
lemma trans (h : Valuation.Extends gen wrap I ρ ρ') (h' : Valuation.Extends gen' wrap' I ρ' ρ'')
    (hgen : gen ≤ gen') : Valuation.Extends gen (wrap ∘ wrap') I ρ ρ'' where
  agree := h.agree.trans (h'.agree.mono fun _ hx => lt_of_lt_of_le hx hgen)
  below rest hrest := h'.below rest (h.below _ hrest)

end Valuation.Extends

/-- **A type is unpacked**: whatever value it has, the new name gets its index. -/
lemma Cursor.wp_unpack_extends (tcx : Tcx) {c : Cursor} {ty : Ty} (hc : c.Valid)
    (hty : ty.Stable (namesBefore c.builder.nameGen)) :
    wp (Cursor.unpack ty) (fun ty' c' => c'.Valid ∧ c.builder.nameGen ≤ c'.builder.nameGen ∧
      ty'.Stable (namesBefore c'.builder.nameGen) ∧ ∃ wrap, c.Wraps c' wrap ∧
        ∀ I ρ S u, ty.Has tcx S I ρ u →
          ∃ ρ', Valuation.Extends c.builder.nameGen wrap I ρ ρ' ∧ ty'.Has tcx S I ρ' u)
      (fun _ => True) c := by
  cases ty with
  | exists_ bty p =>
    let x := c.builder.nameGen
    let q := p.substBoundVars (.var (.free x))
    let c₀ : Cursor := { c with builder := { c.builder with nameGen := x + 1 } }
    have hpush : wp (Cursor.pushForall x bty.sort q)
        (fun _ c' => c'.builder.nameGen = x + 1 ∧ c₀.Wraps c' fun rest =>
          [.forAll x bty.sort q rest]) (fun _ => True) c₀ := by
      rw [Cursor.pushForall, wp_bind]
      refine wp_pushNode (fun root i hroot => ⟨rfl, fun rest root' hrest => ?_⟩) fun _ => trivial
      exact Node.append_below_push rfl hroot hrest
    rw [Cursor.unpack, wp_bind, wp_freshName, wp_bind]
    refine wp_mono (wp_and (wp_pushForall x bty.sort q c₀) hpush)
      (fun _ c' hpushed => ?_) fun _ _ => trivial
    obtain ⟨hframe, hgen, hwraps⟩ := hpushed
    rw [wp_pure, hgen]
    have hsucc : namesBefore x ⊆ namesBefore (x + 1) := fun y hy => Nat.lt_succ_of_lt hy
    refine ⟨(hframe (hc.withNameGen _)).1, Nat.le_succ x, ?_, _, hwraps, fun I ρ S u hu => ?_⟩
    · exact ⟨⟨bty.scoped_mono hsucc hty.names.1, Nat.lt_succ_self x⟩, hty.refFree⟩
    · obtain ⟨hbty, v, hv, hp⟩ := hu
      have hagree : Valuation.AgreeOn (namesBefore x) ρ (ρ.set x v) :=
        Valuation.agreeOn_set (show x ∉ namesBefore x from lt_irrefl x) v
      have hx : (Expr.var (.free x)).eval I.div (ρ.set x v) = some v :=
        congrArg some (ρ.set_self x v)
      have hq : q.Holds I (ρ.set x v) := (Pred.holds_substBoundVars hx p).mpr
        ((Pred.holds_congr hty.names.2 (hagree.bind v)).mp hp)
      refine ⟨ρ.set x v, ⟨hagree, fun rest hrest => hrest.1 v (hbty.sort hv) hq⟩, ?_, v, hv, hx⟩
      exact (BaseTy.has_congr S S hagree hty.names.1 hty.refFree u).mp hbty
  | _ => exact ⟨hc, le_rfl, hty, id, .of_eq rfl rfl, fun I ρ S u hu => ⟨ρ, .refl, hu⟩⟩

/-! ## The postcondition -/

namespace Checker

variable {tcx : Tcx} {subst subst' : Subst} {fn_sig : Core.FnSig} {env env' env₀ : TypeEnv}
  {c c₀ : Cursor} {subst₀ : Subst} {done : List (Core.Name × Core.Ty)}

/-- **What holds while the bindings of `ensures` are processed**: what is stored at a location is
of the type that it has now, if the bindings so far say what is there, or the location is none of
theirs. -/
structure Ensuring (tcx : Tcx) (c₀ : Cursor) (env₀ : TypeEnv) (subst₀ : Subst)
    (done : List (Core.Name × Core.Ty)) (env : TypeEnv) (subst : Subst) (c : Cursor) : Prop where
  valid : c.Valid
  nameGen : c₀.builder.nameGen ≤ c.builder.nameGen
  unpacked : env.Unpacked (namesBefore c.builder.nameGen)
  introduces : Subst.Introduces c₀.builder.nameGen c.builder.nameGen done subst₀ subst
  sound : ∃ wrap, c₀.Wraps c wrap ∧ ∀ I ρ S' subst', Subst.Grows subst subst' →
    (∀ binding ∈ done, subst'.HasAt tcx I ρ S' binding) →
    ∃ ρ', Valuation.Extends c₀.builder.nameGen wrap I ρ ρ' ∧
      ∀ ⦃loc ty⦄, env.lookupLoc loc = some ty → ty.Has tcx S' I ρ' (S' loc) ∨
        env₀.lookupLoc loc = some ty ∧ ∀ binding ∈ done, subst'.locations binding.1 ≠ some loc

/-- At first nothing is ensured. -/
lemma Ensuring.nil (hc : c.Valid) (henv : env.Unpacked (namesBefore c.builder.nameGen)) :
    Ensuring tcx c env subst [] env subst c where
  valid := hc
  nameGen := le_rfl
  unpacked := henv
  introduces :=
    ⟨rfl, .refl subst, fun _ _ h => .inl h, fun _ _ _ h _ h' => absurd (h.symm.trans h') (by simp),
      fun _ h => nomatch h⟩
  sound := ⟨id, .of_eq rfl rfl, fun I ρ S' subst' _ _ =>
    ⟨ρ, .refl, fun loc ty hty => .inr ⟨hty, fun _ h => nomatch h⟩⟩⟩

/-- **A binding is processed**: its type is unpacked, and is the new type of its location. -/
lemma Ensuring.step (h : Ensuring tcx c₀ env₀ subst₀ done env subst c)
    {binding : Core.Name × Core.Ty} {ty ty' : Ty} {loc : Loc} {c₁ c₂ : Cursor}
    {wrap₁ : List Node → List Node}
    (hlowers : subst.Lowers (namesBefore c₀.builder.nameGen) binding.2 ty)
    (hgen₁ : c.builder.nameGen ≤ c₁.builder.nameGen)
    (hty' : ty'.Stable (namesBefore c₁.builder.nameGen)) (hwraps₁ : c.Wraps c₁ wrap₁)
    (hunpack : ∀ I ρ S u, ty.Has tcx S I ρ u →
      ∃ ρ', Valuation.Extends c.builder.nameGen wrap₁ I ρ ρ' ∧ ty'.Has tcx S I ρ' u)
    (hc₂ : c₂.Valid) (hwraps₂ : c₁.Wraps c₂ id)
    (hgen₂ : c₁.builder.nameGen ≤ c₂.builder.nameGen) (hgrows : Subst.Grows subst subst')
    (hloc : subst'.locations binding.1 = some loc)
    (hintro : Subst.Introduces c₀.builder.nameGen c₂.builder.nameGen done subst₀ subst') :
    Ensuring tcx c₀ env₀ subst₀ (done ++ [binding]) (env.insertLoc loc ty') subst' c₂ where
  valid := hc₂
  nameGen := (h.nameGen.trans hgen₁).trans hgen₂
  unpacked := by
    have hle : namesBefore c.builder.nameGen ⊆ namesBefore c₂.builder.nameGen :=
      fun x hx => lt_of_lt_of_le hx (hgen₁.trans hgen₂)
    exact (h.unpacked.mono hle).insertLoc (hty'.mono fun x hx => lt_of_lt_of_le hx hgen₂)
  introduces := hintro.snoc hloc fun subst'' hgrows' => hlowers.instantiates (hgrows.trans hgrows')
  sound := by
    obtain ⟨wrap, hwraps, hsound⟩ := h.sound
    refine ⟨_, (hwraps.trans hwraps₁).trans hwraps₂, fun I ρ S' subst'' hgrows' hensures => ?_⟩
    obtain ⟨hdone, hbinding⟩ := List.forall_mem_append.mp hensures
    -- the value at the location of the binding is of the type that it stands for
    obtain ⟨loc', hloc', ty₁, hty₁, hhas⟩ := hbinding binding (List.mem_singleton_self _)
    obtain rfl : loc = loc' := Option.some.inj ((hgrows'.locations hloc).symm.trans hloc')
    obtain rfl : ty = ty₁ := (hlowers.instantiates (hgrows.trans hgrows')).unique hty₁
    obtain ⟨ρ₁, hext₁, hold⟩ := hsound I ρ S' subst'' (hgrows.trans hgrows') hdone
    have hhas₁ := hlowers.stable.has_congr hext₁.agree S' hhas
    obtain ⟨ρ₂, hext₂, hhas₂⟩ := hunpack I ρ₁ S' (S' loc) hhas₁
    refine ⟨ρ₂, hext₁.trans hext₂ h.nameGen, TypeEnv.forall_lookupLoc_insertLoc (.inl hhas₂) ?_⟩
    intro loc' ty'' hne hlookup
    rcases hold hlookup with hhas' | ⟨hlookup₀, hnot⟩
    · exact .inl ((h.unpacked.stable hlookup).has_congr hext₂.agree S' hhas')
    · refine .inr ⟨hlookup₀, List.forall_mem_append.mpr ⟨hnot, fun b hb => ?_⟩⟩
      rw [List.mem_singleton.mp hb, hgrows'.locations hloc]
      exact fun heq => hne (Option.some.inj heq).symm

/-- **One binding of `ensures`.** -/
lemma wp_callEnsures_ensuring (h : Ensuring tcx c₀ env₀ subst₀ done env subst c)
    (hs : subst₀.Closed (namesBefore c₀.builder.nameGen)) {binding : Core.Name × Core.Ty}
    {ps locs : List Core.Name} (hscoped : binding.2.Scoped ps locs) (hfree : binding.2.ParamFree) :
    wp (callEnsures tcx env subst binding)
      (fun p c' => Ensuring tcx c₀ env₀ subst₀ (done ++ [binding]) p.1 p.2 c') (fun _ => True)
      c := by
  have hs' : subst.Closed (namesBefore c₀.builder.nameGen) := fun name e he =>
    hs (h.introduces.exprs ▸ he)
  rw [callEnsures, wp_bind]
  refine wp_imp (Subst.wp_lowerTy_lowers hs' hscoped hfree c) fun ty c' ⟨heq, hlowers⟩ => ?_
  subst heq
  have hstable := hlowers.stable.mono fun x hx => lt_of_lt_of_le hx h.nameGen
  rw [wp_bind]
  refine wp_imp (wp_unpack_extends tcx h.valid hstable)
    fun ty' c₁ ⟨hc₁, hgen₁, hty', wrap₁, hwraps₁, hunpack⟩ => ?_
  cases hloc : subst.lowerLoc binding.1 with
  | some loc =>
    dsimp only
    rw [TypeEnv.updateLoc, wp_bind, wp_bind, wp_orFail]
    refine ⟨fun b hb => ?_, fun _ => trivial⟩
    obtain ⟨ty₀, rfl⟩ := h.unpacked.strong loc b hb
    exact h.step hlowers hgen₁ hty' hwraps₁ hunpack hc₁ (.of_eq rfl rfl) le_rfl (.refl subst) hloc
      (h.introduces.mono hgen₁)
  | none =>
    dsimp only
    rw [wp_bind, wp_freshName, wp_pure]
    have hlt := Nat.lt_succ_self c₁.builder.nameGen
    exact h.step hlowers hgen₁ hty' hwraps₁ hunpack (hc₁.withNameGen _) (.of_eq rfl rfl) hlt.le
      (.insertLoc hloc _) (Function.update_self ..)
      (h.introduces.insertLoc hloc h.nameGen hgen₁ hlt)

/-- **The bindings of `ensures`**, one after the other. -/
lemma wp_foldlM_checkEnsures (self : Checker) {s : State} (hc : s.cursor.Valid)
    (henv : env.Unpacked (namesBefore s.cursor.builder.nameGen))
    (hs : subst.Closed (namesBefore s.cursor.builder.nameGen)) (hscoped : fn_sig.Scoped)
    (hfree : fn_sig.ParamFree) :
    wp (fn_sig.ensures.foldlM self.checkEnsures (env, subst))
      (fun p s' => Ensuring self.globalEnv.tcx s.cursor env subst fn_sig.ensures p.1 p.2 s'.cursor)
      (fun _ => True) s := by
  refine wp_foldlM_done (I := fun done (p : TypeEnv × Subst) (s' : State) =>
    Ensuring self.globalEnv.tcx s.cursor env subst done p.1 p.2 s'.cursor)
    (fun done binding rest heq p s' h => ?_) (.nil hc henv)
  have hmem : binding ∈ fn_sig.ensures := heq ▸ List.mem_append_right _ (.head rest)
  obtain ⟨locs, hbscoped⟩ := hscoped.ensures.exists_scoped hmem
  rw [checkEnsures, wp_bind, wp_liftCursor]
  exact wp_mono (wp_callEnsures_ensuring h hs hbscoped (hfree.ensures binding hmem))
    (fun _ _ h => h)
    fun _ _ => trivial

/-- **What the bindings of `ensures` say** makes the new store one of the new environment. -/
lemma Ensuring.inhabits (h : Ensuring tcx c₀ env₀ subst₀ fn_sig.ensures env subst c)
    (henv₀ : env₀.Unpacked (namesBefore c₀.builder.nameGen)) :
    ∃ wrap, c₀.Wraps c wrap ∧ ∀ I ρ S S' u, env₀.Inhabits tcx I ρ S →
      Subst.CallPost tcx I ρ S subst fn_sig S' u →
      ∃ ρ', Valuation.Extends c₀.builder.nameGen wrap I ρ ρ' ∧ env.Inhabits tcx I ρ' S' := by
  obtain ⟨wrap, hwraps, hsound⟩ := h.sound
  refine ⟨wrap, hwraps, fun I ρ S S' u hS hpost => ?_⟩
  obtain ⟨ρ', hext, hhas⟩ := hsound I ρ S' subst (.refl subst) hpost.ensures
  refine ⟨ρ', hext, fun loc ty hty => ?_⟩
  rcases hhas hty with hloc | ⟨hty₀, hnot⟩
  · exact hloc
  · rw [hpost.frame loc hnot]
    exact (henv₀.stable hty₀).has_congr hext.agree S' (hS hty₀)

/-- A write to an unpacked environment. -/
lemma wp_writePlace_strong (h : env.AllStrong) {p : Place} {new_ty : Ty} :
    wp (env.writePlace tcx p new_ty) (fun env' c' => c' = c ∧
      ∃ loc ty, env.walkPlace p = .ok (loc, ty) ∧ env' = env.insertLoc loc new_ty)
      (fun _ => True) c := by
  have hupdate : ∀ loc ty, env.walkPlace p = .ok (loc, ty) →
      wp (env.updateLoc tcx loc new_ty) (fun env' c' => c' = c ∧
        ∃ loc ty, env.walkPlace p = .ok (loc, ty) ∧ env' = env.insertLoc loc new_ty)
        (fun _ => True) c := by
    intro loc ty hwalk
    rw [TypeEnv.updateLoc, wp_bind, wp_orFail]
    refine ⟨fun b hb => ?_, fun _ => trivial⟩
    obtain ⟨ty₀, rfl⟩ := h loc b hb
    exact ⟨rfl, loc, ty, hwalk, rfl⟩
  rw [TypeEnv.writePlace, wp_bind, wp_ofExcept]
  cases hwalk : env.walkPlace p with
  | error f => trivial
  | ok r =>
    obtain ⟨loc, ty⟩ := r
    rw [hwalk] at hupdate
    cases ty with
    | ref ty => trivial
    | exists_ bty q => trivial
    | _ => exact hupdate loc _ rfl

/-- **The value that is returned** is stored at its place. -/
lemma wp_callReturn {N : Set Name} (hc : c.Valid)
    (henv : env.Unpacked (namesBefore c.builder.nameGen))
    (hN : N ⊆ namesBefore c.builder.nameGen) (hs : subst.Closed N) (hscoped : fn_sig.Scoped)
    (hfree : fn_sig.ParamFree) (p : Place) :
    wp (callReturn tcx env subst fn_sig p) (fun env' c' => c'.Valid ∧
      c.builder.nameGen ≤ c'.builder.nameGen ∧ (∃ ty, subst.Instantiates fn_sig.ret ty) ∧
      ∃ wrap, c.Wraps c' wrap ∧
        ∀ I ρ₀ ρ S u, Valuation.AgreeOn N ρ₀ ρ → env.Inhabits tcx I ρ S →
          subst.Has tcx I ρ₀ S fn_sig.ret u →
          ∃ ρ' loc, Valuation.Extends c.builder.nameGen wrap I ρ ρ' ∧ Store.place S p = some loc ∧
            env'.Inhabits tcx I ρ' (Function.update S loc u))
      (fun _ => True) c := by
  rw [callReturn, wp_bind]
  refine wp_imp (Subst.wp_lowerTy_lowers hs hscoped.ret hfree.ret c) fun ty c' ⟨heq, hlowers⟩ => ?_
  subst heq
  rw [wp_bind]
  refine wp_imp (wp_unpack_extends tcx hc (hlowers.stable.mono hN))
    fun ty' c₁ ⟨hc₁, hgen, _, wrap, hwraps, hunpack⟩ => ?_
  refine wp_imp (wp_writePlace_strong henv.strong) fun env' c₂ ⟨heq, loc, ty₀, hwalk, henv'⟩ => ?_
  subst heq henv'
  have hinst := hlowers.instantiates (.refl subst)
  refine ⟨hc₁, hgen, ⟨ty, hinst⟩, wrap, hwraps, fun I ρ₀ ρ S u hagree hS hu => ?_⟩
  obtain ⟨ty₁, hty₁, hhas⟩ := hu
  obtain rfl : ty = ty₁ := hinst.unique hty₁
  have hhas' := hlowers.stable.has_congr hagree (Function.update S loc u) hhas
  obtain ⟨ρ', hext, hret⟩ := hunpack I ρ _ u hhas'
  exact ⟨ρ', loc, hext, (hS.walkPlace hwalk).1, hS.update henv hext.agree hret⟩

/-- **A sound call** from the cursor `c` to `c'`, with what is inferred in `subst`. The new
locations are known in `subst'`, and the nodes that are pushed are `wrap []`. Where they are true,
a store of the environment has the precondition. Any later store and any value that have the
postcondition, with the value at the place of the destination, are of the environment that is
passed on, for values of the names that the call makes. -/
def SoundCall (tcx : Tcx) (env : TypeEnv) (fn_sig : Core.FnSig) (args : List Operand)
    (destination : Option (Place × BasicBlock)) (r : Option (TypeEnv × BasicBlock))
    (c c' : Cursor) (subst : Subst) : Prop :=
  ∃ subst' wrap,
    Subst.Introduces c.builder.nameGen c'.builder.nameGen fn_sig.ensures subst subst' ∧
    (r.isSome → ∃ ty, subst'.Instantiates fn_sig.ret ty) ∧
    c.Wraps c' wrap ∧ Node.append (wrap []) c.builder.root c.node = some c'.builder.root ∧
    ∀ I ρ S, env.Inhabits tcx I ρ S → Node.AllHold I ρ (wrap []) →
      Subst.CallPre tcx I ρ S subst fn_sig args ∧
      ∀ env' bb, r = some (env', bb) → ∃ p, destination = some (p, bb) ∧
        ∀ S' u, Subst.CallPost tcx I ρ S subst' fn_sig S' u →
          ∃ ρ' loc, Valuation.Extends c.builder.nameGen wrap I ρ ρ' ∧
            Store.place S' p = some loc ∧ env'.Inhabits tcx I ρ' (Function.update S' loc u)

/-- What the checks before the call prove. -/
structure Checked (tcx : Tcx) (I : Interp) (ρ : Valuation) (env : TypeEnv) (subst : Subst)
    (actuals : List Ty) (fn_sig : Core.FnSig) : Prop where
  params : ∀ param ∈ fn_sig.params, ∃ e, subst.lowerExpr param.pred = .ok e ∧ e.Holds I ρ
  args : ∀ p ∈ actuals.zip fn_sig.args, ∀ S u, p.1.Has tcx S I ρ u → subst.Has tcx I ρ S p.2 u
  requires : ∀ binding ∈ fn_sig.requires, ∀ S, env.Inhabits tcx I ρ S →
    subst.HasAt tcx I ρ S binding

/-- The values of the operands are of the types of the signature. -/
lemma Checked.operands {I : Interp} {ρ : Valuation} {actuals : List Ty}
    (h : Checked tcx I ρ env subst actuals fn_sig) (hlength : actuals.length = fn_sig.args.length)
    {S : Store} {args : List Operand}
    (hvalues : List.Forall₂ (fun op ty => ∃ u, S.operand op = some u ∧ ty.Has tcx S I ρ u) args
      actuals) :
    List.Forall₂ (fun op ty₀ => ∃ u, S.operand op = some u ∧ subst.Has tcx I ρ S ty₀ u) args
      fn_sig.args := by
  have hzip : List.Forall₂ (fun (ty : Ty) ty₀ => ∀ S u, ty.Has tcx S I ρ u →
      subst.Has tcx I ρ S ty₀ u) actuals fn_sig.args :=
    List.forall₂_iff_zip.mpr ⟨hlength, fun hp => h.args _ hp⟩
  generalize fn_sig.args = tys₀ at hzip
  clear h hlength
  induction hvalues generalizing tys₀ with
  | nil =>
    cases hzip
    exact .nil
  | cons hop _ ih =>
    cases hzip with
    | cons hsub hzip =>
      obtain ⟨u, hu, hhas⟩ := hop
      exact .cons ⟨u, hu, hsub S u hhas⟩ (ih _ hzip)

/-- **The checks before the call.** -/
lemma proves_checks {N : Set Name} (hc : c.Valid) (hN : ∀ x ∈ N, x < c.builder.nameGen)
    (hs : subst.Closed N) (henv : env.Unpacked N) {actuals : List Ty}
    (hactuals : ∀ ty ∈ actuals, ty.Stable N) (hscoped : fn_sig.Scoped)
    (hfree : fn_sig.ParamFree) :
    c.Proves (fun _ => True) (fun I ρ _ => Checked tcx I ρ env subst actuals fn_sig) (do
      callParams subst fn_sig
      callArgs tcx subst actuals fn_sig
      callRequires tcx env subst fn_sig) := by
  refine (proves_callParams hc).bind fun _ c₁ hc₁ hgen₁ _ => ?_
  have hN₁ : ∀ x ∈ N, x < c₁.builder.nameGen := fun x hx => (hN x hx).trans_le hgen₁
  refine (proves_callArgs hc₁ hN₁ hs hactuals hscoped hfree).bind fun _ c₂ hc₂ hgen₂ _ => ?_
  refine (proves_callRequires hc₂ (fun x hx => (hN₁ x hx).trans_le hgen₂) hs henv hscoped
    hfree).mono (fun _ h => h) fun I ρ _ _ hrequires hargs hparams => ?_
  exact ⟨hparams, hargs, hrequires⟩

/-- **A call after its inference**, up to the goto. -/
lemma wp_checkCallWith (self : Checker) {N : Set Name} {s : State} (hc : s.cursor.Valid)
    (hN : N ⊆ namesBefore s.cursor.builder.nameGen) (hs : subst.Closed N) (henv : env.Unpacked N)
    {actuals : List Ty} (hactuals : ∀ ty ∈ actuals, ty.Stable N) (hscoped : fn_sig.Scoped)
    (hfree : fn_sig.ParamFree) (destination : Option (Place × BasicBlock)) :
    wp (self.checkCallWith env subst actuals fn_sig destination)
      (fun r s' => s'.cursor.Valid ∧ ∃ subst' wrap,
        Subst.Introduces s.cursor.builder.nameGen s'.cursor.builder.nameGen fn_sig.ensures subst
          subst' ∧
        (r.isSome → ∃ ty, subst'.Instantiates fn_sig.ret ty) ∧ s.cursor.Wraps s'.cursor wrap ∧
        ∀ I ρ, Node.AllHold I ρ (wrap []) →
          Checked self.globalEnv.tcx I ρ env subst actuals fn_sig ∧
          ∀ S, env.Inhabits self.globalEnv.tcx I ρ S →
            ∀ env' bb, r = some (env', bb) → ∃ p, destination = some (p, bb) ∧
              ∀ S' u, Subst.CallPost self.globalEnv.tcx I ρ S subst' fn_sig S' u →
                ∃ ρ' loc, Valuation.Extends s.cursor.builder.nameGen wrap I ρ ρ' ∧
                  Store.place S' p = some loc ∧
                  env'.Inhabits self.globalEnv.tcx I ρ' (Function.update S' loc u))
      (fun _ => True) s := by
  have hchecks : s.cursor.Proves (fun _ => True)
      (fun I ρ _ => Checked self.globalEnv.tcx I ρ env subst actuals fn_sig) _ :=
    proves_checks hc (fun x hx => hN hx) hs henv hactuals hscoped hfree
  rw [Proves, wp_bind] at hchecks
  rw [checkCallWith]
  simp only [wp_bind, wp_liftCursor]
  refine wp_imp hchecks fun _ c₁ hchecks => ?_
  rw [wp_bind] at hchecks
  refine wp_imp hchecks fun _ c₂ hchecks => ?_
  refine wp_imp hchecks fun _ c₃ hasked => ?_
  obtain ⟨nodes, happ, -, hchecked⟩ := hasked
  have hN' : N ⊆ namesBefore c₃.builder.nameGen := fun x hx =>
    lt_of_lt_of_le (hN hx) happ.le.nameGen
  have hs' : subst.Closed (namesBefore c₃.builder.nameGen) := fun _ _ he => (hs he).mono hN'
  refine wp_imp (wp_foldlM_checkEnsures self (s := { s with cursor := c₃ }) happ.valid
    (henv.mono hN') hs' hscoped hfree) fun p s₄ h => ?_
  obtain ⟨env₄, subst'⟩ := p
  obtain ⟨wrap₁, hwraps₁, hensured⟩ := h.inhabits (henv.mono hN')
  have hintro := h.introduces.of_le happ.le.nameGen
  have hwraps := happ.wraps.trans hwraps₁
  cases destination with
  | none =>
    refine ⟨h.valid, subst', _, hintro, fun h => absurd h (by simp), hwraps,
      fun I ρ hholds => ⟨hchecked I ρ (Node.allHold_append.mp hholds).1, ?_⟩⟩
    intro _ _ _ _ h
    cases h
  | some d =>
    obtain ⟨p, bb⟩ := d
    have hclosed : subst'.Closed N := fun _ _ he => hs (h.introduces.exprs ▸ he)
    have hN₄ : N ⊆ namesBefore s₄.cursor.builder.nameGen := fun x hx =>
      lt_of_lt_of_le (hN' hx) h.nameGen
    dsimp only
    rw [wp_bind, wp_liftCursor]
    refine wp_imp (wp_callReturn h.valid h.unpacked hN₄ hclosed hscoped hfree p)
      fun env₅ c₅ hreturned => ?_
    obtain ⟨hc₅, hgen₅, hret, wrap₂, hwraps₂, hreturn⟩ := hreturned
    refine ⟨hc₅, subst', _, hintro.mono hgen₅, fun _ => hret, hwraps.trans hwraps₂,
      fun I ρ hholds => ⟨hchecked I ρ (Node.allHold_append.mp hholds).1, ?_⟩⟩
    rintro S hS _ _ ⟨⟩
    refine ⟨p, rfl, fun S' u hpost => ?_⟩
    obtain ⟨ρ₁, hext₁, hS'⟩ := hensured I ρ S S' u hS hpost
    have hagree := hext₁.agree.mono hN'
    obtain ⟨ρ₂, loc, hext₂, hplace, hS''⟩ := hreturn I ρ ρ₁ S' u hagree hS' hpost.ret
    have hext := (Valuation.Extends.append nodes).trans hext₁ happ.le.nameGen
    exact ⟨ρ₂, loc, hext.trans hext₂ (happ.le.nameGen.trans h.nameGen), hplace, hS''⟩

/-- **A call whose inference succeeds** is sound. -/
lemma wp_checkCallWith_soundCall (self : Checker) {s : State} {env₁ : TypeEnv} {actuals : List Ty}
    {args : List Operand} (hquiet : c.Quiet s.cursor) (hc : c.Valid)
    (henv : env.Unpacked (namesBefore c.builder.nameGen))
    (hops : checkOperands env args = .ok (env₁, actuals))
    (hclosed : subst₀.Closed (namesBefore c.builder.nameGen))
    (hinfer : subst₀.inferFromFnCall env₁ actuals fn_sig = .ok (some subst))
    (hscoped : fn_sig.Scoped) (hfree : fn_sig.ParamFree)
    (destination : Option (Place × BasicBlock)) :
    wp (self.checkCallWith env₁ subst actuals fn_sig destination)
      (fun r s' => SoundCall self.globalEnv.tcx env fn_sig args destination r c s'.cursor subst)
      (fun _ => True) s := by
  have hunpacked := checkOperands_unpacked henv args
  rw [hops] at hunpacked
  obtain ⟨henv₁, hactuals⟩ := hunpacked
  have hinferred := hclosed.inferFromFnCall henv₁.scoped (fun ty hty => (hactuals ty hty).names)
    fn_sig
  rw [hinfer] at hinferred
  obtain ⟨hlength, hs⟩ := hinferred
  refine wp_imp (wp_checkCallWith self (hquiet.valid hc)
    (fun x hx => lt_of_lt_of_le hx hquiet.nameGen) (hs subst rfl) henv₁ hactuals hscoped hfree
    destination) fun r s' ⟨hc', subst', wrap, hintro, hret, hwraps, hsound⟩ => ?_
  have hwraps' := (Wraps.of_eq hquiet.root hquiet.node).trans hwraps
  refine ⟨subst', _, hintro.of_le hquiet.nameGen, hret, hwraps', hwraps'.append_nil hc',
    fun I ρ S hS hholds => ?_⟩
  have hargs := checkOperands_inhabits hS args
  rw [hops] at hargs
  obtain ⟨hS₁, hvalues⟩ := hargs
  obtain ⟨hchecked, hreturns⟩ := hsound I ρ hholds
  refine ⟨⟨hchecked.params, hchecked.operands hlength hvalues,
    fun binding hb => hchecked.requires binding hb S hS₁⟩, fun env' bb hr => ?_⟩
  obtain ⟨p, hp, hpost⟩ := hreturns S hS₁ env' bb hr
  refine ⟨p, hp, fun S' u hu => ?_⟩
  obtain ⟨ρ', loc, hext, hplace, hS'⟩ := hpost S' u hu
  exact ⟨ρ', loc, Valuation.Extends.refl.trans hext hquiet.nameGen, hplace, hS'⟩

/-- **The call rule is sound** for strong references, in an unpacked environment.

**Proof sketch.** What is pushed before the call says that the values of the arguments and what is
at the locations of `requires` are of the types of the signature. The bindings of `ensures` are
processed one after the other: a value at a location gives its index to the name that its type is
unpacked with, and the types of the other locations do not speak of that name or of the store. So
it is with the value that is returned. -/
theorem checkCall_sound (self : Checker) {env : TypeEnv} {func : Core.DefId}
    {substs : List Core.Ty} {args : List Operand} {destination : Option (Place × BasicBlock)}
    {fn_sig : Core.FnSig} {s s' : State} {r : Option (TypeEnv × BasicBlock)}
    (hsig : self.globalEnv.specs func = some fn_sig) (hscoped : fn_sig.Scoped)
    (hfree : fn_sig.ParamFree) (hc : s.cursor.Valid)
    (henv : env.Unpacked (namesBefore s.cursor.builder.nameGen))
    (hrun : (self.checkCall env func substs args destination).run s = .ok (r, s')) :
    ∃ subst₀ c₀ env₁ actuals subst,
      (Subst.withTypeSubsts substs).run s.cursor = .ok (subst₀, c₀) ∧
      checkOperands env args = .ok (env₁, actuals) ∧
      subst₀.inferFromFnCall env₁ actuals fn_sig = .ok (some subst) ∧
      SoundCall self.globalEnv.tcx env fn_sig args destination r s.cursor s'.cursor subst := by
  refine wp_of_run_ok (Q := fun r s' => ∃ subst₀ c₀ env₁ actuals subst,
    (Subst.withTypeSubsts substs).run s.cursor = .ok (subst₀, c₀) ∧
      checkOperands env args = .ok (env₁, actuals) ∧
      subst₀.inferFromFnCall env₁ actuals fn_sig = .ok (some subst) ∧
      SoundCall self.globalEnv.tcx env fn_sig args destination r s.cursor s'.cursor subst)
    (E := fun _ => True) ?_ hrun
  rw [checkCall, wp_bind, hsig, wp_liftCursor, wp_orFail]
  refine ⟨?_, fun _ => trivial⟩
  rintro _ ⟨⟩
  rw [wp_bind, wp_liftCursor, wp_ofExcept]
  cases hops : checkOperands env args with
  | error f => trivial
  | ok operands =>
    obtain ⟨env₁, actuals⟩ := operands
    rw [post_ok]
    dsimp only
    rw [wp_bind, wp_record, wp_bind, wp_liftCursor]
    refine wp_iff.mpr ⟨fun subst₀ c₀ hsubst₀ => ?_, fun _ _ => trivial⟩
    obtain ⟨hclosed, hquiet⟩ :=
      wp_of_run_ok (Subst.wp_withTypeSubsts_closed substs s.cursor) hsubst₀
    rw [wp_bind, wp_liftCursor, wp_ofExcept]
    cases hinfer : subst₀.inferFromFnCall env₁ actuals fn_sig with
    | error f => trivial
    | ok inferred =>
      cases inferred with
      | none => trivial
      | some subst =>
        rw [post_ok]
        exact wp_imp (wp_checkCallWith_soundCall self hquiet hc henv hops hclosed hinfer hscoped
          hfree destination) fun r s' hsound =>
            ⟨subst₀, c₀, env₁, actuals, subst, hsubst₀, rfl, hinfer, hsound⟩

/-! ### A counter -/

/-- `fn<n: int {n >= 0}>(x: i32@n; ref<x>) -> ref<l>; x: i32@{n + 1}, l: i32{v: v > 0}`. -/
def nextSig : Core.FnSig where
  params := [⟨⟨0, "n"⟩, .int, .binaryOp .ge (.var (.free 0) "n") (.literal (.int 0))⟩]
  requires := [(0, .refine (.int .i32) (.var (.free 0) "n"))]
  args := [.mutRef 0]
  ret := .mutRef 1
  ensures :=
    [(0, .refine (.int .i32) (.binaryOp .add (.var (.free 0) "n") (.literal (.int 1)))),
      (1, .exists_ (.int .i32)
        (.expr (.binaryOp .gt (.var .bound "v") (.literal (.int 0)))))]

/-- A checker that knows `nextSig`. -/
def nextChecker : Checker where
  globalEnv := ⟨fun _ => some nextSig, .ofStack 8⟩
  body := ⟨[], 0, 3, ⟨fun _ => [], [], fun _ => none⟩⟩
  dominatesJoinPoint := fun _ => false
  retTy := .uninit
  ensures := []

/-- A counter at five, and a pointer to it. -/
def counterEnv : TypeEnv :=
  ((TypeEnv.new.insertLoc (.local_ 0) .uninit).insertLoc (.local_ 1)
    (.refine (.int .i32) (.constant (.ofI128 5)))).insertLoc (.local_ 2) (.strgRef (.local_ 1))

/-- The state of a run in `counterEnv`. -/
def counterState : State :=
  GlobalEnv.initialState .inference ConstraintBuilder.new.asCursor counterEnv

/-- The call that moves the pointer and stores a new one is sound. -/
theorem checkCall_sound_next :
    ∃ env' s', (nextChecker.checkCall counterEnv 0 [] [.move ⟨2, []⟩] (some (⟨0, []⟩, 1))).run
        counterState = .ok (some (env', 1), s') ∧
      ∃ subst₀ c₀ env₁ actuals subst,
        (Subst.withTypeSubsts []).run counterState.cursor = .ok (subst₀, c₀) ∧
        checkOperands counterEnv [.move ⟨2, []⟩] = .ok (env₁, actuals) ∧
        subst₀.inferFromFnCall env₁ actuals nextSig = .ok (some subst) ∧
        SoundCall (.ofStack 8) counterEnv nextSig [.move ⟨2, []⟩] (some (⟨0, []⟩, 1))
          (some (env', 1)) counterState.cursor s'.cursor subst := by
  have hscoped : nextSig.Scoped := by
    constructor <;> simp [nextSig, Core.ParamsScoped, Core.BindingsScoped, Core.Ty.Scoped,
      Core.BaseTy.Scoped, Core.Expr.ScopedIn, FreeIn, Core.BoundOrFreeIn, Core.FnSig.paramNames,
      Core.FnSig.requiredLocs, Core.locsAfter]
  have hfree : nextSig.ParamFree := by
    constructor <;> simp [nextSig, Core.Ty.ParamFree, Core.BaseTy.ParamFree]
  have hnew : TypeEnv.new.Unpacked (namesBefore 0) := by
    constructor
    · intro _ _ h
      cases h
    · intro _ _ h
      cases h
  have huninit : Ty.uninit.Stable (namesBefore 0) := ⟨trivial, trivial⟩
  have hfive : (Ty.refine (.int .i32) (.constant (.ofI128 5))).Stable (namesBefore 0) :=
    ⟨⟨trivial, trivial⟩, trivial⟩
  have hpointer : (Ty.strgRef (.local_ 1)).Stable (namesBefore 0) := ⟨trivial, trivial⟩
  have henv : counterEnv.Unpacked (namesBefore 0) :=
    ((hnew.insertLoc huninit).insertLoc hfive).insertLoc hpointer
  have hruns : (((nextChecker.checkCall counterEnv 0 [] [.move ⟨2, []⟩] (some (⟨0, []⟩, 1))).run
      counterState).map fun p => p.1.map Prod.snd).toOption = some (some 1) := by
    decide +kernel
  cases hrun : (nextChecker.checkCall counterEnv 0 [] [.move ⟨2, []⟩] (some (⟨0, []⟩, 1))).run
      counterState with
  | error e =>
    rw [hrun] at hruns
    cases hruns
  | ok p =>
    obtain ⟨r, s'⟩ := p
    rw [hrun] at hruns
    obtain ⟨⟨env', bb⟩, rfl, rfl⟩ := Option.map_eq_some_iff.mp (Option.some.inj hruns)
    exact ⟨env', s', rfl, checkCall_sound nextChecker rfl hscoped hfree valid_new henv hrun⟩

end Checker

end LiquidRust.Typeck
