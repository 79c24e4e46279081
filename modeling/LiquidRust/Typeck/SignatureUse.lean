import LiquidRust.Driver.ResolveScoped
import LiquidRust.Typeck.Checker
import LiquidRust.Typeck.LoweringInv

set_option relaxedAutoImplicit false
set_option autoImplicit false

/-!
# The use of accepted signatures

A signature is used in two places. The prologue of the check of a function with that signature
lowers all of it, and so does every call of that function, after its inference. The two insert
the locations of `requires` and `ensures` in orders of their own.

## Main definitions

* `LiquidRust.Core.FnSig.PrologueReady` — the condition for the prologue.
* `LiquidRust.Core.EnsuresReady` — the condition for calls.

## Main results

* `LiquidRust.Typeck.GlobalEnv.wp_prologue` — the prologue succeeds iff the condition holds.
* `LiquidRust.Typeck.Checker.checkCallWith_noLookup` — the lookups of a call.
* `LiquidRust.Typeck.resolved_usable_iff` — which signatures can be used.
* `LiquidRust.Typeck.accepted_not_usable` — two that are accepted and cannot be.
-/

namespace LiquidRust.Core

/-- No location of `requires` occurs in its own type, and `ensures` has no locations but those of
`requires`. -/
structure FnSig.PrologueReady (fn_sig : FnSig) : Prop where
  requires : ∀ p ∈ fn_sig.requires, ¬p.2.Mentions p.1
  ensures : ∀ p ∈ fn_sig.ensures, p.1 ∈ fn_sig.requiredLocs

/-- No location of `ensures` that is not among `locs` or the ones before it occurs in its own
type. -/
def EnsuresReady (locs : List Name) : List (Name × Ty) → Prop
  | [] => True
  | (loc, ty) :: bindings => (loc ∈ locs ∨ ¬ty.Mentions loc) ∧ EnsuresReady (loc :: locs) bindings

/-- Ensured locations that are all there are ready. -/
lemma ensuresReady_of_forall_mem {locs : List Name} {bindings : List (Name × Ty)}
    (h : ∀ p ∈ bindings, p.1 ∈ locs) : EnsuresReady locs bindings := by
  induction bindings generalizing locs with
  | nil => trivial
  | cons p bindings ih =>
    exact ⟨.inl (h p (.head _)), ih fun q hq => .tail _ (h q (.tail _ hq))⟩

/-- The locations after bindings are theirs and those before. -/
lemma mem_locsAfter {loc : Name} {locs : List Name} {bindings : List (Name × Ty)} :
    loc ∈ locsAfter locs bindings ↔ (∃ p ∈ bindings, p.1 = loc) ∨ loc ∈ locs := by
  simp [locsAfter]

/-- The first binding adds its location. -/
lemma locsAfter_cons (locs : List Name) (p : Name × Ty) (bindings : List (Name × Ty)) :
    locsAfter locs (p :: bindings) = locsAfter (p.1 :: locs) bindings := by
  simp [locsAfter]

end LiquidRust.Core

namespace LiquidRust.Typeck

open Lib Cursor
open Core (ParamsScoped BindingsScoped EnsuresReady locsAfter locsAfter_cons mem_locsAfter)

/-! ## The prologue -/

namespace GlobalEnv

variable {c : Cursor}

/-- The parameters are all there after the prologue's first loop. -/
lemma wp_prologueParams {params : List Core.Param} (h : ParamsScoped [] params) (hc : c.Valid) :
    wp (prologueParams params)
      (fun subst c' => c'.Valid ∧ subst.HasExprs (params.map fun param => param.name.name) ∧
        ∀ loc, subst.locations loc = none)
      (fun _ => False) c := by
  suffices hsuff : ∀ (params : List Core.Param) (ps : List Core.Name) (subst : Subst) (c : Cursor),
      ParamsScoped ps params → c.Valid → subst.HasExprs ps →
      (∀ loc, subst.locations loc = none) →
      wp (params.foldlM bindParam subst)
        (fun subst c' => c'.Valid ∧
          subst.HasExprs ((params.map fun param => param.name.name).reverse ++ ps) ∧
          ∀ loc, subst.locations loc = none)
        (fun _ => False) c by
    refine wp_imp (hsuff params [] _ c h hc (fun _ h => nomatch h) fun _ => rfl) ?_
    exact fun subst c' ⟨hc', hps, hlocs⟩ => ⟨hc', hps.mono (by simp), hlocs⟩
  intro params
  induction params with
  | nil => exact fun ps subst c _ hc hps hlocs => ⟨hc, by simpa using hps, hlocs⟩
  | cons param params ih =>
    intro ps subst c h hc hps hlocs
    have hps' := hps.insertExpr param.name.name (.var (.free c.builder.nameGen))
    rw [List.foldlM_cons, wp_bind, bindParam, wp_bind, wp_freshName, wp_bind, wp_ofExcept]
    refine Subst.post_lowerExpr (fun _ h => h) hps' h.2.1 _ _ fun e => ?_
    rw [wp_bind]
    refine wp_mono (wp_pushForall _ _ _ _) (fun _ c' hc' => ?_) fun f hf =>
      hf.2 (hc.withNameGen _)
    rw [wp_pure]
    refine wp_imp (ih _ _ c' h.2.2 (hc' (hc.withNameGen _)).1 hps' hlocs) ?_
    exact fun subst c'' ⟨hc'', hps'', hlocs''⟩ => ⟨hc'', hps''.mono (by simp), hlocs''⟩

/-- The locations of `requires` are all there after the second loop, which gets to its end iff
none of them occurs in its own type. -/
lemma wp_prologueRequires {requires : List (Core.Name × Core.Ty)} {ps : List Core.Name}
    {subst : Subst} (h : BindingsScoped ps [] requires) (hnodup : (locsAfter [] requires).Nodup)
    (hc : c.Valid) (hps : subst.HasExprs ps) (hlocs : ∀ loc, subst.locations loc = none) :
    wp (prologueRequires subst requires)
      (fun p c' => (∀ b ∈ requires, ¬b.2.Mentions b.1) ∧ c'.Valid ∧ p.2.HasExprs ps ∧
        ∀ loc, (p.2.locations loc).isSome ↔ loc ∈ locsAfter [] requires)
      (fun _ => ∃ b ∈ requires, b.2.Mentions b.1) c := by
  suffices hsuff : ∀ (bindings : List (Core.Name × Core.Ty)) (locs : List Core.Name)
      (p : TypeEnv × Subst) (c : Cursor), BindingsScoped ps locs bindings →
      (locsAfter locs bindings).Nodup → c.Valid → p.2.HasExprs ps →
      (∀ loc, (p.2.locations loc).isSome ↔ loc ∈ locs) →
      wp (bindings.foldlM bindRequired p)
        (fun p c' => (∀ b ∈ bindings, ¬b.2.Mentions b.1) ∧ c'.Valid ∧ p.2.HasExprs ps ∧
          ∀ loc, (p.2.locations loc).isSome ↔ loc ∈ locsAfter locs bindings)
        (fun _ => ∃ b ∈ bindings, b.2.Mentions b.1) c from
    hsuff requires [] (.new, subst) c h hnodup hc hps (by simp [hlocs])
  intro bindings
  induction bindings with
  | nil => exact fun locs p c _ _ hc hps hlocs => ⟨by simp, hc, hps, hlocs⟩
  | cons b bindings ih =>
    intro locs p c h hnodup hc hps hlocs
    obtain ⟨loc, ty⟩ := b
    rw [locsAfter_cons] at hnodup ⊢
    have hnew : loc ∉ locs := by
      simp only [locsAfter, List.nodup_append, List.nodup_cons] at hnodup
      exact hnodup.2.1.1
    rw [List.foldlM_cons, wp_bind, bindRequired, wp_bind]
    refine wp_mono (Subst.wp_lowerTy hps h.1 c) (fun ty' c' hty => ?_) fun f hf => ?_
    · obtain ⟨rfl, hmention⟩ := hty
      have hself : ¬ty.Mentions loc := fun hm => hnew ((hlocs loc).mp (hmention loc hm))
      rw [wp_bind, wp_freshName, wp_bind]
      refine wp_mono ((hc.withNameGen _).wp_unpack ty') (fun ty'' c'' hc'' => ?_)
        fun _ hf => hf.elim
      rw [wp_pure]
      refine wp_mono (ih (loc :: locs) _ c'' h.2 hnodup hc'' hps fun l => ?_) (fun p' c' hp => ?_)
        fun _ hf => ?_
      · by_cases hl : l = loc
        · simp [Subst.insertLoc, hl]
        · simp [Subst.insertLoc, hl, hlocs]
      · exact ⟨List.forall_mem_cons.mpr ⟨hself, hp.1⟩, hp.2⟩
      · obtain ⟨b, hb, hm⟩ := hf
        exact ⟨b, .tail _ hb, hm⟩
    · obtain ⟨-, l, hm, hnone⟩ := hf
      refine ⟨_, .head _, ?_⟩
      rcases List.mem_cons.mp (h.1.mem_of_mentions hm) with rfl | hl
      · exact hm
      · have := (hlocs l).mpr hl
        simp [hnone] at this

/-- The arguments are lowered. -/
lemma wp_prologueArgs {args : List (Local × Core.Ty)} {ps locs : List Core.Name} {subst : Subst}
    {env : TypeEnv} (h : ∀ p ∈ args, p.2.Scoped ps locs) (hc : c.Valid) (hps : subst.HasExprs ps)
    (hlocs : subst.HasLocs locs) :
    wp (prologueArgs subst env args) (fun _ c' => c'.Valid) (fun _ => False) c := by
  refine wp_foldlM (I := fun _ (c : Cursor) => c.Valid) (fun p hp env c hc => ?_) hc
  rw [bindArg, wp_bind]
  refine Subst.wp_lowerTy_of_hasLocs hps (h p hp)
    (fun loc hm => hlocs loc ((h p hp).mem_of_mentions hm)) fun ty => ?_
  rw [wp_bind]
  exact hc.wp_unpack ty

/-- The types of `ensures` are lowered iff their locations are those of `requires`. -/
lemma wp_prologueEnsures {ensures : List (Core.Name × Core.Ty)} {ps locs : List Core.Name}
    {subst : Subst} (h : BindingsScoped ps locs ensures) (hps : subst.HasExprs ps)
    (hlocs : ∀ loc, (subst.locations loc).isSome ↔ loc ∈ locs) :
    wp (prologueEnsures subst ensures)
      (fun _ c' => c' = c ∧ ∀ b ∈ ensures, b.1 ∈ locs)
      (fun _ => ∃ b ∈ ensures, b.1 ∉ locs) c := by
  suffices hsuff : ∀ (bindings : List (Core.Name × Core.Ty)) (ls : List Core.Name) (c : Cursor),
      BindingsScoped ps ls bindings → ls ⊆ locs →
      wp (bindings.mapM (ensured subst)) (fun _ c' => c' = c ∧ ∀ b ∈ bindings, b.1 ∈ locs)
        (fun _ => ∃ b ∈ bindings, b.1 ∉ locs) c from
    hsuff ensures locs c h fun _ hl => hl
  intro bindings
  induction bindings with
  | nil => exact fun ls c _ _ => ⟨rfl, by simp⟩
  | cons b bindings ih =>
    intro ls c h hls
    obtain ⟨loc, ty⟩ := b
    rw [List.mapM_cons, wp_bind, ensured, wp_bind]
    refine wp_mono (Subst.wp_lowerTy hps h.1 c) (fun ty' c' hty => ?_) fun f hf => ?_
    · obtain ⟨rfl, -⟩ := hty
      rw [wp_bind, wp_orFail]
      refine ⟨fun l hl => ?_, fun hnone => ⟨_, .head _, fun hloc => ?_⟩⟩
      · have hloc : loc ∈ locs := (hlocs loc).mp (by
          rw [Subst.lowerLoc] at hl
          simp [hl])
        rw [wp_pure, wp_bind]
        refine wp_mono (ih (loc :: ls) c' h.2 (List.cons_subset.mpr ⟨hloc, hls⟩))
          (fun tys c'' htys => ?_) fun _ ⟨b, hb, hm⟩ => ⟨b, .tail _ hb, hm⟩
        exact ⟨htys.1, List.forall_mem_cons.mpr ⟨hloc, htys.2⟩⟩
      · have := (hlocs loc).mpr hloc
        rw [Subst.lowerLoc] at hnone
        simp [hnone] at this
    · obtain ⟨-, l, hm, hnone⟩ := hf
      refine ⟨_, .head _, fun hloc => ?_⟩
      have hl : l ∈ locs := by
        rcases List.mem_cons.mp (h.1.mem_of_mentions hm) with rfl | hl
        · exact hloc
        · exact hls hl
      have := (hlocs l).mpr hl
      simp [hnone] at this

/-- **The prologue** of a scoped signature gets to its end iff the signature is ready for it. -/
theorem wp_prologue (body : Core.Ir.Body) {fn_sig : Core.FnSig} (h : fn_sig.Scoped)
    (hnodup : fn_sig.requiredLocs.Nodup) (hc : c.Valid) :
    wp (prologue body fn_sig) (fun _ _ => fn_sig.PrologueReady) (fun _ => ¬fn_sig.PrologueReady)
      c := by
  rw [prologue, wp_bind]
  refine wp_mono (wp_prologueParams h.params hc) (fun subst c₁ h₁ => ?_) fun _ hf => hf.elim
  obtain ⟨hc₁, hps₁, hlocs₁⟩ := h₁
  rw [wp_bind]
  refine wp_mono (wp_prologueRequires h.requires hnodup hc₁ hps₁ hlocs₁) (fun p c₂ h₂ => ?_)
    fun _ ⟨b, hb, hm⟩ hready => hready.requires b hb hm
  obtain ⟨hrequires, hc₂, hps₂, hlocs₂⟩ := h₂
  rw [wp_bind]
  refine wp_mono (wp_prologueArgs (fun q hq => h.args q.2 (List.of_mem_zip hq).2) hc₂ hps₂
    fun l hl => (hlocs₂ l).mpr hl) (fun env c₃ hc₃ => ?_) fun _ hf => hf.elim
  rw [wp_bind]
  refine wp_mono (wp_prologueEnsures h.ensures hps₂ hlocs₂) (fun ensures c₄ h₄ => ?_)
    fun _ ⟨b, hb, hm⟩ hready => hm (hready.ensures b hb)
  rw [wp_bind]
  refine Subst.wp_lowerTy_of_hasLocs hps₂ h.ret (fun l hl => (hlocs₂ l).mpr ?_) fun retTy =>
    ⟨hrequires, h₄.2⟩
  rcases mem_locsAfter.mp (h.ret.mem_of_mentions hl) with ⟨b, hb, rfl⟩ | hl
  · exact h₄.2 b hb
  · exact hl

end GlobalEnv

/-! ## Calls -/

namespace Checker

variable {subst : Subst} {fn_sig : Core.FnSig} {env : TypeEnv} {c : Cursor}

/-- The obligations for the parameters and the arguments of a call need no more than what its
inference found. -/
lemma noLookup_callParams (h : fn_sig.Scoped) (hps : subst.HasExprs fn_sig.paramNames) :
    NoLookup (callParams subst fn_sig) := by
  have hparams : ∀ (params : List Core.Param) (ps : List Core.Name), ParamsScoped ps params →
      subst.HasExprs ps → (∀ param ∈ params, (subst.exprs param.name.name).isSome) →
      ∀ param ∈ params, NoName (subst.lowerExpr param.pred) := by
    intro params
    induction params with
    | nil => simp
    | cons param params ih =>
      intro ps h hps hall
      have hps' : subst.HasExprs (param.name.name :: ps) :=
        List.forall_mem_cons.mpr ⟨hall param (.head _), hps⟩
      refine List.forall_mem_cons.mpr ⟨?_, ih _ h.2.2 hps' fun p hp => hall p (.tail _ hp)⟩
      exact Subst.post_lowerExpr (fun _ h => h) hps' h.2.1 _ _ fun _ => trivial
  refine Framed.forM fun param hparam => (NoLookup.ofExcept ?_).bind fun e =>
    (Safe.pushHead _).noLookup
  exact hparams fn_sig.params [] h.params (by simp [Subst.HasExprs])
    (fun p hp => hps _ (List.mem_map_of_mem hp)) param hparam

/-- A type is lowered if all its locations are there. -/
lemma noLookup_lowerTy {ps locs : List Core.Name} (hps : subst.HasExprs ps) {ty : Core.Ty}
    (h : ty.Scoped ps locs) (hlocs : ∀ loc, ty.Mentions loc → (subst.locations loc).isSome) :
    NoLookup (subst.lowerTy ty) := fun c =>
  Subst.wp_lowerTy_of_hasLocs hps h hlocs fun _ => Frame.refl c

/-- The arguments of a call find every name of a scoped signature. -/
lemma noLookup_callArgs (tcx : Tcx) (actuals : List Ty) (h : fn_sig.Scoped)
    (hps : subst.HasExprs fn_sig.paramNames) (hlocs : subst.HasLocs fn_sig.requiredLocs) :
    NoLookup (callArgs tcx subst actuals fn_sig) := by
  refine Framed.forM fun p hp => ?_
  have hty := h.args p.2 (List.of_mem_zip hp).2
  exact (noLookup_lowerTy hps hty fun l hl => hlocs l (hty.mem_of_mentions hl)).bind fun _ =>
    (Safe.subtyping tcx _ _).noLookup

/-- The locations that a call requires find every name of a scoped signature. -/
lemma noLookup_callRequires (tcx : Tcx) (env : TypeEnv) (h : fn_sig.Scoped)
    (hps : subst.HasExprs fn_sig.paramNames) (hlocs : subst.HasLocs fn_sig.requiredLocs) :
    NoLookup (callRequires tcx env subst fn_sig) := by
  have hbindings : ∀ (bindings : List (Core.Name × Core.Ty)) (ls : List Core.Name),
      BindingsScoped fn_sig.paramNames ls bindings → subst.HasLocs (locsAfter ls bindings) →
      ∀ b ∈ bindings, (∃ l, subst.locations b.1 = some l) ∧ NoLookup (subst.lowerTy b.2) := by
    intro bindings
    induction bindings with
    | nil => simp
    | cons b bindings ih =>
      intro ls h hls
      rw [locsAfter_cons] at hls
      have hcons : subst.HasLocs (b.1 :: ls) := fun l hl => hls l (mem_locsAfter.mpr (.inr hl))
      refine List.forall_mem_cons.mpr ⟨⟨?_, ?_⟩, ih _ h.2 hls⟩
      · exact Option.isSome_iff_exists.mp (hcons b.1 (.head _))
      · exact noLookup_lowerTy hps h.1 fun l hl => hcons l (h.1.mem_of_mentions hl)
  refine Framed.forM fun b hb => ?_
  obtain ⟨⟨l, hl⟩, hlower⟩ := hbindings fn_sig.requires [] h.requires hlocs b hb
  rw [Subst.lowerLoc, hl]
  exact (Framed.pure l).bind fun _ => (NoLookup.orFail (by decide) _).bind fun _ =>
    hlower.bind fun _ => (Safe.subtyping tcx _ _).noLookup

/-- A binding of `ensures` is lowered with the locations there are, and leaves its own. -/
lemma wp_callEnsures (tcx : Tcx) (env : TypeEnv) {ps locs : List Core.Name}
    {binding : Core.Name × Core.Ty} (hps : subst.HasExprs ps) (hlocs : subst.HasLocs locs)
    (h : binding.2.Scoped ps (binding.1 :: locs))
    (hready : binding.1 ∈ locs ∨ ¬binding.2.Mentions binding.1) :
    wp (callEnsures tcx env subst binding)
      (fun p _ => p.2.HasExprs ps ∧ p.2.HasLocs (binding.1 :: locs)) (· ≠ .lookup) c := by
  rw [callEnsures, wp_bind]
  refine Subst.wp_lowerTy_of_hasLocs hps h (fun l hl => ?_) fun ty => ?_
  · rcases List.mem_cons.mp (h.mem_of_mentions hl) with rfl | hmem
    · exact hready.elim (hlocs _) fun hself => absurd hl hself
    · exact hlocs l hmem
  rw [wp_bind]
  refine wp_imp ((Safe.unpack ty).noLookup c) fun ty c' _ => ?_
  cases hloc : subst.lowerLoc binding.1 with
  | some l =>
    dsimp only
    rw [wp_bind]
    refine wp_imp (env.noLookup_updateLoc tcx l ty c') fun env c'' _ => ⟨hps, ?_⟩
    rw [Subst.lowerLoc] at hloc
    exact List.forall_mem_cons.mpr ⟨by simp [hloc], hlocs⟩
  | none => exact ⟨hps, hlocs.insertLoc _ _⟩

/-- **The lookups of a call** after its inference: it finds everything if `ensures` is ready. -/
theorem checkCallWith_noLookup (self : Checker) (env : TypeEnv) (actuals : List Ty)
    (destination : Option (Core.Ir.Place × Core.Ir.BasicBlock)) (h : fn_sig.Scoped)
    (hps : subst.HasExprs fn_sig.paramNames) (hlocs : subst.HasLocs fn_sig.requiredLocs)
    (hready : EnsuresReady fn_sig.requiredLocs fn_sig.ensures) (s : State) :
    wp (self.checkCallWith env subst actuals fn_sig destination) (fun _ _ => True)
      (·.stop ≠ .failure .lookup) s := by
  have lift : ∀ {α : Type} {m : CursorM α}, NoLookup m → ∀ {Q : α → State → Prop} {s : State},
      (∀ a s', Q a s') → wp (liftCursor m) Q (·.stop ≠ .failure .lookup) s := by
    intro α m hm Q s hQ
    rw [wp_liftCursor]
    exact wp_mono (hm _) (fun a c _ => hQ a _) fun f hf h => hf (Stop.failure.inj h)
  rw [checkCallWith]
  dsimp only
  rw [wp_bind]
  refine lift (noLookup_callParams h hps) fun _ s₁ => ?_
  rw [wp_bind]
  refine lift (noLookup_callArgs _ actuals h hps hlocs) fun _ s₂ => ?_
  rw [wp_bind]
  refine lift (noLookup_callRequires _ env h hps hlocs) fun _ s₃ => ?_
  rw [wp_bind]
  have hensures : ∀ (bindings : List (Core.Name × Core.Ty)) (ls : List Core.Name)
      (p : TypeEnv × Subst) (s : State), BindingsScoped fn_sig.paramNames ls bindings →
      EnsuresReady ls bindings → p.2.HasExprs fn_sig.paramNames → p.2.HasLocs ls →
      wp (bindings.foldlM (self.checkEnsures) p)
        (fun p _ => p.2.HasExprs fn_sig.paramNames ∧ p.2.HasLocs (locsAfter ls bindings))
        (·.stop ≠ .failure .lookup) s := by
    intro bindings
    induction bindings with
    | nil => exact fun ls p s _ _ hps hls => ⟨hps, hls⟩
    | cons b bindings ih =>
      intro ls p s h hready hps hls
      rw [List.foldlM_cons, wp_bind, checkEnsures, wp_bind, wp_liftCursor]
      refine wp_mono (wp_callEnsures _ p.1 hps hls h.1 hready.1) (fun p' c' hp' => ?_)
        fun f hf h => hf (Stop.failure.inj h)
      rw [wp_bind, wp_record, wp_pure, locsAfter_cons]
      exact ih _ p' _ h.2 hready.2 hp'.1 hp'.2
  refine wp_imp (hensures _ _ (env, subst) s₃ h.ensures hready hps hlocs) fun p s₄ hp => ?_
  cases destination with
  | none => trivial
  | some d =>
    dsimp only
    rw [wp_bind]
    refine lift ?_ fun _ _ => trivial
    refine (noLookup_lowerTy hp.1 h.ret fun l hl => hp.2 l (h.ret.mem_of_mentions hl)).bind
      fun ty => (Safe.unpack ty).noLookup.bind fun ty => p.1.noLookup_writePlace _ _ ty

end Checker

/-! ## Accepted signatures -/

section

open Driver Driver.Resolver

/-- **Which signatures can be used.** The prologue of a function with a resolved signature
succeeds, and every call of it finds after its inference what it looks up, iff no location of
`requires` occurs in its own type and `ensures` has no new locations. The checker of signatures
has no part in this.

**Proof sketch.** In a resolved signature each name is a parameter or a location that is in scope.
The prologue goes through the signature with a substitution that has the names that were bound so
far, and each of its lookups is one of these iff the condition holds (`wp_prologue`). After the
inference of a call the substitution has all parameters and all locations of `requires`, so only
new locations of `ensures` could be missing (`checkCallWith_noLookup`). -/
theorem resolved_usable_iff {self : Resolver} {ast : Syntax.FnSig} {fn_sig : Core.FnSig}
    (h : self.run ast = .ok fn_sig) (body : Core.Ir.Body) :
    ((∃ r, (GlobalEnv.prologue body fn_sig).run ConstraintBuilder.new.asCursor = .ok r) ∧
      ∀ (checker : Checker) (env : TypeEnv) (subst₀ subst : Subst) (actuals : List Ty)
        (destination : Option (Core.Ir.Place × Core.Ir.BasicBlock)) (s s' : State),
        subst₀.inferFromFnCall env actuals fn_sig = .ok (some subst) →
        (checker.checkCallWith env subst actuals fn_sig destination).run s ≠
          .error ⟨.failure .lookup, s'⟩) ↔
      (∀ p ∈ fn_sig.requires, ¬p.2.Mentions p.1) ∧
        ∀ p ∈ fn_sig.ensures, p.1 ∈ fn_sig.requiredLocs := by
  obtain ⟨hscoped, hnodup⟩ := run_scoped h
  have hprologue := GlobalEnv.wp_prologue body hscoped hnodup Cursor.valid_new
  constructor
  · rintro ⟨⟨r, hr⟩, -⟩
    have hready := wp_of_run_ok hprologue hr
    exact ⟨hready.requires, hready.ensures⟩
  · rintro ⟨hrequires, hensures⟩
    refine ⟨?_, fun checker env subst₀ subst actuals destination s s' hinfer hrun => ?_⟩
    · cases hr : (GlobalEnv.prologue body fn_sig).run ConstraintBuilder.new.asCursor with
      | ok r => exact ⟨r, rfl⟩
      | error f => exact (wp_of_run_error hprologue hr ⟨hrequires, hensures⟩).elim
    · obtain ⟨hps, hlocs⟩ := Subst.inferFromFnCall_has hinfer
      exact wp_of_run_error (checker.checkCallWith_noLookup env actuals destination hscoped hps
        hlocs (Core.ensuresReady_of_forall_mem hensures) s) hrun rfl

/-- The body of a function of one argument that returns at once. -/
def returnBody : Core.Ir.Body where
  basicBlocks := [⟨[], some .return_⟩]
  argCount := 1
  nlocals := 2
  mir := ⟨fun _ => [], [0], fun _ => none⟩

/-- A checker of `returnBody`. -/
def returnChecker : Checker where
  globalEnv := ⟨fun _ => none, .ofStack 8⟩
  body := returnBody
  dominatesJoinPoint := fun _ => false
  retTy := .uninit
  ensures := []

/-- The signature `fn<n: int>(l: i32@n; ref<l>) -> i32; l: i32@{n + 1}`. -/
def incSig : Syntax.FnSig where
  generics := [⟨"n", "int", none⟩]
  requires := [("l", .refineTy i32Path (.var "n"))]
  args := [.mutRef "l"]
  ret := .baseTy i32Path
  ensures := [("l", .refineTy i32Path (.binaryOp .add (.var "n") (.literal ⟨.integer, "1"⟩)))]

/-- The environment of a caller that has the number five in local 1. -/
def incEnv : TypeEnv :=
  TypeEnv.new.insertLoc (.local_ 1) (.refine (.int .i32) (.constant (.ofI128 5)))

/-- The signature can be used by its function, and by a call with a pointer to local 1. -/
theorem resolved_usable_inc : ∃ fn_sig, i32Resolver.run incSig = .ok fn_sig ∧
    (∃ r, (GlobalEnv.prologue returnBody fn_sig).run ConstraintBuilder.new.asCursor = .ok r) ∧
    ∃ subst, Subst.withEmptyTypeSubsts.inferFromFnCall incEnv [.strgRef (.local_ 1)] fn_sig =
        .ok (some subst) ∧
      ∀ s', (returnChecker.checkCallWith incEnv subst [.strgRef (.local_ 1)] fn_sig none).run
        (GlobalEnv.initialState .inference ConstraintBuilder.new.asCursor incEnv) ≠
          .error ⟨.failure .lookup, s'⟩ := by
  obtain ⟨fn_sig, hrun, hrequires, hensures, subst, hinfer⟩ : ∃ fn_sig,
      i32Resolver.run incSig = .ok fn_sig ∧ (∀ p ∈ fn_sig.requires, ¬p.2.Mentions p.1) ∧
      (∀ p ∈ fn_sig.ensures, p.1 ∈ fn_sig.requiredLocs) ∧
      ∃ subst, Subst.withEmptyTypeSubsts.inferFromFnCall incEnv [.strgRef (.local_ 1)] fn_sig =
        .ok (some subst) := by
    refine ⟨_, rfl, ?_, ?_, _, rfl⟩
    · simp [Core.Ty.Mentions, Core.BaseTy.Mentions]
    · simp [Core.FnSig.requiredLocs, Core.locsAfter]
  obtain ⟨hprologue, hcalls⟩ :=
    (resolved_usable_iff hrun returnBody).mpr ⟨hrequires, hensures⟩
  exact ⟨fn_sig, hrun, hprologue, subst, hinfer, fun s' => hcalls _ _ _ _ _ _ _ s' hinfer⟩

/-- **Some accepted signatures cannot be used.** The prologue of `fn(l: ref<l>; ref<l>) -> i32`
looks up `l` before it inserts it. So does a call of `fn() -> i32; l: ref<l>`, after its inference
succeeds. -/
theorem accepted_not_usable :
    (∃ fn_sig, i32Resolver.run
        ⟨[], [("l", .mutRef "l")], [.mutRef "l"], .baseTy i32Path, []⟩ = .ok fn_sig ∧
      Core.Wf.checkFnSig fn_sig = .ok () ∧
      (GlobalEnv.prologue returnBody fn_sig).run ConstraintBuilder.new.asCursor =
        .error .lookup) ∧
    ∃ fn_sig, i32Resolver.run ⟨[], [], [], .baseTy i32Path, [("l", .mutRef "l")]⟩ = .ok fn_sig ∧
      Core.Wf.checkFnSig fn_sig = .ok () ∧
      ∃ subst, Subst.withEmptyTypeSubsts.inferFromFnCall .new [] fn_sig = .ok (some subst) ∧
        ∃ s', (returnChecker.checkCallWith .new subst [] fn_sig none).run
          (GlobalEnv.initialState .inference ConstraintBuilder.new.asCursor .new) =
            .error ⟨.failure .lookup, s'⟩ :=
  ⟨⟨_, rfl, rfl, rfl⟩, _, rfl, rfl, _, rfl, _, rfl⟩

end

end LiquidRust.Typeck
