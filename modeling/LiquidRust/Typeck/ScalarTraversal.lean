import LiquidRust.Typeck.ScalarRun

set_option relaxedAutoImplicit false
set_option autoImplicit false

/-!
# Runs of the check are sound

If the join points are in line, then at most one of them is ahead when one is taken up, and all
edges that were followed to it start below the place where it is taken up. So the hypotheses there
are also those of the edges, and an execution that comes along an edge goes on as the check of the
join point says. Loops are closed by counting steps.

## Main definitions

* `LiquidRust.Typeck.Setting.Settled` — what holds whenever join points are taken up.

## Main results

* `LiquidRust.Typeck.Setting.wp_run_safe` — what a run shows.
* `LiquidRust.Typeck.Setting.Settled.safe` — the join points do not go wrong.
-/

namespace LiquidRust.Typeck

open Lib Cursor
open Core.Ir (BasicBlock Body startBlock)

namespace Setting

variable (W : Setting)

/-- **Where an edge to a join point starts**: below the cursor, until the join point is taken up,
and then below the place where it was. -/
def EdgeSettled (s : State) (target : BasicBlock) (bbEnv : Option TypeEnv) (cursor : Cursor) :
    Prop :=
  W.body.isJoinPoint target = true ∧ W.body.Via s.visited target ∧ ∃ bbEnv', bbEnv = some bbEnv' ∧
    s.bbEnvs.lookup target = some bbEnv' ∧
    (target ∉ s.visited → s.cursor.node <+: cursor.node) ∧
    (target ∈ s.visited → ∃ cursor', Event.takeUp target bbEnv' cursor' ∈ s.trace ∧
      cursor'.node <+: cursor.node)

/-- **Where a join point is taken up**: above the cursor. Then it does not go wrong for one step
more than all join points. -/
structure TakenUp (s : State) (bb : BasicBlock) (bbEnv : TypeEnv) (cursor : Cursor) : Prop where
  node : cursor.node <+: s.cursor.node
  lookup : s.Checks → s.bbEnvs.lookup bb = some bbEnv
  safe : ∀ n, W.Final s → W.JoinSafe n → ∀ ρ S, cursor.Assumes W.I ρ → W.Q ρ →
    bbEnv.Inhabits W.tcx W.I ρ S → W.Safe (n + 1) (.enter W.body bb S)

/-- **What holds whenever join points are taken up.** -/
structure Settled (s : State) : Prop where
  good : W.Good s
  joined : ∀ bb ∈ s.bbEnvs, W.body.isJoinPoint bb = true ∧ W.body.Via s.visited bb
  edges : s.Checks → ∀ ⦃target env bbEnv visited cursor⦄,
    Event.edge target env bbEnv visited cursor ∈ s.trace → W.EdgeSettled s target bbEnv cursor
  taken : ∀ bb ∈ s.visited, W.body.isJoinPoint bb = true →
    ∃ bbEnv cursor, Event.takeUp bb bbEnv cursor ∈ s.trace
  takeUps : ∀ ⦃bb bbEnv cursor⦄, Event.takeUp bb bbEnv cursor ∈ s.trace →
    W.TakenUp s bb bbEnv cursor

variable {W} {s s' s₁ : State} {env bbEnv : TypeEnv} {bb target : BasicBlock}

/-! ## Join points are taken up -/

/-- **A join point is taken up**, and its block is checked. -/
lemma Settled.takeUp {c : Cursor} (hs : W.Settled s) (hline : W.body.JoinsInLine)
    (hnew : bb ∉ s.visited) (hlookup : s.bbEnvs.lookup bb = some bbEnv)
    (hle : s.cursor.Le c)
    (henters : W.EntersBlock bb { s with
      cursor := c, trace := .env env :: .takeUp bb bbEnv s.cursor :: s.trace } s₁)
    (hsegment : W.Segment s₁ s')
    (hsafe : ∀ n, W.Final s' → W.JoinSafe n → ∀ ρ S, s.cursor.Assumes W.I ρ → W.Q ρ →
      bbEnv.Inhabits W.tcx W.I ρ S → W.Safe (n + 1) (.enter W.body bb S)) :
    W.Settled s' ∧ Later s s' := by
  obtain ⟨es, htrace, hbelow⟩ := hsegment.events
  have hbbEnvs : s₁.bbEnvs = s.bbEnvs := henters.bbEnvs
  have hvisited₁ : s₁.visited = bb :: s.visited := henters.visited
  have htrace₁ : s₁.trace = .block bb :: .env env :: .takeUp bb bbEnv s.cursor :: s.trace :=
    henters.recorded
  have hold : ∀ {e}, e ∈ s.trace → e ∈ s'.trace := fun {e} he => by
    rw [htrace, htrace₁]
    exact List.mem_append_right _ (.tail _ (.tail _ (.tail _ he)))
  have hself : Event.takeUp bb bbEnv s.cursor ∈ s'.trace := by
    rw [htrace, htrace₁]
    exact List.mem_append_right _ (.tail _ (.tail _ (.head _)))
  have hfirst : Later s { s with
      cursor := c, trace := .env env :: .takeUp bb bbEnv s.cursor :: s.trace } :=
    ⟨hle, ⟨[.env env, .takeUp bb bbEnv s.cursor], rfl⟩, fun h => h⟩
  have hlater := hfirst.trans (henters.toLater.trans hsegment.toLater)
  have hvisited : ∀ b ∈ s.visited, b ∈ s'.visited := fun b hb =>
    hsegment.visited b (hvisited₁ ▸ .tail bb hb)
  have hbb : bb ∈ s'.visited := hsegment.visited bb (hvisited₁ ▸ .head _)
  have hkeep : s'.Checks → ∀ ⦃b E⦄, s.bbEnvs.lookup b = some E → s'.bbEnvs.lookup b = some E :=
    fun hc b E h => hsegment.bbEnvs hc (hbbEnvs.symm ▸ h)
  -- a join point that was visited is this one or was visited before
  have hcases : ∀ b ∈ s'.visited, W.body.isJoinPoint b = true → b = bb ∨ b ∈ s.visited := by
    intro b hb hjoin
    by_cases hmem : b ∈ s₁.visited
    · exact List.mem_cons.mp (hvisited₁ ▸ hmem)
    · cases (hsegment.entered b hb hmem).2.symm.trans hjoin
  obtain ⟨hjoin, hvia⟩ := hs.joined bb (AList.lookup_isSome.mp (by rw [hlookup]; rfl))
  refine ⟨⟨hsegment.good, fun b hb => ?_, fun hc target env' bbEnv' v cursor he => ?_,
    fun b hb hj => ?_, fun b E cursor he => ?_⟩, hlater⟩
  · by_cases hmem : b ∈ s.bbEnvs
    · obtain ⟨hj, hv⟩ := hs.joined b hmem
      exact ⟨hj, hv.mono hvisited⟩
    · exact hsegment.joined b hb (hbbEnvs.symm ▸ hmem)
  · rw [htrace, htrace₁] at he
    rcases List.mem_append.mp he with he | he
    · -- an edge of this part
      obtain ⟨hj, hv, hnode, hbbEnv⟩ := hbelow _ he
      obtain ⟨E, rfl, hE⟩ := hbbEnv hc
      refine ⟨hj, hv, E, rfl, hE, fun _ => hnode, fun hmem => ?_⟩
      have habove : s.cursor.node <+: cursor.node := hlater.le.node.trans hnode
      rcases hcases target hmem hj with rfl | hmem
      · obtain rfl := Option.some.inj ((hkeep hc hlookup).symm.trans hE)
        exact ⟨s.cursor, hself, habove⟩
      · obtain ⟨E', cursor', htaken⟩ := hs.taken target hmem hj
        have htaken' := hs.takeUps htaken
        have hE' := hkeep hc (htaken'.lookup (hlater.checks hc))
        obtain rfl := Option.some.inj (hE'.symm.trans hE)
        exact ⟨cursor', hold htaken, htaken'.node.trans habove⟩
    · -- an edge that was followed before
      have he : Event.edge target env' bbEnv' v cursor ∈ s.trace := by simpa using he
      obtain ⟨hj, hv, E, rfl, hE, hahead, hbehind⟩ := hs.edges (hlater.checks hc) he
      refine ⟨hj, hv.mono hvisited, E, rfl, hkeep hc hE, fun hmem => ?_, fun _ => ?_⟩
      · by_cases hmem' : target ∈ s.visited
        · exact absurd (hvisited target hmem') hmem
        · obtain rfl := hline.eq_of_via hj hjoin hv hvia hmem' hnew
          exact absurd hbb hmem
      · by_cases hmem' : target ∈ s.visited
        · obtain ⟨cursor', htaken, hnode⟩ := hbehind hmem'
          exact ⟨cursor', hold htaken, hnode⟩
        · -- no other join point was ahead
          obtain rfl := hline.eq_of_via hj hjoin hv hvia hmem' hnew
          obtain rfl := Option.some.inj (hlookup.symm.trans hE)
          exact ⟨s.cursor, hself, hahead hmem'⟩
  · rcases hcases b hb hj with rfl | hmem
    · exact ⟨bbEnv, s.cursor, hself⟩
    · obtain ⟨E, cursor, htaken⟩ := hs.taken b hmem hj
      exact ⟨E, cursor, hold htaken⟩
  · rw [htrace, htrace₁] at he
    rcases List.mem_append.mp he with he | he
    · exact (hbelow _ he).elim
    · have he : Event.takeUp b E cursor = .takeUp bb bbEnv s.cursor ∨
          Event.takeUp b E cursor ∈ s.trace := by simpa using he
      rcases he with he | he
      · cases he
        exact ⟨hlater.le.node, fun hc => hkeep hc hlookup, hsafe⟩
      · obtain ⟨hnode, hE, hsafe'⟩ := hs.takeUps he
        exact ⟨hnode.trans hlater.le.node, fun hc => hkeep hc (hE (hlater.checks hc)),
          fun n hfinal => hsafe' n (hfinal.of_later hlater)⟩

/-- Taking up a join point settles the state and leads to a later one. -/
lemma wp_takeUp_safe (hW : W.Fair) (hline : W.body.JoinsInLine) (hs : W.Settled s) (fuel : ℕ)
    (bb : BasicBlock) :
    wp (W.self.takeUp fuel bb) (fun _ s' => W.Settled s' ∧ Later s s') (fun _ => True) s := by
  rw [Checker.takeUp, wp_bind, wp_get]
  split
  · next hnew =>
    rw [wp_bind, wp_get]
    cases hlookup : s.bbEnvs.lookup bb with
    | none => trivial
    | some bbEnv =>
      dsimp only
      rw [wp_bind, wp_record, wp_bind, wp_liftCursor]
      refine wp_imp (TypeEnv.wp_unpack_ready W.tcx hs.good.ready (hs.good.joined hlookup))
        fun env c h => ?_
      obtain ⟨hc, hle, henv, hunpack⟩ := h
      rw [wp_bind, wp_record]
      have hgood : W.Good { s with
          cursor := c, trace := .env env :: .takeUp bb bbEnv s.cursor :: s.trace } := by
        have htakeUp := hs.good.withEvent (e := .takeUp bb bbEnv s.cursor) (by
          rintro _ ⟨⟩
          exact ⟨hs.good.ready.toValid, .refl⟩)
        exact (htakeUp.withCursor hc hle).withEvent fun _ h => (by cases h)
      have hvia := (hs.joined bb (AList.lookup_isSome.mp (by rw [hlookup]; rfl))).2
      refine wp_imp (wp_checkBasicBlock_safe hW (soundGoto_checkGoto hW fuel) hgood henv hvia)
        fun _ s' h => ?_
      obtain ⟨s₁, henters, hsegment, hsafe⟩ := h
      refine hs.takeUp hline hnew hlookup hle henters hsegment ?_
      intro n hfinal hjoin ρ S hρ hQ hS
      obtain ⟨ρ', hagree, hρ', hS'⟩ := hunpack W.I ρ S hρ hS
      exact hsafe n hfinal hjoin ρ' S hρ' (hW.names (hagree.mono hs.good.names) hQ) hS'
  · exact ⟨hs, .refl _, List.suffix_rfl, fun h => h⟩

/-! ## Runs -/

/-- **What a run shows.** -/
theorem wp_run_safe (hW : W.Fair) (hline : W.body.JoinsInLine) (hs : W.Good s)
    (hvisited : s.visited = []) (hbbEnvs : s.bbEnvs = ∅) (htrace : s.trace = [.env env])
    (henv : env.Local (Ty.Indexed (namesBefore s.cursor.builder.nameGen)) W.D) (fuel : ℕ) :
    wp (W.self.run fuel env) (fun _ s' => W.Settled s' ∧ W.Leads s s' env none startBlock)
      (fun _ => True) s := by
  rw [Checker.run, wp_bind]
  refine wp_imp (soundGoto_checkGoto hW fuel hs henv (.start _)) fun _ s₁ h => ?_
  obtain ⟨hsegment, hleads⟩ := h
  have hsettled : W.Settled s₁ := by
    obtain ⟨es, htrace₁, hbelow⟩ := hsegment.events
    rw [htrace] at htrace₁
    have hnew : ∀ bb ∈ s₁.visited, W.body.isJoinPoint bb = false := fun bb hbb =>
      (hsegment.entered bb hbb (by simp [hvisited])).2
    refine ⟨hsegment.good, fun bb hbb => hsegment.joined bb hbb (by simp [hbbEnvs]), ?_, ?_, ?_⟩
    · intro hc target env' bbEnv v cursor he
      rw [htrace₁] at he
      have he : Event.edge target env' bbEnv v cursor ∈ es := by simpa using he
      obtain ⟨hj, hv, hnode, hE⟩ := hbelow _ he
      obtain ⟨E, hE, hlookup⟩ := hE hc
      refine ⟨hj, hv, E, hE, hlookup, fun _ => hnode, fun hmem => ?_⟩
      cases (hnew target hmem).symm.trans hj
    · intro bb hbb hj
      cases (hnew bb hbb).symm.trans hj
    · intro bb bbEnv cursor he
      rw [htrace₁] at he
      have he : Event.takeUp bb bbEnv cursor ∈ es := by simpa using he
      exact (hbelow _ he).elim
  refine wp_imp (wp_forM (I := fun s' => W.Settled s' ∧ Later s₁ s') (fun bb _ s' h => ?_)
    ⟨hsettled, .refl _, List.suffix_rfl, fun h => h⟩) fun _ s₂ h => ?_
  · exact wp_imp (wp_takeUp_safe hW hline h.1 fuel bb) fun _ s'' h' =>
      ⟨h'.1, h.2.trans h'.2⟩
  · exact ⟨h.1, fun n hfinal => hleads n (hfinal.of_later h.2)⟩

/-- **The join points do not go wrong**, if all that are come to are taken up. -/
theorem Settled.safe (hs : W.Settled s) (hfinal : W.Final s) (htrace : W.trace = s.trace)
    (hall : ∀ bb, W.body.Reachable bb → bb ∈ s.visited) (n : ℕ) : W.JoinSafe n := by
  let TakeUp (cfg : Config) : Prop := ∃ bb bbEnv cursor ρ S,
    Event.takeUp bb bbEnv cursor ∈ s.trace ∧ cursor.Assumes W.I ρ ∧ W.Q ρ ∧
      bbEnv.Inhabits W.tcx W.I ρ S ∧ cfg = .enter W.body bb S
  -- the hypotheses where a join point is taken up are also those of the edges to it
  have hedges : ∀ n, (∀ cfg, TakeUp cfg → W.Safe n cfg) → W.JoinSafe n := by
    intro n hsafe target env bbEnv v cursor he ρ S hρ hQ hS
    rw [htrace] at he
    obtain ⟨-, hvia, E, hE, -, -, hbehind⟩ := hs.edges hfinal.checks he
    obtain rfl := Option.some.inj hE
    obtain ⟨cursor', htaken, hnode⟩ := hbehind (hall target hvia.reachable)
    obtain ⟨hvalid, hgrows⟩ := hs.good.events _ he cursor rfl
    obtain ⟨hvalid', hgrows'⟩ := hs.good.events _ htaken cursor' rfl
    have hρ' := assumes_of_below hvalid' hvalid hgrows' hgrows hnode hρ
    exact hsafe _ ⟨target, bbEnv, cursor', ρ, S, htaken, hρ', hQ, hS, rfl⟩
  refine hedges n (safeFor_of_guarded (fun n hsafe cfg hcfg => ?_) n)
  obtain ⟨bb, bbEnv, cursor, ρ, S, htaken, hρ, hQ, hS, rfl⟩ := hcfg
  exact (hs.takeUps htaken).safe n hfinal (hedges n hsafe) ρ S hρ hQ hS

end Setting

end LiquidRust.Typeck
