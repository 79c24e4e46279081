import LiquidRust.Lib.Wp

set_option relaxedAutoImplicit false
set_option autoImplicit false

/-!
# Two runs side by side

What two stateful computations that may fail have to do with each other. A relation is stated of
the runs in which both complete, and in which the first one ends in a state with a given condition.
The condition is one that is inherited by earlier states.

## Main definitions

* `LiquidRust.Lib.both` — the results of two computations are related.
* `LiquidRust.Lib.Inherits` — a condition on the last state holds of the first one.
* `LiquidRust.Lib.Follows` — a computation completes where another one does.

## Main results

* `LiquidRust.Lib.both_bind` — one step after another, in both runs.
-/

namespace LiquidRust.Lib

variable {σ τ ε δ α β γ α' β' : Type}

/-- **The results are related**, if both computations complete and the first one ends with `C`. -/
def both (C : σ → Prop) (m : StateT σ (Except ε) α) (m' : StateT τ (Except δ) α')
    (Q : α → σ → α' → τ → Prop) (s : σ) (t : τ) : Prop :=
  ∀ a s' a' t', m.run s = .ok (a, s') → m'.run t = .ok (a', t') → C s' → Q a s' a' t'

/-- If a run ends with `C`, it began with `C`. -/
def Inherits (C : σ → Prop) (m : StateT σ (Except ε) α) : Prop :=
  ∀ s, wp m (fun _ s' => C s' → C s) (fun _ => True) s

variable {C : σ → Prop} {m : StateT σ (Except ε) α} {m' : StateT τ (Except δ) α'}
  {Q Q' : α → σ → α' → τ → Prop} {s : σ} {t : τ}

/-- Two results are related if they are. -/
lemma both_pure {a : α} {a' : α'} (h : C s → Q a s a' t) :
    both C (pure a : StateT σ (Except ε) α) (pure a' : StateT τ (Except δ) α') Q s t := by
  rintro _ _ _ _ ⟨⟩ ⟨⟩ hC
  exact h hC

/-- A run that fails is related to any other. -/
lemma both_throw_right {e : δ} :
    both C m (throw e : StateT τ (Except δ) α') Q s t := by
  intro a s' a' t' _ h'
  cases h'

/-- A weaker relation of the results. -/
lemma both_imp (h : both C m m' Q s t)
    (hQ : ∀ a s' a' t', C s' → Q a s' a' t' → Q' a s' a' t') : both C m m' Q' s t :=
  fun a s' a' t' hm hm' hC => hQ a s' a' t' hC (h a s' a' t' hm hm' hC)

/-- What holds of either run. -/
lemma both_of_wp {P : α → σ → Prop} {P' : α' → τ → Prop} {E : ε → Prop} {E' : δ → Prop}
    (h : wp m P E s) (h' : wp m' P' E' t) :
    both C m m' (fun a s' a' t' => P a s' ∧ P' a' t') s t :=
  fun _ _ _ _ hm hm' _ => ⟨wp_of_run_ok h hm, wp_of_run_ok h' hm'⟩

/-- A condition that always holds is inherited. -/
lemma Inherits.of_forall (h : ∀ s, C s) : Inherits C m :=
  fun s => wp_of_forall (fun _ _ _ => h s) fun _ => trivial

/-- **One step after another**, in both runs. -/
lemma both_bind {k : α → StateT σ (Except ε) β} {k' : α' → StateT τ (Except δ) β'}
    {Q : β → σ → β' → τ → Prop} (hk : ∀ a, Inherits C (k a))
    (h : both C m m' (fun a s' a' t' => both C (k a) (k' a') Q s' t') s t) :
    both C (m >>= k) (m' >>= k') Q s t := by
  intro b s' b' t' hrun hrun' hC
  rw [StateT.run_bind] at hrun hrun'
  cases hm : m.run s with
  | error e => rw [hm] at hrun; cases hrun
  | ok p =>
    cases hm' : m'.run t with
    | error e => rw [hm'] at hrun'; cases hrun'
    | ok p' =>
      rw [hm] at hrun
      rw [hm'] at hrun'
      have hC' : C p.2 := wp_of_run_ok (hk p.1 p.2) hrun hC
      exact h p.1 p.2 p'.1 p'.2 hm hm' hC' b s' b' t' hrun hrun' hC

/-- One step after another, without a condition on the last state. -/
lemma both_bind_any {k : α → StateT σ (Except ε) β} {k' : α' → StateT τ (Except δ) β'}
    {Q : β → σ → β' → τ → Prop}
    (h : both (fun _ => True) m m' (fun a s' a' t' => both (fun _ => True) (k a) (k' a') Q s' t')
      s t) : both (fun _ => True) (m >>= k) (m' >>= k') Q s t :=
  both_bind (fun _ => .of_forall fun _ => trivial) h

/-! ## One state for both runs -/

/-- Where `m` completes, `m'` completes in the same state. -/
def Follows (m' : StateT σ (Except δ) α') (m : StateT σ (Except ε) α) : Prop :=
  ∀ s, wp m (fun _ s' => ∃ a', m'.run s = .ok (a', s')) (fun _ => True) s

namespace Follows

/-- A result follows any other. -/
lemma pure (a' : α') (a : α) :
    Follows (Pure.pure a' : StateT σ (Except δ) α') (Pure.pure a : StateT σ (Except ε) α) :=
  fun _ => ⟨a', rfl⟩

/-- A computation follows itself. -/
lemma refl (m : StateT σ (Except ε) α) : Follows m m := by
  intro s
  rw [wp_iff]
  exact ⟨fun a s' h => ⟨a, h⟩, fun _ _ => trivial⟩

/-- One step after another. -/
lemma bind {m' : StateT σ (Except δ) α'} {k : α → StateT σ (Except ε) β}
    {k' : α' → StateT σ (Except δ) β'} (hm : Follows m' m) (hk : ∀ a' a, Follows (k' a') (k a)) :
    Follows (m' >>= k') (m >>= k) := by
  intro s
  rw [wp_bind]
  refine wp_imp (hm s) fun a s' ⟨a', ha'⟩ => wp_imp (hk a' a s') fun _ s'' ⟨b', hb'⟩ => ⟨b', ?_⟩
  rw [StateT.run_bind, ha']
  exact hb'

end Follows

end LiquidRust.Lib
