import Mathlib.Logic.Basic
import Mathlib.Data.List.Basic

set_option relaxedAutoImplicit false
set_option autoImplicit false

/-!
# Weakest preconditions of stateful computations that may fail

A computation of `StateT σ (Except ε)` ends with a value and a state, or fails. A specification
has a condition for either case, so one set of rules serves partial correctness (`E` is true of
all failures), total correctness (`E` is false) and what lies between them, where only some
failures are allowed.

## Main definitions

* `LiquidRust.Lib.post` — the result of a computation without state satisfies a condition.
* `LiquidRust.Lib.wp` — the weakest precondition of a stateful one.
* `LiquidRust.Lib.Keeps` — the states before and after are related.

## Main results

* `LiquidRust.Lib.wp_bind`, `wp_mono` — sequencing and consequence.
* `LiquidRust.Lib.wp_foldlM`, `wp_foldlM_along`, `wp_forM`, `wp_mapM` — invariants of loops.
-/

namespace LiquidRust.Lib

variable {σ ε α β γ : Type}

/-! ## Computations without state -/

/-- `x` is a value with `Q` or a failure with `E`. -/
def post (x : Except ε α) (Q : α → Prop) (E : ε → Prop) : Prop :=
  match x with
  | .ok a => Q a
  | .error e => E e

section Post

variable {Q Q' : α → Prop} {E E' : ε → Prop}

/-- A result has to meet `Q`. -/
@[simp] lemma post_ok (a : α) : post (.ok a) Q E = Q a := rfl

/-- A result has to meet `Q`. -/
@[simp] lemma post_pure (a : α) : post (pure a) Q E = Q a := rfl

/-- An error has to meet `E`. -/
@[simp] lemma post_error (e : ε) : post (.error e) Q E = E e := rfl

/-- The first result has to lead to a second one that meets `Q`. -/
@[simp] lemma post_bind (x : Except ε α) (f : α → Except ε β) (Q : β → Prop) :
    post (x >>= f) Q E = post x (fun a => post (f a) Q E) E := by
  cases x <;> rfl

/-- A sequence has a result iff both steps have. -/
lemma except_bind_eq_ok {x : Except ε α} {f : α → Except ε β} {b : β} :
    x >>= f = .ok b ↔ ∃ a, x = .ok a ∧ f a = .ok b := by
  cases x with
  | ok a => exact ⟨fun h => ⟨a, rfl, h⟩, fun ⟨_, h, hf⟩ => Except.ok.inj h ▸ hf⟩
  | error e => exact ⟨(nomatch ·), fun ⟨_, h, _⟩ => nomatch h⟩

/-- The rule of consequence. -/
lemma post_mono {x : Except ε α} (h : post x Q E) (hQ : ∀ a, Q a → Q' a)
    (hE : ∀ e, E e → E' e) : post x Q' E' := by
  cases x with
  | ok a => exact hQ a h
  | error e => exact hE e h

/-- Conditions that always hold. -/
lemma post_of_forall {x : Except ε α} (hQ : ∀ a, Q a) (hE : ∀ e, E e) : post x Q E := by
  cases x with
  | ok a => exact hQ a
  | error e => exact hE e

/-- Two conditions at once. -/
lemma post_and {x : Except ε α} (h : post x Q E) (h' : post x Q' E') :
    post x (fun a => Q a ∧ Q' a) fun e => E e ∧ E' e := by
  cases x with
  | ok a => exact ⟨h, h'⟩
  | error e => exact ⟨h, h'⟩

/-- An invariant of a fold. -/
lemma post_foldlM {f : β → α → Except ε β} {I : β → Prop} {l : List α}
    (hf : ∀ a ∈ l, ∀ b, I b → post (f b a) I E) {b : β} (hb : I b) :
    post (l.foldlM f b) I E := by
  induction l generalizing b with
  | nil => exact hb
  | cons a l ih =>
    rw [List.foldlM_cons, post_bind]
    exact post_mono (hf a (.head l) b hb)
      (fun b' hb' => ih (fun a' ha' => hf a' (.tail a ha')) hb') fun _ h => h

/-- A map succeeds iff it does for each element. -/
lemma except_mapM_eq_ok {f : α → Except ε β} {l : List α} {bs : List β} :
    l.mapM f = .ok bs ↔ List.Forall₂ (fun a b => f a = .ok b) l bs := by
  induction l generalizing bs with
  | nil => exact ⟨fun h => Except.ok.inj h ▸ .nil, fun h => by cases h; rfl⟩
  | cons a l ih =>
    rw [List.mapM_cons, except_bind_eq_ok]
    constructor
    · rintro ⟨b, hb, hrest⟩
      obtain ⟨bs', hbs', heq⟩ := except_bind_eq_ok.mp hrest
      cases heq
      exact .cons hb (ih.mp hbs')
    · intro h
      cases h with
      | @cons _ b _ bs' hb hbs' =>
        exact ⟨b, hb, except_bind_eq_ok.mpr ⟨bs', ih.mpr hbs', rfl⟩⟩

end Post

/-! ## Stateful computations -/

/-- **The weakest precondition** for `m` to end with `Q` or to fail with `E`. -/
def wp (m : StateT σ (Except ε) α) (Q : α → σ → Prop) (E : ε → Prop) (s : σ) : Prop :=
  post (m.run s) (fun p => Q p.1 p.2) E

variable {m : StateT σ (Except ε) α} {Q Q' : α → σ → Prop} {E E' : ε → Prop} {s : σ}

/-- A weakest precondition is about the one run that there is. -/
lemma wp_iff : wp m Q E s ↔
    (∀ a s', m.run s = .ok (a, s') → Q a s') ∧ ∀ e, m.run s = .error e → E e := by
  unfold wp
  cases m.run s with
  | ok p =>
    obtain ⟨a, s'⟩ := p
    simp
  | error e => simp

/-- What is known of a run that completes. -/
lemma wp_of_run_ok {a : α} {s' : σ} (h : wp m Q E s) (hm : m.run s = .ok (a, s')) : Q a s' :=
  (wp_iff.mp h).1 a s' hm

/-- What is known of a run that fails. -/
lemma wp_of_run_error {e : ε} (h : wp m Q E s) (hm : m.run s = .error e) : E e :=
  (wp_iff.mp h).2 e hm

/-- A computation that cannot fail ends. -/
lemma exists_run_of_wp (h : wp m Q (fun _ => False) s) :
    ∃ a s', m.run s = .ok (a, s') ∧ Q a s' := by
  cases hm : m.run s with
  | ok p => exact ⟨p.1, p.2, rfl, wp_of_run_ok h hm⟩
  | error e => exact (wp_of_run_error h hm).elim

/-- A result leaves the state. -/
@[simp] lemma wp_pure (a : α) : wp (pure a) Q E s = Q a s := rfl

/-- The rule of composition. -/
@[simp] lemma wp_bind (f : α → StateT σ (Except ε) β) (Q : β → σ → Prop) :
    wp (m >>= f) Q E s = wp m (fun a => wp (f a) Q E) E s := by
  unfold wp
  rw [StateT.run_bind, post_bind]

/-- The rule for functions of the result. -/
@[simp] lemma wp_map (f : α → β) (Q : β → σ → Prop) :
    wp (f <$> m) Q E s = wp m (fun a => Q (f a)) E s := by
  rw [map_eq_pure_bind, wp_bind]
  rfl

/-- The state is the result. -/
@[simp] lemma wp_get (Q : σ → σ → Prop) :
    wp (get : StateT σ (Except ε) σ) Q E s = Q s s := rfl

/-- The state is replaced. -/
@[simp] lemma wp_set (s' : σ) (Q : PUnit → σ → Prop) :
    wp (set s' : StateT σ (Except ε) PUnit) Q E s = Q ⟨⟩ s' := rfl

/-- The state is changed. -/
@[simp] lemma wp_modify (f : σ → σ) (Q : PUnit → σ → Prop) :
    wp (modify f : StateT σ (Except ε) PUnit) Q E s = Q ⟨⟩ (f s) := rfl

/-- A computation without a state leaves it. -/
@[simp] lemma wp_liftM (x : Except ε α) :
    wp (liftM x : StateT σ (Except ε) α) Q E s = post x (fun a => Q a s) E := by
  cases x <;> rfl

/-- The state is changed, with a result. -/
@[simp] lemma wp_modifyGet (f : σ → α × σ) :
    wp (modifyGet f : StateT σ (Except ε) α) Q E s = Q (f s).1 (f s).2 := rfl

/-- An error has to meet `E`. -/
@[simp] lemma wp_throw (e : ε) : wp (throw e : StateT σ (Except ε) α) Q E s = E e := rfl

/-- **Consequence.** -/
lemma wp_mono (h : wp m Q E s) (hQ : ∀ a s', Q a s' → Q' a s') (hE : ∀ e, E e → E' e) :
    wp m Q' E' s :=
  post_mono h (fun p => hQ p.1 p.2) hE

/-- The rule of consequence, for results. -/
lemma wp_imp (h : wp m Q E s) (hQ : ∀ a s', Q a s' → Q' a s') : wp m Q' E s :=
  wp_mono h hQ fun _ he => he

/-- What always holds is a postcondition. -/
lemma wp_of_forall (hQ : ∀ a s', Q a s') (hE : ∀ e, E e) : wp m Q E s :=
  wp_iff.mpr ⟨fun a s' _ => hQ a s', fun e _ => hE e⟩

/-- Two conditions at once. -/
lemma wp_and (h : wp m Q E s) (h' : wp m Q' E' s) :
    wp m (fun a s' => Q a s' ∧ Q' a s') (fun e => E e ∧ E' e) s :=
  post_and h h'

/-! ## Loops -/

/-- **An invariant of a fold.** -/
lemma wp_foldlM {f : β → α → StateT σ (Except ε) β} {I : β → σ → Prop} {l : List α}
    (hf : ∀ a ∈ l, ∀ b s, I b s → wp (f b a) I E s) {b : β} (hb : I b s) :
    wp (l.foldlM f b) I E s := by
  induction l generalizing b s with
  | nil => exact hb
  | cons a l ih =>
    rw [List.foldlM_cons, wp_bind]
    exact wp_imp (hf a (.head l) b s hb) fun b' s' hb' =>
      ih (fun a' ha' => hf a' (.tail a ha')) hb'

/-- An invariant of a fold that speaks of the part of the list that is done. -/
lemma wp_foldlM_done {f : β → α → StateT σ (Except ε) β} {I : List α → β → σ → Prop}
    {l : List α}
    (hf : ∀ done a rest, l = done ++ a :: rest → ∀ b s, I done b s →
      wp (f b a) (I (done ++ [a])) E s)
    {b : β} (hb : I [] b s) : wp (l.foldlM f b) (I l) E s := by
  suffices h : ∀ done rest, l = done ++ rest → ∀ b s, I done b s →
      wp (rest.foldlM f b) (I l) E s from h [] l rfl b s hb
  intro done rest
  induction rest generalizing done with
  | nil =>
    rintro rfl b s hb
    simpa using hb
  | cons a rest ih =>
    intro hl b s hb
    rw [List.foldlM_cons, wp_bind]
    exact wp_imp (hf done a rest hl b s hb) fun b' s' hb' =>
      ih (done ++ [a]) (by simpa using hl) b' s' hb'

/-- `P` holds wherever a fold comes to an element of the list. -/
def Along (f : β → α → StateT σ (Except ε) β) (P : α → β → σ → Prop) : List α → β → σ → Prop
  | [], _, _ => True
  | a :: l, b, s => P a b s ∧
    match (f b a).run s with
    | .ok (b', s') => Along f P l b' s'
    | .error _ => True

/-- What is decidable at each step is decidable along a fold. -/
instance Along.decidable (f : β → α → StateT σ (Except ε) β) (P : α → β → σ → Prop)
    [∀ a b s, Decidable (P a b s)] : (l : List α) → (b : β) → (s : σ) → Decidable (Along f P l b s)
  | [], _, _ => .isTrue trivial
  | a :: l, b, s =>
    have : Decidable (match (f b a).run s with
        | .ok (b', s') => Along f P l b' s'
        | .error _ => True) :=
      match (f b a).run s with
      | .ok (b', s') => Along.decidable f P l b' s'
      | .error _ => .isTrue trivial
    inferInstanceAs (Decidable (_ ∧ _))

/-- An invariant of a fold that is kept where `P` holds. -/
lemma wp_foldlM_along {f : β → α → StateT σ (Except ε) β} {P : α → β → σ → Prop}
    {I : β → σ → Prop} {l : List α}
    (hf : ∀ a ∈ l, ∀ b s, I b s → P a b s → wp (f b a) I E s) {b : β} (h : Along f P l b s)
    (hb : I b s) : wp (l.foldlM f b) I E s := by
  induction l generalizing b s with
  | nil => exact hb
  | cons a l ih =>
    have ha := hf a (.head l) b s hb h.1
    rw [List.foldlM_cons, wp_bind]
    refine wp_iff.mpr ⟨fun b' s' hrun => ?_, fun e hrun => wp_of_run_error ha hrun⟩
    have hrest := h.2
    rw [hrun] at hrest
    exact ih (fun a' ha' => hf a' (.tail a ha')) hrest (wp_of_run_ok ha hrun)

/-- **An invariant of a loop.** -/
lemma wp_forM {f : α → StateT σ (Except ε) PUnit} {I : σ → Prop} {l : List α}
    (hf : ∀ a ∈ l, ∀ s, I s → wp (f a) (fun _ => I) E s) (hs : I s) :
    wp (l.forM f) (fun _ => I) E s := by
  induction l generalizing s with
  | nil => exact hs
  | cons a l ih =>
    change wp (f a >>= fun _ => l.forM f) _ E s
    rw [wp_bind]
    exact wp_imp (hf a (.head l) s hs) fun _ s' hs' =>
      ih (fun a' ha' => hf a' (.tail a ha')) hs'

/-- An invariant of a loop that speaks of the part of the list that is done. -/
lemma wp_forM_done {f : α → StateT σ (Except ε) PUnit} {I : List α → σ → Prop} {l : List α}
    (hf : ∀ done a rest, l = done ++ a :: rest → ∀ s, I done s →
      wp (f a) (fun _ => I (done ++ [a])) E s)
    (hs : I [] s) : wp (l.forM f) (fun _ => I l) E s := by
  suffices h : ∀ done rest, l = done ++ rest → ∀ s, I done s →
      wp (rest.forM f) (fun _ => I l) E s from h [] l rfl s hs
  intro done rest
  induction rest generalizing done with
  | nil =>
    rintro rfl s hs
    simpa using hs
  | cons a rest ih =>
    intro hl s hs
    change wp (f a >>= fun _ => rest.forM f) _ E s
    rw [wp_bind]
    exact wp_imp (hf done a rest hl s hs) fun _ s' hs' =>
      ih (done ++ [a]) (by simpa using hl) s' hs'

/-- **An invariant of a map**, and a condition that every result has. -/
lemma wp_mapM {f : α → StateT σ (Except ε) β} {I : σ → Prop} {R : α → β → Prop} {l : List α}
    (hf : ∀ a ∈ l, ∀ s, I s → wp (f a) (fun b s' => I s' ∧ R a b) E s) (hs : I s) :
    wp (l.mapM f) (fun bs s' => I s' ∧ List.Forall₂ R l bs) E s := by
  induction l generalizing s with
  | nil => exact ⟨hs, .nil⟩
  | cons a l ih =>
    rw [List.mapM_cons, wp_bind]
    refine wp_imp (hf a (.head l) s hs) fun b s' hb => ?_
    rw [wp_bind]
    exact wp_imp (ih (fun a' ha' => hf a' (.tail a ha')) hb.1) fun bs s'' hbs =>
      ⟨hbs.1, .cons hb.2 hbs.2⟩

/-! ## Relations between the states before and after -/

/-- `m` ends in a state that `R` relates to the first one, or fails with `E`. -/
def Keeps (R : σ → σ → Prop) (E : ε → Prop) (m : StateT σ (Except ε) α) : Prop :=
  ∀ s, wp m (fun _ => R s) E s

namespace Keeps

variable {R : σ → σ → Prop}

/-- A result leaves the state. -/
lemma pure (hR : ∀ s, R s s) (a : α) : Keeps R E (Pure.pure a : StateT σ (Except ε) α) :=
  hR

/-- A failure leaves no state. -/
lemma throw {e : ε} (he : E e) : Keeps R E (MonadExcept.throw e : StateT σ (Except ε) α) :=
  fun _ => he

/-- One step after another, for a transitive relation. -/
lemma bind (hR : ∀ s t u, R s t → R t u → R s u) {f : α → StateT σ (Except ε) β}
    (hm : Keeps R E m) (hf : ∀ a, Keeps R E (f a)) : Keeps R E (m >>= f) := by
  intro s
  rw [wp_bind]
  exact wp_imp (hm s) fun a s' hs' => wp_imp (hf a s') fun _ s'' => hR s s' s'' hs'

/-- A fold, by induction on the list. -/
lemma foldlM (hR : ∀ s, R s s) (hR' : ∀ s t u, R s t → R t u → R s u)
    {f : β → α → StateT σ (Except ε) β} {l : List α} (hf : ∀ a ∈ l, ∀ b, Keeps R E (f b a))
    (b : β) : Keeps R E (l.foldlM f b) := fun s =>
  wp_foldlM (I := fun _ => R s) (fun a ha b s' hs' =>
    wp_imp (hf a ha b s') fun _ s'' => hR' s s' s'' hs') (hR s)

/-- A loop, by induction on the list. -/
lemma forM (hR : ∀ s, R s s) (hR' : ∀ s t u, R s t → R t u → R s u)
    {f : α → StateT σ (Except ε) PUnit} {l : List α} (hf : ∀ a ∈ l, Keeps R E (f a)) :
    Keeps R E (l.forM f) := fun s =>
  wp_forM (fun a ha s' hs' => wp_imp (hf a ha s') fun _ s'' => hR' s s' s'' hs') (hR s)

end Keeps

end LiquidRust.Lib
