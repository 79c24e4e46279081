import Mathlib.Data.Finset.Card
import Mathlib.Logic.Relation

set_option relaxedAutoImplicit false
set_option autoImplicit false

/-!
# Chains

A partial function leads from an element to the next one. In a finite set that it does not leave,
the chain from an element ends unless it runs into a cycle, and it is shorter than the set is
large.

## Main definitions

* `LiquidRust.Lib.ChainLength` — the number of steps to the end of the chain.

## Main results

* `LiquidRust.Lib.exists_chainLength` — without cycles every chain ends.
* `LiquidRust.Lib.ChainLength.not_transGen_self` — a chain that ends is in no cycle.
-/

namespace LiquidRust.Lib

open Relation (TransGen)

variable {α : Type} {next : α → Option α} {a b : α} {k k' : ℕ}

/-- **The chain from an element ends** after `k` steps. -/
inductive ChainLength (next : α → Option α) : α → ℕ → Prop
  | last {a : α} (h : next a = none) : ChainLength next a 0
  | step {a b : α} {k : ℕ} (h : next a = some b) (hb : ChainLength next b k) :
      ChainLength next a (k + 1)

namespace ChainLength

/-- A chain has one length. -/
lemma unique (h : ChainLength next a k) (h' : ChainLength next a k') : k = k' := by
  induction h generalizing k' with
  | last hnone =>
    cases h' with
    | last => rfl
    | step hsome => simp [hnone] at hsome
  | step hsome _ ih =>
    cases h' with
    | last hnone => simp [hnone] at hsome
    | step hsome' h' =>
      obtain rfl := Option.some.inj (hsome.symm.trans hsome')
      rw [ih h']

/-- A chain is one longer than what is left of it after a step. -/
lemma of_step (h : ChainLength next a k) (hb : next a = some b) :
    ∃ k', ChainLength next b k' ∧ k = k' + 1 := by
  cases h with
  | last hnone => simp [hnone] at hb
  | step hsome h =>
    obtain rfl := Option.some.inj (hsome.symm.trans hb)
    exact ⟨_, h, rfl⟩

/-- Chains get shorter. -/
lemma lt_of_transGen (h : TransGen (fun a b => next a = some b) a b) (ha : ChainLength next a k) :
    ∃ k', ChainLength next b k' ∧ k' < k := by
  induction h with
  | single hb =>
    obtain ⟨k', hb, rfl⟩ := ha.of_step hb
    exact ⟨k', hb, Nat.lt_succ_self k'⟩
  | tail _ hc ih =>
    obtain ⟨k₁, hb, hlt⟩ := ih
    obtain ⟨k₂, hc, rfl⟩ := hb.of_step hc
    exact ⟨k₂, hc, by omega⟩

/-- A chain that ends is in no cycle. -/
theorem not_transGen_self (ha : ChainLength next a k) :
    ¬TransGen (fun a b => next a = some b) a a := by
  intro h
  obtain ⟨k', ha', hlt⟩ := lt_of_transGen h ha
  exact absurd (ha'.unique ha) (by omega)

end ChainLength

/-- **Without cycles every chain ends** in fewer steps than there are elements.

**Proof sketch.** Induction on the number of elements that the chain has not met. The elements that
it has met lead to the current one, so this one is not among them. -/
theorem exists_chainLength {s : Finset α} (hclosed : ∀ a b, next a = some b → b ∈ s)
    (hacyclic : ∀ a, ¬TransGen (fun a b => next a = some b) a a) (ha : a ∈ s) :
    ∃ k < s.card, ChainLength next a k := by
  classical
  suffices hmet : ∀ (n : ℕ) (met : Finset α) (a : α), met ⊆ s → a ∈ s →
      (∀ b ∈ met, TransGen (fun a b => next a = some b) b a) → s.card ≤ n + met.card →
      ∃ k, k + met.card < s.card ∧ ChainLength next a k by
    obtain ⟨k, hk, h⟩ := hmet s.card ∅ a (by simp) ha (by simp) (by omega)
    exact ⟨k, by simpa using hk, h⟩
  intro n
  induction n with
  | zero =>
    intro met a hsub ha hmet hn
    have hnew : a ∉ met := fun hmem => hacyclic a (hmet a hmem)
    have hcard := Finset.card_le_card (Finset.insert_subset ha hsub)
    rw [Finset.card_insert_of_notMem hnew] at hcard
    omega
  | succ n ih =>
    intro met a hsub ha hmet hn
    have hnew : a ∉ met := fun hmem => hacyclic a (hmet a hmem)
    have hsub' := Finset.insert_subset ha hsub
    have hcard := Finset.card_le_card hsub'
    rw [Finset.card_insert_of_notMem hnew] at hcard
    cases hnext : next a with
    | none => exact ⟨0, by omega, .last hnext⟩
    | some b =>
      have hmet' : ∀ c ∈ insert a met, TransGen (fun a b => next a = some b) c b := by
        intro c hc
        rcases Finset.mem_insert.mp hc with rfl | hc
        · exact .single hnext
        · exact (hmet c hc).tail hnext
      obtain ⟨k, hk, h⟩ := ih (insert a met) b hsub' (hclosed a b hnext) hmet'
        (by rw [Finset.card_insert_of_notMem hnew]; omega)
      rw [Finset.card_insert_of_notMem hnew] at hk
      exact ⟨k + 1, by omega, .step hnext h⟩

end LiquidRust.Lib
