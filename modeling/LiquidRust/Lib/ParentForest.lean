import Mathlib.Logic.Function.Iterate
import Mathlib.Order.Nat
import Mathlib.Tactic.Common

set_option relaxedAutoImplicit false
set_option autoImplicit false

/-!
# Parent-link forests and cyclic lists

Two general facts about functions used as link tables.

A function `p : α → α` read as a table of parent links is a forest when every chain of links
ends in a fixed point. Union-find structures change such a table in two ways only: they link
one root below another, and they shorten a chain by pointing one of its elements at its root.

A function `f : α → α` read as a table of next links carries cyclic lists. Swapping the links
of one element of each of two disjoint cycles merges the two cycles into one.

## Main definitions

* `LiquidRust.Lib.RootOf` — the chain of parent links from `i` ends in the root `r`.
* `LiquidRust.Lib.Trail` — the list of elements met when following links from `x` to `y`.

## Main results

* `LiquidRust.Lib.RootOf.compress` — pointing an element at its root changes no root.
* `LiquidRust.Lib.RootOf.link` — linking root `a` below root `b` sends `a`'s tree to `b`.
* `LiquidRust.Lib.Trail.splice` — swapping two links merges two disjoint cycles.
-/

namespace LiquidRust.Lib

variable {α : Type*}

/-! ## Parent links -/

/-- The chain of parent links from `i` ends in the root `r`. -/
inductive RootOf (p : α → α) : α → α → Prop
  | root {r : α} : p r = r → RootOf p r r
  | step {i r : α} : p i ≠ i → RootOf p (p i) r → RootOf p i r

namespace RootOf

variable {p : α → α} {i j r s : α}

/-- The end of a chain is a root. -/
lemma isRoot (h : RootOf p i r) : p r = r := by
  induction h with
  | root h => exact h
  | step _ _ ih => exact ih

/-- A root is its own root. -/
lemma eq_of_isRoot (h : RootOf p i r) (hi : p i = i) : i = r := by
  cases h with
  | root _ => rfl
  | step hne _ => exact absurd hi hne

/-- An element has at most one root. -/
lemma unique (h : RootOf p i r) (h' : RootOf p i s) : r = s := by
  induction h with
  | root h => exact h'.eq_of_isRoot h
  | step hne _ ih =>
    cases h' with
    | root h => exact absurd h hne
    | step _ h' => exact ih h'

/-- An element and its parent have the same root. -/
lemma parent (h : RootOf p i r) : RootOf p (p i) r := by
  cases h with
  | root h => rw [h]; exact root h
  | step _ h => exact h

/-- An element and its parent have the same root. -/
lemma of_parent (h : RootOf p (p i) r) : RootOf p i r := by
  by_cases hi : p i = i
  · rwa [hi] at h
  · exact step hi h

/-- The root of an element is an iterated parent. -/
lemma exists_iterate (h : RootOf p i r) : ∃ k, p^[k] i = r := by
  induction h with
  | root _ => exact ⟨0, rfl⟩
  | step _ _ ih =>
    obtain ⟨k, hk⟩ := ih
    exact ⟨k + 1, by rwa [Function.iterate_succ_apply]⟩

/-- A link table whose links strictly decrease a rank is a forest. -/
lemma exists_of_rank {rank : α → ℕ} (hrank : ∀ i, p i ≠ i → rank (p i) < rank i) (i : α) :
    ∃ r, RootOf p i r := by
  induction h : rank i using Nat.strong_induction_on generalizing i with
  | _ n ih =>
    by_cases hi : p i = i
    · exact ⟨i, root hi⟩
    · obtain ⟨r, hr⟩ := ih _ (h ▸ hrank i hi) (p i) rfl
      exact ⟨r, step hi hr⟩

/-- Along a chain the rank of the root is at most the rank of the element. -/
lemma rank_le {rank : α → ℕ} (hrank : ∀ i, p i ≠ i → rank (p i) < rank i)
    (h : RootOf p i r) : rank r ≤ rank i := by
  induction h with
  | root _ => exact le_rfl
  | step hne _ ih => exact ih.trans (hrank _ hne).le

variable [DecidableEq α]

/-- **Path compression**: pointing an element at its own root changes no root. -/
lemma compress (hi : RootOf p i r) (h : RootOf p j s) :
    RootOf (Function.update p i r) j s := by
  have hr : Function.update p i r r = r := by
    by_cases hir : r = i
    · subst hir; simp
    · rw [Function.update_of_ne hir]; exact hi.isRoot
  induction h with
  | @root s hs =>
    by_cases hsi : s = i
    · subst hsi
      obtain rfl := hi.eq_of_isRoot hs
      exact root hr
    · exact root (by rwa [Function.update_of_ne hsi])
  | @step j s hne hj ih =>
    by_cases hji : j = i
    · subst hji
      obtain rfl : s = r := (step hne hj).unique hi
      refine of_parent ?_
      rw [Function.update_self]
      exact root hr
    · refine of_parent ?_
      rwa [Function.update_of_ne hji]

/-- **Linking**: pointing the root `a` at the root `b` sends `a`'s tree to `b` and leaves
every other tree alone. -/
lemma link {a b : α} (ha : p a = a) (hb : p b = b) (hab : a ≠ b) (h : RootOf p j s) :
    RootOf (Function.update p a b) j (if s = a then b else s) := by
  have hb' : RootOf (Function.update p a b) b b :=
    root (by rwa [Function.update_of_ne hab.symm])
  induction h with
  | @root s hs =>
    by_cases hsa : s = a
    · subst hsa
      rw [if_pos rfl]
      exact of_parent (by rwa [Function.update_self])
    · rw [if_neg hsa]
      exact root (by rwa [Function.update_of_ne hsa])
  | @step j s hne _ ih =>
    have hja : j ≠ a := fun h => hne (h ▸ ha)
    exact of_parent (by rwa [Function.update_of_ne hja])

end RootOf

/-! ## Cyclic lists -/

/-- `l` lists the elements met when following the links `f` from `x` up to, but not
including, `y`. -/
def Trail (f : α → α) : α → List α → α → Prop
  | x, [], y => x = y
  | x, a :: l, y => a = x ∧ Trail f (f x) l y

namespace Trail

variable {f g : α → α} {x y z : α} {l l' : List α}

/-- Trails compose. -/
lemma append (h : Trail f x l y) (h' : Trail f y l' z) : Trail f x (l ++ l') z := by
  induction l generalizing x with
  | nil => cases h; exact h'
  | cons a l ih => exact ⟨h.1, ih h.2⟩

/-- A trail depends only on the links of its own elements. -/
lemma congr (h : Trail f x l y) (hfg : ∀ a ∈ l, f a = g a) : Trail g x l y := by
  induction l generalizing x with
  | nil => exact h
  | cons a l ih =>
    obtain ⟨rfl, h⟩ := h
    refine ⟨rfl, ?_⟩
    rw [← hfg a List.mem_cons_self]
    exact ih h fun b hb => hfg b (List.mem_cons_of_mem _ hb)

/-- The elements of a trail are iterates of its start. -/
lemma exists_iterate (h : Trail f x l y) {a : α} (ha : a ∈ l) : ∃ k, f^[k] x = a := by
  induction l generalizing x with
  | nil => simp at ha
  | cons b l ih =>
    obtain ⟨rfl, h⟩ := h
    rcases List.mem_cons.mp ha with rfl | ha
    · exact ⟨0, rfl⟩
    · obtain ⟨k, hk⟩ := ih h ha
      exact ⟨k + 1, by rwa [Function.iterate_succ_apply]⟩

/-- Links from the elements of a trail lead to its elements or to its end. -/
lemma next_mem (h : Trail f x l y) {a : α} (ha : a ∈ l) : f a ∈ l ∨ f a = y := by
  induction l generalizing x with
  | nil => simp at ha
  | cons b l ih =>
    obtain ⟨rfl, h⟩ := h
    rcases List.mem_cons.mp ha with rfl | ha
    · cases l with
      | nil => exact .inr h
      | cons c l => exact .inl (by rw [← h.1]; simp)
    · rcases ih h ha with h' | h'
      · exact .inl (List.mem_cons_of_mem _ h')
      · exact .inr h'

/-- The end of a trail is the link of its last element. -/
lemma exists_prev_end (h : Trail f x l y) (hl : l ≠ []) : ∃ b ∈ l, f b = y := by
  induction l generalizing x with
  | nil => exact absurd rfl hl
  | cons b l ih =>
    obtain ⟨rfl, h⟩ := h
    cases l with
    | nil => exact ⟨b, List.mem_cons_self, h⟩
    | cons c l =>
      obtain ⟨d, hd, hdy⟩ := ih h (List.cons_ne_nil c l)
      exact ⟨d, List.mem_cons_of_mem _ hd, hdy⟩

/-- Every element of a trail but its first is the link of an element. -/
lemma eq_or_exists_prev (h : Trail f x l y) {a : α} (ha : a ∈ l) :
    a = x ∨ ∃ b ∈ l, f b = a := by
  induction l generalizing x with
  | nil => simp at ha
  | cons b l ih =>
    obtain ⟨rfl, h⟩ := h
    rcases List.mem_cons.mp ha with rfl | ha
    · exact .inl rfl
    · rcases ih h ha with rfl | ⟨c, hc, hca⟩
      · exact .inr ⟨b, List.mem_cons_self, rfl⟩
      · exact .inr ⟨c, List.mem_cons_of_mem _ hc, hca⟩

/-- On a cycle every element is the link of an element. -/
lemma exists_prev (h : Trail f x l x) {a : α} (ha : a ∈ l) : ∃ b ∈ l, f b = a := by
  rcases h.eq_or_exists_prev ha with rfl | hb
  · exact h.exists_prev_end (List.ne_nil_of_mem ha)
  · exact hb

/-- Iterates of an element of a cycle stay on the cycle. -/
lemma iterate_mem (h : Trail f x l x) (hx : x ∈ l) {a : α} (ha : a ∈ l) (k : ℕ) :
    f^[k] a ∈ l := by
  induction k generalizing a with
  | zero => exact ha
  | succ k ih =>
    rw [Function.iterate_succ_apply]
    refine ih ?_
    rcases h.next_mem ha with h' | h'
    · exact h'
    · rwa [h']

/-- Following the links of a trail from its start reaches its end. -/
lemma exists_iterate_end (h : Trail f x l y) : ∃ k, f^[k] x = y := by
  induction l generalizing x with
  | nil => exact ⟨0, h⟩
  | cons a l ih =>
    obtain ⟨rfl, h⟩ := h
    obtain ⟨k, hk⟩ := ih h
    exact ⟨k + 1, by rwa [Function.iterate_succ_apply]⟩

/-- Following the links of a trail from any of its elements reaches its end. -/
lemma exists_iterate_end_of_mem (h : Trail f x l y) {a : α} (ha : a ∈ l) :
    ∃ k, f^[k] a = y := by
  induction l generalizing x with
  | nil => simp at ha
  | cons b l ih =>
    obtain ⟨rfl, h'⟩ := h
    rcases List.mem_cons.mp ha with rfl | ha
    · exact exists_iterate_end (l := a :: l) ⟨rfl, h'⟩
    · exact ih h' ha

/-- Any two elements of a cycle are iterates of one another: from the first the links lead
back to the start of the cycle, and from there to the second. -/
lemma exists_iterate_of_mem (h : Trail f x l x) {a b : α} (ha : a ∈ l) (hb : b ∈ l) :
    ∃ k, f^[k] a = b := by
  obtain ⟨k, hk⟩ := h.exists_iterate_end_of_mem ha
  obtain ⟨m, hm⟩ := h.exists_iterate hb
  exact ⟨m + k, by rw [Function.iterate_add_apply, hk, hm]⟩

/-- **Merging two cycles**: swapping the links of `a` and `b`, the starts of two disjoint
cycles, makes one cycle of both.

**Proof sketch.** After the swap `a` leads into the rest of `b`'s cycle, which still ends in
`b`, and `b` leads into the rest of `a`'s cycle, which still ends in `a`. -/
lemma splice [DecidableEq α] {a b : α} {k m : List α} (ha : Trail f a (a :: k) a)
    (hb : Trail f b (b :: m) b) (hnd : (a :: k ++ b :: m).Nodup) :
    Trail (Function.update (Function.update f a (f b)) b (f a)) a (a :: m ++ b :: k) a := by
  set g := Function.update (Function.update f a (f b)) b (f a) with hg
  simp only [List.cons_append, List.nodup_cons, List.mem_append, List.mem_cons, not_or,
    List.nodup_append] at hnd
  obtain ⟨⟨hak, hab, ham⟩, hk, ⟨hbm, hm⟩, hdis⟩ := hnd
  have hga : g a = f b := by rw [hg, Function.update_of_ne hab, Function.update_self]
  have hgb : g b = f a := by rw [hg, Function.update_self]
  have hgo : ∀ c, c ≠ a → c ≠ b → f c = g c := fun c hca hcb => by
    rw [hg, Function.update_of_ne hcb, Function.update_of_ne hca]
  have hk' : Trail g (f a) k a :=
    ha.2.congr fun c hc => hgo c (fun h => hak (h ▸ hc)) fun h => hdis c hc b (.inl rfl) h
  have hm' : Trail g (f b) m b :=
    hb.2.congr fun c hc => hgo c (fun h => ham (h ▸ hc)) fun h => hbm (h ▸ hc)
  refine ⟨rfl, ?_⟩
  rw [hga]
  refine hm'.append ⟨rfl, ?_⟩
  rwa [hgb]

end Trail

end LiquidRust.Lib
