import Mathlib.Data.List.Nodup
import Mathlib.Logic.Equiv.Basic
import Mathlib.Order.Bounds.Basic

set_option relaxedAutoImplicit false
set_option autoImplicit false

/-!
# Renamings and least bounds

Two lists of names without repetition are renamed to one another by a permutation that leaves the
names in use alone. The least bound of a set does not depend on the order in which the bounds of
pairs are taken.

## Main results

* `LiquidRust.Lib.exists_perm_map_eq` — a permutation that maps one list to another.
* `LiquidRust.Lib.isLUB_insert_of_pair` — least upper bounds, one element after the other.
-/

namespace LiquidRust.Lib

section Renaming

variable {α β : Type} [DecidableEq α] {S : Set α}

/-- **A renaming** of one list to another one of the same length, where no element of `S` is
renamed. -/
theorem exists_perm_map_eq {l l' : List α} (hlen : l.length = l'.length) (hl : l.Nodup)
    (hl' : l'.Nodup) (hS : ∀ a ∈ l, a ∉ S) (hS' : ∀ a ∈ l', a ∉ S) :
    ∃ σ : Equiv.Perm α, l.map σ = l' ∧ ∀ a ∈ S, σ a = a := by
  induction l generalizing l' with
  | nil => exact ⟨.refl α, (List.length_eq_zero_iff.mp hlen.symm).symm, fun _ _ => rfl⟩
  | cons a l ih =>
    obtain ⟨b, l', rfl⟩ := List.exists_cons_of_length_eq_add_one hlen.symm
    obtain ⟨ha, hl⟩ := List.nodup_cons.mp hl
    obtain ⟨hb, hl'⟩ := List.nodup_cons.mp hl'
    obtain ⟨σ, hmap, hfix⟩ := ih (Nat.succ.inj hlen) hl hl' (fun x hx => hS x (.tail _ hx))
      fun x hx => hS' x (.tail _ hx)
    -- the permutation for the tails, and then the image of `a` is swapped with `b`
    have hother : ∀ x, x ≠ a → σ x ≠ b → Equiv.swap (σ a) b (σ x) = σ x := fun x hxa hxb =>
      Equiv.swap_apply_of_ne_of_ne (fun h => hxa (σ.injective h)) hxb
    refine ⟨σ.trans (Equiv.swap (σ a) b), ?_, fun x hx => ?_⟩
    · have htail : l.map (σ.trans (Equiv.swap (σ a) b)) = l' := by
        rw [← hmap]
        refine List.map_congr_left fun x hx => hother x (fun h => ha (h ▸ hx)) fun h => hb ?_
        exact h ▸ hmap ▸ List.mem_map_of_mem hx
      rw [List.map_cons, htail, Equiv.trans_apply, Equiv.swap_apply_left]
    · have hxa : x ≠ a := fun h => hS a (.head _) (h ▸ hx)
      have hxb : σ x ≠ b := fun h => hS' b (.head _) (h ▸ (hfix x hx).symm ▸ hx)
      rw [Equiv.trans_apply, hother x hxa hxb, hfix x hx]

omit [DecidableEq α] in
/-- A concatenation is mapped to another one part by part. -/
lemma map_eq_of_map_flatMap_eq {σ : α → α} {f g : β → List α} {l : List β}
    (hlen : ∀ b ∈ l, (f b).length = (g b).length) (h : (l.flatMap f).map σ = l.flatMap g) :
    ∀ b ∈ l, (f b).map σ = g b := by
  induction l with
  | nil => exact fun b hb => nomatch hb
  | cons b l ih =>
    rw [List.flatMap_cons, List.map_append, List.flatMap_cons] at h
    obtain ⟨hb, hl⟩ := List.append_inj h (by rw [List.length_map, hlen b (.head _)])
    exact List.forall_mem_cons.mpr ⟨hb, ih (fun b hb => hlen b (.tail _ hb)) hl⟩

end Renaming

/-- **A least bound** of one more element is the least bound of the element and the least bound
that there is. -/
theorem isLUB_insert_of_pair {α : Type} [Preorder α] {S : Set α} {a b c : α} (h : IsLUB S a)
    (h' : IsLUB {a, b} c) : IsLUB (insert b S) c := by
  have hac : a ≤ c := h'.1 (Set.mem_insert _ _)
  have hbc : b ≤ c := h'.1 (Set.mem_insert_of_mem _ rfl)
  refine ⟨?_, fun u hu => h'.2 ?_⟩
  · rintro x (rfl | hx)
    · exact hbc
    · exact (h.1 hx).trans hac
  · rintro x (rfl | rfl)
    · exact h.2 fun y hy => hu (Set.mem_insert_of_mem _ hy)
    · exact hu (Set.mem_insert _ _)

end LiquidRust.Lib
