import Mathlib.Data.Multiset.Fold
import Mathlib.Logic.Relation

set_option relaxedAutoImplicit false
set_option autoImplicit false

/-!
# Partitions from pairs

The equivalence relation that a list of pairs generates, and what one more pair does to it: two
classes become one. Values of classes are merged by folding over lists of elements, where for an
operation that is associative, commutative and idempotent only the members of the list matter.

## Main definitions

* `LiquidRust.Lib.Joined` — the equivalence closure of a list of pairs.

## Main results

* `LiquidRust.Lib.joined_cons_iff` — the classes of the two elements of a pair are joined.
* `LiquidRust.Lib.foldl_eq_of_mem_iff` — folds over lists with the same members.
-/

namespace LiquidRust.Lib

variable {α : Type*}

/-- **The equivalence closure** of the pairs. -/
def Joined (pairs : List (α × α)) : α → α → Prop :=
  Relation.EqvGen fun a b => (a, b) ∈ pairs

namespace Joined

variable {pairs pairs' : List (α × α)} {a b c : α}

/-- An element is joined with itself. -/
lemma refl (a : α) : Joined pairs a a :=
  Relation.EqvGen.refl a

/-- Pairs join in both directions. -/
lemma symm (h : Joined pairs a b) : Joined pairs b a :=
  Relation.EqvGen.symm _ _ h

/-- Joined elements of joined elements are joined. -/
lemma trans (h : Joined pairs a b) (h' : Joined pairs b c) : Joined pairs a c :=
  Relation.EqvGen.trans _ _ _ h h'

/-- A pair joins its elements. -/
lemma of_mem (h : (a, b) ∈ pairs) : Joined pairs a b :=
  Relation.EqvGen.rel _ _ h

/-- More pairs join more elements. -/
lemma mono (h : pairs ⊆ pairs') (hab : Joined pairs a b) : Joined pairs' a b :=
  Relation.EqvGen.mono (fun _ _ hp => h hp) _ _ hab

end Joined

section

variable {pairs : List (α × α)} {i j a b : α}

/-- Without pairs nothing is joined. -/
@[simp] lemma joined_nil : Joined [] a b ↔ a = b := by
  constructor
  · intro h
    induction h with
    | rel a b h => cases h
    | refl a => rfl
    | symm a b _ ih => exact ih.symm
    | trans a b c _ _ ih1 ih2 => exact ih1.trans ih2
  · rintro rfl
    exact .refl a

/-- **One more pair** joins the classes of its elements. -/
theorem joined_cons_iff : Joined ((i, j) :: pairs) a b ↔
    Joined pairs a b ∨ (Joined pairs a i ∧ Joined pairs j b) ∨
      Joined pairs a j ∧ Joined pairs i b := by
  constructor
  · intro h
    induction h with
    | rel a b h =>
      rcases List.mem_cons.mp h with h | h
      · obtain ⟨rfl, rfl⟩ := Prod.mk.inj h
        exact .inr (.inl ⟨.refl a, .refl b⟩)
      · exact .inl (.of_mem h)
    | refl a => exact .inl (.refl a)
    | symm a b _ ih =>
      rcases ih with h | ⟨h1, h2⟩ | ⟨h1, h2⟩
      · exact .inl h.symm
      · exact .inr (.inr ⟨h2.symm, h1.symm⟩)
      · exact .inr (.inl ⟨h2.symm, h1.symm⟩)
    | trans a b c _ _ ih1 ih2 =>
      rcases ih1 with h | ⟨h1, h2⟩ | ⟨h1, h2⟩ <;> rcases ih2 with h' | ⟨h3, h4⟩ | ⟨h3, h4⟩
      · exact .inl (h.trans h')
      · exact .inr (.inl ⟨h.trans h3, h4⟩)
      · exact .inr (.inr ⟨h.trans h3, h4⟩)
      · exact .inr (.inl ⟨h1, h2.trans h'⟩)
      · exact .inr (.inl ⟨h1, h4⟩)
      · exact .inl (h1.trans h4)
      · exact .inr (.inr ⟨h1, h2.trans h'⟩)
      · exact .inl (h1.trans h4)
      · exact .inr (.inr ⟨h1, h4⟩)
  · have hmono : ∀ {a b}, Joined pairs a b → Joined ((i, j) :: pairs) a b :=
      Joined.mono (List.subset_cons_self _ _)
    have hij : Joined ((i, j) :: pairs) i j := .of_mem (.head _)
    rintro (h | ⟨h1, h2⟩ | ⟨h1, h2⟩)
    · exact hmono h
    · exact (hmono h1).trans (hij.trans (hmono h2))
    · exact (hmono h1).trans (hij.symm.trans (hmono h2))

/-- A pair of one class changes nothing. -/
lemma joined_cons_of_joined (h : Joined pairs i j) :
    Joined ((i, j) :: pairs) a b ↔ Joined pairs a b := by
  rw [joined_cons_iff]
  refine ⟨?_, .inl⟩
  rintro (h' | ⟨h1, h2⟩ | ⟨h1, h2⟩)
  · exact h'
  · exact h1.trans (h.trans h2)
  · exact h1.trans (h.symm.trans h2)

end

/-- **Folds over lists with the same members** agree for an operation that is associative,
commutative and idempotent. -/
theorem foldl_eq_of_mem_iff {op : α → α → α} [Std.Associative op] [Std.Commutative op]
    [Std.IdempotentOp op] {l l' : List α} (h : ∀ a, a ∈ l ↔ a ∈ l') (a : α) :
    l.foldl op a = l'.foldl op a := by
  classical
  have hdedup : (l : Multiset α).dedup = (l' : Multiset α).dedup :=
    Multiset.dedup_ext.mpr fun a => by simpa using h a
  calc l.foldl op a = (l : Multiset α).fold op a := (Multiset.coe_fold_l op a l).symm
    _ = (l : Multiset α).dedup.fold op a := (Multiset.fold_dedup_idem op _ a).symm
    _ = (l' : Multiset α).dedup.fold op a := by rw [hdedup]
    _ = (l' : Multiset α).fold op a := Multiset.fold_dedup_idem op _ a
    _ = l'.foldl op a := Multiset.coe_fold_l op a l'

end LiquidRust.Lib
