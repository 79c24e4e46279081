import LiquidRust.Common.DisjointSetsRuns
import LiquidRust.Lib.Partition

set_option relaxedAutoImplicit false
set_option autoImplicit false

/-!
# The disjoint-set map as a partition

What the map is for: an equivalence relation on `0, …, n - 1` with one value per class. The
relation is the closure of the pairs that were united, and each operation is given by what it does
to the values. The map simulates this model, whichever root a union keeps and however paths were
compressed before.

## Main definitions

* `LiquidRust.Common.ClassMap` — the abstract map: the pairs united so far, and the values.
* `LiquidRust.Common.DisjointSetsMap.Refines` — a map represents an abstract one.
* `LiquidRust.Common.DisjointSetsMap.Simulates` — both were built by the same operations.

## Main results

* `LiquidRust.Common.DisjointSetsMap.Refines.union`, `Refines.mergeFrom` — the operations on the
  map do what the abstract ones do.
* `LiquidRust.Common.DisjointSetsMap.simulates_partition` — the map is a partition with values.
-/

namespace LiquidRust.Common

open Lib

variable {T : Type}

/-- A partition of `0, …, n - 1` with a value for each class. -/
structure ClassMap (T : Type) where
  /-- The number of indices. -/
  count : ℕ
  /-- The pairs that were united. -/
  pairs : List (ℕ × ℕ)
  /-- The value of the class of an index. -/
  value : ℕ → Option T

namespace ClassMap

/-- The equivalence closure of the pairs that were united. -/
def Rel (a : ClassMap T) : ℕ → ℕ → Prop :=
  Joined a.pairs

/-- No index and no class. -/
def new : ClassMap T :=
  ⟨0, [], fun _ => none⟩

/-- Each element has a class of its own. -/
def fromIter (elems : List T) : ClassMap T :=
  ⟨elems.length, [], fun i => elems[i]?⟩

/-- A new class. -/
def push (a : ClassMap T) (elem : T) : ClassMap T :=
  ⟨a.count + 1, a.pairs, fun k => if k = a.count then some elem else a.value k⟩

open Classical in
/-- The class of an index gets another value. -/
noncomputable def setValue (a : ClassMap T) (i : ℕ) (v : Option T) : ClassMap T :=
  { a with value := fun k => if a.Rel k i then v else a.value k }

open Classical in
/-- **Two classes become one**, with the merge of the values. Nothing happens to a class that is
joined with itself. -/
noncomputable def union (a : ClassMap T) (i j : ℕ) (merge : T → T → T) : ClassMap T :=
  { a with
    pairs := (i, j) :: a.pairs
    value := fun k =>
      if ¬a.Rel i j ∧ (a.Rel k i ∨ a.Rel k j) then Option.map₂ merge (a.value i) (a.value j)
      else a.value k }

/-- The classes of all the indices become one. -/
noncomputable def multiUnion (a : ClassMap T) (indices : List ℕ) (merge : T → T → T) :
    ClassMap T :=
  match indices with
  | [] => a
  | first :: indices => indices.foldl (fun a idx => a.union first idx merge) a

open Classical in
/-- Each class gets the merge of its value with those of `b` at the given indices of the class. -/
noncomputable def mergeOver (a b : ClassMap T) (merge : T → T → T) (indices : List ℕ) :
    ClassMap T :=
  { a with
    value := fun k => (a.value k).map fun v =>
      ((indices.filter fun j => decide (a.Rel k j)).filterMap b.value).foldl merge v }

/-- **Each class gets the merge** of its value with all the values that `b` has at its indices. -/
noncomputable def mergeWith (a b : ClassMap T) (merge : T → T → T) : ClassMap T :=
  a.mergeOver b merge (List.range b.count)

section

variable {a : ClassMap T} {i j k : ℕ} {v : Option T} {merge : T → T → T}

/-- The class gets the value. -/
lemma setValue_of_rel (h : a.Rel k i) : (a.setValue i v).value k = v :=
  if_pos h

/-- Other classes keep their values. -/
lemma setValue_of_not_rel (h : ¬a.Rel k i) : (a.setValue i v).value k = a.value k :=
  if_neg h

/-- Within one class a union changes nothing. -/
lemma union_of_rel (h : a.Rel i j) : (a.union i j merge).value k = a.value k :=
  if_neg fun h' => h'.1 h

/-- The joined class gets the merged value. -/
lemma union_of_joined (h : ¬a.Rel i j) (hk : a.Rel k i ∨ a.Rel k j) :
    (a.union i j merge).value k = Option.map₂ merge (a.value i) (a.value j) :=
  if_pos ⟨h, hk⟩

/-- Other classes keep their values. -/
lemma union_of_other (hk : ¬(a.Rel k i ∨ a.Rel k j)) :
    (a.union i j merge).value k = a.value k :=
  if_neg fun h => hk h.2

end

/-- All the indices of a union are in one class. -/
lemma multiUnion_rel (a : ClassMap T) (indices : List ℕ) (merge : T → T → T) :
    ∀ i ∈ indices, ∀ j ∈ indices, (a.multiUnion indices merge).Rel i j := by
  cases indices with
  | nil => simp
  | cons first indices =>
    have hpairs : ∀ b : ClassMap T,
        b.pairs ⊆ (indices.foldl (fun a idx => a.union first idx merge) b).pairs ∧
          ∀ i ∈ indices, (first, i) ∈
            (indices.foldl (fun a idx => a.union first idx merge) b).pairs := by
      induction indices with
      | nil => exact fun b => ⟨List.Subset.refl _, by simp⟩
      | cons i indices ih =>
        intro b
        obtain ⟨hsub, hmem⟩ := ih (b.union first i merge)
        refine ⟨fun p hp => hsub (List.mem_cons_of_mem _ hp), fun k hk => ?_⟩
        rcases List.mem_cons.mp hk with rfl | hk
        · exact hsub List.mem_cons_self
        · exact hmem k hk
    have hfirst : ∀ i ∈ first :: indices, (a.multiUnion (first :: indices) merge).Rel first i := by
      intro i hi
      rcases List.mem_cons.mp hi with rfl | hi
      · exact .refl i
      · exact .of_mem ((hpairs a).2 i hi)
    exact fun i hi j hj => (hfirst i hi).symm.trans (hfirst j hj)

/-- **The merge does not depend on the order** of the indices of a class, and not on how often one
is visited, if the operation is associative, commutative and idempotent. -/
lemma mergeWith_value (a b : ClassMap T) {merge : T → T → T} [Std.Associative merge]
    [Std.Commutative merge] [Std.IdempotentOp merge] {i : ℕ} {v : T} (hv : a.value i = some v)
    {l : List ℕ} (hl : ∀ j, j ∈ l ↔ j < b.count ∧ a.Rel i j) :
    (a.mergeWith b merge).value i = some ((l.filterMap b.value).foldl merge v) := by
  classical
  show (a.value i).map _ = _
  rw [hv, Option.map_some]
  refine congrArg some (foldl_eq_of_mem_iff (fun u => ?_) v)
  simp only [List.mem_filterMap, List.mem_filter, List.mem_range, decide_eq_true_eq, hl]

end ClassMap

namespace DisjointSetsMap

/-- **A map represents an abstract one**: it has the same indices and classes, and the values are
at the roots of the classes. -/
structure Refines (s : DisjointSetsMap T) (a : ClassMap T) : Prop where
  inv : s.Inv
  count : s.parent.length = a.count
  sameClass : ∀ i j, s.SameClass i j ↔ a.Rel i j
  lookup : ∀ i r, s.HasRoot i r → s.map.lookup r = a.value i

namespace Refines

variable {s s' other : DisjointSetsMap T} {a b : ClassMap T} {i j r : ℕ}

/-- Every index has a root, also one out of bounds. -/
lemma exists_hasRoot (h : s.Inv) (i : ℕ) : ∃ r, s.HasRoot i r := by
  obtain ⟨rank, hrank, -⟩ := h.rank
  exact RootOf.exists_of_rank hrank i

/-- Two indices are in one class iff they have the same root. -/
lemma rel_iff (h : s.Refines a) {ri rj : ℕ} (hi : s.HasRoot i ri) (hj : s.HasRoot j rj) :
    a.Rel i j ↔ ri = rj := by
  rw [← h.sameClass]
  constructor
  · rintro ⟨r, hir, hjr⟩
    exact (hi.unique hir).trans (hjr.unique hj)
  · rintro rfl
    exact ⟨ri, hi, hj⟩

/-- The indices of a class have the same value. -/
lemma value_congr (h : s.Refines a) (hij : a.Rel i j) : a.value i = a.value j := by
  obtain ⟨r, hi, hj⟩ := (h.sameClass i j).mpr hij
  rw [← h.lookup i r hi, h.lookup j r hj]

/-- The indices are those with a value. -/
lemma value_eq_none_iff (h : s.Refines a) : a.value i = none ↔ s.count ≤ i := by
  by_cases hi : i < s.parent.length
  · obtain ⟨r, hr, hrlt, hrr⟩ := h.inv.exists_root hi
    obtain ⟨v, hv⟩ := h.inv.lookup_root hrlt hrr
    rw [← h.lookup i r hr, hv]
    exact iff_of_false (by simp) (Nat.not_le_of_lt hi)
  · have hself : s.HasRoot i i := .root (link_of_le (Nat.le_of_not_lt hi))
    rw [← h.lookup i i hself, AList.lookup_eq_none]
    refine iff_of_true (fun hmem => hi ((h.inv.mem_map i).mp hmem).1) (Nat.le_of_not_lt hi)

/-- A class of an index within bounds is within bounds. -/
lemma lt_of_rel (h : s.Refines a) (hi : i < s.parent.length) (hij : a.Rel i j) :
    j < s.parent.length := by
  by_contra hj
  have hnone := h.value_eq_none_iff.mpr (Nat.le_of_not_lt hj)
  rw [← h.value_congr hij] at hnone
  exact Nat.not_le_of_lt hi (h.value_eq_none_iff.mp hnone)

/-- Compressed paths represent the same. -/
lemma compress (h : s.Refines a) {p : List ℕ} (hc : Compresses s.parent p) :
    Refines { s with parent := p } a := by
  obtain ⟨hinv, hroot⟩ := h.inv.compress hc
  refine ⟨hinv, hc.length_eq.trans h.count, fun i j => ?_, fun i r hr => ?_⟩
  · rw [← h.sameClass]
    exact exists_congr fun r => and_congr (hroot i r) (hroot j r)
  · exact h.lookup i r ((hroot i r).mp hr)

/-- **A class gets another value** at its root. -/
lemma insert_root (h : s.Refines a) (hi : i < s.parent.length) (hr : s.HasRoot i r) (v : T) :
    Refines { s with map := s.map.insert r v } (a.setValue i (some v)) := by
  obtain ⟨r', hr', hrlt, hrr⟩ := h.inv.exists_root hi
  obtain rfl := hr.unique hr'
  refine ⟨h.inv.insert_root hrlt hrr v, h.count, h.sameClass, fun k q hq => ?_⟩
  have hrel : a.Rel k i ↔ q = r := h.rel_iff hq hr
  by_cases hqr : q = r
  · rw [ClassMap.setValue_of_rel (hrel.mpr hqr), hqr]
    exact AList.lookup_insert _
  · rw [ClassMap.setValue_of_not_rel (fun h => hqr (hrel.mp h)), ← h.lookup k q hq]
    exact AList.lookup_insert_ne hqr

/-- A lookup ends in the root, where the value is. -/
lemma find (h : s.Refines a) (hi : i < s.parent.length) :
    ∃ r p, s.find i = some (some r, { s with parent := p }) ∧ s.map.lookup r = a.value i ∧
      p.length = s.parent.length ∧ HasRoot { s with parent := p } i r ∧
      Refines { s with parent := p } a := by
  obtain ⟨r, p, hf, hr, -, -, hc⟩ := h.inv.find_spec hi
  exact ⟨r, p, hf, h.lookup i r hr, hc.length_eq, ((h.inv.compress hc).2 i r).mpr hr,
    h.compress hc⟩

/-- A lookup gives the value of the class, and changes no class. -/
lemma get (h : s.Refines a) (i : ℕ) : ∃ s', s.get i = some (a.value i, s') ∧ s'.Refines a ∧
    s'.parent.length = s.parent.length := by
  by_cases hi : i < s.parent.length
  · obtain ⟨r, p, hf, hv, hlen, -, h'⟩ := h.find hi
    exact ⟨_, by simp [DisjointSetsMap.get, hf, hv], h', hlen⟩
  · have hnone := h.value_eq_none_iff.mpr (Nat.le_of_not_lt hi)
    refine ⟨s, ?_, h, rfl⟩
    simp [DisjointSetsMap.get, DisjointSetsMap.find, List.getElem?_eq_none (Nat.le_of_not_lt hi),
      hnone]

/-- **A value is changed** through a reference. -/
lemma getMut (h : s.Refines a) (i : ℕ) (f : T → T) :
    ∃ s', s.getMut i f = some (a.value i, s') ∧
      s'.Refines (a.setValue i ((a.value i).map f)) ∧ s'.parent.length = s.parent.length := by
  by_cases hi : i < s.parent.length
  · obtain ⟨r, p, hf, hv, hlen, hr, h'⟩ := h.find hi
    cases hvalue : a.value i with
    | none => exact absurd (h.value_eq_none_iff.mp hvalue) (Nat.not_le_of_lt hi)
    | some v =>
      refine ⟨_, by simp only [DisjointSetsMap.getMut, hf, hv, hvalue, Option.bind_eq_bind,
        Option.bind_some]; rfl, ?_, hlen⟩
      exact h'.insert_root (hlen ▸ hi) hr (f v)
  · have hnone := h.value_eq_none_iff.mpr (Nat.le_of_not_lt hi)
    refine ⟨s, ?_, ?_, rfl⟩
    · simp [DisjointSetsMap.getMut, DisjointSetsMap.find,
        List.getElem?_eq_none (Nat.le_of_not_lt hi), hnone]
    · have hsame : a.setValue i ((a.value i).map f) = a := by
        rw [hnone, Option.map_none]
        refine congrArg (fun value => (⟨a.count, a.pairs, value⟩ : ClassMap T)) (funext fun k => ?_)
        split
        · next hk => rw [h.value_congr hk, hnone]
        · rfl
      rw [hsame]
      exact h

/-- A value is replaced. -/
lemma update (h : s.Refines a) (hi : i < s.parent.length) (elem : T) :
    ∃ s', s.update i elem = some (a.value i, s') ∧ s'.Refines (a.setValue i (some elem)) := by
  obtain ⟨r, p, hf, hv, hlen, hr, h'⟩ := h.find hi
  refine ⟨_, by simp only [DisjointSetsMap.update, hf, hv, Option.bind_eq_bind,
    Option.bind_some]; rfl, ?_⟩
  exact h'.insert_root (hlen ▸ hi) hr elem

/-- Membership in one class, by the roots. -/
lemma sameClass_iff_of_hasRoot {ri rj : ℕ} (hi : s.HasRoot i ri) (hj : s.HasRoot j rj) :
    s.SameClass i j ↔ ri = rj :=
  ⟨fun ⟨_, hir, hjr⟩ => (hi.unique hir).trans (hjr.unique hj), fun h => ⟨ri, hi, h ▸ hj⟩⟩

/-- **A union** joins the classes and merges the values, whichever root is kept. -/
theorem union (h : s.Refines a) (hi : i < s.parent.length) (hj : j < s.parent.length)
    (merge : T → T → T) : ∃ s', s.union i j merge = some s' ∧ s'.Refines (a.union i j merge) ∧
      s'.parent.length = s.parent.length := by
  obtain ⟨s', r₁, r₂, hrun, hinv, hlen, hr₁, hr₂, hunites⟩ := h.inv.union_unites hi hj merge
  refine ⟨s', hrun, ?_, hlen⟩
  have hij : a.Rel i j ↔ r₁ = r₂ := h.rel_iff hr₁ hr₂
  cases hunites with
  | same heq hroots hmap =>
    have hrel : Joined a.pairs i j := hij.mpr heq
    refine ⟨hinv, hlen.trans h.count, fun k l => ?_, fun k r hr => ?_⟩
    · show _ ↔ Joined ((i, j) :: a.pairs) k l
      rw [joined_cons_of_joined hrel]
      refine Iff.trans ?_ (h.sameClass k l)
      exact exists_congr fun r => and_congr (hroots k r) (hroots l r)
    · rw [ClassMap.union_of_rel hrel, hmap]
      exact h.lookup k r ((hroots k r).mp hr)
  | @joined root v₁ v₂ hne hroot hroots hv₁ hv₂ hv hother =>
    have hnot : ¬a.Rel i j := fun h => hne (hij.mp h)
    refine ⟨hinv, hlen.trans h.count, fun k l => ?_, fun k r hr => ?_⟩
    · obtain ⟨rk, hrk⟩ := exists_hasRoot h.inv k
      obtain ⟨rl, hrl⟩ := exists_hasRoot h.inv l
      have hk := (hroots k _).mpr ⟨rk, hrk, rfl⟩
      have hl := (hroots l _).mpr ⟨rl, hrl, rfl⟩
      show _ ↔ Joined ((i, j) :: a.pairs) k l
      rw [joined_cons_iff, sameClass_iff_of_hasRoot hk hl]
      have hkl : Joined a.pairs k l ↔ rk = rl := h.rel_iff hrk hrl
      have hki : Joined a.pairs k i ↔ rk = r₁ := h.rel_iff hrk hr₁
      have hkj : Joined a.pairs k j ↔ rk = r₂ := h.rel_iff hrk hr₂
      have hil : Joined a.pairs i l ↔ r₁ = rl := h.rel_iff hr₁ hrl
      have hjl : Joined a.pairs j l ↔ r₂ = rl := h.rel_iff hr₂ hrl
      rw [hkl, hki, hkj, hil, hjl]
      split <;> split <;> omega
    · obtain ⟨rk, hrk, rfl⟩ := (hroots k r).mp hr
      have hki : a.Rel k i ↔ rk = r₁ := h.rel_iff hrk hr₁
      have hkj : a.Rel k j ↔ rk = r₂ := h.rel_iff hrk hr₂
      by_cases hk : rk = r₁ ∨ rk = r₂
      · rw [if_pos hk, ClassMap.union_of_joined hnot (hk.imp hki.mpr hkj.mpr), hv,
            ← h.lookup i r₁ hr₁,
          ← h.lookup j r₂ hr₂, hv₁, hv₂]
        rfl
      · rw [if_neg hk, ClassMap.union_of_other (fun h => hk (h.imp hki.mp hkj.mp)),
            ← h.lookup k rk hrk]
        exact hother rk (fun h => hk (.inl h)) fun h => hk (.inr h)

/-- Two indices are compared. -/
lemma sameSet (h : s.Refines a) (hi : i < s.parent.length) (hj : j < s.parent.length) :
    ∃ b s', s.sameSet i j = some (b, s') ∧ s'.Refines a ∧ (b = true ↔ a.Rel i j) := by
  obtain ⟨r₁, r₂, p₁, p, hf₁, hf₂, hr₁, hr₂, -, -, -, -, hc⟩ :=
    h.inv.uncheckedFind_spec_two hi hj
  refine ⟨decide (r₁ = r₂), { s with parent := p }, ?_, h.compress hc, ?_⟩
  · simp only [DisjointSetsMap.sameSet, hf₁, hf₂, Option.bind_eq_bind, Option.bind_some]
  · rw [decide_eq_true_iff]
    exact (h.rel_iff hr₁ hr₂).symm

/-- The union of an index with each index of a list. -/
lemma unionAll {first : ℕ} {indices : List ℕ} (h : s.Refines a) (hf : first < s.parent.length)
    (hi : ∀ i ∈ indices, i < s.parent.length) (merge : T → T → T) :
    ∃ s', unionAll first merge indices s = some s' ∧
      s'.Refines (indices.foldl (fun a idx => a.union first idx merge) a) := by
  induction indices generalizing s a with
  | nil => exact ⟨s, rfl, h⟩
  | cons i indices ih =>
    obtain ⟨s₁, hu, h₁, hlen⟩ := h.union hf (hi i List.mem_cons_self) merge
    obtain ⟨s₂, hu₂, h₂⟩ := ih h₁ (hlen ▸ hf) fun j hj => by
      rw [hlen]
      exact hi j (List.mem_cons_of_mem _ hj)
    exact ⟨s₂, by simp [DisjointSetsMap.unionAll, hu, hu₂], h₂⟩

/-- A new class. -/
lemma push (h : s.Refines a) (elem : T) : Refines (s.push elem).2 (a.push elem) := by
  have hself := Inv.link_parent_length s
  refine ⟨h.inv.push elem, by simp [DisjointSetsMap.push, ClassMap.push, h.count], fun i j => ?_,
    fun k r hr => ?_⟩
  · refine Iff.trans ?_ (h.sameClass i j)
    exact exists_congr fun r => and_congr (Inv.hasRoot_push elem i r) (Inv.hasRoot_push elem j r)
  · rw [Inv.hasRoot_push] at hr
    show (s.map.insert s.parent.length elem).lookup r = if k = a.count then some elem else a.value k
    rw [← h.count]
    by_cases hk : k = s.parent.length
    · subst hk
      rw [if_pos rfl, ← hr.eq_of_isRoot hself]
      exact AList.lookup_insert _
    · have hne : r ≠ s.parent.length := by
        rcases Nat.lt_or_gt_of_ne hk with hlt | hgt
        · obtain ⟨r', hr', hrlt, -⟩ := h.inv.exists_root hlt
          exact hr.unique hr' ▸ hrlt.ne
        · exact hr.eq_of_isRoot (link_of_le hgt.le) ▸ hgt.ne'
      rw [if_neg hk, AList.lookup_insert_ne hne]
      exact h.lookup k r hr

/-- One step of the loop of a merge, and then the loop. -/
lemma mergeOver_cons (h : s.Refines a) {merge : T → T → T} {indices : List ℕ} {v₁ v₂ : T}
    (hv₁ : a.value i = some v₁) (hv₂ : b.value i = some v₂) :
    (a.setValue i (some (merge v₁ v₂))).mergeOver b merge indices =
      a.mergeOver b merge (i :: indices) := by
  classical
  refine congrArg (fun value => (⟨a.count, a.pairs, value⟩ : ClassMap T)) (funext fun k => ?_)
  by_cases hk : a.Rel k i
  · have hvk : a.value k = some v₁ := (h.value_congr hk).trans hv₁
    rw [ClassMap.setValue_of_rel hk, hvk, List.filter_cons_of_pos (by simpa using hk),
      List.filterMap_cons_some hv₂]
    rfl
  · rw [ClassMap.setValue_of_not_rel hk, List.filter_cons_of_neg (by simpa using hk)]
    rfl

/-- **The loop of a merge** visits a class once for each of its indices in the list. -/
theorem mergeFrom {merge : T → T → T} {indices : List ℕ} (h : s.Refines a) (ho : other.Refines b)
    (hi : ∀ i ∈ indices, i < s.parent.length ∧ i < other.parent.length) :
    ∃ s' other', mergeFrom merge indices s other = some (s', other') ∧
      s'.Refines (a.mergeOver b merge indices) ∧ other'.Refines b := by
  induction indices generalizing s other a with
  | nil =>
    refine ⟨s, other, rfl, ?_, ho⟩
    have hsame : a.mergeOver b merge [] = a :=
      congrArg (fun value => (⟨a.count, a.pairs, value⟩ : ClassMap T))
        (funext fun k => Option.map_id_apply)
    rw [hsame]
    exact h
  | cons i indices ih =>
    obtain ⟨his, hio⟩ := hi i List.mem_cons_self
    have hsome : ∀ {s : DisjointSetsMap T} {a : ClassMap T}, s.Refines a → i < s.parent.length →
        ∃ v, a.value i = some v := fun h hi =>
      Option.ne_none_iff_exists'.mp fun hnone =>
        Nat.not_le_of_lt hi (h.value_eq_none_iff.mp hnone)
    obtain ⟨v₁, hv₁⟩ := hsome h his
    obtain ⟨v₂, hv₂⟩ := hsome ho hio
    obtain ⟨s₁, hg₁, h₁, hlen₁⟩ := h.get i
    obtain ⟨o₁, hg₂, ho₁, hleno⟩ := ho.get i
    obtain ⟨s₂, hg₃, h₂, hlen₂⟩ := h₁.getMut i fun _ => merge v₁ v₂
    obtain ⟨s', o', hm, hs', ho'⟩ := ih h₂ ho₁ fun j hj => by
      rw [hlen₂, hlen₁, hleno]
      exact hi j (List.mem_cons_of_mem _ hj)
    rw [hv₁] at hg₁ hg₃
    rw [hv₂] at hg₂
    refine ⟨s', o', by simp [DisjointSetsMap.mergeFrom, hg₁, hg₂, hg₃, hm], ?_, ho'⟩
    rw [hv₁, Option.map_some, h.mergeOver_cons hv₁ hv₂] at hs'
    exact hs'

/-- **A merge** gives every class the merge of its value with the other map's values. -/
theorem mergeWith (h : s.Refines a) (ho : other.Refines b) (merge : T → T → T) :
    ∃ s' other', s.mergeWith other merge = some (s', other') ∧
      s'.Refines (a.mergeWith b merge) ∧ other'.Refines b := by
  classical
  have hrange : (List.range s.parent.length).take other.parent.length =
      List.range (min other.parent.length s.parent.length) := List.take_range
  have hindices : ∀ i ∈ (List.range s.parent.length).take other.parent.length,
      i < s.parent.length ∧ i < other.parent.length := fun i hi => by
    rw [hrange, List.mem_range] at hi
    omega
  obtain ⟨s', o', hm, hs', ho'⟩ : ∃ s' other', DisjointSetsMap.mergeFrom merge
        ((List.range s.parent.length).take other.parent.length) s other = some (s', other') ∧
        s'.Refines (a.mergeOver b merge
          ((List.range s.parent.length).take other.parent.length)) ∧ other'.Refines b :=
    h.mergeFrom ho hindices
  refine ⟨s', o', hm, ?_, ho'⟩
  have hsame : a.mergeOver b merge ((List.range s.parent.length).take other.parent.length) =
      a.mergeWith b merge := by
    refine congrArg (fun value => (⟨a.count, a.pairs, value⟩ : ClassMap T)) (funext fun k => ?_)
    by_cases hk : k < s.parent.length
    · -- the indices of a class are below the number of indices
      have hdrop : ((List.range b.count).drop s.parent.length).filter
          (fun j => decide (a.Rel k j)) = [] := by
        refine List.filter_eq_nil_iff.mpr fun j hj hrel => ?_
        have hlt := h.lt_of_rel hk (of_decide_eq_true hrel)
        obtain ⟨n, hn, rfl⟩ := List.mem_iff_getElem.mp hj
        rw [List.getElem_drop, List.getElem_range] at hlt
        omega
      rw [← List.take_append_drop s.parent.length (List.range b.count), List.filter_append, hdrop,
        List.append_nil, List.take_range, List.take_range, ho.count, min_comm]
    · rw [h.value_eq_none_iff.mpr (Nat.le_of_not_lt hk)]
      rfl
  rw [← hsame]
  exact hs'

/-- The map of no elements. -/
lemma new : Refines (new : DisjointSetsMap T) ClassMap.new := by
  refine ⟨Inv.new, rfl, fun i j => ?_, fun i r hr => rfl⟩
  show _ ↔ Joined [] i j
  rw [joined_nil]
  have hroot : ∀ k, (DisjointSetsMap.new : DisjointSetsMap T).HasRoot k k := fun k => .root rfl
  exact sameClass_iff_of_hasRoot (hroot i) (hroot j)

/-- The entries that the map of singletons is made of. -/
lemma dlookup_zipIdx (elems : List T) (n i : ℕ) :
    List.dlookup (n + i) ((elems.zipIdx n).map fun p => (⟨p.2, p.1⟩ : Sigma fun _ : ℕ => T)) =
      elems[i]? := by
  induction elems generalizing n i with
  | nil => rfl
  | cons elem elems ih =>
    rw [List.zipIdx_cons, List.map_cons]
    cases i with
    | zero => exact List.dlookup_cons_eq _ _ _
    | succ i =>
      have hne : n + (i + 1) ≠ n := by omega
      refine (List.dlookup_cons_ne _ (⟨n, elem⟩ : Sigma fun _ : ℕ => T) hne).trans ?_
      rw [← Nat.add_assoc, Nat.add_right_comm, ih]
      rfl

/-- The map of singletons. -/
lemma fromIter (elems : List T) : Refines (fromIter elems) (ClassMap.fromIter elems) := by
  have hlink : link (DisjointSetsMap.fromIter elems).parent = id := link_range _
  have hroot : ∀ k, (DisjointSetsMap.fromIter elems).HasRoot k k :=
    fun k => .root (by rw [hlink]; rfl)
  refine ⟨Inv.fromIter elems, by simp [DisjointSetsMap.fromIter, ClassMap.fromIter],
    fun i j => ?_, fun i r hr => ?_⟩
  · show _ ↔ Joined [] i j
    rw [joined_nil]
    exact sameClass_iff_of_hasRoot (hroot i) (hroot j)
  · obtain rfl := (hroot i).unique hr
    refine (AList.lookup_to_alist _).trans ?_
    have hlookup := dlookup_zipIdx elems 0 i
    rw [Nat.zero_add] at hlookup
    exact hlookup

end Refines

/-! ## Runs -/

/-- What an operation does to an abstract map. -/
noncomputable def Op.apply (a : ClassMap T) : Op T → ClassMap T
  | push elem => a.push elem
  | union idx1 idx2 merge => a.union idx1 idx2 merge
  | multiUnion indices merge => a.multiUnion indices merge
  | update idx elem => a.setValue idx (some elem)
  | getMut idx f => a.setValue idx ((a.value idx).map f)
  | get _ | set _ | sameSet _ _ => a

/-- **A map and an abstract map** that were built by the same operations on indices within
bounds. -/
inductive Simulates : DisjointSetsMap T → ClassMap T → Prop
  | new : Simulates new ClassMap.new
  | fromIter (elems : List T) : Simulates (fromIter elems) (ClassMap.fromIter elems)
  | op {s s' : DisjointSetsMap T} {a : ClassMap T} (op : Op T) : Simulates s a →
      (∀ i ∈ op.indices, i < s.count) → op.run s = some s' → Simulates s' (op.apply a)
  | mergeWith {s other s' other' : DisjointSetsMap T} {a b : ClassMap T} (merge : T → T → T) :
      Simulates s a → Simulates other b → s.mergeWith other merge = some (s', other') →
      Simulates s' (a.mergeWith b merge)
  | mergedWith {s other s' other' : DisjointSetsMap T} {a b : ClassMap T} (merge : T → T → T) :
      Simulates s a → Simulates other b → s.mergeWith other merge = some (s', other') →
      Simulates other' b

/-- An operation on indices within bounds does what it does to the abstract map. -/
lemma Refines.op {s s' : DisjointSetsMap T} {a : ClassMap T} (h : s.Refines a) (op : Op T)
    (hop : ∀ i ∈ op.indices, i < s.count) (hrun : op.run s = some s') :
    s'.Refines (op.apply a) := by
  cases op with
  | push elem =>
    obtain rfl := Option.some.inj hrun
    exact h.push elem
  | union i j merge =>
    obtain ⟨s₁, hrun', h', -⟩ := h.union (hop i (by simp [Op.indices]))
      (hop j (by simp [Op.indices])) merge
    obtain rfl := Option.some.inj (hrun.symm.trans hrun')
    exact h'
  | multiUnion indices merge =>
    cases indices with
    | nil =>
      obtain rfl := Option.some.inj hrun
      exact h
    | cons first indices =>
      obtain ⟨s₁, hrun', h'⟩ := h.unionAll (hop first List.mem_cons_self)
        (fun i hi => hop i (List.mem_cons_of_mem _ hi)) merge
      obtain rfl := Option.some.inj (hrun.symm.trans hrun')
      exact h'
  | update i elem =>
    obtain ⟨s₁, hrun', h'⟩ := h.update (hop i (by simp [Op.indices])) elem
    rw [Op.run, hrun'] at hrun
    obtain rfl := Option.some.inj hrun
    exact h'
  | get i =>
    obtain ⟨s₁, hrun', h', -⟩ := h.get i
    rw [Op.run, hrun'] at hrun
    obtain rfl := Option.some.inj hrun
    exact h'
  | getMut i f =>
    obtain ⟨s₁, hrun', h', -⟩ := h.getMut i f
    rw [Op.run, hrun'] at hrun
    obtain rfl := Option.some.inj hrun
    exact h'
  | set i =>
    have hi : i < s.parent.length := hop i (by simp [Op.indices])
    obtain ⟨r, p, hf, -, hrlt, hrr, hc⟩ := h.inv.uncheckedFind_spec hi
    obtain ⟨l, hsize, hcol, -, -⟩ := h.inv.collect_spec hrlt hrr
    obtain rfl : { s with parent := p } = s' := by
      simpa [Op.run, DisjointSetsMap.set, hf, hsize, hcol] using hrun
    exact h.compress hc
  | sameSet i j =>
    obtain ⟨b, s₁, hrun', h', -⟩ := h.sameSet (hop i (by simp [Op.indices]))
      (hop j (by simp [Op.indices]))
    rw [Op.run, hrun'] at hrun
    obtain rfl := Option.some.inj hrun
    exact h'

/-- **Maps built by the same operations** represent each other. -/
theorem Simulates.refines {s : DisjointSetsMap T} {a : ClassMap T} (h : Simulates s a) :
    s.Refines a := by
  induction h with
  | new => exact Refines.new
  | fromIter elems => exact Refines.fromIter elems
  | op op _ hop hrun ih => exact ih.op op hop hrun
  | mergeWith merge _ _ hm ih iho =>
    obtain ⟨s', o', hm', hs', -⟩ := ih.mergeWith iho merge
    rwa [(Prod.mk.inj (Option.some.inj (hm.symm.trans hm'))).1]
  | mergedWith merge _ _ hm ih iho =>
    obtain ⟨s', o', hm', -, ho'⟩ := ih.mergeWith iho merge
    rwa [(Prod.mk.inj (Option.some.inj (hm.symm.trans hm'))).2]

/-- Every map that can be built is built with an abstract one. -/
theorem Reachable.exists_simulates {s : DisjointSetsMap T} (h : Reachable s) :
    ∃ a, Simulates s a := by
  induction h with
  | new => exact ⟨_, .new⟩
  | fromIter elems => exact ⟨_, .fromIter elems⟩
  | op op _ hop hrun ih =>
    obtain ⟨a, ha⟩ := ih
    exact ⟨_, .op op ha hop hrun⟩
  | mergeWith merge _ _ hm ih iho =>
    obtain ⟨a, ha⟩ := ih
    obtain ⟨b, hb⟩ := iho
    exact ⟨_, .mergeWith merge ha hb hm⟩
  | mergedWith merge _ _ hm ih iho =>
    obtain ⟨a, ha⟩ := ih
    obtain ⟨b, hb⟩ := iho
    exact ⟨_, .mergedWith merge ha hb hm⟩

/-- **The disjoint-set map is a partition with one value per class.** Of a map and the abstract
map that the same operations build: `same_set` decides the closure of the pairs united so far,
lookups give the value of the class and nothing for the indices that there are not, and every
further operation on indices within bounds succeeds. In the abstract map a union of many indices
joins them all, and a merge does not depend on the order of the indices.

**Proof sketch.** Each operation on the map is followed by the same one on the abstract map, and
keeps that the roots of the map are the classes and have their values (`Simulates.refines`). All
answers are then those of the abstract map. -/
theorem simulates_partition {s : DisjointSetsMap T} {a : ClassMap T} (h : Simulates s a) :
    (∀ i < s.count, ∀ j < s.count, ∃ b s', s.sameSet i j = some (b, s') ∧
      (b = true ↔ Relation.EqvGen (fun x y => (x, y) ∈ a.pairs) i j)) ∧
    (∀ i, (∃ s', s.get i = some (a.value i, s')) ∧
      (∀ f, ∃ s', s.getMut i f = some (a.value i, s')) ∧ (a.value i = none ↔ s.count ≤ i)) ∧
    (∀ i j, a.Rel i j → a.value i = a.value j) ∧
    (∀ op : Op T, (∀ i ∈ op.indices, i < s.count) → (op.run s).isSome) ∧
    (∀ indices (merge : T → T → T), ∀ i ∈ indices, ∀ j ∈ indices,
      (a.multiUnion indices merge).Rel i j) ∧
    ∀ (other : DisjointSetsMap T) (b : ClassMap T), Simulates other b →
      ∀ merge : T → T → T, (s.mergeWith other merge).isSome ∧
        ∀ [Std.Associative merge] [Std.Commutative merge] [Std.IdempotentOp merge],
          (∀ i j, (a.mergeWith b merge).Rel i j ↔ a.Rel i j) ∧
          ∀ i v, a.value i = some v → ∀ l : List ℕ, (∀ j, j ∈ l ↔ j < other.count ∧ a.Rel i j) →
            (a.mergeWith b merge).value i = some ((l.filterMap b.value).foldl merge v) := by
  have href := h.refines
  refine ⟨fun i hi j hj => ?_, fun i => ⟨?_, fun f => ?_, href.value_eq_none_iff⟩,
    fun i j => href.value_congr, fun op hop => ?_, a.multiUnion_rel, fun other b ho merge => ?_⟩
  · obtain ⟨b, s', hrun, -, hb⟩ := href.sameSet hi hj
    exact ⟨b, s', hrun, hb⟩
  · obtain ⟨s', hrun, -⟩ := href.get i
    exact ⟨s', hrun⟩
  · obtain ⟨s', hrun, -⟩ := href.getMut i f
    exact ⟨s', hrun⟩
  · obtain ⟨s', hrun, -⟩ := op.run_spec href.inv hop
    simp [hrun]
  · obtain ⟨s', o', hm, -⟩ := href.mergeWith ho.refines merge
    refine ⟨by simp [hm], fun i j => Iff.rfl, fun i v hv l hl => ?_⟩
    refine a.mergeWith_value b hv fun j => ?_
    rw [hl, ← ho.refines.count]
    rfl

/-- The map of three singletons after two of them are united. -/
theorem simulates_partition_union :
    ∃ s : DisjointSetsMap ℕ, (fromIter [1, 2, 3]).union 0 2 max = some s ∧
      ∃ a : ClassMap ℕ, a.pairs = [(0, 2)] ∧
        (∀ i < s.count, ∀ j < s.count, ∃ b s', s.sameSet i j = some (b, s') ∧
          (b = true ↔ Relation.EqvGen (fun x y => (x, y) ∈ a.pairs) i j)) := by
  have h : Simulates _ ((ClassMap.fromIter [1, 2, 3]).union 0 2 max) :=
    .op (.union 0 2 max) (.fromIter [1, 2, 3]) (by decide) rfl
  exact ⟨_, rfl, _, rfl, (simulates_partition h).1⟩

end DisjointSetsMap

end LiquidRust.Common
