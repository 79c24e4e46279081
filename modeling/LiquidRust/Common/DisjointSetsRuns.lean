import Mathlib.Data.Set.Finite.Basic
import Mathlib.Order.Interval.Finset.Nat
import LiquidRust.Common.DisjointSetsInv

set_option relaxedAutoImplicit false
set_option autoImplicit false

/-!
# Runs of the disjoint-set map

Every map that the operations can build satisfies the representation invariant, no operation
panics on an index within bounds, and the invariant says what the iterators yield.

## Main definitions

* `LiquidRust.Common.DisjointSetsMap.Op` — the operations with their arguments.
* `LiquidRust.Common.DisjointSetsMap.Reachable` — the maps that operations can build.
* `LiquidRust.Common.DisjointSetsMap.Representation` — the invariant as its users see it.

## Main results

* `LiquidRust.Common.DisjointSetsMap.Reachable.inv` — the invariant holds of every such map.
* `LiquidRust.Common.DisjointSetsMap.Inv.representation` — what follows from it.
* `LiquidRust.Common.DisjointSetsMap.reachable_representation` — both together.
-/

namespace LiquidRust.Common

open Lib

/-- Following a trail within bounds, the iterator yields its elements. -/
lemma SetIter.collect_eq {next : List ℕ} {x y : ℕ} {l : List ℕ} (h : Trail (link next) x l y)
    (hl : ∀ i ∈ l, i < next.length) : SetIter.collect next l.length x = some l := by
  induction l generalizing x with
  | nil => rfl
  | cons a l ih =>
    obtain ⟨rfl, h⟩ := h
    have ha : next[a]? = some (link next a) := getElem?_eq_link (hl a List.mem_cons_self)
    have ih' := ih h fun i hi => hl i (List.mem_cons_of_mem _ hi)
    simp [SetIter.collect, SetIter.step, ha, ih']

/-- A list of entries with distinct keys has one entry with a given key. -/
lemma filter_key {T : Type} {entries : List (Sigma fun _ : ℕ => T)} (hnd : entries.NodupKeys)
    {r : ℕ} {v : T} (hv : ⟨r, v⟩ ∈ entries) :
    entries.filter (fun e => decide (e.1 = r)) = [⟨r, v⟩] := by
  induction entries with
  | nil => simp at hv
  | cons e entries ih =>
    rw [List.nodupKeys_cons] at hnd
    rcases List.mem_cons.mp hv with rfl | hv
    · rw [List.filter_cons_of_pos (by simp)]
      congr 1
      refine List.filter_eq_nil_iff.mpr fun e' he' hr => hnd.1 ?_
      rw [decide_eq_true_eq] at hr
      exact hr ▸ List.mem_keys_of_mem (s := e') he'
    · have her : e.1 ≠ r := fun her => hnd.1 (her ▸ List.mem_keys_of_mem hv)
      rw [List.filter_cons_of_neg (by simpa using her)]
      exact ih hnd.2 hv

namespace DisjointSetsMap

variable {T : Type}

/-! ## The operations preserve the invariant -/

namespace Inv

variable {s other : DisjointSetsMap T}

/-- The identity tables describe the partition into singletons. -/
private lemma singletons {n : ℕ} {m : AList fun _ : ℕ => T} (hm : ∀ i, i ∈ m ↔ i < n) :
    Inv { map := m, parent := List.range n, size := List.replicate n 1,
          next := List.range n } := by
  have hroot : ∀ i r, RootOf (id : ℕ → ℕ) i r ↔ r = i := fun i r =>
    ⟨fun h => (h.eq_of_isRoot rfl).symm, fun h => h ▸ .root rfl⟩
  have hsize : ∀ r < n, (List.replicate n 1)[r]?.getD 0 = 1 := fun r hr => by simp [hr]
  refine ⟨by simp, by simp, ?_, ⟨fun _ => 0, ?_, ?_⟩, ?_, ?_⟩
  · simp [link_range]
  · simp [link_range]
  · intro i r hi hr
    rw [HasRoot, link_range, hroot] at hr
    rw [List.length_range] at hi
    change 0 < (List.replicate n 1)[r]?.getD 0
    rw [hsize r (hr ▸ hi)]
    exact Nat.one_pos
  · simp [link_range, hm]
  · intro r hr _
    rw [List.length_range] at hr
    refine ⟨[], ⟨rfl, by rw [link_range]; rfl⟩, by simp, (hsize r hr).symm, fun i => ?_⟩
    rw [HasRoot, link_range, hroot, List.length_range]
    simp only [List.mem_singleton]
    exact ⟨fun h => ⟨h ▸ hr, h.symm⟩, fun h => h.2.symm⟩

/-- The empty map satisfies the invariant. -/
lemma new : Inv (new : DisjointSetsMap T) :=
  singletons (n := 0) (by simp)

/-- The map of singletons satisfies the invariant. -/
lemma fromIter (elems : List T) : Inv (fromIter elems) := by
  refine singletons fun i => ?_
  rw [← AList.lookup_isSome, AList.lookup_to_alist, List.dlookup_isSome]
  simp only [List.keys, List.mem_map, List.map_map, List.mem_zipIdx_iff_getElem?,
    List.getElem?_eq_some_iff, Function.comp_apply, Prod.exists]
  exact ⟨fun ⟨_, _, ⟨hi, _⟩, h⟩ => h ▸ hi, fun hi => ⟨elems[i], i, ⟨hi, rfl⟩, rfl⟩⟩

/-- The first free index would be a root. -/
lemma link_parent_length (s : DisjointSetsMap T) :
    link s.parent s.parent.length = s.parent.length :=
  link_of_le le_rfl

/-- The sizes recorded after a push: `1` for the new index and the old ones otherwise. -/
private lemma sizeAt_push (h : s.Inv) (elem : T) (r : ℕ) (hr : r ≤ s.parent.length) :
    (s.push elem).2.sizeAt r = if r = s.parent.length then 1 else s.sizeAt r := by
  change (s.size ++ [1])[r]?.getD 0 = _
  rcases hr.lt_or_eq with hr | rfl
  · rw [if_neg hr.ne, List.getElem?_append_left (by rw [h.size_length]; exact hr)]; rfl
  · simp [← h.size_length]

/-- The roots after a push: the new index is its own root, and the old ones keep theirs. -/
lemma hasRoot_push (elem : T) (i r : ℕ) :
    (s.push elem).2.HasRoot i r ↔ s.HasRoot i r := by
  change RootOf (link (s.parent ++ [s.parent.length])) i r ↔ _
  rw [link_append_self]; rfl

/-- **A new singleton class** preserves the invariant. -/
lemma push (h : s.Inv) (elem : T) : (s.push elem).2.Inv := by
  obtain ⟨rank, hrank, hsize⟩ := h.rank
  have hlink : link (s.push elem).2.parent = link s.parent := link_append_self s.parent
  have hnext : link (s.push elem).2.next = link s.next := by
    change link (s.next ++ [s.parent.length]) = _
    rw [← h.next_length]; exact link_append_self s.next
  have hlen : (s.push elem).2.parent.length = s.parent.length + 1 := by
    simp [DisjointSetsMap.push]
  have hself := link_parent_length s
  refine ⟨?_, ?_, fun i hi => ?_, ⟨fun i => if i = s.parent.length then 0 else rank i,
    fun i hi => ?_, fun i r hi hr => ?_⟩, fun i => ?_, fun r hr hrr => ?_⟩
  · simp [DisjointSetsMap.push, h.size_length]
  · simp [DisjointSetsMap.push, h.next_length]
  · rw [hlen] at hi ⊢
    rw [hlink]
    rcases Nat.lt_succ_iff_lt_or_eq.mp hi with hi | rfl
    · exact (h.parent_lt i hi).trans (Nat.lt_succ_self _)
    · rw [hself]; exact Nat.lt_succ_self _
  · simp only [hlink] at hi ⊢
    have hilt : i < s.parent.length := by
      by_contra hge
      exact hi (link_of_le (Nat.le_of_not_lt hge))
    rw [if_neg (h.parent_lt i hilt).ne, if_neg hilt.ne]
    exact hrank i hi
  · rw [hlen] at hi
    rw [hasRoot_push] at hr
    rcases Nat.lt_succ_iff_lt_or_eq.mp hi with hi | rfl
    · obtain ⟨r', hr', hrlt, -⟩ := h.exists_root hi
      obtain rfl := hr.unique hr'
      simpa [h.sizeAt_push elem r hrlt.le, hi.ne, hrlt.ne] using hsize i r hi hr
    · obtain rfl := hr.eq_of_isRoot hself
      simp [h.sizeAt_push elem _ le_rfl]
  · simp only [hlink, hlen]
    change i ∈ s.map.insert s.parent.length elem ↔ _
    rw [AList.mem_insert, h.mem_map]
    constructor
    · rintro (rfl | ⟨hi, hroot⟩)
      · exact ⟨Nat.lt_succ_self _, hself⟩
      · exact ⟨hi.trans (Nat.lt_succ_self _), hroot⟩
    · rintro ⟨hi, hroot⟩
      rcases Nat.lt_succ_iff_lt_or_eq.mp hi with hi | hi
      · exact .inr ⟨hi, hroot⟩
      · exact .inl hi
  · simp only [hlen, hlink, hnext, hasRoot_push] at hr hrr ⊢
    have hroot : ∀ i, i < s.parent.length + 1 ∧ s.HasRoot i r ↔
        (i < s.parent.length ∧ s.HasRoot i r) ∨ (i = s.parent.length ∧ i = r) := fun i => by
      rw [Nat.lt_succ_iff_lt_or_eq, or_and_right]
      refine or_congr_right (and_congr_right fun hi => ?_)
      subst hi
      exact ⟨fun hr => hr.eq_of_isRoot hself, fun hr => hr ▸ .root hself⟩
    rcases Nat.lt_succ_iff_lt_or_eq.mp hr with hr | rfl
    · obtain ⟨l, htr, hnd, hll, hmem⟩ := h.cycle r hr hrr
      refine ⟨l, htr, hnd, by rw [hll, h.sizeAt_push elem r hr.le, if_neg hr.ne], fun i => ?_⟩
      rw [hroot, hmem]
      exact ⟨.inl, fun hi => hi.resolve_right fun hi => hr.ne (hi.2.symm.trans hi.1)⟩
    · refine ⟨[], ⟨rfl, link_of_le h.next_length.le⟩, by simp,
        by rw [h.sizeAt_push elem _ le_rfl, if_pos rfl]; rfl, fun i => ?_⟩
      rw [hroot, List.mem_singleton]
      refine ⟨fun hi => .inr ⟨hi, hi⟩, ?_⟩
      rintro (⟨hi, hr'⟩ | ⟨hi, -⟩)
      · obtain ⟨r', hr'', hrlt, -⟩ := h.exists_root hi
        exact absurd (hr'.unique hr'') hrlt.ne'
      · exact hi

/-- The union of an index with each index of a list preserves the invariant. -/
lemma unionAll_spec {first : ℕ} {indices : List ℕ} (h : s.Inv) (hf : first < s.parent.length)
    (hi : ∀ i ∈ indices, i < s.parent.length) (merge : T → T → T) :
    ∃ s', unionAll first merge indices s = some s' ∧ s'.Inv ∧
      s'.parent.length = s.parent.length := by
  induction indices generalizing s with
  | nil => exact ⟨s, rfl, h, rfl⟩
  | cons i indices ih =>
    obtain ⟨s₁, hu, h₁, hlen₁⟩ := h.union_spec hf (hi i List.mem_cons_self) merge
    obtain ⟨s₂, hu₂, h₂, hlen₂⟩ := ih h₁ (hlen₁ ▸ hf) fun j hj => by
      rw [hlen₁]; exact hi j (List.mem_cons_of_mem _ hj)
    exact ⟨s₂, by simp [unionAll, hu, hu₂], h₂, hlen₂.trans hlen₁⟩

/-- A lookup of a value within bounds finds it. -/
lemma get_spec (h : s.Inv) {i : ℕ} (hi : i < s.parent.length) :
    ∃ v s', s.get i = some (some v, s') ∧ s'.Inv ∧ s'.parent.length = s.parent.length := by
  obtain ⟨r, p, hf, -, hrlt, hrr, hc⟩ := h.find_spec hi
  obtain ⟨v, hv⟩ := h.lookup_root hrlt hrr
  exact ⟨v, _, by simp [DisjointSetsMap.get, hf, hv], (h.compress hc).1, hc.length_eq⟩

/-- Changing a value within bounds finds it and preserves the invariant. -/
lemma getMut_spec (h : s.Inv) {i : ℕ} (hi : i < s.parent.length) (f : T → T) :
    ∃ v s', s.getMut i f = some (some v, s') ∧ s'.Inv ∧
      s'.parent.length = s.parent.length := by
  obtain ⟨r, p, hf, -, hrlt, hrr, hc⟩ := h.find_spec hi
  obtain ⟨v, hv⟩ := h.lookup_root hrlt hrr
  refine ⟨v, _, by simp only [DisjointSetsMap.getMut, hf, hv, Option.bind_eq_bind,
    Option.bind_some]; rfl, ?_, hc.length_eq⟩
  exact (h.compress hc).1.insert_root (by rw [hc.length_eq]; exact hrlt)
    ((hc.isRoot_iff r).mpr hrr) _

/-- So does replacing it. -/
lemma update_spec (h : s.Inv) {i : ℕ} (hi : i < s.parent.length) (elem : T) :
    ∃ v s', s.update i elem = some (v, s') ∧ s'.Inv ∧
      s'.parent.length = s.parent.length := by
  obtain ⟨r, p, hf, -, hrlt, hrr, hc⟩ := h.find_spec hi
  refine ⟨s.map.lookup r, _, by simp [DisjointSetsMap.update, hf]; rfl, ?_, hc.length_eq⟩
  exact (h.compress hc).1.insert_root (by rw [hc.length_eq]; exact hrlt)
    ((hc.isRoot_iff r).mpr hrr) _

/-- The iterator started at a root yields the elements below it. -/
lemma collect_spec (h : s.Inv) {r : ℕ} (hr : r < s.parent.length) (hrr : link s.parent r = r) :
    ∃ l, s.size[r]? = some l.length ∧ SetIter.collect s.next l.length r = some l ∧ l.Nodup ∧
      ∀ i, i ∈ l ↔ i < s.parent.length ∧ s.HasRoot i r := by
  obtain ⟨l, htr, hnd, hlen, hmem⟩ := h.cycle r hr hrr
  have hrs : r < s.size.length := by rw [h.size_length]; exact hr
  refine ⟨r :: l, ?_, SetIter.collect_eq htr fun i hi => ?_, hnd, hmem⟩
  · rw [hlen, sizeAt, List.getElem?_eq_getElem hrs]; rfl
  · rw [h.next_length]; exact ((hmem i).mp hi).1

/-- The elements of the class of an index within bounds. -/
lemma set_spec (h : s.Inv) {i : ℕ} (hi : i < s.parent.length) :
    ∃ l s', s.set i = some (l, s') ∧ s'.Inv ∧ s'.parent.length = s.parent.length ∧ l.Nodup ∧
      ∀ j, j ∈ l ↔ j < s.parent.length ∧ s.SameClass i j := by
  obtain ⟨r, p, hf, hr, hrlt, hrr, hc⟩ := h.uncheckedFind_spec hi
  obtain ⟨l, hsize, hcol, hnd, hmem⟩ := h.collect_spec hrlt hrr
  refine ⟨l, _, by simp [DisjointSetsMap.set, hf, hsize, hcol], (h.compress hc).1,
    hc.length_eq, hnd, fun j => ?_⟩
  rw [hmem]
  refine and_congr_right fun _ => ⟨fun hj => ⟨r, hr, hj⟩, ?_⟩
  rintro ⟨r', hr', hj⟩
  rwa [hr.unique hr']

/-- The loop of a merge preserves the invariants of both maps. -/
lemma mergeFrom_spec {merge : T → T → T} {indices : List ℕ} (h : s.Inv) (ho : other.Inv)
    (hi : ∀ i ∈ indices, i < s.parent.length ∧ i < other.parent.length) :
    ∃ s' other', mergeFrom merge indices s other = some (s', other') ∧ s'.Inv ∧ other'.Inv := by
  induction indices generalizing s other with
  | nil => exact ⟨s, other, rfl, h, ho⟩
  | cons i indices ih =>
    obtain ⟨his, hio⟩ := hi i List.mem_cons_self
    obtain ⟨v₁, s₁, hg₁, h₁, hlen₁⟩ := h.get_spec his
    obtain ⟨v₂, o₁, hg₂, ho₁, hleno⟩ := ho.get_spec hio
    obtain ⟨v₃, s₂, hg₃, h₂, hlen₂⟩ :=
      h₁.getMut_spec (by rw [hlen₁]; exact his) fun _ => merge v₁ v₂
    obtain ⟨s', o', hm, hs', ho'⟩ := ih h₂ ho₁ fun j hj => by
      rw [hlen₂, hlen₁, hleno]; exact hi j (List.mem_cons_of_mem _ hj)
    exact ⟨s', o', by simp [mergeFrom, hg₁, hg₂, hg₃, hm], hs', ho'⟩

/-- Merging another map's values preserves the invariants of both. -/
lemma mergeWith_spec (h : s.Inv) (ho : other.Inv) (merge : T → T → T) :
    ∃ s' other', s.mergeWith other merge = some (s', other') ∧ s'.Inv ∧ other'.Inv := by
  refine mergeFrom_spec h ho fun i hi => ?_
  rw [List.take_range, List.mem_range] at hi
  omega

/-- The class iterator yields the elements below each root, with the root's value. -/
lemma collectClasses_spec (h : s.Inv) {elems : ℕ → List ℕ}
    (helems : ∀ r < s.parent.length, link s.parent r = r →
      s.size[r]? = some (elems r).length ∧
        SetIter.collect s.next (elems r).length r = some (elems r))
    {entries : List (Sigma fun _ : ℕ => T)} (he : ∀ e ∈ entries, e.1 ∈ s.map) :
    s.collectClasses entries = some (entries.map fun e => (elems e.1, e.2)) := by
  induction entries with
  | nil => rfl
  | cons e entries ih =>
    obtain ⟨hlt, hroot⟩ := (h.mem_map e.1).mp (he e List.mem_cons_self)
    obtain ⟨hsize, hcol⟩ := helems e.1 hlt hroot
    have ih' := ih fun e' he' => he e' (List.mem_cons_of_mem _ he')
    simp [collectClasses, hsize, hcol, ih']

end Inv

/-! ## What the invariant says to a user -/

/-- **The representation as its users see it**: the parent links form a forest, so that lookups
end; the keys are the roots; the recorded size of a root is the size of its class; the next
links permute the indices, with the classes as cycles; and the iterators yield each member of a
class, and each class with its value, exactly once. -/
structure Representation (s : DisjointSetsMap T) : Prop where
  forest : ∀ i < s.count, ∃ k, link s.parent ((link s.parent)^[k] i) = (link s.parent)^[k] i
  find_total : ∀ i < s.count, ∃ r s', s.uncheckedFind i = some (r, s') ∧ s.HasRoot i r
  keys : ∀ r, r ∈ s.map ↔ r < s.count ∧ link s.parent r = r
  size_eq : ∀ r ∈ s.map, ∃ members : Finset ℕ, s.size[r]? = some members.card ∧
    ∀ i, i ∈ members ↔ i < s.count ∧ s.SameClass i r
  next_perm : Set.BijOn (link s.next) (Set.Iio s.count) (Set.Iio s.count)
  next_cycle : ∀ i < s.count, ∀ j < s.count,
    (∃ k, (link s.next)^[k] i = j) ↔ s.SameClass i j
  set_spec : ∀ i < s.count, ∃ l s', s.set i = some (l, s') ∧ l.Nodup ∧
    ∀ j, j ∈ l ↔ j < s.count ∧ s.SameClass i j
  iter_spec : ∃ classes, s.iter = some classes ∧
    (∀ c ∈ classes, ∃ i < s.count, i ∈ c.1) ∧
    ∀ i < s.count, ∃ l v r, classes.filter (fun c => decide (i ∈ c.1)) = [(l, v)] ∧
      l.Nodup ∧ (∀ j, j ∈ l ↔ j < s.count ∧ s.SameClass i j) ∧
      s.HasRoot i r ∧ s.map.lookup r = some v

namespace Inv

variable {s : DisjointSetsMap T}

/-- In the class of a root are the indices with that root. -/
lemma sameClass_iff {i j r : ℕ} (hr : s.HasRoot i r) : s.SameClass i j ↔ s.HasRoot j r :=
  ⟨fun ⟨_, hi, hj⟩ => hr.unique hi ▸ hj, fun hj => ⟨r, hr, hj⟩⟩

/-- The next links permute the indices.

**Proof sketch.** Each index lies on the cycle of its root; its next link stays on the cycle,
and every element of a cycle has a predecessor there. A map of a finite set onto itself is a
bijection. -/
lemma next_bijOn (h : s.Inv) :
    Set.BijOn (link s.next) (Set.Iio s.parent.length) (Set.Iio s.parent.length) := by
  have hmaps : Set.MapsTo (link s.next) (Set.Iio s.parent.length)
      (Set.Iio s.parent.length) := by
    intro i hi
    obtain ⟨r, hr, hrlt, hrr⟩ := h.exists_root hi
    obtain ⟨l, htr, -, -, hmem⟩ := h.cycle r hrlt hrr
    rcases htr.next_mem ((hmem i).mpr ⟨hi, hr⟩) with hn | hn
    · exact ((hmem _).mp hn).1
    · exact hn ▸ hrlt
  have hsurj : Set.SurjOn (link s.next) (Set.Iio s.parent.length)
      (Set.Iio s.parent.length) := by
    intro i hi
    obtain ⟨r, hr, hrlt, hrr⟩ := h.exists_root hi
    obtain ⟨l, htr, -, -, hmem⟩ := h.cycle r hrlt hrr
    obtain ⟨j, hj, hji⟩ := Trail.exists_prev htr ((hmem i).mpr ⟨hi, hr⟩)
    exact ⟨j, ((hmem j).mp hj).1, hji⟩
  exact ⟨hmaps, ((Set.finite_Iio _).surjOn_iff_bijOn_of_mapsTo hmaps |>.mp hsurj).2.1, hsurj⟩

/-- The cycles of the next links are the classes. -/
lemma next_cycle (h : s.Inv) {i j : ℕ} (hi : i < s.parent.length) (hj : j < s.parent.length) :
    (∃ k, (link s.next)^[k] i = j) ↔ s.SameClass i j := by
  obtain ⟨r, hr, hrlt, hrr⟩ := h.exists_root hi
  obtain ⟨l, htr, -, -, hmem⟩ := h.cycle r hrlt hrr
  have him : i ∈ r :: l := (hmem i).mpr ⟨hi, hr⟩
  rw [sameClass_iff hr]
  constructor
  · rintro ⟨k, rfl⟩
    exact ((hmem _).mp (htr.iterate_mem List.mem_cons_self him k)).2
  · intro hjr
    exact htr.exists_iterate_of_mem him ((hmem j).mpr ⟨hj, hjr⟩)

/-- **The invariant implies the representation.** -/
theorem representation (h : s.Inv) : s.Representation where
  forest i hi := by
    obtain ⟨r, hr, -, hrr⟩ := h.exists_root hi
    obtain ⟨k, hk⟩ := RootOf.exists_iterate hr
    exact ⟨k, by rw [hk, hrr]⟩
  find_total i hi := by
    obtain ⟨r, p, hf, hr, -⟩ := h.uncheckedFind_spec hi
    exact ⟨r, _, hf, hr⟩
  keys := h.mem_map
  size_eq r hr := by
    obtain ⟨hlt, hrr⟩ := (h.mem_map r).mp hr
    obtain ⟨l, hsize, -, hnd, hmem⟩ := h.collect_spec hlt hrr
    refine ⟨l.toFinset, by rw [hsize, List.toFinset_card_of_nodup hnd], fun i => ?_⟩
    rw [List.mem_toFinset, hmem]
    refine and_congr_right fun _ => ⟨fun hi => ⟨r, hi, .root hrr⟩, fun ⟨r', hi, hr'⟩ => ?_⟩
    obtain rfl := hr'.eq_of_isRoot hrr
    exact hi
  next_perm := h.next_bijOn
  next_cycle i hi j hj := h.next_cycle hi hj
  set_spec i hi := by
    obtain ⟨l, s', hset, -, -, hnd, hmem⟩ := h.set_spec hi
    exact ⟨l, s', hset, hnd, hmem⟩
  iter_spec := by
    choose! elems hsize hcol hnd hmem using fun r hr hrr => h.collect_spec (r := r) hr hrr
    have hkey : ∀ e ∈ s.map.entries, e.1 ∈ s.map := fun e he =>
      AList.mem_keys.mpr (List.mem_keys_of_mem he)
    refine ⟨_, h.collectClasses_spec
      (fun r hr hrr => ⟨hsize r hr hrr, hcol r hr hrr⟩) hkey, fun c hc => ?_, fun i hi => ?_⟩
    · obtain ⟨e, he, rfl⟩ := List.mem_map.mp hc
      obtain ⟨hlt, hrr⟩ := (h.mem_map e.1).mp (hkey e he)
      exact ⟨e.1, hlt, (hmem e.1 hlt hrr e.1).mpr ⟨hlt, .root hrr⟩⟩
    · obtain ⟨r, hr, hrlt, hrr⟩ := h.exists_root hi
      obtain ⟨v, hv⟩ := h.lookup_root hrlt hrr
      refine ⟨elems r, v, r, ?_, hnd r hrlt hrr, fun j => ?_, hr, hv⟩
      · -- the entries whose class mentions `i` are those with key `r`
        have hfil : s.map.entries.filter (fun e => decide (i ∈ elems e.1)) =
            s.map.entries.filter fun e => decide (e.1 = r) := by
          refine List.filter_congr fun e he => decide_eq_decide.mpr ?_
          obtain ⟨hlt, hroot⟩ := (h.mem_map e.1).mp (hkey e he)
          rw [hmem e.1 hlt hroot]
          exact ⟨fun hie => hie.2.unique hr, fun her => her ▸ ⟨hi, hr⟩⟩
        rw [List.filter_map]
        change (s.map.entries.filter fun e => decide (i ∈ elems e.1)).map _ = _
        rw [hfil, filter_key s.map.nodupKeys (AList.mem_lookup_iff.mp hv)]
        rfl
      · rw [hmem r hrlt hrr, sameClass_iff hr]
        rfl

end Inv

/-! ## Runs -/

/-- The operations of a map with their arguments. -/
inductive Op (T : Type)
  | push (elem : T)
  | union (idx1 idx2 : ℕ) (merge : T → T → T)
  | multiUnion (indices : List ℕ) (merge : T → T → T)
  | update (idx : ℕ) (elem : T)
  | get (idx : ℕ)
  | getMut (idx : ℕ) (f : T → T)
  | set (idx : ℕ)
  | sameSet (idx1 idx2 : ℕ)

namespace Op

/-- The indices that an operation is given. -/
def indices : Op T → List ℕ
  | push _ => []
  | union idx1 idx2 _ => [idx1, idx2]
  | multiUnion indices _ => indices
  | update idx _ => [idx]
  | get idx => [idx]
  | getMut idx _ => [idx]
  | set idx => [idx]
  | sameSet idx1 idx2 => [idx1, idx2]

/-- The map that an operation leaves behind. -/
def run (s : DisjointSetsMap T) : Op T → Option (DisjointSetsMap T)
  | push elem => some (s.push elem).2
  | union idx1 idx2 merge => s.union idx1 idx2 merge
  | multiUnion indices merge => s.multiUnion indices merge
  | update idx elem => (s.update idx elem).map Prod.snd
  | get idx => (s.get idx).map Prod.snd
  | getMut idx f => (s.getMut idx f).map Prod.snd
  | set idx => (s.set idx).map Prod.snd
  | sameSet idx1 idx2 => (s.sameSet idx1 idx2).map Prod.snd

/-- **An operation on indices within bounds** does not panic and preserves the invariant. -/
lemma run_spec {s : DisjointSetsMap T} (h : s.Inv) (op : Op T)
    (hop : ∀ i ∈ op.indices, i < s.parent.length) : ∃ s', op.run s = some s' ∧ s'.Inv := by
  cases op with
  | push elem => exact ⟨_, rfl, h.push elem⟩
  | union i j merge =>
    obtain ⟨s', hu, hs', -⟩ := h.union_spec (hop i (by simp [indices])) (hop j (by simp [indices]))
      merge
    exact ⟨s', hu, hs'⟩
  | multiUnion is merge =>
    cases is with
    | nil => exact ⟨s, rfl, h⟩
    | cons i is =>
      obtain ⟨s', hu, hs', -⟩ := h.unionAll_spec (hop i List.mem_cons_self)
        (fun j hj => hop j (List.mem_cons_of_mem _ hj)) merge
      exact ⟨s', hu, hs'⟩
  | update i elem =>
    obtain ⟨v, s', hu, hs', -⟩ := h.update_spec (hop i (by simp [indices])) elem
    exact ⟨s', by simp [run, hu], hs'⟩
  | get i =>
    obtain ⟨v, s', hg, hs', -⟩ := h.get_spec (hop i (by simp [indices]))
    exact ⟨s', by simp [run, hg], hs'⟩
  | getMut i f =>
    obtain ⟨v, s', hg, hs', -⟩ := h.getMut_spec (hop i (by simp [indices])) f
    exact ⟨s', by simp [run, hg], hs'⟩
  | set i =>
    obtain ⟨l, s', hg, hs', -⟩ := h.set_spec (hop i (by simp [indices]))
    exact ⟨s', by simp [run, hg], hs'⟩
  | sameSet i j =>
    obtain ⟨r₁, r₂, p₁, p, hf₁, hf₂, -, -, -, -, -, -, hc⟩ :=
      h.uncheckedFind_spec_two (hop i (by simp [indices])) (hop j (by simp [indices]))
    exact ⟨_, by simp only [run, DisjointSetsMap.sameSet, hf₁, hf₂, Option.bind_eq_bind,
      Option.bind_some, Option.map_some], (h.compress hc).1⟩

end Op

/-- The maps that can be built, by operations on indices within bounds. A merge changes the
paths of the other map too. -/
inductive Reachable : DisjointSetsMap T → Prop
  | new : Reachable new
  | fromIter (elems : List T) : Reachable (fromIter elems)
  | op {s s' : DisjointSetsMap T} (op : Op T) : Reachable s →
      (∀ i ∈ op.indices, i < s.count) → op.run s = some s' → Reachable s'
  | mergeWith {s other s' other' : DisjointSetsMap T} (merge : T → T → T) : Reachable s →
      Reachable other → s.mergeWith other merge = some (s', other') → Reachable s'
  | mergedWith {s other s' other' : DisjointSetsMap T} (merge : T → T → T) : Reachable s →
      Reachable other → s.mergeWith other merge = some (s', other') → Reachable other'

/-- **The invariant holds of every map that can be built.** -/
theorem Reachable.inv {s : DisjointSetsMap T} (h : Reachable s) : s.Inv := by
  induction h with
  | new => exact Inv.new
  | fromIter elems => exact Inv.fromIter elems
  | op op _ hop hrun ih =>
    obtain ⟨s', hrun', hs'⟩ := op.run_spec ih hop
    rwa [Option.some.inj (hrun.symm.trans hrun')]
  | mergeWith merge _ _ hm ih iho =>
    obtain ⟨s', o', hm', hs', -⟩ := ih.mergeWith_spec iho merge
    rwa [(Prod.mk.inj (Option.some.inj (hm.symm.trans hm'))).1]
  | mergedWith merge _ _ hm ih iho =>
    obtain ⟨s', o', hm', -, ho'⟩ := ih.mergeWith_spec iho merge
    rwa [(Prod.mk.inj (Option.some.inj (hm.symm.trans hm'))).2]

/-- **The disjoint-set map keeps its representation invariant**: every map built by any
sequence of operations represents a partition, and no further operation on indices within
bounds panics.

**Proof sketch.** Each operation keeps the invariant and succeeds on indices within bounds
(`Op.run_spec`, `mergeWith_spec`), so every map that is built has it, and the invariant gives the
representation. -/
theorem reachable_representation (s : DisjointSetsMap T) (h : Reachable s) :
    s.Representation ∧ (∀ op : Op T, (∀ i ∈ op.indices, i < s.count) → (op.run s).isSome) ∧
      ∀ (other : DisjointSetsMap T) (merge : T → T → T), Reachable other →
        (s.mergeWith other merge).isSome := by
  refine ⟨h.inv.representation, fun op hop => ?_, fun other merge ho => ?_⟩
  · obtain ⟨s', hrun, -⟩ := op.run_spec h.inv hop
    simp [hrun]
  · obtain ⟨s', o', hm, -⟩ := h.inv.mergeWith_spec ho.inv merge
    simp [hm]

/-- The union of two of three elements. -/
theorem reachable_representation_union :
    ∃ s : DisjointSetsMap ℕ, (fromIter [1, 2, 3]).union 0 2 (· + ·) = some s ∧
      s.Representation :=
  ⟨_, rfl, (reachable_representation _
    (.op (.union 0 2 (· + ·)) (.fromIter [1, 2, 3]) (by decide) rfl)).1⟩

end DisjointSetsMap

end LiquidRust.Common
