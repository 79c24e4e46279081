import Mathlib.Data.Finset.Card
import Mathlib.Data.List.NodupEquivFin
import LiquidRust.Common.DisjointSets
import LiquidRust.Lib.ParentForest

set_option relaxedAutoImplicit false
set_option autoImplicit false

/-!
# The representation invariant of the disjoint-set map

The four tables of a disjoint-set map describe one partition. This file states the invariant
that ties them together and proves that lookups and unions preserve it.

## Main definitions

* `LiquidRust.Common.link` — a table of links as a function.
* `LiquidRust.Common.DisjointSetsMap.Inv` — the invariant.
* `LiquidRust.Common.Compresses` — what path compression may do to the parent links.

## Main results

* `LiquidRust.Common.DisjointSetsMap.Inv.uncheckedFind_spec` — a lookup ends in the root of its
  argument and only compresses paths.
* `LiquidRust.Common.DisjointSetsMap.Inv.linkRoots` — linking one root below another preserves
  the invariant.
* `LiquidRust.Common.DisjointSetsMap.Inv.union_spec` — so does a union.
-/

namespace LiquidRust.Common

open Lib

/-! ## Tables as functions -/

/-- Entry `i` of a table of links, with `i` itself out of bounds. -/
def link (l : List ℕ) (i : ℕ) : ℕ :=
  l[i]?.getD i

/-- Within bounds the link is the entry. -/
lemma getElem?_eq_link {l : List ℕ} {i : ℕ} (h : i < l.length) : l[i]? = some (link l i) := by
  simp [link, List.getElem?_eq_getElem h]

/-- Out of bounds an element is its own link. -/
lemma link_of_le {l : List ℕ} {i : ℕ} (h : l.length ≤ i) : link l i = i := by
  simp [link, List.getElem?_eq_none h]

/-- Writing an entry updates the function. -/
lemma link_set {l : List ℕ} {i : ℕ} (h : i < l.length) (a : ℕ) :
    link (l.set i a) = Function.update (link l) i a := by
  funext j
  by_cases hj : j = i
  · subst hj; simp [link, h]
  · rw [Function.update_of_ne hj]
    simp [link, List.getElem?_set_ne (Ne.symm hj)]

/-- Appending a self link does not change the function. -/
lemma link_append_self (l : List ℕ) : link (l ++ [l.length]) = link l := by
  funext j
  rcases Nat.lt_trichotomy j l.length with h | rfl | h
  · simp [link, List.getElem?_append_left h]
  · simp [link]
  · rw [link_of_le (by simp; omega), link_of_le h.le]

/-- In the identity table every element is its own link. -/
lemma link_range (n : ℕ) : link (List.range n) = id := by
  funext j
  by_cases h : j < n
  · simp [link, h]
  · rw [link_of_le (by simpa using h)]; rfl

/-- Exchanging two entries exchanges two links. -/
lemma swap_eq {l : List ℕ} {i j : ℕ} (hi : i < l.length) (hj : j < l.length) :
    ∃ l', DisjointSetsMap.swap l i j = some l' ∧ l'.length = l.length ∧
      link l' = Function.update (Function.update (link l) i (link l j)) j (link l i) := by
  refine ⟨(l.set i (link l j)).set j (link l i), ?_, by simp, ?_⟩
  · simp [DisjointSetsMap.swap, getElem?_eq_link hi, getElem?_eq_link hj]
  · rw [link_set (by simpa using hj), link_set hi]

/-! ## Path compression -/

/-- The links `p'` are the links `p` after some elements have been pointed at their roots. -/
structure Compresses (p p' : List ℕ) : Prop where
  length_eq : p'.length = p.length
  root : ∀ {j r : ℕ}, RootOf (link p) j r → RootOf (link p') j r
  isRoot_iff : ∀ j, link p' j = j ↔ link p j = j
  link_lt : (∀ i < p.length, link p i < p.length) → ∀ i < p'.length, link p' i < p'.length
  rank_lt : ∀ rank : ℕ → ℕ, (∀ i, link p i ≠ i → rank (link p i) < rank i) →
    ∀ i, link p' i ≠ i → rank (link p' i) < rank i

namespace Compresses

variable {p p' p'' : List ℕ}

/-- Nothing may change. -/
lemma refl (p : List ℕ) : Compresses p p :=
  ⟨rfl, id, fun _ => Iff.rfl, id, fun _ => id⟩

/-- Compressions compose. -/
lemma trans (h : Compresses p p') (h' : Compresses p' p'') : Compresses p p'' :=
  ⟨h'.length_eq.trans h.length_eq, fun hr => h'.root (h.root hr),
    fun j => (h'.isRoot_iff j).trans (h.isRoot_iff j), fun hp => h'.link_lt (h.link_lt hp),
    fun rank hp => h'.rank_lt rank (h.rank_lt rank hp)⟩

/-- Pointing an element that is not a root at its root is a compression. -/
lemma set {i r : ℕ} (hi : i < p.length) (hr : r < p.length) (hne : link p i ≠ i)
    (h : RootOf (link p) i r) : Compresses p (p.set i r) := by
  have hri : r ≠ i := fun hri => hne (hri ▸ h.isRoot)
  refine ⟨by simp, fun hj => ?_, fun j => ?_, fun hp j hj => ?_, fun rank hp j hj => ?_⟩
  · rw [link_set hi]; exact h.compress hj
  · rw [link_set hi]
    by_cases hj : j = i
    · subst hj; simp [hri, hne]
    · rw [Function.update_of_ne hj]
  · rw [link_set hi, List.length_set]
    rw [List.length_set] at hj
    by_cases hji : j = i
    · subst hji; simpa using hr
    · rw [Function.update_of_ne hji]; exact hp j hj
  · rw [link_set hi] at hj ⊢
    by_cases hji : j = i
    · subst hji
      rw [Function.update_self]
      exact (h.parent.rank_le hp).trans_lt (hp j hne)
    · rw [Function.update_of_ne hji] at hj ⊢; exact hp j hj

end Compresses

namespace DisjointSetsMap

variable {T : Type}

/-- **The recursion of a lookup**: with more fuel than the rank of `i`, it ends in the root of
`i` and has only compressed paths.

**Proof sketch.** Induction on the fuel. A root is returned as it is. Otherwise the parent has a
smaller rank, so the recursive call ends in the root of the parent, which is the root of `i`
also after the compressions, and writing it as the link of `i` is one more compression. -/
lemma findFrom_spec {rank : ℕ → ℕ} :
    ∀ (fuel : ℕ) {p : List ℕ} {i : ℕ}, (∀ i < p.length, link p i < p.length) →
      (∀ i, link p i ≠ i → rank (link p i) < rank i) → i < p.length → rank i < fuel →
      ∃ r p', findFrom fuel p i = some (r, p') ∧ RootOf (link p) i r ∧ r < p.length ∧
        Compresses p p'
  | 0, _, _, _, _, _, h => absurd h (Nat.not_lt_zero _)
  | fuel + 1, p, i, hp, hrank, hi, hfuel => by
    by_cases hroot : link p i = i
    · refine ⟨i, p, ?_, .root hroot, hi, .refl p⟩
      simp [findFrom, getElem?_eq_link hi, hroot]
    · have hlt := hrank i hroot
      obtain ⟨r, p', hfind, hr, hrlt, hc⟩ :=
        findFrom_spec fuel hp hrank (hp i hi) (by omega)
      have hi' : i < p'.length := by rw [hc.length_eq]; exact hi
      have hr' : RootOf (link p') i r := hc.root (.of_parent hr)
      refine ⟨r, p'.set i r, ?_, .of_parent hr, hrlt, hc.trans ?_⟩
      · simp [findFrom, getElem?_eq_link hi, hroot, hfind]
      · exact .set hi' (by rw [hc.length_eq]; exact hrlt)
          (fun h => hroot ((hc.isRoot_iff i).mp h)) hr'

/-! ## The invariant -/

/-- The size recorded for `r`. -/
def sizeAt (s : DisjointSetsMap T) (r : ℕ) : ℕ :=
  s.size[r]?.getD 0

/-- The chain of parent links from `i` ends in `r`. -/
def HasRoot (s : DisjointSetsMap T) (i r : ℕ) : Prop :=
  RootOf (link s.parent) i r

/-- Two indices are in the same class of the partition that the parent links describe. -/
def SameClass (s : DisjointSetsMap T) (i j : ℕ) : Prop :=
  ∃ r, s.HasRoot i r ∧ s.HasRoot j r

/-- **The representation invariant**: the parent links stay in bounds and form a forest, whose
depth at each element is below the size of the element's class; the values are at the roots;
and the next links from each root run once through the root's class, whose size is recorded. -/
structure Inv (s : DisjointSetsMap T) : Prop where
  size_length : s.size.length = s.parent.length
  next_length : s.next.length = s.parent.length
  parent_lt : ∀ i < s.parent.length, link s.parent i < s.parent.length
  rank : ∃ rank : ℕ → ℕ, (∀ i, link s.parent i ≠ i → rank (link s.parent i) < rank i) ∧
    ∀ i r, i < s.parent.length → s.HasRoot i r → rank i < s.sizeAt r
  mem_map : ∀ i, i ∈ s.map ↔ i < s.parent.length ∧ link s.parent i = i
  cycle : ∀ r < s.parent.length, link s.parent r = r →
    ∃ l, Trail (link s.next) r (r :: l) r ∧ (r :: l).Nodup ∧ (r :: l).length = s.sizeAt r ∧
      ∀ i, i ∈ r :: l ↔ i < s.parent.length ∧ s.HasRoot i r

namespace Inv

variable {s : DisjointSetsMap T}

/-- Every index has a root, within bounds. -/
lemma exists_root (h : s.Inv) {i : ℕ} (hi : i < s.parent.length) :
    ∃ r, s.HasRoot i r ∧ r < s.parent.length ∧ link s.parent r = r := by
  obtain ⟨rank, hrank, -⟩ := h.rank
  obtain ⟨r, hr⟩ := RootOf.exists_of_rank hrank i
  refine ⟨r, hr, ?_, hr.isRoot⟩
  have hlt : ∀ {j : ℕ}, RootOf (link s.parent) j r → j < s.parent.length →
      r < s.parent.length := by
    intro j hj
    induction hj with
    | root _ => exact id
    | step _ _ ih => exact fun hjl => ih (by assumption) (h.parent_lt _ hjl)
  exact hlt hr hi

/-- The size recorded for a root is at most the number of indices. -/
lemma sizeAt_le (h : s.Inv) {r : ℕ} (hr : r < s.parent.length) (hroot : link s.parent r = r) :
    s.sizeAt r ≤ s.parent.length := by
  obtain ⟨l, -, hnd, hlen, hmem⟩ := h.cycle r hr hroot
  rw [← hlen, ← List.toFinset_card_of_nodup hnd]
  calc (r :: l).toFinset.card ≤ (Finset.range s.parent.length).card :=
        Finset.card_le_card fun i hi => by
          rw [List.mem_toFinset] at hi
          exact Finset.mem_range.mpr ((hmem i).mp hi).1
    _ = s.parent.length := Finset.card_range _

/-- Path compression preserves the invariant and changes no root. -/
lemma compress (h : s.Inv) {p : List ℕ} (hc : Compresses s.parent p) :
    Inv { s with parent := p } ∧
      ∀ i r, ({ s with parent := p } : DisjointSetsMap T).HasRoot i r ↔ s.HasRoot i r := by
  obtain ⟨rank, hrank, hsize⟩ := h.rank
  have hroot : ∀ i r, RootOf (link p) i r ↔ RootOf (link s.parent) i r := by
    refine fun i r => ⟨fun hr => ?_, hc.root⟩
    obtain ⟨r', hr'⟩ := RootOf.exists_of_rank hrank i
    rwa [hr.unique (hc.root hr')]
  refine ⟨⟨?_, ?_, hc.link_lt h.parent_lt, ⟨rank, hc.rank_lt rank hrank, ?_⟩, ?_, ?_⟩, hroot⟩
  · rw [h.size_length, hc.length_eq]
  · rw [h.next_length, hc.length_eq]
  · intro i r hi hr
    exact hsize i r (hc.length_eq ▸ hi) ((hroot i r).mp hr)
  · intro i
    rw [h.mem_map, hc.length_eq, hc.isRoot_iff]
  · intro r hr hrr
    obtain ⟨l, htr, hnd, hlen, hmem⟩ :=
      h.cycle r (hc.length_eq ▸ hr) ((hc.isRoot_iff r).mp hrr)
    refine ⟨l, htr, hnd, hlen, fun i => ?_⟩
    rw [hmem, HasRoot, HasRoot, hroot, hc.length_eq]

/-- **A lookup** ends in the root of its argument and only compresses paths. -/
lemma uncheckedFind_spec (h : s.Inv) {i : ℕ} (hi : i < s.parent.length) :
    ∃ r p, s.uncheckedFind i = some (r, { s with parent := p }) ∧ s.HasRoot i r ∧
      r < s.parent.length ∧ link s.parent r = r ∧ Compresses s.parent p := by
  obtain ⟨rank, hrank, hsize⟩ := h.rank
  obtain ⟨r, hr, hrlt, hrr⟩ := h.exists_root hi
  have hfuel : rank i < s.parent.length :=
    (hsize i r hi hr).trans_le (h.sizeAt_le hrlt hrr)
  obtain ⟨r', p, hfind, hr', -, hc⟩ :=
    findFrom_spec s.parent.length h.parent_lt hrank hi hfuel
  obtain rfl := hr.unique hr'
  exact ⟨r, p, by simp [DisjointSetsMap.uncheckedFind, hfind], hr, hrlt, hrr, hc⟩

/-- A checked lookup of an index within bounds does the same. -/
lemma find_spec (h : s.Inv) {i : ℕ} (hi : i < s.parent.length) :
    ∃ r p, s.find i = some (some r, { s with parent := p }) ∧ s.HasRoot i r ∧
      r < s.parent.length ∧ link s.parent r = r ∧ Compresses s.parent p := by
  obtain ⟨r, p, hfind, hr, hrest⟩ := h.uncheckedFind_spec (h.parent_lt i hi)
  refine ⟨r, p, ?_, .of_parent hr, hrest⟩
  simp [DisjointSetsMap.find, getElem?_eq_link hi, hfind]

/-- The value of a class is stored at its root. -/
lemma lookup_root (h : s.Inv) {r : ℕ} (hr : r < s.parent.length) (hrr : link s.parent r = r) :
    ∃ v, s.map.lookup r = some v :=
  Option.isSome_iff_exists.mp (AList.lookup_isSome.mpr ((h.mem_map r).mpr ⟨hr, hrr⟩))

/-- Changing values without changing keys preserves the invariant. -/
lemma setMap (h : s.Inv) {m : AList fun _ : ℕ => T} (hm : ∀ i, i ∈ m ↔ i ∈ s.map) :
    Inv { s with map := m } :=
  ⟨h.size_length, h.next_length, h.parent_lt, h.rank, fun i => (hm i).trans (h.mem_map i),
    h.cycle⟩

/-- Overwriting the value at a root preserves the invariant. -/
lemma insert_root (h : s.Inv) {r : ℕ} (hr : r < s.parent.length) (hrr : link s.parent r = r)
    (v : T) : Inv { s with map := s.map.insert r v } :=
  h.setMap fun i => by
    rw [AList.mem_insert]
    exact or_iff_right_of_imp fun hi => hi ▸ (h.mem_map r).mpr ⟨hr, hrr⟩

/-! ## Linking two roots -/

section LinkRoots

variable {a b : ℕ} (h : s.Inv) (ha : a < s.parent.length) (hb : b < s.parent.length)
  (hra : link s.parent a = a) (hrb : link s.parent b = b) (hab : a ≠ b)

include h ha hra hrb hab in
/-- After linking root `a` below root `b`, the roots are the old ones with `b` in place of
`a`. -/
lemma rootOf_linkRoots (i r : ℕ) :
    RootOf (link (s.parent.set a b)) i r ↔ ∃ r', s.HasRoot i r' ∧ r = if r' = a then b else r' := by
  have hroot : ∀ r, s.HasRoot i r → RootOf (link (s.parent.set a b)) i (if r = a then b else r) :=
    fun r hr => by rw [link_set ha]; exact RootOf.link hra hrb hab hr
  obtain ⟨rank, hrank, -⟩ := h.rank
  constructor
  · intro hr
    obtain ⟨r', hr'⟩ := RootOf.exists_of_rank hrank i
    exact ⟨r', hr', hr.unique (hroot r' hr')⟩
  · rintro ⟨r', hr', rfl⟩
    exact hroot r' hr'

include h hb in
/-- The size of `b` is the sum of the sizes afterwards, and no other size changes. -/
lemma sizeAt_linkRoots (r : ℕ) :
    (s.size.set b (s.sizeAt b + s.sizeAt a))[r]?.getD 0 =
      if r = b then s.sizeAt b + s.sizeAt a else s.sizeAt r := by
  have hbs : b < s.size.length := by rw [h.size_length]; exact hb
  by_cases hr : r = b
  · subst hr; simp [hbs]
  · simp [sizeAt, List.getElem?_set_ne (Ne.symm hr), hr]

include h ha hb hra hrb hab in
/-- The depth in the linked forest is still below the class sizes: below `a` every rank grows
by the rank of `b` plus one, and the sizes are added. -/
lemma rank_linkRoots :
    ∃ rank : ℕ → ℕ, (∀ i, link (s.parent.set a b) i ≠ i →
        rank (link (s.parent.set a b) i) < rank i) ∧
      ∀ i r, i < s.parent.length → RootOf (link (s.parent.set a b)) i r →
        rank i < (s.size.set b (s.sizeAt b + s.sizeAt a))[r]?.getD 0 := by
  obtain ⟨rank, hrank, hsize⟩ := h.rank
  obtain ⟨d, hda, hdo⟩ : ∃ d : ℕ → ℕ, (∀ i, s.HasRoot i a → d i = rank b + 1) ∧
      ∀ i, ¬s.HasRoot i a → d i = 0 := by
    classical
    exact ⟨fun i => if s.HasRoot i a then rank b + 1 else 0, fun i hi => if_pos hi,
      fun i hi => if_neg hi⟩
  refine ⟨fun i => rank i + d i, fun i hi => ?_, fun i r hi hr => ?_⟩
  · rw [link_set ha] at hi ⊢
    by_cases hia : i = a
    · subst hia
      have hdb := hdo b fun hr => hab (RootOf.eq_of_isRoot hr hrb).symm
      have hdi := hda i (.root hra)
      simp only [Function.update_self]
      omega
    · rw [Function.update_of_ne hia] at hi ⊢
      have hd : d (link s.parent i) = d i := by
        by_cases hr : s.HasRoot i a
        · rw [hda i hr, hda _ (RootOf.parent hr)]
        · rw [hdo i hr, hdo _ fun h' => hr (.of_parent h')]
      have := hrank i hi
      simp only [hd]
      omega
  · obtain ⟨r', hr', rfl⟩ := (rootOf_linkRoots h ha hra hrb hab i r).mp hr
    have h1 := hsize i r' hi hr'
    rw [sizeAt_linkRoots h hb]
    by_cases hra' : r' = a
    · subst hra'
      have h2 := hsize b b hb (.root hrb)
      simp only [if_true, hda i hr']
      omega
    · simp only [if_neg hra', hdo i fun h' => hra' (hr'.unique h')]
      split_ifs with hrb'
      · subst hrb'; omega
      · omega

include h ha hb hra hrb hab in
/-- The cycle of the joined class is the splice of the two cycles. -/
lemma cycle_linkRoots {next : ℕ → ℕ} (hnext : next =
      Function.update (Function.update (link s.next) b (link s.next a)) a (link s.next b)) :
    ∃ l, Trail next b (b :: l) b ∧ (b :: l).Nodup ∧
      (b :: l).length = s.sizeAt b + s.sizeAt a ∧
      ∀ i, i ∈ b :: l ↔ i < s.parent.length ∧ (s.HasRoot i b ∨ s.HasRoot i a) := by
  obtain ⟨la, hta, hnda, hlena, hmema⟩ := h.cycle a ha hra
  obtain ⟨lb, htb, hndb, hlenb, hmemb⟩ := h.cycle b hb hrb
  have hdis : (b :: lb ++ a :: la).Nodup := by
    refine List.nodup_append.mpr ⟨hndb, hnda, fun x hx y hy hxy => hab ?_⟩
    subst hxy
    exact ((hmema x).mp hy).2.unique ((hmemb x).mp hx).2
  refine ⟨la ++ a :: lb, ?_, ?_, ?_, fun i => ?_⟩
  · rw [hnext]
    exact htb.splice hta hdis
  · have hperm : (b :: (la ++ a :: lb)).Perm (b :: lb ++ a :: la) := by
      refine .cons b ?_
      exact (List.perm_middle.trans (.cons a List.perm_append_comm)).trans
        List.perm_middle.symm
    exact hperm.nodup_iff.mpr hdis
  · simp only [List.length_cons, List.length_append] at hlena hlenb ⊢
    omega
  · have hsplit : i ∈ b :: (la ++ a :: lb) ↔ i ∈ b :: lb ∨ i ∈ a :: la := by
      simp only [List.mem_cons, List.mem_append]; tauto
    rw [hsplit, hmema, hmemb, ← and_or_left]

include h hra hrb in
/-- The cycle of a third class is as before. -/
lemma cycle_linkRoots_of_ne {r : ℕ} (hr : r < s.parent.length) (hrr : link s.parent r = r)
    (hra' : r ≠ a) (hrb' : r ≠ b) {next : ℕ → ℕ} (hnext : next =
      Function.update (Function.update (link s.next) b (link s.next a)) a (link s.next b)) :
    ∃ l, Trail next r (r :: l) r ∧ (r :: l).Nodup ∧ (r :: l).length = s.sizeAt r ∧
      ∀ i, i ∈ r :: l ↔ i < s.parent.length ∧ s.HasRoot i r := by
  obtain ⟨l, htr, hnd, hlen, hmem⟩ := h.cycle r hr hrr
  refine ⟨l, htr.congr fun c hc => ?_, hnd, hlen, hmem⟩
  have hc' := ((hmem c).mp hc).2
  have hca : c ≠ a := fun hca => hra' ((hc'.eq_of_isRoot (hca ▸ hra)).symm.trans hca)
  have hcb : c ≠ b := fun hcb => hrb' ((hc'.eq_of_isRoot (hcb ▸ hrb)).symm.trans hcb)
  rw [hnext, Function.update_of_ne hca, Function.update_of_ne hcb]

include h ha hb hra hrb hab in
/-- **Linking root `a` below root `b`** preserves the invariant, if the sizes are added, the
next links of the two roots are exchanged, and the key `a` is dropped. -/
lemma linkRoots {m : AList fun _ : ℕ => T} (hm : ∀ i, i ∈ m ↔ i = b ∨ i ≠ a ∧ i ∈ s.map)
    {next : List ℕ} (hlen : next.length = s.next.length) (hnext : link next =
      Function.update (Function.update (link s.next) b (link s.next a)) a (link s.next b)) :
    Inv { map := m, parent := s.parent.set a b,
          size := s.size.set b (s.sizeAt b + s.sizeAt a), next } := by
  have hroot := rootOf_linkRoots h ha hra hrb hab
  refine ⟨?_, ?_, ?_, ?_, ?_, ?_⟩
  · simp [h.size_length]
  · simp [hlen, h.next_length]
  · intro i hi
    simp only [List.length_set] at hi ⊢
    rw [link_set ha]
    by_cases hia : i = a
    · subst hia; simpa using hb
    · rw [Function.update_of_ne hia]; exact h.parent_lt i hi
  · simpa only [List.length_set, sizeAt, HasRoot] using rank_linkRoots h ha hb hra hrb hab
  · intro i
    simp only [hm, h.mem_map, link_set ha, List.length_set]
    by_cases hia : i = a
    · subst hia; simp [hab, hab.symm]
    · rw [Function.update_of_ne hia]
      constructor
      · rintro (rfl | ⟨-, hi⟩)
        · exact ⟨hb, hrb⟩
        · exact hi
      · exact fun hi => .inr ⟨hia, hi⟩
  · intro r hr hrr
    simp only [List.length_set, link_set ha] at hr hrr
    have hra' : r ≠ a := by
      rintro rfl
      exact hab (by simpa using hrr.symm)
    rw [Function.update_of_ne hra'] at hrr
    have hsize := sizeAt_linkRoots (a := a) h hb r
    by_cases hrb' : r = b
    · subst hrb'
      obtain ⟨l, htr, hnd, hll, hmem⟩ := cycle_linkRoots h ha hb hra hrb hab hnext
      have hclass : ∀ i, s.HasRoot i r ∨ s.HasRoot i a ↔
          RootOf (link (s.parent.set a r)) i r := fun i => by
        rw [hroot]
        constructor
        · rintro (hr' | hr')
          · exact ⟨r, hr', by simp [hab.symm]⟩
          · exact ⟨a, hr', by simp⟩
        · rintro ⟨r', hr', hrr'⟩
          by_cases hra'' : r' = a
          · exact .inr (hra'' ▸ hr')
          · rw [if_neg hra''] at hrr'; exact .inl (hrr' ▸ hr')
      refine ⟨l, htr, hnd, hll.trans (hsize.trans (if_pos rfl)).symm, fun i => ?_⟩
      rw [hmem, List.length_set]
      exact and_congr_right fun _ => hclass i
    · obtain ⟨l, htr, hnd, hll, hmem⟩ :=
        cycle_linkRoots_of_ne h hra hrb hr hrr hra' hrb' hnext
      have hclass : ∀ i, s.HasRoot i r ↔ RootOf (link (s.parent.set a b)) i r := fun i => by
        rw [hroot]
        refine ⟨fun hr' => ⟨r, hr', by simp [hra']⟩, ?_⟩
        rintro ⟨r', hr', hrr'⟩
        by_cases hra'' : r' = a
        · rw [if_pos hra''] at hrr'; exact absurd hrr' hrb'
        · rw [if_neg hra''] at hrr'; exact hrr' ▸ hr'
      refine ⟨l, htr, hnd, hll.trans (hsize.trans (if_neg hrb')).symm, fun i => ?_⟩
      rw [hmem, List.length_set]
      exact and_congr_right fun _ => hclass i

end LinkRoots

/-! ## Unions -/

/-- Two lookups in a row end in the roots of their arguments and only compress paths. -/
lemma uncheckedFind_spec_two (h : s.Inv) {i j : ℕ} (hi : i < s.parent.length)
    (hj : j < s.parent.length) :
    ∃ r₁ r₂ p₁ p₂, s.uncheckedFind i = some (r₁, { s with parent := p₁ }) ∧
      uncheckedFind { s with parent := p₁ } j = some (r₂, { s with parent := p₂ }) ∧
      s.HasRoot i r₁ ∧ s.HasRoot j r₂ ∧ r₁ < s.parent.length ∧ r₂ < s.parent.length ∧
      link s.parent r₁ = r₁ ∧ link s.parent r₂ = r₂ ∧ Compresses s.parent p₂ := by
  obtain ⟨r₁, p₁, hf₁, hr₁, hlt₁, hrr₁, hc₁⟩ := h.uncheckedFind_spec hi
  obtain ⟨h₁, hroot₁⟩ := h.compress hc₁
  obtain ⟨r₂, p₂, hf₂, hr₂, hlt₂, hrr₂, hc₂⟩ :=
    h₁.uncheckedFind_spec (i := j) (by simpa [hc₁.length_eq] using hj)
  refine ⟨r₁, r₂, p₁, p₂, hf₁, hf₂, hr₁, (hroot₁ j r₂).mp hr₂, hlt₁, ?_, hrr₁, ?_,
    hc₁.trans hc₂⟩
  · simpa [hc₁.length_eq] using hlt₂
  · exact (hc₁.isRoot_iff r₂).mp hrr₂

/-- What a union of the classes with roots `r₁` and `r₂` changes: nothing if these are the same,
and else one of them becomes the root of both classes, with the merge of their values. -/
inductive Unites (s s' : DisjointSetsMap T) (r₁ r₂ : ℕ) (merge : T → T → T) : Prop
  | same : r₁ = r₂ → (∀ k r, s'.HasRoot k r ↔ s.HasRoot k r) → s'.map = s.map →
      Unites s s' r₁ r₂ merge
  | joined {root : ℕ} {v₁ v₂ : T} : r₁ ≠ r₂ → root = r₁ ∨ root = r₂ →
      (∀ k r, s'.HasRoot k r ↔
        ∃ r', s.HasRoot k r' ∧ r = if r' = r₁ ∨ r' = r₂ then root else r') →
      s.map.lookup r₁ = some v₁ → s.map.lookup r₂ = some v₂ →
      s'.map.lookup root = some (merge v₁ v₂) →
      (∀ r, r ≠ r₁ → r ≠ r₂ → s'.map.lookup r = s.map.lookup r) → Unites s s' r₁ r₂ merge

/-- **A union** of two indices within bounds succeeds and preserves the invariant.

**Proof sketch.** The two lookups leave a compressed map, for which the invariant still holds.
If the roots agree that is the result; otherwise one root is linked below the other
(`linkRoots`), with the roles of the two given by the comparison of the sizes. -/
lemma union_unites (h : s.Inv) {i j : ℕ} (hi : i < s.parent.length) (hj : j < s.parent.length)
    (merge : T → T → T) :
    ∃ s' r₁ r₂, s.union i j merge = some s' ∧ s'.Inv ∧ s'.parent.length = s.parent.length ∧
      s.HasRoot i r₁ ∧ s.HasRoot j r₂ ∧ Unites s s' r₁ r₂ merge := by
  obtain ⟨r₁, r₂, p₁, p, hf₁, hf₂, hr₁, hr₂, hlt₁, hlt₂, hrr₁, hrr₂, hc⟩ :=
    h.uncheckedFind_spec_two hi hj
  obtain ⟨hinv, hroots⟩ := h.compress hc
  by_cases hne : r₁ = r₂
  · exact ⟨{ s with parent := p }, r₁, r₂, by simp [DisjointSetsMap.union, hf₁, hf₂, hne], hinv,
      hc.length_eq, hr₁, hr₂, .same hne hroots rfl⟩
  have hp₁ : r₁ < p.length := by rw [hc.length_eq]; exact hlt₁
  have hp₂ : r₂ < p.length := by rw [hc.length_eq]; exact hlt₂
  have hpr₁ : link p r₁ = r₁ := (hc.isRoot_iff r₁).mpr hrr₁
  have hpr₂ : link p r₂ = r₂ := (hc.isRoot_iff r₂).mpr hrr₂
  obtain ⟨next, hswap, hlen, hnext⟩ := swap_eq (l := s.next)
    (by rw [h.next_length]; exact hlt₁) (by rw [h.next_length]; exact hlt₂)
  have hsize₁ : s.size[r₁]? = some (s.sizeAt r₁) := by
    simp [sizeAt, List.getElem?_eq_getElem (h.size_length ▸ hlt₁ : r₁ < s.size.length)]
  have hsize₂ : s.size[r₂]? = some (s.sizeAt r₂) := by
    simp [sizeAt, List.getElem?_eq_getElem (h.size_length ▸ hlt₂ : r₂ < s.size.length)]
  obtain ⟨v₁, hv₁⟩ := h.lookup_root hlt₁ hrr₁
  obtain ⟨v₂, hv₂⟩ := h.lookup_root hlt₂ hrr₂
  have hv₂' : (s.map.erase r₁).lookup r₂ = some v₂ := by
    rw [AList.lookup_erase_ne (Ne.symm hne), hv₂]
  by_cases hle : s.sizeAt r₁ ≤ s.sizeAt r₂
  · refine ⟨{ map := ((s.map.erase r₁).erase r₂).insert r₂ (merge v₁ v₂), parent := p.set r₁ r₂,
              size := s.size.set r₂ (s.sizeAt r₂ + s.sizeAt r₁), next }, r₁, r₂, ?_, ?_, ?_,
            hr₁, hr₂, .joined hne (.inr rfl) (fun k r => ?_) hv₁ hv₂ (AList.lookup_insert _) ?_⟩
    · simp [DisjointSetsMap.union, hf₁, hf₂, hne, hswap, hsize₁, hsize₂, hv₁, hv₂', hle]
    · refine linkRoots hinv hp₁ hp₂ hpr₁ hpr₂ hne (fun k => ?_) hlen ?_
      · simp only [AList.mem_insert, AList.mem_erase]
        by_cases hk : k = r₂ <;> simp [hk]
      · rw [hnext, Function.update_comm hne]
    · simp [hc.length_eq]
    · refine (rootOf_linkRoots hinv hp₁ hpr₁ hpr₂ hne k r).trans (exists_congr fun r' => ?_)
      rw [hroots]
      by_cases h₁ : r' = r₁ <;> by_cases h₂ : r' = r₂ <;> simp [h₁, h₂]
    · intro r hr₁ hr₂
      rw [AList.lookup_insert_ne hr₂, AList.lookup_erase_ne hr₂, AList.lookup_erase_ne hr₁]
  · refine ⟨{ map := ((s.map.erase r₁).erase r₂).insert r₁ (merge v₁ v₂), parent := p.set r₂ r₁,
              size := s.size.set r₁ (s.sizeAt r₁ + s.sizeAt r₂), next }, r₁, r₂, ?_, ?_, ?_,
            hr₁, hr₂, .joined hne (.inl rfl) (fun k r => ?_) hv₁ hv₂ (AList.lookup_insert _) ?_⟩
    · simp [DisjointSetsMap.union, hf₁, hf₂, hne, hswap, hsize₁, hsize₂, hv₁, hv₂', hle]
    · refine linkRoots hinv hp₂ hp₁ hpr₂ hpr₁ (Ne.symm hne) (fun k => ?_) hlen hnext
      simp only [AList.mem_insert, AList.mem_erase]
      by_cases hk : k = r₁ <;> simp [hk]
    · simp [hc.length_eq]
    · refine (rootOf_linkRoots hinv hp₂ hpr₂ hpr₁ (Ne.symm hne) k r).trans
        (exists_congr fun r' => ?_)
      rw [hroots]
      by_cases h₁ : r' = r₁ <;> by_cases h₂ : r' = r₂ <;> simp [h₁, h₂]
    · intro r hr₁ hr₂
      rw [AList.lookup_insert_ne hr₁, AList.lookup_erase_ne hr₂, AList.lookup_erase_ne hr₁]

/-- A union keeps the number of indices. -/
lemma union_spec (h : s.Inv) {i j : ℕ} (hi : i < s.parent.length) (hj : j < s.parent.length)
    (merge : T → T → T) :
    ∃ s', s.union i j merge = some s' ∧ s'.Inv ∧ s'.parent.length = s.parent.length := by
  obtain ⟨s', _, _, hu, hs', hlen, -⟩ := h.union_unites hi hj merge
  exact ⟨s', hu, hs', hlen⟩

end Inv

end DisjointSetsMap

end LiquidRust.Common
