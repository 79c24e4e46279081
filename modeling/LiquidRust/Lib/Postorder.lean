import Mathlib.Logic.Relation
import Mathlib.Data.List.Basic
import Mathlib.Data.List.Nodup

set_option relaxedAutoImplicit false
set_option autoImplicit false

/-!
# Postorders of depth-first searches

A depth-first search visits the vertices on a list, each with everything that can be reached from
it through vertices that were not seen before. It lists a vertex after all that it visits from
there.

## Main definitions

* `LiquidRust.Lib.Visits` — a search that starts with some vertices seen.
* `LiquidRust.Lib.IsReversePostorder` — a list is the reverse of the order in which a search from
  a root lists the vertices.

## Main results

* `LiquidRust.Lib.IsReversePostorder.mem_iff` — the list has the vertices that can be reached.
* `LiquidRust.Lib.IsReversePostorder.exists_pred_before` — each but the root has a predecessor
  before it.
-/

namespace LiquidRust.Lib

open Relation (ReflTransGen)

variable {V : Type}

/-- `Visits edge seen work post` states that a search that has seen the vertices `seen` visits
those of `work` and lists them and what it finds from there as `post`. The edges of a vertex are
followed in any order. -/
inductive Visits (edge : V → V → Prop) : List V → List V → List V → Prop
  | nil (seen : List V) : Visits edge seen [] []
  | seen {seen work post : List V} {v : V} : v ∈ seen → Visits edge seen work post →
      Visits edge seen (v :: work) post
  | visit {seen work next post₁ post₂ : List V} {v : V} : v ∉ seen →
      (∀ w, w ∈ next ↔ edge v w) → Visits edge (v :: seen) next post₁ →
      Visits edge (post₁ ++ v :: seen) work post₂ →
      Visits edge seen (v :: work) (post₁ ++ v :: post₂)

namespace Visits

variable {edge : V → V → Prop} {seen work post : List V}

/-- All that was to be visited was seen before or is listed. -/
lemma work_subset (h : Visits edge seen work post) {v : V} (hv : v ∈ work) :
    v ∈ seen ∨ v ∈ post := by
  induction h with
  | nil seen => exact absurd hv (by simp)
  | seen hmem _ ih =>
    rcases List.mem_cons.mp hv with rfl | hv
    · exact .inl hmem
    · exact ih hv
  | visit hnew _ _ _ _ ih₂ =>
    rcases List.mem_cons.mp hv with rfl | hv
    · exact .inr (by simp)
    · have := ih₂ hv
      simp only [List.mem_append, List.mem_cons] at this ⊢
      tauto

/-- The edges of what is listed lead to what was seen before or is listed. -/
lemma closed (h : Visits edge seen work post) {v w : V} (hv : v ∈ post) (hw : edge v w) :
    w ∈ seen ∨ w ∈ post := by
  induction h with
  | nil seen => exact absurd hv (by simp)
  | seen _ _ ih => exact ih hv
  | @visit seen work next post₁ post₂ u hnew hnext h₁ h₂ ih₁ ih₂ =>
    have hcases : (v ∈ post₁ ∨ v = u) ∨ v ∈ post₂ := by
      simpa [or_assoc] using hv
    rcases hcases with hv | hv
    · have : w ∈ u :: seen ∨ w ∈ post₁ := by
        rcases hv with hv | rfl
        · exact ih₁ hv
        · exact h₁.work_subset ((hnext w).mpr hw)
      simp only [List.mem_append, List.mem_cons] at this ⊢
      tauto
    · have := ih₂ hv
      simp only [List.mem_append, List.mem_cons] at this ⊢
      tauto

/-- What is listed is to be visited, or there is an edge to it from what is listed later. -/
lemma exists_pred (h : Visits edge seen work post) {v : V} {before after : List V}
    (hpost : post = before ++ v :: after) : v ∈ work ∨ ∃ u ∈ after, edge u v := by
  induction h generalizing before after with
  | nil seen => exact absurd hpost (by simp)
  | seen _ _ ih => exact (ih hpost).imp_left (List.mem_cons_of_mem _)
  | @visit seen work next post₁ post₂ u hnew hnext h₁ h₂ ih₁ ih₂ =>
    rcases List.append_eq_append_iff.mp hpost with ⟨l, rfl, hl⟩ | ⟨l, rfl, hl⟩
    · -- `v` is `u` or among what is listed after it
      cases l with
      | nil =>
        obtain ⟨rfl, rfl⟩ := List.cons_eq_cons.mp hl
        exact .inl (.head _)
      | cons x l =>
        obtain ⟨rfl, htl⟩ := List.cons_eq_cons.mp hl
        exact (ih₂ htl).imp_left (List.mem_cons_of_mem _)
    · -- `v` is among what is listed before `u`, or it is `u`
      cases l with
      | nil =>
        obtain ⟨rfl, rfl⟩ := List.cons_eq_cons.mp hl
        exact .inl (.head _)
      | cons x l =>
        obtain ⟨rfl, rfl⟩ := List.cons_eq_cons.mp hl
        rcases ih₁ rfl with hv | ⟨w, hw, he⟩
        · exact .inr ⟨u, by simp, (hnext v).mp hv⟩
        · exact .inr ⟨w, by simp [hw], he⟩

/-- What is listed can be reached from what was to be visited. -/
lemma reachable (h : Visits edge seen work post) {v : V} (hv : v ∈ post) :
    ∃ r ∈ work, ReflTransGen edge r v := by
  induction h with
  | nil seen => exact absurd hv (by simp)
  | seen _ _ ih =>
    obtain ⟨r, hr, hrv⟩ := ih hv
    exact ⟨r, .tail _ hr, hrv⟩
  | @visit seen work next post₁ post₂ u hnew hnext _ _ ih₁ ih₂ =>
    rcases List.mem_append.mp hv with hv | hv
    · obtain ⟨r, hr, hrv⟩ := ih₁ hv
      exact ⟨u, .head _, .head ((hnext r).mp hr) hrv⟩
    · rcases List.mem_cons.mp hv with rfl | hv
      · exact ⟨v, .head _, .refl⟩
      · obtain ⟨r, hr, hrv⟩ := ih₂ hv
        exact ⟨r, .tail _ hr, hrv⟩

end Visits

/-- `l` is a reverse postorder of the vertices that can be reached from `root`. -/
def IsReversePostorder (edge : V → V → Prop) (root : V) (l : List V) : Prop :=
  ∃ post, Visits edge [] [root] post ∧ l = post.reverse

namespace IsReversePostorder

variable {edge : V → V → Prop} {root : V} {l : List V}

/-- **The vertices of the list** are those that can be reached. -/
theorem mem_iff (h : IsReversePostorder edge root l) {v : V} :
    v ∈ l ↔ ReflTransGen edge root v := by
  obtain ⟨post, hpost, rfl⟩ := h
  rw [List.mem_reverse]
  constructor
  · intro hv
    obtain ⟨r, hr, hrv⟩ := hpost.reachable hv
    rw [List.mem_singleton] at hr
    exact hr ▸ hrv
  · intro hv
    induction hv with
    | refl => exact (hpost.work_subset (.head _)).resolve_left (by simp)
    | tail _ he ih => exact (hpost.closed ih he).resolve_left (by simp)

/-- **Each vertex but the root has a predecessor before it.** -/
theorem exists_pred_before (h : IsReversePostorder edge root l) {v : V} {before after : List V}
    (hl : l = before ++ v :: after) : v = root ∨ ∃ u ∈ before, edge u v := by
  obtain ⟨post, hpost, rfl⟩ := h
  have hrev : post = after.reverse ++ v :: before.reverse := by
    have := congrArg List.reverse hl
    simpa using this
  rcases hpost.exists_pred hrev with hv | ⟨u, hu, he⟩
  · exact .inl (List.mem_singleton.mp hv)
  · exact .inr ⟨u, List.mem_reverse.mp hu, he⟩

end IsReversePostorder

end LiquidRust.Lib
