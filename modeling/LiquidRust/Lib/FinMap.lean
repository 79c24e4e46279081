import Mathlib.Data.List.AList

set_option relaxedAutoImplicit false
set_option autoImplicit false

/-!
# Finite maps

Two operations of hash maps on association lists: the values are changed while some entries are
dropped, and a map is folded over its keys.

## Main definitions

* `LiquidRust.Lib.retain` — the entries that a function keeps, with new values.

## Main results

* `LiquidRust.Lib.lookup_retain` — the value of a key.
-/

namespace LiquidRust.Lib

variable {K V : Type} [DecidableEq K]

/-- The entries with new values. -/
def retainEntries (f : K → V → Option V) : List (Sigma fun _ : K => V) → List (Sigma fun _ : K => V)
  | [] => []
  | ⟨k, v⟩ :: entries =>
    match f k v with
    | some v' => ⟨k, v'⟩ :: retainEntries f entries
    | none => retainEntries f entries

omit [DecidableEq K] in
/-- The entries that are kept are in the order that they were in. -/
lemma keys_retainEntries_sublist (f : K → V → Option V) (entries : List (Sigma fun _ : K => V)) :
    (retainEntries f entries).keys.Sublist entries.keys := by
  induction entries with
  | nil => exact .slnil
  | cons e entries ih =>
    obtain ⟨k, v⟩ := e
    cases h : f k v with
    | some v' =>
      simp only [retainEntries, h, List.keys_cons]
      exact ih.cons_cons k
    | none =>
      simp only [retainEntries, h, List.keys_cons]
      exact ih.cons k

/-- The entries of a map that `f` keeps, with the values that `f` gives them. -/
def retain (f : K → V → Option V) (m : AList fun _ : K => V) : AList fun _ : K => V :=
  ⟨retainEntries f m.entries, (keys_retainEntries_sublist f m.entries).nodup m.nodupKeys⟩

/-- **The value of a key** is what `f` makes of its old value. -/
theorem lookup_retain (f : K → V → Option V) (m : AList fun _ : K => V) (k : K) :
    (retain f m).lookup k = (m.lookup k).bind (f k) := by
  obtain ⟨entries, hnodup⟩ := m
  simp only [AList.lookup, retain]
  induction entries with
  | nil => rfl
  | cons e entries ih =>
    obtain ⟨k', v⟩ := e
    obtain ⟨hk', htl⟩ := List.nodupKeys_cons.mp hnodup
    have hnone : k = k' → (entries.dlookup k) = none := by
      rintro rfl
      exact List.dlookup_eq_none.mpr hk'
    by_cases hk : k = k'
    · subst hk
      rw [List.dlookup_cons_eq]
      cases h : f k v with
      | some v' => simp [retainEntries, h]
      | none =>
        simp only [retainEntries, h, ih htl, hnone rfl, Option.bind_none, Option.bind_some]
    · rw [List.dlookup_cons_ne _ _ hk]
      cases h : f k' v with
      | some v' =>
        simp only [retainEntries, h]
        rw [List.dlookup_cons_ne _ _ hk, ih htl]
      | none => simp only [retainEntries, h, ih htl]

omit [DecidableEq K] in
/-- A function that keeps every entry leaves the map. -/
lemma retain_eq_self {f : K → V → Option V} {m : AList fun _ : K => V}
    (h : ∀ e ∈ m.entries, f e.1 e.2 = some e.2) : retain f m = m := by
  obtain ⟨entries, hnodup⟩ := m
  apply AList.ext
  change ∀ e ∈ entries, f e.1 e.2 = some e.2 at h
  change retainEntries f entries = entries
  clear hnodup
  induction entries with
  | nil => rfl
  | cons e entries ih =>
    rw [retainEntries, h e (.head _)]
    exact congrArg _ (ih fun e' he' => h e' (.tail _ he'))

end LiquidRust.Lib
