import LiquidRust.Typeck.CursorInv
import LiquidRust.Typeck.TypeEnv

set_option relaxedAutoImplicit false
set_option autoImplicit false

/-!
# Locations of environments

What is found at a location after a type has been inserted, and environments that bind all
locations strongly. Walks and writes of places look up no names of a signature, and writes keep
valid cursors valid.

## Main definitions

* `LiquidRust.Typeck.NoName`, `LiquidRust.Typeck.NoLookup` — no name of a signature is looked up.
* `LiquidRust.Typeck.TypeEnv.AllStrong` — all bindings are strong.

## Main results

* `LiquidRust.Typeck.TypeEnv.noLookup_writePlace` — the use of environments.
-/

namespace LiquidRust.Typeck

open Lib Cursor
open Core.Ir (Place PlaceElem)

variable {α : Type}

/-- Lifting a result meets what it has. -/
@[simp] lemma wp_ofExcept {x : Except Failure α} {Q : α → Cursor → Prop} {E : Failure → Prop}
    {c : Cursor} : wp (ofExcept x) Q E c = post x (fun a => Q a c) E := by
  cases x <;> rfl

/-- Opening an option meets what its value does, or fails. -/
lemma post_orError {f : Failure} {o : Option α} {Q : α → Prop} {E : Failure → Prop} :
    post (orError f o) Q E ↔ (∀ a, o = some a → Q a) ∧ (o = none → E f) := by
  cases o <;> simp [orError]

/-- A result that is looked up, or a failure that is not about the names of a signature. -/
abbrev NoName (x : Except Failure α) : Prop :=
  post x (fun _ => True) (· ≠ .lookup)

/-- Operations that keep cursors valid, and do not look up names. -/
abbrev NoLookup (m : CursorM α) : Prop :=
  Framed (· ≠ .lookup) m

/-- Lifting a result finds every name if it does. -/
lemma NoLookup.ofExcept {x : Except Failure α} (h : NoName x) : NoLookup (Typeck.ofExcept x) := by
  intro c
  rw [wp_ofExcept]
  exact post_mono h (fun _ _ => Frame.refl c) fun _ hf => hf

/-- Opening an option that fails otherwise finds every name. -/
lemma NoLookup.orFail {f : Failure} (hf : f ≠ .lookup) (o : Option α) :
    NoLookup (Typeck.orFail f o) := by
  cases o with
  | some a => exact Framed.pure a
  | none => exact fun _ => hf

/-- A safe operation finds every name. -/
lemma Cursor.Safe.noLookup {m : CursorM α} (h : Safe m) : NoLookup m :=
  h.mono fun _ hf => hf.1

namespace TypeEnv

/-! ## Bindings -/

section Bindings

variable {env : TypeEnv} {loc loc' : Loc} {ty : Ty}

/-- The location inserted has a strong binding. -/
@[simp] lemma lookup_insertLoc_self :
    (env.insertLoc loc ty).bindings.lookup loc = some (.strong ty) :=
  AList.lookup_insert _

/-- The location inserted has the type inserted. -/
@[simp] lemma lookupLoc_insertLoc_self : (env.insertLoc loc ty).lookupLoc loc = some ty := by
  simp [lookupLoc, Binding.ty]

/-- Every other location keeps its binding. -/
lemma lookup_insertLoc_of_ne (h : loc' ≠ loc) :
    (env.insertLoc loc ty).bindings.lookup loc' = env.bindings.lookup loc' :=
  AList.lookup_insert_ne h

/-- Every other location keeps its type. -/
lemma lookupLoc_insertLoc_of_ne (h : loc' ≠ loc) :
    (env.insertLoc loc ty).lookupLoc loc' = env.lookupLoc loc' := by
  rw [lookupLoc, lookup_insertLoc_of_ne h, lookupLoc]

/-- Inserting adds the location. -/
@[simp] lemma mem_insertLoc :
    loc' ∈ (env.insertLoc loc ty).bindings ↔ loc' = loc ∨ loc' ∈ env.bindings :=
  AList.mem_insert _

/-- The locations with a type are those of the environment. -/
lemma lookupLoc_isSome : (env.lookupLoc loc).isSome ↔ loc ∈ env.bindings := by
  simp [lookupLoc, AList.lookup_isSome]

/-- A location with a type is one of them. -/
lemma mem_of_lookupLoc (h : env.lookupLoc loc = some ty) : loc ∈ env.bindings :=
  lookupLoc_isSome.mp (by simp [h])

/-- One of them has a type. -/
lemma exists_lookupLoc (h : loc ∈ env.bindings) : ∃ ty, env.lookupLoc loc = some ty :=
  Option.isSome_iff_exists.mp (lookupLoc_isSome.mpr h)

/-- All bindings are strong. -/
def AllStrong (env : TypeEnv) : Prop :=
  ∀ loc binding, env.bindings.lookup loc = some binding → ∃ ty, binding = .strong ty

/-- A type in an environment of strong bindings is strong. -/
lemma AllStrong.lookup (h : env.AllStrong) (hty : env.lookupLoc loc = some ty) :
    env.bindings.lookup loc = some (.strong ty) := by
  obtain ⟨binding, hbinding, rfl⟩ := Option.map_eq_some_iff.mp hty
  obtain ⟨ty, rfl⟩ := h loc binding hbinding
  exact hbinding

/-- Inserting keeps every binding strong. -/
lemma AllStrong.insertLoc (h : env.AllStrong) (loc : Loc) (ty : Ty) :
    (env.insertLoc loc ty).AllStrong := by
  intro loc' binding hbinding
  by_cases hloc : loc' = loc
  · subst hloc
    rw [lookup_insertLoc_self] at hbinding
    exact ⟨ty, (Option.some.inj hbinding).symm⟩
  · rw [lookup_insertLoc_of_ne hloc] at hbinding
    exact h loc' binding hbinding

end Bindings

variable (tcx : Tcx) (env : TypeEnv)

/-! ## The use of environments -/

/-- `update_loc` finds every name. -/
lemma noLookup_updateLoc (loc : Loc) (new_ty : Ty) : NoLookup (env.updateLoc tcx loc new_ty) := by
  refine (Framed.orFail (by decide) _).bind fun binding => ?_
  cases binding with
  | strong ty => exact Framed.pure _
  | weak bound ty => exact (Safe.subtyping tcx new_ty bound).noLookup.bind fun _ => Framed.pure _

/-- Walking down a projection finds every name. -/
lemma noName_walkProjection (loc : Loc) (ty : Ty) (projection : List PlaceElem) :
    NoName (env.walkProjection loc ty projection) := by
  induction projection generalizing loc ty with
  | nil => trivial
  | cons elem projection ih =>
    cases ty with
    | strgRef referee =>
      change NoName (orError .dangling (env.lookupLoc referee) >>= _)
      rw [NoName, post_bind]
      exact post_orError.mpr ⟨fun ty _ => ih referee ty, fun _ => by decide⟩
    | ref ty => exact fun h => nomatch h
    | _ => exact fun h => nomatch h

/-- Walking down a place finds every name. -/
lemma noName_walkPlace (place : Place) : NoName (env.walkPlace place) := by
  rw [walkPlace, NoName, post_bind]
  exact post_orError.mpr ⟨fun ty _ => env.noName_walkProjection _ ty _, fun _ => by decide⟩

/-- `write_place` finds every name. -/
lemma noLookup_writePlace (place : Place) (new_ty : Ty) :
    NoLookup (env.writePlace tcx place new_ty) := by
  refine (NoLookup.ofExcept (env.noName_walkPlace place)).bind fun p => ?_
  rcases p with ⟨loc, ty⟩
  cases ty with
  | exists_ bty p => exact Framed.throw (by decide)
  | ref ty => exact Framed.throw (by decide)
  | _ => exact env.noLookup_updateLoc tcx loc new_ty

end TypeEnv

end LiquidRust.Typeck
