import Mathlib.Data.List.Sort
import LiquidRust.Lib.FinMap
import LiquidRust.Core.Ir
import LiquidRust.Typeck.ConstraintBuilder

set_option relaxedAutoImplicit false
set_option autoImplicit false

/-!
# Type environments

The environments of `liquid-rust-typeck/src/type_env.rs`. An environment binds locations to
types. At a join point, inference joins the environments that arrive; the check transforms each
of them into one that is made from the shape that inference found.

The order in which a hash map is iterated is that of `Tcx.hashOrder`. The recursion along
pointers is bounded by the size of the stack.

## Main definitions

* `LiquidRust.Typeck.TypeEnv` — environments.
* `LiquidRust.Typeck.TypeEnv.walkPlace`, `writePlace`, `movePlace`, `unpack` — their use.
* `LiquidRust.Typeck.TypeEnv.joinWith`, `inferBbEnv`, `transformInto` — what happens at a join
  point.
-/

namespace LiquidRust.Typeck

open Cursor
open Core.Ir (Place PlaceElem)

/-- A weak binding has a bound beside its type. -/
inductive Binding
  | strong (ty : Ty)
  | weak (bound ty : Ty)
  deriving DecidableEq

namespace Binding

/-- The type of a binding. -/
def ty : Binding → Ty
  | strong ty => ty
  | weak _ ty => ty

/-- `expected strong binding` -/
def assertStrong : Binding → Except Failure Ty
  | strong ty => .ok ty
  | weak _ _ => .error .assertion

/-- The binding with another type, for `ty_mut`. -/
def setTy : Binding → Ty → Binding
  | strong _, ty => strong ty
  | weak bound _, ty => weak bound ty

end Binding

/-- An environment gives locations their bindings. -/
structure TypeEnv where
  bindings : AList fun _ : Loc => Binding

/-- The locations of an environment with their types, in the order of the hash map. -/
abbrev TypeEnvShape := List (Loc × Ty)

/-- A value that is looked up. -/
def orError {α : Type} (f : Failure) : Option α → Except Failure α
  | some a => .ok a
  | none => .error f

/-- A computation that does not use the cursor. -/
def ofExcept {α : Type} (x : Except Failure α) : CursorM α :=
  fun cursor => x.map fun a => (a, cursor)

namespace TypeEnv

variable (tcx : Tcx)

/-- `TypeEnv::new`. -/
def new : TypeEnv :=
  ⟨∅⟩

/-- The locations, in the order of the hash map. -/
def locs (env : TypeEnv) : List Loc :=
  tcx.hashOrder env.bindings.keys

/-- `lookup_loc`: the type at a location. -/
def lookupLoc (env : TypeEnv) (loc : Loc) : Option Ty :=
  (env.bindings.lookup loc).map Binding.ty

/-- `into_shape`: the types of all locations. -/
def intoShape (env : TypeEnv) : TypeEnvShape :=
  (env.locs tcx).filterMap fun loc => (env.lookupLoc loc).map fun ty => (loc, ty)

/-- `lookup_local`: the type of a local variable. -/
def lookupLocal (env : TypeEnv) (l : Local) : Except Failure Ty :=
  orError .missing (env.lookupLoc (.local_ l))

/-- `insert_loc`: a strong binding, in the place of one that there was. -/
def insertLoc (env : TypeEnv) (loc : Loc) (ty : Ty) : TypeEnv :=
  ⟨env.bindings.insert loc (.strong ty)⟩

/-- A strong binding is replaced; the bound of a weak one has to hold of the new type. -/
def updateLoc (env : TypeEnv) (loc : Loc) (new_ty : Ty) : CursorM TypeEnv := do
  match ← orFail .missing (env.bindings.lookup loc) with
  | .strong _ => pure (env.insertLoc loc new_ty)
  | .weak bound _ => do
    subtyping tcx new_ty bound
    pure env

/-- `walk_place`, from a location and its type. -/
def walkProjection (env : TypeEnv) : Loc → Ty → List PlaceElem → Except Failure (Loc × Ty)
  | loc, ty, [] => .ok (loc, ty)
  | _, .strgRef referee, .deref :: projection => do
    let ty ← orError .dangling (env.lookupLoc referee)
    env.walkProjection referee ty projection
  | _, .ref _, .deref :: _ => .error .todo
  | _, _, .deref :: _ => .error .unreachable

/-- `walk_place`: from the type of the local down the projections. -/
def walkPlace (env : TypeEnv) (place : Place) : Except Failure (Loc × Ty) := do
  let ty ← orError .missing (env.lookupLoc (.local_ place.local_))
  env.walkProjection (.local_ place.local_) ty place.projection

/-- `lookup_place`: the type at a place. -/
def lookupPlace (env : TypeEnv) (place : Place) : Except Failure Ty := do
  let (_, ty) ← env.walkPlace place
  pure ty

/-- `get_loc`: the location of a place. -/
def getLoc (env : TypeEnv) (place : Place) : Except Failure Loc := do
  let (loc, _) ← env.walkPlace place
  pure loc

/-- The type that is moved out of a local variable. -/
def movePlace (env : TypeEnv) (place : Place) : Except Failure (TypeEnv × Ty) :=
  if place.projection = [] then do
    let ty ← orError .missing (env.lookupLoc (.local_ place.local_))
    pure (env.insertLoc (.local_ place.local_) .uninit, ty)
  else .error .assertion

/-- `write_place`: nothing is written through a shared reference. -/
def writePlace (env : TypeEnv) (place : Place) (new_ty : Ty) : CursorM TypeEnv := do
  let (loc, ty) ← ofExcept (env.walkPlace place)
  match ty with
  | .uninit | .refine _ _ | .param _ | .strgRef _ => env.updateLoc tcx loc new_ty
  | .ref _ => throw .todo
  | .exists_ _ _ => throw .unreachable

/-- `unpack` at one location: an existential gets a name, and a reference of unknown location
becomes a pointer to a new one, with a weak binding. -/
def unpackLoc (env : TypeEnv) (loc : Loc) : CursorM TypeEnv := do
  let binding ← orFail .missing (env.bindings.lookup loc)
  match binding.ty with
  | .exists_ bty p => do
    let ty ← Cursor.unpack (.exists_ bty p)
    pure ⟨env.bindings.insert loc (binding.setTy ty)⟩
  | .ref ty => do
    let fresh := Loc.abstract (← freshName)
    let env : TypeEnv := ⟨env.bindings.insert loc (binding.setTy (.strgRef fresh))⟩
    let unpacked ← Cursor.unpack ty
    pure ⟨env.bindings.insert fresh (.weak ty unpacked)⟩
  | _ => pure env

/-- `unpack`, over the locations that are there at first. -/
def unpack (env : TypeEnv) : CursorM TypeEnv :=
  (env.locs tcx).foldlM unpackLoc env

/-! ## Levels -/

/-- The levels of the locations seen so far. -/
abbrev Levels := AList fun _ : Loc => ℕ

/-- The level of a location of the given type, the length of the chain of pointers that starts
there. -/
def dfs (env : TypeEnv) : ℕ → Loc → Ty → Levels → Except Failure (ℕ × Levels)
  | 0, _, _, _ => .error .stack
  | n + 1, loc, ty, levels =>
    match levels.lookup loc with
    | some level => .ok (level, levels)
    | none =>
      match ty with
      | .strgRef referee => do
        let ty ← orError .dangling (env.lookupLoc referee)
        let (level, levels) ← env.dfs n referee ty levels
        pure (level + 1, levels.insert loc (level + 1))
      | _ => .ok (0, levels.insert loc 0)

/-- `levels`: a search from every location. -/
def levels (env : TypeEnv) : Except Failure Levels :=
  (env.locs tcx).foldlM
    (fun levels loc => do
      let ty ← orError .missing (env.lookupLoc loc)
      let (_, levels) ← env.dfs tcx.stack loc ty levels
      pure levels)
    ∅

/-- The locations with the lower levels first, otherwise in the order of the hash map. -/
def sortedByLevel (levels : Levels) : List Loc :=
  let key (loc : Loc) : ℕ := (levels.lookup loc).getD 0
  (tcx.hashOrder levels.keys).insertionSort fun loc1 loc2 => key loc1 ≤ key loc2

/-! ## Joins -/

/-- `weakening`: the locations of both environments, uninitialised where the other one is. -/
def weakening (env other : TypeEnv) : TypeEnv :=
  ⟨Lib.retain
    (fun loc binding => (other.lookupLoc loc).map fun ty =>
      if ty.isUninit then .strong .uninit else binding)
    env.bindings⟩

/-- `self.bindings[&loc].assert_strong()`, with the failure if there is no such location. -/
def strongTy (env : TypeEnv) (f : Failure) (loc : Loc) : CursorM Ty := do
  let binding ← orFail f (env.bindings.lookup loc)
  ofExcept binding.assertStrong

/-- A location is weakened to `bound`. -/
def refWeak (env : TypeEnv) (loc : Loc) : Ty → CursorM TypeEnv
  | .exists_ bty p => do
    let ty ← env.strongTy .dangling loc
    subtyping tcx ty (.exists_ bty p)
    pure (env.insertLoc loc (.exists_ bty p))
  | .ref bound => do
    match ← env.strongTy .dangling loc with
    | .strgRef loc2 => do
      let env ← env.refWeak loc2 bound
      pure (env.insertLoc loc (.ref bound))
    | .ref bound2 => do
      assert (bound2 = bound)
      pure env
    | _ => throw .todo
  | .refine _ _ | .uninit | .strgRef _ | .param _ => do
    let _ ← env.strongTy .dangling loc
    throw .todo

/-- `bty_join` on the arguments of an ADT, with `join` for the join of types. -/
def substsJoin (join : TypeEnv → Ty → Ty → CursorM (TypeEnv × Ty)) :
    TypeEnv → List Variance → Substs → Substs → CursorM (TypeEnv × Substs)
  | env, variance :: variances, .cons ty1 substs1, .cons ty2 substs2 => do
    assert (variance = .covariant)
    let (env, ty) ← join env ty1 ty2
    let (env, substs) ← substsJoin join env variances substs1 substs2
    pure (env, .cons ty substs)
  | env, _, _, _ => pure (env, .nil)

/-- `bty_join`, with `join` for the types in it. -/
def btyJoin (join : TypeEnv → Ty → Ty → CursorM (TypeEnv × Ty)) (env : TypeEnv) :
    BaseTy → BaseTy → CursorM (TypeEnv × BaseTy)
  | .bool, .bool => pure (env, .bool)
  | .int int_ty1, .int int_ty2 => do
    assert (int_ty1 = int_ty2)
    pure (env, .int int_ty1)
  | .uint uint_ty1, .uint uint_ty2 => do
    assert (uint_ty1 = uint_ty2)
    pure (env, .uint uint_ty1)
  | .adt did1 substs1, .adt did2 substs2 => do
    assert (did1 = did2)
    let (env, substs) ← substsJoin join env (tcx.variancesOf did1) substs1 substs2
    pure (env, .adt did1 substs)
  | _, _ => throw .todo

/-- Base types that have to be generalised: their join with a new unknown predicate. -/
def generalize (join : TypeEnv → Ty → Ty → CursorM (TypeEnv × Ty)) (env : TypeEnv)
    (bty1 bty2 : BaseTy) : CursorM (TypeEnv × Ty) := do
  let (env, bty) ← btyJoin tcx join env bty1 bty2
  let kvar ← freshKvar bty.sort
  pure (env, .exists_ bty kvar)

mutual

/-- The join of two types. Two pointers are joined by weakening the locations they lead to. -/
def strgTyJoin : ℕ → TypeEnv → Ty → Ty → CursorM (TypeEnv × Ty)
  | 0, _, _, _ => throw .stack
  | n + 1, env, ty1, ty2 =>
    if ty1 = ty2 then pure (env, ty1)
    else
      match ty1, ty2 with
      | .uninit, _ | _, .uninit => pure (env, .uninit)
      | .refine bty1 e1, .refine bty2 e2 =>
        if e1 = e2 then do
          let (env, bty) ← btyJoin tcx (strgTyJoin n) env bty1 bty2
          pure (env, .refine bty e1)
        else generalize tcx (strgTyJoin n) env bty1 bty2
      | .refine bty1 _, .exists_ bty2 _ | .exists_ bty1 _, .refine bty2 _
      | .exists_ bty1 _, .exists_ bty2 _ => generalize tcx (strgTyJoin n) env bty1 bty2
      | .strgRef loc1, .strgRef loc2 => do
        let (env, ty) ← refWeakJoin n env loc1 loc2
        pure (env, .ref ty)
      | .ref ty, .strgRef loc | .strgRef loc, .ref ty => do
        let env ← env.refWeak tcx loc ty
        pure (env, ty)
      | _, _ => throw .todo

/-- The join of what is at two locations. The source inserts the result of joining two pointers
twice at the first location. -/
def refWeakJoin : ℕ → TypeEnv → Loc → Loc → CursorM (TypeEnv × Ty)
  | 0, _, _, _ => throw .stack
  | n + 1, env, loc1, loc2 => do
    let ty1 ← env.strongTy .dangling loc1
    let ty2 ← env.strongTy .dangling loc2
    match ty1, ty2 with
    | .refine _ _, .refine _ _ | .refine _ _, .exists_ _ _ | .exists_ _ _, .refine _ _
    | .exists_ _ _, .exists_ _ _ => do
      let (env, ty_join) ← strgTyJoin n env ty1 ty2
      pure ((env.insertLoc loc1 ty_join).insertLoc loc2 ty_join, ty_join)
    | .strgRef loc1_, .strgRef loc2_ => do
      let (env, ty) ← refWeakJoin n env loc1_ loc2_
      pure ((env.insertLoc loc1 (.ref ty)).insertLoc loc1 (.ref ty), .ref ty)
    | .strgRef loc, .ref ty | .ref ty, .strgRef loc => do
      let env ← env.refWeak tcx loc ty
      pure (env.insertLoc loc1 ty, ty)
    | _, _ => throw .todo

end

/-- `join_with` at one location. -/
def joinLoc (other env : TypeEnv) (loc : Loc) : CursorM TypeEnv := do
  let binding1 ← orFail .missing (env.bindings.lookup loc)
  let binding2 ← orFail .missing (other.bindings.lookup loc)
  match binding1, binding2 with
  | .strong ty1, .strong ty2 => do
    let (env, ty) ← strgTyJoin tcx tcx.stack env ty1 ty2
    pure (env.insertLoc loc ty)
  | _, _ => pure env

/-- The levels of two environments, the higher one at each location of the first. -/
def maxLevels (levels levelsOther : Levels) : Except Failure Levels :=
  levels.keys.foldlM
    (fun m loc => do
      let level ← orError .missing (levels.lookup loc)
      let levelOther ← orError .missing (levelsOther.lookup loc)
      pure (m.insert loc (max level levelOther)))
    levels

/-- `join_with`, from the lower levels to the higher ones. -/
def joinWith (env other : TypeEnv) : CursorM TypeEnv := do
  let env := env.weakening other
  let levels ← ofExcept (env.levels tcx)
  let levelsOther ← ofExcept (other.levels tcx)
  let levels ← ofExcept (maxLevels levels levelsOther)
  (sortedByLevel tcx levels).foldlM (joinLoc tcx other) env

/-! ## The check at a join point -/

/-- `transform_into` at one location. -/
def transformLoc (other env : TypeEnv) (loc : Loc) : CursorM TypeEnv := do
  let ty1 ← env.strongTy .missing loc
  let ty2 ← other.strongTy .missing loc
  let env ← match ty1, ty2 with
    | .strgRef loc, .ref bound => env.refWeak tcx loc bound
    | _, _ => do
      subtyping tcx ty1 ty2
      pure env
  pure (env.insertLoc loc ty2)

/-- `transform_into`, from the higher levels to the lower ones. -/
def transformInto (env other : TypeEnv) : CursorM TypeEnv := do
  let env := env.weakening other
  let levels ← ofExcept (env.levels tcx)
  (sortedByLevel tcx levels).reverse.foldlM (transformLoc tcx other) env

/-- New unknown predicates for those of a shape. -/
abbrev KVars := KVid → Option Pred

mutual

/-- The unknown predicates of a type are replaced. -/
def replaceKvars (kvars : KVars) : Ty → Option Ty
  | .refine bty e => some (.refine bty e)
  | .exists_ bty (.kvar kvid _) => do
    let bty ← replaceKvarsBty kvars bty
    let p ← kvars kvid
    pure (.exists_ bty p)
  | .exists_ bty (.expr e) => some (.exists_ bty (.expr e))
  | .uninit => some .uninit
  | .strgRef loc => some (.strgRef loc)
  | .ref ty => do
    let ty ← replaceKvars kvars ty
    pure (.ref ty)
  | .param p => some (.param p)

/-- `replace_kvars_bty`: the unknown predicates of a base type are replaced. -/
def replaceKvarsBty (kvars : KVars) : BaseTy → Option BaseTy
  | .adt did substs => do
    let substs ← replaceKvarsSubsts kvars substs
    pure (.adt did substs)
  | .int int_ty => some (.int int_ty)
  | .uint uint_ty => some (.uint uint_ty)
  | .bool => some .bool

/-- The unknown predicates of type arguments are replaced. -/
def replaceKvarsSubsts (kvars : KVars) : Substs → Option Substs
  | .nil => some .nil
  | .cons ty substs => do
    let ty ← replaceKvars kvars ty
    let substs ← replaceKvarsSubsts kvars substs
    pure (.cons ty substs)

end

/-- A new unknown predicate for that of a type, if it has one that is not seen yet. -/
def collectKvar (kvars : KVars) (ty : Ty) : CursorM KVars :=
  match ty with
  | .exists_ bty (.kvar kvid _) =>
    match kvars kvid with
    | some _ => pure kvars
    | none => do
      let p ← freshKvarAtLastScope bty.sort
      pure (Function.update kvars kvid (some p))
  | _ => pure kvars

/-- The locations of a shape that the environment has under another name, read off the pointers
to them. -/
def renamedLocs (env : TypeEnv) (shape : TypeEnvShape) : Loc → Option Loc :=
  shape.foldl
    (fun locs p =>
      match p.2, env.lookupLoc p.1 with
      | .strgRef loc1, some (.strgRef loc2) => Function.update locs loc1 (some loc2)
      | _, _ => locs)
    (fun _ => none)

/-- The type of a join point's environment where the shape has `ty1` and the environment that
arrives first has `ty2`. -/
def inferTy (kvars : KVars) (ty1 ty2 : Ty) : Option Ty :=
  match ty1, ty2 with
  | .refine _ _, .refine bty e => some (.refine bty e)
  | .strgRef _, .strgRef loc => some (.strgRef loc)
  | _, .uninit => some .uninit
  | _, _ => replaceKvars kvars ty1

/-- `infer_bb_env`: the environment of a join point, from its shape and the environment that
arrives first. -/
def inferBbEnv (env : TypeEnv) (shape : TypeEnvShape) : CursorM TypeEnv := do
  let kvars ← (shape.flatMap fun p => p.2.walk).foldlM collectKvar fun _ => none
  let locs := env.renamedLocs shape
  shape.foldlM
    (fun bbEnv p => do
      let loc := (locs p.1).getD p.1
      let ty2 ← orFail .missing (env.lookupLoc loc)
      let ty ← orFail .missing (inferTy kvars p.2 ty2)
      pure (bbEnv.insertLoc loc ty))
    new

end TypeEnv

end LiquidRust.Typeck
