import LiquidRust.Common.Outcome
import LiquidRust.Core.Ty

set_option relaxedAutoImplicit false
set_option autoImplicit false

/-!
# The resolver

The resolver of `liquid-rust-driver/src/resolve.rs` turns a parsed annotation into a signature.
What it reads from the compiler is a parameter: the table of the paths in the Rust signature,
and the type parameters of the function and of its parent.

## Main definitions

* `LiquidRust.Driver.Resolver` — what the resolver reads.
* `LiquidRust.Driver.Subst` — the names in scope.
* `LiquidRust.Driver.Resolver.run` — the resolver.
-/

namespace LiquidRust.Driver

open Common Core

/-- The identifiers of annotations. -/
abbrev Ident := Syntax.Ident

/-- What a path of the Rust signature stands for, `hir::def::Res`: the cases of the resolver,
with `unsupported` for the definitions it rejects and `unexpected` for what it never meets. -/
inductive Res
  | tyParam (did : DefId)
  | struct (did : DefId)
  | int (int_ty : IntTy)
  | uint (uint_ty : UintTy)
  | bool
  | float
  | str
  | char
  | unsupported
  | unexpected
  deriving DecidableEq, Repr

/-- The errors of the resolver. -/
inductive Diagnostic
  | unsupportedSignature (msg : String)
  | unresolvedPath (path : Ident)
  | unresolvedLoc (loc : Ident)
  | duplicateGenericParam (name : Ident)
  | refinedTypeParam
  | unresolvedSort (sort : Ident)
  | unresolvedVar (var : Ident)
  | intTooLarge
  | unexpectedLiteral
  deriving DecidableEq, Repr

/-- The result of a step of the resolver. -/
abbrev Resolved (α : Type) := Outcome Diagnostic α

/-- An error that is emitted and raised at once. -/
def raise {α : Type} (d : Diagnostic) : Resolved α :=
  .err [d]

/-! ## Scopes -/

/-- `quickscope::ScopeMap`, a stack of layers. -/
abbrev ScopeMap (K V : Type) := List (List (K × V))

namespace ScopeMap

variable {K V : Type} [DecidableEq K]

/-- A map with one layer. -/
def new : ScopeMap K V :=
  [[]]

/-- The value of the topmost layer that has the key. -/
def get (m : ScopeMap K V) (k : K) : Option V :=
  m.findSome? fun layer => layer.lookup k

/-- Whether the topmost layer has a key. -/
def containsKeyAtTop (m : ScopeMap K V) (k : K) : Bool :=
  match m with
  | [] => false
  | layer :: _ => (layer.lookup k).isSome

/-- A new entry in the topmost layer. -/
def define (m : ScopeMap K V) (k : K) (v : V) : ScopeMap K V :=
  match m with
  | [] => [[(k, v)]]
  | layer :: layers => ((k, v) :: layer) :: layers

/-- A new layer on top. -/
def pushLayer (m : ScopeMap K V) : ScopeMap K V :=
  [] :: m

/-- The number of keys. -/
def len (m : ScopeMap K V) : ℕ :=
  (m.flatten.map Prod.fst).dedup.length

end ScopeMap

/-- What the names in scope stand for. -/
structure Subst where
  exprs : ScopeMap Symbol Var
  regions : Symbol → Option Name
  types : ScopeMap DefId ParamTy

namespace Subst

/-- Nothing is in scope. -/
def new : Subst where
  exprs := .new
  regions := fun _ => none
  types := .new

/-- A new scope of variables. -/
def pushExprLayer (subst : Subst) : Subst :=
  { subst with exprs := subst.exprs.pushLayer }

/-- The entry that is there already, or the map with a new one. -/
def insertExpr (subst : Subst) (symb : Symbol) (name : Var) : Subst × Option Var :=
  if subst.exprs.containsKeyAtTop symb then (subst, subst.exprs.get symb)
  else ({ subst with exprs := subst.exprs.define symb name }, none)

/-- A region gets a location, in the place of one that it had. -/
def insertRegion (subst : Subst) (symb : Symbol) (name : Name) : Subst :=
  { subst with regions := Function.update subst.regions symb (some name) }

/-- A type parameter gets the next index; one that is there already is a panic. -/
def insertType (subst : Subst) (did : DefId) (name : Symbol) : Resolved Subst :=
  if subst.types.containsKeyAtTop did then .panic
  else .ok { subst with types := subst.types.define did ⟨subst.types.len, name⟩ }

/-- A new scope of type parameters. -/
def pushTypeLayer (subst : Subst) : Subst :=
  { subst with types := subst.types.pushLayer }

/-- What a variable stands for. -/
def getExpr (subst : Subst) (symb : Symbol) : Option Var :=
  subst.exprs.get symb

/-- The location of a region. -/
def getRegion (subst : Subst) (symb : Symbol) : Option Name :=
  subst.regions symb

/-- What a type parameter stands for. -/
def getParamTy (subst : Subst) (did : DefId) : Option ParamTy :=
  subst.types.get did

end Subst

/-! ## Expressions and sorts -/

/-- The value of a string of decimal digits. -/
def parseDigits (cs : List Char) : Option ℕ :=
  if cs ≠ [] ∧ cs.all Char.isDigit then some (Nat.ofDigitChars 10 cs 0) else none

/-- `str::parse::<i128>`: digits after an optional sign, within the range of the type. -/
def parseI128 (s : String) : Option ℤ :=
  let n? : Option ℤ := match s.toList with
    | '+' :: cs => (parseDigits cs).map fun n => (n : ℤ)
    | '-' :: cs => (parseDigits cs).map fun n => -(n : ℤ)
    | cs => (parseDigits cs).map fun n => (n : ℤ)
  n?.filter fun n => -2 ^ 127 ≤ n ∧ n < 2 ^ 127

/-- `resolve_lit`: an integer has to fit 128 bits. -/
def resolveLit (lit : Syntax.Lit) : Resolved Lit :=
  match lit.kind with
  | .integer =>
    match parseI128 lit.symbol with
    | some n => .ok (.int n)
    | none => raise .intTooLarge
  | .bool => .ok (.bool (lit.symbol = "true"))
  | .other => raise .unexpectedLiteral

/-- `resolve_var`: a variable has to be in scope. -/
def resolveVar (var : Ident) (subst : Subst) : Resolved Var :=
  match subst.getExpr var with
  | some x => .ok x
  | none => raise (.unresolvedVar var)

/-- Both operands are resolved before an error of the first is returned. -/
def resolveExpr (expr : Syntax.Expr) (subst : Subst) : Resolved Expr :=
  match expr with
  | .var ident => do
    let x ← resolveVar ident subst
    pure (.var x ident)
  | .literal lit => do
    let lit ← resolveLit lit
    pure (.literal lit)
  | .binaryOp op e1 e2 => do
    let (e1, e2) ← (resolveExpr e1 subst).both (resolveExpr e2 subst)
    pure (.binaryOp op e1 e2)

/-- `resolve_sort`: there are two sorts. -/
def resolveSort (sort : Ident) : Resolved Srt :=
  if sort = "int" then .ok .int
  else if sort = "bool" then .ok .bool
  else raise (.unresolvedSort sort)

/-! ## Types -/

/-- What a path of an annotation is resolved to. -/
inductive ParamTyOrBaseTy
  | baseTy (bty : BaseTy)
  | paramTy (p : ParamTy)

/-- What the resolver reads from the compiler: what the paths of the Rust signature stand for
(`name_res_table`), and the type parameters of the parent and of the function, with their
names. -/
structure Resolver where
  nameResTable : Symbol → Option Res
  parent : Option (List (DefId × Symbol))
  generics : List (DefId × Symbol)

namespace Resolver

variable (self : Resolver)

mutual

/-- The layer of an existential's binder is gone after its predicate is resolved. -/
def resolveTy (ty : Syntax.Ty) (subst : Subst) : Resolved Ty :=
  match ty with
  | .baseTy path => do
    match ← resolvePath path subst with
    | .baseTy bty => pure (.exists_ bty .tt)
    | .paramTy p => pure (.param p)
  | .refineTy path refine => do
    match ← resolvePath path subst with
    | .baseTy bty => do
      let e ← resolveExpr refine subst
      pure (.refine bty e)
    | .paramTy _ => raise .refinedTypeParam
  | .exists_ bind path pred => do
    match ← resolvePath path subst with
    | .baseTy bty => do
      let e ← resolveExpr pred (subst.pushExprLayer.insertExpr bind .bound).1
      pure (.exists_ bty (.expr e))
    | .paramTy _ => raise .refinedTypeParam
  | .mutRef region =>
    match subst.getRegion region with
    | some name => .ok (.mutRef name)
    | none => raise (.unresolvedLoc region)

/-- A path that stands for a struct keeps its arguments. -/
def resolvePath (path : Syntax.Path) (subst : Subst) : Resolved ParamTyOrBaseTy :=
  match path with
  | .mk ident args =>
    match self.nameResTable ident with
    | none => raise (.unresolvedPath ident)
    | some (.tyParam did) =>
      match subst.getParamTy did with
      | some p => .ok (.paramTy p)
      | none => .panic
    | some (.struct did) =>
      match args with
      | none => .ok (.baseTy (.adt did []))
      | some args => do
        let args ← resolveTys args subst
        pure (.baseTy (.adt did args))
    | some (.int int_ty) => .ok (.baseTy (.int int_ty))
    | some (.uint uint_ty) => .ok (.baseTy (.uint uint_ty))
    | some .bool => .ok (.baseTy .bool)
    | some .float => raise (.unsupportedSignature "floats are not supported yet")
    | some .str => raise (.unsupportedSignature "string slices are not supported yet")
    | some .char => raise (.unsupportedSignature "chars are not suported yet")
    | some .unsupported => raise (.unsupportedSignature "path resolved to an unsupported type")
    | some .unexpected => .panic

/-- `resolve_ty` on the elements of a list, by `try_collect_exhaust`. -/
def resolveTys (tys : List Syntax.Ty) (subst : Subst) : Resolved (List Ty) :=
  match tys with
  | [] => .ok []
  | ty :: tys => (fun p => p.1 :: p.2) <$> (resolveTy ty subst).both (resolveTys tys subst)

end

/-! ## Signatures -/

/-- `insert_generic_types`. -/
def insertGenericTypes (generics : List (DefId × Symbol)) (subst : Subst) : Resolved Subst :=
  generics.foldlM (fun subst p => subst.insertType p.1 p.2) subst

/-- The names in scope, and the generator of names. -/
structure State where
  subst : Subst
  nameGen : ℕ

/-- `resolve_generics`, for one parameter. It is in scope in its own predicate. -/
def resolveParam (st : State) (param : Syntax.GenericParam) : State × Resolved Param :=
  let fresh := st.nameGen
  match st.subst.insertExpr param.name (.free fresh) with
  | (subst, some _) => (⟨subst, fresh + 1⟩, raise (.duplicateGenericParam param.name))
  | (subst, none) =>
    let sort := resolveSort param.sort
    let pred := param.pred.elim (.ok .tt) fun expr => resolveExpr expr subst
    (⟨subst, fresh + 1⟩, (fun p => ⟨⟨fresh, param.name⟩, p.1, p.2⟩) <$> sort.both pred)

/-- A binding of `requires`. Its location is new, and is in scope in its own type. -/
def resolveRequires (st : State) (binding : Ident × Syntax.Ty) : State × Resolved (Name × Ty) :=
  let fresh := st.nameGen
  let subst := st.subst.insertRegion binding.1 fresh
  (⟨subst, fresh + 1⟩, (fun ty => (fresh, ty)) <$> self.resolveTy binding.2 subst)

/-- A binding of `ensures`. Its location is the one in scope, or a new one. -/
def resolveEnsures (st : State) (binding : Ident × Syntax.Ty) : State × Resolved (Name × Ty) :=
  match st.subst.getRegion binding.1 with
  | some name => (st, (fun ty => (name, ty)) <$> self.resolveTy binding.2 st.subst)
  | none =>
    let fresh := st.nameGen
    let subst := st.subst.insertRegion binding.1 fresh
    (⟨subst, fresh + 1⟩, (fun ty => (fresh, ty)) <$> self.resolveTy binding.2 subst)

/-- The type parameters in scope: those of the parent, and in a layer above those of the
function. -/
def initialSubst : Resolved Subst := do
  let parentSubst : Resolved Subst := match self.parent with
    | some parent => Subst.pushTypeLayer <$> insertGenericTypes parent .new
    | none => .ok .new
  let subst ← parentSubst
  insertGenericTypes self.generics subst

/-- The return type is resolved after `ensures`, and all errors are reported before the function
returns. -/
def run (fn_sig : Syntax.FnSig) : Resolved FnSig := do
  let subst ← self.initialSubst
  let (st, params) := tryCollectExhaust resolveParam ⟨subst, 0⟩ fn_sig.generics
  let (st, requires) := tryCollectExhaust self.resolveRequires st fn_sig.requires
  let args := self.resolveTys fn_sig.args st.subst
  let (st, ensures) := tryCollectExhaust self.resolveEnsures st fn_sig.ensures
  let ret := self.resolveTy fn_sig.ret st.subst
  let (params, requires, args, ensures, ret) ←
    params.both (requires.both (args.both (ensures.both ret)))
  pure { params, requires, args, ret, ensures }

end Resolver

end LiquidRust.Driver
