import Mathlib.Data.List.Nodup
import LiquidRust.Driver.ResolveScoped

set_option relaxedAutoImplicit false
set_option autoImplicit false

/-!
# What the names of a resolved signature stand for

The resolver passes one substitution along, and pushes and pops the layer of an existential's
binder around its predicate. Here the substitution is returned by every step, as the source
mutates it, and each step gives it back unchanged, also when it fails. So the names of a resolved
signature are read as the annotation's scopes say: a binder hides a parameter in the predicate
below it and nowhere else.

## Main definitions

* `LiquidRust.Driver.Resolver.resolveTyMut`, `runMut` — the resolver, with the scopes as a state.
* `LiquidRust.Driver.VarResolves`, `ExprResolves`, `TyResolves` — what a name stands for.
* `LiquidRust.Driver.SigResolves` — a signature has the names that its annotation declares.

## Main results

* `LiquidRust.Driver.Resolver.resolveTyMut_eq`, `runMut_eq` — the state is unchanged, and the
  result that of the resolver.
* `LiquidRust.Driver.Resolver.runMut_names` — resolved signatures are well-scoped.
-/

namespace LiquidRust.Driver

open Common Core Outcome

/-! ## The resolver, with the scopes as a state -/

/-- The stack without its topmost layer. -/
def ScopeMap.popLayer {K V : Type} (m : ScopeMap K V) : ScopeMap K V :=
  m.tail

/-- The scope of variables on top is left. -/
def Subst.popExprLayer (subst : Subst) : Subst :=
  { subst with exprs := subst.exprs.popLayer }

/-- The `?` operator: an error is returned with the scopes as they are. -/
def andThen {α β : Type} (p : Subst × Resolved α) (f : α → Subst → Subst × Resolved β) :
    Subst × Resolved β :=
  match p with
  | (subst, .ok a) => f a subst
  | (subst, .err ds) => (subst, .err ds)
  | (subst, .panic) => (subst, .panic)

namespace Resolver

variable (self : Resolver)

mutual

/-- `resolve_ty`: the layer of the binder is popped before the error of the predicate is
returned. -/
def resolveTyMut (ty : Syntax.Ty) (subst : Subst) : Subst × Resolved Ty :=
  match ty with
  | .baseTy path =>
    andThen (resolvePathMut path subst) fun p subst =>
      match p with
      | .baseTy bty => (subst, .ok (.exists_ bty .tt))
      | .paramTy p => (subst, .ok (.param p))
  | .refineTy path refine =>
    andThen (resolvePathMut path subst) fun p subst =>
      match p with
      | .baseTy bty =>
        let refine := resolveExpr refine subst
        (subst, do
          let e ← refine
          pure (.refine bty e))
      | .paramTy _ => (subst, raise .refinedTypeParam)
  | .exists_ bind path pred =>
    andThen (resolvePathMut path subst) fun p subst =>
      match p with
      | .baseTy bty =>
        let subst := subst.pushExprLayer
        let subst := (subst.insertExpr bind .bound).1
        let e := resolveExpr pred subst
        let subst := subst.popExprLayer
        (subst, do
          let e ← e
          pure (.exists_ bty (.expr e)))
      | .paramTy _ => (subst, raise .refinedTypeParam)
  | .mutRef region =>
    match subst.getRegion region with
    | some name => (subst, .ok (.mutRef name))
    | none => (subst, raise (.unresolvedLoc region))

/-- `resolve_path`. -/
def resolvePathMut (path : Syntax.Path) (subst : Subst) : Subst × Resolved ParamTyOrBaseTy :=
  match path with
  | .mk ident args =>
    match self.nameResTable ident with
    | none => (subst, raise (.unresolvedPath ident))
    | some (.tyParam did) =>
      match subst.getParamTy did with
      | some p => (subst, .ok (.paramTy p))
      | none => (subst, .panic)
    | some (.struct did) =>
      match args with
      | none => (subst, .ok (.baseTy (.adt did [])))
      | some args =>
        andThen (resolveTysMut args subst) fun args subst => (subst, .ok (.baseTy (.adt did args)))
    | some (.int int_ty) => (subst, .ok (.baseTy (.int int_ty)))
    | some (.uint uint_ty) => (subst, .ok (.baseTy (.uint uint_ty)))
    | some .bool => (subst, .ok (.baseTy .bool))
    | some .float => (subst, raise (.unsupportedSignature "floats are not supported yet"))
    | some .str => (subst, raise (.unsupportedSignature "string slices are not supported yet"))
    | some .char => (subst, raise (.unsupportedSignature "chars are not suported yet"))
    | some .unsupported =>
      (subst, raise (.unsupportedSignature "path resolved to an unsupported type"))
    | some .unexpected => (subst, .panic)

/-- `resolve_ty` on the elements of a list, by `try_collect_exhaust`: each starts in the scopes
that the one before it has left, also if that one has failed. -/
def resolveTysMut (tys : List Syntax.Ty) (subst : Subst) : Subst × Resolved (List Ty) :=
  match tys with
  | [] => (subst, .ok [])
  | ty :: tys =>
    let (subst, ty) := resolveTyMut ty subst
    let (subst, tys) := resolveTysMut tys subst
    (subst, (fun p => p.1 :: p.2) <$> ty.both tys)

end

/-- A binding of `requires`. -/
def resolveRequiresMut (st : State) (binding : Ident × Syntax.Ty) :
    State × Resolved (Name × Ty) :=
  let fresh := st.nameGen
  let subst := st.subst.insertRegion binding.1 fresh
  let (subst, ty) := self.resolveTyMut binding.2 subst
  (⟨subst, fresh + 1⟩, (fun ty => (fresh, ty)) <$> ty)

/-- A binding of `ensures`. -/
def resolveEnsuresMut (st : State) (binding : Ident × Syntax.Ty) :
    State × Resolved (Name × Ty) :=
  match st.subst.getRegion binding.1 with
  | some name =>
    let (subst, ty) := self.resolveTyMut binding.2 st.subst
    (⟨subst, st.nameGen⟩, (fun ty => (name, ty)) <$> ty)
  | none =>
    let fresh := st.nameGen
    let subst := st.subst.insertRegion binding.1 fresh
    let (subst, ty) := self.resolveTyMut binding.2 subst
    (⟨subst, fresh + 1⟩, (fun ty => (fresh, ty)) <$> ty)

/-- The resolver. -/
def runMut (fn_sig : Syntax.FnSig) : Resolved FnSig := do
  let subst ← self.initialSubst
  let (st, params) := tryCollectExhaust resolveParam ⟨subst, 0⟩ fn_sig.generics
  let (st, requires) := tryCollectExhaust self.resolveRequiresMut st fn_sig.requires
  let (subst, args) := self.resolveTysMut fn_sig.args st.subst
  let (st, ensures) := tryCollectExhaust self.resolveEnsuresMut ⟨subst, st.nameGen⟩ fn_sig.ensures
  let (_, ret) := self.resolveTyMut fn_sig.ret st.subst
  let (params, requires, args, ensures, ret) ←
    params.both (requires.both (args.both (ensures.both ret)))
  pure { params, requires, args, ret, ensures }

end Resolver

/-! ### The scopes are restored -/

/-- If the continuation keeps the scopes, so does the whole, and its result is that of the
error monad. -/
lemma andThen_eq {α β : Type} {subst : Subst} {x : Resolved α} {f : α → Subst → Subst × Resolved β}
    {g : α → Resolved β} (h : ∀ a, f a subst = (subst, g a)) :
    andThen (subst, x) f = (subst, x >>= g) := by
  cases x with
  | ok a => exact h a
  | err ds => rfl
  | panic => rfl

/-- What a layer gets goes with it. -/
lemma Subst.popExprLayer_insertExpr_pushExprLayer (subst : Subst) (bind : Symbol) (x : Var) :
    (subst.pushExprLayer.insertExpr bind x).1.popExprLayer = subst := by
  have htop : subst.exprs.pushLayer.containsKeyAtTop bind = false := rfl
  simp only [Subst.insertExpr, Subst.pushExprLayer, htop]
  rfl

namespace Resolver

variable {self : Resolver}

mutual

/-- **A type is resolved in scopes that are restored**, whether it succeeds or fails. -/
theorem resolveTyMut_eq : ∀ (ty : Syntax.Ty) (subst : Subst),
    self.resolveTyMut ty subst = (subst, self.resolveTy ty subst)
  | .baseTy path, subst => by
    rw [resolveTyMut, resolveTy, resolvePathMut_eq path subst]
    apply andThen_eq
    rintro (bty | p) <;> rfl
  | .refineTy path refine, subst => by
    rw [resolveTyMut, resolveTy, resolvePathMut_eq path subst]
    apply andThen_eq
    rintro (bty | p) <;> rfl
  | .exists_ bind path pred, subst => by
    rw [resolveTyMut, resolveTy, resolvePathMut_eq path subst]
    apply andThen_eq
    rintro (bty | p)
    · show (_, _) = _
      rw [Subst.popExprLayer_insertExpr_pushExprLayer]
    · rfl
  | .mutRef region, subst => by
    rw [resolveTyMut, resolveTy]
    cases subst.getRegion region <;> rfl

/-- A path is resolved in scopes that are restored. -/
theorem resolvePathMut_eq : ∀ (path : Syntax.Path) (subst : Subst),
    self.resolvePathMut path subst = (subst, self.resolvePath path subst)
  | .mk ident none, subst => by
    rw [resolvePathMut, resolvePath]
    rcases self.nameResTable ident with _ | res
    · rfl
    · cases res <;> try rfl
      next did => cases h : subst.getParamTy did <;> simp only [h]
  | .mk ident (some args), subst => by
    rw [resolvePathMut, resolvePath]
    rcases self.nameResTable ident with _ | res
    · rfl
    · cases res <;> try rfl
      · next did => cases h : subst.getParamTy did <;> simp only [h]
      · next did =>
        show andThen (self.resolveTysMut args subst) _ = _
        rw [resolveTysMut_eq args subst]
        exact andThen_eq fun _ => rfl

/-- The elements of a list are all resolved in the same scopes, also those after one that
fails. -/
theorem resolveTysMut_eq : ∀ (tys : List Syntax.Ty) (subst : Subst),
    self.resolveTysMut tys subst = (subst, self.resolveTys tys subst)
  | [], subst => by
    rw [resolveTysMut, resolveTys]
  | ty :: tys, subst => by
    rw [resolveTysMut, resolveTys, resolveTyMut_eq ty subst]
    show (_, _) = _
    rw [resolveTysMut_eq tys subst]

end

/-- Of `requires` the scopes come back. -/
lemma resolveRequiresMut_eq : self.resolveRequiresMut = self.resolveRequires := by
  funext st binding
  simp only [resolveRequiresMut, resolveRequires, resolveTyMut_eq]

/-- Of `ensures` the scopes come back. -/
lemma resolveEnsuresMut_eq : self.resolveEnsuresMut = self.resolveEnsures := by
  funext st binding
  cases h : st.subst.getRegion binding.1 with
  | none => simp only [resolveEnsuresMut, resolveEnsures, h, resolveTyMut_eq]
  | some name => simp only [resolveEnsuresMut, resolveEnsures, h, resolveTyMut_eq]

/-- The resolver with the scopes as a state is the resolver. -/
theorem runMut_eq : self.runMut = self.run := by
  funext fn_sig
  simp only [runMut, run, resolveRequiresMut_eq, resolveEnsuresMut_eq, resolveTysMut_eq,
    resolveTyMut_eq]

end Resolver

/-! ## What a name stands for -/

/-- A variable in the predicate of an existential, if `bind` is its binder, stands for the binder
if it has its name, and for the parameter of its name otherwise. -/
inductive VarResolves (bind : Option Ident) (params : List (Ident × Name)) (ident : Ident) :
    Var → Prop
  | bound : bind = some ident → VarResolves bind params ident .bound
  | free {name : Name} : bind ≠ some ident → (ident, name) ∈ params →
      VarResolves bind params ident (.free name)

/-- An expression whose variables are replaced by what they stand for. -/
inductive ExprResolves (bind : Option Ident) (params : List (Ident × Name)) :
    Syntax.Expr → Expr → Prop
  | var {ident : Ident} {x : Var} : VarResolves bind params ident x →
      ExprResolves bind params (.var ident) (.var x ident)
  | literal {lit : Syntax.Lit} {lit' : Lit} : resolveLit lit = .ok lit' →
      ExprResolves bind params (.literal lit) (.literal lit')
  | binaryOp {op : BinOp} {e1 e2 : Syntax.Expr} {e1' e2' : Expr} :
      ExprResolves bind params e1 e1' → ExprResolves bind params e2 e2' →
      ExprResolves bind params (.binaryOp op e1 e2) (.binaryOp op e1' e2')

/-- What the names in a type stand for: the paths, the type parameters, the parameters and the
locations, of which the last one with a name hides the others. -/
structure Scope where
  res : Symbol → Option Res
  types : DefId → Option ParamTy
  params : List (Ident × Name)
  locs : List (Ident × Name)

mutual

/-- A type whose names are replaced by what they stand for. Only the predicate of an existential
sees its binder. -/
inductive TyResolves (scope : Scope) : Syntax.Ty → Ty → Prop
  | baseTy {path : Syntax.Path} {bty : BaseTy} : PathResolves scope path bty →
      TyResolves scope (.baseTy path) (.exists_ bty .tt)
  | param {ident : Ident} {args : Option (List Syntax.Ty)} {did : DefId} {p : ParamTy} :
      scope.res ident = some (.tyParam did) → scope.types did = some p →
      TyResolves scope (.baseTy (.mk ident args)) (.param p)
  | refineTy {path : Syntax.Path} {bty : BaseTy} {refine : Syntax.Expr} {e : Expr} :
      PathResolves scope path bty → ExprResolves none scope.params refine e →
      TyResolves scope (.refineTy path refine) (.refine bty e)
  | exists_ {bind : Ident} {path : Syntax.Path} {bty : BaseTy} {pred : Syntax.Expr} {e : Expr} :
      PathResolves scope path bty → ExprResolves (some bind) scope.params pred e →
      TyResolves scope (.exists_ bind path pred) (.exists_ bty (.expr e))
  | mutRef {region : Ident} {name : Name} : scope.locs.lookup region = some name →
      TyResolves scope (.mutRef region) (.mutRef name)

/-- A path that stands for a base type. -/
inductive PathResolves (scope : Scope) : Syntax.Path → BaseTy → Prop
  | int {ident : Ident} {args : Option (List Syntax.Ty)} {int_ty : IntTy} :
      scope.res ident = some (.int int_ty) → PathResolves scope (.mk ident args) (.int int_ty)
  | uint {ident : Ident} {args : Option (List Syntax.Ty)} {uint_ty : UintTy} :
      scope.res ident = some (.uint uint_ty) → PathResolves scope (.mk ident args) (.uint uint_ty)
  | bool {ident : Ident} {args : Option (List Syntax.Ty)} :
      scope.res ident = some .bool → PathResolves scope (.mk ident args) .bool
  | struct {ident : Ident} {args : Option (List Syntax.Ty)} {did : DefId} {args' : List Ty} :
      scope.res ident = some (.struct did) → TysResolve scope (args.getD []) args' →
      PathResolves scope (.mk ident args) (.adt did args')

/-- A list of types whose names are replaced by what they stand for. -/
inductive TysResolve (scope : Scope) : List Syntax.Ty → List Ty → Prop
  | nil : TysResolve scope [] []
  | cons {ty : Syntax.Ty} {ty' : Ty} {tys : List Syntax.Ty} {tys' : List Ty} :
      TyResolves scope ty ty' → TysResolve scope tys tys' →
      TysResolve scope (ty :: tys) (ty' :: tys')

end

/-- `ParamsResolve params generics params' after` states that `params'` are the parameters
declared by `generics`, where `params` are declared already and `after` are declared afterwards.
A parameter is new, and is in scope in its own predicate. -/
inductive ParamsResolve : List (Ident × Name) → List Syntax.GenericParam → List Param →
    List (Ident × Name) → Prop
  | nil (params : List (Ident × Name)) : ParamsResolve params [] [] params
  | cons {params after : List (Ident × Name)} {generic : Syntax.GenericParam}
      {generics : List Syntax.GenericParam} {name : Name} {sort : Srt} {pred : Expr}
      {params' : List Param} :
      generic.name ∉ params.map Prod.fst → name ∉ params.map Prod.snd →
      resolveSort generic.sort = .ok sort →
      generic.pred.elim (pred = .tt)
        (ExprResolves none ((generic.name, name) :: params) · pred) →
      ParamsResolve ((generic.name, name) :: params) generics params' after →
      ParamsResolve params (generic :: generics) (⟨⟨name, generic.name⟩, sort, pred⟩ :: params')
        after

/-- `BindingsResolve Declares scope bindings bindings' after` states that the locations of
`bindings` are declared as those of `bindings'`, each as `Declares` says, from the ones in `scope`
on, and each is in scope in its own type. -/
inductive BindingsResolve (Declares : List (Ident × Name) → Ident → Name → Prop) : Scope →
    List (Ident × Syntax.Ty) → List (Name × Ty) → Scope → Prop
  | nil (scope : Scope) : BindingsResolve Declares scope [] [] scope
  | cons {scope after : Scope} {ident : Ident} {name : Name} {ty : Syntax.Ty} {ty' : Ty}
      {bindings : List (Ident × Syntax.Ty)} {bindings' : List (Name × Ty)} :
      Declares scope.locs ident name →
      TyResolves { scope with locs := (ident, name) :: scope.locs } ty ty' →
      BindingsResolve Declares { scope with locs := (ident, name) :: scope.locs } bindings
        bindings' after →
      BindingsResolve Declares scope ((ident, ty) :: bindings) ((name, ty') :: bindings') after

/-- A location that is new. -/
def NewLoc (locs : List (Ident × Name)) (_ : Ident) (name : Name) : Prop :=
  name ∉ locs.map Prod.snd

/-- The location in scope, or a new one if there is none. -/
def LocInScope (locs : List (Ident × Name)) (ident : Ident) (name : Name) : Prop :=
  locs.lookup ident = some name ∨ locs.lookup ident = none ∧ NewLoc locs ident name

/-- **A well-scoped signature.** Its names are what its annotation declares: `params` are the
parameters, and `locs` the locations of `requires`, in scope in the arguments. The return type
also sees those of `ensures`. -/
structure SigResolves (res : Symbol → Option Res) (types : DefId → Option ParamTy)
    (ast : Syntax.FnSig) (fn_sig : FnSig) : Prop where
  names_nodup : (fn_sig.params.map fun param => param.name.name).Nodup
  symbols_nodup : (fn_sig.params.map fun param => param.name.symbol).Nodup
  names : ∃ (params : List (Ident × Name)) (scope scope' : Scope),
    ParamsResolve [] ast.generics fn_sig.params params ∧
    (∀ ident name, (ident, name) ∈ params ↔
      ∃ param ∈ fn_sig.params, param.name = ⟨name, ident⟩) ∧
    BindingsResolve NewLoc ⟨res, types, params, []⟩ ast.requires fn_sig.requires scope ∧
    TysResolve scope ast.args fn_sig.args ∧
    BindingsResolve LocInScope scope ast.ensures fn_sig.ensures scope' ∧
    TyResolves scope' ast.ret fn_sig.ret

/-! ## The resolver gives names what they stand for -/

/-- A substitution with the names of a scope: one layer of parameters, and its locations. -/
structure Subst.Reads (subst : Subst) (scope : Scope) : Prop where
  exprs : subst.exprs = [scope.params.map fun p => (p.1, Var.free p.2)]
  regions : ∀ symb, subst.getRegion symb = scope.locs.lookup symb
  types : subst.getParamTy = scope.types

namespace Subst.Reads

variable {subst : Subst} {scope : Scope}

/-- The symbols of a layer of parameters are looked up among the parameters. -/
lemma mem_of_lookup_map {params : List (Ident × Name)} {ident : Ident} {x : Var}
    (h : (params.map fun p => (p.1, Var.free p.2)).lookup ident = some x) :
    ∃ name, x = .free name ∧ (ident, name) ∈ params := by
  induction params with
  | nil => simp at h
  | cons p params ih =>
    rw [List.map_cons, List.lookup_cons] at h
    split at h
    · next heq =>
      have heq : ident = p.1 := by simpa using heq
      exact ⟨p.2, (Option.some.inj h).symm, heq ▸ .head _⟩
    · obtain ⟨name, hx, hmem⟩ := ih h
      exact ⟨name, hx, .tail _ hmem⟩

/-- A variable that is found is a parameter in scope. -/
lemma getExpr (hs : subst.Reads scope) {ident : Ident} {x : Var}
    (h : subst.getExpr ident = some x) : VarResolves none scope.params ident x := by
  rw [Subst.getExpr, hs.exprs, ScopeMap.get, List.findSome?_singleton] at h
  obtain ⟨name, rfl, hmem⟩ := mem_of_lookup_map h
  exact .free (by simp) hmem

/-- In the predicate of an existential the binder hides the parameter of its name. -/
lemma getExpr_bind (hs : subst.Reads scope) {bind ident : Ident} {x : Var}
    (h : (subst.pushExprLayer.insertExpr bind .bound).1.getExpr ident = some x) :
    VarResolves (some bind) scope.params ident x := by
  have htop : subst.exprs.pushLayer.containsKeyAtTop bind = false := rfl
  have hexprs : (subst.pushExprLayer.insertExpr bind .bound).1.exprs =
      [(bind, .bound)] :: subst.exprs := by
    simp only [Subst.insertExpr, Subst.pushExprLayer, htop]
    rfl
  rw [Subst.getExpr, hexprs, ScopeMap.get, List.findSome?_cons, List.lookup_cons] at h
  by_cases hi : ident = bind
  · have hx : x = .bound := by simpa [hi] using h.symm
    rw [hx, hi]
    exact .bound rfl
  · have hne : (ident == bind) = false := by simpa using hi
    simp only [hne, List.lookup_nil] at h
    rw [hs.exprs, List.findSome?_singleton] at h
    obtain ⟨name, rfl, hmem⟩ := mem_of_lookup_map h
    exact .free (fun hb => hi (Option.some.inj hb).symm) hmem

/-- What is found is in the scope. -/
lemma mem_of_lookup {locs : List (Ident × Name)} {ident : Ident} {name : Name}
    (h : locs.lookup ident = some name) : (ident, name) ∈ locs := by
  obtain ⟨l₁, l₂, rfl, -⟩ := List.lookup_eq_some_iff.mp h
  simp

/-- A location that is declared hides the one of its name. -/
lemma insertRegion (hs : subst.Reads scope) (symb : Symbol) (name : Name) :
    (subst.insertRegion symb name).Reads
      { scope with locs := (symb, name) :: scope.locs } := by
  refine ⟨hs.exprs, fun symb' => ?_, hs.types⟩
  rw [List.lookup_cons]
  by_cases h : symb' = symb
  · simp [Subst.insertRegion, Subst.getRegion, h]
  · have hne : (symb' == symb) = false := by simpa using h
    rw [hne]
    exact (Function.update_of_ne h _ _).trans (hs.regions symb')

/-- A location that is in scope can be declared again. -/
lemma declare_again (hs : subst.Reads scope) {symb : Symbol} {name : Name}
    (h : scope.locs.lookup symb = some name) :
    subst.Reads { scope with locs := (symb, name) :: scope.locs } := by
  refine ⟨hs.exprs, fun symb' => ?_, hs.types⟩
  rw [List.lookup_cons]
  by_cases hs' : symb' = symb
  · rw [hs', hs.regions, h, beq_self_eq_true]
  · have hne : (symb' == symb) = false := by simpa using hs'
    rw [hne]
    exact hs.regions symb'

end Subst.Reads

/-- An expression is resolved if its variables are. -/
lemma resolveExpr_resolves {subst : Subst} {bind : Option Ident} {params : List (Ident × Name)}
    (hs : ∀ ident x, subst.getExpr ident = some x → VarResolves bind params ident x)
    {e : Syntax.Expr} {e' : Expr} (h : resolveExpr e subst = .ok e') :
    ExprResolves bind params e e' := by
  induction e generalizing e' with
  | var ident =>
    obtain ⟨x, hx, he⟩ := bind_eq_ok.mp h
    cases he
    unfold resolveVar at hx
    split at hx
    · next y hy => exact .var (hs ident x (hy.trans (congrArg some (ok.inj hx))))
    · cases hx
  | literal lit =>
    obtain ⟨lit', hlit, he⟩ := bind_eq_ok.mp h
    cases he
    exact .literal hlit
  | binaryOp op e1 e2 ih1 ih2 =>
    obtain ⟨⟨e1', e2'⟩, he, he'⟩ := bind_eq_ok.mp h
    cases he'
    obtain ⟨h1, h2⟩ := both_eq_ok.mp he
    exact .binaryOp (ih1 h1) (ih2 h2)

namespace Resolver

variable {self : Resolver}

section Types

variable {subst : Subst} {scope : Scope}

/-- A path that stands for a type parameter. -/
lemma resolvePath_paramTy (hs : subst.Reads scope) (hres : self.nameResTable = scope.res)
    {ident : Ident} {args : Option (List Syntax.Ty)} {p : ParamTy}
    (h : self.resolvePath (.mk ident args) subst = .ok (.paramTy p)) :
    ∃ did, scope.res ident = some (.tyParam did) ∧ scope.types did = some p := by
  rw [resolvePath, hres] at h
  rcases hi : scope.res ident with _ | res
  · rw [hi] at h
    cases h
  cases res <;> simp only [hi] at h
  case tyParam did =>
    refine ⟨did, rfl, ?_⟩
    rw [hs.types] at h
    cases ht : scope.types did with
    | none => simp [ht] at h
    | some p' =>
      simp only [ht, ok.injEq, ParamTyOrBaseTy.paramTy.injEq] at h
      rw [h]
  case struct did =>
    cases args with
    | none => cases h
    | some args =>
      obtain ⟨args', -, h⟩ := bind_eq_ok.mp h
      cases h
  all_goals cases h

mutual

/-- **The names of a resolved type are what they stand for.** -/
theorem resolveTy_resolves (hs : subst.Reads scope) (hres : self.nameResTable = scope.res) :
    ∀ (ty : Syntax.Ty) {ty' : Ty}, self.resolveTy ty subst = .ok ty' → TyResolves scope ty ty'
  | .baseTy (.mk ident args), ty', h => by
    rw [resolveTy] at h
    obtain ⟨p, hp, h⟩ := bind_eq_ok.mp h
    cases p <;> cases h
    · exact .baseTy (resolvePath_resolves hs hres _ hp)
    · obtain ⟨did, hdid, htypes⟩ := resolvePath_paramTy hs hres hp
      exact .param hdid htypes
  | .refineTy path refine, ty', h => by
    rw [resolveTy] at h
    obtain ⟨p, hp, h⟩ := bind_eq_ok.mp h
    cases p with
    | baseTy bty =>
      obtain ⟨e, he, h⟩ := bind_eq_ok.mp h
      cases h
      exact .refineTy (resolvePath_resolves hs hres _ hp)
        (resolveExpr_resolves (fun _ _ hx => hs.getExpr hx) he)
    | paramTy p => cases h
  | .exists_ bind path pred, ty', h => by
    rw [resolveTy] at h
    obtain ⟨p, hp, h⟩ := bind_eq_ok.mp h
    cases p with
    | baseTy bty =>
      obtain ⟨e, he, h⟩ := bind_eq_ok.mp h
      cases h
      exact .exists_ (resolvePath_resolves hs hres _ hp)
        (resolveExpr_resolves (fun _ _ hx => hs.getExpr_bind hx) he)
    | paramTy p => cases h
  | .mutRef region, ty', h => by
    rw [resolveTy, hs.regions] at h
    split at h
    · next name hname =>
      cases h
      exact .mutRef hname
    · cases h

/-- The names of a resolved path are what they stand for. -/
theorem resolvePath_resolves (hs : subst.Reads scope) (hres : self.nameResTable = scope.res) :
    ∀ (path : Syntax.Path) {bty : BaseTy}, self.resolvePath path subst = .ok (.baseTy bty) →
      PathResolves scope path bty
  | .mk ident none, bty, h => by
    rw [resolvePath, hres] at h
    rcases hi : scope.res ident with _ | res
    · rw [hi] at h
      cases h
    cases res <;> simp only [hi] at h
    case tyParam did => split at h <;> cases h
    all_goals cases h
    case some.struct.refl => exact .struct hi .nil
    case some.int.refl => exact .int hi
    case some.uint.refl => exact .uint hi
    case some.bool.refl => exact .bool hi
  | .mk ident (some args), bty, h => by
    rw [resolvePath, hres] at h
    rcases hi : scope.res ident with _ | res
    · rw [hi] at h
      cases h
    cases res <;> simp only [hi] at h
    case tyParam did => split at h <;> cases h
    case struct did =>
      obtain ⟨args', hargs, h⟩ := bind_eq_ok.mp h
      cases h
      exact .struct hi (resolveTys_resolve hs hres args hargs)
    all_goals cases h
    case some.int.refl => exact .int hi
    case some.uint.refl => exact .uint hi
    case some.bool.refl => exact .bool hi

/-- The names of resolved types are what they stand for. -/
theorem resolveTys_resolve (hs : subst.Reads scope) (hres : self.nameResTable = scope.res) :
    ∀ (tys : List Syntax.Ty) {tys' : List Ty}, self.resolveTys tys subst = .ok tys' →
      TysResolve scope tys tys'
  | [], tys', h => by
    rw [resolveTys] at h
    cases h
    exact .nil
  | ty :: tys, tys', h => by
    rw [resolveTys] at h
    obtain ⟨⟨ty', tys'⟩, hp, rfl⟩ := map_eq_ok.mp h
    obtain ⟨h1, h2⟩ := both_eq_ok.mp hp
    exact .cons (resolveTy_resolves hs hres ty h1) (resolveTys_resolve hs hres tys h2)

end

end Types

/-! ### Signatures -/

/-- A resolved parameter is new, and the ones after it are resolved in a scope that has it. -/
lemma resolveParam_resolves {st st' : State} {scope : Scope} {generic : Syntax.GenericParam}
    {param : Param} (hs : st.subst.Reads scope) (h : resolveParam st generic = (st', .ok param)) :
    ∃ sort pred, param = ⟨⟨st.nameGen, generic.name⟩, sort, pred⟩ ∧
      generic.name ∉ scope.params.map Prod.fst ∧ resolveSort generic.sort = .ok sort ∧
      generic.pred.elim (pred = .tt)
        (ExprResolves none ((generic.name, st.nameGen) :: scope.params) · pred) ∧
      st'.nameGen = st.nameGen + 1 ∧
      st'.subst.Reads { scope with params := (generic.name, st.nameGen) :: scope.params } := by
  by_cases htop : st.subst.exprs.containsKeyAtTop generic.name
  · -- the name is taken: the entry that is there makes the resolver fail
    have hsome : ∃ x, st.subst.exprs.get generic.name = some x := by
      rw [hs.exprs] at htop ⊢
      simpa [ScopeMap.get, Option.isSome_iff_exists, ScopeMap.containsKeyAtTop] using htop
    obtain ⟨x, hx⟩ := hsome
    simp only [resolveParam, Subst.insertExpr, htop, if_true, hx] at h
    cases (Prod.mk.inj h).2
  have hinsert : st.subst.insertExpr generic.name (.free st.nameGen) =
      ({ st.subst with exprs := st.subst.exprs.define generic.name (.free st.nameGen) }, none) := by
    rw [Subst.insertExpr, if_neg htop]
  have hs' : (st.subst.insertExpr generic.name (.free st.nameGen)).1.Reads
      { scope with params := (generic.name, st.nameGen) :: scope.params } := by
    rw [hinsert]
    refine ⟨?_, hs.regions, hs.types⟩
    show st.subst.exprs.define _ _ = _
    rw [hs.exprs]
    rfl
  rw [hinsert] at hs'
  simp only [resolveParam, hinsert] at h
  obtain ⟨rfl, hp⟩ := Prod.mk.inj h
  obtain ⟨⟨sort, pred⟩, hboth, rfl⟩ := map_eq_ok.mp hp
  obtain ⟨hsort, hpred⟩ := both_eq_ok.mp hboth
  refine ⟨sort, pred, rfl, fun hmem => htop ?_, hsort, ?_, rfl, hs'⟩
  · rw [hs.exprs, ScopeMap.containsKeyAtTop, List.lookup_isSome_iff]
    obtain ⟨p, hp, hname⟩ := List.mem_map.mp hmem
    exact ⟨_, List.mem_map_of_mem hp, by simp [hname]⟩
  · cases hparam : generic.pred with
    | some expr =>
      rw [hparam] at hpred
      exact resolveExpr_resolves (fun _ _ hx => hs'.getExpr hx) hpred
    | none =>
      rw [hparam] at hpred
      exact (ok.inj hpred).symm

/-- **Resolved parameters are the declared ones.** -/
lemma resolveParams_resolve {st st' : State} {scope : Scope}
    {generics : List Syntax.GenericParam} {params : List Param} (hs : st.subst.Reads scope)
    (hg : st.Generated (scope.params.map Prod.snd))
    (h : tryCollectExhaust resolveParam st generics = (st', .ok params)) :
    ∃ after, ParamsResolve scope.params generics params after ∧
      st'.subst.Reads { scope with params := after } := by
  induction generics generalizing st scope params with
  | nil =>
    cases h
    exact ⟨_, .nil _, hs⟩
  | cons generic generics ih =>
    obtain ⟨st₁, param, params', h1, h2, rfl⟩ := tryCollectExhaust_eq_ok.mp h
    obtain ⟨sort, pred, rfl, hnew, hsort, hpred, hgen, hs₁⟩ := resolveParam_resolves hs h1
    have hfresh : st.nameGen ∉ scope.params.map Prod.snd := fun hn => Nat.lt_irrefl _ (hg _ hn)
    have hg₁ : st₁.Generated (((generic.name, st.nameGen) :: scope.params).map Prod.snd) := by
      intro name hn
      rw [hgen]
      rcases List.mem_cons.mp hn with rfl | hn
      · exact Nat.lt_succ_self _
      · exact Nat.lt_succ_of_lt (hg name hn)
    obtain ⟨after, hps, hs'⟩ := ih hs₁ hg₁ h2
    exact ⟨after, .cons hnew hfresh hsort hpred hps, hs'⟩

/-- **The bindings of `requires` declare new locations.** -/
lemma resolveRequires_resolve {st st' : State} {scope : Scope}
    {bindings : List (Ident × Syntax.Ty)} {bindings' : List (Name × Ty)}
    (hs : st.subst.Reads scope) (hres : self.nameResTable = scope.res)
    (hg : st.Generated (scope.locs.map Prod.snd))
    (h : tryCollectExhaust self.resolveRequires st bindings = (st', .ok bindings')) :
    ∃ after, BindingsResolve NewLoc scope bindings bindings' after ∧ st'.subst.Reads after ∧
      after.res = scope.res ∧ st'.Generated (after.locs.map Prod.snd) := by
  induction bindings generalizing st scope bindings' with
  | nil =>
    cases h
    exact ⟨scope, .nil _, hs, rfl, hg⟩
  | cons binding bindings ih =>
    obtain ⟨st₁, b, bs, h1, h2, rfl⟩ := tryCollectExhaust_eq_ok.mp h
    obtain ⟨rfl, hb⟩ := Prod.mk.inj h1
    obtain ⟨ty, hty, rfl⟩ := map_eq_ok.mp hb
    have hs₁ := hs.insertRegion binding.1 st.nameGen
    have hg₁ : (State.mk (st.subst.insertRegion binding.1 st.nameGen)
        (st.nameGen + 1)).Generated (((binding.1, st.nameGen) :: scope.locs).map Prod.snd) := by
      intro name hn
      rcases List.mem_cons.mp hn with rfl | hn
      · exact Nat.lt_succ_self _
      · exact Nat.lt_succ_of_lt (hg name hn)
    have hres₁ : self.nameResTable =
        ({ scope with locs := (binding.1, st.nameGen) :: scope.locs } : Scope).res := hres
    obtain ⟨after, hbs, hs', hres', hg'⟩ := ih hs₁ hres₁ hg₁ h2
    exact ⟨after, .cons (fun hn => Nat.lt_irrefl _ (hg _ hn)) (resolveTy_resolves hs₁ hres _ hty)
      hbs, hs', hres', hg'⟩

/-- **The bindings of `ensures` declare the locations in scope, or new ones.** -/
lemma resolveEnsures_resolve {st st' : State} {scope : Scope}
    {bindings : List (Ident × Syntax.Ty)} {bindings' : List (Name × Ty)}
    (hs : st.subst.Reads scope) (hres : self.nameResTable = scope.res)
    (hg : st.Generated (scope.locs.map Prod.snd))
    (h : tryCollectExhaust self.resolveEnsures st bindings = (st', .ok bindings')) :
    ∃ after, BindingsResolve LocInScope scope bindings bindings' after ∧ st'.subst.Reads after ∧
      after.res = scope.res := by
  induction bindings generalizing st scope bindings' with
  | nil =>
    cases h
    exact ⟨scope, .nil _, hs, rfl⟩
  | cons binding bindings ih =>
    obtain ⟨st₁, b, bs, h1, h2, rfl⟩ := tryCollectExhaust_eq_ok.mp h
    have hb : ∃ name ty, b = (name, ty) ∧ self.resolveTy binding.2 st₁.subst = .ok ty ∧
        LocInScope scope.locs binding.1 name ∧
        st₁.subst.Reads { scope with locs := (binding.1, name) :: scope.locs } ∧
        st₁.Generated (((binding.1, name) :: scope.locs).map Prod.snd) := by
      unfold resolveEnsures at h1
      rw [hs.regions] at h1
      split at h1
      · next name hname =>
        obtain ⟨rfl, hb⟩ := Prod.mk.inj h1
        obtain ⟨ty, hty, rfl⟩ := map_eq_ok.mp hb
        refine ⟨name, ty, rfl, hty, .inl hname, hs.declare_again hname, fun n hn => ?_⟩
        rcases List.mem_cons.mp hn with rfl | hn
        · exact hg _ (List.mem_map_of_mem (f := Prod.snd) (Subst.Reads.mem_of_lookup hname))
        · exact hg n hn
      · next hname =>
        obtain ⟨rfl, hb⟩ := Prod.mk.inj h1
        obtain ⟨ty, hty, rfl⟩ := map_eq_ok.mp hb
        refine ⟨_, ty, rfl, hty, .inr ⟨hname, fun hn => Nat.lt_irrefl _ (hg _ hn)⟩,
          hs.insertRegion _ _, fun n hn => ?_⟩
        rcases List.mem_cons.mp hn with rfl | hn
        · exact Nat.lt_succ_self _
        · exact Nat.lt_succ_of_lt (hg n hn)
    obtain ⟨name, ty, rfl, hty, hdecl, hs₁, hg₁⟩ := hb
    obtain ⟨after, hbs, hs', hres'⟩ := ih hs₁ hres hg₁ h2
    exact ⟨after, .cons hdecl (resolveTy_resolves hs₁ hres _ hty) hbs, hs', hres'⟩

/-- The substitution that the resolver starts with has no parameters and no locations. -/
lemma initialSubst_reads {subst : Subst} (h : self.initialSubst = .ok subst) :
    subst.Reads ⟨self.nameResTable, subst.getParamTy, [], []⟩ := by
  obtain ⟨hexprs, hregions⟩ := initialSubst_names h
  refine ⟨hexprs, fun symb => ?_, rfl⟩
  rw [Subst.getRegion, hregions]
  rfl

end Resolver

/-- What is declared after parameters are declared: they and the ones before. -/
lemma ParamsResolve.after_eq {before after : List (Ident × Name)}
    {generics : List Syntax.GenericParam} {params : List Param}
    (h : ParamsResolve before generics params after) :
    after = (params.map fun param => (param.name.symbol, param.name.name)).reverse ++ before := by
  induction h with
  | nil params => rfl
  | cons _ _ _ _ _ ih => simp [ih]

/-- Distinct names stay distinct. -/
lemma ParamsResolve.nodup {before after : List (Ident × Name)}
    {generics : List Syntax.GenericParam} {params : List Param}
    (h : ParamsResolve before generics params after) (hfst : (before.map Prod.fst).Nodup)
    (hsnd : (before.map Prod.snd).Nodup) :
    (after.map Prod.fst).Nodup ∧ (after.map Prod.snd).Nodup := by
  induction h with
  | nil params => exact ⟨hfst, hsnd⟩
  | cons hident hname _ _ _ ih =>
    exact ih (List.nodup_cons.mpr ⟨hident, hfst⟩) (List.nodup_cons.mpr ⟨hname, hsnd⟩)

namespace Resolver

variable {self : Resolver}

/-- **Resolution yields well-scoped signatures**, and a type that is resolved, or that fails to
be, leaves the scopes unchanged.

**Proof sketch.** The scopes are restored, so the resolver is the one that passes them down. There
the substitution has one layer, the parameters declared so far, and below a binder a second one
with the binder only. Each name is looked up in these. -/
theorem runMut_names (self : Resolver) :
    (∀ ty subst, (self.resolveTyMut ty subst).1 = subst) ∧
      ∀ ast fn_sig, self.runMut ast = .ok fn_sig →
        ∃ subst, self.initialSubst = .ok subst ∧
          SigResolves self.nameResTable subst.getParamTy ast fn_sig := by
  refine ⟨fun ty subst => congrArg Prod.fst (resolveTyMut_eq ty subst), fun ast fn_sig h => ?_⟩
  rw [runMut_eq] at h
  obtain ⟨subst, hsubst, h⟩ := bind_eq_ok.mp h
  obtain ⟨⟨params, requires, args, ensures, ret⟩, hall, h⟩ := bind_eq_ok.mp h
  cases h
  simp only [both_eq_ok] at hall
  obtain ⟨hparams, hrequires, hargs, hensures, hret⟩ := hall
  obtain ⟨declared, hps, hs₁⟩ := resolveParams_resolve (initialSubst_reads hsubst)
    (fun _ hn => by simp at hn) (Prod.ext rfl hparams)
  obtain ⟨scope, hreq, hs₂, hres, hg⟩ := resolveRequires_resolve hs₁ rfl
    (fun _ hn => by simp at hn) (Prod.ext rfl hrequires)
  obtain ⟨scope', hens, hs₃, hres'⟩ := resolveEnsures_resolve hs₂ hres.symm hg
    (Prod.ext rfl hensures)
  have hafter := hps.after_eq
  obtain ⟨hfst, hsnd⟩ := hps.nodup List.nodup_nil List.nodup_nil
  rw [hafter] at hfst hsnd
  refine ⟨subst, hsubst, ?_, ?_, declared, scope, scope', hps, fun ident name => ?_, hreq,
    resolveTys_resolve hs₂ hres.symm _ hargs, hens,
    resolveTy_resolves hs₃ (hres.symm.trans hres'.symm) _ hret⟩
  · simpa [List.map_reverse, List.nodup_reverse, Function.comp_def] using hsnd
  · simpa [List.map_reverse, List.nodup_reverse, Function.comp_def] using hfst
  · subst hafter
    simp only [List.append_nil, List.mem_reverse, List.mem_map, Prod.mk.injEq]
    constructor
    · rintro ⟨param, hmem, rfl, rfl⟩
      exact ⟨param, hmem, rfl⟩
    · rintro ⟨param, hmem, hname⟩
      exact ⟨param, hmem, by rw [hname], by rw [hname]⟩

/-- The names of the signature `fn<n: int>(l: {n. i32 | n}; ref<l>) -> i32@n`: the binder of the
existential hides the parameter, and below the arguments the parameter is seen again. -/
theorem runMut_names_shadow :
    ∃ fn_sig, i32Resolver.runMut
        ⟨[⟨"n", "int", none⟩], [("l", .exists_ "n" i32Path (.var "n"))], [.mutRef "l"],
          .refineTy i32Path (.var "n"), []⟩ = .ok fn_sig ∧
      fn_sig.requires = [(1, .exists_ (.int .i32) (.expr (.var .bound "n")))] ∧
      SigResolves i32Resolver.nameResTable (fun _ => none)
        ⟨[⟨"n", "int", none⟩], [("l", .exists_ "n" i32Path (.var "n"))], [.mutRef "l"],
          .refineTy i32Path (.var "n"), []⟩ fn_sig := by
  have hrun : ∃ fn_sig, i32Resolver.runMut
        ⟨[⟨"n", "int", none⟩], [("l", .exists_ "n" i32Path (.var "n"))], [.mutRef "l"],
          .refineTy i32Path (.var "n"), []⟩ = .ok fn_sig ∧
      fn_sig.requires = [(1, .exists_ (.int .i32) (.expr (.var .bound "n")))] := ⟨_, rfl, rfl⟩
  obtain ⟨fn_sig, hrun, hrequires⟩ := hrun
  obtain ⟨subst, hsubst, h⟩ := (runMut_names i32Resolver).2 _ _ hrun
  cases hsubst
  exact ⟨fn_sig, hrun, hrequires, h⟩

end Resolver

end LiquidRust.Driver
