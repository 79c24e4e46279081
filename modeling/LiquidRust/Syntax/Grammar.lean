import LiquidRust.Lib.InfixReading
import LiquidRust.Syntax.Lexer

set_option relaxedAutoImplicit false
set_option autoImplicit false

/-!
# The grammar of annotations

The grammar of `liquid-rust-syntax/src/grammar.lalrpop`, as a relation between lists of tokens and
what they stand for. It is unambiguous.

## Main definitions

* `LiquidRust.Syntax.Grammar.Level` — expressions, by the levels of the operators.
* `LiquidRust.Syntax.Grammar.Ty`, `Path` — types and paths.
* `LiquidRust.Syntax.Grammar.FnSig` — signatures.

## Main results

* `LiquidRust.Syntax.Grammar.FnSig.unique` — a list of tokens stands for at most one signature.
* `LiquidRust.Syntax.Grammar.FnSig.invalid_not_mem` — a signature has no invalid tokens.
-/

namespace LiquidRust.Syntax

/-- The token of an operator. -/
def BinOp.token : BinOp → Token
  | .iff => .iff
  | .imp => .fatArrow
  | .or => .orOr
  | .and => .andAnd
  | .eq => .eqEq
  | .lt => .lt
  | .le => .le
  | .gt => .gt
  | .ge => .ge
  | .add => .plus
  | .sub => .minus

/-- The level of an operator: `BinOp1` to `BinOp6`. -/
def BinOp.level : BinOp → ℕ
  | .iff => 1
  | .imp => 2
  | .or => 3
  | .and => 4
  | .eq | .gt | .ge | .lt | .le => 5
  | .add | .sub => 6

namespace Grammar

/-- The levels whose operators are not associative. The others are associative to the left. -/
def IsNonAssoc (k : ℕ) : Prop :=
  k = 1 ∨ k = 5

/-- `Level1` to `Level7`. -/
inductive Level : ℕ → List Token → Expr → Prop
  | nonAssoc {op : BinOp} {u1 u2 : List Token} {e1 e2 : Expr} : IsNonAssoc op.level →
      Level (op.level + 1) u1 e1 → Level (op.level + 1) u2 e2 →
      Level op.level (u1 ++ op.token :: u2) (.binaryOp op e1 e2)
  | leftAssoc {op : BinOp} {u1 u2 : List Token} {e1 e2 : Expr} : ¬IsNonAssoc op.level →
      Level op.level u1 e1 → Level (op.level + 1) u2 e2 →
      Level op.level (u1 ++ op.token :: u2) (.binaryOp op e1 e2)
  | next {k : ℕ} {u : List Token} {e : Expr} : 1 ≤ k → k ≤ 6 → Level (k + 1) u e → Level k u e
  | lit (lit : Lit) : Level 7 [.literal lit] (.literal lit)
  | var (ident : Ident) : Level 7 [.ident ident] (.var ident)
  | paren {u : List Token} {e : Expr} : Level 1 u e →
      Level 7 (.openDelim .paren :: u ++ [.closeDelim .paren]) e

/-- A refinement is a literal, a variable or an expression in braces. -/
inductive Refinement : List Token → Expr → Prop
  | lit (lit : Lit) : Refinement [.literal lit] (.literal lit)
  | var (ident : Ident) : Refinement [.ident ident] (.var ident)
  | brace {u : List Token} {e : Expr} : Level 1 u e →
      Refinement (.openDelim .brace :: u ++ [.closeDelim .brace]) e

/-- Elements with commas between them, and possibly one after the last. -/
inductive Comma {α : Type} (T : List Token → α → Prop) : List Token → List α → Prop
  | nil : Comma T [] []
  | last {u : List Token} {a : α} : T u a → Comma T u [a]
  | cons {u v : List Token} {a : α} {as : List α} : T u a → Comma T v as →
      Comma T (u ++ .comma :: v) (a :: as)

mutual

/-- Types. -/
inductive Ty : List Token → Syntax.Ty → Prop
  | baseTy {u : List Token} {path : Syntax.Path} : Path u path → Ty u (.baseTy path)
  | refineTy {u v : List Token} {path : Syntax.Path} {refine : Expr} : Path u path →
      Refinement v refine → Ty (u ++ .at :: v) (.refineTy path refine)
  | exists_ {u v : List Token} {path : Syntax.Path} {bind : Ident} {pred : Expr} : Path u path →
      Level 1 v pred →
      Ty (u ++ .openDelim .brace :: .ident bind :: .colon :: v ++ [.closeDelim .brace])
        (.exists_ bind path pred)
  | mutRef (region : Ident) : Ty [.ref, .lt, .ident region, .gt] (.mutRef region)

/-- Paths. -/
inductive Path : List Token → Syntax.Path → Prop
  | plain (ident : Ident) : Path [.ident ident] (.mk ident none)
  | generic {ident : Ident} {u : List Token} {args : List Syntax.Ty} : Comma Ty u args →
      Path (.ident ident :: .lt :: u ++ [.gt]) (.mk ident (some args))

end

/-- Parameters of a signature. -/
inductive GenericParam : List Token → Syntax.GenericParam → Prop
  | pred {u : List Token} {name sort : Ident} {pred : Expr} : Level 1 u pred →
      GenericParam (.ident name :: .colon :: .ident sort :: .openDelim .brace :: u ++
        [.closeDelim .brace]) ⟨name, sort, some pred⟩
  | plain (name sort : Ident) :
      GenericParam [.ident name, .colon, .ident sort] ⟨name, sort, none⟩

/-- The parameters of a signature, in angle brackets. -/
inductive Generics : List Token → List Syntax.GenericParam → Prop
  | params {u : List Token} {params : List Syntax.GenericParam} : Comma GenericParam u params →
      Generics (.lt :: u ++ [.gt]) params
  | empty : Generics [] []

/-- One element of `Env`. -/
inductive Binding : List Token → Ident × Syntax.Ty → Prop
  | mk {u : List Token} {ty : Syntax.Ty} (ident : Ident) : Ty u ty →
      Binding (.ident ident :: .colon :: u) (ident, ty)

/-- `(<Env> ";")?`. -/
inductive Requires : List Token → List (Ident × Syntax.Ty) → Prop
  | some {u : List Token} {requires : List (Ident × Syntax.Ty)} : Comma Binding u requires →
      Requires (u ++ [.semi]) requires
  | none : Requires [] []

/-- `(";" <Env>)?`. -/
inductive Ensures : List Token → List (Ident × Syntax.Ty) → Prop
  | some {u : List Token} {ensures : List (Ident × Syntax.Ty)} : Comma Binding u ensures →
      Ensures (.semi :: u) ensures
  | none : Ensures [] []

/-- **Signatures.** -/
inductive FnSig : List Token → Syntax.FnSig → Prop
  | mk {u v w x y : List Token} {generics : List Syntax.GenericParam}
      {requires ensures : List (Ident × Syntax.Ty)} {args : List Syntax.Ty} {ret : Syntax.Ty} :
      Generics u generics → Requires v requires → Comma Ty w args → Ty x ret →
      Ensures y ensures →
      FnSig (.fn :: u ++ .openDelim .paren :: v ++ w ++ .closeDelim .paren :: .rArrow :: x ++ y)
        ⟨generics, requires, args, ret, ensures⟩

/-! ## Expressions are read in one way -/

open Lib Lib.InfixAlgebra

/-- A token as one of infix notation. -/
def infixTok : Token → Tok Token Empty BinOp
  | .iff => .binary .iff
  | .fatArrow => .binary .imp
  | .orOr => .binary .or
  | .andAnd => .binary .and
  | .eqEq => .binary .eq
  | .lt => .binary .lt
  | .le => .binary .le
  | .gt => .binary .gt
  | .ge => .binary .ge
  | .plus => .binary .add
  | .minus => .binary .sub
  | .openDelim .paren => .lparen
  | .closeDelim .paren => .rparen
  | t => .leaf t

/-- The token of an operator reads back as that operator. -/
@[simp] lemma infixTok_token (op : BinOp) : infixTok op.token = .binary op := by
  cases op <;> rfl

/-- The expressions that tokens stand for. -/
def exprAlgebra : InfixAlgebra Token Empty BinOp (Option Expr) where
  leaf
    | .literal lit => some (.literal lit)
    | .ident ident => some (.var ident)
    | _ => none
  unary u _ := u.elim
  binary op e1 e2 := do
    let e1 ← e1
    let e2 ← e2
    pure (.binaryOp op e1 e2)

/-- What follows an expression of a level. -/
abbrev Stops (k : ℕ) (r : List (Tok Token Empty BinOp)) : Prop :=
  StopsAt BinOp.level k r

/-- A reader of an expression of level `k` reads it, and goes on with the operators of the level. -/
lemma Level.reads {k : ℕ} {u : List Token} {e : Expr} (h : Level k u e) :
    ∀ r, Stops (k + 1) r → ∃ x ts, Reads exprAlgebra BinOp.level none (u.map infixTok ++ r) x ts ∧
      ∀ e' rest, Reads exprAlgebra BinOp.level (some (k, some e)) r e' rest →
        Reads exprAlgebra BinOp.level (some (k, x)) ts e' rest := by
  induction h with
  | @nonAssoc op u1 u2 e1 e2 _ _ _ ih1 ih2 =>
    intro r hr
    have hop : Stops (op.level + 1) (.binary op :: (u2.map infixTok ++ r)) :=
      stopsAt_binary (Nat.lt_succ_self _) _
    obtain ⟨x, ts, hx, hgo⟩ := ih1 _ (hop.mono (Nat.le_succ _))
    obtain ⟨y, ts', hy, hgo'⟩ := ih2 r (hr.mono (Nat.le_succ _))
    refine ⟨x, ts, by simpa using hx, fun e' rest h => ?_⟩
    have hsecond : ReadsFrom exprAlgebra BinOp.level (op.level + 1) (u2.map infixTok ++ r)
        (some e2) r := ⟨y, ts', hy, hgo' _ _ (.stop _ _ _ hr)⟩
    exact (hgo _ _ (.stop _ _ _ hop)).goOn (Nat.le_succ _) (hsecond.binary (Nat.le_refl _) h)
  | @leftAssoc op u1 u2 e1 e2 _ _ _ ih1 ih2 =>
    intro r hr
    have hop : Stops (op.level + 1) (.binary op :: (u2.map infixTok ++ r)) :=
      stopsAt_binary (Nat.lt_succ_self _) _
    obtain ⟨x, ts, hx, hgo⟩ := ih1 _ hop
    obtain ⟨y, ts', hy, hgo'⟩ := ih2 r (hr.mono (Nat.le_succ _))
    refine ⟨x, ts, by simpa using hx, fun e' rest h => ?_⟩
    have hsecond : ReadsFrom exprAlgebra BinOp.level (op.level + 1) (u2.map infixTok ++ r)
        (some e2) r := ⟨y, ts', hy, hgo' _ _ (.stop _ _ _ hr)⟩
    exact hgo _ _ (hsecond.binary (Nat.le_refl _) h)
  | @next k u e _ _ _ ih =>
    intro r hr
    obtain ⟨x, ts, hx, hgo⟩ := ih r (hr.mono (Nat.le_succ _))
    exact ⟨x, ts, hx, fun e' rest h => (hgo _ _ (.stop _ _ _ hr)).goOn (Nat.le_succ _) h⟩
  | lit lit => exact fun r _ => ⟨some (.literal lit), r, .leaf (.literal lit) r, fun _ _ h => h⟩
  | var ident => exact fun r _ => ⟨some (.var ident), r, .leaf (.ident ident) r, fun _ _ h => h⟩
  | @paren u e _ ih =>
    intro r _
    have hr : ∀ k, Stops k (.rparen :: r) := fun k => stopsAt_rparen k r
    obtain ⟨x, ts, hx, hgo⟩ := ih (.rparen :: r) (hr _)
    have hread : ReadsFrom exprAlgebra BinOp.level 0 (u.map infixTok ++ .rparen :: r) (some e)
        (.rparen :: r) :=
      ⟨x, ts, hx, (hgo _ _ (.stop _ _ _ (hr 1))).goOn (Nat.zero_le _) (.stop _ _ _ (hr 0))⟩
    exact ⟨some e, r, by simpa [infixTok] using hread.paren, fun _ _ h => h⟩

/-- **An expression is read in one way**, up to where no operator follows. -/
lemma Level.unique {u u' r r' : List Token} {e e' : Expr} (h : Level 1 u e) (h' : Level 1 u' e')
    (heq : u ++ r = u' ++ r') (hr : Stops 1 (r.map infixTok)) (hr' : Stops 1 (r'.map infixTok)) :
    u = u' ∧ e = e' ∧ r = r' := by
  have hread : ∀ {u r : List Token} {e : Expr}, Level 1 u e → Stops 1 (r.map infixTok) →
      ReadsFrom exprAlgebra BinOp.level 1 ((u ++ r).map infixTok) (some e) (r.map infixTok) := by
    intro u r e h hr
    obtain ⟨x, ts, hx, hgo⟩ := h.reads (r.map infixTok) (hr.mono (Nat.le_succ _))
    rw [List.map_append]
    exact ⟨x, ts, hx, hgo _ _ (.stop _ _ _ hr)⟩
  obtain ⟨he, hrest⟩ := (hread h hr).unique (heq ▸ hread h' hr')
  have hlen : r.length = r'.length := by simpa using congrArg List.length hrest
  obtain ⟨hu, hr⟩ := List.append_inj' heq hlen
  exact ⟨hu, Option.some.inj he, hr⟩

/-! ## Types are read in one way -/

/-- A brace closes an expression. -/
lemma stops_brace (k : ℕ) (r : List Token) :
    Stops k ((.closeDelim .brace :: r).map infixTok) :=
  fun _ _ h => by simp [infixTok] at h

/-- What follows a type. -/
def Follows (r : List Token) : Prop :=
  ∀ t rest, r = t :: rest → t = .comma ∨ t = .gt ∨ t = .closeDelim .paren ∨ t = .semi

/-- What follows a list of types. -/
def Closes (r : List Token) : Prop :=
  Follows r ∧ ∀ rest, r ≠ .comma :: rest

/-- What begins with an identifier or with `ref`. -/
def Starts (u : List Token) : Prop :=
  (∃ ident rest, u = .ident ident :: rest) ∨ ∃ rest, u = .ref :: rest

/-- What starts a type still does when more tokens follow. -/
lemma Starts.append {u : List Token} (h : Starts u) (r : List Token) : Starts (u ++ r) := by
  rcases h with ⟨ident, rest, rfl⟩ | ⟨rest, rfl⟩
  · exact .inl ⟨ident, rest ++ r, rfl⟩
  · exact .inr ⟨rest ++ r, rfl⟩

/-- What may follow a type starts none. -/
lemma Follows.not_starts {r : List Token} (h : Follows r) : ¬Starts r := by
  rintro (⟨ident, rest, rfl⟩ | ⟨rest, rfl⟩)
  · simpa using h _ _ rfl
  · simpa using h _ _ rfl

/-- The elements that begin a list of tokens are read in one way, if they have at most `n`
tokens. -/
def UniqueUpTo {α : Type} (n : ℕ) (T : List Token → α → Prop) (After : List Token → Prop) : Prop :=
  ∀ ⦃u u' r r' a a'⦄, u.length ≤ n → T u a → T u' a' → u ++ r = u' ++ r' → After r → After r' →
    u = u' ∧ a = a'

/-- **Lists are read in one way** if their elements are. -/
lemma Comma.uniqueUpTo {α : Type} {n : ℕ} {T : List Token → α → Prop}
    (hT : UniqueUpTo n T Follows) (hstart : ∀ u a, T u a → Starts u) :
    UniqueUpTo n (Comma T) Closes := by
  intro u u' r r' as as' hlen h h' heq hr hr'
  have hcomma : ∀ v : List Token, Follows (.comma :: v) := by
    rintro v t rest ⟨⟩
    exact .inl rfl
  have hstart' : ∀ {u r v : List Token} {a : α}, T u a → Closes r → u ++ v ≠ r :=
    fun ha hr heq => hr.1.not_starts (heq ▸ (hstart _ _ ha).append _)
  induction h generalizing u' as' with
  | nil =>
    cases h' with
    | nil => exact ⟨rfl, rfl⟩
    | last ha => exact absurd heq.symm (hstart' ha hr)
    | @cons v w a as ha _ =>
      rw [List.append_assoc] at heq
      exact absurd heq.symm (hstart' ha hr)
  | @last u a ha =>
    cases h' with
    | nil => exact absurd heq (hstart' ha hr')
    | last ha' =>
      obtain ⟨rfl, rfl⟩ := hT hlen ha ha' heq hr.1 hr'.1
      exact ⟨rfl, rfl⟩
    | @cons v w a as ha' _ =>
      rw [List.append_assoc] at heq
      obtain ⟨rfl, rfl⟩ := hT hlen ha ha' heq hr.1 (hcomma _)
      exact absurd (List.append_cancel_left heq) (hr.2 _)
  | @cons u v a as ha _ ih =>
    rw [List.append_assoc] at heq
    have hlens : u.length + (v.length + 1) ≤ n := by simpa using hlen
    cases h' with
    | nil => exact absurd heq (hstart' ha hr')
    | last ha' =>
      obtain ⟨rfl, rfl⟩ := hT (by omega) ha ha' heq (hcomma _) hr'.1
      exact absurd (List.append_cancel_left heq).symm (hr'.2 _)
    | @cons u' v' a' as' ha' h' =>
      rw [List.append_assoc] at heq
      obtain ⟨rfl, rfl⟩ := hT (by omega) ha ha' heq (hcomma _) (hcomma _)
      have htail := (List.cons.inj (List.append_cancel_left heq)).2
      obtain ⟨rfl, rfl⟩ := ih (by omega) h' htail
      exact ⟨rfl, rfl⟩

/-- The tokens of a path start a type. -/
lemma Path.starts {u : List Token} {path : Syntax.Path} (h : Path u path) : Starts u := by
  cases h with
  | plain ident => exact .inl ⟨ident, [], rfl⟩
  | generic h => exact .inl ⟨_, _, rfl⟩

/-- The tokens of a type start a type. -/
lemma Ty.starts {u : List Token} {ty : Syntax.Ty} (h : Ty u ty) : Starts u := by
  cases h with
  | baseTy h => exact h.starts
  | refineTy h _ => exact h.starts.append _
  | exists_ h _ => simpa using h.starts.append _
  | mutRef region => exact .inr ⟨_, rfl⟩

/-- A refinement is read in one way, whatever follows it. -/
lemma Refinement.unique {u u' r r' : List Token} {e e' : Expr} (h : Refinement u e)
    (h' : Refinement u' e') (heq : u ++ r = u' ++ r') : u = u' ∧ e = e' ∧ r = r' := by
  cases h with
  | lit lit =>
    cases h' with
    | lit lit' =>
      cases heq
      exact ⟨rfl, rfl, rfl⟩
    | _ => cases heq
  | var ident =>
    cases h' with
    | var ident' =>
      cases heq
      exact ⟨rfl, rfl, rfl⟩
    | _ => cases heq
  | brace h =>
    cases h' with
    | brace h' =>
      simp only [List.cons_append, List.append_assoc, List.cons.injEq, true_and,
        List.nil_append] at heq
      obtain ⟨rfl, rfl, hr⟩ := h.unique h' heq (stops_brace _ _) (stops_brace _ _)
      exact ⟨rfl, rfl, (List.cons.inj hr).2⟩
    | _ => cases heq

/-- What comes after the path of a type. -/
inductive AfterPath (path : Syntax.Path) : List Token → Syntax.Ty → Prop
  | baseTy : AfterPath path [] (.baseTy path)
  | refineTy {v : List Token} {refine : Expr} : Refinement v refine →
      AfterPath path (.at :: v) (.refineTy path refine)
  | exists_ {v : List Token} {bind : Ident} {pred : Expr} : Level 1 v pred →
      AfterPath path (.openDelim .brace :: .ident bind :: .colon :: v ++ [.closeDelim .brace])
        (.exists_ bind path pred)

/-- A type is a path with what comes after it, or a reference. -/
lemma Ty.path_or_ref {u : List Token} {ty : Syntax.Ty} (h : Ty u ty) :
    (∃ v w path, u = v ++ w ∧ Path v path ∧ AfterPath path w ty) ∨
      ∃ region, u = [.ref, .lt, .ident region, .gt] ∧ ty = .mutRef region := by
  cases h with
  | @baseTy u path h => exact .inl ⟨u, [], path, by simp, h, .baseTy⟩
  | refineTy h hrefine => exact .inl ⟨_, _, _, rfl, h, .refineTy hrefine⟩
  | exists_ h hpred => exact .inl ⟨_, _, _, by simp, h, .exists_ hpred⟩
  | mutRef region => exact .inr ⟨region, rfl, rfl⟩

/-- What stands after a path is no angle bracket. -/
lemma AfterPath.ne_lt {path : Syntax.Path} {w r : List Token} {ty : Syntax.Ty}
    (h : AfterPath path w ty) (hr : Follows r) (rest : List Token) : w ++ r ≠ .lt :: rest := by
  intro heq
  cases h with
  | baseTy => simpa using hr _ _ heq
  | refineTy _ => cases heq
  | exists_ _ => cases heq

/-- What stands after a path is read in one way. -/
lemma AfterPath.unique {path : Syntax.Path} {w w' r r' : List Token} {ty ty' : Syntax.Ty}
    (h : AfterPath path w ty) (h' : AfterPath path w' ty') (heq : w ++ r = w' ++ r')
    (hr : Follows r) (hr' : Follows r') : w = w' ∧ ty = ty' := by
  cases h with
  | baseTy =>
    cases h' with
    | baseTy => exact ⟨rfl, rfl⟩
    | refineTy _ => simpa using hr _ _ heq
    | exists_ _ => simpa using hr _ _ heq
  | refineTy h =>
    cases h' with
    | baseTy => simpa using hr' _ _ heq.symm
    | refineTy h' =>
      obtain ⟨rfl, rfl, -⟩ := h.unique h' (List.cons.inj heq).2
      exact ⟨rfl, rfl⟩
    | exists_ _ => cases heq
  | exists_ h =>
    cases h' with
    | baseTy => simpa using hr' _ _ heq.symm
    | refineTy _ => cases heq
    | exists_ h' =>
      simp only [List.cons_append, List.append_assoc, List.cons.injEq, true_and, Token.ident.injEq,
        List.nil_append] at heq
      obtain ⟨rfl, heq⟩ := heq
      obtain ⟨rfl, rfl, -⟩ := h.unique h' heq (stops_brace _ _) (stops_brace _ _)
      exact ⟨rfl, rfl⟩

/-- The token after the arguments of a path closes them. -/
lemma closes_gt (r : List Token) : Closes (.gt :: r) :=
  ⟨fun t rest h => .inr (.inl (List.cons.inj h).1.symm), fun rest h => by cases h⟩

/-- A path is read in one way if the types in it are and no angle bracket follows. -/
lemma Path.uniqueUpTo {n : ℕ} (hty : UniqueUpTo n Ty Follows) :
    UniqueUpTo (n + 1) Path fun r => ∀ rest, r ≠ .lt :: rest := by
  intro u u' r r' path path' hlen h h' heq hr hr'
  cases h with
  | plain ident =>
    cases h' with
    | plain ident' =>
      cases heq
      exact ⟨rfl, rfl⟩
    | generic h' => exact absurd (List.cons.inj heq).2 (hr _)
  | @generic ident u args h =>
    cases h' with
    | plain ident' => exact absurd (List.cons.inj heq).2.symm (hr' _)
    | generic h' =>
      simp only [List.cons_append, List.append_assoc, List.cons.injEq, Token.ident.injEq, true_and,
        List.nil_append] at heq
      obtain ⟨rfl, heq⟩ := heq
      have hlen' : u.length ≤ n := by
        simp only [List.cons_append, List.length_cons, List.length_append] at hlen
        omega
      obtain ⟨rfl, rfl⟩ := Comma.uniqueUpTo hty (fun _ _ => Ty.starts) hlen' h h' heq
        (closes_gt _) (closes_gt _)
      exact ⟨rfl, rfl⟩

/-- **A type is read in one way.**

**Proof sketch.** By induction on the number of tokens. The path of a type goes on with `<` only if
it has arguments, which have fewer tokens, and what comes after the path shows which type it is. -/
lemma Ty.uniqueUpTo (n : ℕ) : UniqueUpTo n Ty Follows := by
  induction n with
  | zero =>
    intro u u' r r' ty ty' hlen h
    have hstart := h.starts
    rw [List.length_eq_zero_iff.mp (Nat.le_zero.mp hlen)] at hstart
    rcases hstart with ⟨_, _, hnil⟩ | ⟨_, hnil⟩ <;> cases hnil
  | succ n ih =>
    intro u u' r r' ty ty' hlen h h' heq hr hr'
    rcases h.path_or_ref with ⟨v, w, path, rfl, hpath, hafter⟩ | ⟨region, rfl, rfl⟩
    · rcases h'.path_or_ref with ⟨v', w', path', rfl, hpath', hafter'⟩ | ⟨region, rfl, rfl⟩
      · rw [List.append_assoc, List.append_assoc] at heq
        have hlen' : v.length ≤ n + 1 := by
          rw [List.length_append] at hlen
          omega
        obtain ⟨rfl, rfl⟩ := Path.uniqueUpTo ih hlen' hpath hpath' heq (hafter.ne_lt hr)
          (hafter'.ne_lt hr')
        obtain ⟨rfl, rfl⟩ := hafter.unique hafter' (List.append_cancel_left heq) hr hr'
        exact ⟨rfl, rfl⟩
      · rcases hpath.starts with ⟨ident, rest, rfl⟩ | ⟨rest, rfl⟩
        · cases heq
        · cases hpath
    · rcases h'.path_or_ref with ⟨v', w', path', rfl, hpath', hafter'⟩ | ⟨region', rfl, rfl⟩
      · rcases hpath'.starts with ⟨ident, rest, rfl⟩ | ⟨rest, rfl⟩
        · cases heq
        · cases hpath'
      · cases heq
        exact ⟨rfl, rfl⟩

/-! ## Signatures are read in one way -/

/-- A generic parameter is read in one way. -/
lemma GenericParam.uniqueUpTo (n : ℕ) : UniqueUpTo n GenericParam Follows := by
  intro u u' r r' a a' _ h h' heq hr hr'
  cases h with
  | pred h =>
    cases h' with
    | pred h' =>
      simp only [List.cons_append, List.append_assoc, List.cons.injEq, Token.ident.injEq, true_and,
        List.nil_append] at heq
      obtain ⟨rfl, rfl, heq⟩ := heq
      obtain ⟨rfl, rfl, -⟩ := h.unique h' heq (stops_brace _ _) (stops_brace _ _)
      exact ⟨rfl, rfl⟩
    | plain name sort =>
      simp only [List.cons_append, List.append_assoc, List.cons.injEq, List.nil_append] at heq
      simpa using hr' _ _ heq.2.2.2.symm
  | plain name sort =>
    cases h' with
    | pred h' =>
      simp only [List.cons_append, List.append_assoc, List.cons.injEq, List.nil_append] at heq
      simpa using hr _ _ heq.2.2.2
    | plain name' sort' =>
      cases heq
      exact ⟨rfl, rfl⟩

/-- The tokens of a generic parameter start a type. -/
lemma GenericParam.starts {u : List Token} {a : Syntax.GenericParam} (h : GenericParam u a) :
    Starts u := by
  cases h with
  | pred h => exact .inl ⟨_, _, rfl⟩
  | plain name sort => exact .inl ⟨_, _, rfl⟩

/-- A binding is read in one way. -/
lemma Binding.uniqueUpTo (n : ℕ) : UniqueUpTo n Binding Follows := by
  intro u u' r r' a a' _ h h' heq hr hr'
  obtain ⟨ident, h⟩ := h
  obtain ⟨ident', h'⟩ := h'
  simp only [List.cons_append, List.cons.injEq, Token.ident.injEq, true_and] at heq
  obtain ⟨rfl, heq⟩ := heq
  obtain ⟨rfl, rfl⟩ := Ty.uniqueUpTo _ (Nat.le_refl _) h h' heq hr hr'
  exact ⟨rfl, rfl⟩

/-- The tokens of a binding start a type. -/
lemma Binding.starts {u : List Token} {a : Ident × Syntax.Ty} (h : Binding u a) : Starts u := by
  cases h with
  | mk ident h => exact .inl ⟨ident, _, rfl⟩

/-- A closing parenthesis closes a list. -/
lemma closes_rparen (r : List Token) : Closes (.closeDelim .paren :: r) :=
  ⟨fun t rest h => .inr (.inr (.inl (List.cons.inj h).1.symm)), fun rest h => by cases h⟩

/-- A semicolon closes a list. -/
lemma closes_semi (r : List Token) : Closes (.semi :: r) :=
  ⟨fun t rest h => .inr (.inr (.inr (List.cons.inj h).1.symm)), fun rest h => by cases h⟩

/-- The end of the tokens closes a list. -/
lemma closes_nil : Closes [] :=
  ⟨(fun _ _ h => nomatch h), (fun _ h => nomatch h)⟩

/-- The generics of a signature are read in one way, up to its opening parenthesis. -/
lemma Generics.unique {u u' r r' : List Token} {a a' : List Syntax.GenericParam}
    (h : Generics u a) (h' : Generics u' a')
    (heq : u ++ .openDelim .paren :: r = u' ++ .openDelim .paren :: r') :
    u = u' ∧ a = a' := by
  cases h with
  | params h =>
    cases h' with
    | params h' =>
      simp only [List.cons_append, List.append_assoc, List.cons.injEq, true_and,
        List.nil_append] at heq
      obtain ⟨rfl, rfl⟩ := Comma.uniqueUpTo (GenericParam.uniqueUpTo _)
        (fun _ _ => GenericParam.starts) (Nat.le_refl _) h h' heq (closes_gt _) (closes_gt _)
      exact ⟨rfl, rfl⟩
    | empty => cases heq
  | empty =>
    cases h' with
    | params h' => cases heq
    | empty => exact ⟨rfl, rfl⟩

/-- A type is not read where a binding is. -/
lemma Ty.ne_binding {u r rest : List Token} {ty : Syntax.Ty} {ident : Ident} (h : Ty u ty)
    (hr : Follows r) : u ++ r ≠ .ident ident :: .colon :: rest := by
  intro heq
  rcases h.path_or_ref with ⟨v, w, path, rfl, hpath, hafter⟩ | ⟨region, rfl, rfl⟩
  · cases hpath with
    | plain ident' =>
      cases hafter with
      | baseTy => simpa using hr _ _ (List.cons.inj heq).2
      | refineTy _ => cases heq
      | exists_ _ => cases heq
    | generic _ => cases heq
  · cases heq

/-- The requirements are told apart from the arguments. -/
lemma not_requires_eq_args {u v w r : List Token} {requires : List (Ident × Syntax.Ty)}
    {args : List Syntax.Ty} (h : Comma Binding u requires) (h' : Comma Ty w args) :
    u ++ .semi :: v ≠ w ++ .closeDelim .paren :: r := by
  intro heq
  have hfollows : Follows (.closeDelim .paren :: r) := (closes_rparen r).1
  have hcomma : ∀ w : List Token, Follows (.comma :: w) := by
    rintro w t rest ⟨⟩
    exact .inl rfl
  -- the first token, where there is no binding or no type
  have hstart : ∀ {w rest : List Token} {ty : Syntax.Ty}, Ty w ty → w ++ rest ≠ .semi :: v :=
    fun hty heq => by
      rcases heq ▸ hty.starts.append _ with ⟨_, _, h⟩ | ⟨_, h⟩ <;> cases h
  have hstart' : ∀ {u rest : List Token} {b : Ident × Syntax.Ty}, Binding u b →
      u ++ rest ≠ .closeDelim .paren :: r := fun hb heq => by
    rcases heq ▸ hb.starts.append _ with ⟨_, _, h⟩ | ⟨_, h⟩ <;> cases h
  cases h' with
  | nil =>
    cases h with
    | nil => cases heq
    | last hb => exact hstart' hb heq
    | cons hb _ => exact hstart' hb (by simpa using heq)
  | last hty =>
    cases h with
    | nil => exact hstart hty heq.symm
    | last hb =>
      cases hb with
      | mk ident _ => exact hty.ne_binding hfollows heq.symm
    | cons hb _ =>
      cases hb with
      | mk ident _ => exact hty.ne_binding hfollows heq.symm
  | cons hty _ =>
    rw [List.append_assoc] at heq
    cases h with
    | nil => exact hstart hty heq.symm
    | last hb =>
      cases hb with
      | mk ident _ => exact hty.ne_binding (hcomma _) heq.symm
    | cons hb _ =>
      cases hb with
      | mk ident _ => exact hty.ne_binding (hcomma _) heq.symm

/-- The `requires` part of a signature is read in one way, up to its arguments. -/
lemma Requires.unique {v v' w w' r r' : List Token} {requires requires' : List (Ident × Syntax.Ty)}
    {args args' : List Syntax.Ty} (h : Requires v requires) (h' : Requires v' requires')
    (hw : Comma Ty w args) (hw' : Comma Ty w' args')
    (heq : v ++ (w ++ .closeDelim .paren :: r) = v' ++ (w' ++ .closeDelim .paren :: r')) :
    v = v' ∧ requires = requires' := by
  cases h with
  | some h =>
    rw [List.append_assoc] at heq
    cases h' with
    | some h' =>
      rw [List.append_assoc] at heq
      obtain ⟨rfl, rfl⟩ := Comma.uniqueUpTo (Binding.uniqueUpTo _) (fun _ _ => Binding.starts)
        (Nat.le_refl _) h h' heq (closes_semi _) (closes_semi _)
      exact ⟨rfl, rfl⟩
    | none => exact absurd heq (not_requires_eq_args h hw')
  | none =>
    cases h' with
    | some h' =>
      rw [List.append_assoc] at heq
      exact absurd heq.symm (not_requires_eq_args h' hw)
    | none => exact ⟨rfl, rfl⟩

/-- The `ensures` part may follow a type. -/
lemma Ensures.follows {y : List Token} {ensures : List (Ident × Syntax.Ty)}
    (h : Ensures y ensures) : Follows y := by
  cases h with
  | some h => exact (closes_semi _).1
  | none => exact closes_nil.1

/-- The `ensures` part of a signature is read in one way. -/
lemma Ensures.unique {y : List Token} {ensures ensures' : List (Ident × Syntax.Ty)}
    (h : Ensures y ensures) (h' : Ensures y ensures') : ensures = ensures' := by
  cases h with
  | some h =>
    cases h' with
    | some h' =>
      exact (Comma.uniqueUpTo (Binding.uniqueUpTo _) (fun _ _ => Binding.starts) (Nat.le_refl _) h
        h' rfl closes_nil closes_nil).2
  | none =>
    cases h' with
    | none => rfl

/-- **The grammar is unambiguous**: tokens stand for at most one signature. -/
theorem FnSig.unique {ts : List Token} {sig sig' : Syntax.FnSig} (h : FnSig ts sig)
    (h' : FnSig ts sig') : sig = sig' := by
  generalize hts : ts = ts' at h'
  cases h with
  | @mk u v w x y generics requires ensures args ret hgenerics hrequires hargs hret hensures =>
    cases h' with
    | @mk u' v' w' x' y' generics' requires' ensures' args' ret' hgenerics' hrequires' hargs' hret'
        hensures' =>
      simp only [List.cons_append, List.append_assoc, List.cons.injEq, true_and] at hts
      obtain ⟨rfl, rfl⟩ := hgenerics.unique hgenerics' hts
      have hts := (List.cons.inj (List.append_cancel_left hts)).2
      obtain ⟨rfl, rfl⟩ := hrequires.unique hrequires' hargs hargs' hts
      have hts := List.append_cancel_left hts
      obtain ⟨rfl, rfl⟩ := Comma.uniqueUpTo (Ty.uniqueUpTo _) (fun _ _ => Ty.starts)
        (Nat.le_refl _) hargs hargs' hts (closes_rparen _) (closes_rparen _)
      have hts := (List.cons.inj (List.cons.inj (List.append_cancel_left hts)).2).2
      obtain ⟨rfl, rfl⟩ := Ty.uniqueUpTo _ (Nat.le_refl _) hret hret' hts hensures.follows
        hensures'.follows
      obtain rfl := List.append_cancel_left hts
      rw [hensures.unique hensures']

/-! ## Signatures have no invalid tokens -/

/-- No operator is written with an invalid token. -/
lemma BinOp.token_ne_invalid (op : BinOp) : op.token ≠ .invalid := by
  cases op <;> exact Token.noConfusion

/-- An expression has no invalid token. -/
lemma Level.invalid_not_mem {k : ℕ} {u : List Token} {e : Expr} (h : Level k u e) :
    .invalid ∉ u := by
  induction h with
  | nonAssoc _ _ _ ih1 ih2 => simp [ih1, ih2, (BinOp.token_ne_invalid _).symm]
  | leftAssoc _ _ _ ih1 ih2 => simp [ih1, ih2, (BinOp.token_ne_invalid _).symm]
  | next _ _ _ ih => exact ih
  | lit _ => simp
  | var _ => simp
  | paren _ ih => simp [ih]

/-- A refinement has no invalid token. -/
lemma Refinement.invalid_not_mem {u : List Token} {e : Expr} (h : Refinement u e) :
    .invalid ∉ u := by
  cases h with
  | lit _ => simp
  | var _ => simp
  | brace h => simp [h.invalid_not_mem]

/-- What stands after a path has no invalid token. -/
lemma AfterPath.invalid_not_mem {path : Syntax.Path} {w : List Token} {ty : Syntax.Ty}
    (h : AfterPath path w ty) : .invalid ∉ w := by
  cases h with
  | baseTy => simp
  | refineTy h => simp [h.invalid_not_mem]
  | exists_ h => simp [h.invalid_not_mem]

/-- A list has no invalid token if its elements, which have at most as many tokens, have none. -/
lemma Comma.invalid_not_mem {α : Type} {T : List Token → α → Prop} {u : List Token} {as : List α}
    (h : Comma T u as) (hT : ∀ v a, v.length ≤ u.length → T v a → .invalid ∉ v) :
    .invalid ∉ u := by
  induction h with
  | nil => simp
  | last ha => exact hT _ _ (Nat.le_refl _) ha
  | @cons u v a as ha _ ih =>
    have hu : .invalid ∉ u := hT _ _ (by simp) ha
    have hv : .invalid ∉ v := ih fun w b hle hb => hT _ _ (by simp; omega) hb
    simp [hu, hv]

/-- A type has no invalid token. -/
lemma Ty.invalid_not_mem {u : List Token} {ty : Syntax.Ty} (h : Ty u ty) : .invalid ∉ u := by
  -- the arguments of a path have fewer tokens
  induction hn : u.length using Nat.strongRecOn generalizing u ty with
  | ind n ih =>
    rcases h.path_or_ref with ⟨v, w, path, rfl, hpath, hafter⟩ | ⟨region, rfl, rfl⟩
    · have hv : .invalid ∉ v := by
        cases hpath with
        | plain ident => simp
        | @generic ident v args hargs =>
          have hv : .invalid ∉ v := hargs.invalid_not_mem fun v' ty' hle hty =>
            ih v'.length (by simp at hn; omega) hty rfl
          simp [hv]
      simp [hv, hafter.invalid_not_mem]
    · simp

/-- A generic parameter has no invalid token. -/
lemma GenericParam.invalid_not_mem {u : List Token} {param : Syntax.GenericParam}
    (h : GenericParam u param) : .invalid ∉ u := by
  cases h with
  | pred h => simp [h.invalid_not_mem]
  | plain name sort => simp

/-- A binding has no invalid token. -/
lemma Binding.invalid_not_mem {u : List Token} {binding : Ident × Syntax.Ty}
    (h : Binding u binding) : .invalid ∉ u := by
  obtain ⟨ident, h⟩ := h
  simp [h.invalid_not_mem]

/-- **A signature has no invalid tokens.** -/
theorem FnSig.invalid_not_mem {ts : List Token} {sig : Syntax.FnSig} (h : FnSig ts sig) :
    .invalid ∉ ts := by
  obtain @⟨u, v, w, x, y, _, _, _, _, _, hgenerics, hrequires, hargs, hret, hensures⟩ := h
  have hu : .invalid ∉ u := by
    cases hgenerics with
    | params h => simp [h.invalid_not_mem fun _ _ _ => GenericParam.invalid_not_mem]
    | empty => simp
  have hv : .invalid ∉ v := by
    cases hrequires with
    | some h => simp [h.invalid_not_mem fun _ _ _ => Binding.invalid_not_mem]
    | none => simp
  have hw : .invalid ∉ w := hargs.invalid_not_mem fun _ _ _ => Ty.invalid_not_mem
  have hy : .invalid ∉ y := by
    cases hensures with
    | some h => simp [h.invalid_not_mem fun _ _ _ => Binding.invalid_not_mem]
    | none => simp
  simp [hu, hv, hw, hret.invalid_not_mem, hy]

end Grammar

end LiquidRust.Syntax
