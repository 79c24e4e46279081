import LiquidRust.Fixpoint.Meaning
import LiquidRust.Fixpoint.Text

set_option relaxedAutoImplicit false
set_option autoImplicit false

/-!
# When the text of an expression determines its value

`should_parenthesize` drops the parentheses around an operand of the same precedence, on both
sides of an associative operator. A reader groups operators of the same precedence to the left,
so the text of `a * (b / c)` is read as `(a * b) / c`. This is harmless where the two operators
can be regrouped, as in `a + (b - c)`, and changes the value elsewhere.

The text is read by operator precedence, straight to its value (`Lib/InfixReading.lean`). Since a
text has one reading, all the expressions with this text that the reading gives the right value
to have the same value.

## Main definitions

* `LiquidRust.Fixpoint.BinOp.regroups` — the operators that can be regrouped to the left.
* `LiquidRust.Fixpoint.Expr.Respects` — expressions whose unparenthesised right operands begin
  with allowed operators only.

## Main results

* `LiquidRust.Fixpoint.Expr.display_determines_eval_iff` — the text determines the value exactly
  where the operators can be regrouped.
* `LiquidRust.Fixpoint.Expr.display_confuses_sub` — `a0 - (a1 - a2)` has the text of
  `(a0 - a1) - a2`.
-/

namespace LiquidRust.Fixpoint

open Lib Lib.InfixAlgebra

/-! ## Regrouping -/

/-- Whether `a op (b op' c)` has the value of `(a op b) op' c`, for operators of the same
precedence. -/
def BinOp.regroups : BinOp → BinOp → Bool
  | .sub, .add | .sub, .sub | .mul, .div | .div, .mul | .div, .div => false
  | _, _ => true

/-- The operators that can be regrouped. -/
lemma BinOp.regroups_cases {op op' : BinOp} (hprec : op'.precedence = op.precedence)
    (hassoc : op.precedence.isAssociative) (h : op.regroups op') :
    (op = .iff ∧ op' = .iff) ∨ (op = .or ∧ op' = .or) ∨ (op = .and ∧ op' = .and) ∨
      (op = .add ∧ op' = .add) ∨ (op = .add ∧ op' = .sub) ∨ (op = .mul ∧ op' = .mul) := by
  revert hprec hassoc h
  cases op <;> cases op' <;> decide

/-- Regrouping to the left. -/
lemma BinOp.apply_regroup (div : ℤ → ℤ → ℤ) {op op' : BinOp}
    (hprec : op'.precedence = op.precedence) (hassoc : op.precedence.isAssociative)
    (h : op.regroups op') (a b c : Option Val) :
    op'.apply div (op.apply div a b) c = op.apply div a (op'.apply div b c) := by
  rcases a with _ | a
  · rfl
  rcases b with _ | b
  · rfl
  rcases c with _ | c
  · cases h : op.eval div a b <;> simp [BinOp.apply, h]
  rcases regroups_cases hprec hassoc h with ⟨rfl, rfl⟩ | ⟨rfl, rfl⟩ | ⟨rfl, rfl⟩ | ⟨rfl, rfl⟩ |
    ⟨rfl, rfl⟩ | ⟨rfl, rfl⟩
  · rcases a with _ | (_ | _) <;> rcases b with _ | (_ | _) <;> rcases c with _ | (_ | _) <;> rfl
  · rcases a with _ | (_ | _) <;> rcases b with _ | (_ | _) <;> rcases c with _ | (_ | _) <;> rfl
  · rcases a with _ | (_ | _) <;> rcases b with _ | (_ | _) <;> rcases c with _ | (_ | _) <;> rfl
  · cases a <;> cases b <;> cases c <;>
      first | rfl | exact congrArg (some ∘ Val.int) (add_assoc _ _ _)
  · cases a <;> cases b <;> cases c <;>
      first | rfl | exact congrArg (some ∘ Val.int) (add_sub_assoc _ _ _)
  · cases a <;> cases b <;> cases c <;>
      first | rfl | exact congrArg (some ∘ Val.int) (mul_assoc _ _ _)

/-- The operators of a given precedence at the left end of an expression, from the root
downwards: in the text without parentheses all of them follow an operator before it. -/
def Expr.spineOps (p : Precedence) : Expr → List BinOp
  | .binaryOp op e1 _ => if op.precedence = p then op :: e1.spineOps p else []
  | _ => []

/-- Right operands written without parentheses, of the operator's own precedence, begin with
operators that are allowed after it. -/
def Expr.Respects (allowed : BinOp → BinOp → Prop) : Expr → Prop
  | .var _ | .constant _ => True
  | .binaryOp op e1 e2 => e1.Respects allowed ∧ e2.Respects allowed ∧
      (op.precedence.isAssociative → ∀ op' ∈ e2.spineOps op.precedence, allowed op op')
  | .unaryOp _ e => e.Respects allowed

/-- The operators on the spine are of its precedence. -/
lemma Expr.precedence_of_mem_spineOps {p : Precedence} {e : Expr} {op : BinOp}
    (h : op ∈ e.spineOps p) : op.precedence = p := by
  induction e with
  | var | constant | unaryOp => simp [spineOps] at h
  | binaryOp op' e1 e2 ih1 _ =>
    by_cases hop : op'.precedence = p
    · simp only [spineOps, if_pos hop, List.mem_cons] at h
      rcases h with rfl | h
      · exact hop
      · exact ih1 h
    · simp [spineOps, if_neg hop] at h

/-! ## Reading a text to its value -/

/-- The value of an operand. -/
def Operand.eval (ρ : Name → Val) : Operand → Val
  | var x => ρ x
  | num n => .int n
  | bool b => .bool b

/-- The values of operands and operators. -/
def valueAlgebra (div : ℤ → ℤ → ℤ) (ρ : Name → Val) :
    InfixAlgebra Operand UnOp BinOp (Option Val) where
  leaf o := some (o.eval ρ)
  unary op v := v.bind op.eval
  binary op := op.apply div

/-- The level of an infix operator. -/
def BinOp.level (op : BinOp) : ℕ :=
  op.precedence.level

/-- The level of the outermost operator. -/
def Expr.level : Expr → ℕ
  | .binaryOp op _ _ => op.level
  | _ => 7

/-- There are seven levels. -/
lemma BinOp.level_lt (op : BinOp) : op.level < 7 := by
  cases op <;> decide

/-- Precedences have different levels. -/
lemma Precedence.level_injective {p q : Precedence} (h : p.level = q.level) : p = q := by
  cases p <;> cases q <;> first | rfl | exact absurd h (by decide)

/-- Operands without parentheses have at least the level of the operator, and have its level
only if it is associative. -/
lemma shouldParenthesize_eq_false_iff {op : BinOp} {e : Expr} :
    shouldParenthesize op e = false ↔
      op.level ≤ e.level ∧ (op.level = e.level → op.precedence.isAssociative) := by
  cases e with
  | var | constant | unaryOp =>
    have := op.level_lt
    simp [shouldParenthesize, Expr.level]
    omega
  | binaryOp op' e1 e2 =>
    have heq : op'.precedence = op.precedence ↔ op.level = op'.level :=
      ⟨fun h => by rw [BinOp.level, BinOp.level, h], fun h => (Precedence.level_injective h).symm⟩
    have hlt : op'.precedence < op.precedence ↔ op'.level < op.level := Iff.rfl
    simp [shouldParenthesize, Expr.level, heq, hlt]

section Reading

variable {div : ℤ → ℤ → ℤ} {ρ : Name → Val}

/-- An expression's text can be read to its value wherever a reader looks for operators of at
most its level. -/
def Expr.ReadsValue (div : ℤ → ℤ → ℤ) (ρ : Name → Val) (e : Expr) : Prop :=
  ∀ ⦃k : ℕ⦄ ⦃z : Option Val⦄ ⦃ts rest : List Token⦄, k ≤ e.level →
    StopsAt BinOp.level (e.level + 1) ts →
    Reads (valueAlgebra div ρ) BinOp.level (some (k, e.eval div ρ)) ts z rest →
    ReadsFrom (valueAlgebra div ρ) BinOp.level k (e.toks ++ ts) z rest

/-- The text after an operator can be read as its right operand, although the reader groups to
the left. -/
def ReadsRight (div : ℤ → ℤ → ℤ) (ρ : Name → Val) (op : BinOp) (e : Expr) (ts₀ : List Token) :
    Prop :=
  ∀ ⦃k : ℕ⦄ ⦃x z : Option Val⦄ ⦃ts rest : List Token⦄, k ≤ op.level →
    StopsAt BinOp.level (op.level + 1) ts →
    Reads (valueAlgebra div ρ) BinOp.level (some (k, op.apply div x (e.eval div ρ))) ts z rest →
    Reads (valueAlgebra div ρ) BinOp.level (some (k, x)) (.binary op :: ts₀ ++ ts) z rest

/-- A text in parentheses is an operand. -/
lemma Expr.ReadsValue.paren {e : Expr} (h : e.ReadsValue div ρ) (ts : List Token) :
    Reads (valueAlgebra div ρ) BinOp.level none (.lparen :: (e.toks ++ [.rparen]) ++ ts)
      (e.eval div ρ) ts := by
  rw [List.cons_append, List.append_assoc]
  exact (h (Nat.zero_le _) (stopsAt_rparen _ _) (.stop 0 _ _ (stopsAt_rparen _ _))).paren

/-- The left operand of an infix operator. -/
lemma Expr.ReadsValue.left {e : Expr} (h : e.ReadsValue div ρ) {op : BinOp} {k : ℕ}
    {z : Option Val} {ts rest : List Token} (hk : k ≤ op.level)
    (hts : StopsAt BinOp.level (op.level + 1) ts)
    (hz : Reads (valueAlgebra div ρ) BinOp.level (some (k, e.eval div ρ)) ts z rest) :
    ReadsFrom (valueAlgebra div ρ) BinOp.level k
      (parenthesize (shouldParenthesize op e) e.toks ++ ts) z rest := by
  cases hp : shouldParenthesize op e with
  | false =>
    have hle := (shouldParenthesize_eq_false_iff.mp hp).1
    exact h (hk.trans hle) (hts.mono (Nat.succ_le_succ hle)) hz
  | true => exact ⟨_, _, h.paren ts, hz⟩

/-- A right operand that is read as a whole. -/
lemma ReadsRight.of_readsFrom {op : BinOp} {e : Expr} {ts₀ : List Token}
    (h : ∀ ts, StopsAt BinOp.level (op.level + 1) ts →
      ReadsFrom (valueAlgebra div ρ) BinOp.level (op.level + 1) (ts₀ ++ ts) (e.eval div ρ) ts) :
    ReadsRight div ρ op e ts₀ :=
  fun _ _ _ _ _ hk hts hz => (h _ hts).binary hk hz

/-- A right operand of a higher level. -/
lemma Expr.ReadsValue.right_of_lt {e : Expr} (h : e.ReadsValue div ρ) {op : BinOp}
    (hlt : op.level < e.level) : ReadsRight div ρ op e e.toks :=
  ReadsRight.of_readsFrom fun _ hts => h hlt (hts.mono (by omega)) (.stop _ _ _ hts)

/-- A right operand in parentheses. -/
lemma Expr.ReadsValue.right_paren {e : Expr} (h : e.ReadsValue div ρ) (op : BinOp) :
    ReadsRight div ρ op e (parenthesize true e.toks) :=
  ReadsRight.of_readsFrom fun ts hts => ⟨_, _, h.paren ts, .stop _ _ _ hts⟩

/-- A single operand is read to its value. -/
lemma Expr.ReadsValue.of_reads {e : Expr}
    (h : ∀ ts, Reads (valueAlgebra div ρ) BinOp.level none (e.toks ++ ts) (e.eval div ρ) ts) :
    e.ReadsValue div ρ :=
  fun _ _ _ _ _ _ hz => ⟨_, _, h _, hz⟩

/-- The operand of a unary operator. -/
lemma Expr.ReadsValue.unaryOp {e : Expr} (h : e.ReadsValue div ρ)
    (hatom : e.isConstantOrVar →
      ∀ ts, Reads (valueAlgebra div ρ) BinOp.level none (e.toks ++ ts) (e.eval div ρ) ts)
    (op : UnOp) : (Expr.unaryOp op e).ReadsValue div ρ := by
  refine Expr.ReadsValue.of_reads fun ts => .unary op ?_
  cases ha : e.isConstantOrVar with
  | true => exact hatom ha ts
  | false => exact h.paren ts

/-- The text of a constant or a variable is a single operand. -/
lemma Expr.reads_of_isConstantOrVar {e : Expr} (h : e.isConstantOrVar) (ts : List Token) :
    Reads (valueAlgebra div ρ) BinOp.level none (e.toks ++ ts) (e.eval div ρ) ts := by
  rcases e with x | (⟨_ | _, n⟩ | b) | _ | _
  · exact .leaf (.var x) ts
  · exact .leaf (.num n) ts
  · exact .unary .neg (.leaf (.num n) ts)
  · exact .leaf (.bool b) ts
  · simp [isConstantOrVar] at h
  · simp [isConstantOrVar] at h

/-- **The text of an expression can be read to its value** if the operators at the left ends of
its right operands can be regrouped, and then so can the text after an operator.
**Proof sketch.** By induction on the expression. An operand of a higher level than the operator
before it is read as a whole. One of the same level is read from left to right: its left operand
as a right operand of `op`, then its own operator and right operand; the value is that of the
whole operand by regrouping. -/
theorem Expr.readsValue (e : Expr) (he : e.Respects fun op op' => op.regroups op') :
    e.ReadsValue div ρ ∧ ∀ op, (op.precedence.isAssociative →
      ∀ op' ∈ e.spineOps op.precedence, op.regroups op') →
      ReadsRight div ρ op e (parenthesize (shouldParenthesize op e) e.toks) := by
  -- a right operand that is not of the level of the operator
  have hright : ∀ {e : Expr}, e.ReadsValue div ρ → ∀ {op : BinOp}, op.level ≠ e.level →
      ReadsRight div ρ op e (parenthesize (shouldParenthesize op e) e.toks) := by
    intro e h op hne
    cases hp : shouldParenthesize op e with
    | true => exact h.right_paren op
    | false =>
      exact h.right_of_lt (lt_of_le_of_ne (shouldParenthesize_eq_false_iff.mp hp).1 hne)
  induction e with
  | var x =>
    have h : (Expr.var x).ReadsValue div ρ :=
      ReadsValue.of_reads (reads_of_isConstantOrVar rfl)
    exact ⟨h, fun op _ => hright h op.level_lt.ne⟩
  | constant c =>
    have h : (Expr.constant c).ReadsValue div ρ :=
      ReadsValue.of_reads (reads_of_isConstantOrVar rfl)
    exact ⟨h, fun op _ => hright h op.level_lt.ne⟩
  | unaryOp op' e ih =>
    have h := (ih he).1.unaryOp reads_of_isConstantOrVar op'
    exact ⟨h, fun op _ => hright h op.level_lt.ne⟩
  | binaryOp op' e1 e2 ih1 ih2 =>
    obtain ⟨he1, he2, hspine⟩ := he
    obtain ⟨h1, hr1⟩ := ih1 he1
    obtain ⟨h2, hr2⟩ := ih2 he2
    have h : (Expr.binaryOp op' e1 e2).ReadsValue div ρ := by
      intro k z ts rest hk hts hz
      rw [toks, List.append_assoc]
      exact h1.left hk (stopsAt_binary (Nat.lt_succ_self _) _) (hr2 op' hspine hk hts hz)
    refine ⟨h, fun op hop => ?_⟩
    by_cases hlevel : op.level = op'.level
    · have hprec : op'.precedence = op.precedence := (Precedence.level_injective hlevel).symm
      cases hp : shouldParenthesize op (.binaryOp op' e1 e2) with
      | true => exact h.right_paren op
      | false =>
        have hassoc := (shouldParenthesize_eq_false_iff.mp hp).2 hlevel
        have hregroup : ∀ op'' ∈ op' :: e1.spineOps op.precedence, op.regroups op'' := by
          simpa [spineOps, hprec] using hop hassoc
        have hparen : shouldParenthesize op' e1 = shouldParenthesize op e1 := by
          cases e1 <;> simp [shouldParenthesize, hprec]
        intro k x z ts rest hk hts hz
        rw [eval, ← BinOp.apply_regroup div hprec hassoc (hregroup op' (.head _))] at hz
        have := hr1 op (fun _ op'' hm => hregroup op'' (.tail _ hm)) hk
          (stopsAt_binary (by omega) _) (hr2 op' hspine (hlevel ▸ hk) (hlevel ▸ hts) hz)
        simpa [parenthesize, toks, hparen] using this
    · exact hright h hlevel

/-- Expressions with one text have one value if the operators at the left ends of right operands
can be regrouped. -/
theorem Expr.eval_eq_of_display_eq {e1 e2 : Expr} (h1 : e1.Respects fun op op' => op.regroups op')
    (h2 : e2.Respects fun op op' => op.regroups op') (h : e1.display = e2.display) :
    e1.eval div ρ = e2.eval div ρ := by
  have hread : ∀ e : Expr, (e.Respects fun op op' => op.regroups op') →
      ReadsFrom (valueAlgebra div ρ) BinOp.level 0 e.toks (e.eval div ρ) [] := by
    intro e he
    have := (e.readsValue he).1 (Nat.zero_le _) (stopsAt_nil _)
      (.stop 0 (e.eval div ρ) [] (stopsAt_nil _))
    rwa [List.append_nil] at this
  have hread2 := hread e2 h2
  rw [← toks_eq_of_display_eq h] at hread2
  exact ((hread e1 h1).unique hread2).1

end Reading

/-! ## Which operators the text confuses -/

/-- `a0 op (a1 op' a2)` -/
def rightNested (op op' : BinOp) : Expr :=
  .binaryOp op (.var 0) (.binaryOp op' (.var 1) (.var 2))

/-- `(a0 op a1) op' a2` -/
def leftNested (op op' : BinOp) : Expr :=
  .binaryOp op' (.binaryOp op (.var 0) (.var 1)) (.var 2)

/-- Both ways to nest operators of one associative precedence have the same text. -/
lemma display_rightNested {op op' : BinOp} (hprec : op.precedence = op'.precedence)
    (hassoc : op.precedence.isAssociative) :
    (rightNested op op').display = (leftNested op op').display := by
  have h : shouldParenthesize op (.binaryOp op' (.var 1) (.var 2)) = false :=
    shouldParenthesize_eq_false_iff.mpr ⟨(congrArg Precedence.level hprec).le, fun _ => hassoc⟩
  have h' : shouldParenthesize op' (.binaryOp op (.var 0) (.var 1)) = false :=
    shouldParenthesize_eq_false_iff.mpr
      ⟨(congrArg Precedence.level hprec).ge, fun _ => hprec ▸ hassoc⟩
  have hvar : ∀ (op : BinOp) (x : Name), shouldParenthesize op (.var x) = false := fun _ _ => rfl
  simp only [rightNested, leftNested, Expr.display, h, h', hvar, Bool.false_eq_true, if_false,
    String.append_assoc]

/-- Operators that cannot be regrouped give the two ways to nest them different values, at
`a0 = a1 = 3` and `a2 = 2`. -/
lemma eval_rightNested_ne {div : ℤ → ℤ → ℤ} (hdiv : ∀ a b : ℕ, 0 < b → div a b = (a / b : ℕ))
    {op op' : BinOp} (h : op.regroups op' = false) :
    ∃ n m : ℤ, n ≠ m ∧
      (rightNested op op').eval div (fun x => .int (if x = 2 then 2 else 3)) = some (.int n) ∧
      (leftNested op op').eval div (fun x => .int (if x = 2 then 2 else 3)) = some (.int m) := by
  have hcases : (op = .sub ∧ op' = .add) ∨ (op = .sub ∧ op' = .sub) ∨ (op = .mul ∧ op' = .div) ∨
      (op = .div ∧ op' = .mul) ∨ (op = .div ∧ op' = .div) := by
    revert h
    cases op <;> cases op' <;> decide
  have h31 : div 3 1 = 3 := hdiv 3 1 (by decide)
  have h32 : div 3 2 = 1 := hdiv 3 2 (by decide)
  have h33 : div 3 3 = 1 := hdiv 3 3 (by decide)
  have h36 : div 3 (3 * 2) = 0 := hdiv 3 6 (by decide)
  have h12 : div 1 2 = 0 := hdiv 1 2 (by decide)
  have h92 : div (3 * 3) 2 = 4 := hdiv 9 2 (by decide)
  rcases hcases with ⟨rfl, rfl⟩ | ⟨rfl, rfl⟩ | ⟨rfl, rfl⟩ | ⟨rfl, rfl⟩ | ⟨rfl, rfl⟩
  · exact ⟨3 - (3 + 2), 3 - 3 + 2, by decide, rfl, rfl⟩
  · exact ⟨3 - (3 - 2), 3 - 3 - 2, by decide, rfl, rfl⟩
  · exact ⟨3 * div 3 2, div (3 * 3) 2, by rw [h32, h92]; decide, rfl, rfl⟩
  · exact ⟨div 3 (3 * 2), div 3 3 * 2, by rw [h36, h33]; decide, rfl, rfl⟩
  · exact ⟨div 3 (div 3 2), div (div 3 3) 2, by rw [h32, h31, h33, h12]; decide, rfl, rfl⟩

/-- **The text determines the value exactly where operators can be regrouped.** Take the
expressions whose right operands without parentheses begin with the operators that `allowed`
lets follow. The text of each of them determines its value iff every operator that `allowed`
lets follow an operator of its own associative precedence can be regrouped with it.

**Proof sketch.** If a pair of operators cannot be regrouped, two expressions nested to the right
and to the left have the same text and different values for some numbers. Otherwise the text of an
expression is read back up to the grouping of operators of one precedence, and every allowed
grouping has the same value (`eval_eq_of_display_eq`). -/
theorem Expr.display_determines_eval_iff {div : ℤ → ℤ → ℤ}
    (hdiv : ∀ a b : ℕ, 0 < b → div a b = (a / b : ℕ)) (allowed : BinOp → BinOp → Prop) :
    (∀ e1 e2 : Expr, e1.Respects allowed → e2.Respects allowed → e1.display = e2.display →
      ∀ ρ, (e1.eval div ρ).isSome → (e2.eval div ρ).isSome → e1.eval div ρ = e2.eval div ρ) ↔
    ∀ op op' : BinOp, op.precedence = op'.precedence → op.precedence.isAssociative →
      allowed op op' → op.regroups op' := by
  constructor
  · intro h op op' hprec hassoc hallowed
    by_contra hregroups
    obtain ⟨n, m, hne, hn, hm⟩ := eval_rightNested_ne hdiv (Bool.eq_false_iff.mpr hregroups)
    have hright : (rightNested op op').Respects allowed := by
      refine ⟨trivial, ⟨trivial, trivial, fun _ _ h => by simp [spineOps] at h⟩, ?_⟩
      intro _ op'' hm
      simp only [spineOps, hprec, if_true, List.mem_singleton] at hm
      exact hm ▸ hallowed
    have hleft : (leftNested op op').Respects allowed :=
      ⟨⟨trivial, trivial, fun _ _ h => by simp [spineOps] at h⟩, trivial,
        fun _ _ h => by simp [spineOps] at h⟩
    have heq := h _ _ hright hleft (display_rightNested hprec hassoc) _ (by rw [hn]; rfl)
      (by rw [hm]; rfl)
    rw [hn, hm] at heq
    exact hne (by simpa using heq)
  · intro h e1 e2 h1 h2 hdisplay ρ _ _
    have hmono : ∀ e : Expr, e.Respects allowed → e.Respects fun op op' => op.regroups op' := by
      intro e he
      induction e with
      | var | constant => trivial
      | unaryOp _ e ih => exact ih he
      | binaryOp op e1 e2 ih1 ih2 =>
        refine ⟨ih1 he.1, ih2 he.2.1, fun hassoc op' hop' => ?_⟩
        exact h op op' (precedence_of_mem_spineOps hop').symm hassoc (he.2.2 hassoc op' hop')
    exact eval_eq_of_display_eq (hmono e1 h1) (hmono e2 h2) hdisplay

/-- Additions alone are not confused. -/
theorem Expr.display_determines_eval_iff_add :
    (∀ e1 e2 : Expr, (e1.Respects fun op op' => op = .add ∧ op' = .add) →
      (e2.Respects fun op op' => op = .add ∧ op' = .add) → e1.display = e2.display →
      ∀ ρ, (e1.eval (· / ·) ρ).isSome → (e2.eval (· / ·) ρ).isSome →
        e1.eval (· / ·) ρ = e2.eval (· / ·) ρ) ∧ BinOp.regroups .add .add = true := by
  refine ⟨(display_determines_eval_iff (fun _ _ _ => rfl) _).mpr fun _ _ _ _ h => ?_, rfl⟩
  rw [h.1, h.2]
  rfl

/-- **The text confuses expressions**: `a0 - (a1 - a2)` is sent to the solver as
`a0 - a1 - a2`. -/
theorem Expr.display_confuses_sub :
    (rightNested .sub .sub).display = "a0 - a1 - a2" ∧
      (leftNested .sub .sub).display = "a0 - a1 - a2" ∧
      ∀ div : ℤ → ℤ → ℤ, (rightNested .sub .sub).eval div (fun x => .int x) = some (.int 1) ∧
        (leftNested .sub .sub).eval div (fun x => .int x) = some (.int (-3)) :=
  ⟨by decide, by decide, fun _ => ⟨rfl, rfl⟩⟩

end LiquidRust.Fixpoint
