import Mathlib.Data.List.Chain
import Mathlib.Data.Nat.Digits.Defs
import LiquidRust.Lib.InfixReading
import LiquidRust.Fixpoint.Constraint

set_option relaxedAutoImplicit false
set_option autoImplicit false

/-!
# The text of an expression as tokens

The text of an expression is a sequence of tokens: operands, operators and parentheses. Infix
operators are set between blanks, which tells a subtraction from a sign, and no operand follows
another directly, so the tokens can be read off the text.

## Main definitions

* `LiquidRust.Fixpoint.Operand`, `Expr.toks` — the operands and the tokens of an expression.
* `LiquidRust.Fixpoint.render` — the characters of a sequence of tokens.
* `LiquidRust.Fixpoint.Separated` — no operand follows another.

## Main results

* `LiquidRust.Fixpoint.Expr.toList_display` — the text of an expression is that of its tokens.
* `LiquidRust.Fixpoint.render_injective` — separated tokens with one text are equal.
* `LiquidRust.Fixpoint.Expr.toks_eq_of_display_eq` — so are the tokens of two expressions.
-/

namespace LiquidRust.Fixpoint

open Lib

/-- The operands of a text. A negative constant is a sign and an operand. -/
inductive Operand
  | var (x : Name)
  | num (n : ℕ)
  | bool (b : Bool)
  deriving DecidableEq

/-- The tokens of the text of an expression. -/
abbrev Token :=
  Tok Operand UnOp BinOp

/-- The tokens of a constant. -/
def Constant.toks : Constant → List Token
  | int .positive n => [.leaf (.num n)]
  | int .negative n => [.unary .neg, .leaf (.num n)]
  | bool b => [.leaf (.bool b)]

/-- Tokens between parentheses, if there are any. -/
def parenthesize (paren : Bool) (ts : List Token) : List Token :=
  if paren then .lparen :: (ts ++ [.rparen]) else ts

/-- The tokens of an expression. -/
def Expr.toks : Expr → List Token
  | .var x => [.leaf (.var x)]
  | .constant c => c.toks
  | .binaryOp op e1 e2 =>
    parenthesize (shouldParenthesize op e1) e1.toks ++
      .binary op :: parenthesize (shouldParenthesize op e2) e2.toks
  | .unaryOp op e => .unary op :: parenthesize (!e.isConstantOrVar) e.toks

/-! ## Characters -/

/-- The characters of a number. -/
def digits (n : ℕ) : List Char :=
  Nat.toDigits 10 n

/-- The characters of a token. -/
def text : Token → List Char
  | .leaf (.var x) => 'a' :: digits x
  | .leaf (.num n) => digits n
  | .leaf (.bool b) => (toString b).toList
  | .unary op => op.display.toList
  | .binary op => ' ' :: op.display.toList ++ [' ']
  | .lparen => ['(']
  | .rparen => [')']

/-- The characters of a sequence of tokens. -/
def render (ts : List Token) : List Char :=
  ts.flatMap text

/-- No tokens, no text. -/
@[simp] lemma render_nil : render [] = [] := rfl

/-- The text of the first token comes first. -/
@[simp] lemma render_cons (t : Token) (ts : List Token) : render (t :: ts) = text t ++ render ts :=
  rfl

/-- Texts are put together as tokens are. -/
@[simp] lemma render_append (ts ts' : List Token) : render (ts ++ ts') = render ts ++ render ts' :=
  List.flatMap_append

/-- A constant is printed as its tokens. -/
lemma Constant.toList_display (c : Constant) : c.display.toList = render c.toks := by
  rcases c with ⟨_ | _, n⟩ | b
  · simp [Constant.display, Constant.toks, text, digits]
  · simp [Constant.display, Constant.toks, text, digits, UnOp.display]
  · simp [Constant.display, Constant.toks, text]

/-- Parenthesised text. -/
lemma render_parenthesize (paren : Bool) (ts : List Token) :
    render (parenthesize paren ts) = if paren then '(' :: render ts ++ [')'] else render ts := by
  cases paren <;> simp [parenthesize, text]

/-- **The text of an expression is that of its tokens.** -/
theorem Expr.toList_display (e : Expr) : e.display.toList = render e.toks := by
  induction e with
  | var x => simp [display, toks, text, digits]
  | constant c => exact c.toList_display
  | binaryOp op e1 e2 ih1 ih2 =>
    simp only [display, toks, render_append, render_cons, render_parenthesize, text]
    split_ifs <;> simp [ih1, ih2]
  | unaryOp op e ih =>
    simp only [display, toks, render_cons, render_parenthesize, text]
    cases e.isConstantOrVar <;> simp [ih]

/-! ## Separated tokens -/

/-- An operand. -/
def IsOperand : Token → Prop
  | .leaf _ => True
  | _ => False

/-- No operand follows another directly. -/
def Separated (ts : List Token) : Prop :=
  ts.IsChain fun t t' => IsOperand t → ¬IsOperand t'

/-- Parentheses touch any token. -/
lemma separated_parenthesize {paren : Bool} {ts : List Token} (h : Separated ts) :
    Separated (parenthesize paren ts) := by
  cases paren with
  | false => exact h
  | true =>
    refine List.isChain_cons.mpr ⟨fun t _ hl => hl.elim, ?_⟩
    refine List.isChain_append.mpr ⟨h, List.isChain_singleton _, fun t _ t' ht' _ => ?_⟩
    simp only [List.head?_cons, Option.mem_def, Option.some.injEq] at ht'
    exact ht' ▸ id

/-- **The tokens of an expression are separated.** -/
lemma Expr.separated_toks (e : Expr) : Separated e.toks := by
  induction e with
  | var x => exact List.isChain_singleton _
  | constant c =>
    rcases c with ⟨_ | _, n⟩ | b
    · exact List.isChain_singleton _
    · exact List.isChain_pair.mpr fun h => h.elim
    · exact List.isChain_singleton _
  | binaryOp op e1 e2 ih1 ih2 =>
    have h2 : Separated (.binary op :: parenthesize (shouldParenthesize op e2) e2.toks) :=
      List.isChain_cons.mpr ⟨fun t _ h => h.elim, separated_parenthesize ih2⟩
    refine List.isChain_append.mpr ⟨separated_parenthesize ih1, h2, fun t _ t' ht' _ => ?_⟩
    simp only [List.head?_cons, Option.mem_def, Option.some.injEq] at ht'
    exact ht' ▸ id
  | unaryOp op e ih =>
    exact List.isChain_cons.mpr ⟨fun t _ h => h.elim, separated_parenthesize ih⟩

/-! ## Reading the tokens off a text -/

/-- A text does not go on with a digit. -/
def NoDigit (cs : List Char) : Prop :=
  ∀ c ∈ cs.head?, c.isDigit = false

/-- Numbers are printed with digits only. -/
lemma isDigit_of_mem_digits {n : ℕ} {c : Char} (h : c ∈ digits n) : c.isDigit = true :=
  Nat.isDigit_of_mem_toDigits (by decide) (by decide) h

/-- The digits of a number end where the text does not go on with a digit. -/
lemma takeWhile_digits_append (n : ℕ) {cs : List Char} (h : NoDigit cs) :
    (digits n ++ cs).takeWhile Char.isDigit = digits n := by
  have hcs : cs.takeWhile Char.isDigit = [] := by
    cases cs with
    | nil => rfl
    | cons c cs => simp [h c rfl]
  rw [List.takeWhile_append_of_pos fun c hc => isDigit_of_mem_digits hc, hcs, List.append_nil]

/-- A number can be read off a text that does not go on with a digit. -/
lemma digits_append_inj {n m : ℕ} {cs cs' : List Char} (h : NoDigit cs) (h' : NoDigit cs')
    (heq : digits n ++ cs = digits m ++ cs') : n = m ∧ cs = cs' := by
  have hd : digits n = digits m := by
    rw [← takeWhile_digits_append n h, heq, takeWhile_digits_append m h']
  refine ⟨?_, List.append_cancel_left (hd ▸ heq)⟩
  have := congrArg (fun ds => Nat.ofDigitChars 10 ds 0) hd
  simpa [digits, Nat.ofDigitChars_toDigits] using this

/-- The first digit of a number. -/
lemma exists_digits_eq_cons (n : ℕ) : ∃ c cs, digits n = c :: cs ∧ c.isDigit = true := by
  obtain ⟨c, cs, h⟩ := List.exists_cons_of_ne_nil (Nat.toDigits_ne_nil : digits n ≠ [])
  exact ⟨c, cs, h, isDigit_of_mem_digits (h ▸ List.mem_cons_self)⟩

/-- A text without blanks can be read off a text where a blank follows it. -/
lemma blank_append_inj {s s' cs cs' : List Char} (h : ' ' ∉ s) (h' : ' ' ∉ s')
    (heq : s ++ ' ' :: cs = s' ++ ' ' :: cs') : s = s' ∧ cs = cs' := by
  induction s generalizing s' with
  | nil =>
    cases s' with
    | nil => exact ⟨rfl, (List.cons.inj heq).2⟩
    | cons c s' => exact absurd (List.mem_cons.mpr (.inl (List.cons.inj heq).1)) h'
  | cons c s ih =>
    cases s' with
    | nil => exact absurd (List.mem_cons.mpr (.inl (List.cons.inj heq).1.symm)) h
    | cons c' s' =>
      obtain ⟨rfl, htl⟩ := List.cons.inj heq
      obtain ⟨rfl, hcs⟩ := ih (fun hm => h (.tail _ hm)) (fun hm => h' (.tail _ hm)) htl
      exact ⟨rfl, hcs⟩

/-- No operator has a blank in it. -/
lemma BinOp.blank_notMem_display (op : BinOp) : ' ' ∉ op.display.toList := by
  cases op <;> decide

/-- Operators have different texts. -/
lemma BinOp.display_injective {op op' : BinOp} (h : op.display.toList = op'.display.toList) :
    op = op' := by
  cases op <;> cases op' <;> first | rfl | exact absurd h (by decide)

/-- A character, with one for all digits. -/
def charClass (c : Char) : Char :=
  if c.isDigit then '0' else c

/-- The class of a token's first character. -/
def headClass : Token → Char
  | .leaf (.var _) => 'a'
  | .leaf (.num _) => '0'
  | .leaf (.bool true) => 't'
  | .leaf (.bool false) => 'f'
  | .unary .not => '~'
  | .unary .neg => '-'
  | .binary _ => ' '
  | .lparen => '('
  | .rparen => ')'

/-- The first character of a token tells what kind of token it is. -/
lemma exists_text_eq_cons (t : Token) :
    ∃ c cs, text t = c :: cs ∧ charClass c = headClass t := by
  rcases t with (x | n | _ | _) | (_ | _) | op | _ | _
  case leaf.num =>
    obtain ⟨c, cs, h, hc⟩ := exists_digits_eq_cons n
    exact ⟨c, cs, h, if_pos hc⟩
  all_goals exact ⟨_, _, rfl, rfl⟩

/-- The text after a token: after an operand it does not go on with a digit. -/
def Follows (t : Token) (cs : List Char) : Prop :=
  IsOperand t → NoDigit cs

/-- **A token can be read off a text.** -/
lemma text_append_inj {t t' : Token} {cs cs' : List Char} (h : Follows t cs) (h' : Follows t' cs')
    (heq : text t ++ cs = text t' ++ cs') : t = t' ∧ cs = cs' := by
  have hhead : headClass t = headClass t' := by
    obtain ⟨c, ds, ht, hc⟩ := exists_text_eq_cons t
    obtain ⟨c', ds', ht', hc'⟩ := exists_text_eq_cons t'
    rw [ht, ht'] at heq
    rw [← hc, ← hc', (List.cons.inj heq).1]
  -- the class of the first character tells the tokens apart up to numbers and infix operators
  rcases t with (x | n | _ | _) | (_ | _) | op | _ | _ <;>
    rcases t' with (y | m | _ | _) | (_ | _) | op' | _ | _ <;>
    first
    | exact ⟨rfl, List.append_cancel_left heq⟩
    | (simp [headClass] at hhead; done)
    | skip
  case leaf.var.leaf.var =>
    obtain ⟨rfl, hcs⟩ := digits_append_inj (h trivial) (h' trivial) (List.cons.inj heq).2
    exact ⟨rfl, hcs⟩
  case leaf.num.leaf.num =>
    obtain ⟨rfl, hcs⟩ := digits_append_inj (h trivial) (h' trivial) heq
    exact ⟨rfl, hcs⟩
  case binary.binary =>
    obtain ⟨hop, hcs⟩ := blank_append_inj op.blank_notMem_display op'.blank_notMem_display
      (by simpa [text] using heq)
    exact ⟨BinOp.display_injective hop ▸ rfl, hcs⟩

/-- A sequence of separated tokens continues an operand without a digit. -/
lemma follows_render {t : Token} {ts : List Token} (h : Separated (t :: ts)) :
    Follows t (render ts) := by
  intro ht
  cases ts with
  | nil => exact fun c hc => by simp at hc
  | cons t' ts =>
    have ht' : ¬IsOperand t' := (List.isChain_cons.mp h).1 t' rfl ht
    obtain ⟨c, ds, hds, hc⟩ := exists_text_eq_cons t'
    intro d hd
    simp only [render_cons, hds, List.cons_append, List.head?_cons, Option.mem_def,
      Option.some.injEq] at hd
    subst hd
    rcases t' with _ | (_ | _) | op | _ | _
    case leaf => exact (ht' trivial).elim
    all_goals
      by_contra hdigit
      rw [Bool.not_eq_false] at hdigit
      simp [charClass, headClass, hdigit] at hc

/-- **Separated tokens with one text are equal.** -/
theorem render_injective {ts ts' : List Token} (h : Separated ts) (h' : Separated ts')
    (heq : render ts = render ts') : ts = ts' := by
  induction ts generalizing ts' with
  | nil =>
    cases ts' with
    | nil => rfl
    | cons t' ts' =>
      obtain ⟨c, ds, hds, -⟩ := exists_text_eq_cons t'
      simp [hds] at heq
  | cons t ts ih =>
    cases ts' with
    | nil =>
      obtain ⟨c, ds, hds, -⟩ := exists_text_eq_cons t
      simp [hds] at heq
    | cons t' ts' =>
      obtain ⟨rfl, htl⟩ := text_append_inj (follows_render h) (follows_render h') heq
      rw [ih (List.isChain_cons.mp h).2 (List.isChain_cons.mp h').2 htl]

/-- **Two expressions with one text have the same tokens.** -/
theorem Expr.toks_eq_of_display_eq {e e' : Expr} (h : e.display = e'.display) :
    e.toks = e'.toks := by
  refine render_injective e.separated_toks e'.separated_toks ?_
  rw [← toList_display, ← toList_display, h]

end LiquidRust.Fixpoint
