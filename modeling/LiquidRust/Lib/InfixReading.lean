import Mathlib.Tactic.Common

set_option relaxedAutoImplicit false
set_option autoImplicit false

/-!
# Reading infix notation

A text of operands, unary operators, infix operators and parentheses is read by operator
precedence: an infix operator takes the operand to its right, together with the operators of
higher precedence in it, and operators of the same precedence group to the left. The reading is
a relation between a text and its value in an algebra, so it gives at once a syntax tree, a
value or whatever else the parts of a text stand for.

## Main definitions

* `LiquidRust.Lib.Tok` — tokens.
* `LiquidRust.Lib.InfixAlgebra` — what operands and operators stand for.
* `LiquidRust.Lib.InfixAlgebra.Reads` — the reading of a text.

## Main results

* `LiquidRust.Lib.InfixAlgebra.Reads.unique` — a text has at most one reading.
* `LiquidRust.Lib.InfixAlgebra.ReadsFrom.paren`, `ReadsFrom.binary` — how texts are put together.
-/

namespace LiquidRust.Lib

/-- A token of infix notation. -/
inductive Tok (α υ β : Type)
  | leaf (a : α)
  | unary (u : υ)
  | binary (b : β)
  | lparen
  | rparen
  deriving DecidableEq

/-- What the operands and operators of a text stand for. -/
structure InfixAlgebra (α υ β : Type) (E : Type) where
  /-- the value of an operand -/
  leaf : α → E
  /-- the value of a unary operator -/
  unary : υ → E → E
  /-- the value of an infix operator -/
  binary : β → E → E → E

namespace InfixAlgebra

variable {α υ β E : Type} (A : InfixAlgebra α υ β E) (level : β → ℕ)

/-- A text does not go on with an infix operator of a level of at least `k`. -/
def StopsAt (k : ℕ) (ts : List (Tok α υ β)) : Prop :=
  ∀ b ts', ts = .binary b :: ts' → level b < k

/-- `Reads acc ts e rest` states that a reader at the text `ts` reads `e` and stops at `rest`.
Without `acc` it reads a single operand. With `acc = some (k, x)` it has read `x` and goes on
with the infix operators of a level of at least `k`. -/
inductive Reads : Option (ℕ × E) → List (Tok α υ β) → E → List (Tok α υ β) → Prop
  | leaf (a : α) (rest : List (Tok α υ β)) : Reads none (.leaf a :: rest) (A.leaf a) rest
  | unary (u : υ) {ts rest : List (Tok α υ β)} {e : E} : Reads none ts e rest →
      Reads none (.unary u :: ts) (A.unary u e) rest
  | paren {ts ts' rest : List (Tok α υ β)} {x e : E} : Reads none ts x ts' →
      Reads (some (0, x)) ts' e (.rparen :: rest) → Reads none (.lparen :: ts) e rest
  | stop (k : ℕ) (x : E) (rest : List (Tok α υ β)) : StopsAt level k rest →
      Reads (some (k, x)) rest x rest
  | binary {k : ℕ} {b : β} {x y z e : E} {ts ts₁ ts₂ rest : List (Tok α υ β)} : k ≤ level b →
      Reads none ts y ts₁ → Reads (some (level b + 1, y)) ts₁ z ts₂ →
      Reads (some (k, A.binary b x z)) ts₂ e rest → Reads (some (k, x)) (.binary b :: ts) e rest

/-- `ReadsFrom k ts e rest` states that a reader of an operand and the infix operators of a
level of at least `k` that follow it reads `e` and stops at `rest`. -/
def ReadsFrom (k : ℕ) (ts : List (Tok α υ β)) (e : E) (rest : List (Tok α υ β)) : Prop :=
  ∃ x ts', Reads A level none ts x ts' ∧ Reads A level (some (k, x)) ts' e rest

variable {A level}

/-- What stops an operator stops the ones of higher levels. -/
lemma StopsAt.mono {k k' : ℕ} {ts : List (Tok α υ β)} (h : StopsAt level k ts) (hk : k ≤ k') :
    StopsAt level k' ts :=
  fun b ts' hts => Nat.lt_of_lt_of_le (h b ts' hts) hk

/-- A text stops at its end. -/
lemma stopsAt_nil (k : ℕ) : StopsAt level k ([] : List (Tok α υ β)) :=
  fun _ _ h => by simp at h

/-- It stops at a closing parenthesis. -/
lemma stopsAt_rparen (k : ℕ) (ts : List (Tok α υ β)) : StopsAt level k (.rparen :: ts) :=
  fun _ _ h => by simp at h

/-- It stops at an operator of a lower level. -/
lemma stopsAt_binary {k : ℕ} {b : β} (h : level b < k) (ts : List (Tok α υ β)) :
    StopsAt level k (.binary b :: ts) := by
  intro b' ts' hts
  obtain ⟨rfl, -⟩ : b = b' ∧ ts = ts' := by simpa using hts
  exact h

/-- **A text has at most one reading.** -/
theorem Reads.unique {acc : Option (ℕ × E)} {ts : List (Tok α υ β)} {e e' : E}
    {rest rest' : List (Tok α υ β)} (h : Reads A level acc ts e rest)
    (h' : Reads A level acc ts e' rest') : e = e' ∧ rest = rest' := by
  induction h generalizing e' rest' with
  | leaf a rest =>
    cases h'
    exact ⟨rfl, rfl⟩
  | unary u _ ih =>
    cases h' with
    | unary _ h' =>
      obtain ⟨rfl, rfl⟩ := ih h'
      exact ⟨rfl, rfl⟩
  | paren _ _ ih₁ ih₂ =>
    cases h' with
    | paren h₁ h₂ =>
      obtain ⟨rfl, rfl⟩ := ih₁ h₁
      obtain ⟨rfl, h⟩ := ih₂ h₂
      exact ⟨rfl, (List.cons.inj h).2⟩
  | stop k x rest hstop =>
    cases h' with
    | stop => exact ⟨rfl, rfl⟩
    | binary hk => exact absurd (hstop _ _ rfl) (by omega)
  | binary hk _ _ _ ih₁ ih₂ ih₃ =>
    cases h' with
    | stop _ _ _ hstop => exact absurd (hstop _ _ rfl) (by omega)
    | binary _ h₁ h₂ h₃ =>
      obtain ⟨rfl, rfl⟩ := ih₁ h₁
      obtain ⟨rfl, rfl⟩ := ih₂ h₂
      exact ih₃ h₃

/-- A whole text has at most one reading. -/
lemma ReadsFrom.unique {k : ℕ} {ts rest rest' : List (Tok α υ β)} {e e' : E}
    (h : ReadsFrom A level k ts e rest) (h' : ReadsFrom A level k ts e' rest') :
    e = e' ∧ rest = rest' := by
  obtain ⟨x, ts₁, h₁, h₂⟩ := h
  obtain ⟨x', ts₁', h₁', h₂'⟩ := h'
  obtain ⟨rfl, rfl⟩ := h₁.unique h₁'
  exact h₂.unique h₂'

/-- A reader that stops can go on with operators of lower levels. -/
lemma Reads.goOn {k k' : ℕ} {x y e : E} {ts mid rest : List (Tok α υ β)} (hk : k' ≤ k)
    (h : Reads A level (some (k, x)) ts y mid) (h' : Reads A level (some (k', y)) mid e rest) :
    Reads A level (some (k', x)) ts e rest := by
  generalize hacc : some (k, x) = acc at h
  induction h generalizing x with
  | leaf | unary | paren => cases hacc
  | stop =>
    cases hacc
    exact h'
  | binary hb h₁ h₂ _ _ _ ih =>
    cases hacc
    exact .binary (Nat.le_trans hk hb) h₁ h₂ (ih h' rfl)

/-- A text in parentheses is an operand. -/
lemma ReadsFrom.paren {ts rest : List (Tok α υ β)} {e : E}
    (h : ReadsFrom A level 0 ts e (.rparen :: rest)) :
    Reads A level none (.lparen :: ts) e rest := by
  obtain ⟨x, ts', h₁, h₂⟩ := h
  exact .paren h₁ h₂

/-- An infix operator takes the text to its right up to the next operator of its own level. -/
lemma ReadsFrom.binary {k : ℕ} {b : β} {x y e : E} {ts ts' rest : List (Tok α υ β)}
    (hk : k ≤ level b) (h : ReadsFrom A level (level b + 1) ts y ts')
    (h' : Reads A level (some (k, A.binary b x y)) ts' e rest) :
    Reads A level (some (k, x)) (.binary b :: ts) e rest := by
  obtain ⟨z, ts₁, h₁, h₂⟩ := h
  exact .binary hk h₁ h₂ h'

end InfixAlgebra

end LiquidRust.Lib
