import LiquidRust.Syntax.Ast
import Mathlib.Algebra.Group.Nat.Defs

set_option relaxedAutoImplicit false
set_option autoImplicit false

/-!
# The lexer of annotations

The adaptor of `liquid-rust-syntax/src/lexer.rs` between the token trees of the Rust compiler and
the parser of annotations. It goes through the trees with a stack of the groups that it is in.

## Main definitions

* `LiquidRust.Syntax.TokenKind`, `TokenTree` — the tokens and token trees of the compiler.
* `LiquidRust.Syntax.Token` — the tokens of the grammar.
* `LiquidRust.Syntax.Cursor.next` — the next token of a cursor.
* `LiquidRust.Syntax.Cursor.items` — the tokens of token trees, from left to right.
* `LiquidRust.Syntax.Cursor.Balanced` — tokens whose delimiters are balanced.

## Main results

* `LiquidRust.Syntax.Cursor.yields_new` — a cursor yields the tokens from left to right.
* `LiquidRust.Syntax.Cursor.next_flattens` — the answers of all calls, and balanced delimiters.
-/

namespace LiquidRust.Syntax

/-! ## Tokens of the compiler -/

/-- `rustc_ast::token::BinOpToken`. -/
inductive BinOpToken
  | plus
  | minus
  | star
  | slash
  | percent
  | caret
  | and
  | or
  | shl
  | shr
  deriving DecidableEq, Repr

/-- `rustc_ast::token::DelimToken`. -/
inductive DelimToken
  | paren
  | bracket
  | brace
  | noDelim
  deriving DecidableEq, Repr

/-- `rustc_ast::token::TokenKind`. The kinds that are neither glued to others nor mapped are
`other`. -/
inductive TokenKind
  | eq
  | lt
  | le
  | eqEq
  | ne
  | ge
  | gt
  | andAnd
  | orOr
  | not
  | binOp (op : BinOpToken)
  | binOpEq (op : BinOpToken)
  | at
  | dot
  | dotDot
  | dotDotDot
  | dotDotEq
  | comma
  | semi
  | colon
  | modSep
  | rArrow
  | lArrow
  | fatArrow
  | openDelim (delim : DelimToken)
  | closeDelim (delim : DelimToken)
  | literal (kind : LitKind) (symbol : Symbol) (suffix : Option Symbol)
  | ident (name : Symbol) (is_raw : Bool)
  | other
  deriving DecidableEq, Repr

/-- Byte positions in the source. -/
structure Span where
  lo : ℕ
  hi : ℕ
  deriving DecidableEq, Repr

/-- `rustc_ast::tokenstream::TokenTree`. -/
inductive TokenTree
  | token (kind : TokenKind) (span : Span)
  | delimited (spanOpen spanClose : Span) (delim : DelimToken) (tokens : List TokenTree)

/-- `rustc_ast::tokenstream::TokenStream`. -/
abbrev TokenStream := List TokenTree

/-! ## Tokens of the grammar -/

/-- The tokens of annotations. -/
inductive Token
  | caret
  | eqEq
  | andAnd
  | orOr
  | plus
  | minus
  | colon
  | comma
  | semi
  | rArrow
  | lt
  | le
  | gt
  | ge
  | at
  | fn
  | iff
  | fatArrow
  | literal (lit : Lit)
  | ident (symb : Symbol)
  | openDelim (delim : DelimToken)
  | closeDelim (delim : DelimToken)
  | invalid
  | ref
  deriving DecidableEq, Repr

/-- A token between two locations. -/
abbrev Item := ℕ × Token × ℕ

/-- `map_token`, without the locations. -/
def TokenKind.mapToken : TokenKind → Token
  | .lt => .lt
  | .le => .le
  | .eqEq => .eqEq
  | .andAnd => .andAnd
  | .orOr => .orOr
  | .fatArrow => .fatArrow
  | .gt => .gt
  | .ge => .ge
  | .at => .at
  | .comma => .comma
  | .colon => .colon
  | .semi => .semi
  | .rArrow => .rArrow
  | .openDelim delim => .openDelim delim
  | .closeDelim delim => .closeDelim delim
  | .literal kind symbol none => .literal ⟨kind, symbol⟩
  | .ident symb _ =>
    if symb = "true" ∨ symb = "false" then .literal ⟨.bool, symb⟩
    else if symb = "ref" then .ref
    else if symb = "fn" then .fn
    else .ident symb
  | .binOp .or => .caret
  | .binOp .plus => .plus
  | .binOp .minus => .minus
  | _ => .invalid

/-! ## The cursor -/

/-- A group that a cursor is in: the trees that are left of it, and its closing token. -/
structure Frame where
  cursor : List TokenTree
  close : Option Item

/-- The groups that a cursor is in, the innermost one first. -/
structure Cursor where
  stack : List Frame
  offset : ℕ

namespace Cursor

/-- A cursor before the first token of a stream. -/
def new (stream : TokenStream) (offset : ℕ) : Cursor where
  stack := [⟨stream, none⟩]
  offset := offset

/-- The location of a position, relative to the offset where the annotation begins. Positions are
subtracted in 32 bits. -/
def location (offset pos : ℕ) : ℕ :=
  (pos + 2 ^ 32 - offset) % 2 ^ 32

/-- `map_token`. -/
def mapToken (offset : ℕ) (kind : TokenKind) (span : Span) : Item :=
  (location offset span.lo, kind.mapToken, location offset span.hi)

/-- Whether two tokens are read as `<=>`. -/
def isIff (kind : TokenKind) (span : Span) (kind' : TokenKind) (span' : Span) : Bool :=
  kind = .le && kind' = .gt && span.hi = span'.lo

/-- The next token, and the cursor after it. -/
def next (c : Cursor) : Option Item × Cursor :=
  match c.stack with
  | [] => (none, c)
  | top :: frames =>
    match top.cursor with
    | .token kind span :: .token kind' span' :: trees =>
      if isIff kind span kind' span' then
        (some (location c.offset span.lo, .iff, location c.offset span'.hi),
          { c with stack := { top with cursor := trees } :: frames })
      else
        (some (mapToken c.offset kind span),
          { c with stack := { top with cursor := .token kind' span' :: trees } :: frames })
    | .token kind span :: trees =>
      (some (mapToken c.offset kind span),
        { c with stack := { top with cursor := trees } :: frames })
    | .delimited spanOpen spanClose delim tokens :: trees =>
      let close :=
        (location c.offset spanClose.lo, .closeDelim delim, location c.offset spanClose.hi)
      (some (mapToken c.offset (.openDelim delim) spanOpen),
        { c with stack := ⟨tokens, some close⟩ :: { top with cursor := trees } :: frames })
    | [] => (top.close, { c with stack := frames })

/-- `c.Yields items` states that a cursor yields `items` and then nothing. -/
inductive Yields : Cursor → List Item → Prop
  | done {c : Cursor} : c.next.1 = none → Yields c []
  | step {c c' : Cursor} {item : Item} {items : List Item} : c.next = (some item, c') →
      Yields c' items → Yields c (item :: items)

/-- A cursor yields one list of tokens. -/
lemma Yields.unique {c : Cursor} {items items' : List Item} (h : c.Yields items)
    (h' : c.Yields items') : items = items' := by
  induction h generalizing items' with
  | done hnone =>
    cases h' with
    | done => rfl
    | step hstep => simp [hstep] at hnone
  | step hstep _ ih =>
    cases h' with
    | done hnone => simp [hstep] at hnone
    | step hstep' h' =>
      obtain ⟨hitem, rfl⟩ := Prod.mk.inj (hstep.symm.trans hstep')
      obtain rfl := Option.some.inj hitem
      rw [ih h']

/-! ## From left to right -/

/-- **The tokens of token trees**, from left to right. -/
def items (offset : ℕ) : List TokenTree → List Item
  | [] => []
  | .token kind span :: .token kind' span' :: trees =>
    if isIff kind span kind' span' then
      (location offset span.lo, .iff, location offset span'.hi) :: items offset trees
    else mapToken offset kind span :: items offset (.token kind' span' :: trees)
  | .token kind span :: trees => mapToken offset kind span :: items offset trees
  | .delimited spanOpen spanClose delim tokens :: trees =>
    mapToken offset (.openDelim delim) spanOpen :: items offset tokens ++
      mapToken offset (.closeDelim delim) spanClose :: items offset trees

/-- The tokens that are left in a stack of groups. -/
def remaining (offset : ℕ) : List Frame → List Item
  | [] => []
  | top :: frames => items offset top.cursor ++
    match top.close with
    | some close => close :: remaining offset frames
    | none => []

/-- **A step of the cursor** takes the first of the tokens that are left. -/
lemma next_spec (c : Cursor) :
    match remaining c.offset c.stack with
    | [] => c.next.1 = none
    | item :: rest => ∃ stack, c.next = (some item, { c with stack := stack }) ∧
        remaining c.offset stack = rest := by
  obtain ⟨stack, offset⟩ := c
  cases stack with
  | nil => rfl
  | cons top frames =>
    obtain ⟨trees, close⟩ := top
    cases trees with
    | nil =>
      cases close with
      | none => simp only [remaining, items, next, List.append_nil]
      | some close =>
        simp only [remaining, items, next, List.nil_append]
        exact ⟨frames, rfl, rfl⟩
    | cons tree trees =>
      cases tree with
      | delimited spanOpen spanClose delim tokens =>
        simp only [remaining, items, next, List.append_assoc, List.cons_append]
        exact ⟨_, rfl, rfl⟩
      | token kind span =>
        cases trees with
        | nil =>
          simp only [remaining, items, next, List.cons_append]
          exact ⟨_, rfl, by simp only [remaining, items]⟩
        | cons tree' trees =>
          cases tree' with
          | delimited spanOpen spanClose delim tokens =>
            simp only [remaining, items, next, List.append_assoc, List.cons_append]
            exact ⟨_, rfl, by simp only [remaining, items, List.append_assoc, List.cons_append]⟩
          | token kind' span' =>
            by_cases hiff : isIff kind span kind' span'
            · simp only [remaining, items, next, hiff, if_true, List.cons_append]
              exact ⟨_, rfl, rfl⟩
            · simp only [remaining, items, next, hiff]
              exact ⟨_, rfl, rfl⟩

/-- A cursor yields the tokens that are left. -/
lemma yields_remaining (c : Cursor) : c.Yields (remaining c.offset c.stack) := by
  generalize hitems : remaining c.offset c.stack = items
  induction items generalizing c with
  | nil =>
    have h := next_spec c
    rw [hitems] at h
    exact .done h
  | cons item rest ih =>
    have h := next_spec c
    rw [hitems] at h
    obtain ⟨stack, hnext, hrest⟩ := h
    exact .step hnext (ih { c with stack := stack } hrest)

/-- **A cursor yields the tokens** of the trees from left to right. -/
theorem yields_new (stream : TokenStream) (offset : ℕ) :
    (new stream offset).Yields (items offset stream) := by
  have h := yields_remaining (new stream offset)
  simpa only [new, remaining, List.append_nil] using h

/-! ## Call after call -/

/-- The cursor after a number of calls of `next`. -/
def advance (c : Cursor) : ℕ → Cursor
  | 0 => c
  | k + 1 => c.next.2.advance k

/-- Only the outermost group has no closing token. -/
def Bottomed : List Frame → Prop
  | [] => True
  | top :: frames => (top.close = none → frames = []) ∧ Bottomed frames

/-- A bottomed stack stays bottomed under `next`. -/
lemma bottomed_next {c : Cursor} (h : Bottomed c.stack) : Bottomed c.next.2.stack := by
  obtain ⟨stack, offset⟩ := c
  cases stack with
  | nil => trivial
  | cons top frames =>
    obtain ⟨htop, hframes⟩ := h
    unfold next
    dsimp only
    split
    · split
      · exact ⟨htop, hframes⟩
      · exact ⟨htop, hframes⟩
    · exact ⟨htop, hframes⟩
    · exact ⟨(nomatch ·), htop, hframes⟩
    · exact hframes

/-- Without a next token, there is nothing that the cursor is in any more. -/
lemma stack_next_of_none {c : Cursor} (h : Bottomed c.stack) (hnone : c.next.1 = none) :
    c.next.2.stack = [] := by
  obtain ⟨stack, offset⟩ := c
  cases stack with
  | nil => rfl
  | cons top frames =>
    obtain ⟨htop, -⟩ := h
    unfold next at hnone ⊢
    dsimp only at hnone ⊢
    split at hnone
    · split at hnone <;> nomatch hnone
    · nomatch hnone
    · nomatch hnone
    · exact htop hnone

/-- `next` keeps the offset. -/
lemma offset_next (c : Cursor) : c.next.2.offset = c.offset := by
  unfold next
  split
  · rfl
  · split
    · split <;> rfl
    · rfl
    · rfl
    · rfl

/-- **The calls of `next`** answer with the tokens that are left, and with nothing ever after. -/
lemma next_advance {c : Cursor} (h : Bottomed c.stack) (k : ℕ) :
    (c.advance k).next.1 = (remaining c.offset c.stack)[k]? := by
  have hspec := next_spec c
  induction k generalizing c with
  | zero =>
    cases hitems : remaining c.offset c.stack with
    | nil =>
      rw [hitems] at hspec
      exact hspec
    | cons item rest =>
      rw [hitems] at hspec
      obtain ⟨stack, hnext, -⟩ := hspec
      simp [advance, hnext]
  | succ k ih =>
    rw [advance, ih (bottomed_next h) (next_spec _), offset_next]
    cases hitems : remaining c.offset c.stack with
    | nil =>
      rw [hitems] at hspec
      rw [stack_next_of_none h hspec, remaining]
      rfl
    | cons item rest =>
      rw [hitems] at hspec
      obtain ⟨stack, hnext, hrest⟩ := hspec
      rw [hnext, hrest, List.getElem?_cons_succ]

/-! ## Balanced tokens -/

/-- **Tokens whose delimiters are balanced.** -/
inductive Balanced : List Token → Prop
  | nil : Balanced []
  | cons {t : Token} {ts : List Token} (ht : ∀ delim, t ≠ .openDelim delim ∧ t ≠ .closeDelim delim)
      (h : Balanced ts) : Balanced (t :: ts)
  | group {ts ts' : List Token} (delim : DelimToken) (h : Balanced ts) (h' : Balanced ts') :
      Balanced (.openDelim delim :: ts ++ .closeDelim delim :: ts')

/-- The compiler keeps delimiters in the groups and has no tokens of their own for them. -/
def DelimsInGroups : List TokenTree → Prop
  | [] => True
  | .token kind _ :: trees =>
    (∀ delim, kind ≠ .openDelim delim ∧ kind ≠ .closeDelim delim) ∧ DelimsInGroups trees
  | .delimited _ _ _ tokens :: trees => DelimsInGroups tokens ∧ DelimsInGroups trees

/-- Delimiters are mapped from delimiters only. -/
lemma mapToken_ne_delim {kind : TokenKind}
    (h : ∀ delim, kind ≠ .openDelim delim ∧ kind ≠ .closeDelim delim) (delim : DelimToken) :
    kind.mapToken ≠ .openDelim delim ∧ kind.mapToken ≠ .closeDelim delim := by
  unfold TokenKind.mapToken
  split
  case h_14 delim' => exact absurd rfl (h delim').1
  case h_15 delim' => exact absurd rfl (h delim').2
  case h_17 =>
    split_ifs
    all_goals exact ⟨(nomatch ·), (nomatch ·)⟩
  all_goals exact ⟨(nomatch ·), (nomatch ·)⟩

/-- The tokens of trees whose delimiters stand in groups are balanced. -/
lemma balanced_items (offset : ℕ) {trees : List TokenTree} (h : DelimsInGroups trees) :
    Balanced ((items offset trees).map fun item => item.2.1) := by
  induction trees using items.induct with
  | case1 =>
    simp only [items]
    exact .nil
  | case2 kind span kind' span' trees hiff ih =>
    rw [DelimsInGroups, DelimsInGroups] at h
    obtain ⟨-, -, htrees⟩ := h
    simp only [items, hiff, if_true, List.map_cons]
    exact .cons (fun _ => ⟨(nomatch ·), (nomatch ·)⟩) (ih htrees)
  | case3 kind span kind' span' trees hiff ih =>
    rw [DelimsInGroups] at h
    obtain ⟨hkind, htrees⟩ := h
    simp only [items, hiff]
    exact .cons (mapToken_ne_delim hkind) (ih htrees)
  | case4 kind span trees hnext ih =>
    rw [DelimsInGroups] at h
    obtain ⟨hkind, htrees⟩ := h
    rw [items, List.map_cons]
    · exact .cons (mapToken_ne_delim hkind) (ih htrees)
    · exact hnext
  | case5 spanOpen spanClose delim tokens trees ih ih' =>
    rw [DelimsInGroups] at h
    obtain ⟨htokens, htrees⟩ := h
    simp only [items, List.map_append, List.map_cons]
    exact .group delim (ih htokens) (ih' htrees)

/-- **The cursor flattens token trees without loss.** The calls of `next` answer with the tokens of
the trees from left to right, each group between its opening and its closing token and each `<=>` as
one token, and with nothing ever after. Where the trees keep delimiters in groups, the tokens are
balanced.

**Proof sketch.** The tokens that are left are those of the trees that are left of each group in the
stack, with its closing token after them. A call takes the first of these. It goes into a group by
a new group in the stack, and the end of a group is its closing token. Only the outermost group
has none, and without a token to answer with that group goes, and the stack is empty from there
on. -/
theorem next_flattens (stream : TokenStream) (offset : ℕ) :
    (∀ k, ((new stream offset).advance k).next.1 = (items offset stream)[k]?) ∧
      (DelimsInGroups stream → Balanced ((items offset stream).map fun item => item.2.1)) := by
  refine ⟨fun k => ?_, balanced_items offset⟩
  have hbottom : Bottomed (new stream offset).stack := ⟨fun _ => rfl, trivial⟩
  have hremaining : remaining offset (new stream offset).stack = items offset stream := by
    simp only [new, remaining, List.append_nil]
  rw [next_advance hbottom k, ← hremaining]
  rfl

/-- `(a<=>{}<=)>`, where the last two symbols are in different groups. -/
def iffTrees : TokenStream :=
  [.delimited ⟨0, 1⟩ ⟨9, 10⟩ .paren
    [.token (.ident "a" false) ⟨1, 2⟩, .token .le ⟨2, 4⟩, .token .gt ⟨4, 5⟩,
      .delimited ⟨5, 6⟩ ⟨6, 7⟩ .brace [], .token .le ⟨7, 9⟩],
    .token .gt ⟨10, 11⟩]

/-- The items of `iffTrees`. -/
def iffItems : List Item :=
  [(0, .openDelim .paren, 1), (1, .ident "a", 2), (2, .iff, 5), (5, .openDelim .brace, 6),
    (6, .closeDelim .brace, 7), (7, .le, 9), (9, .closeDelim .paren, 10), (10, .gt, 11)]

/-- The calls of `next` on a tree with a joint `<=>` give its tokens in order, balanced. -/
theorem next_flattens_iffTrees :
    (∀ k, ((new iffTrees 0).advance k).next.1 = iffItems[k]?) ∧
      Balanced (iffItems.map fun item => item.2.1) := by
  have hitems : items 0 iffTrees = iffItems := by
    simp [iffTrees, iffItems, items, isIff, mapToken, location, TokenKind.mapToken]
  have hdelims : DelimsInGroups iffTrees := by
    simp [iffTrees, DelimsInGroups]
  obtain ⟨hnext, hbalanced⟩ := next_flattens iffTrees 0
  rw [hitems] at hnext hbalanced
  exact ⟨hnext, hbalanced hdelims⟩

end Cursor

end LiquidRust.Syntax
