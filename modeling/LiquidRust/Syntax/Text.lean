import LiquidRust.Syntax.Lexer

set_option relaxedAutoImplicit false
set_option autoImplicit false

/-!
# The text of annotations

How the Rust compiler reads text as tokens: punctuation is read character by character, and what
touches is glued into the longest tokens there are. Two `>` that touch are one shift token, which
the cursor maps to no token of the grammar.

## Main definitions

* `LiquidRust.Syntax.Text` — tokens of the grammar, with spaces between some of them.
* `LiquidRust.Syntax.TokenKind.glue` — the token that two touching tokens are glued into.
* `LiquidRust.Syntax.Text.tokenise` — the tokens that the compiler reads.
* `LiquidRust.Syntax.TokenTree.flat` — the tokens of token trees, groups opened and closed.

## Main results

* `LiquidRust.Syntax.Cursor.items_eq_lex` — the cursor goes through the flat list.
* `LiquidRust.Syntax.Text.readTokens_tokenise` — text is read as its tokens if they may touch.
* `LiquidRust.Syntax.Text.invalid_mem_readTokens_tokenise` — touching `>` are read as invalid.
-/

namespace LiquidRust.Syntax

/-! ## Gluing -/

/-- `rustc_ast::token::Token::glue`. -/
def TokenKind.glue : TokenKind → TokenKind → Option TokenKind
  | .eq, .eq => some .eqEq
  | .eq, .gt => some .fatArrow
  | .lt, .eq => some .le
  | .lt, .lt => some (.binOp .shl)
  | .lt, .le => some (.binOpEq .shl)
  | .lt, .binOp .minus => some .lArrow
  | .gt, .eq => some .ge
  | .gt, .gt => some (.binOp .shr)
  | .gt, .ge => some (.binOpEq .shr)
  | .not, .eq => some .ne
  | .binOp op, .eq => some (.binOpEq op)
  | .binOp .and, .binOp .and => some .andAnd
  | .binOp .or, .binOp .or => some .orOr
  | .binOp .minus, .gt => some .rArrow
  | .dot, .dot => some .dotDot
  | .dot, .dotDot => some .dotDotDot
  | .dotDot, .dot => some .dotDotDot
  | .dotDot, .eq => some .dotDotEq
  | .colon, .colon => some .modSep
  | _, _ => none

/-- A token of the compiler, and where it is. -/
abbrev Spanned := TokenKind × Span

/-- A token, glued to the ones after it as long as they touch. -/
def munch (t : Spanned) : List Spanned → List Spanned
  | [] => [t]
  | t' :: rest =>
    match if t.2.hi = t'.2.lo then t.1.glue t'.1 else none with
    | some kind => munch (kind, ⟨t.2.lo, t'.2.hi⟩) rest
    | none => t :: munch t' rest

/-- The tokens that the lexer of the compiler makes of the ones it reads. -/
def glueAll : List Spanned → List Spanned
  | [] => []
  | t :: rest => munch t rest

/-! ## Text -/

/-- The tokens that the compiler reads for a token of the grammar, before it glues them. -/
def Token.chars : Token → List TokenKind
  | .caret => [.binOp .or]
  | .eqEq => [.eq, .eq]
  | .andAnd => [.binOp .and, .binOp .and]
  | .orOr => [.binOp .or, .binOp .or]
  | .plus => [.binOp .plus]
  | .minus => [.binOp .minus]
  | .colon => [.colon]
  | .comma => [.comma]
  | .semi => [.semi]
  | .rArrow => [.binOp .minus, .gt]
  | .lt => [.lt]
  | .le => [.lt, .eq]
  | .gt => [.gt]
  | .ge => [.gt, .eq]
  | .at => [.at]
  | .fn => [.ident "fn" false]
  | .iff => [.lt, .eq, .gt]
  | .fatArrow => [.eq, .gt]
  | .literal ⟨.bool, symbol⟩ => [.ident symbol false]
  | .literal ⟨kind, symbol⟩ => [.literal kind symbol none]
  | .ident symb => [.ident symb false]
  | .openDelim delim => [.openDelim delim]
  | .closeDelim delim => [.closeDelim delim]
  | .invalid => [.other]
  | .ref => [.ident "ref" false]

/-- The number of bytes of a token that is not glued. -/
def TokenKind.width : TokenKind → ℕ
  | .ident name _ => name.utf8ByteSize
  | .literal _ symbol _ => symbol.utf8ByteSize
  | _ => 1

/-- A piece of text is a space or the word of a token. -/
inductive Piece
  | space
  | word (token : Token)
  deriving DecidableEq, Repr

/-- A text is a list of pieces. -/
abbrev Text := List Piece

/-- Tokens that touch, from a position on. -/
def spread (pos : ℕ) : List TokenKind → List Spanned
  | [] => []
  | kind :: kinds => (kind, ⟨pos, pos + kind.width⟩) :: spread (pos + kind.width) kinds

/-- The position after tokens that touch. -/
def after (pos : ℕ) (kinds : List TokenKind) : ℕ :=
  kinds.foldl (fun pos kind => pos + kind.width) pos

namespace Text

/-- What the compiler reads of text at a position, before it glues. -/
def layout (pos : ℕ) : Text → List Spanned
  | [] => []
  | .space :: text => layout (pos + 1) text
  | .word t :: text => spread pos t.chars ++ layout (after pos t.chars) text

/-- **The tokens that the compiler reads** of text at a position. -/
def tokenise (pos : ℕ) (text : Text) : List Spanned :=
  glueAll (layout pos text)

/-- The tokens that are in text. -/
def tokens : Text → List Token
  | [] => []
  | .space :: text => tokens text
  | .word t :: text => t :: tokens text

/-- The tokens of two texts in a row are the tokens of each. -/
@[simp] lemma tokens_append (text text' : Text) :
    tokens (text ++ text') = tokens text ++ tokens text' := by
  induction text with
  | nil => rfl
  | cons piece text ih => cases piece <;> simp [tokens, ih]

/-- The empty text has no tokens. -/
@[simp] lemma tokens_nil : tokens [] = [] := rfl

/-- A space is no token. -/
@[simp] lemma tokens_space (text : Text) : tokens (.space :: text) = tokens text := rfl

/-- A word is a token. -/
@[simp] lemma tokens_word (t : Token) (text : Text) :
    tokens (.word t :: text) = t :: tokens text := rfl

end Text

/-! ## Token trees -/

/-- The tokens of token trees, with the groups opened and closed. -/
def TokenTree.flat : List TokenTree → List Spanned
  | [] => []
  | .token kind span :: trees => (kind, span) :: flat trees
  | .delimited spanOpen spanClose delim tokens :: trees =>
    (.openDelim delim, spanOpen) :: flat tokens ++ (.closeDelim delim, spanClose) :: flat trees

namespace Cursor

/-- The tokens that the cursor makes of the ones of the compiler. -/
def lex (offset : ℕ) : List Spanned → List Item
  | [] => []
  | [t] => [mapToken offset t.1 t.2]
  | t :: t' :: rest =>
    if isIff t.1 t.2 t'.1 t'.2 then
      (location offset t.2.lo, .iff, location offset t'.2.hi) :: lex offset rest
    else mapToken offset t.1 t.2 :: lex offset (t' :: rest)

/-- A token that is not the second half of `<=>` is read on its own. -/
lemma lex_append (offset : ℕ) {t : Spanned} (ht : t.1 ≠ .gt) (ts rest : List Spanned) :
    lex offset (ts ++ t :: rest) = lex offset ts ++ lex offset (t :: rest) := by
  induction ts using lex.induct with
  | case1 => rfl
  | case2 t1 =>
    have hiff : isIff t1.1 t1.2 t.1 t.2 = false := by simp [isIff, ht]
    simp [lex, hiff]
  | case3 t1 t2 ts hiff ih => simp [lex, hiff, ih]
  | case4 t1 t2 ts hiff ih =>
    simp only [List.cons_append] at ih ⊢
    simp [lex, hiff, ih]

/-- A token that is not the first half of `<=>` is read on its own. -/
lemma lex_cons (offset : ℕ) {t : Spanned} (ht : t.1 ≠ .le) (rest : List Spanned) :
    lex offset (t :: rest) = mapToken offset t.1 t.2 :: lex offset rest := by
  cases rest with
  | nil => rfl
  | cons t' rest =>
    have hiff : isIff t.1 t.2 t'.1 t'.2 = false := by simp [isIff, ht]
    simp [lex, hiff]

/-- **The tokens of token trees** are those of the flat list. -/
lemma items_eq_lex (offset : ℕ) (trees : List TokenTree) :
    items offset trees = lex offset (TokenTree.flat trees) := by
  induction trees using items.induct with
  | case1 => simp [items, TokenTree.flat, lex]
  | case2 kind span kind' span' trees hiff ih => simp [items, TokenTree.flat, lex, hiff, ih]
  | case3 kind span kind' span' trees hiff ih =>
    rw [TokenTree.flat, TokenTree.flat] at *
    simp only [items, lex, hiff, ih]
    rfl
  | case4 kind span trees htrees ih =>
    cases trees with
    | nil => simp [items, TokenTree.flat, lex]
    | cons tree trees =>
      cases tree with
      | token kind' span' => exact absurd rfl (htrees kind' span' trees)
      | delimited spanOpen spanClose delim tokens =>
        have hiff : isIff kind span (.openDelim delim) spanOpen = false := by simp [isIff]
        rw [items, ih]
        · simp [TokenTree.flat, lex, hiff]
        · intro _ _ _ h
          cases h
  | case5 spanOpen spanClose delim tokens trees ih ih' =>
    have hopen : (TokenKind.openDelim delim, spanOpen).1 ≠ .le := by simp
    have hclose : (TokenKind.closeDelim delim, spanClose).1 ≠ .gt := by simp
    have hclose' : (TokenKind.closeDelim delim, spanClose).1 ≠ .le := by simp
    simp only [items, ih, ih', TokenTree.flat, List.cons_append]
    rw [lex_cons offset hopen, lex_append offset hclose, lex_cons offset hclose']

end Cursor

/-! ## Reading text -/

open Cursor

/-- The last token of the compiler for a token of the grammar. -/
def Token.last : Token → TokenKind
  | .caret => .binOp .or
  | .eqEq => .eqEq
  | .andAnd => .andAnd
  | .orOr => .orOr
  | .plus => .binOp .plus
  | .minus => .binOp .minus
  | .colon => .colon
  | .comma => .comma
  | .semi => .semi
  | .rArrow => .rArrow
  | .lt => .lt
  | .le => .le
  | .gt => .gt
  | .ge => .ge
  | .at => .at
  | .fn => .ident "fn" false
  | .iff => .gt
  | .fatArrow => .fatArrow
  | .literal ⟨.bool, symbol⟩ => .ident symbol false
  | .literal ⟨kind, symbol⟩ => .literal kind symbol none
  | .ident symb => .ident symb false
  | .openDelim delim => .openDelim delim
  | .closeDelim delim => .closeDelim delim
  | .invalid => .other
  | .ref => .ident "ref" false

/-- The first of the tokens that the compiler reads for a token. -/
def Token.first (t : Token) : TokenKind :=
  t.chars.headD .other

/-- Whether two tokens can touch and still be read as they are. -/
def Token.MayTouch (t t' : Token) : Prop :=
  t.last.glue t'.first = none ∧ t ≠ .le

instance (t t' : Token) : Decidable (t.MayTouch t') :=
  inferInstanceAs (Decidable (_ ∧ _))

/-- Whether a token is read as itself. Keywords are not identifiers, and the literals of the
compiler are not Booleans. -/
def Token.WellFormed : Token → Prop
  | .literal ⟨.bool, symbol⟩ => symbol = "true" ∨ symbol = "false"
  | .ident symb => symb ≠ "true" ∧ symb ≠ "false" ∧ symb ≠ "ref" ∧ symb ≠ "fn"
  | .invalid => False
  | _ => True

instance : DecidablePred Token.WellFormed := fun t => by
  unfold Token.WellFormed
  split <;> infer_instance

namespace Text

/-- The token that text begins with. -/
def firstWord : Text → Option Token
  | .word t :: _ => some t
  | _ => none

end Text

/-- The characters of a token begin with its first one. -/
lemma Token.exists_chars_eq (t : Token) : ∃ kinds, t.chars = t.first :: kinds := by
  cases t with
  | literal lit =>
    obtain ⟨kind, symbol⟩ := lit
    cases kind <;> exact ⟨_, rfl⟩
  | _ => exact ⟨_, rfl⟩

/-- Text begins at its position, or later. -/
lemma le_lo_of_layout_eq_cons {pos : ℕ} {text : Text} {t : Spanned} {rest : List Spanned}
    (h : Text.layout pos text = t :: rest) : pos ≤ t.2.lo := by
  induction text generalizing pos with
  | nil => cases h
  | cons piece text ih =>
    cases piece with
    | space => exact Nat.le_trans (Nat.le_succ pos) (ih h)
    | word token =>
      obtain ⟨kinds, hchars⟩ := token.exists_chars_eq
      rw [Text.layout, hchars, spread, List.cons_append] at h
      simp [← (List.cons.inj h).1]

/-- What is glued begins where its first token does. -/
lemma exists_munch_eq (t : Spanned) (rest : List Spanned) :
    ∃ t' rest', munch t rest = t' :: rest' ∧ t'.2.lo = t.2.lo := by
  induction rest generalizing t with
  | nil => exact ⟨t, [], rfl, rfl⟩
  | cons t1 rest ih =>
    rw [munch]
    split
    · obtain ⟨t', rest', heq, hlo⟩ := ih (_, ⟨t.2.lo, t1.2.hi⟩)
      exact ⟨t', rest', heq, hlo⟩
    · exact ⟨t, _, rfl, rfl⟩

/-- A token that does not touch the next one, or that is not glued to it, is read on its own. -/
lemma munch_layout {t : Spanned} {text : Text}
    (h : ∀ t', text.firstWord = some t' → t.1.glue t'.first = none) :
    munch t (Text.layout t.2.hi text) = t :: Text.tokenise t.2.hi text := by
  unfold Text.tokenise
  cases hlayout : Text.layout t.2.hi text with
  | nil => rfl
  | cons t' rest =>
    have hnone : (if t.2.hi = t'.2.lo then t.1.glue t'.1 else none) = none := by
      cases text with
      | nil => cases hlayout
      | cons piece text =>
        cases piece with
        | space =>
          have hlo : t.2.hi + 1 ≤ t'.2.lo := le_lo_of_layout_eq_cons hlayout
          exact if_neg (by omega)
        | word token =>
          obtain ⟨kinds, hchars⟩ := token.exists_chars_eq
          rw [Text.layout, hchars, spread, List.cons_append] at hlayout
          obtain rfl := (List.cons.inj hlayout).1
          rw [h token rfl, ite_self]
    rw [munch, hnone]
    rfl

/-- The tokens that the compiler reads for a token of the grammar are glued into one. -/
lemma glueAll_spread {t : Token} (h : t ≠ .iff) (pos : ℕ) (rest : List Spanned) :
    glueAll (spread pos t.chars ++ rest) = munch (t.last, ⟨pos, after pos t.chars⟩) rest := by
  cases t with
  | iff => exact absurd rfl h
  | literal lit =>
    obtain ⟨kind, symbol⟩ := lit
    cases kind <;> rfl
  | _ => simp [Token.chars, Token.last, spread, after, glueAll, munch, TokenKind.glue,
      TokenKind.width]

/-- A token other than `<=>` is what its last tree token is mapped to. -/
lemma mapToken_last {t : Token} (h : t ≠ .iff) (ht : t.WellFormed) : t.last.mapToken = t := by
  cases t with
  | iff => exact absurd rfl h
  | invalid => exact ht.elim
  | literal lit =>
    obtain ⟨kind, symbol⟩ := lit
    cases kind with
    | bool => exact if_pos ht
    | _ => rfl
  | ident symb =>
    obtain ⟨htrue, hfalse, href, hfn⟩ := ht
    simp [Token.last, TokenKind.mapToken, htrue, hfalse, href, hfn]
  | fn => decide
  | ref => decide
  | _ => rfl

/-- Only `<=` ends in the tree token `<=`. -/
lemma last_eq_le {t : Token} (h : t.last = .le) : t = .le := by
  cases t with
  | le => rfl
  | literal lit =>
    obtain ⟨kind, symbol⟩ := lit
    cases kind <;> cases h
  | _ => cases h

/-- The tokens of the grammar that the cursor makes of the ones of the compiler. -/
def readTokens (offset : ℕ) (ts : List Spanned) : List Token :=
  (lex offset ts).map fun item => item.2.1

/-- A tree token other than `<=` is read by itself. -/
lemma readTokens_cons (offset : ℕ) {t : Spanned} (ht : t.1 ≠ .le) (rest : List Spanned) :
    readTokens offset (t :: rest) = t.1.mapToken :: readTokens offset rest := by
  rw [readTokens, lex_cons offset ht]
  rfl

/-- A token that does not touch the next one is read on its own. -/
lemma readTokens_cons_of_lt (offset : ℕ) {t : Spanned} {rest : List Spanned}
    (h : ∀ t' rest', rest = t' :: rest' → t.2.hi < t'.2.lo) :
    readTokens offset (t :: rest) = t.1.mapToken :: readTokens offset rest := by
  cases rest with
  | nil => rfl
  | cons t' rest =>
    have hlt := h t' rest rfl
    have hiff : isIff t.1 t.2 t'.1 t'.2 = false := by
      simp [isIff, Nat.ne_of_lt hlt]
    simp [readTokens, lex, hiff, mapToken]

/-- What comes after a space does not touch what is before it. -/
lemma lt_lo_of_tokenise {pos : ℕ} {text : Text} {t : Spanned} {rest : List Spanned}
    (hhead : text.firstWord = none) (h : Text.tokenise pos text = t :: rest) : pos < t.2.lo := by
  cases text with
  | nil => cases h
  | cons piece text =>
    cases piece with
    | word token => cases hhead
    | space =>
      cases hlayout : Text.layout (pos + 1) text with
      | nil => simp [Text.tokenise, Text.layout, hlayout, glueAll] at h
      | cons t' rest' =>
        have hlo : pos + 1 ≤ t'.2.lo := le_lo_of_layout_eq_cons hlayout
        obtain ⟨t1, rest1, heq, hlo1⟩ := exists_munch_eq t' rest'
        rw [Text.tokenise, Text.layout, hlayout, glueAll, heq] at h
        obtain rfl := (List.cons.inj h).1
        omega

/-- **A token that may touch what comes after it** is read as itself. -/
lemma readTokens_tokenise_word (offset : ℕ) {pos : ℕ} {t : Token} {text : Text}
    (ht : t.WellFormed) (h : ∀ t', text.firstWord = some t' → t.MayTouch t') :
    readTokens offset (Text.tokenise pos (.word t :: text)) =
      t :: readTokens offset (Text.tokenise (after pos t.chars) text) := by
  by_cases hiff : t = .iff
  · subst hiff
    have hgt : munch (.gt, ⟨pos + 2, pos + 3⟩) (Text.layout (pos + 3) text) =
        (.gt, ⟨pos + 2, pos + 3⟩) :: Text.tokenise (pos + 3) text :=
      munch_layout (t := (.gt, ⟨pos + 2, pos + 3⟩)) fun t' ht' => (h t' ht').1
    simp only [Text.tokenise, Text.layout, Token.chars, spread, List.cons_append, List.nil_append,
      glueAll, munch, TokenKind.glue, TokenKind.width, if_true, after, List.foldl] at hgt ⊢
    rw [hgt, readTokens, lex, if_pos (by simp [isIff])]
    rfl
  · have hlast : munch (t.last, ⟨pos, after pos t.chars⟩) (Text.layout (after pos t.chars) text) =
        (t.last, ⟨pos, after pos t.chars⟩) :: Text.tokenise (after pos t.chars) text :=
      munch_layout fun t' ht' => (h t' ht').1
    rw [Text.tokenise, Text.layout, glueAll_spread hiff, hlast]
    by_cases hle : t.last = .le
    · rw [readTokens_cons_of_lt, mapToken_last hiff ht]
      intro t' rest heq
      have hhead : text.firstWord = none := by
        cases hhead : text.firstWord with
        | none => rfl
        | some t' => exact absurd (last_eq_le hle) (h t' hhead).2
      exact lt_lo_of_tokenise hhead heq
    · rw [readTokens_cons offset hle, mapToken_last hiff ht]

/-- A relation between tokens, as one between pieces of text that is about those that touch. -/
def Piece.Touching (R : Token → Token → Prop) : Piece → Piece → Prop
  | .word t, .word t' => R t t'
  | _, _ => True

/-- `text.Adjacent R` states that tokens that touch are related by `R`. -/
abbrev Text.Adjacent (R : Token → Token → Prop) (text : Text) : Prop :=
  List.IsChain (Piece.Touching R) text

/-- The neighbours after a word are the next word and the neighbours in the rest. -/
lemma Text.adjacent_word {R : Token → Token → Prop} {t : Token} {text : Text} :
    Text.Adjacent R (.word t :: text) ↔
      (∀ t', text.firstWord = some t' → R t t') ∧ text.Adjacent R := by
  cases text with
  | nil => simp [Text.Adjacent, Text.firstWord]
  | cons piece text =>
    cases piece with
    | space => simp [Text.Adjacent, Text.firstWord, Piece.Touching]
    | word t' => simp [Text.Adjacent, Text.firstWord, Piece.Touching]

/-- A space has no neighbours. -/
lemma Text.adjacent_space {R : Token → Token → Prop} {text : Text} :
    Text.Adjacent R (.space :: text) ↔ text.Adjacent R := by
  cases text with
  | nil => simp [Text.Adjacent]
  | cons piece text => simp [Text.Adjacent, Piece.Touching]

/-- **Text is read as its tokens** if those that touch may. -/
theorem Text.readTokens_tokenise (offset : ℕ) {pos : ℕ} {text : Text}
    (hwf : ∀ t ∈ text.tokens, t.WellFormed) (h : text.Adjacent Token.MayTouch) :
    readTokens offset (text.tokenise pos) = text.tokens := by
  induction text generalizing pos with
  | nil => rfl
  | cons piece text ih =>
    cases piece with
    | space => exact ih hwf (Text.adjacent_space.mp h)
    | word t =>
      obtain ⟨ht, hwf⟩ := List.forall_mem_cons.mp hwf
      obtain ⟨hhead, hrest⟩ := Text.adjacent_word.mp h
      rw [readTokens_tokenise_word offset ht hhead, ih hwf hrest, Text.tokens_word]

/-- The tokens that begin with a right shift. -/
def TokenKind.IsShr (kind : TokenKind) : Prop :=
  kind = .binOp .shr ∨ kind = .binOpEq .shr

/-- Munching a shift token leaves a shift token. -/
lemma exists_munch_isShr {t : Spanned} (h : t.1.IsShr) (rest : List Spanned) :
    ∃ t' rest', munch t rest = t' :: rest' ∧ t'.1.IsShr := by
  induction rest generalizing t with
  | nil => exact ⟨t, [], rfl, h⟩
  | cons t1 rest ih =>
    rw [munch]
    split
    · next kind hglue =>
      refine ih ?_
      split at hglue
      · obtain ⟨kind', span⟩ := t
        rcases h with rfl | rfl
        · have hkind : kind = .binOpEq .shr := by
            cases h1 : t1.1 <;> simp [TokenKind.glue, h1] at hglue
            exact hglue.symm
          exact .inr hkind
        · cases hglue
      · cases hglue
    · exact ⟨t, _, rfl, h⟩

/-- Two tokens that may touch, or two `>`. -/
def Token.MayTouchOrGt (t t' : Token) : Prop :=
  t.MayTouch t' ∨ t = .gt ∧ t' = .gt

/-- **Touching `>`** are read as an invalid token. -/
theorem Text.invalid_mem_readTokens_tokenise (offset : ℕ) {pos : ℕ} {text : Text}
    (hwf : ∀ t ∈ text.tokens, t.WellFormed) (h : text.Adjacent Token.MayTouchOrGt)
    (hgt : ¬text.Adjacent Token.MayTouch) :
    .invalid ∈ readTokens offset (text.tokenise pos) := by
  induction text generalizing pos with
  | nil => exact absurd List.IsChain.nil hgt
  | cons piece text ih =>
    cases piece with
    | space =>
      exact ih hwf (Text.adjacent_space.mp h) (fun h => hgt (Text.adjacent_space.mpr h))
    | word t =>
      obtain ⟨ht, hwf⟩ := List.forall_mem_cons.mp hwf
      obtain ⟨hhead, hrest⟩ := Text.adjacent_word.mp h
      by_cases hmay : ∀ t', Text.firstWord text = some t' → t.MayTouch t'
      · rw [readTokens_tokenise_word offset ht hmay]
        exact List.mem_cons_of_mem _
          (ih hwf hrest fun h => hgt (Text.adjacent_word.mpr ⟨hmay, h⟩))
      · -- the first two tokens are `>`
        push Not at hmay
        obtain ⟨t', ht', hnot⟩ := hmay
        obtain ⟨rfl, rfl⟩ := (hhead t' ht').resolve_left hnot
        cases text with
        | nil => cases ht'
        | cons piece text =>
          cases piece with
          | space => cases ht'
          | word t' =>
            obtain rfl := Option.some.inj ht'
            have hshr : TokenKind.IsShr (.binOp .shr) := .inl rfl
            obtain ⟨t1, rest, heq, h1⟩ := exists_munch_isShr
              (t := (.binOp .shr, ⟨pos, pos + 2⟩)) hshr (Text.layout (pos + 2) text)
            have htokens : Text.tokenise pos (.word .gt :: .word .gt :: text) = t1 :: rest := by
              rw [← heq]
              simp [Text.tokenise, Text.layout, Token.chars, spread, glueAll, munch,
                TokenKind.glue, TokenKind.width, after]
            have hle : t1.1 ≠ .le := by rcases h1 with h1 | h1 <;> simp [h1]
            have hinvalid : t1.1.mapToken = .invalid := by
              rcases h1 with h1 | h1 <;> simp [h1, TokenKind.mapToken]
            rw [htokens, readTokens_cons offset hle, hinvalid]
            exact List.mem_cons_self

end LiquidRust.Syntax
