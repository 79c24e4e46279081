import Mathlib.Data.List.Chain
import Mathlib.Data.List.Forall2
import Mathlib.Data.Nat.Init
import LiquidRust.Syntax.Grammar
import LiquidRust.Syntax.Text

set_option relaxedAutoImplicit false
set_option autoImplicit false

/-!
# Rendering annotations

The canonical text of a signature, and what the lexer and the grammar make of it. The text has no
spaces between closing angle brackets, which the compiler reads as shifts. So the text of a
signature is read back exactly if it has no two closing angle brackets in a row.

## Main definitions

* `LiquidRust.Syntax.FnSig.text` — the canonical text of a signature.
* `LiquidRust.Syntax.Text.spaced` — text with spaces between closing angle brackets.
* `LiquidRust.Syntax.FnSig.Unnested` — whether no list of generic arguments ends with `>`.
* `LiquidRust.Syntax.ParsesTo` — whether a token stream is parsed as a signature.

## Main results

* `LiquidRust.Syntax.FnSig.fnSig_text` — the tokens of the text of a signature stand for it.
* `LiquidRust.Syntax.FnSig.givesBack_text_iff` — a signature is read back exactly if it is unnested.
-/

namespace LiquidRust.Syntax

/-! ## Text -/

/-- Texts with commas between them. -/
def commaSep : List Text → Text
  | [] => []
  | [text] => text
  | text :: texts => text ++ .word .comma :: .space :: commaSep texts

/-- An operand of an operator. -/
def Expr.operand : Expr → Text
  | .var ident => [.word (.ident ident)]
  | .literal lit => [.word (.literal lit)]
  | .binaryOp op e1 e2 =>
    .word (.openDelim .paren) :: e1.operand ++ .space :: .word op.token :: .space :: e2.operand ++
      [.word (.closeDelim .paren)]

/-- The text of an expression. -/
def Expr.text : Expr → Text
  | .binaryOp op e1 e2 => e1.operand ++ .space :: .word op.token :: .space :: e2.operand
  | e => e.operand

/-- Text between braces. -/
def braces (text : Text) : Text :=
  .word (.openDelim .brace) :: text ++ [.word (.closeDelim .brace)]

/-- The text of an expression as an index. -/
def Expr.refinement : Expr → Text
  | .binaryOp op e1 e2 => braces (Expr.binaryOp op e1 e2).text
  | e => e.operand

/-- Text between angle brackets. -/
def angles (text : Text) : Text :=
  .word .lt :: text ++ [.word .gt]

mutual

/-- The text of a type. -/
def Ty.text : Ty → Text
  | .baseTy path => path.text
  | .refineTy path refine => path.text ++ .word .at :: refine.refinement
  | .exists_ bind path pred =>
    path.text ++ braces (.word (.ident bind) :: .word .colon :: .space :: pred.text)
  | .mutRef region => .word .ref :: angles [.word (.ident region)]

/-- The text of a path. -/
def Path.text : Path → Text
  | .mk ident args => .word (.ident ident) :: argsText args

/-- The text of type arguments, nothing if there are none. -/
def argsText : Option (List Ty) → Text
  | none => []
  | some args => angles (commaSep (texts args))

/-- The texts of types. -/
def texts : List Ty → List Text
  | [] => []
  | ty :: tys => ty.text :: texts tys

end

/-- The text of a parameter. -/
def GenericParam.text (param : GenericParam) : Text :=
  .word (.ident param.name) :: .word .colon :: .space :: .word (.ident param.sort) ::
    match param.pred with
    | some pred => braces pred.text
    | none => []

/-- The text of the parameters of a signature. -/
def genericsText : List GenericParam → Text
  | [] => []
  | params => angles (commaSep (params.map GenericParam.text))

/-- The text of a location with its type. -/
def bindingText (binding : Ident × Ty) : Text :=
  .word (.ident binding.1) :: .word .colon :: .space :: binding.2.text

/-- The text of what is required. -/
def requiresText : List (Ident × Ty) → Text
  | [] => []
  | requires => commaSep (requires.map bindingText) ++ [.word .semi, .space]

/-- The text of what is ensured. -/
def ensuresText : List (Ident × Ty) → Text
  | [] => []
  | ensures => .word .semi :: .space :: commaSep (ensures.map bindingText)

/-- **The canonical text** of a signature. -/
def FnSig.text (sig : FnSig) : Text :=
  .word .fn :: genericsText sig.generics ++ .word (.openDelim .paren) ::
    (requiresText sig.requires ++ commaSep (texts sig.args) ++ .word (.closeDelim .paren) ::
      .space :: .word .rArrow :: .space :: sig.ret.text ++ ensuresText sig.ensures)

/-- Text with a space between closing angle brackets. -/
def Text.spaced : Text → Text
  | .word .gt :: .word .gt :: text => .word .gt :: .space :: spaced (.word .gt :: text)
  | piece :: text => piece :: spaced text
  | [] => []

/-- Spaces between the words leave the tokens as they are. -/
@[simp] lemma Text.tokens_spaced (text : Text) : text.spaced.tokens = text.tokens := by
  induction text using Text.spaced.induct with
  | case1 text ih => simpa [Text.spaced] using ih
  | case2 piece text _ ih => cases piece <;> simp [Text.spaced, ih]
  | case3 => rfl

/-! ## The tokens of a signature stand for it -/

open Grammar

/-- What is of a level is of the levels above it. -/
lemma Grammar.Level.down {k m : ℕ} {u : List Token} {e : Expr} (h : Level m u e) (hk : 1 ≤ k)
    (hle : k ≤ m) (hm : m ≤ 7) : Level k u e := by
  induction hle using Nat.decreasingInduction with
  | self => exact h
  | of_succ k hlt ih => exact .next hk (by omega) (ih (by omega))

/-- The level of a binary operator lies between 1 and 6. -/
lemma BinOp.level_bounds (op : BinOp) : 1 ≤ op.level ∧ op.level ≤ 6 := by
  cases op <;> decide

/-- Two operands around an operator read as the application of it. -/
lemma Grammar.Level.binaryOp {op : BinOp} {u1 u2 : List Token} {e1 e2 : Expr} (h1 : Level 7 u1 e1)
    (h2 : Level 7 u2 e2) : Level 1 (u1 ++ op.token :: u2) (.binaryOp op e1 e2) := by
  obtain ⟨hpos, hle⟩ := op.level_bounds
  have h2 : Level (op.level + 1) u2 e2 := h2.down (by omega) (by omega) (Nat.le_refl _)
  have hop : Level op.level (u1 ++ op.token :: u2) (.binaryOp op e1 e2) := by
    by_cases hassoc : IsNonAssoc op.level
    · exact .nonAssoc hassoc (h1.down (by omega) (by omega) (Nat.le_refl _)) h2
    · exact .leftAssoc hassoc (h1.down (by omega) (by omega) (Nat.le_refl _)) h2
  exact hop.down (Nat.le_refl _) hpos (by omega)

/-- The text of an operand reads back at the tightest level. -/
lemma Expr.level_operand (e : Expr) : Level 7 e.operand.tokens e := by
  induction e with
  | var ident => exact .var ident
  | literal lit => exact .lit lit
  | binaryOp op e1 e2 ih1 ih2 =>
    simpa [Expr.operand] using Level.paren (ih1.binaryOp ih2)

/-- The text of an expression reads back. -/
lemma Expr.level_text (e : Expr) : Level 1 e.text.tokens e := by
  cases e with
  | binaryOp op e1 e2 => simpa [Expr.text] using e1.level_operand.binaryOp e2.level_operand
  | var ident => exact (Expr.var ident).level_operand.down (by omega) (by omega) (by omega)
  | literal lit => exact (Expr.literal lit).level_operand.down (by omega) (by omega) (by omega)

/-- The text of an expression as a refinement reads back. -/
lemma Expr.refinement_refinement (e : Expr) : Refinement e.refinement.tokens e := by
  cases e with
  | var ident => exact .var ident
  | literal lit => exact .lit lit
  | binaryOp op e1 e2 =>
    simpa [Expr.refinement, braces] using Refinement.brace (Expr.binaryOp op e1 e2).level_text

/-- Lists of texts stand for lists of what the texts stand for. -/
lemma comma_commaSep {α : Type} {T : List Token → α → Prop} {texts : List Text} {as : List α}
    (h : List.Forall₂ (fun text a => T text.tokens a) texts as) :
    Comma T (commaSep texts).tokens as := by
  induction h with
  | nil => exact .nil
  | @cons text a texts as ha hrest ih =>
    cases hrest with
    | nil => exact .last ha
    | cons _ _ => simpa [commaSep] using Comma.cons ha ih

mutual

/-- The text of a type reads back. -/
lemma Ty.ty_text (ty : Ty) : Grammar.Ty ty.text.tokens ty := by
  cases ty with
  | baseTy path => exact .baseTy path.path_text
  | refineTy path refine =>
    simpa [Ty.text] using Grammar.Ty.refineTy path.path_text refine.refinement_refinement
  | exists_ bind path pred =>
    simpa [Ty.text, braces] using Grammar.Ty.exists_ path.path_text pred.level_text
  | mutRef region => exact .mutRef region

/-- The text of a path reads back. -/
lemma Path.path_text (path : Path) : Grammar.Path path.text.tokens path := by
  match path with
  | .mk ident none => exact .plain ident
  | .mk ident (some args) =>
    simpa [Path.text, argsText, angles] using
      Grammar.Path.generic (comma_commaSep (forall_ty_text args))

/-- The texts of types read back one by one. -/
lemma forall_ty_text (tys : List Ty) :
    List.Forall₂ (fun text ty => Grammar.Ty text.tokens ty) (texts tys) tys := by
  match tys with
  | [] => exact .nil
  | ty :: tys => exact .cons ty.ty_text (forall_ty_text tys)

end

/-- The text of a generic parameter reads back. -/
lemma GenericParam.genericParam_text (param : GenericParam) :
    Grammar.GenericParam param.text.tokens param := by
  obtain ⟨name, sort, pred⟩ := param
  cases pred with
  | none => exact .plain name sort
  | some pred =>
    simpa [GenericParam.text, braces] using Grammar.GenericParam.pred pred.level_text

/-- The text of a binding reads back. -/
lemma binding_bindingText (binding : Ident × Ty) : Binding (bindingText binding).tokens binding :=
  .mk binding.1 binding.2.ty_text

/-- The texts of bindings read back as a comma-separated list. -/
lemma forall_binding_bindingText (bindings : List (Ident × Ty)) :
    Comma Binding (commaSep (bindings.map bindingText)).tokens bindings :=
  comma_commaSep (List.forall₂_map_left_iff.mpr
    (List.forall₂_same.mpr fun binding _ => binding_bindingText binding))

/-- **The tokens of the text of a signature** stand for it. -/
lemma FnSig.fnSig_text (sig : FnSig) : Grammar.FnSig sig.text.tokens sig := by
  obtain ⟨generics, requires, args, ret, ensures⟩ := sig
  have hgenerics : Generics (genericsText generics).tokens generics := by
    cases generics with
    | nil => exact .empty
    | cons param params =>
      have hparams : Comma Grammar.GenericParam
          (commaSep ((param :: params).map GenericParam.text)).tokens (param :: params) :=
        comma_commaSep (List.forall₂_map_left_iff.mpr
          (List.forall₂_same.mpr fun param _ => param.genericParam_text))
      simpa [genericsText, angles] using Generics.params hparams
  have hrequires : Requires (requiresText requires).tokens requires := by
    cases requires with
    | nil => exact .none
    | cons b bs =>
      simpa [requiresText] using Requires.some (forall_binding_bindingText (b :: bs))
  have hensures : Ensures (ensuresText ensures).tokens ensures := by
    cases ensures with
    | nil => exact .none
    | cons b bs =>
      simpa [ensuresText] using Ensures.some (forall_binding_bindingText (b :: bs))
  simpa [FnSig.text] using Grammar.FnSig.mk hgenerics hrequires
    (comma_commaSep (forall_ty_text args)) ret.ty_text hensures

/-! ## Nested angle brackets -/

/-- Whether the text of a type ends with `>`. -/
def Ty.EndsInGt : Ty → Prop
  | .baseTy (.mk _ args) => args.isSome
  | .mutRef _ => True
  | _ => False

mutual

/-- Whether no list of generic arguments in a type ends with an argument that ends with `>`. -/
def Ty.Unnested : Ty → Prop
  | .baseTy path => path.Unnested
  | .refineTy path _ => path.Unnested
  | .exists_ _ path _ => path.Unnested
  | .mutRef _ => True

/-- The same for a path. -/
def Path.Unnested : Path → Prop
  | .mk _ args => ArgsUnnested args

/-- The same for type arguments. The last of them ends in no angle bracket. -/
def ArgsUnnested : Option (List Ty) → Prop
  | none => True
  | some args => AllUnnested args ∧ ∀ ty, args.getLast? = some ty → ¬ty.EndsInGt

/-- The same for each of a list of types. -/
def AllUnnested : List Ty → Prop
  | [] => True
  | ty :: tys => ty.Unnested ∧ AllUnnested tys

end

/-- **Whether no two closing angle brackets** of a signature come one after the other. -/
def FnSig.Unnested (sig : FnSig) : Prop :=
  (∀ binding ∈ sig.requires, binding.2.Unnested) ∧ (∀ ty ∈ sig.args, ty.Unnested) ∧
    sig.ret.Unnested ∧ ∀ binding ∈ sig.ensures, binding.2.Unnested

/-- Tokens that are not glued to what comes after them. -/
def Token.Quiet (t : Token) : Prop :=
  (∀ kind, t.last.glue kind = none) ∧ t ≠ .le

/-- The tokens that come after `<` in the text of a signature. -/
def Token.AfterLt : Token → Prop
  | .ident _ | .ref | .gt => True
  | _ => False

/-- The tokens but `>` that touch a `>` before them in the text of a signature. -/
def Token.AfterGt : Token → Prop
  | .at | .comma | .semi | .openDelim _ | .closeDelim _ => True
  | _ => False

/-- The relations of tokens that touch, but for `>` after `>`. -/
structure Lax (R : Token → Token → Prop) : Prop where
  quiet : ∀ ⦃t⦄, t.Quiet → ∀ t', R t t'
  lt : ∀ ⦃t'⦄, t'.AfterLt → R .lt t'
  gt : ∀ ⦃t'⦄, t'.AfterGt → R .gt t'

/-- An identifier is quiet. -/
lemma quiet_ident (ident : Ident) : (Token.ident ident).Quiet :=
  ⟨(fun _ => rfl), by simp⟩

/-- A literal is quiet. -/
lemma quiet_literal (lit : Lit) : (Token.literal lit).Quiet := by
  obtain ⟨kind, symbol⟩ := lit
  cases kind <;> exact ⟨(fun _ => rfl), by simp⟩

/-- An opening delimiter is quiet. -/
lemma quiet_openDelim (delim : DelimToken) : (Token.openDelim delim).Quiet :=
  ⟨(fun _ => rfl), by simp⟩

/-- A closing delimiter is quiet. -/
lemma quiet_closeDelim (delim : DelimToken) : (Token.closeDelim delim).Quiet :=
  ⟨(fun _ => rfl), by simp⟩

/-- Tokens that may touch are related laxly. -/
lemma lax_mayTouch : Lax Token.MayTouch where
  quiet _ h t' := ⟨h.1 t'.first, h.2⟩
  lt t' h := by
    refine ⟨?_, by simp⟩
    cases t' <;> first | exact h.elim | rfl
  gt t' h := by
    refine ⟨?_, by simp⟩
    cases t' <;> first | exact h.elim | rfl

/-- A relation that allows more than a lax one is lax. -/
lemma Lax.mono {R R' : Token → Token → Prop} (hR : Lax R) (h : ∀ t t', R t t' → R' t t') :
    Lax R' where
  quiet _ ht t' := h _ _ (hR.quiet ht t')
  lt _ ht := h _ _ (hR.lt ht)
  gt _ ht := h _ _ (hR.gt ht)

/-- The token that text ends with. -/
def Text.lastWord (text : Text) : Option Token :=
  match text.getLast? with
  | some (.word t) => some t
  | _ => none

/-- The last word of a text is that of what is appended to it. -/
@[simp] lemma Text.lastWord_append_cons (text text' : Text) (piece : Piece) :
    Text.lastWord (text ++ piece :: text') = Text.lastWord (piece :: text') := by
  rw [Text.lastWord, List.getLast?_append_cons]
  rfl

/-- The last word of a text is that of its tail, if there is one. -/
@[simp] lemma Text.lastWord_cons_cons (piece piece' : Piece) (text : Text) :
    Text.lastWord (piece :: piece' :: text) = Text.lastWord (piece' :: text) := rfl

/-- The last word of a single word is that word. -/
@[simp] lemma Text.lastWord_word (t : Token) : Text.lastWord [.word t] = some t := rfl

/-- The last word is the last piece, if that is a word. -/
lemma Text.lastWord_eq_some {text : Text} {t : Token} :
    text.lastWord = some t ↔ text.getLast? = some (.word t) := by
  rw [Text.lastWord]
  split
  · next t' h => simp [h]
  · next h => exact ⟨(fun h' => nomatch h'), fun h' => absurd h' (h t)⟩

/-- The first word is the first piece, if that is a word. -/
lemma Text.firstWord_eq_some {text : Text} {t : Token} :
    text.firstWord = some t ↔ text.head? = some (.word t) := by
  cases text with
  | nil => simp [Text.firstWord]
  | cons piece text => cases piece <;> simp [Text.firstWord]

/-- The first word of a text that begins with a word is that word. -/
@[simp] lemma Text.firstWord_word (t : Token) (text : Text) :
    Text.firstWord (.word t :: text) = some t := rfl

/-- A text that begins with a space has no first word. -/
@[simp] lemma Text.firstWord_space (text : Text) : Text.firstWord (.space :: text) = none := rfl

/-- The first word of a text is that of a longer one. -/
lemma Text.firstWord_append {text : Text} {t : Token} (h : text.firstWord = some t)
    (text' : Text) : Text.firstWord (text ++ text') = some t := by
  cases text with
  | nil => cases h
  | cons piece text => cases piece <;> exact h

/-- The neighbours in two texts in a row are those in each and the two words that meet. -/
lemma Text.adjacent_append {R : Token → Token → Prop} {text text' : Text} :
    Text.Adjacent R (text ++ text') ↔ Text.Adjacent R text ∧ Text.Adjacent R text' ∧
      ∀ t t', Text.lastWord text = some t → Text.firstWord text' = some t' → R t t' := by
  simp only [Text.lastWord_eq_some, Text.firstWord_eq_some]
  rw [Text.Adjacent, List.isChain_append]
  refine and_congr_right fun _ => and_congr_right fun _ => ⟨fun h t t' ht ht' => h _ ht _ ht', ?_⟩
  intro h piece hpiece piece' hpiece'
  cases piece with
  | space => trivial
  | word t =>
    cases piece' with
    | space => trivial
    | word t' => exact h t t' hpiece hpiece'

/-- `text.EndsIn P` states that text ends with a token for which `P` holds. -/
def Text.EndsIn (P : Token → Prop) (text : Text) : Prop :=
  ∃ t, text.lastWord = some t ∧ P t

/-- A single word ends in itself. -/
lemma Text.endsIn_word {P : Token → Prop} {t : Token} (ht : P t) : Text.EndsIn P [.word t] :=
  ⟨t, rfl, ht⟩

/-- How a text ends is how it ends after another one. -/
lemma Text.EndsIn.append {P : Token → Prop} {text' : Text} (h : text'.EndsIn P) (text : Text) :
    Text.EndsIn P (text ++ text') := by
  obtain ⟨t, hlast, ht⟩ := h
  cases text' with
  | nil => cases hlast
  | cons piece text' => exact ⟨t, by rw [Text.lastWord_append_cons, hlast], ht⟩

/-- How a text ends is how it ends after another piece. -/
lemma Text.EndsIn.cons {P : Token → Prop} {text : Text} (h : text.EndsIn P) (piece : Piece) :
    Text.EndsIn P (piece :: text) :=
  h.append [piece]

/-- An operand ends in a quiet token. -/
lemma Expr.endsIn_operand (e : Expr) : e.operand.EndsIn Token.Quiet := by
  cases e with
  | var ident => exact Text.endsIn_word (quiet_ident ident)
  | literal lit => exact Text.endsIn_word (quiet_literal lit)
  | binaryOp op e1 e2 =>
    exact (Text.endsIn_word (quiet_closeDelim .paren)).append _

/-- An expression ends in a quiet token. -/
lemma Expr.endsIn_text (e : Expr) : e.text.EndsIn Token.Quiet := by
  cases e with
  | var ident => exact (Expr.var ident).endsIn_operand
  | literal lit => exact (Expr.literal lit).endsIn_operand
  | binaryOp op e1 e2 => exact (((e2.endsIn_operand.cons _).cons _).cons _).append _

/-- A text in braces ends in a quiet token. -/
lemma endsIn_braces (text : Text) : (braces text).EndsIn Token.Quiet :=
  (Text.endsIn_word (quiet_closeDelim .brace)).append _

/-- A refinement ends in a quiet token. -/
lemma Expr.endsIn_refinement (e : Expr) : e.refinement.EndsIn Token.Quiet := by
  cases e with
  | var ident => exact Text.endsIn_word (quiet_ident ident)
  | literal lit => exact Text.endsIn_word (quiet_literal lit)
  | binaryOp op e1 e2 => exact endsIn_braces _

/-- Text that ends with a quiet token or with `>`. -/
abbrev EndsWell : Text → Prop :=
  Text.EndsIn fun t => t.Quiet ∨ t = .gt

/-- The last word of a comma-separated list is that of its last text. -/
lemma lastWord_commaSep (texts : List Text) :
    (commaSep texts).lastWord = texts.getLast?.bind Text.lastWord := by
  induction texts with
  | nil => rfl
  | cons text texts ih =>
    cases texts with
    | nil => rfl
    | cons text' texts =>
      have hspace : ∀ text'' : Text, Text.lastWord (.space :: text'') = Text.lastWord text'' := by
        intro text''
        cases text'' <;> rfl
      rw [commaSep, Text.lastWord_append_cons, Text.lastWord_cons_cons, hspace, ih,
        List.getLast?_cons_cons]
      simp

/-- The texts of a list are the texts of its types. -/
lemma texts_eq_map (tys : List Ty) : texts tys = tys.map Ty.text := by
  induction tys with
  | nil => rfl
  | cons ty tys ih => rw [texts, ih, List.map_cons]

/-- The text of a path begins with an identifier. -/
lemma Path.firstWord_text (path : Path) (text : Text) :
    ∃ ident, Text.firstWord (path.text ++ text) = some (.ident ident) := by
  obtain ⟨ident, args⟩ := path
  exact ⟨ident, rfl⟩

/-- The text of a type begins with a token that may follow `<`. -/
lemma Ty.firstWord_text (ty : Ty) : ∃ t, ty.text.firstWord = some t ∧ t.AfterLt := by
  cases ty with
  | baseTy path =>
    obtain ⟨ident, h⟩ := path.firstWord_text []
    exact ⟨.ident ident, by simpa [Ty.text] using h, trivial⟩
  | refineTy path refine =>
    obtain ⟨ident, h⟩ := path.firstWord_text (.word .at :: refine.refinement)
    exact ⟨.ident ident, h, trivial⟩
  | exists_ bind path pred =>
    obtain ⟨ident, h⟩ := path.firstWord_text
      (braces (.word (.ident bind) :: .word .colon :: .space :: pred.text))
    exact ⟨.ident ident, h, trivial⟩
  | mutRef region => exact ⟨.ref, rfl, trivial⟩

/-- A type ends with `>`, or with a quiet token. -/
lemma Ty.lastWord_text (ty : Ty) :
    ty.text.lastWord = some .gt ∧ ty.EndsInGt ∨
      (∃ t, ty.text.lastWord = some t ∧ t.Quiet) ∧ ¬ty.EndsInGt := by
  have hangles : ∀ text text' : Text, Text.lastWord (text' ++ angles text) = some .gt := by
    intro text text'
    rw [angles, ← List.append_assoc, Text.lastWord_append_cons, Text.lastWord_word]
  cases ty with
  | baseTy path =>
    obtain ⟨ident, args⟩ := path
    cases args with
    | none => exact .inr ⟨⟨.ident ident, rfl, quiet_ident ident⟩, by simp [Ty.EndsInGt]⟩
    | some args =>
      exact .inl ⟨hangles (commaSep (texts args)) [.word (.ident ident)], by simp [Ty.EndsInGt]⟩
  | refineTy path refine =>
    exact .inr ⟨(refine.endsIn_refinement.cons _).append _, (fun h => h)⟩
  | exists_ bind path pred => exact .inr ⟨(endsIn_braces _).append _, (fun h => h)⟩
  | mutRef region => exact .inl ⟨hangles [.word (.ident region)] [.word .ref], trivial⟩

/-- `>` is not quiet. -/
lemma not_quiet_gt : ¬Token.gt.Quiet :=
  fun h => nomatch h.1 .eq

/-- The text of a type ends in `>` iff its path has arguments. -/
lemma Ty.lastWord_text_eq_gt_iff (ty : Ty) : ty.text.lastWord = some .gt ↔ ty.EndsInGt := by
  rcases ty.lastWord_text with ⟨hlast, hends⟩ | ⟨⟨t, hlast, hquiet⟩, hends⟩
  · exact iff_of_true hlast hends
  · refine iff_of_false (fun h => ?_) hends
    obtain rfl := Option.some.inj (hlast.symm.trans h)
    exact not_quiet_gt hquiet

/-- The text of a type ends well. -/
lemma Ty.endsWell_text (ty : Ty) : EndsWell ty.text := by
  rcases ty.lastWord_text with ⟨hlast, -⟩ | ⟨⟨t, hlast, hquiet⟩, -⟩
  · exact ⟨.gt, hlast, .inr rfl⟩
  · exact ⟨t, hlast, .inl hquiet⟩

/-- The text of a path ends well. -/
lemma Path.endsWell_text (path : Path) : EndsWell path.text := by
  simpa [Ty.text] using (Ty.baseTy path).endsWell_text

/-- A generic parameter ends in a quiet token. -/
lemma GenericParam.endsIn_text (param : GenericParam) : param.text.EndsIn Token.Quiet := by
  obtain ⟨name, sort, pred⟩ := param
  cases pred with
  | none => exact (((Text.endsIn_word (quiet_ident sort)).cons _).cons _).cons _
  | some pred => exact ((((endsIn_braces _).cons _).cons _).cons _).cons _

/-- The text of a generic parameter ends well. -/
lemma GenericParam.endsWell_text (param : GenericParam) : EndsWell param.text := by
  obtain ⟨t, hlast, ht⟩ := param.endsIn_text
  exact ⟨t, hlast, .inl ht⟩

/-- The text of a binding ends well. -/
lemma endsWell_bindingText (binding : Ident × Ty) : EndsWell (bindingText binding) :=
  ((binding.2.endsWell_text.cons _).cons _).cons _

section
variable {R : Token → Token → Prop} (hR : Lax R)
include hR

/-- Text that ends with a quiet token may touch any text. -/
lemma Text.EndsIn.adjacent_append {text text' : Text} (h : text.EndsIn Token.Quiet) :
    Text.Adjacent R (text ++ text') ↔ Text.Adjacent R text ∧ Text.Adjacent R text' := by
  obtain ⟨t, hlast, ht⟩ := h
  rw [Text.adjacent_append]
  refine ⟨fun h => ⟨h.1, h.2.1⟩, fun h => ⟨h.1, h.2, fun t1 t' h1 _ => ?_⟩⟩
  obtain rfl := Option.some.inj (hlast.symm.trans h1)
  exact hR.quiet ht t'

/-- A quiet word may stand before any text. -/
lemma Text.adjacent_quiet {t : Token} (ht : t.Quiet) {text : Text} :
    Text.Adjacent R (.word t :: text) ↔ text.Adjacent R := by
  rw [Text.adjacent_word]
  exact and_iff_right fun t' _ => hR.quiet ht t'

/-- Operators have spaces around them. -/
lemma adjacent_binary {text text' : Text} {op : Token} (h : text.EndsIn Token.Quiet) :
    Text.Adjacent R (text ++ .space :: .word op :: .space :: text') ↔
      Text.Adjacent R text ∧ Text.Adjacent R text' := by
  rw [h.adjacent_append hR, Text.adjacent_space, Text.adjacent_word, Text.adjacent_space]
  simp

/-- The tokens of an operand are lax neighbours. -/
lemma Expr.adjacent_operand (e : Expr) : e.operand.Adjacent R := by
  induction e with
  | var ident => exact List.isChain_singleton _
  | literal lit => exact List.isChain_singleton _
  | binaryOp op e1 e2 ih1 ih2 =>
    have hends : Text.EndsIn Token.Quiet
        (e1.operand ++ .space :: .word op.token :: .space :: e2.operand) :=
      (((e2.endsIn_operand.cons _).cons _).cons _).append _
    rw [Expr.operand, List.cons_append, List.cons_append,
      Text.adjacent_quiet hR (quiet_openDelim _), hends.adjacent_append hR,
      adjacent_binary hR e1.endsIn_operand]
    exact ⟨⟨ih1, ih2⟩, List.isChain_singleton _⟩

/-- The tokens of an expression are lax neighbours. -/
lemma Expr.adjacent_text (e : Expr) : e.text.Adjacent R := by
  cases e with
  | var ident => exact List.isChain_singleton _
  | literal lit => exact List.isChain_singleton _
  | binaryOp op e1 e2 =>
    exact (adjacent_binary hR e1.endsIn_operand).mpr
      ⟨e1.adjacent_operand hR, e2.adjacent_operand hR⟩

/-- Braces around a text that ends quietly add no neighbours that matter. -/
lemma adjacent_braces {text : Text} (h : text.EndsIn Token.Quiet) :
    (braces text).Adjacent R ↔ text.Adjacent R := by
  rw [braces, List.cons_append, Text.adjacent_quiet hR (quiet_openDelim _), h.adjacent_append hR]
  exact and_iff_left (List.isChain_singleton _)

/-- The tokens of a refinement are lax neighbours. -/
lemma Expr.adjacent_refinement (e : Expr) : e.refinement.Adjacent R := by
  cases e with
  | var ident => exact List.isChain_singleton _
  | literal lit => exact List.isChain_singleton _
  | binaryOp op e1 e2 =>
    exact (adjacent_braces hR (Expr.endsIn_text _)).mpr (Expr.adjacent_text hR _)

/-- Text that ends well may touch what may come after `>`. -/
lemma EndsWell.adjacent_append {text text' : Text} (h : EndsWell text)
    (h' : ∀ t', text'.firstWord = some t' → t'.AfterGt) :
    Text.Adjacent R (text ++ text') ↔ Text.Adjacent R text ∧ Text.Adjacent R text' := by
  obtain ⟨t, hlast, ht⟩ := h
  rw [Text.adjacent_append]
  refine ⟨fun h => ⟨h.1, h.2.1⟩, fun h => ⟨h.1, h.2, fun t1 t' h1 hfirst => ?_⟩⟩
  obtain rfl := Option.some.inj (hlast.symm.trans h1)
  rcases ht with ht | rfl
  · exact hR.quiet ht t'
  · exact hR.gt (h' t' hfirst)

/-- In a comma-separated list the neighbours that matter lie in the texts. -/
lemma adjacent_commaSep {texts : List Text} (h : ∀ text ∈ texts, EndsWell text) :
    (commaSep texts).Adjacent R ↔ ∀ text ∈ texts, text.Adjacent R := by
  induction texts with
  | nil => simp [commaSep]
  | cons text texts ih =>
    obtain ⟨htext, htexts⟩ := List.forall_mem_cons.mp h
    cases texts with
    | nil => simp [commaSep]
    | cons text' texts =>
      have hcomma : ∀ t', Text.firstWord (.word .comma :: .space :: commaSep (text' :: texts)) =
          some t' → t'.AfterGt := by
        rintro t' ⟨⟩
        trivial
      have hquiet : Token.comma.Quiet := ⟨(fun _ => rfl), by simp⟩
      rw [commaSep, EndsWell.adjacent_append hR htext hcomma, Text.adjacent_quiet hR hquiet,
        Text.adjacent_space, ih htexts]
      · simp
      · simp

/-- What is between angle brackets touches them. -/
lemma adjacent_angles {text : Text} (hfirst : ∀ t', text.firstWord = some t' → t'.AfterLt)
    (hlast : ∀ t, text.lastWord = some t → t.Quiet ∨ t = .gt) :
    (angles text).Adjacent R ↔ text.Adjacent R ∧ (text.lastWord = some .gt → R .gt .gt) := by
  have hopen : ∀ t', Text.firstWord (text ++ [.word .gt]) = some t' → R .lt t' := by
    intro t' ht'
    cases text with
    | nil =>
      obtain rfl := Option.some.inj ht'
      exact hR.lt trivial
    | cons piece text =>
      cases piece with
      | space => cases ht'
      | word t => exact hR.lt (hfirst t' ht')
  rw [angles, List.cons_append, Text.adjacent_word, and_iff_right hopen, Text.adjacent_append]
  refine and_congr_right fun _ => ⟨fun h hgt => h.2 _ _ hgt rfl, fun h => ?_⟩
  refine ⟨List.isChain_singleton _, fun t t' ht ht' => ?_⟩
  obtain rfl := Option.some.inj ht'
  rcases hlast t ht with hquiet | rfl
  · exact hR.quiet hquiet _
  · exact h ht

/-- In type arguments they lie in the arguments, but for the closing `>`. -/
lemma adjacent_argsText {args : List Ty} :
    (argsText (some args)).Adjacent R ↔
      (∀ ty ∈ args, ty.text.Adjacent R) ∧
        ((∃ ty, args.getLast? = some ty ∧ ty.EndsInGt) → R .gt .gt) := by
  have hlast : (commaSep (texts args)).lastWord =
      args.getLast?.bind fun ty => ty.text.lastWord := by
    rw [lastWord_commaSep, texts_eq_map, List.getLast?_map]
    cases args.getLast? <;> rfl
  rw [argsText, adjacent_angles hR, adjacent_commaSep hR, hlast]
  · rw [texts_eq_map, List.forall_mem_map]
    refine and_congr_right fun _ => imp_congr_left ?_
    simp [Option.bind_eq_some_iff, Ty.lastWord_text_eq_gt_iff]
  · rw [texts_eq_map]
    exact List.forall_mem_map.mpr fun ty _ => ty.endsWell_text
  · intro t' ht'
    cases args with
    | nil => cases ht'
    | cons ty tys =>
      obtain ⟨t, hfirst, ht⟩ := ty.firstWord_text
      have hfirst' : Text.firstWord (commaSep (texts (ty :: tys))) = some t := by
        cases tys with
        | nil => exact hfirst
        | cons ty' tys => exact Text.firstWord_append hfirst _
      obtain rfl := Option.some.inj (hfirst'.symm.trans ht')
      exact ht
  · intro t ht
    rw [hlast, Option.bind_eq_some_iff] at ht
    obtain ⟨ty, -, ht⟩ := ht
    obtain ⟨t', hlast', ht'⟩ := ty.endsWell_text
    obtain rfl := Option.some.inj (hlast'.symm.trans ht)
    exact ht'

end

mutual

/-- **Tokens that touch in the text of a type** are related, but for `>` after `>`. -/
lemma Ty.adjacent_text_iff {R : Token → Token → Prop} (hR : Lax R) (ty : Ty) :
    ty.text.Adjacent R ↔ (R .gt .gt ∨ ty.Unnested) := by
  match ty with
  | .baseTy path => exact path.adjacent_text_iff hR
  | .refineTy path refine =>
    have hat : Token.at.Quiet := ⟨(fun _ => rfl), by simp⟩
    have hfirst : ∀ t', Text.firstWord (.word .at :: refine.refinement) = some t' →
        t'.AfterGt := by
      rintro t' ⟨⟩
      trivial
    rw [Ty.text, path.endsWell_text.adjacent_append hR hfirst, Text.adjacent_quiet hR hat,
      and_iff_left (refine.adjacent_refinement hR), Ty.Unnested,
      path.adjacent_text_iff hR]
  | .exists_ bind path pred =>
    have hfirst : ∀ t', Text.firstWord
        (braces (.word (.ident bind) :: .word .colon :: .space :: pred.text)) = some t' →
        t'.AfterGt := by
      rintro t' ⟨⟩
      trivial
    have hbraces : (braces (.word (.ident bind) :: .word .colon :: .space :: pred.text)).Adjacent
        R := by
      rw [adjacent_braces hR (((pred.endsIn_text.cons _).cons _).cons _),
        Text.adjacent_quiet hR (quiet_ident bind), Text.adjacent_word, Text.adjacent_space]
      exact ⟨(fun _ h => nomatch h), pred.adjacent_text hR⟩
    rw [Ty.text, path.endsWell_text.adjacent_append hR hfirst, and_iff_left hbraces, Ty.Unnested,
      path.adjacent_text_iff hR]
  | .mutRef region =>
    have hregion : (angles [.word (.ident region)]).Adjacent R := by
      rw [adjacent_angles hR]
      · exact ⟨List.isChain_singleton _, (fun h => nomatch h)⟩
      · rintro t' ⟨⟩
        trivial
      · rintro t ⟨⟩
        exact .inl (quiet_ident region)
    have href : Token.ref.Quiet := ⟨(fun _ => rfl), by simp⟩
    rw [Ty.text, Text.adjacent_quiet hR href]
    exact iff_of_true hregion (.inr trivial)

/-- The neighbours in a path are allowed iff `>>` is or no arguments end in `>`. -/
lemma Path.adjacent_text_iff {R : Token → Token → Prop} (hR : Lax R) (path : Path) :
    path.text.Adjacent R ↔ (R .gt .gt ∨ path.Unnested) := by
  match path with
  | .mk ident none =>
    rw [Path.text, Text.adjacent_quiet hR (quiet_ident ident)]
    exact iff_of_true .nil (.inr trivial)
  | .mk ident (some args) =>
    rw [Path.text, Text.adjacent_quiet hR (quiet_ident ident), adjacent_argsText hR,
      forall_adjacent_text_iff hR args, Path.Unnested, ArgsUnnested]
    by_cases hgt : R .gt .gt <;> simp [hgt]

/-- The same, for each of a list of types. -/
lemma forall_adjacent_text_iff {R : Token → Token → Prop} (hR : Lax R) (tys : List Ty) :
    (∀ ty ∈ tys, ty.text.Adjacent R) ↔ (R .gt .gt ∨ AllUnnested tys) := by
  match tys with
  | [] => simp [AllUnnested]
  | ty :: tys =>
    rw [List.forall_mem_cons, ty.adjacent_text_iff hR, forall_adjacent_text_iff hR tys,
      AllUnnested, or_and_left]

end

section
variable {R : Token → Token → Prop} (hR : Lax R)
include hR

/-- Lists may touch what may come after `>`. -/
lemma adjacent_commaSep_append {texts : List Text} {text' : Text}
    (h : ∀ text ∈ texts, EndsWell text) (h' : ∀ t', text'.firstWord = some t' → t'.AfterGt) :
    Text.Adjacent R (commaSep texts ++ text') ↔
      (∀ text ∈ texts, text.Adjacent R) ∧ text'.Adjacent R := by
  rw [← adjacent_commaSep hR h]
  rcases hlast : texts.getLast? with _ | text
  · rw [List.getLast?_eq_none_iff.mp hlast]
    exact (and_iff_right .nil).symm
  · obtain ⟨t, ht, hends⟩ := h text (List.mem_of_getLast? hlast)
    have hwell : EndsWell (commaSep texts) := ⟨t, by rw [lastWord_commaSep, hlast]; exact ht, hends⟩
    exact hwell.adjacent_append hR h'

/-- The tokens of a generic parameter are lax neighbours. -/
lemma GenericParam.adjacent_text (param : GenericParam) : param.text.Adjacent R := by
  obtain ⟨name, sort, pred⟩ := param
  rw [GenericParam.text, Text.adjacent_quiet hR (quiet_ident name), Text.adjacent_word,
    Text.adjacent_space, Text.adjacent_quiet hR (quiet_ident sort)]
  refine ⟨(fun _ h => nomatch h), ?_⟩
  cases pred with
  | none => exact .nil
  | some pred => exact (adjacent_braces hR pred.endsIn_text).mpr (pred.adjacent_text hR)

/-- The parameters of a signature are between `fn` and `(`. -/
lemma adjacent_genericsText_append (params : List GenericParam) (text : Text) :
    Text.Adjacent R (genericsText params ++ .word (.openDelim .paren) :: text) ↔
      text.Adjacent R := by
  have hwell : ∀ text' ∈ params.map GenericParam.text, EndsWell text' :=
    List.forall_mem_map.mpr fun param _ => param.endsWell_text
  have hends : ∀ t, (commaSep (params.map GenericParam.text)).lastWord = some t → t.Quiet := by
    intro t ht
    rw [lastWord_commaSep, List.getLast?_map, Option.bind_eq_some_iff] at ht
    obtain ⟨text', htext', ht⟩ := ht
    obtain ⟨param, -, rfl⟩ := Option.map_eq_some_iff.mp htext'
    obtain ⟨t', hlast, hquiet⟩ := param.endsIn_text
    obtain rfl := Option.some.inj (hlast.symm.trans ht)
    exact hquiet
  cases params with
  | nil => exact Text.adjacent_quiet hR (quiet_openDelim _)
  | cons param params =>
    have hgenerics : EndsWell (genericsText (param :: params)) :=
      (Text.endsIn_word (.inr rfl)).append _
    have hfirst : ∀ t', Text.firstWord (.word (.openDelim .paren) :: text) = some t' →
        t'.AfterGt := by
      rintro t' ⟨⟩
      trivial
    have hfirst' : ∀ t', Text.firstWord (commaSep ((param :: params).map GenericParam.text)) =
        some t' → t'.AfterLt := by
      intro t' ht'
      have hname : Text.firstWord (commaSep ((param :: params).map GenericParam.text)) =
          some (.ident param.name) := by
        cases params <;> rfl
      obtain rfl := Option.some.inj (hname.symm.trans ht')
      trivial
    have hadjacent : (genericsText (param :: params)).Adjacent R := by
      rw [genericsText, adjacent_angles hR hfirst' fun t ht => .inl (hends t ht),
        adjacent_commaSep hR hwell]
      · exact ⟨List.forall_mem_map.mpr fun param _ => param.adjacent_text hR,
          fun hgt => absurd (hends _ hgt) not_quiet_gt⟩
      · exact List.cons_ne_nil _ _
    rw [hgenerics.adjacent_append hR hfirst, Text.adjacent_quiet hR (quiet_openDelim _),
      and_iff_right hadjacent]

/-- The neighbours in a binding are allowed iff `>>` is or its type is unnested. -/
lemma adjacent_bindingText_iff (binding : Ident × Ty) :
    (bindingText binding).Adjacent R ↔ (R .gt .gt ∨ binding.2.Unnested) := by
  rw [bindingText, Text.adjacent_quiet hR (quiet_ident _), Text.adjacent_word,
    Text.adjacent_space, binding.2.adjacent_text_iff hR]
  exact and_iff_right (fun _ h => nomatch h)

/-- The same, for each of a list of bindings. -/
lemma forall_adjacent_bindingText_iff (bindings : List (Ident × Ty)) :
    (∀ text ∈ bindings.map bindingText, text.Adjacent R) ↔
      (R .gt .gt ∨ ∀ binding ∈ bindings, binding.2.Unnested) := by
  rw [List.forall_mem_map]
  simp only [adjacent_bindingText_iff hR]
  by_cases hgt : R .gt .gt <;> simp [hgt]

/-- The same for the `requires` part and what comes after it. -/
lemma adjacent_requiresText_append (requires : List (Ident × Ty)) (text : Text) :
    Text.Adjacent R (requiresText requires ++ text) ↔
      (R .gt .gt ∨ ∀ binding ∈ requires, binding.2.Unnested) ∧ text.Adjacent R := by
  cases requires with
  | nil => simp [requiresText]
  | cons b bs =>
    have hfirst : ∀ t', Text.firstWord (.word .semi :: .space :: text) = some t' →
        t'.AfterGt := by
      rintro t' ⟨⟩
      trivial
    have hsemi : Token.semi.Quiet := ⟨(fun _ => rfl), by simp⟩
    rw [← forall_adjacent_bindingText_iff hR, requiresText, List.append_assoc, List.cons_append,
      List.cons_append, List.nil_append,
      adjacent_commaSep_append hR (List.forall_mem_map.mpr fun b _ => endsWell_bindingText b)
        hfirst, Text.adjacent_quiet hR hsemi, Text.adjacent_space]
    exact List.cons_ne_nil _ _

/-- The same for the `ensures` part. -/
lemma adjacent_ensuresText (ensures : List (Ident × Ty)) :
    (ensuresText ensures).Adjacent R ↔
      (R .gt .gt ∨ ∀ binding ∈ ensures, binding.2.Unnested) := by
  cases ensures with
  | nil => simp [ensuresText]
  | cons b bs =>
    have hsemi : Token.semi.Quiet := ⟨(fun _ => rfl), by simp⟩
    rw [← forall_adjacent_bindingText_iff hR, ensuresText, Text.adjacent_quiet hR hsemi,
      Text.adjacent_space,
      adjacent_commaSep hR (List.forall_mem_map.mpr fun b _ => endsWell_bindingText b)]
    exact List.cons_ne_nil _ _

/-- **Tokens that touch in the text of a signature** are related, but for `>` after `>`. -/
lemma FnSig.adjacent_text_iff (sig : FnSig) :
    sig.text.Adjacent R ↔ (R .gt .gt ∨ sig.Unnested) := by
  obtain ⟨generics, requires, args, ret, ensures⟩ := sig
  have hfn : Token.fn.Quiet := ⟨(fun _ => rfl), by simp⟩
  have hargs : ∀ text ∈ texts args, EndsWell text := by
    rw [texts_eq_map]
    exact List.forall_mem_map.mpr fun ty _ => ty.endsWell_text
  have hargs' : (∀ text ∈ texts args, text.Adjacent R) ↔
      (R .gt .gt ∨ ∀ ty ∈ args, ty.Unnested) := by
    rw [texts_eq_map, List.forall_mem_map]
    simp only [Ty.adjacent_text_iff hR]
    by_cases hgt : R .gt .gt <;> simp [hgt]
  have hclose : ∀ text t', Text.firstWord (.word (.closeDelim .paren) :: text) = some t' →
      t'.AfterGt := by
    rintro text t' ⟨⟩
    trivial
  have hensures : ∀ t', (ensuresText ensures).firstWord = some t' → t'.AfterGt := by
    intro t' ht'
    cases ensures with
    | nil => cases ht'
    | cons b bs =>
      obtain rfl := Option.some.inj ht'
      trivial
  rw [FnSig.text, List.cons_append, Text.adjacent_quiet hR hfn,
    adjacent_genericsText_append hR, List.append_assoc, List.append_assoc, List.cons_append,
    adjacent_requiresText_append hR, adjacent_commaSep_append hR hargs (hclose _), hargs',
    Text.adjacent_quiet hR (quiet_closeDelim _), List.cons_append, List.cons_append,
    List.cons_append, Text.adjacent_space, Text.adjacent_word, Text.adjacent_space,
    ret.endsWell_text.adjacent_append hR hensures,
    ret.adjacent_text_iff hR, adjacent_ensuresText hR, FnSig.Unnested]
  by_cases hgt : R .gt .gt <;> simp [hgt]

end

/-! ## Reading signatures back -/

/-- The spaced text has the same first word. -/
lemma Text.firstWord_spaced (text : Text) :
    Text.firstWord text.spaced = Text.firstWord text := by
  induction text using Text.spaced.induct with
  | case1 text ih => rfl
  | case2 piece text hgt ih =>
    rw [Text.spaced]
    · cases piece <;> rfl
    · exact hgt
  | case3 => rfl

/-- Spaces keep closing angle brackets apart. -/
lemma Text.adjacent_spaced {text : Text} (h : text.Adjacent Token.MayTouchOrGt) :
    text.spaced.Adjacent Token.MayTouch := by
  induction text using Text.spaced.induct with
  | case1 text ih =>
    have hspaced := ih (Text.adjacent_word.mp h).2
    rw [Text.spaced, Text.adjacent_word, Text.adjacent_space]
    exact ⟨(fun _ h => nomatch h), hspaced⟩
  | case2 piece text hgt ih =>
    rw [Text.spaced]
    · cases piece with
      | space => exact Text.adjacent_space.mpr (ih (Text.adjacent_space.mp h))
      | word t =>
        obtain ⟨hfirst, hrest⟩ := Text.adjacent_word.mp h
        refine Text.adjacent_word.mpr ⟨fun t' ht' => ?_, ih hrest⟩
        have hfirst' : Text.firstWord text = some t' := by rwa [Text.firstWord_spaced] at ht'
        refine (hfirst t' hfirst').resolve_right ?_
        rintro ⟨rfl, rfl⟩
        cases text with
        | nil => cases hfirst'
        | cons piece' text =>
          rw [Text.firstWord_eq_some] at hfirst'
          obtain rfl := Option.some.inj hfirst'
          exact hgt text rfl rfl
    · exact hgt
  | case3 => exact .nil

/-- **A token stream is parsed as a signature** if the tokens that the cursor yields stand for it in
the grammar. -/
def ParsesTo (stream : TokenStream) (offset : ℕ) (sig : FnSig) : Prop :=
  ∃ items, (Cursor.new stream offset).Yields items ∧
    Grammar.FnSig (items.map fun item => item.2.1) sig

/-- Whether a token stream is parsed as one signature. -/
def GivesBack (stream : TokenStream) (offset : ℕ) (sig : FnSig) : Prop :=
  ∀ sig', ParsesTo stream offset sig' ↔ sig' = sig

/-- Whether the identifiers and literals of a signature are ones in its text. -/
def FnSig.WellFormed (sig : FnSig) : Prop :=
  ∀ t ∈ sig.text.tokens, t.WellFormed

/-- A stream is parsed to a signature iff the grammar gives it for the tokens read. -/
lemma parsesTo_iff {stream : TokenStream} {offset : ℕ} {ts : List Spanned} {sig : FnSig}
    (h : TokenTree.flat stream = ts) :
    ParsesTo stream offset sig ↔ Grammar.FnSig (readTokens offset ts) sig := by
  have hyields := Cursor.yields_new stream offset
  rw [Cursor.items_eq_lex, h] at hyields
  constructor
  · rintro ⟨items, hitems, hsig⟩
    rwa [hitems.unique hyields] at hsig
  · exact fun hsig => ⟨_, hyields, hsig⟩

/-- What is read as the tokens of the text of a signature gives it back. -/
lemma givesBack_of_readTokens {stream : TokenStream} {offset : ℕ} {ts : List Spanned} {sig : FnSig}
    (h : TokenTree.flat stream = ts) (hread : readTokens offset ts = sig.text.tokens) :
    GivesBack stream offset sig := by
  intro sig'
  rw [parsesTo_iff h, hread]
  refine ⟨fun h' => h'.unique sig.fnSig_text, ?_⟩
  rintro rfl
  exact sig'.fnSig_text

/-- **Signatures are read back**, from canonical text exactly if no two closing angle brackets come
one after the other, and always if there are spaces between these. -/
theorem FnSig.givesBack_text_iff {sig : FnSig} {pos pos' offset : ℕ} {stream stream' : TokenStream}
    (hwf : sig.WellFormed) (h : TokenTree.flat stream = sig.text.tokenise pos)
    (h' : TokenTree.flat stream' = sig.text.spaced.tokenise pos') :
    (GivesBack stream offset sig ↔ sig.Unnested) ∧ GivesBack stream' offset sig := by
  have hor : sig.text.Adjacent Token.MayTouchOrGt :=
    (sig.adjacent_text_iff (lax_mayTouch.mono fun _ _ h => .inl h)).mpr (.inl (.inr ⟨rfl, rfl⟩))
  have hmay : sig.text.Adjacent Token.MayTouch ↔ sig.Unnested := by
    rw [sig.adjacent_text_iff lax_mayTouch]
    exact or_iff_right fun h => nomatch h.1
  refine ⟨⟨fun hback => ?_, fun hunnested => ?_⟩, ?_⟩
  · by_contra hnested
    have hinvalid : .invalid ∈ readTokens offset (sig.text.tokenise pos) :=
      Text.invalid_mem_readTokens_tokenise offset hwf hor (mt hmay.mp hnested)
    exact ((parsesTo_iff h).mp ((hback sig).mpr rfl)).invalid_not_mem hinvalid
  · exact givesBack_of_readTokens h
      (Text.readTokens_tokenise offset hwf (hmay.mpr hunnested))
  · refine givesBack_of_readTokens h' ?_
    rw [Text.readTokens_tokenise offset (by rwa [Text.tokens_spaced])
      (Text.adjacent_spaced hor),
      Text.tokens_spaced]

/-- `fn(Vec<Vec<i32>>) -> i32`. -/
def nestedSig : FnSig :=
  let i32 : Ty := .baseTy (.mk "i32" none)
  let vec (ty : Ty) : Ty := .baseTy (.mk "Vec" (some [ty]))
  ⟨[], [], [vec (vec i32)], i32, []⟩

/-- The token trees of a function from a type to `i32`, where the type ends at a position. -/
def fnTrees (ty : List TokenTree) (hi : ℕ) : TokenStream :=
  [.token (.ident "fn" false) ⟨0, 2⟩, .delimited ⟨2, 3⟩ ⟨hi, hi + 1⟩ .paren ty,
    .token .rArrow ⟨hi + 2, hi + 4⟩, .token (.ident "i32" false) ⟨hi + 5, hi + 8⟩]

/-- The token trees of `Vec<Vec<i32`, with the ones that are after it. -/
def vecVecTrees (close : List TokenTree) : List TokenTree :=
  .token (.ident "Vec" false) ⟨3, 6⟩ :: .token .lt ⟨6, 7⟩ :: .token (.ident "Vec" false) ⟨7, 10⟩ ::
    .token .lt ⟨10, 11⟩ :: .token (.ident "i32" false) ⟨11, 14⟩ :: close

/-- What the compiler makes of `fn(Vec<Vec<i32>>) -> i32`. -/
def nestedTrees : TokenStream :=
  fnTrees (vecVecTrees [.token (.binOp .shr) ⟨14, 16⟩]) 16

/-- What the compiler makes of `fn(Vec<Vec<i32> >) -> i32`. -/
def spacedTrees : TokenStream :=
  fnTrees (vecVecTrees [.token .gt ⟨14, 15⟩, .token .gt ⟨16, 17⟩]) 17

/-- A signature with nested type arguments is given back with spaces and not without. -/
theorem givesBack_text_iff_nestedSig :
    (GivesBack nestedTrees 0 nestedSig ↔ nestedSig.Unnested) ∧
      GivesBack spacedTrees 0 nestedSig := by
  have hwf : nestedSig.WellFormed := by
    unfold FnSig.WellFormed
    decide +kernel
  have h : TokenTree.flat nestedTrees = nestedSig.text.tokenise 0 := by
    simp only [nestedTrees, fnTrees, vecVecTrees, TokenTree.flat]
    decide +kernel
  have h' : TokenTree.flat spacedTrees = nestedSig.text.spaced.tokenise 0 := by
    simp only [spacedTrees, fnTrees, vecVecTrees, TokenTree.flat]
    decide +kernel
  exact FnSig.givesBack_text_iff hwf h h'

/-- The two `>` of `Vec<Vec<i32>>` are read as a shift. -/
theorem not_givesBack_text :
    ¬∀ (sig : FnSig) (pos offset : ℕ) (stream : TokenStream), sig.WellFormed →
      TokenTree.flat stream = sig.text.tokenise pos → GivesBack stream offset sig := by
  intro hall
  have hwf : nestedSig.WellFormed := by
    unfold FnSig.WellFormed
    decide +kernel
  have h : TokenTree.flat nestedTrees = nestedSig.text.tokenise 0 := by
    simp only [nestedTrees, fnTrees, vecVecTrees, TokenTree.flat]
    decide +kernel
  have hsig := (parsesTo_iff h).mp ((hall nestedSig 0 0 nestedTrees hwf h nestedSig).mpr rfl)
  have hinvalid : .invalid ∈ readTokens 0 (nestedSig.text.tokenise 0) := by decide +kernel
  exact hsig.invalid_not_mem hinvalid

end LiquidRust.Syntax
