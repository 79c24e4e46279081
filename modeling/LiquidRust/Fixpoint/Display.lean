import LiquidRust.Common.Format
import LiquidRust.Fixpoint.Constraint

set_option relaxedAutoImplicit false
set_option autoImplicit false

/-!
# The text of a constraint

Constraints are printed with one indenting adapter for each level of nesting, in many small writes.
The text that comes out is the one without adapters, with blanks inserted after newlines.

## Main definitions

* `LiquidRust.Fixpoint.Pred.fmt`, `Constraint.fmt` — printing to a writer.
* `LiquidRust.Fixpoint.Pred.textWith`, `Constraint.textWith` — the text, with adapters that pad.
* `LiquidRust.Fixpoint.Constraint.text` — the text without indentation.
* `LiquidRust.Fixpoint.Constraint.display` — the indented text.

## Main results

* `LiquidRust.Fixpoint.Constraint.fmt_eq` — a constraint is printed as its indented text.
* `LiquidRust.Fixpoint.padAdapter_indents` — indentation does not depend on how a text is cut up,
  and inserts blanks after newlines only.
-/

namespace LiquidRust.Fixpoint

open Common Lib

/-! ## Printing -/

/-- The text of a sort. -/
def Srt.display : Srt → String
  | int => "int"
  | bool => "bool"

/-- `{:?}` of a name. -/
def Name.debug (x : Name) : String :=
  "a" ++ toString x

/-- `{:?}` of an unknown predicate. -/
def KVid.debug (kvid : KVid) : String :=
  "$k" ++ toString kvid

/-- `vars.iter().format(" ")` with `{:?}`. -/
def fmtVars {W : Type} [Write W] (f : W) : List Name → Option W
  | [] => some f
  | [x] => write f (Name.debug x)
  | x :: y :: vars => do
    let f ← write f (Name.debug x)
    let f ← write f " "
    fmtVars f (y :: vars)

mutual

/-- `fmt` for predicates. -/
def Pred.fmt : Pred → {W : Type} → [Write W] → W → Option W
  | .and preds, _, _, f => do
    let f ← write f "(and"
    let w ← Pred.fmtAll preds (PadAdapter.wrapFmt f)
    write w.inner "\n)"
  | .kvar kvid vars, _, _, f => do
    let f ← write f "("
    let f ← write f (KVid.debug kvid)
    let f ← write f " "
    let f ← fmtVars f vars
    write f ")"
  | .expr e, _, _, f => do
    let f ← write f "("
    let f ← write f e.display
    write f ")"

/-- The loop over the predicates of a conjunction. -/
def Pred.fmtAll : List Pred → {W : Type} → [Write W] → W → Option W
  | [], _, _, w => some w
  | pred :: preds, _, _, w => do
    let w ← write w "\n"
    let w ← pred.fmt w
    Pred.fmtAll preds w

end

mutual

/-- `fmt` for constraints. -/
def Constraint.fmt : Constraint → {W : Type} → [Write W] → W → Option W
  | .pred p, _, _, f => do
    let f ← write f "("
    let f ← p.fmt f
    write f ")"
  | .conj cs, _, _, f => do
    let f ← write f "(and"
    let w ← Constraint.fmtAll cs (PadAdapter.wrapFmt f)
    write w.inner "\n)"
  | .guard body head, _, _, f => do
    let f ← write f "(forall ((_ int) ("
    let f ← write f body.display
    let f ← write f "))"
    let w ← write (PadAdapter.wrapFmt f) "\n"
    let w ← head.fmt w
    write w.inner "\n)"
  | .forAll x sort body head, _, _, f => do
    let f ← write f "(forall (("
    let f ← write f (Name.debug x)
    let f ← write f " "
    let f ← write f sort.display
    let f ← write f ") "
    let f ← body.fmt f
    let f ← write f ")"
    let w ← write (PadAdapter.wrapFmt f) "\n"
    let w ← head.fmt w
    write w.inner "\n)"

/-- The loop over the members of a conjunction. -/
def Constraint.fmtAll : List Constraint → {W : Type} → [Write W] → W → Option W
  | [], _, _, w => some w
  | c :: cs, _, _, w => do
    let w ← write w "\n"
    let w ← c.fmt w
    Constraint.fmtAll cs w

end

/-! ## Texts -/

/-- The characters of a string. -/
@[irreducible] def chars (s : String) : List Char :=
  s.toList

/-- A string is written with its characters. -/
lemma write_eq {W : Type} [Write W] (w : W) (s : String) :
    write w s = Write.writeStr w (chars s) := by
  rw [write, chars]

/-- The text of a list of names. -/
def varsText : List Name → List Char
  | [] => []
  | [x] => chars (Name.debug x)
  | x :: y :: vars => chars (Name.debug x) ++ chars " " ++ varsText (y :: vars)

section Texts

variable (pad : List Char → List Char)

mutual

/-- The text of a predicate, with the members of conjunctions between the parentheses padded. -/
def Pred.textWith : Pred → List Char
  | .and preds => chars "(and" ++ pad (Pred.textAllWith preds) ++ chars "\n)"
  | .kvar kvid vars =>
    chars "(" ++ chars (KVid.debug kvid) ++ chars " " ++ varsText vars ++ chars ")"
  | .expr e => chars "(" ++ chars e.display ++ chars ")"

/-- Predicates, each on a line of its own. -/
def Pred.textAllWith : List Pred → List Char
  | [] => []
  | p :: preds => chars "\n" ++ p.textWith ++ Pred.textAllWith preds

end

mutual

/-- The text of a constraint, with what is between its parentheses padded. -/
def Constraint.textWith : Constraint → List Char
  | .pred p => chars "(" ++ p.textWith pad ++ chars ")"
  | .conj cs => chars "(and" ++ pad (Constraint.textAllWith cs) ++ chars "\n)"
  | .guard body head =>
    chars "(forall ((_ int) (" ++ chars body.display ++ chars "))" ++
      pad (chars "\n" ++ head.textWith) ++ chars "\n)"
  | .forAll x sort body head =>
    chars "(forall ((" ++ chars (Name.debug x) ++ chars " " ++ chars sort.display ++
      chars ") " ++ body.textWith pad ++ chars ")" ++ pad (chars "\n" ++ head.textWith) ++
      chars "\n)"

/-- Constraints, each on a line of its own. -/
def Constraint.textAllWith : List Constraint → List Char
  | [] => []
  | c :: cs => chars "\n" ++ c.textWith ++ Constraint.textAllWith cs

end

end Texts

/-- **The text of a constraint** without indentation. -/
def Constraint.text (c : Constraint) : List Char :=
  c.textWith id

/-- **The indented text of a constraint.** -/
def Constraint.display (c : Constraint) : List Char :=
  c.textWith (indent '\n' ' ' 3)

/-! ## What is printed -/

section Printed

variable {W : Type} [Write W] [LawfulWrite W]

/-- One text after another. -/
lemma bind_writeStr (w : W) (s t : List Char) :
    (Write.writeStr w s >>= fun w => Write.writeStr w t) = Write.writeStr w (s ++ t) :=
  (writeStr_append w s t).symm

/-- Two strings are written as one, whatever comes after them. -/
lemma bind_writeStr_bind {V : Type} (w : W) (s t : List Char) (k : W → Option V) :
    (Write.writeStr w s >>= fun w => Write.writeStr w t >>= k) =
      Write.writeStr w (s ++ t) >>= k := by
  rw [← bind_writeStr, bind_assoc]

/-- What is written to an adapter arrives indented. -/
lemma writeStr_wrapFmt (w : W) (s t : List Char) :
    (Write.writeStr (PadAdapter.wrapFmt w) s >>= fun a => Write.writeStr a.inner t) =
      Write.writeStr w (indent '\n' ' ' 3 s ++ t) := by
  change (PadAdapter.writeStr ⟨w, ⟨false⟩⟩ s).bind _ = _
  rw [PadAdapter.writeStr_eq, Option.bind_map, pad, indentFrom_false]
  exact bind_writeStr w _ t

/-- The variables are written with blanks between them. -/
lemma fmtVars_eq (w : W) (vars : List Name) :
    fmtVars w vars = Write.writeStr w (varsText vars) := by
  induction vars generalizing w with
  | nil => exact (writeStr_nil w).symm
  | cons x vars ih =>
    cases vars with
    | nil => exact write_eq w _
    | cons y vars =>
      simp only [fmtVars, ih, write_eq, bind_writeStr, varsText, List.append_assoc]

end Printed

mutual

/-- A predicate is printed as its indented text. -/
lemma Pred.fmt_eq : ∀ (p : Pred) {W : Type} [Write W] [LawfulWrite W] (w : W),
    p.fmt w = Write.writeStr w (p.textWith (indent '\n' ' ' 3))
  | .and preds, _, _, _, w => by
    simp only [Pred.fmt, Pred.fmtAll_eq preds, write_eq, writeStr_wrapFmt, bind_writeStr,
      Pred.textWith, List.append_assoc]
  | .kvar kvid vars, _, _, _, w => by
    simp only [Pred.fmt, fmtVars_eq, write_eq, bind_writeStr]
    simp only [Pred.textWith, List.append_assoc]
  | .expr e, _, _, _, w => by
    simp only [Pred.fmt, write_eq, bind_writeStr]
    simp only [Pred.textWith, List.append_assoc]

/-- The members of a conjunction are written one a line. -/
lemma Pred.fmtAll_eq : ∀ (preds : List Pred) {W : Type} [Write W] [LawfulWrite W] (w : W),
    Pred.fmtAll preds w = Write.writeStr w (Pred.textAllWith (indent '\n' ' ' 3) preds)
  | [], _, _, _, w => (writeStr_nil w).symm
  | p :: preds, _, _, _, w => by
    simp only [Pred.fmtAll, p.fmt_eq, Pred.fmtAll_eq preds, write_eq, bind_writeStr]
    simp only [Pred.textAllWith, List.append_assoc]

end

mutual

/-- **A constraint is printed as its indented text**, on every writer that does not see how a text
is cut up. -/
theorem Constraint.fmt_eq : ∀ (c : Constraint) {W : Type} [Write W] [LawfulWrite W] (w : W),
    c.fmt w = Write.writeStr w c.display
  | .pred p, _, _, _, w => by
    simp only [Constraint.fmt, p.fmt_eq, write_eq, bind_writeStr]
    simp only [Constraint.display, Constraint.textWith, List.append_assoc]
  | .conj cs, _, _, _, w => by
    simp only [Constraint.fmt, Constraint.fmtAll_eq cs, write_eq, writeStr_wrapFmt, bind_writeStr]
    simp only [Constraint.display, Constraint.textWith, List.append_assoc]
  | .guard body head, _, _, _, w => by
    simp only [Constraint.fmt, head.fmt_eq, write_eq, bind_writeStr_bind, writeStr_wrapFmt,
      bind_writeStr]
    simp only [Constraint.display, Constraint.textWith, List.append_assoc]
  | .forAll x sort body head, _, _, _, w => by
    simp only [Constraint.fmt, head.fmt_eq, body.fmt_eq, write_eq, bind_writeStr_bind,
      writeStr_wrapFmt, bind_writeStr]
    simp only [Constraint.display, Constraint.textWith, List.append_assoc]

/-- The members of a conjunction are written one a line. -/
lemma Constraint.fmtAll_eq : ∀ (cs : List Constraint) {W : Type} [Write W] [LawfulWrite W] (w : W),
    Constraint.fmtAll cs w = Write.writeStr w (Constraint.textAllWith (indent '\n' ' ' 3) cs)
  | [], _, _, _, w => (writeStr_nil w).symm
  | c :: cs, _, _, _, w => by
    simp only [Constraint.fmtAll, c.fmt_eq, Constraint.fmtAll_eq cs, write_eq, bind_writeStr]
    simp only [Constraint.textAllWith, Constraint.display, List.append_assoc]

end

/-! ## What is inserted -/

section Inserted

variable {pad : List Char → List Char}

/-- What is padded after insertions has insertions. -/
lemma indents_pad (hpad : ∀ s, Indents '\n' ' ' s (pad s)) {s t : List Char}
    (h : Indents '\n' ' ' s t) : Indents '\n' ' ' s (pad t) :=
  h.trans (by decide) (hpad t)

mutual

/-- Padding inserts blanks after newlines only, in predicates. -/
lemma Pred.indents_textWith (hpad : ∀ s, Indents '\n' ' ' s (pad s)) : ∀ p : Pred,
    Indents '\n' ' ' (p.textWith id) (p.textWith pad)
  | .and preds => by
    rw [Pred.textWith, Pred.textWith]
    have hpreds := indents_pad hpad (Pred.indents_textAllWith hpad preds)
    exact (hpreds.append_left _).append_right _
  | .kvar _ _ => by
    rw [Pred.textWith, Pred.textWith]
    exact .refl _
  | .expr _ => by
    rw [Pred.textWith, Pred.textWith]
    exact .refl _

/-- So it is with the members of a conjunction. -/
lemma Pred.indents_textAllWith (hpad : ∀ s, Indents '\n' ' ' s (pad s)) : ∀ preds : List Pred,
    Indents '\n' ' ' (Pred.textAllWith id preds) (Pred.textAllWith pad preds)
  | [] => .nil
  | p :: preds => by
    rw [Pred.textAllWith, Pred.textAllWith]
    have hp := (p.indents_textWith hpad).append_left (chars "\n")
    exact hp.append (Pred.indents_textAllWith hpad preds)

end

mutual

/-- Padding inserts blanks after newlines only, at every level. -/
lemma Constraint.indents_textWith (hpad : ∀ s, Indents '\n' ' ' s (pad s)) : ∀ c : Constraint,
    Indents '\n' ' ' (c.textWith id) (c.textWith pad)
  | .pred p => by
    rw [Constraint.textWith, Constraint.textWith]
    exact ((p.indents_textWith hpad).append_left _).append_right _
  | .conj cs => by
    rw [Constraint.textWith, Constraint.textWith]
    have hcs := indents_pad hpad (Constraint.indents_textAllWith hpad cs)
    exact (hcs.append_left _).append_right _
  | .guard body head => by
    rw [Constraint.textWith, Constraint.textWith]
    have hhead := indents_pad hpad ((head.indents_textWith hpad).append_left (chars "\n"))
    exact (hhead.append_left _).append_right _
  | .forAll x sort body head => by
    rw [Constraint.textWith, Constraint.textWith]
    have hbody := body.indents_textWith hpad
    have hhead := indents_pad hpad ((head.indents_textWith hpad).append_left (chars "\n"))
    exact (((hbody.append_left _).append_right _).append hhead).append_right _

/-- So it is with the members of a conjunction. -/
lemma Constraint.indents_textAllWith (hpad : ∀ s, Indents '\n' ' ' s (pad s)) :
    ∀ cs : List Constraint,
      Indents '\n' ' ' (Constraint.textAllWith id cs) (Constraint.textAllWith pad cs)
  | [] => .nil
  | c :: cs => by
    rw [Constraint.textAllWith, Constraint.textAllWith]
    have hc := (c.indents_textWith hpad).append_left (chars "\n")
    exact hc.append (Constraint.indents_textAllWith hpad cs)

end

end Inserted

/-- **Indentation does not depend on how the text is cut up.** On `d` adapters around a string,
strings that are written one after the other give what their concatenation gives at once: the text
with `3 * d` blanks after each newline that something follows. Deleting these blanks gives back the
text, and a constraint is printed with blanks inserted after newlines only.

**Proof sketch.** One adapter writes the indented text at once, whatever the cuts, and remembers
whether the text so far ends with a newline (by induction on the lines). All nested adapters
remember the same, so that the indentations add up (by induction on `d`). A constraint is a text
that is written piece by piece to such adapters. -/
theorem padAdapter_indents :
    (∀ (d : ℕ) (out : List Char) (strs : List (List Char)),
      writeAll (nested out d) strs = Write.writeStr (nested out d) strs.flatten ∧
      (writeAll (nested out d) strs).map Nested.sink =
        some (out ++ indent '\n' ' ' (3 * d) strs.flatten)) ∧
    (∀ (d : ℕ) (s : List Char), dedent '\n' (3 * d) (indent '\n' ' ' (3 * d) s) = s) ∧
    ∀ (c : Constraint) (d : ℕ) (out : List Char), ∃ s,
      (c.fmt (nested out d)).map Nested.sink = some (out ++ s) ∧ Indents '\n' ' ' c.text s := by
  refine ⟨fun d out strs => ?_, fun d s => dedent_indent, fun c d out => ?_⟩
  · have hall := writeAll_eq (nested out d) strs
    exact ⟨hall, by rw [hall, sink_writeStr_nested]⟩
  · refine ⟨indent '\n' ' ' (3 * d) c.display, ?_, ?_⟩
    · rw [c.fmt_eq, sink_writeStr_nested]
    · have hdisplay : Indents '\n' ' ' c.text c.display :=
        c.indents_textWith indents_indent
      exact hdisplay.trans (by decide) (indents_indent _)

end LiquidRust.Fixpoint
