import LiquidRust.Lib.Indent

set_option relaxedAutoImplicit false
set_option autoImplicit false

/-!
# Indenting writers

`PadAdapter` of `liquid-rust-common/src/format.rs`. It goes around a writer, and what is written to
it is indented on its way there. The adapter remembers between two writes whether the text so far
ends with a newline, and adapters go around adapters.

## Main definitions

* `LiquidRust.Common.Write` — writers.
* `LiquidRust.Common.LawfulWrite` — writers that do not see how a text is cut up.
* `LiquidRust.Common.PadAdapter.writeStr` — the adapter.
* `LiquidRust.Common.Nested`, `nested` — adapters around a writer, to any depth.

## Main results

* `LiquidRust.Common.PadAdapter.writeStr_eq` — the adapter writes the indented text at once.
* `LiquidRust.Common.writeStr_nested` — so do nested adapters, with the sum of the indentations.
-/

namespace LiquidRust.Common

open Lib

/-! ## Writers -/

/-- `fmt::Write`. A writer that is full gives `none`, which stands for `fmt::Error`. -/
class Write (W : Type) where
  writeStr : W → List Char → Option W

/-- `write!` with a text. -/
def write {W : Type} [Write W] (f : W) (s : String) : Option W :=
  Write.writeStr f s.toList

/-- The strings are written one after the other. -/
def writeAll {W : Type} [Write W] (f : W) (strs : List (List Char)) : Option W :=
  strs.foldlM Write.writeStr f

/-- `fmt::Write` for `String`. -/
instance : Write (List Char) where
  writeStr out s := some (out ++ s)

/-- **A lawful writer** does not see how a text is cut up. -/
class LawfulWrite (W : Type) [Write W] : Prop where
  writeStr_nil (w : W) : Write.writeStr w [] = some w
  writeStr_append (w : W) (s t : List Char) :
    Write.writeStr w (s ++ t) = (Write.writeStr w s).bind fun w => Write.writeStr w t

instance : LawfulWrite (List Char) where
  writeStr_nil w := by simp [Write.writeStr]
  writeStr_append w s t := by simp [Write.writeStr]

export LawfulWrite (writeStr_nil writeStr_append)

/-! ## The adapter -/

/-- Whether what was written last ends with a newline. -/
structure PadAdapterState where
  onNewline : Bool
  deriving DecidableEq, Repr

/-- A writer that indents what is written to it. -/
structure PadAdapter (T : Type) where
  inner : T
  state : PadAdapterState

/-- Whether the first line of a text ends with a newline, and where it ends. -/
def splitLine (s : List Char) : Bool × ℕ :=
  match s.findIdx? (· = '\n') with
  | some pos => (true, pos + 1)
  | none => (false, s.length)

/-- The first line of a text is not empty. -/
lemma splitLine_pos {s : List Char} (hs : s ≠ []) : 0 < (splitLine s).2 := by
  unfold splitLine
  split
  · omega
  · exact List.length_pos_iff.mpr hs

namespace PadAdapter

variable {W : Type}

/-- `PadAdapter::wrap_fmt`. -/
def wrapFmt (inner : W) : PadAdapter W where
  inner := inner
  state := ⟨false⟩

/-- `write_str`: the loop over the lines of the text. -/
def writeStr [Write W] (self : PadAdapter W) : List Char → Option (PadAdapter W)
  | [] => some self
  | c :: cs => do
    let inner ← if self.state.onNewline then write self.inner "   " else some self.inner
    let split := splitLine (c :: cs)
    let inner ← Write.writeStr inner ((c :: cs).take split.2)
    writeStr ⟨inner, ⟨split.1⟩⟩ ((c :: cs).drop split.2)
termination_by s => s.length
decreasing_by
  have := splitLine_pos (List.cons_ne_nil c cs)
  simp only [List.length_drop, List.length_cons]
  omega

instance [Write W] : Write (PadAdapter W) where
  writeStr := writeStr

end PadAdapter

/-- The padding that is inserted after a newline. -/
abbrev pad : Bool → List Char → List Char :=
  indentFrom '\n' ' ' 3

/-- Whether a text ends with a newline. -/
abbrev onNewline : Bool → List Char → Bool :=
  endsWith '\n'

/-- The first line and the rest of a text. -/
lemma splitLine_spec (s : List Char) :
    (∃ line rest, s = line ++ '\n' :: rest ∧ '\n' ∉ line ∧
      splitLine s = (true, line.length + 1)) ∨
    '\n' ∉ s ∧ splitLine s = (false, s.length) := by
  unfold splitLine
  cases h : s.findIdx? (· = '\n') with
  | none =>
    refine .inr ⟨fun hmem => ?_, rfl⟩
    simpa using List.findIdx?_eq_none_iff.mp h '\n' hmem
  | some pos =>
    obtain ⟨hlt, hpos, hbefore⟩ := List.findIdx?_eq_some_iff_getElem.mp h
    refine .inl ⟨s.take pos, s.drop (pos + 1), ?_, fun hmem => ?_, ?_⟩
    · have hnewline : s[pos] = '\n' := by simpa using hpos
      rw [← hnewline, List.getElem_cons_drop, List.take_append_drop]
    · obtain ⟨i, hi, hget⟩ := List.getElem_of_mem hmem
      rw [List.length_take] at hi
      rw [List.getElem_take] at hget
      simpa [hget] using hbefore i (by omega)
    · rw [List.length_take, Nat.min_eq_left (Nat.le_of_lt hlt)]

/-- The second part is padded in the state that the first one leaves. -/
lemma pad_append (b : Bool) (s t : List Char) :
    pad b (s ++ t) = pad b s ++ pad (onNewline b s) t :=
  indentFrom_append

/-- The indented text begins with the padding and the first line. -/
lemma pad_line (b : Bool) {s : List Char} (hs : s ≠ []) :
    pad b s = ((if b then .replicate 3 ' ' else []) ++ s.take (splitLine s).2) ++
      pad (splitLine s).1 (s.drop (splitLine s).2) := by
  have hfirst : ∀ {line : List Char}, '\n' ∉ line → line ≠ [] →
      pad b line = (if b then .replicate 3 ' ' else []) ++ line := by
    intro line hline hne
    cases b with
    | false => exact indentFrom_of_notMem hline
    | true => rw [pad, indentFrom_true hne, indentFrom_of_notMem hline]; rfl
  obtain ⟨line, rest, rfl, hline, hsplit⟩ | ⟨hnotMem, hsplit⟩ := splitLine_spec s
  · have hnewline : pad b (line ++ ['\n']) =
        (if b then .replicate 3 ' ' else []) ++ (line ++ ['\n']) := by
      cases line with
      | nil => simp [indentFrom]
      | cons c line =>
        rw [pad_append, hfirst hline (by simp), onNewline, endsWith_of_notMem hline (by simp)]
        simp [indentFrom]
    have hlength : line.length + 1 = (line ++ ['\n']).length := by simp
    rw [hsplit, List.append_cons, pad_append, hnewline, hlength, List.take_left, List.drop_left]
    simp [endsWith_append]
  · rw [hsplit, List.take_length, List.drop_length, hfirst hnotMem hs]
    simp [indentFrom]

/-- The state after the first line. -/
lemma onNewline_line (b : Bool) {s : List Char} (hs : s ≠ []) :
    onNewline b s = onNewline (splitLine s).1 (s.drop (splitLine s).2) := by
  obtain ⟨line, rest, rfl, -, hsplit⟩ | ⟨hnotMem, hsplit⟩ := splitLine_spec s
  · simp [hsplit, endsWith_append]
  · rw [hsplit, List.drop_length]
    exact endsWith_of_notMem hnotMem hs

section Lawful

variable {W : Type} [Write W]

/-- The text of a list of strings is written at once. -/
lemma writeAll_eq [LawfulWrite W] (w : W) (strs : List (List Char)) :
    writeAll w strs = Write.writeStr w strs.flatten := by
  induction strs generalizing w with
  | nil => exact (writeStr_nil w).symm
  | cons s strs ih =>
    rw [List.flatten_cons, writeStr_append]
    exact congrArg _ (funext ih)

namespace PadAdapter

/-- **The first line**: it is written after its padding, and the rest is written with the state
that the line leaves. -/
lemma writeStr_line [LawfulWrite W] (inner : W) (b : Bool) {s : List Char} (hs : s ≠ []) :
    writeStr ⟨inner, ⟨b⟩⟩ s =
      (Write.writeStr inner
        ((if b then .replicate 3 ' ' else []) ++ s.take (splitLine s).2)).bind fun inner =>
          writeStr ⟨inner, ⟨(splitLine s).1⟩⟩ (s.drop (splitLine s).2) := by
  cases s with
  | nil => exact absurd rfl hs
  | cons c cs =>
    rw [writeStr]
    cases b with
    | false => rfl
    | true =>
      simp only [if_true, writeStr_append, Option.bind_assoc]
      rfl

/-- **The adapter writes the indented text at once.**

**Proof sketch.** By induction on the length of the text. The padding and the first line are what
the indented text begins with, and the state after the line is whether it ended with a newline. -/
theorem writeStr_eq [LawfulWrite W] (inner : W) (b : Bool) (s : List Char) :
    writeStr ⟨inner, ⟨b⟩⟩ s =
      (Write.writeStr inner (pad b s)).map fun inner => ⟨inner, ⟨onNewline b s⟩⟩ := by
  induction hn : s.length using Nat.strongRecOn generalizing inner b s with
  | ind n ih =>
    by_cases hs : s = []
    · subst hs
      simp [writeStr, indentFrom, writeStr_nil]
    · have hlt : (s.drop (splitLine s).2).length < n := by
        have := splitLine_pos hs
        have := List.length_pos_iff.mpr hs
        rw [List.length_drop]
        omega
      rw [writeStr_line inner b hs, pad_line b hs, onNewline_line b hs]
      generalize (if b then List.replicate 3 ' ' else []) ++ s.take (splitLine s).2 = line
      rw [writeStr_append, Option.map_bind]
      congr 1
      funext inner
      exact ih _ hlt inner _ _ rfl

end PadAdapter

/-- An adapter around a lawful writer is a lawful writer. -/
instance [LawfulWrite W] : LawfulWrite (PadAdapter W) where
  writeStr_nil w := by
    change PadAdapter.writeStr w [] = some w
    rw [PadAdapter.writeStr]
  writeStr_append w s t := by
    change PadAdapter.writeStr w (s ++ t) =
      (PadAdapter.writeStr w s).bind fun w => PadAdapter.writeStr w t
    obtain ⟨inner, ⟨b⟩⟩ := w
    simp only [PadAdapter.writeStr_eq, pad_append, writeStr_append, Option.map_bind,
      Option.bind_map, Function.comp_def, onNewline, endsWith_append]

end Lawful

/-! ## Nested adapters -/

/-- Adapters around a writer. -/
def Nested (W : Type) : ℕ → Type
  | 0 => W
  | d + 1 => PadAdapter (Nested W d)

/-- Adapters around a writer are written to through the outermost one. -/
instance Nested.write {W : Type} [Write W] : ∀ d, Write (Nested W d)
  | 0 => inferInstanceAs (Write W)
  | d + 1 =>
    letI := Nested.write (W := W) d
    inferInstanceAs (Write (PadAdapter (Nested W d)))

/-- Adapters around `w`, all with the same state. -/
def nestedWith {W : Type} (b : Bool) (w : W) : ∀ d, Nested W d
  | 0 => w
  | d + 1 => PadAdapter.mk (nestedWith b w d) ⟨b⟩

/-- **Adapters made by `wrap_fmt`** around `w`. -/
def nested {W : Type} (w : W) : ∀ d, Nested W d
  | 0 => w
  | d + 1 => PadAdapter.wrapFmt (nested w d)

/-- The writer inside all adapters. -/
def Nested.sink {W : Type} : ∀ {d}, Nested W d → W
  | 0, w => w
  | _ + 1, w => Nested.sink (PadAdapter.inner w)

/-- New adapters have seen no newline. -/
lemma nested_eq_nestedWith {W : Type} (w : W) (d : ℕ) : nested w d = nestedWith false w d := by
  induction d with
  | zero => rfl
  | succ d ih =>
    rw [nested, nestedWith, ih]
    rfl

/-- Below all adapters is the string that they are around. -/
@[simp] lemma sink_nestedWith {W : Type} (b : Bool) (w : W) (d : ℕ) :
    (nestedWith b w d).sink = w := by
  induction d with
  | zero => rfl
  | succ d ih => exact ih

section Nested

variable {W : Type} [Write W]

/-- Adapters around a lawful writer are lawful. -/
instance Nested.lawful [LawfulWrite W] : ∀ d, LawfulWrite (Nested W d)
  | 0 => inferInstanceAs (LawfulWrite W)
  | d + 1 =>
    letI := Nested.lawful d
    inferInstanceAs (LawfulWrite (PadAdapter (Nested W d)))

/-- **Nested adapters** in one state write the text that is indented by the sum, and are in one
state afterwards: each of them sees the newlines of the text, and the padding of those around it
as text. -/
lemma writeStr_nestedWith [LawfulWrite W] (b : Bool) (w : W) (d : ℕ) (s : List Char) :
    Write.writeStr (nestedWith b w d) s =
      (Write.writeStr w (indentFrom '\n' ' ' (3 * d) b s)).map fun w =>
        nestedWith (onNewline b s) w d := by
  induction d generalizing s with
  | zero =>
    rw [Nat.mul_zero, indentFrom_zero]
    exact Option.map_id'.symm
  | succ d ih =>
    -- the adapter outside hands the padded text to the ones inside
    change PadAdapter.writeStr ⟨nestedWith b w d, ⟨b⟩⟩ s = _
    rw [PadAdapter.writeStr_eq, ih, Option.map_map, pad, indentFrom_indentFrom (by decide),
      onNewline, endsWith_indentFrom]
    rfl

/-- **Adapters made by `wrap_fmt`** write the text with `3 * d` blanks after each newline that
something follows. -/
theorem writeStr_nested [LawfulWrite W] (w : W) (d : ℕ) (s : List Char) :
    Write.writeStr (nested w d) s =
      (Write.writeStr w (indent '\n' ' ' (3 * d) s)).map fun w =>
        nestedWith (onNewline false s) w d := by
  rw [nested_eq_nestedWith, writeStr_nestedWith, indentFrom_false]

/-- What arrives at a string inside nested adapters. -/
lemma sink_writeStr_nested (out : List Char) (d : ℕ) (s : List Char) :
    (Write.writeStr (nested out d) s).map Nested.sink =
      some (out ++ indent '\n' ' ' (3 * d) s) := by
  rw [writeStr_nested, Option.map_map]
  simp [Write.writeStr, Function.comp_def]

end Nested

end LiquidRust.Common
