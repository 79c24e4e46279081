import Mathlib.Data.List.Basic

set_option relaxedAutoImplicit false
set_option autoImplicit false

/-!
# Indented texts

A text is indented by inserting blanks after each newline that something follows. Indenting a text
piece by piece takes one bit of memory, whether the last symbol was a newline.

## Main definitions

* `LiquidRust.Lib.indent` — the indented text.
* `LiquidRust.Lib.indentFrom` — a piece of a text, indented.
* `LiquidRust.Lib.dedent` — blanks are deleted after each newline.
* `LiquidRust.Lib.Indents` — texts that differ by blanks after newlines only.

## Main results

* `LiquidRust.Lib.indentFrom_append` — the pieces of a text are indented one after the other.
* `LiquidRust.Lib.indentFrom_indentFrom` — indenting twice is indenting by the sum.
* `LiquidRust.Lib.dedent_indent` — indentation is deleted again.
* `LiquidRust.Lib.Indents.trans` — insertions one after another.
-/

namespace LiquidRust.Lib

section

variable {α : Type} (newline blank : α)

/-- **Insertions after newlines**: the second text is the first one with blanks directly after
newlines. -/
inductive Indents : List α → List α → Prop
  | nil : Indents [] []
  | cons {s t : List α} (c : α) : Indents s t → Indents (c :: s) (c :: t)
  | newline {s t : List α} (n : ℕ) : Indents s t →
      Indents (newline :: s) (newline :: (.replicate n blank ++ t))

variable [DecidableEq α]

/-- **The indented text**: `n` blanks after each newline that at least one symbol follows. -/
def indent (n : ℕ) : List α → List α
  | [] => []
  | [c] => [c]
  | c :: c' :: cs =>
    if c = newline then c :: (.replicate n blank ++ indent n (c' :: cs))
    else c :: indent n (c' :: cs)

/-- A piece of a text, indented: `b` says whether the symbol before it is a newline. -/
def indentFrom (n : ℕ) : Bool → List α → List α
  | _, [] => []
  | b, c :: cs => (if b then .replicate n blank else []) ++ c :: indentFrom n (c = newline) cs

/-- Whether a newline is the last symbol of a piece of a text, or before it if it is empty. -/
def endsWith (b : Bool) (s : List α) : Bool :=
  s.foldl (fun _ c => c = newline) b

/-- `n` symbols are deleted after each newline, and the first `k` ones. -/
def dedentFrom (n : ℕ) : ℕ → List α → List α
  | _, [] => []
  | k + 1, _ :: cs => dedentFrom n k cs
  | 0, c :: cs => c :: dedentFrom n (if c = newline then n else 0) cs

/-- `n` symbols are deleted after each newline. -/
def dedent (n : ℕ) (s : List α) : List α :=
  dedentFrom newline n 0 s

end

/-! ## Insertions after newlines -/

namespace Indents

variable {α : Type} {newline blank : α} {s t : List α}

/-- No blanks are inserted. -/
lemma refl (s : List α) : Indents newline blank s s := by
  induction s with
  | nil => exact .nil
  | cons c s ih => exact ih.cons c

/-- Two texts are indented one after the other. -/
lemma append {s' t' : List α} (h : Indents newline blank s t) (h' : Indents newline blank s' t') :
    Indents newline blank (s ++ s') (t ++ t') := by
  induction h with
  | nil => exact h'
  | cons c _ ih => exact ih.cons c
  | newline n _ ih => simpa using ih.newline n

/-- What comes before is left as it is. -/
lemma append_left (u : List α) (h : Indents newline blank s t) :
    Indents newline blank (u ++ s) (u ++ t) :=
  (refl u).append h

/-- What comes after is left as it is. -/
lemma append_right (h : Indents newline blank s t) (u : List α) :
    Indents newline blank (s ++ u) (t ++ u) :=
  h.append (refl u)

/-- Blanks are copied. -/
lemma of_replicate_append (hne : newline ≠ blank) {k : ℕ}
    (h : Indents newline blank (.replicate k blank ++ s) t) :
    ∃ t', t = .replicate k blank ++ t' ∧ Indents newline blank s t' := by
  induction k generalizing t with
  | zero => exact ⟨t, rfl, h⟩
  | succ k ih =>
    rw [List.replicate_succ, List.cons_append] at h
    cases h with
    | cons _ h =>
      obtain ⟨t', rfl, ht'⟩ := ih h
      exact ⟨t', by simp [List.replicate_succ], ht'⟩
    | newline n h => exact absurd rfl hne

/-- **Insertions one after another.** -/
theorem trans (hne : newline ≠ blank) {u : List α} (h : Indents newline blank s t)
    (h' : Indents newline blank t u) : Indents newline blank s u := by
  induction h generalizing u with
  | nil => exact h'
  | cons c _ ih =>
    cases h' with
    | cons _ h' => exact (ih h').cons c
    | newline n h' => exact (ih h').newline n
  | newline n _ ih =>
    cases h' with
    | cons _ h' =>
      obtain ⟨u', rfl, hu⟩ := of_replicate_append hne h'
      exact (ih hu).newline n
    | newline m h' =>
      obtain ⟨u', rfl, hu⟩ := of_replicate_append hne h'
      rw [← List.append_assoc, ← List.replicate_add]
      exact (ih hu).newline (m + n)

end Indents

variable {α : Type} [DecidableEq α] {newline blank : α} {n m : ℕ} {b : Bool} {s t : List α}

/-! ## Pieces of a text -/

/-- A first character gets no blanks before it. -/
lemma indent_cons (c : α) (s : List α) :
    indent newline blank n (c :: s) = c :: indentFrom newline blank n (c = newline) s := by
  induction s generalizing c with
  | nil => rfl
  | cons c' s ih =>
    rw [indent, ih c', indentFrom]
    by_cases hc : c = newline <;> simp [hc]

/-- Without a newline before it, a piece is indented as a whole text. -/
lemma indentFrom_false : indentFrom newline blank n false s = indent newline blank n s := by
  cases s with
  | nil => rfl
  | cons c s => simp [indent_cons, indentFrom]

/-- Nothing is written, so the state stays. -/
@[simp] lemma endsWith_nil : endsWith newline b [] = b := rfl

/-- The first character decides for the others. -/
@[simp] lemma endsWith_cons (c : α) :
    endsWith newline b (c :: s) = endsWith newline (c = newline) s := rfl

/-- The state after two texts is the state after the second one. -/
lemma endsWith_append : endsWith newline b (s ++ t) = endsWith newline (endsWith newline b s) t :=
  List.foldl_append

/-- **Pieces one after the other.** -/
lemma indentFrom_append : indentFrom newline blank n b (s ++ t) =
    indentFrom newline blank n b s ++ indentFrom newline blank n (endsWith newline b s) t := by
  induction s generalizing b with
  | nil => rfl
  | cons c s ih => simp [indentFrom, ih]

/-- A piece without a newline is copied. -/
lemma indentFrom_of_notMem (hs : newline ∉ s) : indentFrom newline blank n false s = s := by
  induction s with
  | nil => rfl
  | cons c s ih =>
    obtain ⟨hc, hs⟩ := not_or.mp (mt List.mem_cons.mpr hs)
    simp [indentFrom, ih hs, Ne.symm hc]

/-- A text without a newline does not end with one. -/
lemma endsWith_of_notMem (hs : newline ∉ s) (hne : s ≠ []) : endsWith newline b s = false := by
  induction s generalizing b with
  | nil => exact absurd rfl hne
  | cons c s ih =>
    obtain ⟨hc, hs⟩ := not_or.mp (mt List.mem_cons.mpr hs)
    rw [endsWith_cons, decide_eq_false (Ne.symm hc)]
    cases s with
    | nil => rfl
    | cons c' s => exact ih hs (by simp)

/-- Blanks before a piece keep their place. -/
lemma indentFrom_replicate (hne : newline ≠ blank) (k : ℕ) (s : List α) :
    indentFrom newline blank n false (.replicate k blank ++ s) =
      .replicate k blank ++ indentFrom newline blank n false s := by
  have hnotMem : newline ∉ List.replicate k blank := fun h => hne (List.eq_of_mem_replicate h)
  rw [indentFrom_append, indentFrom_of_notMem hnotMem]
  cases k with
  | zero => rfl
  | succ k => rw [endsWith_of_notMem hnotMem (by simp)]

/-! ## Indenting twice -/

/-- After a newline the blanks come first. -/
lemma indentFrom_true (hs : s ≠ []) : indentFrom newline blank n true s =
    .replicate n blank ++ indentFrom newline blank n false s := by
  cases s with
  | nil => exact absurd rfl hs
  | cons c s => simp [indentFrom]

/-- **Indenting twice** is indenting by the sum. -/
theorem indentFrom_indentFrom (hne : newline ≠ blank) :
    indentFrom newline blank n b (indentFrom newline blank m b s) =
      indentFrom newline blank (n + m) b s := by
  induction s generalizing b with
  | nil => rfl
  | cons c s ih =>
    have hfalse : ∀ k, indentFrom newline blank k false (c :: s) =
        c :: indentFrom newline blank k (c = newline) s := fun k => by simp [indentFrom]
    have hcopy : indentFrom newline blank n false (indentFrom newline blank m false (c :: s)) =
        indentFrom newline blank (n + m) false (c :: s) := by
      rw [hfalse, hfalse, ← ih]
      simp [indentFrom]
    cases b with
    | false => exact hcopy
    | true =>
      calc indentFrom newline blank n true (indentFrom newline blank m true (c :: s))
          = indentFrom newline blank n true
              (.replicate m blank ++ indentFrom newline blank m false (c :: s)) := by
            rw [indentFrom_true (List.cons_ne_nil c s)]
        _ = .replicate n blank ++ (.replicate m blank ++
              indentFrom newline blank (n + m) false (c :: s)) := by
            rw [indentFrom_true (by simp [hfalse]), indentFrom_replicate hne, hcopy]
        _ = indentFrom newline blank (n + m) true (c :: s) := by
            rw [indentFrom_true (List.cons_ne_nil c s), List.replicate_add, List.append_assoc]

/-- No blanks are inserted. -/
@[simp] lemma indentFrom_zero : indentFrom newline blank 0 b s = s := by
  induction s generalizing b with
  | nil => rfl
  | cons c s ih => simp [indentFrom, ih]

/-- The last symbol of an indented piece is that of the piece. -/
lemma endsWith_indentFrom :
    endsWith newline b (indentFrom newline blank n b s) = endsWith newline b s := by
  induction s generalizing b with
  | nil => rfl
  | cons c s ih => rw [indentFrom, endsWith_append, endsWith_cons, ih, endsWith_cons]

/-! ## Deleting the blanks -/

/-- The first symbols are deleted. -/
lemma dedentFrom_append_replicate (k : ℕ) :
    dedentFrom newline n k (.replicate k blank ++ s) = dedentFrom newline n 0 s := by
  induction k with
  | zero => rfl
  | succ k ih => simp [List.replicate_succ, dedentFrom, ih]

/-- The blanks that were inserted are deleted. -/
lemma dedentFrom_indentFrom : dedentFrom newline n (if b then n else 0)
    (indentFrom newline blank n b s) = s := by
  induction s generalizing b with
  | nil => simp [indentFrom, dedentFrom]
  | cons c s ih =>
    have h : dedentFrom newline n 0 (c :: indentFrom newline blank n (c = newline) s) = c :: s := by
      simpa [dedentFrom] using ih (b := c = newline)
    cases b with
    | false => simpa [indentFrom] using h
    | true => simpa [indentFrom, dedentFrom_append_replicate] using h

/-- **Deleting the blanks** that were inserted gives back the text. -/
theorem dedent_indent : dedent newline n (indent newline blank n s) = s := by
  have h : dedentFrom newline n 0 (indentFrom newline blank n false s) = s :=
    dedentFrom_indentFrom (b := false)
  simpa [dedent, indentFrom_false] using h

/-- Indenting inserts blanks after newlines only. -/
lemma indents_indent (s : List α) : Indents newline blank s (indent newline blank n s) := by
  induction s with
  | nil => exact .nil
  | cons c s ih =>
    cases s with
    | nil => exact .refl _
    | cons c' s =>
      rw [indent]
      split_ifs with hc
      · exact hc ▸ ih.newline n
      · exact ih.cons c

end LiquidRust.Lib
