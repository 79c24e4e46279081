import Mathlib.Data.List.Basic
import Mathlib.Data.Option.Basic

set_option relaxedAutoImplicit false
set_option autoImplicit false

/-!
# Iterators and their consumers

A finite iterator is a state machine: `next` answers with an item or with the end, and changes the
state. The other methods of an iterator have default definitions by `next`, and an iterator may
override them. A consumer drives an iterator with these methods in any order. What a consumer does
with one iterator it does with every other one that answers in the same way.

## Main definitions

* `LiquidRust.Lib.Iter` — finite iterators, with `Iter.tryFold` and `Iter.fold` by default.
* `LiquidRust.Lib.Iter.Pulls`, `Iter.drain` — calls of `next` in sequence.
* `LiquidRust.Lib.Source` — the methods that consumers use.
* `LiquidRust.Lib.Consumer`, `Consumer.run` — consumers and their runs.
* `LiquidRust.Lib.Source.Simulates` — iterators that answer in the same way.

## Main results

* `LiquidRust.Lib.Iter.pulls_drain` — an iterator pulled to its end.
* `LiquidRust.Lib.Consumer.run_simulates` — consumers do not tell apart iterators that answer in
  the same way.
-/

namespace LiquidRust.Lib

variable {ι κ χ T V B R : Type}

/-- **A finite iterator** with states `ι`. The items that are left are bounded in number, and after
the end every answer is the end. -/
structure Iter (ι T : Type) where
  next : ι → Option T × ι
  size : ι → ℕ
  size_lt : ∀ ⦃it x it'⦄, next it = (some x, it') → size it' < size it
  fused : ∀ ⦃it it'⦄, next it = (none, it') → next it' = (none, it')

namespace Iter

/-! ## The default methods -/

/-- The default `try_fold`. The closure changes the variables `env` that it captures, and stops the
fold where it fails. -/
def tryFold (I : Iter ι T) (f : χ → B → T → χ × Except R B) (env : χ) (b : B) (it : ι) :
    Except R B × χ × ι :=
  match _h : I.next it with
  | (none, it') => (.ok b, env, it')
  | (some x, it') =>
    match f env b x with
    | (env, .ok b) => tryFold I f env b it'
    | (env, .error r) => (.error r, env, it')
termination_by I.size it
decreasing_by exact I.size_lt ‹_›

/-- The default `fold`. -/
def fold (I : Iter ι T) (f : B → T → B) (b : B) (it : ι) : B × ι :=
  match _h : I.next it with
  | (none, it') => (b, it')
  | (some x, it') => fold I f (f b x) it'
termination_by I.size it
decreasing_by exact I.size_lt ‹_›

/-- A fold over no items is done. -/
lemma tryFold_none {I : Iter ι T} {it it' : ι} (h : I.next it = (none, it'))
    (f : χ → B → T → χ × Except R B) (env : χ) (b : B) :
    I.tryFold f env b it = (.ok b, env, it') := by
  rw [tryFold]
  split
  · next h' => simp_all
  · next h' => simp_all

/-- A fold goes on with what its function returns. -/
lemma tryFold_ok {I : Iter ι T} {it it' : ι} {x : T} (h : I.next it = (some x, it'))
    {f : χ → B → T → χ × Except R B} {env env' : χ} {b b' : B} (hf : f env b x = (env', .ok b')) :
    I.tryFold f env b it = I.tryFold f env' b' it' := by
  rw [tryFold]
  split
  · next h' => simp_all
  · next h' =>
    obtain ⟨rfl, rfl⟩ : x = _ ∧ it' = _ := by simpa using h.symm.trans h'
    rw [hf]

/-- A fold stops where its function does. -/
lemma tryFold_error {I : Iter ι T} {it it' : ι} {x : T} (h : I.next it = (some x, it'))
    {f : χ → B → T → χ × Except R B} {env env' : χ} {b : B} {r : R}
    (hf : f env b x = (env', .error r)) :
    I.tryFold f env b it = (.error r, env', it') := by
  rw [tryFold]
  split
  · next h' => simp_all
  · next h' =>
    obtain ⟨rfl, rfl⟩ : x = _ ∧ it' = _ := by simpa using h.symm.trans h'
    rw [hf]

/-- A fold over no items is done. -/
lemma fold_none {I : Iter ι T} {it it' : ι} (h : I.next it = (none, it')) (f : B → T → B) (b : B) :
    I.fold f b it = (b, it') := by
  rw [fold]
  split
  · next h' => simp_all
  · next h' => simp_all

/-- A fold goes on with what its function returns. -/
lemma fold_some {I : Iter ι T} {it it' : ι} {x : T} (h : I.next it = (some x, it'))
    (f : B → T → B) (b : B) : I.fold f b it = I.fold f (f b x) it' := by
  rw [fold]
  split
  · next h' => simp_all
  · next h' =>
    obtain ⟨rfl, rfl⟩ : x = _ ∧ it' = _ := by simpa using h.symm.trans h'
    rfl

/-- **Induction on the items that are left.** -/
theorem induction (I : Iter ι T) {motive : ι → Prop}
    (done : ∀ it it', I.next it = (none, it') → motive it)
    (item : ∀ it x it', I.next it = (some x, it') → motive it' → motive it) (it : ι) :
    motive it := by
  generalize hn : I.size it = n
  induction n using Nat.strongRecOn generalizing it with
  | _ n ih =>
    rcases h : I.next it with ⟨_ | x, it'⟩
    · exact done it it' h
    · exact item it x it' h (ih _ (hn ▸ I.size_lt h) it' rfl)

/-- A fold by a closure that does not fail is a `fold`. -/
lemma tryFold_eq_fold (I : Iter ι T) (f : B → T → B) (env : χ) (b : B) (it : ι) :
    I.tryFold (R := R) (fun env b x => (env, .ok (f b x))) env b it =
      (.ok (I.fold f b it).1, env, (I.fold f b it).2) := by
  induction it using I.induction generalizing b with
  | done it it' h => rw [tryFold_none h, fold_none h]
  | item it x it' h ih => rw [tryFold_ok h rfl, fold_some h, ih]

/-! ## Pulling items -/

/-- **The calls of `next` in sequence** that answer with the items, from a state to another. -/
inductive Pulls (I : Iter ι T) : ι → List T → ι → Prop
  | nil (it : ι) : Pulls I it [] it
  | cons {it it' it'' : ι} {x : T} {xs : List T} (head : I.next it = (some x, it'))
      (tail : Pulls I it' xs it'') : Pulls I it (x :: xs) it''

/-- One more item at the end. -/
lemma Pulls.snoc {I : Iter ι T} {it it' it'' : ι} {xs : List T} {x : T} (h : I.Pulls it xs it')
    (hx : I.next it' = (some x, it'')) : I.Pulls it (xs ++ [x]) it'' := by
  induction h with
  | nil it => exact .cons hx (.nil it'')
  | cons head _ ih => exact .cons head (ih hx)

/-- All the items that are left, and the state after the end. -/
def drain (I : Iter ι T) (it : ι) : List T × ι :=
  match _h : I.next it with
  | (none, it') => ([], it')
  | (some x, it') => (x :: (I.drain it').1, (I.drain it').2)
termination_by I.size it
decreasing_by all_goals exact I.size_lt ‹_›

/-- There are no items. -/
lemma drain_none {I : Iter ι T} {it it' : ι} (h : I.next it = (none, it')) :
    I.drain it = ([], it') := by
  rw [drain]
  split
  · next h' => simp_all
  · next h' => simp_all

/-- The first item, and what comes after it. -/
lemma drain_some {I : Iter ι T} {it it' : ι} {x : T} (h : I.next it = (some x, it')) :
    I.drain it = (x :: (I.drain it').1, (I.drain it').2) := by
  rw [drain]
  split
  · next h' => simp_all
  · next h' =>
    obtain ⟨rfl, rfl⟩ : x = _ ∧ it' = _ := by simpa using h.symm.trans h'
    rfl

/-- **An iterator pulled to its end.** -/
theorem pulls_drain (I : Iter ι T) (it : ι) :
    ∃ last, I.Pulls it (I.drain it).1 last ∧ I.next last = (none, (I.drain it).2) := by
  induction it using I.induction with
  | done it it' h =>
    rw [drain_none h]
    exact ⟨it, .nil it, h⟩
  | item it x it' h ih =>
    obtain ⟨last, hpulls, hend⟩ := ih
    rw [drain_some h]
    exact ⟨last, .cons h hpulls, hend⟩

/-- What is pulled from the start is a beginning of what is there. -/
lemma Pulls.drain_eq {I : Iter ι T} {it it' : ι} {xs : List T} (h : I.Pulls it xs it') :
    I.drain it = (xs ++ (I.drain it').1, (I.drain it').2) := by
  induction h with
  | nil it => rfl
  | cons head _ ih => rw [drain_some head, ih, List.cons_append]

/-- The items of a list. The state is what is left of the list, or `none` after the end. -/
def ofList (T : Type) : Iter (Option (List T)) T where
  next
    | some (x :: xs) => (some x, some xs)
    | some [] => (none, none)
    | none => (none, none)
  size
    | some xs => xs.length
    | none => 0
  size_lt := by
    rintro (_ | _ | ⟨y, ys⟩) x it' h
    · simp at h
    · simp at h
    · obtain ⟨rfl, rfl⟩ : y = x ∧ some ys = it' := by simpa using h
      simp
  fused := by
    rintro (_ | _ | ⟨y, ys⟩) it' h
    · obtain rfl : none = it' := by simpa using h
      rfl
    · obtain rfl : none = it' := by simpa using h
      rfl
    · simp at h

/-- A list gives its first element. -/
@[simp] lemma next_ofList_cons (x : T) (xs : List T) :
    (ofList T).next (some (x :: xs)) = (some x, some xs) := rfl

/-- An empty list ends. -/
@[simp] lemma next_ofList_nil : (ofList T).next (some []) = (none, none) := rfl

/-- A list that has ended stays at its end. -/
@[simp] lemma next_ofList_none : (ofList T).next none = (none, none) := rfl

/-- `Iterator::map`, with a closure that changes the variables `env` that it captures. -/
def map (I : Iter ι T) (f : χ → T → χ × V) : Iter (χ × ι) V where
  next self :=
    match I.next self.2 with
    | (some x, it') => (some (f self.1 x).2, (f self.1 x).1, it')
    | (none, it') => (none, self.1, it')
  size self := I.size self.2
  size_lt := by
    rintro ⟨env, it⟩ y ⟨env', it'⟩ h
    rcases hx : I.next it with ⟨_ | x, it₁⟩ <;> simp only [hx] at h
    · simp at h
    · obtain ⟨-, -, rfl⟩ : _ ∧ _ ∧ it₁ = it' := by simpa using h
      exact I.size_lt hx
  fused := by
    rintro ⟨env, it⟩ ⟨env', it'⟩ h
    rcases hx : I.next it with ⟨_ | x, it₁⟩ <;> simp only [hx] at h
    · obtain ⟨rfl, rfl⟩ : env = env' ∧ it₁ = it' := by simpa using h
      simp only [I.fused hx]
    · simp at h

/-- The closure is not called at the end. -/
lemma next_map_none {I : Iter ι T} {it it' : ι} (h : I.next it = (none, it'))
    (f : χ → T → χ × V) (env : χ) : (I.map f).next (env, it) = (none, env, it') := by
  simp only [map, h]

/-- The closure is called with the item. -/
lemma next_map_some {I : Iter ι T} {it it' : ι} {x : T} (h : I.next it = (some x, it'))
    (f : χ → T → χ × V) (env : χ) :
    (I.map f).next (env, it) = (some (f env x).2, (f env x).1, it') := by
  simp only [map, h]

end Iter

/-! ## Consumers -/

/-- **The methods of an iterator** that consumers use. A fold with a closure that fails stops
there. -/
structure Source (ι T : Type) : Type 1 where
  next : ι → Option T × ι
  tryFold : {B R : Type} → (B → T → Except R B) → B → ι → Except R B × ι
  fold : {B : Type} → (B → T → B) → B → ι → B × ι

/-- An iterator with the default methods. -/
def Iter.source (I : Iter ι T) : Source ι T where
  next := I.next
  tryFold f b it :=
    let (r, _, it) := I.tryFold (fun env b x => (env, f b x)) () b it
    (r, it)
  fold := I.fold

namespace Iter

/-- A fold over no items is done. -/
lemma source_tryFold_none {I : Iter ι T} {it it' : ι} (h : I.next it = (none, it'))
    (f : B → T → Except R B) (b : B) : I.source.tryFold f b it = (.ok b, it') := by
  simp only [source, tryFold_none h]

/-- A fold goes on with what its function returns. -/
lemma source_tryFold_ok {I : Iter ι T} {it it' : ι} {x : T} (h : I.next it = (some x, it'))
    {f : B → T → Except R B} {b b' : B} (hf : f b x = .ok b') :
    I.source.tryFold f b it = I.source.tryFold f b' it' := by
  simp only [source]
  rw [tryFold_ok h (congrArg _ hf)]

/-- A fold stops where its function does. -/
lemma source_tryFold_error {I : Iter ι T} {it it' : ι} {x : T} (h : I.next it = (some x, it'))
    {f : B → T → Except R B} {b : B} {r : R} (hf : f b x = .error r) :
    I.source.tryFold f b it = (.error r, it') := by
  simp only [source]
  rw [tryFold_error h (congrArg _ hf)]

/-- A fold that stops at the first item is `next`. -/
lemma source_tryFold_first (I : Iter ι T) (it : ι) :
    I.source.tryFold (fun () x => .error x) () it =
      ((I.next it).1.elim (.ok ()) .error, (I.next it).2) := by
  rcases h : I.next it with ⟨_ | x, it'⟩
  · exact source_tryFold_none h _ ()
  · exact source_tryFold_error h rfl

/-- A fold that does not stop is `fold`. -/
lemma source_tryFold_all (I : Iter ι T) (f : B → T → B) (b : B) (it : ι) :
    I.source.tryFold (R := R) (fun b x => .ok (f b x)) b it =
      (.ok (I.source.fold f b it).1, (I.source.fold f b it).2) := by
  simp only [source, tryFold_eq_fold]

end Iter

/-- What a consumer does next, and its state after the answer. -/
inductive Drive (T V Γ : Type) : Type 1
  | done (v : V)
  | next (k : Option T → Γ)
  | tryFold {B R : Type} (f : B → T → Except R B) (init : B) (k : Except R B → Γ)
  | fold {B : Type} (f : B → T → B) (init : B) (k : B → Γ)

/-- **A consumer** of items of `T` that makes a `V`. -/
structure Consumer (T V : Type) : Type 1 where
  State : Type
  start : State
  drive : State → Drive T V State

namespace Consumer

/-- **The run of a consumer** with at most as many calls as there is fuel. -/
def runFrom (c : Consumer T V) (src : Source ι T) : ℕ → c.State → ι → Option (V × ι)
  | 0, _, _ => none
  | fuel + 1, st, it =>
    match c.drive st with
    | .done v => some (v, it)
    | .next k =>
      let (x, it) := src.next it
      c.runFrom src fuel (k x) it
    | .tryFold f init k =>
      let (r, it) := src.tryFold f init it
      c.runFrom src fuel (k r) it
    | .fold f init k =>
      let (b, it) := src.fold f init it
      c.runFrom src fuel (k b) it

/-- A run of the consumer from its start. -/
def run (c : Consumer T V) (src : Source ι T) (fuel : ℕ) (it : ι) : Option (V × ι) :=
  c.runFrom src fuel c.start it

end Consumer

/-- **Iterators that answer in the same way** in related states. -/
structure Source.Simulates (src : Source ι T) (src' : Source κ T) (Rel : ι → κ → Prop) :
    Prop where
  next : ∀ ⦃it jt⦄, Rel it jt →
    (src.next it).1 = (src'.next jt).1 ∧ Rel (src.next it).2 (src'.next jt).2
  tryFold : ∀ {B R : Type} (f : B → T → Except R B) (b : B) ⦃it jt⦄, Rel it jt →
    (src.tryFold f b it).1 = (src'.tryFold f b jt).1 ∧
      Rel (src.tryFold f b it).2 (src'.tryFold f b jt).2
  fold : ∀ {B : Type} (f : B → T → B) (b : B) ⦃it jt⦄, Rel it jt →
    (src.fold f b it).1 = (src'.fold f b jt).1 ∧ Rel (src.fold f b it).2 (src'.fold f b jt).2

namespace Consumer

/-- From related states, by induction on the calls that are left. -/
lemma runFrom_simulates {src : Source ι T} {src' : Source κ T} {Rel : ι → κ → Prop}
    (h : src.Simulates src' Rel) (c : Consumer T V) (fuel : ℕ) (st : c.State) {it : ι} {jt : κ}
    (hrel : Rel it jt) :
    Option.Rel (fun p q => p.1 = q.1 ∧ Rel p.2 q.2) (c.runFrom src fuel st it)
      (c.runFrom src' fuel st jt) := by
  induction fuel generalizing st it jt with
  | zero => exact .none
  | succ fuel ih =>
    unfold runFrom
    cases c.drive st with
    | done v => exact .some ⟨rfl, hrel⟩
    | next k =>
      obtain ⟨hanswer, hrel'⟩ := h.next hrel
      dsimp only
      rw [hanswer]
      exact ih _ hrel'
    | tryFold f b k =>
      obtain ⟨hanswer, hrel'⟩ := h.tryFold f b hrel
      dsimp only
      rw [hanswer]
      exact ih _ hrel'
    | fold f b k =>
      obtain ⟨hanswer, hrel'⟩ := h.fold f b hrel
      dsimp only
      rw [hanswer]
      exact ih _ hrel'

/-- **Consumers do not tell iterators apart** that answer in the same way. -/
theorem run_simulates {src : Source ι T} {src' : Source κ T} {Rel : ι → κ → Prop}
    (h : src.Simulates src' Rel) (c : Consumer T V) (fuel : ℕ) {it : ι} {jt : κ}
    (hrel : Rel it jt) :
    Option.Rel (fun p q => p.1 = q.1 ∧ Rel p.2 q.2) (c.run src fuel it) (c.run src' fuel jt) :=
  runFrom_simulates h c fuel c.start hrel

/-- The consumer that asks for item after item and makes a list of them. -/
def list (T : Type) : Consumer T (List T) where
  State := List T × Bool
  start := ([], false)
  drive
    | (xs, true) => .done xs
    | (xs, false) => .next fun
      | some x => (xs ++ [x], false)
      | none => (xs, true)

/-- A list that has `xs` already ends with `ys` after them. -/
lemma runFrom_list (n : ℕ) (xs ys : List T) :
    (list T).runFrom (Iter.ofList T).source (ys.length + (n + 2)) (xs, false) (some ys) =
      some (xs ++ ys, none) := by
  induction ys generalizing xs with
  | nil => simp [runFrom, list, Iter.source]
  | cons y ys ih =>
    have h := ih (xs ++ [y])
    rw [List.append_assoc, List.singleton_append] at h
    rw [List.length_cons, Nat.add_right_comm]
    exact h

/-- The list of the items of a list is the list. -/
lemma run_list {fuel : ℕ} {ys : List T} (h : ys.length + 2 ≤ fuel) :
    (list T).run (Iter.ofList T).source fuel (some ys) = some (ys, none) := by
  obtain ⟨n, rfl⟩ : ∃ n, fuel = ys.length + (n + 2) := ⟨fuel - (ys.length + 2), by omega⟩
  exact runFrom_list n [] ys

end Consumer

end LiquidRust.Lib
