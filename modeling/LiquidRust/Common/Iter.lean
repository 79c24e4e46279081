import LiquidRust.Common.Outcome
import LiquidRust.Lib.Iterators

set_option relaxedAutoImplicit false
set_option autoImplicit false

/-!
# Exhaustive collection

The extension of iterators in `liquid-rust-common/src/iter.rs`. An iterator of results is collected
to its end: errors are taken out of the items and combined, and the collection sees the values
only. The adaptor that takes the errors out overrides `try_fold` and derives `next` and `fold` from
it.

## Main definitions

* `LiquidRust.Common.SemiGroup` — errors that combine.
* `LiquidRust.Common.ReportResiduals.source` — the adaptor.
* `LiquidRust.Common.IterExt.tryCollectExhaust`, `tryForEachExhaust` — the extension.
* `LiquidRust.Common.IterExt.collected` — what a collection should end with.

## Main results

* `LiquidRust.Common.ReportResiduals.simulates` — the adaptor answers as the list of the values.
* `LiquidRust.Common.IterExt.tryCollectExhaust_exhausts`, `tryForEachExhaust_eq` — no item is
  skipped.
* `LiquidRust.Common.IterExt.tryCollectExhaust_list` — the traversals of `Common.Outcome` are
  exhaustive collections.
-/

namespace LiquidRust.Common

open Lib

variable {ι χ T V E B R : Type}

/-- `SemiGroup`. -/
class SemiGroup (E : Type) where
  append : E → E → E

namespace ReportResiduals

/-! ## The adaptor

The state is that of the closure `f`, which captures the errors so far, and that of the inner
iterator. -/

/-- `ReportResiduals::try_fold`. -/
def tryFold (f : χ → E → χ) (I : Iter ι (Except E T)) (f₂ : B → T → Except R B) (init : B)
    (self : χ × ι) : Except R B × (χ × ι) :=
  I.tryFold (fun env acc x => match x with
    | .ok x => (env, f₂ acc x)
    | .error e => (f env e, .ok acc)) self.1 init self.2

/-- The default `Iterator::find`. -/
def find (f : χ → E → χ) (I : Iter ι (Except E T)) (predicate : T → Bool) (self : χ × ι) :
    Option T × (χ × ι) :=
  match tryFold f I (fun () x => if predicate x then .error x else .ok ()) () self with
  | (.error x, self) => (some x, self)
  | (.ok (), self) => (none, self)

/-- `ReportResiduals::next`. -/
def next (f : χ → E → χ) (I : Iter ι (Except E T)) (self : χ × ι) : Option T × (χ × ι) :=
  find f I (fun _ => true) self

/-- The value of a result that is no error. -/
def unwrap : Except Empty B → B
  | .ok b => b

/-- `ReportResiduals::fold`. -/
def fold (f : χ → E → χ) (I : Iter ι (Except E T)) (f₂ : B → T → B) (init : B) (self : χ × ι) :
    B × (χ × ι) :=
  let (r, self) := tryFold f I (fun acc x => .ok (f₂ acc x)) init self
  (unwrap r, self)

/-- `impl Iterator for ReportResiduals`. -/
def source (f : χ → E → χ) (I : Iter ι (Except E T)) : Source (χ × ι) T where
  next := next f I
  tryFold := tryFold f I
  fold := fold f I

section Equations

variable {f : χ → E → χ} {I : Iter ι (Except E T)} {f₂ : B → T → Except R B} {b b' : B} {env : χ}
  {it it' : ι}

/-- A fold over no items is done. -/
lemma tryFold_end (h : I.next it = (none, it')) : tryFold f I f₂ b (env, it) = (.ok b, env, it') :=
  Iter.tryFold_none h _ _ _

/-- An error goes to the closure, and the fold goes on. -/
lemma tryFold_residual {e : E} (h : I.next it = (some (.error e), it')) :
    tryFold f I f₂ b (env, it) = tryFold f I f₂ b (f env e, it') :=
  Iter.tryFold_ok h rfl

/-- A value goes to the fold. -/
lemma tryFold_ok {x : T} (h : I.next it = (some (.ok x), it')) (hf : f₂ b x = .ok b') :
    tryFold f I f₂ b (env, it) = tryFold f I f₂ b' (env, it') :=
  Iter.tryFold_ok h (congrArg (Prod.mk env) hf)

/-- The fold stops where its function does. -/
lemma tryFold_error {x : T} {r : R} (h : I.next it = (some (.ok x), it'))
    (hf : f₂ b x = .error r) : tryFold f I f₂ b (env, it) = (.error r, env, it') :=
  Iter.tryFold_error h (congrArg (Prod.mk env) hf)

end Equations

end ReportResiduals

namespace IterExt

/-- The values of the items. -/
def values : List (Except E T) → List T
  | [] => []
  | .ok x :: xs => x :: values xs
  | .error _ :: xs => values xs

/-- The errors of the items. -/
def errors : List (Except E T) → List E
  | [] => []
  | .ok _ :: xs => errors xs
  | .error e :: xs => e :: errors xs

/-- The errors of both parts, in order. -/
lemma errors_append (xs ys : List (Except E T)) : errors (xs ++ ys) = errors xs ++ errors ys := by
  induction xs with
  | nil => rfl
  | cons x xs ih =>
    cases x with
    | ok x => exact ih
    | error e => exact congrArg (e :: ·) ih

variable [SemiGroup E]

/-- One more error in the accumulator. -/
def report (acc : Option E) (e : E) : Option E :=
  match acc with
  | some curr => some (SemiGroup.append curr e)
  | none => some e

/-- `IterExt::try_collect_exhaust`, into what the consumer makes. -/
def tryCollectExhaust (c : Consumer T V) (fuel : ℕ) (I : Iter ι (Except E T)) (self : ι) :
    Option (Except E V × ι) := do
  let (v, acc, self) ← c.run (ReportResiduals.source report I) fuel (none, self)
  match acc with
  | some e => some (.error e, self)
  | none => some (.ok v, self)

/-- `IterExt::try_for_each_exhaust`. The closure changes the variables `env` that it captures. -/
def tryForEachFrom (I : Iter ι T) (f : χ → T → χ × Except E Unit) (acc : Option E) (env : χ)
    (self : ι) : Option E × χ × ι :=
  match _h : I.next self with
  | (none, self') => (acc, env, self')
  | (some v, self') =>
    match f env v with
    | (env, .ok ()) => tryForEachFrom I f acc env self'
    | (env, .error e) => tryForEachFrom I f (report acc e) env self'
termination_by I.size self
decreasing_by all_goals exact I.size_lt ‹_›

/-- `try_for_each_exhaust`: every item is passed on, and the errors are combined. -/
def tryForEachExhaust (I : Iter ι T) (f : χ → T → χ × Except E Unit) (env : χ) (self : ι) :
    Except E Unit × χ × ι :=
  match tryForEachFrom I f none env self with
  | (some e, env, self) => (.error e, env, self)
  | (none, env, self) => (.ok (), env, self)

/-! ## What is collected -/

/-- The errors combined in order. -/
def combine : List E → Option E
  | [] => none
  | e :: es => some (es.foldl SemiGroup.append e)

/-- The result with a collection `v` of the values: `v` if there is no error, and the errors
combined otherwise. -/
def collected (v : V) (xs : List (Except E T)) : Except E V :=
  match combine (errors xs) with
  | some e => .error e
  | none => .ok v

/-- A value adds no error. -/
lemma combine_errors_ok (xs : List (Except E T)) (x : T) :
    combine (errors (xs ++ [.ok x])) = combine (errors xs) := by
  rw [errors_append, errors, errors, List.append_nil]

/-- An error is combined with those before it. -/
lemma combine_errors_error (xs : List (Except E T)) (e : E) :
    combine (errors (xs ++ [.error e])) = report (combine (errors xs)) e := by
  rw [errors_append]
  cases errors xs with
  | nil => rfl
  | cons e' es => simp [errors, combine, report]

end IterExt

namespace ReportResiduals

open IterExt

variable [SemiGroup E]

/-! ## The adaptor answers as the list of the values -/

/-- **What the adaptor has done since the start**: it has pulled some items, it has combined their
errors, and the values of the other items are left; or it has pulled the last item, and the end. -/
inductive Tracks (I : Iter ι (Except E T)) (start : ι) : Option E × ι → Option (List T) → Prop
  | going {pulled : List (Except E T)} {it : ι} (h : I.Pulls start pulled it) :
      Tracks I start (combine (errors pulled), it) (some (values (I.drain it).1))
  | ended {pulled : List (Except E T)} {last it : ι} (h : I.Pulls start pulled last)
      (hend : I.next last = (none, it)) : Tracks I start (combine (errors pulled), it) none

/-- **A fold of the adaptor is a fold of the values**, where it goes to the end, stops early or
goes on after that. -/
lemma tryFold_tracks {I : Iter ι (Except E T)} {start : ι} {self : Option E × ι}
    {jt : Option (List T)} (h : Tracks I start self jt) (f₂ : B → T → Except R B) (b : B) :
    (tryFold report I f₂ b self).1 = ((Iter.ofList T).source.tryFold f₂ b jt).1 ∧
      Tracks I start (tryFold report I f₂ b self).2
        ((Iter.ofList T).source.tryFold f₂ b jt).2 := by
  cases h with
  | ended h hend =>
    rw [tryFold_end (I.fused hend), Iter.source_tryFold_none Iter.next_ofList_none]
    exact ⟨rfl, .ended h hend⟩
  | @going pulled it h =>
    induction it using I.induction generalizing pulled b with
    | done it it' hnext =>
      rw [Iter.drain_none hnext, tryFold_end hnext, values,
        Iter.source_tryFold_none Iter.next_ofList_nil]
      exact ⟨rfl, .ended h hnext⟩
    | item it x it' hnext ih =>
      have hpulls := h.snoc hnext
      rw [Iter.drain_some hnext]
      cases x with
      | error e =>
        -- The error is reported and the fold goes on.
        rw [tryFold_residual hnext, ← combine_errors_error]
        exact ih b hpulls
      | ok x =>
        rw [values, ← combine_errors_ok pulled x]
        cases hf : f₂ b x with
        | error r =>
          rw [tryFold_error hnext hf, Iter.source_tryFold_error (Iter.next_ofList_cons _ _) hf]
          exact ⟨rfl, .going hpulls⟩
        | ok b' =>
          rw [tryFold_ok hnext hf, Iter.source_tryFold_ok (Iter.next_ofList_cons _ _) hf]
          exact ih b' hpulls

/-- **The adaptor answers as the list of the values.** -/
theorem simulates (I : Iter ι (Except E T)) (start : ι) :
    (source report I).Simulates (Iter.ofList T).source (Tracks I start) where
  next self jt h := by
    obtain ⟨hanswer, htracks⟩ := tryFold_tracks h (fun () x => .error x) ()
    rw [Iter.source_tryFold_first] at hanswer htracks
    simp only [source, next, find, if_true, Iter.source]
    generalize tryFold report I (fun () x => .error x) () self = answer at hanswer htracks ⊢
    generalize (Iter.ofList T).next jt = item at hanswer htracks ⊢
    obtain ⟨r, self'⟩ := answer
    obtain ⟨_ | x, jt'⟩ := item
    · obtain rfl : r = .ok () := hanswer
      exact ⟨rfl, htracks⟩
    · obtain rfl : r = .error x := hanswer
      exact ⟨rfl, htracks⟩
  tryFold f₂ b self jt h := tryFold_tracks h f₂ b
  fold f₂ b self jt h := by
    obtain ⟨hanswer, htracks⟩ := tryFold_tracks (R := Empty) h (fun b x => .ok (f₂ b x)) b
    rw [Iter.source_tryFold_all] at hanswer htracks
    simp only [source, fold]
    refine ⟨?_, htracks⟩
    rw [hanswer]
    rfl

end ReportResiduals

namespace IterExt

open ReportResiduals

variable [SemiGroup E]

/-! ## Nothing is skipped -/

/-- The run of a consumer on the adaptor beside its run on the list of the values. -/
lemma run_tracks (c : Consumer T V) (fuel : ℕ) (I : Iter ι (Except E T)) (self : ι) :
    Option.Rel (fun p q => p.1 = q.1 ∧ Tracks I self p.2 q.2)
      (c.run (ReportResiduals.source report I) fuel (none, self))
      (c.run (Iter.ofList T).source fuel (some (values (I.drain self).1))) :=
  Consumer.run_simulates (simulates I self) c fuel (.going (.nil self))

/-- A run on the list of the values is the run on the adaptor. -/
lemma run_of_plain {c : Consumer T V} {fuel : ℕ} {I : Iter ι (Except E T)} {self : ι} {v : V}
    {jt : Option (List T)}
    (h : c.run (Iter.ofList T).source fuel (some (values (I.drain self).1)) = some (v, jt)) :
    ∃ st, c.run (ReportResiduals.source report I) fuel (none, self) = some (v, st) ∧
      Tracks I self st jt := by
  have hrel := run_tracks c fuel I self
  rw [h] at hrel
  rcases hrun : c.run (ReportResiduals.source report I) fuel (none, self) with _ | ⟨v', st⟩
  · rw [hrun] at hrel
    nomatch hrel
  · rw [hrun] at hrel
    obtain ⟨rfl, htracks⟩ : v' = v ∧ Tracks I self st jt := by simpa using hrel
    exact ⟨st, rfl, htracks⟩

/-- A consumer that runs out of calls on the values runs out of them on the adaptor. -/
lemma run_eq_none {c : Consumer T V} {fuel : ℕ} {I : Iter ι (Except E T)} {self : ι}
    (h : c.run (Iter.ofList T).source fuel (some (values (I.drain self).1)) = none) :
    c.run (ReportResiduals.source report I) fuel (none, self) = none := by
  have hrel := run_tracks c fuel I self
  rw [h] at hrel
  rcases hrun : c.run (ReportResiduals.source report I) fuel (none, self) with _ | p
  · rfl
  · rw [hrun] at hrel
    nomatch hrel

/-- The result of a run on the adaptor. -/
lemma tryCollectExhaust_of_run {c : Consumer T V} {fuel : ℕ} {I : Iter ι (Except E T)}
    {self self' : ι} {v : V} {pulled : List (Except E T)}
    (h : c.run (ReportResiduals.source report I) fuel (none, self) =
      some (v, combine (errors pulled), self')) :
    tryCollectExhaust c fuel I self = some (collected v pulled, self') := by
  simp only [tryCollectExhaust, h, collected, Option.bind_eq_bind, Option.bind_some]
  cases combine (errors pulled) <;> rfl

/-- A collection up to the end of the values. -/
lemma tryCollectExhaust_of_ended {c : Consumer T V} {fuel : ℕ} {I : Iter ι (Except E T)}
    {self : ι} {v : V}
    (h : c.run (Iter.ofList T).source fuel (some (values (I.drain self).1)) = some (v, none)) :
    tryCollectExhaust c fuel I self = some (collected v (I.drain self).1, (I.drain self).2) := by
  obtain ⟨st, hrun, htracks⟩ := run_of_plain h
  cases htracks with
  | ended hpulls hend =>
    have hdrain := hpulls.drain_eq
    rw [Iter.drain_none hend, List.append_nil] at hdrain
    rw [hdrain]
    exact tryCollectExhaust_of_run hrun

/-- **Exhaustive collection skips nothing.** A consumer that collects the list of the values up to
its end makes the same collection here, with as many calls. Every item is pulled once and in order,
the end after it, and the result is the collection if no item is an error, and the errors combined
in order otherwise. A consumer that stops before the end has done the same with the items that it
has pulled, and the values of the others are left to it.

**Proof sketch.** `next` and `fold` come down to `try_fold`, and a fold of the adaptor is a fold of
the values by induction on the items that are left: an error goes to the accumulator, and the fold
goes on behind it. So at any time the accumulator combines the errors of the items that have been
pulled, and the consumer sees the values of the items that are left. -/
theorem tryCollectExhaust_exhausts (c : Consumer T V) (fuel : ℕ) (I : Iter ι (Except E T))
    (self : ι) :
    match c.run (Iter.ofList T).source fuel (some (values (I.drain self).1)) with
    | some (v, none) => ∃ last self', I.Pulls self (I.drain self).1 last ∧
        I.next last = (none, self') ∧
        tryCollectExhaust c fuel I self = some (collected v (I.drain self).1, self')
    | some (v, some rest) => ∃ pulled self', I.Pulls self pulled self' ∧
        (I.drain self).1 = pulled ++ (I.drain self').1 ∧ rest = values (I.drain self').1 ∧
        tryCollectExhaust c fuel I self = some (collected v pulled, self')
    | none => tryCollectExhaust c fuel I self = none := by
  rcases hplain : c.run (Iter.ofList T).source fuel (some (values (I.drain self).1))
    with _ | ⟨v, _ | rest⟩
  · simp [tryCollectExhaust, run_eq_none hplain]
  · obtain ⟨last, hpulls, hend⟩ := I.pulls_drain self
    exact ⟨last, _, hpulls, hend, tryCollectExhaust_of_ended hplain⟩
  · obtain ⟨st, hrun, htracks⟩ := run_of_plain hplain
    cases htracks with
    | going hpulls =>
      exact ⟨_, _, hpulls, by rw [hpulls.drain_eq], rfl, tryCollectExhaust_of_run hrun⟩

/-! ## The loop over an iterator -/

/-- The loop from where some items were pulled, by induction on the items that are left. -/
lemma tryForEachFrom_eq (I : Iter ι T) (f : χ → T → χ × Except E Unit) (env : χ) (self : ι)
    (pulled : List (Except E Unit)) :
    tryForEachFrom I f (combine (errors pulled)) env self =
      (combine (errors (pulled ++ ((I.map f).drain (env, self)).1)),
        ((I.map f).drain (env, self)).2) := by
  induction self using I.induction generalizing env pulled with
  | done it it' h =>
    rw [Iter.drain_none (Iter.next_map_none h f env), tryForEachFrom, List.append_nil]
    split
    · next h' => simp_all
    · next h' => simp_all
  | item it v it' h ih =>
    rw [Iter.drain_some (Iter.next_map_some h f env), tryForEachFrom]
    split
    · next h' => simp_all
    · next v' it'' h' =>
      obtain ⟨rfl, rfl⟩ : v = v' ∧ it' = it'' := by simpa using h.symm.trans h'
      rcases f env v with ⟨env', e | ⟨⟩⟩
      · simp only [← combine_errors_error, ih, List.append_assoc, List.singleton_append]
      · rw [← combine_errors_ok pulled ()]
        simp only [ih, List.append_assoc, List.singleton_append]

/-- **The loop skips nothing**: it ends as the collection of the results of the closure. -/
theorem tryForEachExhaust_eq (I : Iter ι T) (f : χ → T → χ × Except E Unit) (env : χ) (self : ι) :
    tryForEachExhaust I f env self =
      (collected () ((I.map f).drain (env, self)).1, ((I.map f).drain (env, self)).2) := by
  have h : tryForEachFrom I f none env self = (combine (errors ((I.map f).drain (env, self)).1),
      ((I.map f).drain (env, self)).2) := tryForEachFrom_eq I f env self []
  rw [tryForEachExhaust, h, collected]
  cases combine (errors ((I.map f).drain (env, self)).1) <;> rfl

/-! ## Lists of elements that report their errors -/

instance {δ : Type} : SemiGroup (List δ) where
  append ds ds' := ds ++ ds'

end IterExt

/-- A result without a panic. -/
def Outcome.ofExcept {δ α : Type} : Except (List δ) α → Outcome δ α
  | .ok a => .ok a
  | .error ds => .err ds

namespace IterExt

variable {σ α β δ : Type}

/-- Lists of errors combine by concatenation. -/
lemma foldl_append_eq (ds : List δ) (es : List (List δ)) :
    es.foldl SemiGroup.append ds = ds ++ es.flatten := by
  induction es generalizing ds with
  | nil => simp
  | cons e es ih =>
    rw [List.foldl_cons, ih, List.flatten_cons, ← List.append_assoc]
    rfl

/-- A collection is that of the first item beside that of the others. -/
lemma ofExcept_collected_cons (x : Except (List δ) β) (xs : List (Except (List δ) β)) :
    Outcome.ofExcept (collected (values (x :: xs)) (x :: xs)) =
      (fun p => p.1 :: p.2) <$>
        (Outcome.ofExcept x).both (Outcome.ofExcept (collected (values xs) xs)) := by
  cases x with
  | ok b =>
    simp only [values, errors, collected]
    cases combine (errors xs) <;> rfl
  | error ds =>
    simp only [errors, collected, combine, foldl_append_eq]
    cases errors xs with
    | nil => simp [Outcome.ofExcept, Outcome.both, Functor.map]
    | cons e es => simp [Outcome.ofExcept, Outcome.both, Functor.map]

/-- The traversal of a list of elements that report their errors is the collection of the results
of the elements. -/
theorem tryCollectExhaust_drain (g : σ → α → σ × Except (List δ) β) (s : σ) (as : List α) :
    Common.tryCollectExhaust (fun s a => ((g s a).1, .ofExcept (g s a).2)) s as =
      ((((Iter.ofList α).map g).drain (s, some as)).2.1,
        .ofExcept (collected (values (((Iter.ofList α).map g).drain (s, some as)).1)
          (((Iter.ofList α).map g).drain (s, some as)).1)) := by
  induction as generalizing s with
  | nil =>
    rw [Iter.drain_none (Iter.next_map_none Iter.next_ofList_nil g s)]
    rfl
  | cons a as ih =>
    rw [Iter.drain_some (Iter.next_map_some (Iter.next_ofList_cons a as) g s),
      tryCollectExhaust_cons, ih, ofExcept_collected_cons]

/-- There are no more values than items. -/
lemma length_values_le (xs : List (Except E T)) : (values xs).length ≤ xs.length := by
  induction xs with
  | nil => exact Nat.le_refl 0
  | cons x xs ih =>
    cases x with
    | ok x => exact Nat.succ_le_succ ih
    | error e => exact Nat.le_succ_of_le ih

/-- **The traversal of a list is an exhaustive collection** into a list. -/
theorem tryCollectExhaust_list (g : σ → α → σ × Except (List δ) β) (s : σ) (as : List α) :
    (tryCollectExhaust (Consumer.list β) (as.length + 2) ((Iter.ofList α).map g) (s, some as)).map
        (fun p => (p.2.1, Outcome.ofExcept p.1)) =
      some (Common.tryCollectExhaust (fun s a => ((g s a).1, .ofExcept (g s a).2)) s as) := by
  have hlen : (((Iter.ofList α).map g).drain (s, some as)).1.length = as.length := by
    induction as generalizing s with
    | nil => rw [Iter.drain_none (Iter.next_map_none Iter.next_ofList_nil g s)]; rfl
    | cons a as ih =>
      rw [Iter.drain_some (Iter.next_map_some (Iter.next_ofList_cons a as) g s)]
      simp [ih]
  have hvalues := length_values_le (((Iter.ofList α).map g).drain (s, some as)).1
  rw [tryCollectExhaust_of_ended (Consumer.run_list (by omega)), tryCollectExhaust_drain]
  rfl

end IterExt

end LiquidRust.Common
