import Mathlib.Algebra.BigOperators.Group.Multiset.Basic
import Mathlib.Data.Multiset.AddSub
import Mathlib.Logic.Relation

set_option relaxedAutoImplicit false
set_option autoImplicit false

/-!
# Interning

The interner of `liquid-rust-typeck/src/intern.rs`. Equal objects share one allocation, which a
global map holds as long as there are handles to it. The map is split into shards with a lock
each. Threads make, clone and drop handles at the same time; the reference counts are read and
changed without a lock, so that a step of one thread may come between any two of another one.

## Main definitions

* `LiquidRust.Typeck.Intern.Activity` — what a thread is doing with a handle.
* `LiquidRust.Typeck.Intern.State`, `Step` — the map, the counts, and the interleaved steps.
* `LiquidRust.Typeck.Intern.Reachable` — the states of all interleavings.
-/

namespace LiquidRust.Typeck.Intern

open Relation (ReflTransGen)

variable {V Shard : Type}

/-! ## States -/

/-- An allocation, by its position on the heap. -/
abbrev Arc := ℕ

/-- Where a thread is in `Interned::new`, with a handle, or in `Interned::drop`. -/
inductive Activity (V : Type)
  /-- `lookup` waits for the lock. -/
  | new (obj : V)
  /-- `lookup` has the lock. -/
  | lookup (obj : V)
  /-- The object is in the map. -/
  | found (obj : V) (arc : Arc)
  /-- The object is not in the map. -/
  | missing (obj : V)
  /-- `alloc` has an allocation with two references. -/
  | alloc (obj : V) (arc : Arc)
  /-- A handle is returned, with the lock. -/
  | made (obj : V) (arc : Arc)
  /-- A handle that is in use. -/
  | handle (arc : Arc)
  /-- `drop` reads the count. -/
  | drop (arc : Arc)
  /-- `drop_slow` waits for the lock. -/
  | dropSlow (arc : Arc)
  /-- `drop_slow` has the lock. -/
  | recheck (obj : V) (arc : Arc)
  /-- `drop_slow` removes the object from the map. -/
  | remove (obj : V) (arc : Arc)
  /-- `drop_slow` returns, with the lock. -/
  | dropped (obj : V) (arc : Arc)
  /-- The reference of the handle goes away. -/
  | release (arc : Arc)
  deriving DecidableEq

namespace Activity

/-- The object whose shard a task has locked. -/
def lockedOn : Activity V → Option V
  | lookup obj | found obj _ | missing obj | alloc obj _ | made obj _ | recheck obj _
  | remove obj _ | dropped obj _ => some obj
  | new _ | handle _ | drop _ | dropSlow _ | release _ => none

/-- The number of references that a task has. -/
def refs (a : Arc) : Activity V → ℕ
  | alloc _ arc => if arc = a then 2 else 0
  | made _ arc | handle arc | drop arc | dropSlow arc | recheck _ arc | remove _ arc
  | dropped _ arc | release arc => if arc = a then 1 else 0
  | new _ | lookup _ | found _ _ | missing _ => 0

end Activity

/-- The state of the interner, and the activities that run on it. -/
structure State (V Shard : Type) where
  heap : List V
  count : Arc → ℕ
  map : List Arc
  locked : Shard → Bool
  tasks : Multiset (Activity V)
  panicked : Bool

namespace State

variable [DecidableEq V] (s : State V Shard)

/-- `get_key_value`. -/
def getKeyValue (obj : V) : Option Arc :=
  s.map.find? fun arc => s.heap[arc]? = some obj

/-- The state at first. -/
def init : State V Shard where
  heap := []
  count := fun _ => 0
  map := []
  locked := fun _ => false
  tasks := 0
  panicked := false

variable {s} {obj : V} {arc : Arc}

/-- No entry is found iff none holds the object. -/
lemma getKeyValue_eq_none : s.getKeyValue obj = none ↔ ∀ a ∈ s.map, s.heap[a]? ≠ some obj := by
  simp [getKeyValue]

/-- An entry that is found is in the map and holds the object. -/
lemma getKeyValue_eq_some (h : s.getKeyValue obj = some arc) :
    arc ∈ s.map ∧ s.heap[arc]? = some obj :=
  ⟨List.mem_of_find?_eq_some h, by simpa using List.find?_some h⟩

end State

/-! ## Steps -/

section Step

variable [DecidableEq V] [DecidableEq Shard] (shard : V → Shard)

open Activity

/-- **The steps of the threads.** Any task may be the next one to make a step. -/
inductive Step : State V Shard → State V Shard → Prop
  | new (s : State V Shard) (obj : V) : Step s { s with tasks := new obj ::ₘ s.tasks }
  | lock {s : State V Shard} {rest : Multiset (Activity V)} {obj : V} :
      s.tasks = new obj ::ₘ rest → s.locked (shard obj) = false →
      Step s { s with
        tasks := lookup obj ::ₘ rest
        locked := Function.update s.locked (shard obj) true }
  | found {s : State V Shard} {rest : Multiset (Activity V)} {obj : V} {arc : Arc} :
      s.tasks = lookup obj ::ₘ rest → s.getKeyValue obj = some arc →
      Step s { s with tasks := found obj arc ::ₘ rest }
  | missing {s : State V Shard} {rest : Multiset (Activity V)} {obj : V} :
      s.tasks = lookup obj ::ₘ rest → s.getKeyValue obj = none →
      Step s { s with tasks := missing obj ::ₘ rest }
  | cloneFound {s : State V Shard} {rest : Multiset (Activity V)} {obj : V} {arc : Arc} :
      s.tasks = found obj arc ::ₘ rest →
      Step s { s with
        tasks := made obj arc ::ₘ rest
        count := Function.update s.count arc (s.count arc + 1) }
  | alloc {s : State V Shard} {rest : Multiset (Activity V)} {obj : V} :
      s.tasks = missing obj ::ₘ rest →
      Step s { s with
        tasks := alloc obj s.heap.length ::ₘ rest
        heap := s.heap ++ [obj]
        count := Function.update s.count s.heap.length 2 }
  | insert {s : State V Shard} {rest : Multiset (Activity V)} {obj : V} {arc : Arc} :
      s.tasks = alloc obj arc ::ₘ rest →
      Step s { s with tasks := made obj arc ::ₘ rest, map := arc :: s.map }
  | unlock {s : State V Shard} {rest : Multiset (Activity V)} {obj : V} {arc : Arc} :
      s.tasks = made obj arc ::ₘ rest →
      Step s { s with
        tasks := handle arc ::ₘ rest
        locked := Function.update s.locked (shard obj) false }
  | clone {s : State V Shard} {rest : Multiset (Activity V)} {arc : Arc} :
      s.tasks = handle arc ::ₘ rest →
      Step s { s with
        tasks := handle arc ::ₘ handle arc ::ₘ rest
        count := Function.update s.count arc (s.count arc + 1) }
  | drop {s : State V Shard} {rest : Multiset (Activity V)} {arc : Arc} :
      s.tasks = handle arc ::ₘ rest → Step s { s with tasks := drop arc ::ₘ rest }
  | dropSlow {s : State V Shard} {rest : Multiset (Activity V)} {arc : Arc} :
      s.tasks = drop arc ::ₘ rest → s.count arc = 2 →
      Step s { s with tasks := dropSlow arc ::ₘ rest }
  | dropFast {s : State V Shard} {rest : Multiset (Activity V)} {arc : Arc} :
      s.tasks = drop arc ::ₘ rest → s.count arc ≠ 2 →
      Step s { s with tasks := release arc ::ₘ rest }
  | lockSlow {s : State V Shard} {rest : Multiset (Activity V)} {obj : V} {arc : Arc} :
      s.tasks = dropSlow arc ::ₘ rest → s.heap[arc]? = some obj → s.locked (shard obj) = false →
      Step s { s with
        tasks := recheck obj arc ::ₘ rest
        locked := Function.update s.locked (shard obj) true }
  | expect {s : State V Shard} {rest : Multiset (Activity V)} {obj : V} {arc : Arc} :
      s.tasks = recheck obj arc ::ₘ rest → s.getKeyValue obj = none →
      Step s { s with tasks := rest, panicked := true }
  | keep {s : State V Shard} {rest : Multiset (Activity V)} {obj : V} {arc arc' : Arc} :
      s.tasks = recheck obj arc ::ₘ rest → s.getKeyValue obj = some arc' → s.count arc' ≠ 2 →
      Step s { s with tasks := dropped obj arc ::ₘ rest }
  | recheck {s : State V Shard} {rest : Multiset (Activity V)} {obj : V} {arc arc' : Arc} :
      s.tasks = recheck obj arc ::ₘ rest → s.getKeyValue obj = some arc' → s.count arc' = 2 →
      Step s { s with tasks := remove obj arc ::ₘ rest }
  | remove {s : State V Shard} {rest : Multiset (Activity V)} {obj : V} {arc arc' : Arc} :
      s.tasks = remove obj arc ::ₘ rest → s.getKeyValue obj = some arc' →
      Step s { s with
        tasks := dropped obj arc ::ₘ rest
        map := s.map.erase arc'
        count := Function.update s.count arc' (s.count arc' - 1) }
  | unlockSlow {s : State V Shard} {rest : Multiset (Activity V)} {obj : V} {arc : Arc} :
      s.tasks = dropped obj arc ::ₘ rest →
      Step s { s with
        tasks := release arc ::ₘ rest
        locked := Function.update s.locked (shard obj) false }
  | release {s : State V Shard} {rest : Multiset (Activity V)} {arc : Arc} :
      s.tasks = release arc ::ₘ rest →
      Step s { s with
        tasks := rest
        count := Function.update s.count arc (s.count arc - 1) }

/-- The states of all interleavings. -/
def Reachable (s : State V Shard) : Prop :=
  ReflTransGen (Step shard) State.init s

end Step

end LiquidRust.Typeck.Intern
