import Mathlib.Data.List.AList
import Mathlib.Data.List.Range

set_option relaxedAutoImplicit false
set_option autoImplicit false

/-!
# The disjoint-set map

The union-find structure of `liquid-rust-common/src/disjoint_sets.rs`: a partition of the
indices `0, …, n - 1` with one value per class. Four tables are kept in step: `map` holds the
value of each class at the class's root, `parent` is the union-find forest, `size[r]` is the
number of elements below a root `r`, and `next` threads the elements of each class in a cycle.

Indices are natural numbers. `none` as the result of an operation is a panic of the source: an
index out of bounds, or an `unwrap` of a missing key. Lookups compress paths through `Cell`s,
so every operation returns the map it leaves behind, also those that take `&self`.

## Main definitions

* `LiquidRust.Common.DisjointSetsMap` — the four tables.
* `LiquidRust.Common.DisjointSetsMap.uncheckedFind` — lookup with path compression.
* `LiquidRust.Common.DisjointSetsMap.union`, `multiUnion`, `mergeWith` — the mutators.
* `LiquidRust.Common.DisjointSetsMap.set`, `iter` — the elements of one class, all classes.
-/

namespace LiquidRust.Common

/-- A map from the classes of a partition of `0, …, n - 1` to values. -/
structure DisjointSetsMap (T : Type) where
  /-- The value of each class, at the class's root. -/
  map : AList fun _ : ℕ => T
  /-- Parent links; a root is its own parent. -/
  parent : List ℕ
  /-- The number of elements below each root. -/
  size : List ℕ
  /-- The next element of the same class, in cyclic order. -/
  next : List ℕ

/-- `Set`, the iterator over the elements of one class. -/
structure SetIter where
  /-- The next links of the map. -/
  next : List ℕ
  /-- How many elements are still to come. -/
  remaining : ℕ
  /-- The element that comes next. -/
  current : ℕ

namespace SetIter

/-- `Set::next`: yield the current element and follow its link. -/
def step (it : SetIter) : Option (Option ℕ × SetIter) :=
  if it.remaining = 0 then
    some (none, it)
  else do
    let current ← it.next[it.current]?
    some (some it.current, { it with current, remaining := it.remaining - 1 })

/-- The elements that the iterator yields until it is exhausted. -/
def collect (next : List ℕ) : ℕ → ℕ → Option (List ℕ)
  | 0, _ => some []
  | remaining + 1, current => do
    let (item, it) ← step ⟨next, remaining + 1, current⟩
    let rest ← collect next remaining it.current
    some (item.toList ++ rest)

end SetIter

namespace DisjointSetsMap

variable {T : Type}

/-- The empty map. -/
def new : DisjointSetsMap T :=
  { map := ∅, parent := [], size := [], next := [] }

/-- One singleton class for each element of the list. -/
def fromIter (elems : List T) : DisjointSetsMap T :=
  let n := elems.length
  { map := (elems.zipIdx.map fun (elem, idx) => (⟨idx, elem⟩ : Sigma fun _ : ℕ => T)).toAList
    parent := List.range n
    size := List.replicate n 1
    next := List.range n }

/-- `DisjointSetsMap::size`, the number of indices. -/
def count (s : DisjointSetsMap T) : ℕ :=
  s.parent.length

/-- A new singleton class. Returns its index. -/
def push (s : DisjointSetsMap T) (elem : T) : ℕ × DisjointSetsMap T :=
  let idx := s.parent.length
  (idx,
    { map := s.map.insert idx elem
      parent := s.parent ++ [idx]
      size := s.size ++ [1]
      next := s.next ++ [idx] })

/-- The recursion of `unchecked_find` on the table of parent links: the root of `elem`, and the
links after every element on the way has been pointed at it. The first argument bounds the
depth of the recursion. -/
def findFrom : ℕ → List ℕ → ℕ → Option (ℕ × List ℕ)
  | 0, _, _ => none
  | fuel + 1, parent, elem => do
    let p ← parent[elem]?
    if p ≠ elem then
      let (root, parent) ← findFrom fuel parent p
      some (root, parent.set elem root)
    else
      some (p, parent)

/-- `unchecked_find`: the root of `elem`, with path compression. -/
def uncheckedFind (s : DisjointSetsMap T) (elem : ℕ) : Option (ℕ × DisjointSetsMap T) := do
  let (root, parent) ← findFrom s.parent.length s.parent elem
  some (root, { s with parent })

/-- `find`: as `unchecked_find`, but `none` for an index out of bounds. -/
def find (s : DisjointSetsMap T) (elem : ℕ) : Option (Option ℕ × DisjointSetsMap T) :=
  match s.parent[elem]? with
  | none => some (none, s)
  | some p => do
    let (root, s) ← s.uncheckedFind p
    some (some root, s)

/-- Whether two indices are in the same class. -/
def sameSet (s : DisjointSetsMap T) (idx1 idx2 : ℕ) : Option (Bool × DisjointSetsMap T) := do
  let (root1, s) ← s.uncheckedFind idx1
  let (root2, s) ← s.uncheckedFind idx2
  some (decide (root1 = root2), s)

/-- Exchange two entries of a table. -/
def swap (l : List ℕ) (i j : ℕ) : Option (List ℕ) := do
  let a ← l[i]?
  let b ← l[j]?
  some ((l.set i b).set j a)

/-- Join the classes of two indices. The root of the smaller class is linked below the root of
the larger one (below the second on a tie), the two cycles of next links become one, and the
values of the two classes are merged. -/
def union (s : DisjointSetsMap T) (idx1 idx2 : ℕ) (merge : T → T → T) :
    Option (DisjointSetsMap T) := do
  let (root1, s) ← s.uncheckedFind idx1
  let (root2, s) ← s.uncheckedFind idx2
  if root1 = root2 then
    some s
  else
    let next ← swap s.next root1 root2
    let size1 ← s.size[root1]?
    let size2 ← s.size[root2]?
    let (root, parent, size) :=
      if size1 ≤ size2 then
        (root2, s.parent.set root1 root2, s.size.set root2 (size2 + size1))
      else
        (root1, s.parent.set root2 root1, s.size.set root1 (size1 + size2))
    let elem1 ← s.map.lookup root1
    let map := s.map.erase root1
    let elem2 ← map.lookup root2
    let map := map.erase root2
    some { map := map.insert root (merge elem1 elem2), parent, size, next }

/-- The loop of `multi_union` over the indices after the first. -/
def unionAll (first : ℕ) (merge : T → T → T) :
    List ℕ → DisjointSetsMap T → Option (DisjointSetsMap T)
  | [], s => some s
  | idx :: indices, s => do
    let s ← s.union first idx merge
    unionAll first merge indices s

/-- Join the classes of all the indices. -/
def multiUnion (s : DisjointSetsMap T) (indices : List ℕ) (merge : T → T → T) :
    Option (DisjointSetsMap T) :=
  match indices with
  | [] => some s
  | first :: indices => unionAll first merge indices s

/-- The elements of the class of an index, starting from its root. -/
def set (s : DisjointSetsMap T) (idx : ℕ) : Option (List ℕ × DisjointSetsMap T) := do
  let (root, s) ← s.uncheckedFind idx
  let size ← s.size[root]?
  let elems ← SetIter.collect s.next size root
  some (elems, s)

/-- The value of an index's class. -/
def get (s : DisjointSetsMap T) (idx : ℕ) : Option (Option T × DisjointSetsMap T) := do
  let (root, s) ← s.find idx
  match root with
  | none => some (none, s)
  | some root => some (s.map.lookup root, s)

/-- `get_mut`, with `f` what the caller does to the value through the reference it gets. The
value before is returned. -/
def getMut (s : DisjointSetsMap T) (idx : ℕ) (f : T → T) :
    Option (Option T × DisjointSetsMap T) := do
  let (root, s) ← s.find idx
  match root with
  | none => some (none, s)
  | some root =>
    match s.map.lookup root with
    | none => some (none, s)
    | some elem => some (some elem, { s with map := s.map.insert root (f elem) })

/-- Replace the value of an index's class. The value before is returned. -/
def update (s : DisjointSetsMap T) (idx : ℕ) (elem : T) :
    Option (Option T × DisjointSetsMap T) := do
  let (root, s) ← s.find idx
  match root with
  | none => some (none, s)
  | some root => some (s.map.lookup root, { s with map := s.map.insert root elem })

/-- The elements and the value of every class in the list of map entries. -/
def collectClasses (s : DisjointSetsMap T) :
    List (Sigma fun _ : ℕ => T) → Option (List (List ℕ × T))
  | [] => some []
  | ⟨root, elem⟩ :: entries => do
    let size ← s.size[root]?
    let elems ← SetIter.collect s.next size root
    let rest ← s.collectClasses entries
    some ((elems, elem) :: rest)

/-- The elements and the value of every class. -/
def iter (s : DisjointSetsMap T) : Option (List (List ℕ × T)) :=
  s.collectClasses s.map.entries

/-- The loop of `merge_with` over a list of indices. Reading `other` compresses its paths. -/
def mergeFrom (merge : T → T → T) :
    List ℕ → DisjointSetsMap T → DisjointSetsMap T →
      Option (DisjointSetsMap T × DisjointSetsMap T)
  | [], s, other => some (s, other)
  | idx :: indices, s, other => do
    let (elem1, s) ← s.get idx
    let elem1 ← elem1
    let (elem2, other) ← other.get idx
    let elem2 ← elem2
    let (old, s) ← s.getMut idx fun _ => merge elem1 elem2
    let _ ← old
    mergeFrom merge indices s other

/-- Merge into the value of every class the values that `other` has at its indices. -/
def mergeWith (s other : DisjointSetsMap T) (merge : T → T → T) :
    Option (DisjointSetsMap T × DisjointSetsMap T) :=
  mergeFrom merge ((List.range s.parent.length).take other.parent.length) s other

end DisjointSetsMap

end LiquidRust.Common
