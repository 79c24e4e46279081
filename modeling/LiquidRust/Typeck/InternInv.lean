import LiquidRust.Typeck.Intern

set_option relaxedAutoImplicit false
set_option autoImplicit false

/-!
# The invariant of the interner

What holds between any two steps of the threads that make, clone and drop handles. The counts are
those of the references, equal objects are in the map once, and what a thread has read while it
has the lock of a shard stays true until it releases the lock.

## Main definitions

* `LiquidRust.Typeck.Intern.totalRefs`, `holders` — references and locks.
* `LiquidRust.Typeck.Intern.Activity.Ok`, `Inv` — the invariant.

## Main results

* `LiquidRust.Typeck.Intern.Inv.lock_excludes` — a lock excludes others.
* `LiquidRust.Typeck.Intern.Inv.step` — every step keeps the invariant.
-/

namespace LiquidRust.Typeck.Intern

variable {V Shard : Type}

section Inv

variable [DecidableEq Shard] (shard : V → Shard)

/-- The references of all activities. -/
def totalRefs (tasks : Multiset (Activity V)) (a : Arc) : ℕ :=
  (tasks.map (Activity.refs a)).sum

/-- An activity has the lock of a shard. -/
def Activity.holds (i : Shard) (t : Activity V) : ℕ :=
  if t.lockedOn.map shard = some i then 1 else 0

/-- The number of activities that have the lock of a shard. -/
def holders (tasks : Multiset (Activity V)) (i : Shard) : ℕ :=
  (tasks.map (Activity.holds shard i)).sum

/-- No activity holds no reference. -/
@[simp] lemma totalRefs_zero (a : Arc) : totalRefs (0 : Multiset (Activity V)) a = 0 := by
  simp [totalRefs]

/-- The references of activities are those of the first and those of the rest. -/
@[simp] lemma totalRefs_cons (t : Activity V) (tasks : Multiset (Activity V)) (a : Arc) :
    totalRefs (t ::ₘ tasks) a = t.refs a + totalRefs tasks a := by
  simp [totalRefs]

/-- No activity holds no lock. -/
@[simp] lemma holders_zero (i : Shard) : holders shard (0 : Multiset (Activity V)) i = 0 := by
  simp [holders]

/-- The locks held are those of the first activity and those of the rest. -/
@[simp] lemma holders_cons (t : Activity V) (tasks : Multiset (Activity V)) (i : Shard) :
    holders shard (t ::ₘ tasks) i = t.holds shard i + holders shard tasks i := by
  simp [holders]

/-- An activity holds no more references than all of them. -/
lemma refs_le_totalRefs {t : Activity V} {tasks : Multiset (Activity V)} (ht : t ∈ tasks)
    (a : Arc) : t.refs a ≤ totalRefs tasks a := by
  obtain ⟨rest, rfl⟩ := Multiset.exists_cons_of_mem ht
  rw [totalRefs_cons]
  exact Nat.le_add_right _ _

/-- An activity holds no more locks than all of them. -/
lemma holds_le_holders {t : Activity V} {tasks : Multiset (Activity V)} (ht : t ∈ tasks)
    (i : Shard) : t.holds shard i ≤ holders shard tasks i := by
  obtain ⟨rest, rfl⟩ := Multiset.exists_cons_of_mem ht
  rw [holders_cons]
  exact Nat.le_add_right _ _

/-- **What holds of an activity** between any two steps. An allocation is in the map as long as
there are handles to it, and what a thread has read with the lock stays true. -/
def Activity.Ok (heap : List V) (map : List Arc) (total : Arc → ℕ) : Activity V → Prop
  | new _ | lookup _ => True
  | missing obj => ∀ a ∈ map, heap[a]? ≠ some obj
  | found obj arc | made obj arc | recheck obj arc => heap[arc]? = some obj ∧ arc ∈ map
  | alloc obj arc => heap[arc]? = some obj ∧ ∀ a ∈ map, heap[a]? ≠ some obj
  | handle arc | drop arc | dropSlow arc => arc ∈ map
  | remove obj arc => heap[arc]? = some obj ∧ arc ∈ map ∧ total arc = 1
  | dropped obj arc => heap[arc]? = some obj
  | release arc => arc < heap.length

/-- **The invariant.** The counts are those of the references, equal objects are in the map once,
and the locks are held by one activity each. -/
structure Inv (s : State V Shard) : Prop where
  counts : ∀ a, s.count a = totalRefs s.tasks a + s.map.count a
  nodup : s.map.Nodup
  lt : ∀ a ∈ s.map, a < s.heap.length
  inj : ∀ a ∈ s.map, ∀ b ∈ s.map, s.heap[a]? = s.heap[b]? → a = b
  locks : ∀ i, holders shard s.tasks i = if s.locked i then 1 else 0
  fresh : ∀ a, s.heap.length ≤ a → totalRefs s.tasks a = 0
  ok : ∀ t ∈ s.tasks, t.Ok s.heap s.map (totalRefs s.tasks)
  panicked : s.panicked = false

/-- The invariant holds initially. -/
lemma Inv.init [DecidableEq V] : Inv shard (State.init : State V Shard) where
  counts a := by simp [State.init]
  nodup := List.nodup_nil
  lt := by simp [State.init]
  inj := by simp [State.init]
  locks i := by simp [State.init]
  fresh a _ := by simp [State.init]
  ok := by simp [State.init]
  panicked := rfl

variable {shard} {s : State V Shard} {t t' : Activity V} {rest : Multiset (Activity V)}

/-- **A lock excludes**: no other activity has the lock of the same shard. -/
lemma Inv.lock_excludes (h : Inv shard s) (htasks : s.tasks = t ::ₘ rest) (ht' : t' ∈ rest)
    {obj : V} (hobj : t.lockedOn = some obj) : t'.lockedOn ≠ some obj := by
  intro hobj'
  have hlocks := h.locks (shard obj)
  have hle := holds_le_holders shard ht' (shard obj)
  rw [htasks, holders_cons, Activity.holds, if_pos (by rw [hobj]; rfl)] at hlocks
  rw [Activity.holds, if_pos (by rw [hobj']; rfl)] at hle
  split at hlocks <;> omega

/-- **What holds of an activity stays true** when others change the state: what it relies on stays
in the map, no object that it has found to be missing comes into the map, and nobody gets a
reference to an allocation that it is about to remove. -/
lemma Activity.Ok.frame {heap heap' : List V} {map map' : List Arc} {total total' : Arc → ℕ}
    (h : t.Ok heap map total)
    (hheap : ∀ {a : Arc} {obj : V}, heap[a]? = some obj → heap'[a]? = some obj)
    (hmap : ∀ {a : Arc}, 0 < t.refs a ∨ (∃ obj, t = .found obj a) → a ∈ map → a ∈ map')
    (hnew : ∀ {obj : V} {a : Arc}, t.lockedOn = some obj → a ∈ map' → heap'[a]? = some obj →
      a ∈ map ∧ heap[a]? = some obj)
    (htotal : ∀ {obj : V} {a : Arc}, t = .remove obj a → total' a = total a) :
    t.Ok heap' map' total' := by
  have hlen : ∀ {a : Arc}, a < heap.length → a < heap'.length := fun {a} ha =>
    (List.getElem?_eq_some_iff.mp (hheap (List.getElem?_eq_getElem ha))).1
  cases t with
  | new | lookup => trivial
  | missing obj => exact fun a ha heq => h a (hnew rfl ha heq).1 (hnew rfl ha heq).2
  | found obj arc => exact ⟨hheap h.1, hmap (.inr ⟨obj, rfl⟩) h.2⟩
  | made obj arc | recheck obj arc =>
    exact ⟨hheap h.1, hmap (.inl (by simp [Activity.refs])) h.2⟩
  | alloc obj arc =>
    exact ⟨hheap h.1, fun a ha heq => h.2 a (hnew rfl ha heq).1 (hnew rfl ha heq).2⟩
  | handle arc | drop arc | dropSlow arc => exact hmap (.inl (by simp [Activity.refs])) h
  | remove obj arc =>
    exact ⟨hheap h.1, hmap (.inl (by simp [Activity.refs])) h.2.1, (htotal rfl).trans h.2.2⟩
  | dropped obj arc => exact hheap h
  | release arc => exact hlen h

/-! ## Steps keep it -/

/-- **An activity goes on** with the references that it has. -/
lemma Inv.replace (h : Inv shard s) (htasks : s.tasks = t ::ₘ rest) (t' : Activity V)
    (hrefs : ∀ a, t'.refs a = t.refs a) {locked : Shard → Bool}
    (hlocks : ∀ i, t'.holds shard i + holders shard rest i = if locked i then 1 else 0)
    (hok : t'.Ok s.heap s.map (totalRefs s.tasks)) :
    Inv shard { s with tasks := t' ::ₘ rest, locked := locked } := by
  have htotal : totalRefs (t' ::ₘ rest) = totalRefs s.tasks := by
    funext a
    rw [htasks, totalRefs_cons, totalRefs_cons, hrefs]
  constructor
  · intro a
    show s.count a = totalRefs (t' ::ₘ rest) a + s.map.count a
    rw [htotal]
    exact h.counts a
  · exact h.nodup
  · exact h.lt
  · exact h.inj
  · intro i
    show holders shard (t' ::ₘ rest) i = _
    rw [holders_cons]
    exact hlocks i
  · intro a ha
    show totalRefs (t' ::ₘ rest) a = 0
    rw [htotal]
    exact h.fresh a ha
  · show ∀ t ∈ t' ::ₘ rest, t.Ok s.heap s.map (totalRefs (t' ::ₘ rest))
    rw [htotal, Multiset.forall_mem_cons]
    exact ⟨hok, fun u hu => h.ok u (htasks ▸ Multiset.mem_cons_of_mem hu)⟩
  · exact h.panicked

/-- What is known of the activity that makes a step. -/
lemma Inv.head (h : Inv shard s) (htasks : s.tasks = t ::ₘ rest) :
    t.Ok s.heap s.map (totalRefs s.tasks) :=
  h.ok t (htasks ▸ Multiset.mem_cons_self t rest)

/-- An activity that takes no part in a step is in order before it. -/
lemma Inv.tail (h : Inv shard s) (htasks : s.tasks = t ::ₘ rest) (ht' : t' ∈ rest) :
    t'.Ok s.heap s.map (totalRefs s.tasks) :=
  h.ok t' (htasks ▸ Multiset.mem_cons_of_mem ht')

/-- The locks, where an activity goes on with the lock that it has. -/
lemma Inv.locks_same (h : Inv shard s) (htasks : s.tasks = t ::ₘ rest)
    (hlocked : t'.lockedOn = t.lockedOn) (i : Shard) :
    t'.holds shard i + holders shard rest i = if s.locked i then 1 else 0 := by
  rw [← h.locks i, htasks, holders_cons, Activity.holds, Activity.holds, hlocked]

/-- The locks, where an activity takes one. -/
lemma Inv.locks_lock (h : Inv shard s) (htasks : s.tasks = t ::ₘ rest) {obj : V}
    (ht : t.lockedOn = none) (ht' : t'.lockedOn = some obj) (hfree : s.locked (shard obj) = false)
    (i : Shard) : t'.holds shard i + holders shard rest i =
      if Function.update s.locked (shard obj) true i then 1 else 0 := by
  have hi := h.locks i
  rw [htasks, holders_cons, Activity.holds, ht, Option.map_none, if_neg (by simp)] at hi
  rw [Activity.holds, ht', Option.map_some]
  by_cases hobj : i = shard obj
  · subst hobj
    rw [hfree] at hi
    simp_all
  · rw [Function.update_of_ne hobj, if_neg fun heq => hobj (Option.some.inj heq).symm]
    exact hi

/-- The locks, where an activity releases one. -/
lemma Inv.locks_unlock (h : Inv shard s) (htasks : s.tasks = t ::ₘ rest) {obj : V}
    (ht : t.lockedOn = some obj) (ht' : t'.lockedOn = none) (i : Shard) :
    t'.holds shard i + holders shard rest i =
      if Function.update s.locked (shard obj) false i then 1 else 0 := by
  have hi := h.locks i
  rw [htasks, holders_cons, Activity.holds, ht, Option.map_some] at hi
  rw [Activity.holds, ht', Option.map_none, if_neg (by simp)]
  by_cases hobj : i = shard obj
  · subst hobj
    rw [if_pos rfl] at hi
    rw [Function.update_self]
    split at hi <;> simp <;> omega
  · rw [Function.update_of_ne hobj]
    rwa [if_neg fun heq => hobj (Option.some.inj heq).symm] at hi

variable {obj : V} {arc : Arc}

/-- Starting to intern an object keeps the invariant. -/
lemma Inv.step_new (h : Inv shard s) (obj : V) :
    Inv shard { s with tasks := .new obj ::ₘ s.tasks } := by
  have htotal : totalRefs (.new obj ::ₘ s.tasks) = totalRefs s.tasks := by
    funext a
    rw [totalRefs_cons, Activity.refs, zero_add]
  refine ⟨fun a => ?_, h.nodup, h.lt, h.inj, fun i => ?_, fun a ha => ?_, ?_, h.panicked⟩
  · show s.count a = totalRefs (.new obj ::ₘ s.tasks) a + s.map.count a
    rw [htotal]
    exact h.counts a
  · show holders shard (.new obj ::ₘ s.tasks) i = _
    rw [holders_cons, Activity.holds, Activity.lockedOn, Option.map_none, if_neg (by simp),
      zero_add]
    exact h.locks i
  · show totalRefs (.new obj ::ₘ s.tasks) a = 0
    rw [htotal]
    exact h.fresh a ha
  · show ∀ t ∈ Activity.new obj ::ₘ s.tasks, t.Ok s.heap s.map (totalRefs (.new obj ::ₘ s.tasks))
    rw [htotal, Multiset.forall_mem_cons]
    exact ⟨trivial, h.ok⟩

/-- A lookup that has found the object makes a reference to it. -/
lemma Inv.step_cloneFound (h : Inv shard s) (htasks : s.tasks = .found obj arc ::ₘ rest) :
    Inv shard { s with
      tasks := .made obj arc ::ₘ rest
      count := Function.update s.count arc (s.count arc + 1) } := by
  obtain ⟨hobj, harc⟩ := h.head htasks
  have htotal : ∀ a, totalRefs s.tasks a = totalRefs rest a := fun a => by
    rw [htasks, totalRefs_cons, Activity.refs, zero_add]
  have htotal' : ∀ a, totalRefs (.made obj arc ::ₘ rest) a =
      (if arc = a then 1 else 0) + totalRefs s.tasks a := fun a => by
    rw [totalRefs_cons, htotal, Activity.refs]
  refine ⟨fun a => ?_, h.nodup, h.lt, h.inj, fun i => ?_, fun a ha => ?_, ?_, h.panicked⟩
  · show Function.update s.count arc (s.count arc + 1) a =
      totalRefs (.made obj arc ::ₘ rest) a + s.map.count a
    rw [htotal']
    have ha := h.counts a
    by_cases heq : arc = a
    · subst heq
      rw [Function.update_self, if_pos rfl]
      omega
    · rw [Function.update_of_ne (Ne.symm heq), if_neg heq]
      omega
  · show holders shard (.made obj arc ::ₘ rest) i = _
    rw [holders_cons]
    exact h.locks_same htasks rfl i
  · show totalRefs (.made obj arc ::ₘ rest) a = 0
    have hne : arc ≠ a := fun heq => absurd (h.lt arc harc) (heq ▸ not_lt.mpr ha)
    rw [htotal', if_neg hne, h.fresh a ha]
  · show ∀ t ∈ Activity.made obj arc ::ₘ rest, t.Ok s.heap s.map
      (totalRefs (.made obj arc ::ₘ rest))
    refine Multiset.forall_mem_cons.mpr ⟨⟨hobj, harc⟩, fun u hu => ?_⟩
    refine (h.tail htasks hu).frame id (fun _ => id) (fun _ ha heq => ⟨ha, heq⟩) ?_
    intro obj' a hu'
    -- an activity that removes the allocation would have the lock, too
    have hne : arc ≠ a := by
      rintro rfl
      have hok := h.tail htasks hu
      rw [hu'] at hok
      obtain rfl : obj' = obj := Option.some.inj (hok.1.symm.trans hobj)
      exact h.lock_excludes htasks hu rfl (by rw [hu']; rfl)
    rw [htotal', if_neg hne, zero_add]

/-- An object that is not in the map gets an allocation. -/
lemma Inv.step_alloc (h : Inv shard s) (htasks : s.tasks = .missing obj ::ₘ rest) :
    Inv shard { s with
      tasks := .alloc obj s.heap.length ::ₘ rest
      heap := s.heap ++ [obj]
      count := Function.update s.count s.heap.length 2 } := by
  have hmissing := h.head htasks
  have htotal : ∀ a, totalRefs s.tasks a = totalRefs rest a := fun a => by
    rw [htasks, totalRefs_cons, Activity.refs, zero_add]
  have htotal' : ∀ a, totalRefs (.alloc obj s.heap.length ::ₘ rest) a =
      (if s.heap.length = a then 2 else 0) + totalRefs s.tasks a := fun a => by
    rw [totalRefs_cons, htotal, Activity.refs]
  have hheap : ∀ {a : Arc} {obj' : V}, s.heap[a]? = some obj' →
      (s.heap ++ [obj])[a]? = some obj' := fun {a obj'} ha => by
    rw [List.getElem?_append_left (List.getElem?_eq_some_iff.mp ha).1, ha]
  have hmap : ∀ a ∈ s.map, (s.heap ++ [obj])[a]? = s.heap[a]? := fun a ha =>
    List.getElem?_append_left (h.lt a ha)
  refine ⟨fun a => ?_, h.nodup, fun a ha => ?_, fun a ha b hb heq => ?_, fun i => ?_,
    fun a ha => ?_, ?_, h.panicked⟩
  · show Function.update s.count s.heap.length 2 a =
      totalRefs (.alloc obj s.heap.length ::ₘ rest) a + s.map.count a
    rw [htotal']
    by_cases heq : s.heap.length = a
    · subst heq
      have hnot : s.heap.length ∉ s.map := fun hmem => absurd (h.lt _ hmem) (lt_irrefl _)
      rw [Function.update_self, if_pos rfl, h.fresh _ le_rfl, List.count_eq_zero.mpr hnot]
    · rw [Function.update_of_ne (Ne.symm heq), if_neg heq, zero_add]
      exact h.counts a
  · show a < (s.heap ++ [obj]).length
    rw [List.length_append]
    exact (h.lt a ha).trans_le (Nat.le_add_right _ _)
  · refine h.inj a ha b hb ?_
    rw [← hmap a ha, ← hmap b hb]
    exact heq
  · show holders shard (.alloc obj s.heap.length ::ₘ rest) i = _
    rw [holders_cons]
    exact h.locks_same htasks rfl i
  · show totalRefs (.alloc obj s.heap.length ::ₘ rest) a = 0
    have ha : (s.heap ++ [obj]).length ≤ a := ha
    rw [List.length_append, List.length_singleton] at ha
    rw [htotal', if_neg (by omega), h.fresh a (by omega)]
  · show ∀ t ∈ Activity.alloc obj s.heap.length ::ₘ rest, t.Ok (s.heap ++ [obj]) s.map
      (totalRefs (.alloc obj s.heap.length ::ₘ rest))
    refine Multiset.forall_mem_cons.mpr ⟨⟨by simp, fun a ha => ?_⟩, fun u hu => ?_⟩
    · rw [hmap a ha]
      exact hmissing a ha
    · refine (h.tail htasks hu).frame hheap (fun _ => id) ?_ ?_
      · intro obj' a _ ha heq
        rw [hmap a ha] at heq
        exact ⟨ha, heq⟩
      · intro obj' a hu'
        have hok := h.tail htasks hu
        rw [hu'] at hok
        have hne : s.heap.length ≠ a := (h.lt a hok.2.1).ne'
        rw [htotal', if_neg hne, zero_add]

/-- The allocation comes into the map, which takes one of its references. -/
lemma Inv.step_insert (h : Inv shard s) (htasks : s.tasks = .alloc obj arc ::ₘ rest) :
    Inv shard { s with tasks := .made obj arc ::ₘ rest, map := arc :: s.map } := by
  obtain ⟨hobj, hmissing⟩ := h.head htasks
  have harc : arc ∉ s.map := fun hmem => hmissing arc hmem hobj
  have hlt : arc < s.heap.length := (List.getElem?_eq_some_iff.mp hobj).1
  have htotal : ∀ a, totalRefs s.tasks a = (if arc = a then 2 else 0) + totalRefs rest a :=
    fun a => by rw [htasks, totalRefs_cons, Activity.refs]
  have htotal' : ∀ a, totalRefs (.made obj arc ::ₘ rest) a =
      (if arc = a then 1 else 0) + totalRefs rest a := fun a => by
    rw [totalRefs_cons, Activity.refs]
  refine ⟨fun a => ?_, List.nodup_cons.mpr ⟨harc, h.nodup⟩, ?_, ?_, fun i => ?_, fun a ha => ?_, ?_,
    h.panicked⟩
  · show s.count a = totalRefs (.made obj arc ::ₘ rest) a + (arc :: s.map).count a
    have ha := h.counts a
    rw [htotal] at ha
    rw [htotal', List.count_cons]
    by_cases heq : arc = a
    · subst heq
      simp only [beq_self_eq_true, if_true] at ha ⊢
      omega
    · simp only [beq_iff_eq, heq, if_false] at ha ⊢
      omega
  · exact List.forall_mem_cons.mpr ⟨hlt, h.lt⟩
  · show ∀ a ∈ arc :: s.map, ∀ b ∈ arc :: s.map, s.heap[a]? = s.heap[b]? → a = b
    intro a ha b hb heq
    rcases List.mem_cons.mp ha with rfl | hamem
    · rcases List.mem_cons.mp hb with rfl | hbmem
      · rfl
      · exact absurd (heq.symm.trans hobj) (hmissing b hbmem)
    · rcases List.mem_cons.mp hb with rfl | hbmem
      · exact absurd (heq.trans hobj) (hmissing a hamem)
      · exact h.inj a hamem b hbmem heq
  · show holders shard (.made obj arc ::ₘ rest) i = _
    rw [holders_cons]
    exact h.locks_same htasks rfl i
  · show totalRefs (.made obj arc ::ₘ rest) a = 0
    have hfresh := h.fresh a ha
    have hne : arc ≠ a := fun heq => absurd hlt (heq ▸ not_lt.mpr ha)
    rw [htotal, if_neg hne] at hfresh
    rw [htotal', if_neg hne, hfresh]
  · show ∀ t ∈ Activity.made obj arc ::ₘ rest, t.Ok s.heap (arc :: s.map)
      (totalRefs (.made obj arc ::ₘ rest))
    refine Multiset.forall_mem_cons.mpr ⟨⟨hobj, .head _⟩, fun u hu => ?_⟩
    refine (h.tail htasks hu).frame id (fun _ => List.mem_cons_of_mem _) ?_ ?_
    · intro obj' a hu' ha heq
      refine ⟨(List.mem_cons.mp ha).resolve_left ?_, heq⟩
      -- who has found the object to be missing would have the lock, too
      rintro rfl
      obtain rfl : obj' = obj := Option.some.inj (heq.symm.trans hobj)
      exact h.lock_excludes htasks hu rfl hu'
    · intro obj' a hu'
      have hok := h.tail htasks hu
      rw [hu'] at hok
      have hne : arc ≠ a := fun heq => harc (heq ▸ hok.2.1)
      rw [htotal, htotal', if_neg hne, if_neg hne]

/-- A handle is cloned. -/
lemma Inv.step_clone (h : Inv shard s) (htasks : s.tasks = .handle arc ::ₘ rest) :
    Inv shard { s with
      tasks := .handle arc ::ₘ .handle arc ::ₘ rest
      count := Function.update s.count arc (s.count arc + 1) } := by
  have harc := h.head htasks
  have htotal : ∀ a, totalRefs s.tasks a = (if arc = a then 1 else 0) + totalRefs rest a :=
    fun a => by rw [htasks, totalRefs_cons, Activity.refs]
  have htotal' : ∀ a, totalRefs (.handle arc ::ₘ .handle arc ::ₘ rest) a =
      (if arc = a then 1 else 0) + totalRefs s.tasks a := fun a => by
    rw [totalRefs_cons, totalRefs_cons, htotal, Activity.refs]
  refine ⟨fun a => ?_, h.nodup, h.lt, h.inj, fun i => ?_, fun a ha => ?_, ?_, h.panicked⟩
  · show Function.update s.count arc (s.count arc + 1) a =
      totalRefs (.handle arc ::ₘ .handle arc ::ₘ rest) a + s.map.count a
    rw [htotal']
    have ha := h.counts a
    by_cases heq : arc = a
    · subst heq
      rw [Function.update_self, if_pos rfl]
      omega
    · rw [Function.update_of_ne (Ne.symm heq), if_neg heq]
      omega
  · show holders shard (.handle arc ::ₘ .handle arc ::ₘ rest) i = _
    rw [← h.locks i, htasks, holders_cons, Activity.holds, Activity.lockedOn, Option.map_none,
      if_neg (by simp), zero_add]
  · show totalRefs (.handle arc ::ₘ .handle arc ::ₘ rest) a = 0
    have hne : arc ≠ a := fun heq => absurd (h.lt arc harc) (heq ▸ not_lt.mpr ha)
    rw [htotal', if_neg hne, h.fresh a ha]
  · show ∀ t ∈ Activity.handle arc ::ₘ .handle arc ::ₘ rest, t.Ok s.heap s.map
      (totalRefs (.handle arc ::ₘ .handle arc ::ₘ rest))
    refine Multiset.forall_mem_cons.mpr ⟨harc, Multiset.forall_mem_cons.mpr ⟨harc, fun u hu => ?_⟩⟩
    refine (h.tail htasks hu).frame id (fun _ => id) (fun _ ha heq => ⟨ha, heq⟩) ?_
    intro obj' a hu'
    -- the allocation that is removed has one reference, which is not that of the handle
    have hne : arc ≠ a := by
      rintro rfl
      have hok := h.tail htasks hu
      have hrefs := refs_le_totalRefs hu arc
      rw [hu'] at hok hrefs
      have hone := hok.2.2
      rw [htotal, if_pos rfl] at hone
      simp only [Activity.refs, if_true] at hrefs
      omega
    rw [htotal', if_neg hne, zero_add]

/-- An object is removed from the map, by the activity that has the last reference to it. -/
lemma Inv.step_remove (h : Inv shard s) (htasks : s.tasks = .remove obj arc ::ₘ rest) :
    Inv shard { s with
      tasks := .dropped obj arc ::ₘ rest
      map := s.map.erase arc
      count := Function.update s.count arc (s.count arc - 1) } := by
  obtain ⟨hobj, harc, hone⟩ := h.head htasks
  have htotal : totalRefs (.dropped obj arc ::ₘ rest) = totalRefs s.tasks := by
    funext a
    rw [htasks, totalRefs_cons, totalRefs_cons]
    rfl
  have hrest : totalRefs rest arc = 0 := by
    rw [htasks, totalRefs_cons] at hone
    simp only [Activity.refs, if_true] at hone
    omega
  have hsub : ∀ a ∈ s.map.erase arc, a ∈ s.map := fun a => List.mem_of_mem_erase
  refine ⟨fun a => ?_, h.nodup.erase arc, fun a ha => h.lt a (hsub a ha),
    fun a ha b hb => h.inj a (hsub a ha) b (hsub b hb), fun i => ?_, fun a ha => ?_, ?_,
    h.panicked⟩
  · show Function.update s.count arc (s.count arc - 1) a =
      totalRefs (.dropped obj arc ::ₘ rest) a + (s.map.erase arc).count a
    rw [htotal]
    have ha := h.counts a
    by_cases heq : arc = a
    · subst heq
      rw [Function.update_self, List.count_erase_self]
      have hcount := List.count_pos_iff.mpr harc
      omega
    · rw [Function.update_of_ne (Ne.symm heq), List.count_erase_of_ne (Ne.symm heq)]
      exact ha
  · show holders shard (.dropped obj arc ::ₘ rest) i = _
    rw [holders_cons]
    exact h.locks_same htasks rfl i
  · show totalRefs (.dropped obj arc ::ₘ rest) a = 0
    rw [htotal]
    exact h.fresh a ha
  · show ∀ t ∈ Activity.dropped obj arc ::ₘ rest, t.Ok s.heap (s.map.erase arc)
      (totalRefs (.dropped obj arc ::ₘ rest))
    rw [htotal]
    refine Multiset.forall_mem_cons.mpr ⟨hobj, fun u hu => ?_⟩
    refine (h.tail htasks hu).frame id ?_ (fun _ ha heq => ⟨hsub _ ha, heq⟩) fun _ => rfl
    intro a ha hmem
    refine (List.mem_erase_of_ne ?_).mpr hmem
    rintro rfl
    rcases ha with hpos | ⟨obj', rfl⟩
    · -- there are no other references to what is removed
      have hle := refs_le_totalRefs hu a
      omega
    · -- who has found the object would have the lock, too
      have hok := h.tail htasks hu
      obtain rfl : obj' = obj := Option.some.inj (hok.1.symm.trans hobj)
      exact h.lock_excludes htasks hu rfl rfl

/-- The reference of a handle goes away. -/
lemma Inv.step_release (h : Inv shard s) (htasks : s.tasks = .release arc ::ₘ rest) :
    Inv shard { s with
      tasks := rest
      count := Function.update s.count arc (s.count arc - 1) } := by
  have htotal : ∀ a, totalRefs s.tasks a = (if arc = a then 1 else 0) + totalRefs rest a :=
    fun a => by rw [htasks, totalRefs_cons, Activity.refs]
  refine ⟨fun a => ?_, h.nodup, h.lt, h.inj, fun i => ?_, fun a ha => ?_, fun u hu => ?_,
    h.panicked⟩
  · show Function.update s.count arc (s.count arc - 1) a = totalRefs rest a + s.map.count a
    have ha := h.counts a
    rw [htotal] at ha
    by_cases heq : arc = a
    · subst heq
      rw [if_pos rfl] at ha
      rw [Function.update_self]
      omega
    · rw [if_neg heq] at ha
      rw [Function.update_of_ne (Ne.symm heq)]
      omega
  · show holders shard rest i = _
    rw [← h.locks i, htasks, holders_cons, Activity.holds, Activity.lockedOn, Option.map_none,
      if_neg (by simp), zero_add]
  · show totalRefs rest a = 0
    have hfresh := h.fresh a ha
    rw [htotal] at hfresh
    omega
  · show u.Ok s.heap s.map (totalRefs rest)
    refine (h.tail htasks hu).frame id (fun _ => id) (fun _ ha heq => ⟨ha, heq⟩) ?_
    intro obj' a hu'
    have hne : arc ≠ a := by
      rintro rfl
      have hok := h.tail htasks hu
      have hrefs := refs_le_totalRefs hu arc
      rw [hu'] at hok hrefs
      have hone := hok.2.2
      rw [htotal, if_pos rfl] at hone
      simp only [Activity.refs, if_true] at hrefs
      omega
    rw [htotal, if_neg hne, zero_add]

/-- An object is in the map once. -/
lemma Inv.getKeyValue_eq [DecidableEq V] (h : Inv shard s) (harc : arc ∈ s.map)
    (hobj : s.heap[arc]? = some obj) :
    s.getKeyValue obj = some arc := by
  cases hfind : s.getKeyValue obj with
  | none => exact absurd hobj (State.getKeyValue_eq_none.mp hfind arc harc)
  | some a =>
    obtain ⟨ha, hobj'⟩ := State.getKeyValue_eq_some hfind
    rw [h.inj a ha arc harc (hobj'.trans hobj.symm)]

/-- **Every step keeps the invariant.** -/
theorem Inv.step [DecidableEq V] {s' : State V Shard} (h : Inv shard s)
    (hstep : Step shard s s') : Inv shard s' := by
  cases hstep with
  | new obj => exact h.step_new obj
  | @lock rest obj htasks hfree =>
    exact h.replace htasks (.lookup obj) (fun _ => rfl) (h.locks_lock htasks rfl rfl hfree) trivial
  | @found rest obj arc htasks hget =>
    obtain ⟨harc, hobj⟩ := State.getKeyValue_eq_some hget
    exact h.replace htasks (.found obj arc) (fun _ => rfl) (h.locks_same htasks rfl) ⟨hobj, harc⟩
  | @missing rest obj htasks hget =>
    exact h.replace htasks (.missing obj) (fun _ => rfl) (h.locks_same htasks rfl)
      (State.getKeyValue_eq_none.mp hget)
  | cloneFound htasks => exact h.step_cloneFound htasks
  | alloc htasks => exact h.step_alloc htasks
  | insert htasks => exact h.step_insert htasks
  | @unlock rest obj arc htasks =>
    exact h.replace htasks (.handle arc) (fun _ => rfl) (h.locks_unlock htasks rfl rfl)
      (h.head htasks).2
  | clone htasks => exact h.step_clone htasks
  | @drop rest arc htasks =>
    have harc : arc ∈ s.map := h.head htasks
    exact h.replace htasks (.drop arc) (fun _ => rfl) (h.locks_same htasks rfl) harc
  | @dropSlow rest arc htasks _ =>
    have harc : arc ∈ s.map := h.head htasks
    exact h.replace htasks (.dropSlow arc) (fun _ => rfl) (h.locks_same htasks rfl) harc
  | @dropFast rest arc htasks _ =>
    exact h.replace htasks (.release arc) (fun _ => rfl) (h.locks_same htasks rfl)
      (h.lt arc (h.head htasks))
  | @lockSlow rest obj arc htasks hobj hfree =>
    exact h.replace htasks (.recheck obj arc) (fun _ => rfl) (h.locks_lock htasks rfl rfl hfree)
      ⟨hobj, h.head htasks⟩
  | expect htasks hget =>
    -- the object of a handle is in the map
    obtain ⟨hobj, harc⟩ := h.head htasks
    exact absurd hobj (State.getKeyValue_eq_none.mp hget _ harc)
  | @keep rest obj arc arc' htasks _ _ =>
    exact h.replace htasks (.dropped obj arc) (fun _ => rfl) (h.locks_same htasks rfl)
      (h.head htasks).1
  | @recheck rest obj arc arc' htasks hget hcount =>
    obtain ⟨hobj, harc⟩ := h.head htasks
    obtain rfl := Option.some.inj ((h.getKeyValue_eq harc hobj).symm.trans hget)
    -- one of the two references is that of the map
    have hone : totalRefs s.tasks arc = 1 := by
      have hcounts := h.counts arc
      rw [hcount, List.count_eq_one_of_mem h.nodup harc] at hcounts
      omega
    exact h.replace htasks (.remove obj arc) (fun _ => rfl) (h.locks_same htasks rfl)
      ⟨hobj, harc, hone⟩
  | @remove rest obj arc arc' htasks hget =>
    obtain ⟨hobj, harc, -⟩ := h.head htasks
    obtain rfl := Option.some.inj ((h.getKeyValue_eq harc hobj).symm.trans hget)
    exact h.step_remove htasks
  | @unlockSlow rest obj arc htasks =>
    exact h.replace htasks (.release arc) (fun _ => rfl) (h.locks_unlock htasks rfl rfl)
      (List.getElem?_eq_some_iff.mp (h.head htasks)).1
  | release htasks => exact h.step_release htasks

/-- A lock that is taken is that of an activity. -/
lemma Inv.exists_holder (h : Inv shard s) {i : Shard} (hi : s.locked i = true) :
    ∃ t rest obj, s.tasks = t ::ₘ rest ∧ t.lockedOn = some obj := by
  have hlocks := h.locks i
  rw [hi, if_pos rfl] at hlocks
  by_contra hnone
  have hzero : ∀ n ∈ s.tasks.map (Activity.holds shard i), n = 0 := by
    intro n hn
    obtain ⟨t, ht, rfl⟩ := Multiset.mem_map.mp hn
    obtain ⟨rest, hrest⟩ := Multiset.exists_cons_of_mem ht
    cases hlocked : t.lockedOn with
    | none => rw [Activity.holds, hlocked, Option.map_none, if_neg (by simp)]
    | some obj => exact absurd ⟨t, rest, obj, hrest, hlocked⟩ hnone
  rw [holders, Multiset.sum_eq_zero hzero] at hlocks
  cases hlocks

end Inv

end LiquidRust.Typeck.Intern
