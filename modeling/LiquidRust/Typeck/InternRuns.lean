import LiquidRust.Typeck.InternInv

set_option relaxedAutoImplicit false
set_option autoImplicit false

/-!
# Runs of the interner

What the invariant says about all interleavings of the threads, and what else holds if one of
them works at a time.

## Main definitions

* `LiquidRust.Typeck.Intern.Activity.work` — the steps that an activity has left.
* `LiquidRust.Typeck.Intern.SeqReachable` — runs in which one thread works at a time.

## Main results

* `LiquidRust.Typeck.Intern.Reachable.handles` — handles are equal as pointers iff their objects
  are, no handle is freed, and no drop finds its object missing.
* `LiquidRust.Typeck.Intern.Reachable.can_finish` — no deadlock.
* `LiquidRust.Typeck.Intern.racing_drops_leak` — an object may stay in the map without a handle.
* `LiquidRust.Typeck.Intern.SeqReachable.reclaims` — none does if one thread works at a time.
-/

namespace LiquidRust.Typeck.Intern

open Relation (ReflTransGen)

variable {V Shard : Type}

/-! ## Work -/

/-- The steps that an activity has left, at most. -/
def Activity.work : Activity V → ℕ
  | handle _ => 0
  | made _ _ | release _ => 1
  | found _ _ | alloc _ _ | dropped _ _ => 2
  | missing _ | remove _ _ => 3
  | lookup _ | recheck _ _ => 4
  | new _ | dropSlow _ => 5
  | drop _ => 6

/-- An activity with no work left is a handle. -/
lemma Activity.work_pos (t : Activity V) : 0 < t.work ∨ ∃ a, t = .handle a := by
  cases t with
  | handle a => exact .inr ⟨a, rfl⟩
  | _ => exact .inl (by simp [Activity.work])

/-- The steps that all activities have left. -/
def totalWork (tasks : Multiset (Activity V)) : ℕ :=
  (tasks.map Activity.work).sum

/-- The work left is that of the first activity and that of the rest. -/
@[simp] lemma totalWork_cons (t : Activity V) (tasks : Multiset (Activity V)) :
    totalWork (t ::ₘ tasks) = t.work + totalWork tasks := by
  simp [totalWork]

/-! ## All interleavings -/

section Interleavings

variable [DecidableEq V] [DecidableEq Shard] {shard : V → Shard} {s : State V Shard}

/-- **The invariant of all interleavings.** -/
theorem Reachable.inv (h : Reachable shard s) : Inv shard s := by
  induction h with
  | refl => exact .init shard
  | tail _ hstep ih => exact ih.step hstep

/-- **Interning is right in every interleaving.** No drop finds its object missing from the map.
What a handle refers to is not freed, and it is what the map has for the object. Two handles are
the same pointer iff their objects are equal.

**Proof sketch.** Every step keeps an invariant (`Inv.step`): an entry of the map is counted once
for the map and once for each handle and activity that has it, a locked shard has one activity
that may change it, and the map has one entry for an object. What is said of handles is read off
it. -/
theorem Reachable.handles (h : Reachable shard s) :
    s.panicked = false ∧
    (∀ a, .handle a ∈ s.tasks →
      2 ≤ s.count a ∧ ∃ obj, s.heap[a]? = some obj ∧ s.getKeyValue obj = some a) ∧
    ∀ a b, .handle a ∈ s.tasks → .handle b ∈ s.tasks → (a = b ↔ s.heap[a]? = s.heap[b]?) := by
  have hinv := h.inv
  have hmem : ∀ a, .handle a ∈ s.tasks → a ∈ s.map := fun a ha => hinv.ok _ ha
  refine ⟨hinv.panicked, fun a ha => ?_, fun a b ha hb => ?_⟩
  · have harc := hmem a ha
    have hobj := List.getElem?_eq_getElem (hinv.lt a harc)
    refine ⟨?_, _, hobj, hinv.getKeyValue_eq harc hobj⟩
    have hrefs := refs_le_totalRefs ha a
    rw [Activity.refs, if_pos rfl] at hrefs
    rw [hinv.counts a, List.count_eq_one_of_mem hinv.nodup harc]
    omega
  · exact ⟨fun heq => heq ▸ rfl, hinv.inj a (hmem a ha) b (hmem b hb)⟩

/-! ### Progress -/

/-- An activity that has a lock can go on. -/
lemma Inv.step_of_lockedOn {t : Activity V} {rest : Multiset (Activity V)} (h : Inv shard s)
    (htasks : s.tasks = t ::ₘ rest) {obj : V} (ht : t.lockedOn = some obj) :
    ∃ s', Step shard s s' ∧ totalWork s'.tasks < totalWork s.tasks := by
  rw [htasks, totalWork_cons]
  cases t with
  | new | handle | drop | dropSlow | release => cases ht
  | lookup obj =>
    cases hget : s.getKeyValue obj with
    | none => exact ⟨_, .missing htasks hget, by simp [Activity.work]⟩
    | some arc => exact ⟨_, .found htasks hget, by simp [Activity.work]⟩
  | found obj arc => exact ⟨_, .cloneFound htasks, by simp [Activity.work]⟩
  | missing obj => exact ⟨_, .alloc htasks, by simp [Activity.work]⟩
  | alloc obj arc => exact ⟨_, .insert htasks, by simp [Activity.work]⟩
  | made obj arc => exact ⟨_, .unlock htasks, by simp [Activity.work]⟩
  | recheck obj arc =>
    obtain ⟨hobj, harc⟩ := h.head htasks
    have hget := h.getKeyValue_eq harc hobj
    by_cases hcount : s.count arc = 2
    · exact ⟨_, .recheck htasks hget hcount, by simp [Activity.work]⟩
    · exact ⟨_, .keep htasks hget hcount, by simp [Activity.work]⟩
  | remove obj arc =>
    obtain ⟨hobj, harc, -⟩ := h.head htasks
    exact ⟨_, .remove htasks (h.getKeyValue_eq harc hobj), by simp [Activity.work]⟩
  | dropped obj arc => exact ⟨_, .unlockSlow htasks, by simp [Activity.work]⟩

/-- **An activity that is not done can go on**, or one can that has the lock it waits for. -/
lemma Inv.exists_step {t : Activity V} (h : Inv shard s) (ht : t ∈ s.tasks) (hwork : 0 < t.work) :
    ∃ s', Step shard s s' ∧ totalWork s'.tasks < totalWork s.tasks := by
  obtain ⟨rest, htasks⟩ := Multiset.exists_cons_of_mem ht
  cases t with
  | lookup | found | missing | alloc | made | recheck | remove | dropped =>
    exact h.step_of_lockedOn htasks rfl
  | handle => exact absurd hwork (lt_irrefl 0)
  | new obj =>
    cases hlocked : s.locked (shard obj) with
    | false => exact ⟨_, .lock htasks hlocked, by simp [htasks, Activity.work]⟩
    | true =>
      obtain ⟨t, rest, obj, htasks, ht⟩ := h.exists_holder hlocked
      exact h.step_of_lockedOn htasks ht
  | drop arc =>
    by_cases hcount : s.count arc = 2
    · exact ⟨_, .dropSlow htasks hcount, by simp [htasks, Activity.work]⟩
    · exact ⟨_, .dropFast htasks hcount, by simp [htasks, Activity.work]⟩
  | dropSlow arc =>
    have harc : arc ∈ s.map := h.head htasks
    obtain ⟨obj, hobj⟩ : ∃ obj, s.heap[arc]? = some obj :=
      ⟨_, List.getElem?_eq_getElem (h.lt arc harc)⟩
    cases hlocked : s.locked (shard obj) with
    | false => exact ⟨_, .lockSlow htasks hobj hlocked, by simp [htasks, Activity.work]⟩
    | true =>
      obtain ⟨t, rest, obj, htasks, ht⟩ := h.exists_holder hlocked
      exact h.step_of_lockedOn htasks ht
  | release arc => exact ⟨_, .release htasks, by simp [htasks, Activity.work]⟩

/-- **No deadlock.** Whatever the threads have done, they can all finish what they are doing.

**Proof sketch.** By induction on the steps that are left. An activity that is not done can take a
step unless it waits for a lock, and then the activity that has the lock can (`Inv.exists_step`). -/
theorem Reachable.can_finish (h : Reachable shard s) :
    ∃ s', ReflTransGen (Step shard) s s' ∧ ∀ t ∈ s'.tasks, ∃ a, t = .handle a := by
  have hinv := h.inv
  clear h
  induction hn : totalWork s.tasks using Nat.strong_induction_on generalizing s with
  | _ n ih =>
    by_cases hdone : ∀ t ∈ s.tasks, ∃ a, t = .handle a
    · exact ⟨s, .refl, hdone⟩
    · obtain ⟨t, ht, hne⟩ : ∃ t ∈ s.tasks, ¬∃ a, t = .handle a := by
        simpa only [not_forall, exists_prop] using hdone
      have hwork : 0 < t.work := t.work_pos.resolve_right hne
      obtain ⟨s₁, hstep, hlt⟩ := hinv.exists_step ht hwork
      obtain ⟨s', hsteps, hdone⟩ := ih _ (hn ▸ hlt) (hinv.step hstep) rfl
      exact ⟨s', .head hstep hsteps, hdone⟩

/-- An object was made, and its handle cloned. -/
def State.cloned (shard : V → Shard) (obj : V) : State V Shard where
  heap := [obj]
  count := Function.update (Function.update (fun _ => 0) 0 2) 0 3
  map := [0]
  locked := Function.update (Function.update (fun _ => false) (shard obj) true) (shard obj) false
  tasks := .handle 0 ::ₘ .handle 0 ::ₘ 0
  panicked := false

/-- The state with a cloned handle is reachable. -/
lemma reachable_cloned (shard : V → Shard) (obj : V) : Reachable shard (.cloned shard obj) := by
  have hnew : ReflTransGen (Step shard) (State.init : State V Shard) _ :=
    .single (.new .init obj)
  have hlock := hnew.tail (@Step.lock _ _ _ _ _ _ 0 obj rfl rfl)
  have hmissing := hlock.tail (@Step.missing _ _ _ _ _ _ 0 obj rfl rfl)
  have halloc := hmissing.tail (@Step.alloc _ _ _ _ _ _ 0 obj rfl)
  have hinsert := halloc.tail (@Step.insert _ _ _ _ _ _ 0 obj 0 rfl)
  have hunlock := hinsert.tail (@Step.unlock _ _ _ _ _ _ 0 obj 0 rfl)
  exact hunlock.tail (@Step.clone _ _ _ _ _ _ 0 0 rfl)

/-- Two handles of one object. -/
theorem handles_cloned :
    2 ≤ (State.cloned (· % 2) 7 : State ℕ ℕ).count 0 ∧
      (State.cloned (· % 2) 7 : State ℕ ℕ).getKeyValue 7 = some 0 := by
  obtain ⟨-, hhandle, -⟩ := (reachable_cloned (· % 2) 7).handles
  obtain ⟨hcount, obj, hobj, hget⟩ :=
    hhandle 0 (Multiset.mem_cons_self (Activity.handle 0) (.handle 0 ::ₘ 0))
  obtain rfl : 7 = obj := Option.some.inj hobj
  exact ⟨hcount, hget⟩

/-- Two handles are done. -/
theorem can_finish_cloned : ∃ s', ReflTransGen (Step (· % 2))
    (State.cloned (· % 2) 7 : State ℕ ℕ) s' ∧ ∀ t ∈ s'.tasks, ∃ a, t = .handle a :=
  (reachable_cloned (· % 2) 7).can_finish

/-- **Two threads that drop the last two handles at the same time** may both find three
references. The object stays in the map without a handle. -/
theorem racing_drops_leak (shard : V → Shard) (obj : V) :
    ∃ s, Reachable shard s ∧ s.tasks = 0 ∧ s.getKeyValue obj = some 0 := by
  have hdrop := (reachable_cloned shard obj).tail
    (@Step.drop _ _ _ _ _ _ (.handle 0 ::ₘ 0) 0 rfl)
  have hfast := hdrop.tail (@Step.dropFast _ _ _ _ _ _ (.handle 0 ::ₘ 0) 0 rfl
    (by simp [State.cloned]))
  have hdrop' := hfast.tail (@Step.drop _ _ _ _ _ _ (.release 0 ::ₘ 0) 0
    (Multiset.cons_swap (Activity.release 0) (Activity.handle 0) 0))
  have hfast' := hdrop'.tail (@Step.dropFast _ _ _ _ _ _ (.release 0 ::ₘ 0) 0 rfl
    (by simp [State.cloned]))
  have hrelease := hfast'.tail (@Step.release _ _ _ _ _ _ (.release 0 ::ₘ 0) 0 rfl)
  refine ⟨_, hrelease.tail (@Step.release _ _ _ _ _ _ 0 0 rfl), rfl, ?_⟩
  simp [State.getKeyValue, State.cloned]

end Interleavings

/-! ## One thread at a time -/

section Sequential

variable [DecidableEq Shard] {shard : V → Shard} {s s' : State V Shard} {t : Activity V}
  {rest : Multiset (Activity V)} {a arc : Arc} {obj : V}

/-- The activities that are not done. -/
def busy (tasks : Multiset (Activity V)) : ℕ :=
  tasks.countP fun t => 0 < t.work

/-- Runs in which there is one activity that is not done, at most. -/
inductive SeqReachable [DecidableEq V] (shard : V → Shard) : State V Shard → Prop
  | init : SeqReachable shard .init
  | step {s s' : State V Shard} : SeqReachable shard s → Step shard s s' → busy s'.tasks ≤ 1 →
      SeqReachable shard s'

/-- An activity that is about to give a reference up. -/
def Activity.Leaves (a : Arc) : Activity V → Prop
  | dropped _ arc | release arc => arc = a
  | _ => False

/-- **What one thread at a time keeps**: there is a handle to each object in the map, and another
one where a handle is given up. -/
structure SeqInv (shard : V → Shard) (s : State V Shard) : Prop where
  inv : Inv shard s
  one : busy s.tasks ≤ 1
  held : ∀ a ∈ s.map, 1 ≤ totalRefs s.tasks a
  leaving : ∀ t ∈ s.tasks, ∀ a ∈ s.map, t.Leaves a → 2 ≤ totalRefs s.tasks a

/-- An activity that leaves an entry behind has work left. -/
lemma Activity.Leaves.work_pos (h : t.Leaves a) : 0 < t.work := by
  cases t with
  | dropped obj arc | release arc => simp [Activity.work]
  | _ => exact h.elim

/-- No other activity gives a reference up. -/
lemma SeqInv.not_leaves (h : SeqInv shard s) (htasks : s.tasks = t ::ₘ rest) (ht : 0 < t.work)
    {u : Activity V} (hu : u ∈ rest) : ¬u.Leaves a := by
  intro hleaves
  have hone := h.one
  rw [htasks, busy, Multiset.countP_cons_of_pos (p := fun t => 0 < t.work) rest ht] at hone
  have hpos : 0 < rest.countP fun t => 0 < t.work :=
    Multiset.countP_pos.mpr ⟨u, hu, hleaves.work_pos⟩
  omega

/-- Activities that give no reference up, and no object that comes into the map. -/
lemma SeqInv.keeps (h : SeqInv shard s) {tasks : Multiset (Activity V)} {map : List Arc}
    (hmap : ∀ a ∈ map, a ∈ s.map) (hle : ∀ a ∈ map, totalRefs s.tasks a ≤ totalRefs tasks a)
    (hleaving : ∀ u ∈ tasks, u ∈ s.tasks ∨ ∀ a ∈ map, u.Leaves a → 2 ≤ totalRefs tasks a) :
    (∀ a ∈ map, 1 ≤ totalRefs tasks a) ∧
      ∀ u ∈ tasks, ∀ a ∈ map, u.Leaves a → 2 ≤ totalRefs tasks a := by
  refine ⟨fun a ha => (h.held a (hmap a ha)).trans (hle a ha), fun u hu a ha hleaves => ?_⟩
  rcases hleaving u hu with hmem | hleaving
  · exact (h.leaving u hmem a (hmap a ha) hleaves).trans (hle a ha)
  · exact hleaving a ha hleaves

/-- An activity goes on with the references that it has. -/
lemma SeqInv.keeps_replace (h : SeqInv shard s) (htasks : s.tasks = t ::ₘ rest) (t' : Activity V)
    (hrefs : ∀ a, t'.refs a = t.refs a)
    (hleaving : ∀ a ∈ s.map, t'.Leaves a → 2 ≤ totalRefs s.tasks a) :
    (∀ a ∈ s.map, 1 ≤ totalRefs (t' ::ₘ rest) a) ∧
      ∀ u ∈ t' ::ₘ rest, ∀ a ∈ s.map, u.Leaves a → 2 ≤ totalRefs (t' ::ₘ rest) a := by
  have htotal : totalRefs (t' ::ₘ rest) = totalRefs s.tasks := by
    funext a
    rw [htasks, totalRefs_cons, totalRefs_cons, hrefs]
  refine h.keeps (fun _ ha => ha) (fun a _ => (congrFun htotal a).ge) ?_
  rw [htotal, htasks]
  refine Multiset.forall_mem_cons.mpr ⟨.inr (htasks ▸ hleaving), fun u hu => ?_⟩
  exact .inl (Multiset.mem_cons_of_mem hu)

/-- A handle is not given up alone where the count is not two. -/
lemma Inv.two_le_totalRefs (h : Inv shard s) (ha : a ∈ s.map) (hpos : 1 ≤ totalRefs s.tasks a)
    (hcount : s.count a ≠ 2) : 2 ≤ totalRefs s.tasks a := by
  rw [h.counts a, List.count_eq_one_of_mem h.nodup ha] at hcount
  omega

variable [DecidableEq V]

/-- **Steps of one thread at a time** keep a handle to each object in the map. -/
lemma SeqInv.step_held (h : SeqInv shard s) (hstep : Step shard s s') :
    (∀ a ∈ s'.map, 1 ≤ totalRefs s'.tasks a) ∧
      ∀ u ∈ s'.tasks, ∀ a ∈ s'.map, u.Leaves a → 2 ≤ totalRefs s'.tasks a := by
  cases hstep with
  | new obj =>
    refine h.keeps (fun _ ha => ha) (fun a _ => ?_) ?_
    · rw [totalRefs_cons]
      exact Nat.le_add_left _ _
    · exact Multiset.forall_mem_cons.mpr ⟨.inr fun _ _ => False.elim, fun u hu => .inl hu⟩
  | @lock rest obj htasks _ =>
    exact h.keeps_replace htasks (.lookup obj) (fun _ => rfl) fun _ _ => False.elim
  | @found rest obj arc htasks _ =>
    exact h.keeps_replace htasks (.found obj arc) (fun _ => rfl) fun _ _ => False.elim
  | @missing rest obj htasks _ =>
    exact h.keeps_replace htasks (.missing obj) (fun _ => rfl) fun _ _ => False.elim
  | @cloneFound rest obj arc htasks =>
    refine h.keeps (fun _ ha => ha) (fun a _ => ?_) ?_
    · rw [htasks, totalRefs_cons, totalRefs_cons]
      exact Nat.add_le_add_right (Nat.zero_le _) _
    · rw [htasks]
      exact Multiset.forall_mem_cons.mpr ⟨.inr fun _ _ => False.elim, fun u hu =>
        .inl (Multiset.mem_cons_of_mem hu)⟩
  | @alloc rest obj htasks =>
    refine h.keeps (fun _ ha => ha) (fun a _ => ?_) ?_
    · rw [htasks, totalRefs_cons, totalRefs_cons]
      exact Nat.add_le_add_right (Nat.zero_le _) _
    · rw [htasks]
      exact Multiset.forall_mem_cons.mpr ⟨.inr fun _ _ => False.elim, fun u hu =>
        .inl (Multiset.mem_cons_of_mem hu)⟩
  | @insert rest obj arc htasks =>
    obtain ⟨hobj, hmissing⟩ := h.inv.head htasks
    have harc : arc ∉ s.map := fun hmem => hmissing arc hmem hobj
    constructor
    · refine List.forall_mem_cons.mpr ⟨?_, fun a ha => ?_⟩
      · rw [totalRefs_cons, Activity.refs, if_pos rfl]
        exact Nat.le_add_right _ _
      · have hne : arc ≠ a := fun heq => harc (heq ▸ ha)
        have hheld := h.held a ha
        rw [htasks, totalRefs_cons, Activity.refs, if_neg hne] at hheld
        rw [totalRefs_cons]
        omega
    · refine Multiset.forall_mem_cons.mpr ⟨fun _ _ => False.elim, fun u hu a _ hleaves => ?_⟩
      exact absurd hleaves (h.not_leaves htasks (by simp [Activity.work]) hu)
  | @unlock rest obj arc htasks =>
    exact h.keeps_replace htasks (.handle arc) (fun _ => rfl) fun _ _ => False.elim
  | @clone rest arc htasks =>
    refine h.keeps (fun _ ha => ha) (fun a _ => ?_) ?_
    · rw [htasks, totalRefs_cons (.handle arc) (.handle arc ::ₘ rest)]
      exact Nat.le_add_left _ _
    · rw [htasks]
      exact Multiset.forall_mem_cons.mpr ⟨.inr fun _ _ => False.elim, fun u hu => .inl hu⟩
  | @drop rest arc htasks =>
    exact h.keeps_replace htasks (.drop arc) (fun _ => rfl) fun _ _ => False.elim
  | @dropSlow rest arc htasks _ =>
    exact h.keeps_replace htasks (.dropSlow arc) (fun _ => rfl) fun _ _ => False.elim
  | @dropFast rest arc htasks hcount =>
    refine h.keeps_replace htasks (.release arc) (fun _ => rfl) fun a ha heq => ?_
    obtain rfl : arc = a := heq
    exact h.inv.two_le_totalRefs ha (h.held arc ha) hcount
  | @lockSlow rest obj arc htasks _ _ =>
    exact h.keeps_replace htasks (.recheck obj arc) (fun _ => rfl) fun _ _ => False.elim
  | expect htasks hget =>
    obtain ⟨hobj, harc⟩ := h.inv.head htasks
    exact absurd hobj (State.getKeyValue_eq_none.mp hget _ harc)
  | @keep rest obj arc arc' htasks hget hcount =>
    obtain ⟨hobj, harc⟩ := h.inv.head htasks
    obtain rfl := Option.some.inj ((h.inv.getKeyValue_eq harc hobj).symm.trans hget)
    refine h.keeps_replace htasks (.dropped obj arc) (fun _ => rfl) fun a ha heq => ?_
    obtain rfl : arc = a := heq
    exact h.inv.two_le_totalRefs ha (h.held arc ha) hcount
  | @recheck rest obj arc arc' htasks _ _ =>
    exact h.keeps_replace htasks (.remove obj arc) (fun _ => rfl) fun _ _ => False.elim
  | @remove rest obj arc arc' htasks hget =>
    obtain ⟨hobj, harc, -⟩ := h.inv.head htasks
    obtain rfl := Option.some.inj ((h.inv.getKeyValue_eq harc hobj).symm.trans hget)
    refine h.keeps (fun a => List.mem_of_mem_erase) (fun a _ => ?_) ?_
    · rw [htasks, totalRefs_cons, totalRefs_cons]
      exact le_rfl
    · rw [htasks]
      refine Multiset.forall_mem_cons.mpr ⟨.inr fun a ha heq => ?_, fun u hu =>
        .inl (Multiset.mem_cons_of_mem hu)⟩
      obtain rfl : arc = a := heq
      exact absurd ha (h.inv.nodup.not_mem_erase)
  | @unlockSlow rest obj arc htasks =>
    refine h.keeps_replace htasks (.release arc) (fun _ => rfl) fun a ha heq => ?_
    exact h.leaving (.dropped obj arc) (htasks ▸ Multiset.mem_cons_self _ _) a ha heq
  | @release rest arc htasks =>
    constructor
    · intro a ha
      by_cases heq : arc = a
      · have htwo := h.leaving (.release arc) (htasks ▸ Multiset.mem_cons_self _ _) a ha heq
        rw [htasks, totalRefs_cons, Activity.refs, if_pos heq] at htwo
        show 1 ≤ totalRefs rest a
        omega
      · have hheld := h.held a ha
        rwa [htasks, totalRefs_cons, Activity.refs, if_neg heq, zero_add] at hheld
    · intro u hu a _ hleaves
      exact absurd hleaves (h.not_leaves htasks (by simp [Activity.work]) hu)

/-- The invariant of sequential runs holds in every state of one. -/
theorem SeqReachable.seqInv (h : SeqReachable shard s) : SeqInv shard s := by
  induction h with
  | init =>
    exact ⟨.init shard, by simp [busy, State.init], by simp [State.init], by simp [State.init]⟩
  | step _ hstep hone ih =>
    obtain ⟨hheld, hleaving⟩ := ih.step_held hstep
    exact ⟨ih.inv.step hstep, hone, hheld, hleaving⟩

/-- **One thread at a time leaves nothing behind.** When all is done, the map has the objects that
there are handles to.

**Proof sketch.** An entry of the map keeps a reference besides that of the map (`SeqInv`): the
handle that is dropped last sees the count of two, and nobody can add a handle before it takes the
entry out. When all is done the reference is that of a handle. -/
theorem SeqReachable.reclaims (h : SeqReachable shard s)
    (hdone : ∀ t ∈ s.tasks, ∃ a, t = .handle a) (a : Arc) :
    a ∈ s.map ↔ .handle a ∈ s.tasks := by
  have hinv := h.seqInv
  refine ⟨fun ha => ?_, fun ha => hinv.inv.ok _ ha⟩
  by_contra hnone
  have hzero : ∀ n ∈ s.tasks.map (Activity.refs a), n = 0 := by
    intro n hn
    obtain ⟨t, ht, rfl⟩ := Multiset.mem_map.mp hn
    obtain ⟨b, rfl⟩ := hdone t ht
    rw [Activity.refs, if_neg]
    rintro rfl
    exact hnone ht
  have hheld := hinv.held a ha
  rw [totalRefs, Multiset.sum_eq_zero hzero] at hheld
  cases hheld

/-- One thread makes two handles of one object, which is in the map as long as it has a handle: the
drop of the first one leaves the object there, and the drop of the last one takes it out. -/
theorem reclaims_dropped : ∃ s s' : State ℕ ℕ,
    (SeqReachable (· % 2) s ∧ s.tasks = .handle 0 ::ₘ 0 ∧ 0 ∈ s.map) ∧
      SeqReachable (· % 2) s' ∧ s'.tasks = 0 ∧ s'.heap = [7] ∧ 0 ∉ s'.map := by
  have hnew : SeqReachable (· % 2) (_ : State ℕ ℕ) :=
    .step .init (.new .init 7) (by decide)
  have hlock := hnew.step (@Step.lock _ _ _ _ _ _ 0 7 rfl rfl) (by decide)
  have hmissing := hlock.step (@Step.missing _ _ _ _ _ _ 0 7 rfl rfl) (by decide)
  have halloc := hmissing.step (@Step.alloc _ _ _ _ _ _ 0 7 rfl) (by decide)
  have hinsert := halloc.step (@Step.insert _ _ _ _ _ _ 0 7 0 rfl) (by decide)
  have hunlock := hinsert.step (@Step.unlock _ _ _ _ _ _ 0 7 0 rfl) (by decide)
  have hclone := hunlock.step (@Step.clone _ _ _ _ _ _ 0 0 rfl) (by decide)
  -- there are three references, so the first handle does not look at the map
  have hdrop := hclone.step (@Step.drop _ _ _ _ _ _ (.handle 0 ::ₘ 0) 0 rfl) (by decide)
  have hfast := hdrop.step (@Step.dropFast _ _ _ _ _ _ (.handle 0 ::ₘ 0) 0 rfl (by decide))
    (by decide)
  have hfirst := hfast.step (@Step.release _ _ _ _ _ _ (.handle 0 ::ₘ 0) 0 rfl) (by decide)
  -- there are two, so the second one does
  have hdrop' := hfirst.step (@Step.drop _ _ _ _ _ _ 0 0 rfl) (by decide)
  have hslow := hdrop'.step (@Step.dropSlow _ _ _ _ _ _ 0 0 rfl rfl) (by decide)
  have hlock' := hslow.step (@Step.lockSlow _ _ _ _ _ _ 0 7 0 rfl rfl rfl) (by decide)
  have hrecheck := hlock'.step (@Step.recheck _ _ _ _ _ _ 0 7 0 0 rfl rfl rfl) (by decide)
  have hremove := hrecheck.step (@Step.remove _ _ _ _ _ _ 0 7 0 0 rfl rfl) (by decide)
  have hunlock' := hremove.step (@Step.unlockSlow _ _ _ _ _ _ 0 7 0 rfl) (by decide)
  have hlast := hunlock'.step (@Step.release _ _ _ _ _ _ 0 0 rfl) (by decide)
  exact ⟨_, _, ⟨hfirst, rfl, (hfirst.reclaims (by simp) 0).mpr (Multiset.mem_cons_self _ 0)⟩,
    hlast, rfl, rfl, fun h => Multiset.notMem_zero _ ((hlast.reclaims (by simp) 0).mp h)⟩

end Sequential

end LiquidRust.Typeck.Intern
