import LiquidRust.Typeck.Dangling
import LiquidRust.Typeck.SubtypingSound
import LiquidRust.Typeck.Values

set_option relaxedAutoImplicit false
set_option autoImplicit false

/-!
# Writes and later reads

A place that is written is read later. If it leads to a location with a strong binding, the new
type is what is read. A weak binding keeps its type, which after unpacking has one index of its
own; only what a new value has to do with the bound is checked.

## Main definitions

* `LiquidRust.Typeck.TypeEnv.Prepared` — environments as the checker makes them: weak bindings are
  unpacked ones, and pointers form no cycle.
* `LiquidRust.Typeck.TypeEnv.WriteVisible` — the values of the new type are values of the type that
  is read.
* `LiquidRust.Typeck.TypeEnv.KeepsIndex` — a weak binding is only written with its own index.

## Main results

* `LiquidRust.Typeck.TypeEnv.wp_unpack_prepared`, `wp_writePlace_prepared` — unpacked and written
  environments are as described.
* `LiquidRust.Typeck.TypeEnv.writeVisible_iff` — when a write is visible.
-/

namespace LiquidRust.Typeck

open Lib Cursor
open Core.Ir (Place PlaceElem)

/-! ## Environments as the checker makes them -/

/-- What unpacking makes of a type, at a weak binding. -/
inductive Ty.Unpacks : Ty → Ty → Prop
  | exists_ (bty : BaseTy) (p : Pred) (x : Name) :
      Unpacks (.exists_ bty p) (.refine bty (.var (.free x)))
  | ref (ty : Ty) (loc : Loc) : Unpacks (.ref ty) (.strgRef loc)
  | refl (ty : Ty) : Unpacks ty ty

/-- The pointer of a type, below any references, leads to a location of a rank less than `k`. -/
def Ty.Below (rank : Loc → ℕ) (k : ℕ) : Ty → Prop
  | .strgRef loc => rank loc < k
  | .ref ty => ty.Below rank k
  | .refine _ _ | .exists_ _ _ | .uninit | .param _ => True

/-- The names that are made before `gen`. -/
abbrev namesBefore (gen : Name) : Set Name :=
  {x | x < gen}

/-- The locations that are named before `gen`. -/
def locsBefore (gen : Name) : Set Loc :=
  {loc | ∀ name, loc = .abstract name → name < gen}

/-- The names of a binding are in `N`. -/
def Binding.Scoped (N : Set Name) : Binding → Prop
  | .strong ty => ty.Scoped N
  | .weak bound ty => bound.Scoped N ∧ ty.Scoped N

namespace TypeEnv

/-- Every pointer leads to a location of a lower rank. -/
def Ranked (rank : Loc → ℕ) (env : TypeEnv) : Prop :=
  ∀ ⦃loc ty⦄, env.lookupLoc loc = some ty → ty.Below rank (rank loc)

/-- Pointers form no cycle. -/
def Acyclic (env : TypeEnv) : Prop :=
  ∃ rank : Loc → ℕ, env.Ranked rank

/-- **Environments as the checker makes them**, when the next name is `gen`. -/
structure Prepared (gen : Name) (env : TypeEnv) : Prop where
  names : ∀ ⦃loc binding⦄, env.bindings.lookup loc = some binding → binding.Scoped (namesBefore gen)
  unpacks : ∀ ⦃loc bound ty⦄, env.bindings.lookup loc = some (.weak bound ty) → bound.Unpacks ty
  locs : env.locSet ⊆ locsBefore gen
  pointers : env.Over Set.univ (locsBefore gen)
  acyclic : env.Acyclic

end TypeEnv

section Below

variable {rank rank' : Loc → ℕ} {k k' : ℕ} {L : Set Loc}

/-- A type that points below a rank points below a higher one. -/
lemma Ty.below_mono (hk : k ≤ k') : ∀ ty : Ty, ty.Below rank k → ty.Below rank k'
  | .strgRef _, h => lt_of_lt_of_le h hk
  | .ref ty, h => ty.below_mono hk h
  | .refine _ _, _ | .exists_ _ _, _ | .uninit, _ | .param _, _ => trivial

/-- The ranks are spread to make room between them. -/
lemma Ty.below_spread (hrank : ∀ loc ∈ L, rank' loc = 2 * rank loc + 1) : ∀ ty : Ty,
    ty.Within L → ty.Below rank k → ty.Below rank' (2 * k)
  | .strgRef loc, hL, h => by
    have hloc := hrank loc hL
    change rank loc < k at h
    show rank' loc < 2 * k
    omega
  | .ref ty, hL, h => ty.below_spread hrank hL h
  | .refine _ _, _, _ | .exists_ _ _, _, _ | .uninit, _, _ | .param _, _, _ => trivial

end Below

section Bindings

variable {N N' : Set Name} {binding : Binding}

/-- A binding over some names is over more. -/
lemma Binding.Scoped.mono (hN : N ⊆ N') (h : binding.Scoped N) : binding.Scoped N' := by
  cases binding with
  | strong ty => exact ty.scoped_mono hN h
  | weak bound ty => exact ⟨bound.scoped_mono hN h.1, ty.scoped_mono hN h.2⟩

/-- The type of a binding is over its names. -/
lemma Binding.Scoped.ty (h : binding.Scoped N) : binding.ty.Scoped N := by
  cases binding with
  | strong ty => exact h
  | weak bound ty => exact h.2

/-- Setting the type to one over the names keeps the binding so. -/
lemma Binding.Scoped.setTy {ty : Ty} (h : binding.Scoped N) (hty : ty.Scoped N) :
    (binding.setTy ty).Scoped N := by
  cases binding with
  | strong _ => exact hty
  | weak bound _ => exact ⟨h.1, hty⟩

/-- A binding has the type it is set to. -/
@[simp] lemma Binding.ty_setTy (ty : Ty) : (binding.setTy ty).ty = ty := by
  cases binding <;> rfl

end Bindings

/-- A later generation has more locations before it. -/
lemma locsBefore_mono {gen gen' : Name} (h : gen ≤ gen') : locsBefore gen ⊆ locsBefore gen' :=
  fun _ hloc name hname => lt_of_lt_of_le (hloc name hname) h

namespace TypeEnv

variable {env : TypeEnv} {gen gen' : Name} {loc : Loc} {ty : Ty} {binding : Binding}

/-- Inserting a type that points below its location keeps the ranks. -/
lemma Ranked.insert {rank : Loc → ℕ} (h : env.Ranked rank)
    (hty : binding.ty.Below rank (rank loc)) :
    Ranked rank ⟨env.bindings.insert loc binding⟩ := by
  intro loc' ty' h'
  by_cases hne : loc' = loc
  · subst hne
    rw [lookupLoc, AList.lookup_insert] at h'
    exact Option.some.inj h' ▸ hty
  · rw [lookupLoc, AList.lookup_insert_ne hne] at h'
    exact h h'

/-- No names are made, and none are used. -/
lemma prepared_new (gen : Name) : TypeEnv.new.Prepared gen where
  names := fun loc binding h => by cases h
  unpacks := fun loc bound ty h => by cases h
  locs := fun loc h => by cases h
  pointers := over_new
  acyclic := ⟨fun _ => 0, fun loc ty h => by cases h⟩

/-- More names are made. -/
lemma Prepared.mono (hgen : gen ≤ gen') (h : env.Prepared gen) : env.Prepared gen' where
  names := fun _ _ hb => (h.names hb).mono fun _ hx => lt_of_lt_of_le hx hgen
  unpacks := h.unpacks
  locs := h.locs.trans (locsBefore_mono hgen)
  pointers := h.pointers.mono le_rfl (locsBefore_mono hgen)
  acyclic := h.acyclic

/-- A binding of a location, if its pointers close no cycle. -/
lemma Prepared.insert (h : env.Prepared gen) (hnames : binding.Scoped (namesBefore gen))
    (hunpacks : ∀ bound ty, binding = .weak bound ty → bound.Unpacks ty)
    (hloc : loc ∈ locsBefore gen) (hpointers : binding.Over Set.univ (locsBefore gen))
    (hacyclic : Acyclic ⟨env.bindings.insert loc binding⟩) :
    Prepared gen ⟨env.bindings.insert loc binding⟩ where
  names := fun loc' binding' hb => by
    by_cases hne : loc' = loc
    · subst hne
      rw [AList.lookup_insert] at hb
      exact Option.some.inj hb ▸ hnames
    · rw [AList.lookup_insert_ne hne] at hb
      exact h.names hb
  unpacks := fun loc' bound ty hb => by
    by_cases hne : loc' = loc
    · subst hne
      rw [AList.lookup_insert] at hb
      exact hunpacks bound ty (Option.some.inj hb)
    · rw [AList.lookup_insert_ne hne] at hb
      exact h.unpacks hb
  locs := by
    rw [locSet_insert]
    exact Set.insert_subset hloc h.locs
  pointers := h.pointers.insert hpointers
  acyclic := hacyclic

/-- What unpacking makes of a type: an index of its own for an existential. -/
lemma wp_unpackTy {c : Cursor} (hty : ty.Scoped (namesBefore c.builder.nameGen)) :
    wp (Cursor.unpack ty) (fun ty' c' => c.builder.nameGen ≤ c'.builder.nameGen ∧
      ty'.Scoped (namesBefore c'.builder.nameGen) ∧
      (ty' = ty ∨ ∃ bty p x, ty = .exists_ bty p ∧ ty' = .refine bty (.var (.free x))))
      (fun _ => True) c := by
  cases ty with
  | exists_ bty p =>
    let x := c.builder.nameGen
    have hgen : wp (Cursor.pushForall x bty.sort (p.substBoundVars (.var (.free x))))
        (fun _ c' => c'.builder.nameGen = x + 1) (fun _ => True)
        { c with builder := { c.builder with nameGen := x + 1 } } := by
      rw [Cursor.pushForall, wp_bind]
      exact wp_pushNode (fun root i _ => rfl) fun _ => trivial
    rw [Cursor.unpack, wp_bind, wp_freshName, wp_bind]
    refine wp_imp hgen fun _ c' hc' => ?_
    rw [wp_pure, hc']
    refine ⟨Nat.le_succ x, ⟨bty.scoped_mono (fun y hy => ?_) hty.1, Nat.lt_succ_self x⟩,
      .inr ⟨bty, p, x, rfl, rfl⟩⟩
    exact Nat.lt_succ_of_lt hy
  | _ => exact ⟨le_rfl, hty, .inl rfl⟩

/-- A reference of unknown location becomes a pointer to a new location. -/
lemma Prepared.insertFresh {name : Name} {ty' : Ty} (h : env.Prepared gen)
    (hb : env.bindings.lookup loc = some binding) (hty : binding.ty = .ref ty) (hname : gen ≤ name)
    (hgen : name < gen') (hscoped : ty'.Scoped (namesBefore gen'))
    (hunpacked : ty' = ty ∨ ∃ bty p x, ty = .exists_ bty p ∧
      ty' = .refine bty (.var (.free x))) :
    Prepared gen' ⟨(env.bindings.insert loc (binding.setTy (.strgRef (.abstract name)))).insert
      (.abstract name) (.weak ty ty')⟩ := by
  have hgen' : gen ≤ gen' := (hname.trans_lt hgen).le
  have hnames : ty.Scoped (namesBefore gen') := by
    have := (h.names hb).ty
    rw [hty] at this
    exact ty.scoped_mono (fun x hx => lt_of_lt_of_le hx hgen') this
  have hwithin : ty.Within (locsBefore gen) := by
    have := (h.pointers hb).ty
    rwa [hty] at this
  have hfresh : Loc.abstract name ∉ locsBefore gen := fun hmem =>
    absurd (hmem name rfl) (not_lt.mpr hname)
  have hmade : Loc.abstract name ∈ locsBefore gen' := by
    rintro _ ⟨⟩
    exact hgen
  have hloc : loc ∈ locsBefore gen := h.locs (AList.lookup_isSome.mp (by simp [hb]))
  have hne : loc ≠ .abstract name := fun heq => hfresh (heq ▸ hloc)
  -- the new location is ranked between the old one and those that are below it
  obtain ⟨rank, hrank⟩ := h.acyclic
  let rank' : Loc → ℕ := fun l => if l = .abstract name then 2 * rank loc else 2 * rank l + 1
  have hrank' : ∀ l ∈ locsBefore gen, rank' l = 2 * rank l + 1 := fun l hl =>
    if_neg fun (heq : l = .abstract name) => hfresh (heq ▸ hl)
  have hspread : env.Ranked rank' := by
    intro l t hl
    have hbelow := Ty.below_spread hrank' t (h.pointers.lookupLoc hl) (hrank hl)
    rw [hrank' l (h.locs (mem_of_lookupLoc hl))]
    exact Ty.below_mono (Nat.le_succ _) t hbelow
  have hptr : (Ty.strgRef (.abstract name)).Below rank' (rank' loc) := by
    show rank' (.abstract name) < rank' loc
    rw [hrank' loc hloc, show rank' (.abstract name) = 2 * rank loc from if_pos rfl]
    omega
  have hbelow : ty'.Below rank' (rank' (.abstract name)) := by
    rw [show rank' (.abstract name) = 2 * rank loc from if_pos rfl]
    rcases hunpacked with rfl | ⟨bty, p, x, -, rfl⟩
    · have hlookup : env.lookupLoc loc = some (.ref ty') := by rw [lookupLoc, hb, ← hty]; rfl
      have hold := hrank hlookup
      exact Ty.below_spread hrank' ty' hwithin hold
    · trivial
  have hmid : Prepared gen'
      ⟨env.bindings.insert loc (binding.setTy (.strgRef (.abstract name)))⟩ := by
    refine (h.mono hgen').insert (((h.names hb).mono fun x hx => lt_of_lt_of_le hx hgen').setTy
      trivial) (fun bound ty₁ heq => ?_) (locsBefore_mono hgen' hloc)
      (((h.pointers hb).mono le_rfl (locsBefore_mono hgen')).setTy hmade)
      ⟨rank', hspread.insert (by rwa [Binding.ty_setTy])⟩
    cases binding with
    | strong _ => cases heq
    | weak bound₀ ty₀ =>
      cases heq
      obtain rfl : ty₀ = .ref ty := hty
      cases h.unpacks hb
      exact .ref ty _
  have hpointers := Ty.Over.mono le_rfl (locsBefore_mono hgen') hwithin
  refine hmid.insert ⟨hnames, hscoped⟩ (fun bound ty₁ heq => ?_) hmade ⟨hpointers, ?_⟩
    ⟨rank', (hspread.insert (by rwa [Binding.ty_setTy])).insert hbelow⟩
  · cases heq
    rcases hunpacked with rfl | ⟨bty, p, x, rfl, rfl⟩
    · exact .refl ty'
    · exact .exists_ bty p x
  · rcases hunpacked with rfl | ⟨bty, p, x, rfl, rfl⟩
    · exact hpointers
    · exact ⟨hpointers.1, trivial⟩

/-- An existential gets an index of its own. -/
lemma Prepared.setUnpacked {bty : BaseTy} {p : Pred} {ty' : Ty} (h : env.Prepared gen)
    (hb : env.bindings.lookup loc = some binding) (hty : binding.ty = .exists_ bty p)
    (hgen : gen ≤ gen') (hscoped : ty'.Scoped (namesBefore gen'))
    (hunpacked : ty' = .exists_ bty p ∨ ∃ x, ty' = .refine bty (.var (.free x))) :
    Prepared gen' ⟨env.bindings.insert loc (binding.setTy ty')⟩ := by
  have h' := h.mono hgen
  have hwithin := (h'.pointers hb).ty
  rw [hty] at hwithin
  obtain ⟨rank, hrank⟩ := h'.acyclic
  have hloc : loc ∈ locsBefore gen' := h'.locs (AList.lookup_isSome.mp (by simp [hb]))
  refine h'.insert ((h'.names hb).setTy hscoped) (fun bound ty₁ heq => ?_) hloc
    ((h'.pointers hb).setTy ?_) ⟨rank, hrank.insert ?_⟩
  · cases binding with
    | strong _ => cases heq
    | weak bound₀ ty₀ =>
      cases heq
      obtain rfl : ty₀ = .exists_ bty p := hty
      cases h.unpacks hb
      rcases hunpacked with rfl | ⟨x, rfl⟩
      · exact .refl _
      · exact .exists_ bty p x
  · rcases hunpacked with rfl | ⟨x, rfl⟩
    · exact hwithin
    · exact ⟨hwithin.1, trivial⟩
  · rw [Binding.ty_setTy]
    rcases hunpacked with rfl | ⟨x, rfl⟩ <;> trivial

/-- Unpacking at a location keeps the environment prepared. -/
lemma wp_unpackLoc_prepared {c : Cursor} (h : env.Prepared c.builder.nameGen) (loc : Loc) :
    wp (env.unpackLoc loc) (fun env' c' => env'.Prepared c'.builder.nameGen) (fun _ => True) c := by
  rw [unpackLoc, wp_bind, wp_orFail]
  refine ⟨fun binding hb => ?_, fun _ => trivial⟩
  dsimp only
  split
  · next bty p hty =>
    have hscoped := (h.names hb).ty
    rw [hty] at hscoped
    rw [wp_bind]
    refine wp_imp (wp_unpackTy hscoped) fun ty' c' ⟨hgen, hscoped', hunpacked⟩ => ?_
    rw [wp_pure]
    refine h.setUnpacked hb hty hgen hscoped' (hunpacked.imp_right ?_)
    rintro ⟨bty', p', x, heq, rfl⟩
    cases heq
    exact ⟨x, rfl⟩
  · next ty hty =>
    have hscoped := (h.names hb).ty
    rw [hty] at hscoped
    rw [wp_bind, wp_freshName, wp_bind]
    have hscoped' : ty.Scoped (namesBefore (c.builder.nameGen + 1)) :=
      ty.scoped_mono (fun x hx => Nat.lt_succ_of_lt hx) hscoped
    refine wp_imp (wp_unpackTy hscoped') fun ty' c' ⟨hgen, hty', hunpacked⟩ => ?_
    rw [wp_pure]
    exact h.insertFresh hb hty le_rfl hgen hty' hunpacked
  · exact h

/-- **An unpacked environment** is as the checker makes it. -/
theorem wp_unpack_prepared (tcx : Tcx) {c : Cursor} (h : env.Prepared c.builder.nameGen) :
    wp (env.unpack tcx) (fun env' c' => env'.Prepared c'.builder.nameGen) (fun _ => True) c := by
  unfold unpack
  exact wp_foldlM (fun loc _ env' _ h' => wp_unpackLoc_prepared h' loc) h

/-! ## Places after a write -/

/-- A place leads to a bound location, of a lower rank than any location on the way. -/
lemma Ranked.walkProjection {rank : Loc → ℕ} (h : env.Ranked rank) {projection : List PlaceElem}
    {loc' : Loc} {ty' : Ty} (hty : env.lookupLoc loc = some ty)
    (hwalk : env.walkProjection loc ty projection = .ok (loc', ty')) :
    env.lookupLoc loc' = some ty' ∧ rank loc' ≤ rank loc ∧
      (projection ≠ [] → rank loc' < rank loc) := by
  induction projection generalizing loc ty with
  | nil =>
    cases hwalk
    exact ⟨hty, le_rfl, fun hne => absurd rfl hne⟩
  | cons elem projection ih =>
    cases ty with
    | strgRef referee =>
      cases hreferee : env.lookupLoc referee with
      | none =>
        rw [TypeEnv.walkProjection, hreferee] at hwalk
        cases hwalk
      | some rty =>
        rw [TypeEnv.walkProjection, hreferee] at hwalk
        obtain ⟨hloc', hle, -⟩ := ih hreferee hwalk
        have hlt : rank referee < rank loc := h hty
        exact ⟨hloc', by omega, fun _ => by omega⟩
    | _ => cases hwalk

/-- **The place leads to the location that is written**, whatever is written there. -/
lemma Ranked.walkProjection_insertLoc {rank : Loc → ℕ} (h : env.Ranked rank) (new_ty : Ty)
    {projection : List PlaceElem} {loc' : Loc} {ty' : Ty}
    (hty : env.lookupLoc loc = some ty)
    (hwalk : env.walkProjection loc ty projection = .ok (loc', ty')) :
    ∃ ty₁, (env.insertLoc loc' new_ty).lookupLoc loc = some ty₁ ∧
      (env.insertLoc loc' new_ty).walkProjection loc ty₁ projection = .ok (loc', new_ty) := by
  induction projection generalizing loc ty with
  | nil =>
    cases hwalk
    exact ⟨new_ty, lookupLoc_insertLoc_self, rfl⟩
  | cons elem projection ih =>
    obtain ⟨-, -, hlt⟩ := h.walkProjection hty hwalk
    have hne : loc ≠ loc' := by
      rintro rfl
      exact (hlt (by simp)).false
    cases ty with
    | strgRef referee =>
      cases hreferee : env.lookupLoc referee with
      | none =>
        rw [TypeEnv.walkProjection, hreferee] at hwalk
        cases hwalk
      | some rty =>
        rw [TypeEnv.walkProjection, hreferee] at hwalk
        obtain ⟨ty₁, hty₁, hwalk₁⟩ := ih hreferee hwalk
        refine ⟨.strgRef referee, by rw [lookupLoc_insertLoc_of_ne hne, hty], ?_⟩
        rw [TypeEnv.walkProjection, hty₁]
        exact hwalk₁
    | _ => cases hwalk

/-- Walking down a place starts at the type of its local. -/
lemma walkPlace_eq_ok {place : Place} {loc' : Loc} {ty' : Ty} :
    env.walkPlace place = .ok (loc', ty') ↔ ∃ ty, env.lookupLoc (.local_ place.local_) = some ty ∧
      env.walkProjection (.local_ place.local_) ty place.projection = .ok (loc', ty') := by
  cases hty : env.lookupLoc (.local_ place.local_) with
  | none =>
    rw [walkPlace, hty]
    constructor
    · intro h
      cases h
    · rintro ⟨_, h, _⟩
      cases h
  | some ty =>
    rw [walkPlace, hty]
    refine ⟨fun h => ⟨ty, rfl, h⟩, ?_⟩
    rintro ⟨ty₁, heq, h⟩
    cases heq
    exact h

/-- A place leads to a bound location. -/
lemma lookupLoc_of_walkProjection {projection : List PlaceElem} {ty ty' : Ty} {loc' : Loc}
    (hty : env.lookupLoc loc = some ty)
    (hwalk : env.walkProjection loc ty projection = .ok (loc', ty')) :
    env.lookupLoc loc' = some ty' := by
  induction projection generalizing loc ty with
  | nil =>
    cases hwalk
    exact hty
  | cons elem projection ih =>
    cases ty with
    | strgRef referee =>
      rw [walkProjection] at hwalk
      cases hreferee : env.lookupLoc referee with
      | none =>
        rw [hreferee] at hwalk
        cases hwalk
      | some rty =>
        rw [hreferee] at hwalk
        exact ih hreferee hwalk
    | _ => cases hwalk

end TypeEnv

/-! ## Visible writes -/

/-- A label's hypothesis is true. -/
def Label.Holds (I : Interp) (ρ : Valuation) : Label → Prop
  | forAll x sort p => (ρ (.free x)).sort = sort ∧ p.Holds I ρ
  | guard e => e.Holds I ρ

/-- The hypotheses on the path of a cursor are true. -/
def Cursor.Assumes (c : Cursor) (I : Interp) (ρ : Valuation) : Prop :=
  ∀ ls, c.builder.root.labelsAt c.node = some ls → ∀ l ∈ ls, l.Holds I ρ

namespace TypeEnv

variable (tcx : Tcx) (H : Interp → Valuation → Prop)

/-- **A write is visible**: wherever the nodes that it pushes are true, every value of the new type
is a value of the type that the place has afterwards. `H` is what else is known. -/
def WriteVisible (c : Cursor) (place : Place) (new_ty : Ty) (env' : TypeEnv) (c' : Cursor) : Prop :=
  ∃ nodes ty, Node.append nodes c.builder.root c.node = some c'.builder.root ∧
    env'.lookupPlace place = .ok ty ∧
    ∀ I ρ S, H I ρ → Node.AllHold I ρ nodes →
      ∀ u, new_ty.Has tcx S I ρ u → ty.Has tcx S I ρ u

/-- **A weak binding keeps its index**: where the place leads to a location that is bound weakly by
an existential, the new type may have no index but that of the location's type, as far as its
indices are let through by the bound. -/
def KeepsIndex (env : TypeEnv) (place : Place) (new_ty : Ty) : Prop :=
  ∀ loc bty p e, env.getLoc place = .ok loc →
    env.bindings.lookup loc = some (.weak (.exists_ bty p) (.refine bty e)) →
    ∀ I ρ, H I ρ → Ty.Asks tcx I ρ new_ty (.exists_ bty p) →
      ∀ v, new_ty.HasIndex I ρ v → e.eval I.div ρ = some v

variable {tcx H} {env env' : TypeEnv} {c c' : Cursor} {place : Place} {loc : Loc} {new_ty : Ty}

/-- What an update can end with: a strong binding gets the new type; at a weak one nothing changes,
and the nodes that are pushed compare the new type with the bound. -/
def Updated (tcx : Tcx) (env : TypeEnv) (c : Cursor) (loc : Loc) (new_ty : Ty) (env' : TypeEnv)
    (c' : Cursor) : Prop :=
  (∃ ty, env.bindings.lookup loc = some (.strong ty) ∧ env' = env.insertLoc loc new_ty ∧ c' = c) ∨
    ∃ bound ty, env.bindings.lookup loc = some (.weak bound ty) ∧ env' = env ∧
      ∃ nodes, c.Appends c' nodes ∧ ∀ I ρ, Node.AllHold I ρ nodes ↔ Ty.Asks tcx I ρ new_ty bound

/-- `update_loc` writes a strong binding, and compares with the bound of a weak one. -/
lemma wp_updateLoc (hc : c.Valid) (henv : env.Prepared c.builder.nameGen)
    (hty : new_ty.Scoped (namesBefore c.builder.nameGen)) :
    wp (env.updateLoc tcx loc new_ty) (Updated tcx env c loc new_ty) (fun _ => True) c := by
  rw [updateLoc, wp_bind, wp_orFail]
  refine ⟨fun binding hb => ?_, fun _ => trivial⟩
  cases binding with
  | strong ty => exact .inl ⟨ty, hb, rfl, rfl⟩
  | weak bound ty =>
    rw [wp_bind]
    refine wp_imp (obliges_subtyping hc (fun _ hx => hx) hty (henv.names hb).1)
      fun _ c' ⟨nodes, happ, hnodes⟩ => ?_
    exact .inr ⟨bound, ty, hb, rfl, nodes, happ, hnodes⟩

/-- A write updates the location that the place leads to. -/
lemma wp_writePlace (hc : c.Valid) (henv : env.Prepared c.builder.nameGen)
    (hty : new_ty.Scoped (namesBefore c.builder.nameGen)) :
    wp (env.writePlace tcx place new_ty)
      (fun env' c' => ∃ loc ty, env.walkPlace place = .ok (loc, ty) ∧
        Updated tcx env c loc new_ty env' c') (fun _ => True) c := by
  rw [writePlace, wp_bind, wp_ofExcept]
  cases hwalk : env.walkPlace place with
  | error f => trivial
  | ok p =>
    obtain ⟨loc, ty⟩ := p
    have hupdate := wp_imp (wp_updateLoc hc henv hty) fun env' c' h =>
      (⟨loc, ty, rfl, h⟩ : ∃ loc₁ ty₁, (Except.ok (loc, ty) : Except Failure _) = .ok (loc₁, ty₁) ∧
        Updated tcx env c loc₁ new_ty env' c')
    cases ty with
    | ref ty => trivial
    | exists_ bty p => trivial
    | _ => exact hupdate

/-- **A written environment** is as the checker makes it, if the new type closes no cycle. -/
theorem wp_writePlace_prepared (hc : c.Valid) (henv : env.Prepared c.builder.nameGen)
    (hty : new_ty.Scoped (namesBefore c.builder.nameGen))
    (hpointers : new_ty.Within (locsBefore c.builder.nameGen))
    (hacyclic : ∃ rank, env.Ranked rank ∧
      ∀ loc, env.getLoc place = .ok loc → new_ty.Below rank (rank loc)) :
    wp (env.writePlace tcx place new_ty) (fun env' c' => env'.Prepared c'.builder.nameGen)
      (fun _ => True) c := by
  refine wp_imp (wp_writePlace hc henv hty) fun env' c' hwrite => ?_
  obtain ⟨loc, ty, hwalk, hupdated⟩ := hwrite
  obtain ⟨ty', hb, rfl, rfl⟩ | ⟨bound, ty', hb, rfl, nodes, happ, -⟩ := hupdated
  · obtain ⟨rank, hrank, hnew⟩ := hacyclic
    have hgetLoc : env.getLoc place = .ok loc := by rw [getLoc, hwalk]; rfl
    have hloc : loc ∈ locsBefore c'.builder.nameGen :=
      henv.locs (AList.lookup_isSome.mp (by simp [hb]))
    exact henv.insert hty (fun _ _ h => by cases h) hloc hpointers
      ⟨rank, hrank.insert (hnew loc hgetLoc)⟩
  · exact henv.mono happ.le.nameGen

/-- **When a write is visible.** A write is visible iff a weak binding that the place leads to
keeps its index.

**Proof sketch.** The place leads to a location, which is bound strongly or weakly. A strong
binding gets the new type, and the walk to it does not go through the location, since pointers
form no cycle. At a weak binding the type stays and the new type is compared with the bound: a
value of the new type whose index is not the one of the binding is not visible, and if there is
none, every value has that index. -/
theorem writeVisible_iff (hc : c.Valid) (henv : env.Prepared c.builder.nameGen)
    (hty : new_ty.Scoped (namesBefore c.builder.nameGen))
    (hrun : (env.writePlace tcx place new_ty).run c = .ok (env', c')) :
    WriteVisible tcx H c place new_ty env' c' ↔ env.KeepsIndex tcx H place new_ty := by
  obtain ⟨loc, ty, hwalk, hupdated⟩ := wp_of_run_ok (wp_writePlace hc henv hty) hrun
  obtain ⟨ty₀, hty₀, hproj⟩ := walkPlace_eq_ok.mp hwalk
  obtain ⟨rank, hrank⟩ := henv.acyclic
  have hgetLoc : env.getLoc place = .ok loc := by rw [getLoc, hwalk]; rfl
  obtain ⟨ty', hb, rfl, rfl⟩ | ⟨bound, ty', hb, rfl, nodes, happ, hnodes⟩ := hupdated
  · -- a strong binding: the new type is read
    obtain ⟨ty₁, hty₁, hproj₁⟩ := hrank.walkProjection_insertLoc new_ty hty₀ hproj
    have hlookup : (env.insertLoc loc new_ty).lookupPlace place = .ok new_ty := by
      rw [lookupPlace, walkPlace_eq_ok.mpr ⟨ty₁, hty₁, hproj₁⟩]
      rfl
    refine iff_of_true ⟨[], new_ty, (Appends.nil hc).root, hlookup, fun I ρ S _ _ u hu => hu⟩ ?_
    intro loc' bty p e hloc' hb'
    obtain rfl := Except.ok.inj (hgetLoc.symm.trans hloc')
    cases hb.symm.trans hb'
  · -- a weak binding: the type of before is read
    have hlookup : env'.lookupPlace place = .ok ty' := by
      have hty' := (hrank.walkProjection hty₀ hproj).1
      rw [lookupLoc, hb] at hty'
      rw [lookupPlace, hwalk]
      exact congrArg Except.ok (Option.some.inj hty').symm
    constructor
    · -- the value with the index in question shows that it is the current one
      rintro ⟨nodes', ty'', happ', hlookup', hvisible⟩ loc' bty p e hloc' hb' I ρ hH hasks v hv
      obtain rfl := Except.ok.inj (hgetLoc.symm.trans hloc')
      obtain rfl := Except.ok.inj (hlookup.symm.trans hlookup')
      obtain rfl := Node.append_inj happ.root happ'
      cases hb.symm.trans hb'
      obtain ⟨u, hu, hindex⟩ := hv.exists_has tcx (fun _ => .int 0)
      obtain ⟨-, w, hw, he⟩ := hvisible I ρ _ hH ((hnodes I ρ).mpr hasks) u hu
      rw [he, ← hw, hindex]
    · intro hkeeps
      refine ⟨nodes, ty', happ.root, hlookup, fun I ρ S hH hholds u hu => ?_⟩
      have hasks := (hnodes I ρ).mp hholds
      have hbound := hasks.has hu
      cases henv.unpacks hb with
      | refl => exact hbound
      | ref ty loc' =>
        -- nothing is compared with a reference
        cases new_ty <;> simp only [Ty.Asks] at hasks
      | exists_ bty p x =>
        obtain ⟨hbty, v, hv, -⟩ := hbound
        refine ⟨hbty, v, hv, hkeeps loc bty p _ hgetLoc hb I ρ hH hasks v (hu.hasIndex ?_ hv)⟩
        cases new_ty <;> first | trivial | simp only [Ty.Asks] at hasks

/-! ### A reference to a nonnegative integer -/

/-- The nonnegative integers. -/
def natTy : Ty :=
  .exists_ (.int .i32) (.expr (.binaryOp .ge (.var .bound) .zero))

/-- An argument that is a reference. -/
def refEnv : TypeEnv :=
  TypeEnv.new.insertLoc (.local_ 0) (.ref natTy)

/-- The environment after unpacking. -/
def weakEnv : TypeEnv :=
  ⟨(AList.insert (.local_ 0) (.strong (.strgRef (.abstract 0))) ∅).insert (.abstract 0)
    (.weak natTy (.refine (.int .i32) (.var (.free 1))))⟩

/-- The cursor after unpacking, with nodes below the quantifier. -/
def weakCursor (nodes : List Node) : Cursor where
  builder :=
    { root := .conj [.forAll 1 .int (.expr (.binaryOp .ge (.var (.free 1)) .zero)) nodes]
      kvars := []
      scopes := []
      vars := [(1, .int)]
      nameGen := 2 }
  node := [0]
  nscopes := 0
  nvars := 1

/-- What the reference leads to. -/
def derefPlace : Place :=
  ⟨0, [.deref]⟩

/-- The cursor of the example is valid. -/
lemma valid_weakCursor : (weakCursor []).Valid :=
  ⟨⟨_, rfl, rfl⟩, le_rfl, by simp [weakCursor]⟩

/-- The environment with the reference is prepared. -/
lemma prepared_refEnv : refEnv.Prepared 0 := by
  refine (prepared_new 0).insert ⟨trivial, trivial, trivial⟩ (fun _ _ h => nomatch h)
    (fun _ h => nomatch h) ⟨trivial, trivial, trivial⟩ ⟨fun _ => 0, Ranked.insert ?_ trivial⟩
  exact fun loc ty h => nomatch h

/-- Unpacking it gives the one with a weak binding. -/
lemma unpack_refEnv : (refEnv.unpack (.ofStack 3)).run ConstraintBuilder.new.asCursor =
    .ok (weakEnv, weakCursor []) := rfl

/-- The environment with the weak binding is prepared. -/
lemma prepared_weakEnv : weakEnv.Prepared (weakCursor []).builder.nameGen := by
  have h := wp_unpack_prepared (.ofStack 3) (c := ConstraintBuilder.new.asCursor) prepared_refEnv
  have h' := wp_of_run_ok h unpack_refEnv
  exact h'

/-- The write of the index that is there already is visible. -/
theorem writeVisible_iff_weak :
    WriteVisible (.ofStack 3) (fun _ _ => True) (weakCursor []) derefPlace
      (.refine (.int .i32) (.var (.free 1))) weakEnv
      (weakCursor [.head (.expr (.binaryOp .ge (.var (.free 1)) .zero))]) := by
  have hty : (Ty.refine (.int .i32) (.var (.free 1))).Scoped
      (namesBefore (weakCursor []).builder.nameGen) := ⟨trivial, Nat.one_lt_two⟩
  refine (writeVisible_iff valid_weakCursor prepared_weakEnv hty rfl).mpr ?_
  intro loc bty p e hloc hb I ρ _ _ v hv
  obtain rfl : Loc.abstract 0 = loc := Except.ok.inj hloc
  cases hb
  exact hv.2

/-- **A write may stay unseen**: `1` is written where the index is any nonnegative integer. -/
theorem not_writeVisible_one : ¬∀ (tcx : Tcx) (env env' : TypeEnv) (c c' : Cursor) (place : Place)
    (new_ty : Ty), c.Valid → env.Prepared c.builder.nameGen →
    new_ty.Scoped (namesBefore c.builder.nameGen) →
    (env.writePlace tcx place new_ty).run c = .ok (env', c') →
    WriteVisible tcx c.Assumes c place new_ty env' c' := by
  intro h
  let one : Expr := .constant (.ofI128 1)
  let head : Node := .head (.expr (.binaryOp .ge one .zero))
  obtain ⟨nodes, ty, hnodes, hty, hvisible⟩ := h (.ofStack 3) weakEnv weakEnv (weakCursor [])
    (weakCursor [head]) derefPlace (.refine (.int .i32) one) valid_weakCursor prepared_weakEnv
    ⟨trivial, trivial⟩ rfl
  obtain rfl : [head] = nodes := Node.append_inj rfl hnodes
  obtain rfl : Ty.refine (.int .i32) (.var (.free 1)) = ty := Except.ok.inj hty
  -- the index of before is five
  let I : Interp := ⟨fun _ _ => 0, fun _ _ => True⟩
  have hassumes : (weakCursor []).Assumes I fun _ => .int 5 := by
    intro ls hls l hl
    obtain rfl := Option.some.inj hls
    obtain rfl := List.mem_singleton.mp hl
    exact ⟨rfl, rfl⟩
  obtain ⟨-, v, hv, he⟩ := hvisible I (fun _ => .int 5) (fun _ => .int 0) hassumes ⟨rfl, trivial⟩
    (.int 1) ⟨trivial, .int 1, rfl, rfl⟩
  cases hv
  cases he

end TypeEnv

end LiquidRust.Typeck
