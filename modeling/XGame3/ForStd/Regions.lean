import Mathlib.Data.Set.Lattice
import Mathlib.Order.CompletePartialOrder
import Mathlib.Logic.Pairwise

/-!
# Objects in disjoint regions of one memory

A `Region` is what some cells of a memory hold, as a relation that looks at no other cell.
An `Object` is a region with calls: run on the memory a call answers as its specification
does on the state the cells hold, and it changes none but its own cells.  Objects whose
cells are disjoint may be called in any order through the one memory: together they are
the product of their specifications, and each answers as if the others did not exist.

Key results:
- `AllHold.update`: a change to one region, seen by all of them.
- `run_refines`: calls in any order are calls of the product.
- `repliesTo_specRun`: what one object answers depends on its own calls alone.
-/

namespace XGame3.Regions

universe u v w x y z

variable {A : Type u} {β : Type v} {S : Type w} {Op : Type x} {Res : Type y} {ι : Type z}

/-! ## Regions -/

/-- The memories are the same on these cells. -/
def Agree (cells : Set A) (mem mem' : A → β) : Prop := ∀ a ∈ cells, mem' a = mem a

/-- A memory agrees with itself. -/
theorem Agree.refl (cells : Set A) (mem : A → β) : Agree cells mem mem := fun _ _ => rfl

/-- Agreement is transitive, -/
theorem Agree.trans {cells : Set A} {mem₁ mem₂ mem₃ : A → β} (h₁ : Agree cells mem₁ mem₂)
    (h₂ : Agree cells mem₂ mem₃) : Agree cells mem₁ mem₃ :=
  fun a ha => (h₂ a ha).trans (h₁ a ha)

/-- and holds on fewer cells. -/
theorem Agree.mono {cells cells' : Set A} {mem mem' : A → β} (h : Agree cells mem mem')
    (hsub : cells' ⊆ cells) : Agree cells' mem mem' :=
  fun a ha => h a (hsub ha)

/-- Cells of a memory and what it is for them to hold a state. -/
structure Region (A : Type u) (β : Type v) (S : Type w) where
  own : Set A
  holds : (A → β) → S → Prop
  holds_of_agree : ∀ {mem mem' : A → β} {s : S}, Agree own mem mem' → holds mem s → holds mem' s

/-- Every region of a family holds its state. -/
def AllHold (R : ι → Region A β S) (mem : A → β) (σ : ι → S) : Prop := ∀ i, (R i).holds mem (σ i)

/-- A change that stays within one region leaves every other as it was. -/
theorem AllHold.update [DecidableEq ι] {R : ι → Region A β S} {mem mem' : A → β} {σ : ι → S}
    {s : S} {i : ι} (h : AllHold R mem σ)
    (apart : Pairwise fun i j => Disjoint (R i).own (R j).own)
    (hframe : Agree ((R i).own)ᶜ mem mem') (hs : (R i).holds mem' s) :
    AllHold R mem' (Function.update σ i s) := by
  intro j
  by_cases hj : j = i
  · subst hj
    simpa using hs
  · -- the cells of `j` are none of those of `i`
    have hsub : (R j).own ⊆ ((R i).own)ᶜ := Set.subset_compl_iff_disjoint_right.mpr (apart hj)
    simpa [hj] using (R j).holds_of_agree (hframe.mono hsub) (h j)

/-! ## Specifications side by side -/

/-- Calls of one specification. -/
def soloRun (spec : S → Op → Res × S) : S → List Op → List Res × S
  | s, [] => ([], s)
  | s, op :: ops =>
    let r := spec s op
    let rs := soloRun spec r.2 ops
    (r.1 :: rs.1, rs.2)

section Product

variable [DecidableEq ι]

/-- Calls of several, each with a state of its own. -/
def specRun (spec : ι → S → Op → Res × S) : (ι → S) → List (ι × Op) → List Res × (ι → S)
  | σ, [] => ([], σ)
  | σ, c :: calls =>
    let r := spec c.1 (σ c.1) c.2
    let rs := specRun spec (Function.update σ c.1 r.2) calls
    (r.1 :: rs.1, rs.2)

/-- The calls of one of them. -/
def callsTo (i : ι) (calls : List (ι × Op)) : List Op :=
  calls.filterMap fun c => if c.1 = i then some c.2 else none

/-- The answers to the calls of one of them, among those to all calls. -/
def repliesTo (i : ι) (calls : List (ι × Op)) (rs : List Res) : List Res :=
  (calls.zip rs).filterMap fun c => if c.1.1 = i then some c.2 else none

variable (spec : ι → S → Op → Res × S)

/-- The own calls are answered as if there were no others. -/
theorem repliesTo_specRun (σ : ι → S) (calls : List (ι × Op)) (i : ι) :
    repliesTo i calls (specRun spec σ calls).1 = (soloRun (spec i) (σ i) (callsTo i calls)).1 := by
  induction calls generalizing σ with
  | nil => rfl
  | cons c calls ih =>
    obtain ⟨j, op⟩ := c
    have hrest := ih (Function.update σ j (spec j (σ j) op).2)
    unfold repliesTo at hrest
    by_cases hj : j = i
    · subst hj
      simpa [specRun, repliesTo, callsTo, soloRun] using hrest
    · simpa [specRun, repliesTo, callsTo, hj, Ne.symm hj] using hrest

end Product

/-! ## Objects -/

/-- A region with calls.  `exec` is `none` where a call on the memory goes wrong. -/
structure Object (A : Type u) (β : Type v) (S : Type w) (Op : Type x) (Res : Type y) extends
    Region A β S where
  exec : (A → β) → Op → Option (Res × (A → β))
  spec : S → Op → Res × S
  admits : Op → Prop
  exec_spec : ∀ {mem : A → β} {s : S} {op : Op}, holds mem s → admits op →
    ∃ mem', exec mem op = some ((spec s op).1, mem') ∧ holds mem' (spec s op).2 ∧
      Agree ownᶜ mem mem'

variable (O : ι → Object A β S Op Res)

/-- Calls of the objects one after another on the memory. -/
def run : (A → β) → List (ι × Op) → Option (List Res × (A → β))
  | mem, [] => some ([], mem)
  | mem, c :: calls => do
    let r ← (O c.1).exec mem c.2
    let rs ← run r.2 calls
    some (r.1 :: rs.1, rs.2)

/-- Calls in any order answer as those of the product do, and leave the cells that belong to no
    object as they are. -/
theorem run_refines [DecidableEq ι] {mem : A → β} {σ : ι → S} (calls : List (ι × Op))
    (h : AllHold (fun i => (O i).toRegion) mem σ)
    (apart : Pairwise fun i j => Disjoint (O i).own (O j).own)
    (hcalls : ∀ c ∈ calls, (O c.1).admits c.2) :
    ∃ mem', run O mem calls = some ((specRun (fun i => (O i).spec) σ calls).1, mem') ∧
      AllHold (fun i => (O i).toRegion) mem' (specRun (fun i => (O i).spec) σ calls).2 ∧
      Agree {a | ∀ i, a ∉ (O i).own} mem mem' := by
  induction calls generalizing mem σ with
  | nil => exact ⟨mem, rfl, h, Agree.refl _ mem⟩
  | cons c calls ih =>
    obtain ⟨mem₁, hexec, hholds, hframe₁⟩ :=
      (O c.1).exec_spec (h c.1) (hcalls c (List.mem_cons_self ..))
    have h₁ := h.update apart hframe₁ hholds
    obtain ⟨mem₂, hrun, h₂, hframe₂⟩ := ih h₁ fun d hd => hcalls d (List.mem_cons_of_mem _ hd)
    have hoff : {a | ∀ i, a ∉ (O i).own} ⊆ ((O c.1).own)ᶜ := fun a ha => ha c.1
    refine ⟨mem₂, ?_, h₂, (hframe₁.mono hoff).trans hframe₂⟩
    simp only [run, hexec, hrun, specRun, Option.bind_eq_bind, Option.bind_some]

end XGame3.Regions
