import Mathlib.Data.List.Nodup
import Mathlib.Logic.Relation

/-!
# Parent pointers

Nodes with a parent each, `none` at a root.  `Trail parent o l` lists the nodes from `o` on
up to a root.  With a relation `link p a` that a node `a` ought to be in with its parent
`p`, `Rooted parent link r a l` says that the pointers lead from `a` to the root `r`
through the nodes `l`, along links.

* `Trail.unique`      the pointers determine the list
* `Trail.nodup`       a list of parents that ends has no node twice
* `Trail.forall_mem`  a set closed under parents contains the list
* `Rooted.congr`      only the pointers of the listed nodes matter
* `Rooted.reparent`   a node may be hung elsewhere unless the new place hangs from it
* `Cyclic.not_trail`  pointers that lead into a cycle do not end
* `follow_trail`      following the pointers far enough gives the list
-/

namespace ParentChain

universe u

variable {α : Type u} {parent parent' : α → Option α} {link link' : α → α → Prop} {r a b : α}
  {o : Option α} {l l' : List α}

/-! ## Trails -/

/-- The nodes from `o` on, each the parent of the one before, to the last that has none. -/
inductive Trail (parent : α → Option α) : Option α → List α → Prop
  | nil : Trail parent none []
  | cons {a : α} {l : List α} : Trail parent (parent a) l → Trail parent (some a) (a :: l)

/-- There is one chain of parents. -/
theorem Trail.unique (h : Trail parent o l) (h' : Trail parent o l') : l = l' := by
  induction h generalizing l' with
  | nil =>
    cases h'
    rfl
  | cons _ ih =>
    cases h' with
    | cons ht => rw [ih ht]

/-- A node on the list has the rest of it as its own. -/
theorem Trail.of_mem (h : Trail parent o l) (hb : b ∈ l) :
    ∃ l', Trail parent (some b) l' ∧ l' <:+ l := by
  induction h with
  | nil => exact absurd hb List.not_mem_nil
  | cons ht ih =>
    cases List.mem_cons.1 hb with
    | inl heq =>
      subst heq
      exact ⟨_, .cons ht, List.suffix_refl _⟩
    | inr hmem =>
      obtain ⟨l', hl', hsuf⟩ := ih hmem
      exact ⟨l', hl', hsuf.trans (List.suffix_cons _ _)⟩

/-- A chain that ends repeats nothing. -/
theorem Trail.nodup (h : Trail parent o l) : l.Nodup := by
  induction h with
  | nil => exact List.nodup_nil
  | cons ht ih =>
    apply List.nodup_cons.2
    constructor
    · -- the tail of a node met again would be the whole list
      intro hmem
      obtain ⟨l', hl', hsuf⟩ := ht.of_mem hmem
      have heq := (Trail.cons ht).unique hl'
      have hle := hsuf.length_le
      rw [← heq, List.length_cons] at hle
      omega
    · exact ih

/-- A chain that is not empty begins with its element. -/
theorem Trail.exists_cons (h : Trail parent o l) (hne : l ≠ []) :
    ∃ a l', o = some a ∧ l = a :: l' := by
  cases h with
  | nil => exact absurd rfl hne
  | cons _ => exact ⟨_, _, rfl, rfl⟩

/-- What holds at the first node and passes to parents holds on the list. -/
theorem Trail.forall_mem {P : α → Prop} (h : Trail parent o l) (hfirst : ∀ a, o = some a → P a)
    (hstep : ∀ a p, P a → parent a = some p → P p) : ∀ a ∈ l, P a := by
  induction h with
  | nil => exact fun a ha => absurd ha List.not_mem_nil
  | cons _ ih =>
    have hhead := hfirst _ rfl
    intro b hb
    cases List.mem_cons.1 hb with
    | inl heq => exact heq ▸ hhead
    | inr hmem => exact ih (fun p hp => hstep _ p hhead hp) b hmem

/-- The list ends at a root. -/
theorem Trail.getLast?_root (h : Trail parent o l) (hr : l.getLast? = some r) :
    parent r = none := by
  induction h with
  | nil => exact nomatch hr
  | @cons a l ht ih =>
    cases l with
    | nil =>
      rw [← Option.some.inj hr]
      generalize hp : parent a = p at ht
      cases ht
      exact hp
    | cons b l =>
      rw [List.getLast?_cons_cons] at hr
      exact ih hr

/-- Consecutive nodes are child and parent. -/
theorem Trail.isChain (h : Trail parent o l) : l.IsChain fun a p => parent a = some p := by
  induction h with
  | nil => exact .nil
  | @cons a l ht ih =>
    generalize hp : parent a = p at ht
    cases ht with
    | nil => exact .singleton _
    | cons _ => exact .cons_cons hp ih

/-- The pointers from `o` on lead into a cycle. -/
def Cyclic (parent : α → Option α) (o : Option α) : Prop :=
  ∃ a b, o = some a ∧ Relation.ReflTransGen (fun x y => parent x = some y) a b ∧
    Relation.TransGen (fun x y => parent x = some y) b b

/-- Going up shortens the list. -/
theorem Trail.of_transGen (h : Trail parent (some a) l)
    (hab : Relation.TransGen (fun x y => parent x = some y) a b) :
    ∃ l', Trail parent (some b) l' ∧ l'.length < l.length := by
  induction hab with
  | single hp =>
    cases h with
    | cons ht => exact ⟨_, hp ▸ ht, Nat.lt_succ_self _⟩
  | tail _ hp ih =>
    obtain ⟨l₁, h₁, hlt⟩ := ih
    cases h₁ with
    | @cons _ l₂ ht => exact ⟨l₂, hp ▸ ht, by rw [List.length_cons] at hlt; omega⟩

/-- Pointers that lead into a cycle do not end. -/
theorem Cyclic.not_trail (hc : Cyclic parent o) : ¬ Trail parent o l := by
  intro h
  obtain ⟨a, b, rfl, hab, hbb⟩ := hc
  have hb : ∃ l', Trail parent (some b) l' := by
    rw [Relation.reflTransGen_iff_eq_or_transGen] at hab
    cases hab with
    | inl heq => exact ⟨l, heq ▸ h⟩
    | inr htrans =>
      obtain ⟨l', h', -⟩ := h.of_transGen htrans
      exact ⟨l', h'⟩
  obtain ⟨l₁, h₁⟩ := hb
  obtain ⟨l₂, h₂, hlt⟩ := h₁.of_transGen hbb
  rw [h₁.unique h₂] at hlt
  omega

/-! ## Trails along links -/

/-- The parents of `a`, from `a` itself to the root `r`. -/
inductive Rooted (parent : α → Option α) (link : α → α → Prop) (r : α) : α → List α → Prop
  | root : parent r = none → Rooted parent link r r [r]
  | step {a p : α} {l : List α} : parent a = some p → link p a → Rooted parent link r p l →
      Rooted parent link r a (a :: l)

/-- A linked chain is a chain of parents. -/
theorem Rooted.trail (h : Rooted parent link r a l) : Trail parent (some a) l := by
  induction h with
  | root hr => exact .cons (hr ▸ .nil)
  | step hp _ _ ih => exact .cons (hp ▸ ih)

/-- It repeats nothing. -/
theorem Rooted.nodup (h : Rooted parent link r a l) : l.Nodup := h.trail.nodup

/-- It begins with its element. -/
theorem Rooted.head?_eq (h : Rooted parent link r a l) : l.head? = some a := by
  cases h <;> rfl

/-- The root is on the list and has no parent. -/
theorem Rooted.of_root (h : Rooted parent link r a l) : parent r = none ∧ r ∈ l := by
  induction h with
  | root hr => exact ⟨hr, List.mem_singleton_self _⟩
  | step _ _ _ ih => exact ⟨ih.1, List.mem_cons_of_mem _ ih.2⟩

/-- Every pointer on the list is along a link. -/
theorem Rooted.link_of_mem {p : α} (h : Rooted parent link r a l) (hb : b ∈ l)
    (hp : parent b = some p) : link p b := by
  induction h with
  | root hr =>
    obtain rfl := List.mem_singleton.1 hb
    exact nomatch hr.symm.trans hp
  | step hp' hl _ ih =>
    cases List.mem_cons.1 hb with
    | inl heq =>
      subst heq
      exact Option.some.inj (hp'.symm.trans hp) ▸ hl
    | inr hmem => exact ih hmem

/-- It depends on the parents and links along it. -/
theorem Rooted.congr (h : Rooted parent link r a l) (hparent : ∀ b ∈ l, parent' b = parent b)
    (hlink : ∀ p b, link p b → link' p b) : Rooted parent' link' r a l := by
  induction h with
  | root hr => exact .root ((hparent _ (List.mem_singleton_self _)).trans hr)
  | step hp hl _ ih =>
    apply Rooted.step ((hparent _ List.mem_cons_self).trans hp) (hlink _ _ hl)
    exact ih fun b hb => hparent b (List.mem_cons_of_mem _ hb)

/-- Hanging a node `b` elsewhere leaves everything rooted, unless the new parent hangs from it. -/
theorem Rooted.reparent {p : α} {l₁ : List α} (h : Rooted parent link r a l)
    (hp : Rooted parent link r p l₁) (hb : b ∉ l₁) (hlink : link p b) (hnew : parent' b = some p)
    (hold : ∀ c, c ≠ b → parent' c = parent c) :
    ∃ l', Rooted parent' link r a l' ∧ ∀ c ∈ l', c ∈ l ∨ c ∈ l₁ := by
  induction h with
  | root hr =>
    -- the root is above the new parent, so it is not the node that moves
    have hne : r ≠ b := fun heq => hb (heq ▸ hp.of_root.2)
    exact ⟨[r], .root ((hold r hne).trans hr), fun c hc => .inl hc⟩
  | @step a p₀ l hp₀ hl _ ih =>
    by_cases hab : a = b
    · subst hab
      have hkept : Rooted parent' link r p l₁ :=
        hp.congr (fun c hc => hold c fun heq => hb (heq ▸ hc)) fun _ _ hl => hl
      refine ⟨a :: l₁, .step hnew hlink hkept, ?_⟩
      intro c hc
      cases List.mem_cons.1 hc with
      | inl heq => exact .inl (heq ▸ List.mem_cons_self)
      | inr hmem => exact .inr hmem
    · obtain ⟨l', hl', hsub⟩ := ih
      refine ⟨a :: l', .step ((hold a hab).trans hp₀) hl hl', ?_⟩
      intro c hc
      cases List.mem_cons.1 hc with
      | inl heq => exact .inl (heq ▸ List.mem_cons_self)
      | inr hmem => exact (hsub c hmem).imp_left (List.mem_cons_of_mem _)

/-! ## Following the pointers -/

/-- The first `n` nodes from `o` on. -/
def follow (parent : α → Option α) : Nat → Option α → List α
  | 0, _ => []
  | _ + 1, none => []
  | n + 1, some a => a :: follow parent n (parent a)

/-- Enough steps follow a chain to its end. -/
theorem follow_trail {n : Nat} (h : Trail parent o l) (hn : l.length ≤ n) :
    follow parent n o = l := by
  induction h generalizing n with
  | nil => cases n <;> rfl
  | cons _ ih =>
    obtain ⟨m, rfl⟩ : ∃ m, n = m + 1 := ⟨n - 1, by simp only [List.length_cons] at hn; omega⟩
    simp only [List.length_cons] at hn
    rw [follow, ih (by omega)]

/-- Following the pointers beyond the last node gives the list. -/
theorem trail_follow {n : Nat} (h : (follow parent n o).length < n) :
    Trail parent o (follow parent n o) := by
  induction n generalizing o with
  | zero => omega
  | succ n ih =>
    cases o with
    | none => exact .nil
    | some a =>
      rw [follow, List.length_cons] at h
      exact .cons (ih (by omega))

end ParentChain
