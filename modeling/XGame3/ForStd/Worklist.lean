import Mathlib.Logic.Relation

/-!
# Reachability by a work list

A search keeps a set of visited nodes and a set of open ones.  It takes an open node,
visits what a move leads to and opens what it found, in whatever order and as often as it
likes; the target is never taken.  `Searching move start target visited opened` is what
holds between two rounds.

* `Searching.init`      the start alone
* `Searching.expand`    one round
* `Searching.reachable` what was visited can be reached
* `Searching.complete`  with nothing open the target cannot be reached
* `Labelled.lower_bound` labels bound the length of a way, up to what is still open
-/

namespace Worklist

universe u

variable {α : Type u} {move : α → α → Prop} {start target x y : α} {visited visited' : α → Prop}
  {opened opened' : α → Prop}

/-- Between two rounds of the search. -/
structure Searching (move : α → α → Prop) (start target : α) (visited opened : α → Prop) :
    Prop where
  visited_start : visited start
  reachable : ∀ y, visited y → Relation.ReflTransGen move start y
  visited_of_opened : ∀ y, opened y → visited y
  expanded : ∀ y, visited y → opened y ∨ y ≠ target ∧ ∀ z, move y z → visited z

/-- A search begins with its start visited and open. -/
theorem Searching.init (hvisited : ∀ y, visited y ↔ y = start) (hopened : opened start)
    (hopened' : ∀ y, opened y → y = start) : Searching move start target visited opened where
  visited_start := (hvisited start).2 rfl
  reachable := fun y hy => (hvisited y).1 hy ▸ .refl
  visited_of_opened := fun y hy => (hvisited y).2 (hopened' y hy)
  expanded := fun y hy => .inl ((hvisited y).1 hy ▸ hopened)

/-- A round takes `x` and opens what it found. -/
theorem Searching.expand {found : α → Prop}
    (h : Searching move start target visited opened) (hx : opened x) (hne : x ≠ target)
    (hvisited : ∀ y, visited' y ↔ visited y ∨ found y)
    (hold : ∀ y, opened y → y ≠ x → opened' y) (hnew : ∀ y, found y → opened' y)
    (hopened : ∀ y, opened' y → opened y ∨ found y)
    (hfound : ∀ y, found y → move x y) (hmoves : ∀ y, move x y → visited' y) :
    Searching move start target visited' opened' where
  visited_start := (hvisited start).2 (.inl h.visited_start)
  reachable := fun y hy => by
    cases (hvisited y).1 hy with
    | inl hvis => exact h.reachable y hvis
    | inr hfnd => exact (h.reachable x (h.visited_of_opened x hx)).tail (hfound y hfnd)
  visited_of_opened := fun y hy => (hvisited y).2 ((hopened y hy).imp_left (h.visited_of_opened y))
  expanded := fun y hy => by
    cases (hvisited y).1 hy with
    | inl hvis =>
      cases h.expanded y hvis with
      | inl hop =>
        -- the node taken is the one that is expanded now
        by_cases hyx : y = x
        · subst hyx
          exact .inr ⟨hne, hmoves⟩
        · exact .inl (hold y hop hyx)
      | inr hexp => exact .inr ⟨hexp.1, fun z hz => (hvisited z).2 (.inl (hexp.2 z hz))⟩
    | inr hfnd => exact .inl (hnew y hfnd)

/-- With nothing open every node that can be reached was visited. -/
theorem Searching.visited_of_empty (h : Searching move start target visited opened)
    (hempty : ∀ y, ¬ opened y) (hy : Relation.ReflTransGen move start y) : visited y := by
  induction hy with
  | refl => exact h.visited_start
  | tail _ hmove ih =>
    cases h.expanded _ ih with
    | inl hop => exact absurd hop (hempty _)
    | inr hexp => exact hexp.2 _ hmove

/-- With nothing open the target cannot be reached. -/
theorem Searching.complete (h : Searching move start target visited opened)
    (hempty : ∀ y, ¬ opened y) : ¬ Relation.ReflTransGen move start target := by
  intro hreach
  cases h.expanded target (h.visited_of_empty hempty hreach) with
  | inl hop => exact hempty target hop
  | inr hexp => exact hexp.1 rfl

/-! ## Labels -/

/-- `n` moves lead from one node to another. -/
inductive Moves (move : α → α → Prop) : Nat → α → α → Prop
  | refl (x : α) : Moves move 0 x x
  | head {n : Nat} {x y z : α} : move x y → Moves move n y z → Moves move (n + 1) x z

/-- Moves compose, -/
theorem Moves.trans {n m : Nat} {z : α} (h : Moves move n x y) (h' : Moves move m y z) :
    Moves move (n + m) x z := by
  induction h with
  | refl x =>
    rw [Nat.zero_add]
    exact h'
  | @head n x y w hxy _ ih =>
    rw [Nat.add_right_comm]
    exact .head hxy (ih h')

/-- and take one more at the end. -/
theorem Moves.tail {n : Nat} {z : α} (h : Moves move n x y) (hz : move y z) :
    Moves move (n + 1) x z := h.trans (.head hz (.refl z))

/-- Between two rounds of a search that labels what it visits with a number of moves: what is no
    longer open has labelled all it leads to. -/
structure Labelled (move : α → α → Prop) (start target : α) (label : α → Nat)
    (visited opened : α → Prop) : Prop where
  visited_start : visited start
  start : label start = 0
  closed : ∀ y, visited y → opened y ∨
    y ≠ target ∧ ∀ z, move y z → visited z ∧ label z ≤ label y + 1

/-- No way on from a visited node is shorter than a bound on the target's label, unless it can be
    cut short at a node that is still open. -/
theorem Labelled.lower_bound_from {label : α → Nat} {bound n m : Nat}
    (h : Labelled move start target label visited opened) (htarget : bound ≤ label target)
    (hopened : ∀ y k, opened y → Moves move k y target → bound ≤ label y + k)
    (hx : visited x) (hlabel : label x ≤ m) (hmoves : Moves move n x target) :
    bound ≤ m + n := by
  induction n generalizing x m with
  | zero =>
    cases hmoves with
    | refl => exact Nat.le_trans htarget hlabel
  | succ n ih =>
    -- a vertex still open bounds its own way; the moves of a closed one are labelled already
    cases h.closed x hx with
    | inl hop =>
      have hle := hopened x _ hop hmoves
      omega
    | inr hclosed =>
      cases hmoves with
      | head hmove hrest =>
        obtain ⟨hvisited, hle⟩ := hclosed.2 _ hmove
        have hnext := ih (m := m + 1) hvisited (by omega) hrest
        omega

/-- No way is shorter than a bound on the target's label, unless through an open node. -/
theorem Labelled.lower_bound {label : α → Nat} {bound n : Nat}
    (h : Labelled move start target label visited opened) (htarget : bound ≤ label target)
    (hopened : ∀ y k, opened y → Moves move k y target → bound ≤ label y + k)
    (hmoves : Moves move n start target) : bound ≤ n := by
  have hle := h.lower_bound_from htarget hopened h.visited_start (Nat.le_of_eq h.start) hmoves
  omega

end Worklist
