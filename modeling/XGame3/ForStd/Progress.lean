import Mathlib.Init

/-!
# Progress in runs of a transition system

A run is a sequence of states; it may stand still for a while.  What is waited for comes about
when one thread brings it nearer with each of its moves, no other step takes it further away,
and the thread keeps moving.

Key results:
- `IsRun.stable`: what every step keeps is kept from then on.
- `Helped.leadsTo`: what a thread brings nearer with each move comes about.
-/

namespace Progress

universe u

variable {S : Type u} {Step : S → S → Prop} {run : Nat → S}

/-- Each state comes from the one before by a step, or is the same. -/
def IsRun (Step : S → S → Prop) (run : Nat → S) : Prop :=
  ∀ n, run (n + 1) = run n ∨ Step (run n) (run (n + 1))

/-- Whenever `P` holds, `Q` holds then or later. -/
def LeadsTo (run : Nat → S) (P Q : S → Prop) : Prop :=
  ∀ n, P (run n) → ∃ m, n ≤ m ∧ Q (run m)

/-- Leading to is transitive. -/
theorem LeadsTo.trans {P Q R : S → Prop} (hpq : LeadsTo run P Q) (hqr : LeadsTo run Q R) :
    LeadsTo run P R := fun n hp => by
  obtain ⟨m, hle, hq⟩ := hpq n hp
  exact (hqr m hq).imp fun k hk => ⟨Nat.le_trans hle hk.1, hk.2⟩

/-- What every step keeps holds from the time it first does. -/
theorem IsRun.stable {P : S → Prop} (hrun : IsRun Step run)
    (hstep : ∀ s s', P s → Step s s' → P s') {n m : Nat} (hnm : n ≤ m) (hn : P (run n)) :
    P (run m) := by
  induction hnm with
  | refl => exact hn
  | @step k _ ih =>
    obtain heq | hk := hrun k
    · exact heq ▸ ih
    · exact hstep _ _ ih hk

/-- While a thread makes no move, what only its moves change is kept. -/
theorem IsRun.still (hrun : IsRun Step run) (Moves : S → S → Prop) (P : S → Prop)
    (hstep : ∀ s s', P s → Step s s' → ¬ Moves s s' → P s') {n m : Nat} (hnm : n ≤ m)
    (hstill : ∀ k, n ≤ k → ¬ Moves (run k) (run (k + 1))) (hn : P (run n)) : P (run m) := by
  induction hnm with
  | refl => exact hn
  | @step k hnk ih =>
    obtain heq | hk := hrun k
    · exact heq ▸ ih
    · exact hstep _ _ ih hk (hstill k hnk)

/-- While `Waiting` holds, the moves of one thread lower the rank, and no step raises it. -/
def Helped (Step Moves : S → S → Prop) (Waiting Goal : S → Prop) (rank : S → Nat) : Prop :=
  ∀ s s', Waiting s → Step s s' →
    Goal s' ∨ (Waiting s' ∧ rank s' ≤ rank s ∧ (Moves s s' → rank s' < rank s))

namespace Helped

variable {Moves : S → S → Prop} {Waiting Goal : S → Prop} {rank : S → Nat}

/-- Until any later time the goal has come, or the rank is no higher. -/
theorem before (h : Helped Step Moves Waiting Goal rank) (hrun : IsRun Step run) {n m : Nat}
    (hnm : n ≤ m) (hn : Waiting (run n)) :
    (∃ k, n ≤ k ∧ Goal (run k)) ∨ (Waiting (run m) ∧ rank (run m) ≤ rank (run n)) := by
  induction hnm with
  | refl => exact .inr ⟨hn, Nat.le_refl _⟩
  | @step m hnm ih =>
    obtain hgoal | ⟨hm, hle⟩ := ih
    · exact .inl hgoal
    · obtain heq | hstep := hrun m
      · rw [heq]
        exact .inr ⟨hm, hle⟩
      · obtain hgoal | ⟨hm', hle', -⟩ := h _ _ hm hstep
        · exact .inl ⟨m + 1, Nat.le_succ_of_le hnm, hgoal⟩
        · exact .inr ⟨hm', Nat.le_trans hle' hle⟩

/-- A thread that keeps moving while it is waited for brings the goal about. -/
theorem leadsTo (h : Helped Step Moves Waiting Goal rank) (hrun : IsRun Step run)
    (hirrefl : ∀ s, ¬ Moves s s)
    (hfair : ∀ n, Waiting (run n) → ∃ m, n ≤ m ∧ Moves (run m) (run (m + 1))) :
    LeadsTo run Waiting Goal := by
  intro n hn
  induction hr : rank (run n) using Nat.strongRecOn generalizing n with
  | ind r ih =>
    obtain ⟨m, hnm, hmoves⟩ := hfair n hn
    obtain hgoal | ⟨hm, hle⟩ := h.before hrun hnm hn
    · exact hgoal
    · obtain heq | hstep := hrun m
      · rw [heq] at hmoves
        exact absurd hmoves (hirrefl _)
      · -- the move brings the goal, or lowers the rank for good
        obtain hgoal | ⟨hm', -, hlt⟩ := h _ _ hm hstep
        · exact ⟨m + 1, Nat.le_succ_of_le hnm, hgoal⟩
        · have hlower := hlt hmoves
          obtain ⟨k, hk, hgoal⟩ := ih _ (by omega) (m + 1) hm' rfl
          exact ⟨k, by omega, hgoal⟩

end Helped

end Progress
