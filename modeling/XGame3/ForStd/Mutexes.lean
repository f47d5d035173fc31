import Mathlib.Logic.Function.Basic

/-!
# Threads and the mutexes they are under

`owner` says which thread has a mutex, `inside` which mutex a thread's program counter says
it is under.  `Held owner inside` says that an owned mutex is one its owner is under; a
thread that waits for it then has a thread to wait for that can go on.

* `Held.step`  a thread takes a mutex, releases the one it is under, or does neither
* `Held.free`  a mutex nobody is under is free
-/

namespace Mutexes

universe u

variable {M T : Type u} {owner owner' : M → Option T} {inside inside' : T → Option M}
  {t : T} {m : M}

/-- An owned mutex is one its owner is under. -/
def Held (owner : M → Option T) (inside : T → Option M) : Prop :=
  ∀ m t, owner m = some t → inside t = some m

/-- What a step of the thread `t` does to the mutexes. -/
inductive OwnerStep [DecidableEq M] (owner owner' : M → Option T) (inside inside' : T → Option M)
    (t : T) : Prop where
  | take (m : M) (hfree : owner m = none) (hbefore : inside t = none) (hafter : inside' t = some m)
      (howner : owner' = Function.update owner m (some t))
  | release (m : M) (hbefore : inside t = some m) (howner : owner' = Function.update owner m none)
  | keep (hbefore : inside t = none) (howner : owner' = owner)

/-- At first every mutex is free. -/
theorem Held.init : Held (fun _ : M => (none : Option T)) inside := fun _ _ h => nomatch h

/-- A step that takes or gives back mutexes as it enters and leaves. -/
theorem Held.step [DecidableEq M] (h : Held owner inside)
    (hstep : OwnerStep owner owner' inside inside' t)
    (hothers : ∀ t', t' ≠ t → inside' t' = inside t') : Held owner' inside' := by
  -- a thread that is under no mutex owns none
  have hself : ∀ m', inside t = none → owner m' ≠ some t := fun m' hnone hown =>
    nomatch hnone.symm.trans (h m' t hown)
  intro m' t' hown
  cases hstep with
  | take m hfree hbefore hafter howner =>
    rw [howner, Function.update_apply] at hown
    split at hown
    · rename_i hm
      obtain rfl := Option.some.inj hown
      rw [hm]
      exact hafter
    · rw [hothers t' fun ht => hself m' hbefore (ht ▸ hown)]
      exact h m' t' hown
  | release m hbefore howner =>
    rw [howner, Function.update_apply] at hown
    split at hown
    · exact nomatch hown
    · rename_i hm
      rw [hothers t' fun ht => hm (Option.some.inj (((ht ▸ h m' t' hown).symm.trans hbefore)))]
      exact h m' t' hown
  | keep hbefore howner =>
    rw [howner] at hown
    rw [hothers t' fun ht => hself m' hbefore (ht ▸ hown)]
    exact h m' t' hown

/-- A mutex nobody is under is free. -/
theorem Held.free (h : Held owner inside) (hnone : ∀ t, inside t ≠ some m) : owner m = none := by
  match hm : owner m with
  | none => rfl
  | some t => exact absurd (h m t hm) (hnone t)

end Mutexes
