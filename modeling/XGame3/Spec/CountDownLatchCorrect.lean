import XGame3.Native.CountDownLatch

/-!
# The latch opens in time

The count is what is left of the initial one, modulo `2 ^ 32`, so it is positive as long as calls
are missing; and the only way from a positive count to one that is not is through zero, where
`CountDown` notifies.
-/

namespace XGame3.CountDownLatch

open FixedInt Monitor

variable {T : Type} [DecidableEq T]

/-- The count is the initial one less the calls. -/
def Counts (n : Int) (latch : CountDownLatch) : Prop :=
  latch.count = int32 (n - latch.calls)

/-- Each operation keeps the count. -/
theorem Counts.act {n : Int} {latch : CountDownLatch} (h : Counts n latch) (op : Op) :
    Counts n (sections.act op latch) := by
  cases op with
  | countDown =>
    show int32 (latch.count - 1) = int32 (n - (latch.calls + 1 : Nat))
    rw [h, int32_int32_sub]
    congr 1
    omega
  | getCount => exact h

/-- A count that stops being positive has become zero. -/
theorem Counts.notifies {n : Int} {latch : CountDownLatch} (h : Counts n latch) (op : Op)
    (hblocks : sections.blocks latch = true)
    (hfree : sections.blocks (sections.act op latch) = false) :
    sections.notifies op latch = true := by
  have hrange : IsInt32 latch.count := h ▸ isInt32_int32 _
  have hpos : latch.count > 0 := of_decide_eq_true hblocks
  cases op with
  | countDown =>
    -- one less than a positive `int` does not wrap, so the first count that is not positive is zero
    have hnot : ¬ int32 (latch.count - 1) > 0 := of_decide_eq_false hfree
    have hcount : int32 (latch.count - 1) = latch.count - 1 := int32_of_isInt32 (by omega)
    show decide (int32 (latch.count - 1) = 0) = true
    rw [decide_eq_true_iff]
    omega
  | getCount => exact absurd hpos (of_decide_eq_false hfree)

/-- While calls are missing the count is positive. -/
theorem Counts.le_calls {n : Int} (hn : IsInt32 n) {latch : CountDownLatch} (h : Counts n latch)
    (hfree : sections.blocks latch = false) : n ≤ latch.calls := by
  by_contra hlt
  -- with fewer than `n` calls nothing has wrapped yet
  have hcount : latch.count = n - latch.calls := by
    rw [h]
    exact int32_of_isInt32 (by omega)
  have hnot : ¬ latch.count > 0 := of_decide_eq_false hfree
  omega

/-- No `Wait` has returned before `CountDown` was called `n` times, and no thread is left waiting
    once the count is not positive. -/
theorem latch_opens (n : Int) (hn : IsInt32 n) (c : Config CountDownLatch T)
    (h : Reachable sections (new n) c) :
    (∀ latch ∈ c.ended, n ≤ latch.calls) ∧
      ∀ t, c.place t = .waiting → ¬ c.state.count ≤ 0 := by
  have hinit : Counts n (new n) := by
    show n = int32 (n - (0 : Nat))
    rw [int32_of_isInt32 (by omega)]
    omega
  have hgood := h.good hinit (fun op _ h => h.act op) fun op _ h => h.notifies op
  constructor
  · intro latch hlatch
    obtain ⟨hcounts, hfree⟩ := hgood.ended latch hlatch
    exact hcounts.le_calls hn hfree
  · intro t ht
    have : c.state.count > 0 := of_decide_eq_true (hgood.blocked t ht)
    omega

/-- One waiter, woken by the second of two calls. -/
theorem latch_opens_two : ∃ c : Config CountDownLatch Bool,
    c.ended = [⟨0, 2⟩] ∧ ∀ latch ∈ c.ended, (2 : Int) ≤ latch.calls := by
  -- the waiter blocks, two calls follow, and it looks again
  have h₁ : Reachable sections (new 2) (Config.init (new 2) : Config CountDownLatch Bool) := .refl
  have h₂ := h₁.tail (.wait true rfl)
  have h₃ := h₂.tail (.act false .countDown rfl)
  have h₄ := h₃.tail (.act false .countDown rfl)
  have h₅ := h₄.tail (.again true (by decide))
  exact ⟨_, by decide, (latch_opens 2 (by decide) _ h₅).1⟩

end XGame3.CountDownLatch
