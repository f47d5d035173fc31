import XGame3.ForStd.FixedInt
import XGame3.ForStd.Monitor

/-!
# The latch (`count_down_latch.cpp`)

`CountDown` and `GetCount` are sections under the mutex; `Wait` blocks while the count is positive.
The count is an `int` and wraps.  `calls` records how often `CountDown` has been called.
-/

namespace XGame3

open FixedInt

/-- `CountDownLatch`. -/
structure CountDownLatch where
  count : Int
  calls : Nat
deriving DecidableEq, Repr

namespace CountDownLatch

/-- The constructor. -/
def new (count : Int) : CountDownLatch where
  count := count
  calls := 0

/-- The calls that do not wait. -/
inductive Op where
  | countDown
  | getCount
deriving DecidableEq

/-- `--count_`. -/
def countDown (latch : CountDownLatch) : CountDownLatch where
  count := int32 (latch.count - 1)
  calls := latch.calls + 1

/-- The sections under the mutex. -/
def sections : Monitor.Sections CountDownLatch Op where
  blocks latch := decide (latch.count > 0)
  act
    | .countDown, latch => latch.countDown
    | .getCount, latch => latch
  notifies
    -- `cond_.notify_all()` when the new count is zero
    | .countDown, latch => decide (latch.countDown.count = 0)
    | .getCount, _ => false

end CountDownLatch

end XGame3
