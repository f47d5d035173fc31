import Mathlib.Tactic.Simps.Basic
import Mathlib.Logic.Function.Basic
import Mathlib.Logic.Relation
import Mathlib.Data.Fintype.Basic

/-!
# The threads of the HTTP client (`http_worker.cpp`, `http_master.cpp`, `count_down_latch.cpp`)

A master that runs `Create`, any number of `RequestUrl`s and then `Close`, and its workers
in `Svc`.  A thread takes a mutex in one step and does what it does under it, with the
release, in the next; `wait` releases the mutex and goes on only after a notification.  A
worker's condition has no other waiter than the worker, and those of the latches no other
than the master.  What becomes of the jobs is not followed here, only how many there are.

A thread that cannot run has no next state (`none`).
-/

namespace XGame3.Http

/-- `HttpMaster::kWorkerNum`. -/
def kWorkerNum : Nat := 5

/-- The threads. -/
inductive Thread (n : Nat) where
  | master
  | worker (w : Fin n)
  deriving DecidableEq

/-- The mutexes: a worker's, the master's, and those of the two latches. -/
inductive Mutex (n : Nat) where
  | worker (w : Fin n)
  | master
  | start
  | stop
  deriving DecidableEq

/-- Where a worker is.  `In` is under the mutex, `waked` after a notification. -/
inductive WorkerPc where
  | unborn
  | startDown
  | startDownIn
  | checkStop
  | hangUp
  | hangUpIn
  | waiting
  | waked
  | swap
  | swapIn
  | deal (jobs : Nat)
  | pushFinish (jobs : Nat)
  | pushFinishIn (jobs : Nat)
  | stopDown
  | stopDownIn
  | done
  deriving DecidableEq

/-- Where the master is. -/
inductive MasterPc (n : Nat) where
  | create (i : Nat)
  | startWait
  | startWaitIn
  | startWaiting
  | startWaked
  | idle
  | pushJob (w : Fin n)
  | pushJobIn (w : Fin n)
  | wakeStop (i : Nat)
  | wakeStopIn (w : Fin n)
  | stopWait
  | stopWaitIn
  | stopWaiting
  | stopWaked
  | joinAll
  | closed
  deriving DecidableEq

/-- The state of all threads. -/
structure Threads (n : Nat) where
  master : MasterPc n
  worker : Fin n → WorkerPc
  owner : Mutex n → Option (Thread n)
  jobs : Fin n → Nat
  stop : Fin n → Bool
  finished : Nat
  startCount : Int
  stopCount : Int

variable {n : Nat}

namespace Threads

/-- The master about to run `Create`. -/
def init (n : Nat) : Threads n where
  master := .create 0
  worker := fun _ => .unborn
  owner := fun _ => none
  jobs := fun _ => 0
  stop := fun _ => false
  finished := 0
  startCount := n
  stopCount := n

/-- A worker goes on to another place. -/
@[simps -fullyApplied]
def setWorker (s : Threads n) (w : Fin n) (pc : WorkerPc) : Threads n :=
  { s with worker := Function.update s.worker w pc }

/-- The master goes on to another place. -/
@[simps -fullyApplied]
def setMaster (s : Threads n) (pc : MasterPc n) : Threads n := { s with master := pc }

/-- A mutex is taken or given back. -/
@[simps -fullyApplied]
def setOwner (s : Threads n) (m : Mutex n) (t : Option (Thread n)) : Threads n :=
  { s with owner := Function.update s.owner m t }

/-- Take a mutex. -/
def lock (s : Threads n) (m : Mutex n) (t : Thread n) : Option (Threads n) :=
  if s.owner m = none then some (s.setOwner m (some t)) else none

/-- Release a mutex. -/
def unlock (s : Threads n) (m : Mutex n) : Threads n := s.setOwner m none

/-- `cond_.notify_one()` of a worker. -/
def notify (s : Threads n) (w : Fin n) : Threads n :=
  if s.worker w = .waiting then s.setWorker w .waked else s

/-- `start_count_down_.CountDown()`. -/
def startCountDown (s : Threads n) : Threads n :=
  let s := { s with startCount := s.startCount - 1 }
  if s.startCount = 0 ∧ s.master = .startWaiting then s.setMaster .startWaked else s

/-- `stop_count_down_.CountDown()`. -/
def stopCountDown (s : Threads n) : Threads n :=
  let s := { s with stopCount := s.stopCount - 1 }
  if s.stopCount = 0 ∧ s.master = .stopWaiting then s.setMaster .stopWaked else s

/-- The next step of a worker. -/
def stepWorker (s : Threads n) (w : Fin n) : Option (Threads n) :=
  match s.worker w with
  | .unborn => none
  | .startDown => (s.lock .start (.worker w)).map fun s => s.setWorker w .startDownIn
  | .startDownIn => some ((s.startCountDown.unlock .start).setWorker w .checkStop)
  | .checkStop => some (s.setWorker w (if s.stop w then .stopDown else .hangUp))
  | .hangUp | .waked =>
    (s.lock (.worker w) (.worker w)).map fun s => s.setWorker w .hangUpIn
  | .hangUpIn =>
    some ((s.unlock (.worker w)).setWorker w (if s.jobs w = 0 then .waiting else .swap))
  | .waiting => none
  | .swap => (s.lock (.worker w) (.worker w)).map fun s => s.setWorker w .swapIn
  | .swapIn =>
    some (({ s with jobs := Function.update s.jobs w 0 }.unlock (.worker w)).setWorker w
      (.deal (s.jobs w)))
  | .deal 0 => some (s.setWorker w .checkStop)
  -- `GetResponse` has returned
  | .deal (jobs + 1) => some (s.setWorker w (.pushFinish jobs))
  | .pushFinish jobs =>
    (s.lock .master (.worker w)).map fun s => s.setWorker w (.pushFinishIn jobs)
  | .pushFinishIn jobs =>
    some (({ s with finished := s.finished + 1 }.unlock .master).setWorker w (.deal jobs))
  | .stopDown => (s.lock .stop (.worker w)).map fun s => s.setWorker w .stopDownIn
  | .stopDownIn => some ((s.stopCountDown.unlock .stop).setWorker w .done)
  | .done => none

/-- The next step of the master inside a call. -/
def stepMaster (s : Threads n) : Option (Threads n) :=
  match s.master with
  | .create i =>
    if h : i < n then some ((s.setWorker ⟨i, h⟩ .startDown).setMaster (.create (i + 1)))
    else some (s.setMaster .startWait)
  | .startWait | .startWaked => (s.lock .start .master).map fun s => s.setMaster .startWaitIn
  | .startWaitIn =>
    some ((s.unlock .start).setMaster (if s.startCount > 0 then .startWaiting else .idle))
  | .startWaiting => none
  | .idle => none
  | .pushJob w => (s.lock (.worker w) .master).map fun s => s.setMaster (.pushJobIn w)
  | .pushJobIn w =>
    let s := { s with jobs := Function.update s.jobs w (s.jobs w + 1) }
    some (((s.notify w).unlock (.worker w)).setMaster .idle)
  | .wakeStop i =>
    if h : i < n then
      (s.lock (.worker ⟨i, h⟩) .master).map fun s => s.setMaster (.wakeStopIn ⟨i, h⟩)
    else some (s.setMaster .stopWait)
  | .wakeStopIn w =>
    let s := { s with stop := Function.update s.stop w true }
    some (((s.notify w).unlock (.worker w)).setMaster (.wakeStop (w + 1)))
  | .stopWait | .stopWaked => (s.lock .stop .master).map fun s => s.setMaster .stopWaitIn
  | .stopWaitIn =>
    some ((s.unlock .stop).setMaster (if s.stopCount > 0 then .stopWaiting else .joinAll))
  | .stopWaiting => none
  | .joinAll => if ∀ w, s.worker w = .done then some (s.setMaster .closed) else none
  | .closed => none

/-- What may happen next. -/
inductive Action (n : Nat) where
  | worker (w : Fin n)
  | master
  | requestUrl (i32₂ : Nat)
  | close
  deriving DecidableEq

/-- One step of one thread. -/
def step (s : Threads n) : Action n → Option (Threads n)
  | .worker w => s.stepWorker w
  | .master => s.stepMaster
  | .requestUrl i32₂ =>
    if h : s.master = .idle ∧ 0 < n then
      some (s.setMaster (.pushJob ⟨i32₂ % n, Nat.mod_lt i32₂ h.2⟩))
    else none
  | .close => if s.master = .idle then some (s.setMaster (.wakeStop 0)) else none

/-- Steps one after another. -/
def run : Threads n → List (Action n) → Option (Threads n)
  | s, [] => some s
  | s, a :: as => (s.step a).bind fun s => s.run as

end Threads

end XGame3.Http
