import Mathlib.Algebra.BigOperators.Group.Finset.Piecewise
import Mathlib.Data.Fintype.Card
import XGame3.ForStd.Mutexes
import XGame3.Native.HttpThreads

/-!
# When `Close` can get stuck

`WakeStop` sets `stop_` and notifies, but a worker in `HangUp` looks only at its list: it
waits again, and `Close` waits for it.  A worker that has jobs, or is on its way to the
test of `stop_`, stops.

Key results:
- `WorkerStep.orderly` / `Threads.orderly_stepMaster`: the step lemmas.
- `close_not_stuck`: if no worker is asked to stop between its test of `stop_` and its
  swap with nothing to do, some thread can always go on until `Close` has returned.
- `not_close_not_stuck`: a deadlock.
-/

namespace XGame3.Http

open Mutexes

variable {n : Nat}

/-! ## Mutexes -/

namespace Threads

/-- A mutex is taken when it is free. -/
theorem lock_eq_some {s s' : Threads n} {m : Mutex n} {t : Thread n} :
    s.lock m t = some s' ↔ s.owner m = none ∧ s' = s.setOwner m (some t) := by
  unfold lock
  split
  · rename_i hfree
    simp only [Option.some.injEq, hfree, true_and]
    exact eq_comm
  · rename_i hfree
    simp only [reduceCtorEq, hfree, false_and]

end Threads

/-! ## Program counters -/

/-- The mutex a worker is under. -/
def WorkerPc.mutex (w : Fin n) : WorkerPc → Option (Mutex n)
  | startDownIn => some .start
  | hangUpIn | swapIn => some (.worker w)
  | pushFinishIn _ => some .master
  | stopDownIn => some .stop
  | _ => none

/-- The mutex the master is under. -/
def MasterPc.mutex : MasterPc n → Option (Mutex n)
  | startWaitIn => some .start
  | pushJobIn w | wakeStopIn w => some (.worker w)
  | stopWaitIn => some .stop
  | _ => none

/-- The mutex a thread is under. -/
def Threads.inside (s : Threads n) : Thread n → Option (Mutex n)
  | .master => s.master.mutex
  | .worker w => (s.worker w).mutex w

/-- The worker has not yet counted `start_count_down_` down. -/
def WorkerPc.Starting (pc : WorkerPc) : Prop := pc = unborn ∨ pc = startDown ∨ pc = startDownIn

instance : DecidablePred WorkerPc.Starting := fun _ => inferInstanceAs (Decidable (_ ∨ _ ∨ _))

/-- The worker has not yet counted `stop_count_down_` down. -/
def WorkerPc.Running (pc : WorkerPc) : Prop := pc ≠ done

instance : DecidablePred WorkerPc.Running := fun _ => inferInstanceAs (Decidable (_ ≠ _))

/-- The worker is between its test of `stop_` and its swap. -/
def WorkerPc.Hanging (pc : WorkerPc) : Prop :=
  pc = hangUp ∨ pc = hangUpIn ∨ pc = waiting ∨ pc = waked

/-- The master has asked the worker to stop. -/
def MasterPc.Asked (w : Fin n) : MasterPc n → Prop
  | wakeStop i => w < i
  | wakeStopIn w' => w < w'
  | stopWait | stopWaitIn | stopWaiting | stopWaked | joinAll | closed => True
  | _ => False

/-- The next program counter of a worker. -/
def WorkerPc.next (stop : Bool) (jobs : Nat) : WorkerPc → WorkerPc
  | unborn => unborn
  | startDown => startDownIn
  | startDownIn => checkStop
  | checkStop => if stop then stopDown else hangUp
  | hangUp | waked => hangUpIn
  | hangUpIn => if jobs = 0 then waiting else swap
  | waiting => waiting
  | swap => swapIn
  | swapIn => deal jobs
  | deal 0 => checkStop
  | deal (k + 1) => pushFinish k
  | pushFinish k => pushFinishIn k
  | pushFinishIn k => deal k
  | stopDown => stopDownIn
  | stopDownIn => done
  | done => done

/-! ## A worker's step -/

/-- What a step of a worker does. -/
structure WorkerStep (s s' : Threads n) (w : Fin n) : Prop where
  live : s.worker w ≠ .unborn ∧ s.worker w ≠ .waiting ∧ s.worker w ≠ .done
  worker : s'.worker = Function.update s.worker w ((s.worker w).next (s.stop w) (s.jobs w))
  owner : OwnerStep s.owner s'.owner s.inside s'.inside (.worker w)
  stop : s'.stop = s.stop
  jobs : ∀ w', s'.jobs w' = s.jobs w' ∨ w' = w ∧ s.worker w = .swapIn
  startCount : s'.startCount = if s.worker w = .startDownIn then s.startCount - 1 else s.startCount
  stopCount : s'.stopCount = if s.worker w = .stopDownIn then s.stopCount - 1 else s.stopCount
  master : s'.master = s.master ∨ s.master = .startWaiting ∧ s'.master = .startWaked ∨
    s.master = .stopWaiting ∧ s'.master = .stopWaked
  startWaiting : s'.master = .startWaiting → s'.startCount = s.startCount ∨ s'.startCount ≠ 0
  stopWaiting : s'.master = .stopWaiting → s'.stopCount = s.stopCount ∨ s'.stopCount ≠ 0

section

open Threads

variable {s s' s₁ : Threads n} {w : Fin n} {m : Mutex n} {pc pc' : WorkerPc}

/-- A worker is under the mutex of its place. -/
@[simp] theorem Threads.inside_setWorker_self :
    (s.setWorker w pc).inside (.worker w) = pc.mutex w := by
  simp only [inside, setWorker_worker, Function.update_self]

/-- A worker takes a mutex. -/
theorem WorkerStep.of_lock (hpc : s.worker w = pc)
    (hlive : pc ≠ .unborn ∧ pc ≠ .waiting ∧ pc ≠ .done)
    (hin : pc ≠ .swapIn ∧ pc ≠ .startDownIn ∧ pc ≠ .stopDownIn)
    (hnext : pc.next (s.stop w) (s.jobs w) = pc') (hbefore : pc.mutex w = none)
    (hafter : pc'.mutex w = some m)
    (h : (s.lock m (.worker w)).map (fun s => s.setWorker w pc') = some s') :
    WorkerStep s s' w := by
  obtain ⟨s₁, hlock, rfl⟩ := Option.map_eq_some_iff.1 h
  obtain ⟨hfree, rfl⟩ := lock_eq_some.1 hlock
  subst hpc
  constructor
  · exact hlive
  · rw [hnext]
    rfl
  -- the mutex is free and taken
  · exact .take m hfree hbefore (inside_setWorker_self.trans hafter) rfl
  · rfl
  · exact fun w' => .inl rfl
  · exact (if_neg hin.2.1).symm
  · exact (if_neg hin.2.2).symm
  · exact .inl rfl
  · exact fun _ => .inl rfl
  · exact fun _ => .inl rfl

/-- A worker goes on under no mutex. -/
theorem WorkerStep.of_setWorker (hpc : s.worker w = pc)
    (hlive : pc ≠ .unborn ∧ pc ≠ .waiting ∧ pc ≠ .done)
    (hnext : pc.next (s.stop w) (s.jobs w) = pc') (hbefore : pc.mutex w = none)
    (h : s.setWorker w pc' = s') : WorkerStep s s' w := by
  subst hpc h
  constructor
  · exact hlive
  · rw [hnext]
    rfl
  -- no mutex is held on either side
  · exact .keep hbefore rfl
  · rfl
  · exact fun w' => .inl rfl
  · apply (if_neg _).symm
    intro hin
    rw [hin] at hbefore
    exact nomatch hbefore
  · apply (if_neg _).symm
    intro hin
    rw [hin] at hbefore
    exact nomatch hbefore
  · exact .inl rfl
  · exact fun _ => .inl rfl
  · exact fun _ => .inl rfl

/-- A worker leaves a mutex; `s₁` is the state with what it has done under it. -/
theorem WorkerStep.of_unlock (hpc : s.worker w = pc)
    (hlive : pc ≠ .unborn ∧ pc ≠ .waiting ∧ pc ≠ .done)
    (hnext : pc.next (s.stop w) (s.jobs w) = pc') (hbefore : pc.mutex w = some m)
    (hworker : s₁.worker = s.worker) (howner : s₁.owner = s.owner) (hstop : s₁.stop = s.stop)
    (hjobs : ∀ w', s₁.jobs w' = s.jobs w' ∨ w' = w ∧ pc = .swapIn)
    (hstart : s₁.startCount = if pc = .startDownIn then s.startCount - 1 else s.startCount)
    (hstop' : s₁.stopCount = if pc = .stopDownIn then s.stopCount - 1 else s.stopCount)
    (hmaster : s₁.master = s.master ∨ s.master = .startWaiting ∧ s₁.master = .startWaked ∨
      s.master = .stopWaiting ∧ s₁.master = .stopWaked)
    (hstartWaiting : s₁.master = .startWaiting → s₁.startCount = s.startCount ∨ s₁.startCount ≠ 0)
    (hstopWaiting : s₁.master = .stopWaiting → s₁.stopCount = s.stopCount ∨ s₁.stopCount ≠ 0) :
    WorkerStep s ((s₁.unlock m).setWorker w pc') w := by
  subst hpc
  constructor
  · exact hlive
  · rw [hnext, ← hworker]
    rfl
  -- the mutex held is released
  · exact .release m hbefore (howner ▸ rfl)
  · exact hstop
  · exact hjobs
  · exact hstart
  · exact hstop'
  · exact hmaster
  · exact hstartWaiting
  · exact hstopWaiting

/-- Counting a latch down wakes the master if it waits for zero. -/
theorem Threads.startCountDown_cases (s : Threads n) :
    s.startCountDown = { s with startCount := s.startCount - 1 } ∧
      (s.master = .startWaiting → s.startCount - 1 ≠ 0) ∨
    s.startCountDown = { s with startCount := s.startCount - 1, master := .startWaked } ∧
      s.master = .startWaiting := by
  unfold startCountDown
  dsimp only
  split
  · rename_i hwakes
    exact .inr ⟨rfl, hwakes.2⟩
  · rename_i hwakes
    exact .inl ⟨rfl, fun hm hzero => hwakes ⟨hzero, hm⟩⟩

/-- The last worker wakes the master if it waits. -/
theorem Threads.stopCountDown_cases (s : Threads n) :
    s.stopCountDown = { s with stopCount := s.stopCount - 1 } ∧
      (s.master = .stopWaiting → s.stopCount - 1 ≠ 0) ∨
    s.stopCountDown = { s with stopCount := s.stopCount - 1, master := .stopWaked } ∧
      s.master = .stopWaiting := by
  unfold stopCountDown
  dsimp only
  split
  · rename_i hwakes
    exact .inr ⟨rfl, hwakes.2⟩
  · rename_i hwakes
    exact .inl ⟨rfl, fun hm hzero => hwakes ⟨hzero, hm⟩⟩

/-- The one inversion of a worker's step. -/
theorem Threads.stepWorker_step (h : s.stepWorker w = some s') : WorkerStep s s' w := by
  unfold stepWorker at h
  split at h
  · -- `unborn`
    exact nomatch h
  · -- `startDown`: `start_count_down_`'s mutex is taken
    rename_i hpc
    exact .of_lock hpc (by simp) (by simp) rfl rfl rfl h
  · -- `startDownIn`: the latch, which may wake the master
    rename_i hpc
    obtain rfl := Option.some.inj h
    cases s.startCountDown_cases with
    | inl hkept =>
      rw [hkept.1]
      exact .of_unlock hpc (by simp) rfl rfl rfl rfl rfl (fun _ => .inl rfl) rfl rfl (.inl rfl)
        (fun hm => .inr (hkept.2 hm)) fun _ => .inl rfl
    | inr hwoken =>
      rw [hwoken.1]
      exact .of_unlock hpc (by simp) rfl rfl rfl rfl rfl (fun _ => .inl rfl) rfl rfl
        (.inr (.inl ⟨hwoken.2, rfl⟩)) (fun hm => nomatch hm) fun hm => nomatch hm
  · -- `checkStop`: the test of `stop_`
    rename_i hpc
    exact .of_setWorker hpc (by simp) rfl rfl (Option.some.inj h)
  · -- `hangUp`
    rename_i hpc
    exact .of_lock hpc (by simp) (by simp) rfl rfl rfl h
  · -- `waked`
    rename_i hpc
    exact .of_lock hpc (by simp) (by simp) rfl rfl rfl h
  · -- `hangUpIn`: the test of the list
    rename_i hpc
    obtain rfl := Option.some.inj h
    exact .of_unlock hpc (by simp) rfl rfl rfl rfl rfl (fun _ => .inl rfl) rfl rfl (.inl rfl)
      (fun _ => .inl rfl) fun _ => .inl rfl
  · -- `waiting`: only a notification helps
    exact nomatch h
  · -- `swap`
    rename_i hpc
    exact .of_lock hpc (by simp) (by simp) rfl rfl rfl h
  · -- `swapIn`: the list is emptied
    rename_i hpc
    obtain rfl := Option.some.inj h
    refine .of_unlock hpc (by simp) rfl rfl rfl rfl rfl ?_ rfl rfl (.inl rfl) (fun _ => .inl rfl)
      fun _ => .inl rfl
    intro w'
    by_cases hw : w' = w
    · exact .inr ⟨hw, rfl⟩
    · exact .inl (Function.update_of_ne hw ..)
  · -- `deal 0`
    rename_i hpc
    exact .of_setWorker hpc (by simp) rfl rfl (Option.some.inj h)
  · -- `deal (k + 1)`
    rename_i hpc
    exact .of_setWorker hpc (by simp) rfl rfl (Option.some.inj h)
  · -- `pushFinish`
    rename_i hpc
    exact .of_lock hpc (by simp) (by simp) rfl rfl rfl h
  · -- `pushFinishIn`
    rename_i hpc
    obtain rfl := Option.some.inj h
    exact .of_unlock hpc (by simp) rfl rfl rfl rfl rfl (fun _ => .inl rfl) rfl rfl (.inl rfl)
      (fun _ => .inl rfl) fun _ => .inl rfl
  · -- `stopDown`
    rename_i hpc
    exact .of_lock hpc (by simp) (by simp) rfl rfl rfl h
  · -- `stopDownIn`: the latch, which may wake the master
    rename_i hpc
    obtain rfl := Option.some.inj h
    cases s.stopCountDown_cases with
    | inl hkept =>
      rw [hkept.1]
      exact .of_unlock hpc (by simp) rfl rfl rfl rfl rfl (fun _ => .inl rfl) rfl rfl (.inl rfl)
        (fun _ => .inl rfl) fun hm => .inr (hkept.2 hm)
    | inr hwoken =>
      rw [hwoken.1]
      exact .of_unlock hpc (by simp) rfl rfl rfl rfl rfl (fun _ => .inl rfl) rfl rfl
        (.inr (.inr ⟨hwoken.2, rfl⟩)) (fun hm => nomatch hm) fun hm => nomatch hm
  · -- `done`
    exact nomatch h

end

/-! ## The invariant -/

/-- The number of workers at certain places. -/
def Threads.workersAt (s : Threads n) (P : WorkerPc → Prop) [DecidablePred P] : Nat :=
  (Finset.univ.filter fun w => P (s.worker w)).card

/-- Moving one worker. -/
theorem card_update (P : WorkerPc → Prop) [DecidablePred P] (f : Fin n → WorkerPc) (w : Fin n)
    (pc : WorkerPc) :
    (Finset.univ.filter fun w' => P (Function.update f w pc w')).card + (if P (f w) then 1 else 0) =
      (Finset.univ.filter fun w' => P (f w')).card + if P pc then 1 else 0 := by
  -- as a sum in which one summand changes
  let count (pc : WorkerPc) : Nat := if P pc then 1 else 0
  have hsum : ∀ pc, ∑ w', count (Function.update f w pc w') =
      count pc + ∑ w' ∈ Finset.univ \ {w}, count (f w') := by
    intro pc
    have hcomp : (fun w' => count (Function.update f w pc w')) =
        Function.update (fun w' => count (f w')) w (count pc) := Function.comp_update count f w pc
    rw [hcomp, Finset.sum_update_of_mem (Finset.mem_univ w)]
  have hold := hsum (f w)
  rw [Function.update_eq_self] at hold
  rw [Finset.card_filter, Finset.card_filter]
  change ∑ w', count (Function.update f w pc w') + count (f w) = ∑ w', count (f w') + count pc
  rw [hsum, hold]
  omega

/-- The numbers after one worker has moved. -/
theorem Threads.workersAt_update (P : WorkerPc → Prop) [DecidablePred P] {s s' : Threads n}
    {w : Fin n} {pc : WorkerPc} (h : s'.worker = Function.update s.worker w pc) :
    s'.workersAt P + (if P (s.worker w) then 1 else 0) =
      s.workersAt P + if P pc then 1 else 0 := by
  unfold workersAt
  rw [h]
  exact card_update P s.worker w pc

/-- A worker that stays of a kind changes no count. -/
theorem Threads.workersAt_eq (P : WorkerPc → Prop) [DecidablePred P] {s s' : Threads n}
    {w : Fin n} {pc : WorkerPc} (h : s'.worker = Function.update s.worker w pc)
    (hP : P pc ↔ P (s.worker w)) : s.workersAt P = s'.workersAt P := by
  have hcard := workersAt_update P h
  simp only [hP] at hcard
  omega

/-- What holds between two steps. -/
structure Orderly (s : Threads n) : Prop where
  held : Held s.owner s.inside
  unborn : ∀ i : Nat, s.master = .create i → ∀ w : Fin n, i ≤ w → s.worker w = .unborn
  born : ∀ w, s.worker w = .unborn → ∃ i : Nat, i ≤ w ∧ s.master = .create i
  starting : s.startCount = s.workersAt WorkerPc.Starting
  stopping : s.stopCount = s.workersAt WorkerPc.Running
  startWaiting : s.master = .startWaiting → 0 < s.startCount
  stopWaiting : s.master = .stopWaiting → 0 < s.stopCount
  asked : ∀ w, s.master.Asked w → s.stop w = true
  joined : s.master = .joinAll → ∀ w, s.worker w = .done
  awake : ∀ w, s.stop w = true → (s.worker w).Hanging → s.worker w ≠ .waiting ∧ s.jobs w ≠ 0

/-- Nobody is under a mutex, and nothing was counted. -/
theorem Orderly.init : Orderly (Threads.init n) where
  held := .init
  unborn := fun _ _ _ _ => rfl
  born := fun w _ => ⟨0, Nat.zero_le w, rfl⟩
  starting := by
    change (n : Int) = ((Finset.univ.filter fun _ : Fin n => WorkerPc.unborn.Starting).card : Nat)
    rw [Finset.filter_true_of_mem fun _ _ => .inl rfl, Finset.card_univ, Fintype.card_fin]
  stopping := by
    change (n : Int) = ((Finset.univ.filter fun _ : Fin n => WorkerPc.unborn.Running).card : Nat)
    rw [Finset.filter_true_of_mem fun _ _ => by decide, Finset.card_univ, Fintype.card_fin]
  startWaiting := fun h => nomatch h
  stopWaiting := fun h => nomatch h
  asked := fun _ h => h.elim
  joined := fun h => nomatch h
  awake := fun _ h => nomatch h

section

variable {s s' : Threads n} {w : Fin n} {pc : WorkerPc} (stop : Bool) (jobs : Nat)

/-- A worker that runs has been born. -/
theorem WorkerPc.next_ne_unborn (h : pc ≠ .unborn) : pc.next stop jobs ≠ .unborn := by
  cases pc <;> simp_all [next] <;> split <;> simp_all

/-- It has started once it has counted down the start latch. -/
theorem WorkerPc.starting_next (h : pc ≠ .unborn) :
    (pc.next stop jobs).Starting ↔ pc.Starting ∧ pc ≠ .startDownIn := by
  cases pc <;> simp_all [next, Starting] <;> split <;> simp_all

/-- It runs until it has counted down the stop latch. -/
theorem WorkerPc.running_next (h : pc ≠ .done) :
    (pc.next stop jobs).Running ↔ pc ≠ .stopDownIn := by
  cases pc <;> simp_all [next, Running] <;> split <;> simp_all

variable {stop : Bool} {jobs : Nat}

/-- A worker comes to hang only past its test of `stop_`, and waits only for want of jobs. -/
theorem WorkerPc.hanging_next (h : (pc.next stop jobs).Hanging) (hw : pc ≠ .waiting) :
    pc = .checkStop ∧ stop = false ∨
      pc.Hanging ∧ pc ≠ .swapIn ∧ (pc.next stop jobs = .waiting → jobs = 0) := by
  cases pc <;> simp_all [next, Hanging] <;> split at h <;> simp_all

/-- A worker's step moves the master only from waiting for a latch. -/
theorem WorkerStep.master_kept (hs : WorkerStep s s' w)
    (h : s.master ≠ .startWaiting ∧ s.master ≠ .stopWaiting) : s'.master = s.master := by
  obtain hm | ⟨hm, -⟩ | ⟨hm, -⟩ := hs.master
  · exact hm
  · exact absurd hm h.1
  · exact absurd hm h.2

/-- A worker leaves the master where it is, unless it wakes it. -/
theorem WorkerStep.master_before {pc : MasterPc n} (hs : WorkerStep s s' w) (h : s'.master = pc)
    (hpc : pc ≠ .startWaked ∧ pc ≠ .stopWaked) : s.master = pc := by
  obtain hm | ⟨-, hm⟩ | ⟨-, hm⟩ := hs.master
  · exact hm.symm.trans h
  · exact absurd (h.symm.trans hm) hpc.1
  · exact absurd (h.symm.trans hm) hpc.2

/-- The latches keep counting the workers that have not come to them. -/
theorem WorkerStep.starting (h : Orderly s) (hs : WorkerStep s s' w) :
    s'.startCount = s'.workersAt WorkerPc.Starting := by
  have hcard := Threads.workersAt_update WorkerPc.Starting hs.worker
  have hold := h.starting
  have hnext := WorkerPc.starting_next (s.stop w) (s.jobs w) hs.live.1
  rw [hs.startCount]
  -- one worker less is starting only when it leaves the latch
  by_cases hin : s.worker w = .startDownIn
  · have hpc : (s.worker w).Starting := by
      rw [hin]
      trivial
    rw [if_pos hpc, if_neg fun h => (hnext.1 h).2 hin] at hcard
    rw [if_pos hin]
    omega
  · simp only [hnext.trans (and_iff_left hin)] at hcard
    rw [if_neg hin]
    omega

/-- The stop latch counts the workers that run. -/
theorem WorkerStep.stopping (h : Orderly s) (hs : WorkerStep s s' w) :
    s'.stopCount = s'.workersAt WorkerPc.Running := by
  have hcard := Threads.workersAt_update WorkerPc.Running hs.worker
  have hold := h.stopping
  have hdone := hs.live.2.2
  rw [hs.stopCount]
  simp only [WorkerPc.running_next _ _ hdone] at hcard
  rw [if_pos (show (s.worker w).Running from hdone)] at hcard
  by_cases hin : s.worker w = .stopDownIn
  · rw [if_neg fun h => h hin] at hcard
    rw [if_pos hin]
    omega
  · rw [if_pos hin] at hcard
    rw [if_neg hin]
    omega

/-- The mutexes after a worker's step. -/
theorem WorkerStep.held (h : Orderly s) (hs : WorkerStep s s' w) : Held s'.owner s'.inside := by
  apply h.held.step hs.owner
  intro t ht
  cases t with
  | master =>
    -- waiting or woken, the master is under no mutex
    unfold Threads.inside
    obtain hm | ⟨hm, hm'⟩ | ⟨hm, hm'⟩ := hs.master
    · rw [hm]
    · rw [hm, hm']
      rfl
    · rw [hm, hm']
      rfl
  | worker w' =>
    change (s'.worker w').mutex w' = (s.worker w').mutex w'
    rw [hs.worker, Function.update_of_ne fun hw => ht (congrArg Thread.worker hw)]

/-- A worker that was told to stop still has its jobs when it comes to hang. -/
theorem WorkerStep.awake (h : Orderly s) (hs : WorkerStep s s' w) (w' : Fin n)
    (hstop : s'.stop w' = true) (hhang : (s'.worker w').Hanging) :
    s'.worker w' ≠ .waiting ∧ s'.jobs w' ≠ 0 := by
  rw [hs.stop] at hstop
  rw [hs.worker] at hhang ⊢
  by_cases heq : w' = w
  · subst heq
    rw [Function.update_self] at hhang ⊢
    cases WorkerPc.hanging_next hhang hs.live.2.1 with
    | inl hcheck =>
      -- it has just found `stop_` not set
      exact nomatch hcheck.2.symm.trans hstop
    | inr hold =>
      obtain ⟨hold, hswap, hwait⟩ := hold
      obtain ⟨-, hjobs⟩ := h.awake w' hstop hold
      have hsame := (hs.jobs w').resolve_right fun hin => hswap hin.2
      rw [hsame]
      exact ⟨fun hw => hjobs (hwait hw), hjobs⟩
  · rw [Function.update_of_ne heq] at hhang ⊢
    have hsame := (hs.jobs w').resolve_right fun hin => heq hin.1
    rw [hsame]
    exact h.awake w' hstop hhang

/-- A worker's step keeps the invariant. -/
theorem WorkerStep.orderly (h : Orderly s) (hs : WorkerStep s s' w) : Orderly s' := by
  have hunborn := hs.live.1
  have hother : ∀ w', w' ≠ w → s'.worker w' = s.worker w' := fun w' hw' => by
    rw [hs.worker, Function.update_of_ne hw']
  constructor
  · exact hs.held h
  · -- the others that are not born stay so
    intro i hm w' hi
    have hw' := h.unborn i (hs.master_before hm (by simp)) w' hi
    rw [hother w' fun heq => hunborn (heq ▸ hw')]
    exact hw'
  · -- it was born itself
    intro w' hw'
    by_cases heq : w' = w
    · subst heq
      rw [hs.worker, Function.update_self] at hw'
      exact absurd hw' (WorkerPc.next_ne_unborn _ _ hunborn)
    · obtain ⟨i, hi, hm⟩ := h.born w' ((hother w' heq).symm.trans hw')
      exact ⟨i, hi, (hs.master_kept (by simp [hm])).trans hm⟩
  · exact hs.starting h
  · exact hs.stopping h
  · intro hm
    -- the master still waits, so the count is as before or not zero
    have hpos := h.startWaiting (hs.master_before hm (by simp))
    have hkept := hs.startWaiting hm
    have hcount := hs.starting h
    omega
  · intro hm
    have hpos := h.stopWaiting (hs.master_before hm (by simp))
    have hkept := hs.stopWaiting hm
    have hcount := hs.stopping h
    omega
  · -- `stop_` is not the worker's to set
    intro w' hasked
    rw [hs.stop]
    apply h.asked w'
    obtain hm | ⟨-, hm⟩ | ⟨hm, -⟩ := hs.master
    · rw [← hm]
      exact hasked
    · rw [hm] at hasked
      exact hasked.elim
    · rw [hm]
      trivial
  · -- when the workers are joined none can make a step
    exact fun hm => absurd (h.joined (hs.master_before hm (by simp)) w) hs.live.2.2
  · exact hs.awake h

/-! ## The master's step -/

/-- A step of the master that keeps what the workers have. -/
theorem Orderly.of_master (h : Orderly s)
    (howner : OwnerStep s.owner s'.owner s.inside s'.inside .master)
    (hworker : s'.worker = s.worker)
    (hjobs : s'.jobs = s.jobs) (hstop : s'.stop = s.stop) (hstart : s'.startCount = s.startCount)
    (hstop' : s'.stopCount = s.stopCount)
    (hunborn : ∀ i, s'.master ≠ .create i) (hborn : ∀ i, s.master = .create i → n ≤ i)
    (hstartWaiting : s'.master = .startWaiting → 0 < s.startCount)
    (hstopWaiting : s'.master = .stopWaiting → 0 < s.stopCount)
    (hasked : ∀ w, s'.master.Asked w → s.master.Asked w)
    (hjoined : s'.master = .joinAll → ∀ w, s.worker w = .done) : Orderly s' := by
  constructor
  · -- the mutexes
    apply h.held.step howner
    intro t ht
    cases t with
    | master => exact absurd rfl ht
    | worker w =>
      change (s'.worker w).mutex w = (s.worker w).mutex w
      rw [hworker]
  · -- who is not born yet
    exact fun i hi => absurd hi (hunborn i)
  · -- and whoever is not born is still to be created
    intro w hw
    rw [hworker] at hw
    obtain ⟨i, hi, hm⟩ := h.born w hw
    have hn := hborn i hm
    have hw := w.isLt
    omega
  · -- the first latch
    unfold Threads.workersAt
    rw [hstart, hworker]
    exact h.starting
  · -- the second latch
    unfold Threads.workersAt
    rw [hstop', hworker]
    exact h.stopping
  · rw [hstart]
    exact hstartWaiting
  · rw [hstop']
    exact hstopWaiting
  · rw [hstop]
    exact fun w hw => h.asked w (hasked w hw)
  · rw [hworker]
    exact hjoined
  · rw [hworker, hjobs, hstop]
    exact h.awake

/-- The master takes a mutex to go on to `pc`. -/
theorem Orderly.of_masterLock {m : Mutex n} {pc : MasterPc n} (h : Orderly s)
    (hs : (s.lock m .master).map (fun s => s.setMaster pc) = some s')
    (hbefore : s.master.mutex = none) (hafter : pc.mutex = some m)
    (hborn : ∀ i, s.master ≠ .create i)
    (hasked : ∀ w, pc.Asked w → s.master.Asked w) : Orderly s' := by
  obtain ⟨s₁, hlock, rfl⟩ := Option.map_eq_some_iff.1 hs
  obtain ⟨hfree, rfl⟩ := Threads.lock_eq_some.1 hlock
  refine h.of_master (.take m hfree hbefore hafter rfl) rfl rfl rfl rfl rfl ?_
    (fun i hi => absurd hi (hborn i)) ?_ ?_ hasked ?_
  · rintro i rfl
    exact nomatch hafter
  · rintro rfl
    exact nomatch hafter
  · rintro rfl
    exact nomatch hafter
  · rintro rfl
    exact nomatch hafter

/-- The master goes on under no mutex. -/
theorem Orderly.of_setMaster {pc : MasterPc n} (h : Orderly s) (hmutex : s.master.mutex = none)
    (hpc : (∀ i, pc ≠ .create i) ∧ pc ≠ .startWaiting ∧ pc ≠ .stopWaiting ∧ pc ≠ .joinAll)
    (hborn : ∀ i, s.master = .create i → n ≤ i) (hasked : ∀ w, pc.Asked w → s.master.Asked w) :
    Orderly (s.setMaster pc) := by
  obtain ⟨hcreate, hstart, hstop, hjoin⟩ := hpc
  refine h.of_master (.keep hmutex rfl) rfl rfl rfl rfl rfl ?_ ?_ ?_ ?_ ?_ ?_
  · exact hcreate
  · exact hborn
  · exact fun hm => absurd hm hstart
  · exact fun hm => absurd hm hstop
  · exact hasked
  · exact fun hm => absurd hm hjoin

/-- The master waits for `start_count_down_`, unless it is zero. -/
theorem Orderly.of_startWait (h : Orderly s) (hm : s.master = .startWaitIn) :
    Orderly ((s.unlock .start).setMaster (if s.startCount > 0 then .startWaiting else .idle)) := by
  -- the master holds the start latch's mutex
  have hmutex : s.inside .master = some .start := by
    unfold Threads.inside
    rw [hm]
    rfl
  refine h.of_master (.release .start hmutex rfl) rfl rfl rfl rfl rfl ?_ ?_ ?_ ?_ ?_ ?_
  · intro i
    split <;> exact fun h => nomatch h
  · exact fun _ h => nomatch hm.symm.trans h
  -- it goes to sleep only while workers are missing
  · intro hwait
    change (if s.startCount > 0 then _ else _) = _ at hwait
    split at hwait
    · assumption
    · exact nomatch hwait
  · split <;> exact fun h => nomatch h
  -- nobody is asked to stop yet
  · intro w hasked
    change MasterPc.Asked w (if s.startCount > 0 then _ else _) at hasked
    split at hasked <;> exact hasked.elim
  · split <;> exact fun h => nomatch h

/-- The master waits for `stop_count_down_`; at zero every worker has returned. -/
theorem Orderly.of_stopWait (h : Orderly s) (hm : s.master = .stopWaitIn) :
    Orderly ((s.unlock .stop).setMaster (if s.stopCount > 0 then .stopWaiting else .joinAll)) := by
  -- the latch counts the workers that have not returned
  have hfree : ∀ w, s.worker w ≠ .done → 0 < s.stopCount := by
    intro w hw
    rw [h.stopping]
    exact Int.natCast_pos.2 (Finset.card_pos.2 ⟨w, Finset.mem_filter.2 ⟨Finset.mem_univ w, hw⟩⟩)
  have hmutex : s.inside .master = some .stop := by
    unfold Threads.inside
    rw [hm]
    rfl
  refine h.of_master (.release .stop hmutex rfl) rfl rfl rfl rfl rfl ?_ ?_ ?_ ?_ ?_ ?_
  · intro i
    split <;> exact fun h => nomatch h
  · exact fun _ h => nomatch hm.symm.trans h
  · split <;> exact fun h => nomatch h
  · intro hwait
    change (if s.stopCount > 0 then _ else _) = _ at hwait
    split at hwait
    · assumption
    · exact nomatch hwait
  · exact fun _ _ => hm ▸ trivial
  · intro hjoin w
    change (if s.stopCount > 0 then _ else _) = _ at hjoin
    split at hjoin
    · exact nomatch hjoin
    · rename_i hzero
      by_contra hw
      exact hzero (hfree w hw)

/-- A worker after a notification. -/
def WorkerPc.wake (pc : WorkerPc) : WorkerPc := if pc = waiting then waked else pc

/-- A notification reaches a worker that waits. -/
theorem WorkerPc.wake_cases (pc : WorkerPc) :
    pc = .waiting ∧ pc.wake = .waked ∨ pc.wake = pc := by
  by_cases h : pc = .waiting
  · exact .inl ⟨h, if_pos h⟩
  · exact .inr (if_neg h)

/-- It changes nothing about the start, -/
theorem WorkerPc.starting_wake (pc : WorkerPc) : pc.wake.Starting ↔ pc.Starting := by
  obtain ⟨rfl, -⟩ | h := pc.wake_cases
  · decide
  · rw [h]

/-- nor about the stop. -/
theorem WorkerPc.running_wake (pc : WorkerPc) : pc.wake.Running ↔ pc.Running := by
  obtain ⟨rfl, -⟩ | h := pc.wake_cases
  · decide
  · rw [h]

/-- A worker that was woken does not wait. -/
theorem WorkerPc.hanging_wake {pc : WorkerPc} (h : pc.wake.Hanging) :
    pc.Hanging ∧ pc.wake ≠ .waiting := by
  obtain ⟨rfl, -⟩ | hpc := pc.wake_cases
  · exact ⟨.inr (.inr (.inl rfl)), by decide⟩
  · refine ⟨hpc ▸ h, fun hw => ?_⟩
    have hwait : pc = .waiting := hpc.symm.trans hw
    subst hwait
    exact nomatch hw

/-- It has yet to take its mutex. -/
theorem WorkerPc.mutex_wake (pc : WorkerPc) (w : Fin n) : pc.wake.mutex w = pc.mutex w := by
  obtain ⟨rfl, -⟩ | h := pc.wake_cases
  · rfl
  · rw [h]

/-- A notification is no birth. -/
theorem WorkerPc.wake_ne_unborn {pc : WorkerPc} (hpc : pc ≠ .unborn) : pc.wake ≠ .unborn := by
  obtain ⟨rfl, -⟩ | h := pc.wake_cases
  · decide
  · rw [h]
    exact hpc

/-- A notification concerns one worker. -/
theorem Threads.notify_worker (s : Threads n) (w : Fin n) :
    s.notify w = { s with worker := Function.update s.worker w (s.worker w).wake } := by
  unfold notify WorkerPc.wake
  split
  · rfl
  · rw [Function.update_eq_self]

/-- The master, under a worker's mutex, gives it jobs or sets its `stop_` and notifies it. -/
theorem Orderly.of_notify {pc : MasterPc n} {jobs : Fin n → Nat} {stop : Fin n → Bool}
    (h : Orderly s) (hmutex : s.master.mutex = some (.worker w))
    (hpc : (∀ i, pc ≠ .create i) ∧ pc ≠ .startWaiting ∧ pc ≠ .stopWaiting ∧ pc ≠ .joinAll)
    (hasked : ∀ w', pc.Asked w' → stop w' = true)
    (hawake : ∀ w', stop w' = true → (s.worker w').Hanging →
      (w' ≠ w → s.worker w' ≠ .waiting) ∧ jobs w' ≠ 0) :
    Orderly (((({ s with jobs := jobs, stop := stop } : Threads n).notify w).unlock
      (.worker w)).setMaster pc) := by
  rw [Threads.notify_worker]
  have hcreate : ∀ i, s.master ≠ .create i := by
    intro i hi
    rw [hi] at hmutex
    exact nomatch hmutex
  have hborn : ∀ w', s.worker w' ≠ .unborn := by
    intro w' hw'
    obtain ⟨i, -, hi⟩ := h.born w' hw'
    exact hcreate i hi
  constructor
  · -- the mutexes: `Wake` changes no place that holds one
    apply h.held.step (.release (.worker w) (show s.inside .master = _ from hmutex) rfl)
    intro t ht
    cases t with
    | master => exact absurd rfl ht
    | worker w' =>
      change (Function.update s.worker w (s.worker w).wake w').mutex w' = (s.worker w').mutex w'
      by_cases heq : w' = w
      · subst heq
        rw [Function.update_self, WorkerPc.mutex_wake]
      · rw [Function.update_of_ne heq]
  · exact fun i hi => absurd hi (hpc.1 i)
  · -- a worker that is woken was born
    intro w' hw'
    change Function.update s.worker w (s.worker w).wake w' = _ at hw'
    by_cases heq : w' = w
    · subst heq
      rw [Function.update_self] at hw'
      exact absurd hw' (WorkerPc.wake_ne_unborn (hborn w'))
    · rw [Function.update_of_ne heq] at hw'
      exact absurd hw' (hborn w')
  · exact h.starting.trans (congrArg Nat.cast
      (Threads.workersAt_eq WorkerPc.Starting rfl (WorkerPc.starting_wake (s.worker w))))
  · exact h.stopping.trans (congrArg Nat.cast
      (Threads.workersAt_eq WorkerPc.Running rfl (WorkerPc.running_wake (s.worker w))))
  · exact fun hm => absurd hm hpc.2.1
  · exact fun hm => absurd hm hpc.2.2.1
  · exact hasked
  · exact fun hm => absurd hm hpc.2.2.2
  · -- the one that is notified does not wait any more
    intro w' hstop hhang
    change (Function.update s.worker w (s.worker w).wake w').Hanging at hhang
    change Function.update s.worker w (s.worker w).wake w' ≠ _ ∧ jobs w' ≠ 0
    by_cases heq : w' = w
    · subst heq
      rw [Function.update_self] at hhang ⊢
      obtain ⟨hold, hwait⟩ := WorkerPc.hanging_wake hhang
      exact ⟨hwait, (hawake w' hstop hold).2⟩
    · rw [Function.update_of_ne heq] at hhang ⊢
      obtain ⟨hwait, hjobs⟩ := hawake w' hstop hhang
      exact ⟨hwait heq, hjobs⟩

/-- `Create` starts another worker. -/
theorem Orderly.of_create {i : Nat} (h : Orderly s) (hm : s.master = .create i) (hi : i < n) :
    Orderly ((s.setWorker ⟨i, hi⟩ .startDown).setMaster (.create (i + 1))) := by
  have hunborn : s.worker ⟨i, hi⟩ = .unborn := h.unborn i hm ⟨i, hi⟩ (Nat.le_refl i)
  have hupdate : ∀ w' : Fin n, (w' : Nat) ≠ i →
      Function.update s.worker ⟨i, hi⟩ .startDown w' = s.worker w' := fun w' hw' =>
    Function.update_of_ne (fun heq => hw' (congrArg Fin.val heq)) ..
  constructor
  · -- the mutexes: the new worker holds none
    have houtside : s.inside .master = none := by
      unfold Threads.inside
      rw [hm]
      rfl
    apply h.held.step (.keep houtside rfl)
    intro t ht
    cases t with
    | master => exact absurd rfl ht
    | worker w' =>
      change (Function.update s.worker ⟨i, hi⟩ .startDown w').mutex w' = (s.worker w').mutex w'
      by_cases heq : (w' : Nat) = i
      · obtain rfl : w' = ⟨i, hi⟩ := Fin.ext heq
        rw [Function.update_self, hunborn]
        rfl
      · rw [hupdate w' heq]
  · -- the workers behind it are not born
    intro j hj w' hw'
    obtain rfl := MasterPc.create.inj hj
    change Function.update s.worker ⟨i, hi⟩ .startDown w' = _
    rw [hupdate w' (by omega)]
    exact h.unborn i hm w' (by omega)
  · -- nor are there others
    intro w' hw'
    change Function.update s.worker ⟨i, hi⟩ .startDown w' = _ at hw'
    refine ⟨i + 1, ?_, rfl⟩
    by_cases heq : (w' : Nat) = i
    · obtain rfl : w' = ⟨i, hi⟩ := Fin.ext heq
      rw [Function.update_self] at hw'
      exact nomatch hw'
    · rw [hupdate w' heq] at hw'
      obtain ⟨j, hj, hm'⟩ := h.born w' hw'
      obtain rfl := MasterPc.create.inj (hm.symm.trans hm')
      omega
  · -- it counts both latches down, as before
    have hsame : WorkerPc.startDown.Starting ↔ (s.worker ⟨i, hi⟩).Starting := by
      rw [hunborn]
      decide
    exact h.starting.trans (congrArg Nat.cast (Threads.workersAt_eq WorkerPc.Starting rfl hsame))
  · have hsame : WorkerPc.startDown.Running ↔ (s.worker ⟨i, hi⟩).Running := by
      rw [hunborn]
      decide
    exact h.stopping.trans (congrArg Nat.cast (Threads.workersAt_eq WorkerPc.Running rfl hsame))
  · exact fun hm => nomatch hm
  · exact fun hm => nomatch hm
  · exact fun _ hasked => hasked.elim
  · exact fun hm => nomatch hm
  · -- it does not hang
    intro w' hstop hhang
    change (Function.update s.worker ⟨i, hi⟩ .startDown w').Hanging at hhang
    change Function.update s.worker ⟨i, hi⟩ .startDown w' ≠ _ ∧ _
    by_cases heq : (w' : Nat) = i
    · obtain rfl : w' = ⟨i, hi⟩ := Fin.ext heq
      rw [Function.update_self] at hhang
      exact absurd hhang (by unfold WorkerPc.Hanging; decide)
    · rw [hupdate w' heq] at hhang ⊢
      exact h.awake w' hstop hhang

/-- No worker is told to stop between its test of `stop_` and its swap with nothing to do. -/
def WakesReady (s : Threads n) (a : Threads.Action n) : Prop :=
  a = .master → ∀ w, s.master = .wakeStopIn w → s.jobs w = 0 → ¬ (s.worker w).Hanging

/-- `PushJob` gives a worker another job. -/
theorem Orderly.of_pushJob (h : Orderly s) (hm : s.master = .pushJobIn w) :
    Orderly (((({ s with jobs := Function.update s.jobs w (s.jobs w + 1) } : Threads n).notify
      w).unlock (.worker w)).setMaster .idle) := by
  refine h.of_notify (hm ▸ rfl) (by simp) (fun _ h => h.elim) ?_
  intro w' hstop hhang
  obtain ⟨hwait, hjobs⟩ := h.awake w' hstop hhang
  refine ⟨fun _ => hwait, ?_⟩
  rw [Function.update_apply]
  split
  · exact Nat.succ_ne_zero _
  · exact hjobs

/-- `WakeStop` of a worker that has something to do or is not about to hang. -/
theorem Orderly.of_wakeStop (h : Orderly s) (hm : s.master = .wakeStopIn w)
    (hready : s.jobs w = 0 → ¬ (s.worker w).Hanging) :
    Orderly (((({ s with stop := Function.update s.stop w true } : Threads n).notify
      w).unlock (.worker w)).setMaster (.wakeStop (w + 1))) := by
  refine h.of_notify (hm ▸ rfl) (by simp) ?_ ?_
  -- the worker woken now is asked to stop, the earlier ones were before
  · intro w' hw'
    rw [Function.update_apply]
    split
    · rfl
    · rename_i hne
      apply h.asked w'
      rw [hm]
      exact lt_of_le_of_ne (Nat.le_of_lt_succ hw') hne
  -- it does not hang, or has jobs to wake for
  · intro w' hstop hhang
    by_cases heq : w' = w
    · subst heq
      exact ⟨fun hne => absurd rfl hne, fun hjobs => hready hjobs hhang⟩
    · rw [Function.update_of_ne heq] at hstop
      obtain ⟨hwait, hjobs⟩ := h.awake w' hstop hhang
      exact ⟨fun _ => hwait, hjobs⟩

/-- The master's step inside a call keeps the invariant. -/
theorem Threads.orderly_stepMaster (h : Orderly s) (hready : WakesReady s .master)
    (hs : s.stepMaster = some s') : Orderly s' := by
  unfold stepMaster at hs
  split at hs
  · -- `create`: another worker, or all are there
    rename_i i hm
    split at hs
    · rename_i hi
      exact Option.some.inj hs ▸ h.of_create hm hi
    · rename_i hi
      obtain rfl := Option.some.inj hs
      refine h.of_setMaster (hm ▸ rfl) (by simp) ?_ fun _ h => h.elim
      intro j hj
      obtain rfl := MasterPc.create.inj (hm.symm.trans hj)
      omega
  · -- `startWait`
    rename_i hm
    exact h.of_masterLock hs (hm ▸ rfl) rfl (fun _ h => nomatch hm.symm.trans h) fun _ h => h.elim
  · -- `startWaked`
    rename_i hm
    exact h.of_masterLock hs (hm ▸ rfl) rfl (fun _ h => nomatch hm.symm.trans h) fun _ h => h.elim
  · -- `startWaitIn`
    rename_i hm
    exact Option.some.inj hs ▸ h.of_startWait hm
  · -- `startWaiting`: the latch wakes it
    exact nomatch hs
  · -- `idle`: only a call goes on
    exact nomatch hs
  · -- `pushJob`
    rename_i w hm
    exact h.of_masterLock hs (hm ▸ rfl) rfl (fun _ h => nomatch hm.symm.trans h) fun _ h => h.elim
  · -- `pushJobIn`
    rename_i w hm
    exact Option.some.inj hs ▸ h.of_pushJob hm
  · -- `wakeStop`: another worker, or all were asked
    rename_i i hm
    split at hs
    · rename_i hi
      apply h.of_masterLock hs (hm ▸ rfl) rfl fun _ h => nomatch hm.symm.trans h
      intro w hw
      rw [hm]
      exact hw
    · rename_i hi
      obtain rfl := Option.some.inj hs
      refine h.of_setMaster (hm ▸ rfl) (by simp) (fun _ h => nomatch hm.symm.trans h) ?_
      intro w _
      rw [hm]
      exact Nat.lt_of_lt_of_le w.isLt (Nat.le_of_not_lt hi)
  · -- `wakeStopIn`: the step the condition is about
    rename_i w hm
    exact Option.some.inj hs ▸ h.of_wakeStop hm (hready rfl w hm)
  · -- `stopWait`
    rename_i hm
    exact h.of_masterLock hs (hm ▸ rfl) rfl (fun _ h => nomatch hm.symm.trans h)
      fun _ _ => hm ▸ trivial
  · -- `stopWaked`
    rename_i hm
    exact h.of_masterLock hs (hm ▸ rfl) rfl (fun _ h => nomatch hm.symm.trans h)
      fun _ _ => hm ▸ trivial
  · -- `stopWaitIn`
    rename_i hm
    exact Option.some.inj hs ▸ h.of_stopWait hm
  · -- `stopWaiting`: the latch wakes it
    exact nomatch hs
  · -- `joinAll`
    rename_i hm
    split at hs
    · obtain rfl := Option.some.inj hs
      exact h.of_setMaster (hm ▸ rfl) (by simp) (fun _ h => nomatch hm.symm.trans h)
        fun _ _ => hm ▸ trivial
    · exact nomatch hs
  · -- `closed`
    exact nomatch hs

/-- Every step whose wake comes in time keeps the invariant. -/
theorem Threads.orderly_step {a : Action n} (h : Orderly s) (hready : WakesReady s a)
    (hs : s.step a = some s') : Orderly s' := by
  cases a with
  -- `RequestUrl` and `Close` only move the idle master
  | worker w => exact (stepWorker_step hs).orderly h
  | master => exact orderly_stepMaster h hready hs
  | requestUrl i32₂ =>
    unfold step at hs
    dsimp only at hs
    split at hs
    · rename_i hm
      obtain rfl := Option.some.inj hs
      exact h.of_setMaster (hm.1 ▸ rfl) (by simp) (fun _ h => nomatch hm.1.symm.trans h)
        fun _ h => h.elim
    · exact nomatch hs
  | close =>
    unfold step at hs
    dsimp only at hs
    split at hs
    · rename_i hm
      obtain rfl := Option.some.inj hs
      exact h.of_setMaster (hm ▸ rfl) (by simp) (fun _ h => nomatch hm.symm.trans h)
        fun _ h => absurd h (Nat.not_lt_zero _)
    · exact nomatch hs

/-! ## Progress -/

/-- A thread can take a free mutex. -/
theorem Threads.lock_isSome {m : Mutex n} {t : Thread n} {f : Threads n → Threads n}
    (h : s.owner m = none) : ((s.lock m t).map f).isSome := by
  rw [lock_eq_some.2 ⟨h, rfl⟩]
  rfl

/-- A worker under a mutex can go on. -/
theorem Threads.stepWorker_of_inside {m : Mutex n} (h : (s.worker w).mutex w = some m) :
    (s.stepWorker w).isSome := by
  unfold stepWorker
  unfold WorkerPc.mutex at h
  split at h <;> simp_all

/-- With all mutexes free every worker can go on that is not waiting. -/
theorem Threads.stepWorker_of_free (hfree : ∀ m, s.owner m = none)
    (hlive : s.worker w ≠ .unborn ∧ s.worker w ≠ .waiting ∧ s.worker w ≠ .done) :
    (s.stepWorker w).isSome := by
  unfold stepWorker
  split <;> first | exact lock_isSome (hfree _) | rfl | simp_all

/-- Under a mutex the master can go on. -/
theorem Threads.stepMaster_of_inside {m : Mutex n} (h : s.master.mutex = some m) :
    s.stepMaster.isSome := by
  unfold stepMaster
  unfold MasterPc.mutex at h
  split at h <;> simp_all

/-- So can it where it waits for a mutex only. -/
theorem Threads.stepMaster_of_free (hfree : ∀ m, s.owner m = none)
    (hlive : s.master ≠ .startWaiting ∧ s.master ≠ .idle ∧ s.master ≠ .stopWaiting ∧
      s.master ≠ .closed) (hjoined : s.master = .joinAll → ∀ w, s.worker w = .done) :
    s.stepMaster.isSome := by
  unfold stepMaster
  split <;> first
    | exact lock_isSome (hfree _)
    | rfl
    | split <;> first | exact lock_isSome (hfree _) | rfl
    | simp_all

/-- A step that tells no worker to stop where it would hang. -/
def ReadyStep (s s' : Threads n) : Prop := ∃ a, WakesReady s a ∧ s.step a = some s'

/-- Some thread can go on. -/
theorem Orderly.progress (h : Orderly s) (hopen : s.master ≠ .closed) :
    ∃ a, (s.step a).isSome := by
  by_cases hin : ∃ t m, s.inside t = some m
  · -- the owner of a mutex
    obtain ⟨t, m, ht⟩ := hin
    cases t with
    | master => exact ⟨.master, Threads.stepMaster_of_inside ht⟩
    | worker w => exact ⟨.worker w, Threads.stepWorker_of_inside ht⟩
  · have hfree : ∀ m, s.owner m = none := fun m => h.held.free fun t ht => hin ⟨t, m, ht⟩
    by_cases hidle : s.master = .idle
    · refine ⟨.close, ?_⟩
      unfold Threads.step
      dsimp only
      rw [if_pos hidle]
      rfl
    by_cases hwait : s.master = .startWaiting ∨ s.master = .stopWaiting
    · -- a worker that still has to count down is neither unborn nor waiting
      have hlive : ∃ w, s.worker w ≠ .unborn ∧ s.worker w ≠ .waiting ∧ s.worker w ≠ .done := by
        have hborn : ∀ w, s.worker w ≠ .unborn := by
          intro w hw
          obtain ⟨i, -, hi⟩ := h.born w hw
          cases hwait with
          | inl hm => exact nomatch hi.symm.trans hm
          | inr hm => exact nomatch hi.symm.trans hm
        cases hwait with
        | inl hm =>
          have hcount := h.startWaiting hm
          rw [h.starting] at hcount
          obtain ⟨w, hw⟩ := Finset.card_pos.1 (Int.natCast_pos.1 hcount)
          have hstarting := (Finset.mem_filter.1 hw).2
          refine ⟨w, hborn w, ?_, ?_⟩
          · intro hpc
            rw [hpc] at hstarting
            exact absurd hstarting (by decide)
          · intro hpc
            rw [hpc] at hstarting
            exact absurd hstarting (by decide)
        | inr hm =>
          have hcount := h.stopWaiting hm
          rw [h.stopping] at hcount
          obtain ⟨w, hw⟩ := Finset.card_pos.1 (Int.natCast_pos.1 hcount)
          have hstop := h.asked w (hm ▸ trivial)
          refine ⟨w, hborn w, ?_, (Finset.mem_filter.1 hw).2⟩
          intro hpc
          exact (h.awake w hstop (.inr (.inr (.inl hpc)))).1 hpc
      obtain ⟨w, hw⟩ := hlive
      exact ⟨.worker w, Threads.stepWorker_of_free hfree hw⟩
    · have hnot := not_or.1 hwait
      exact ⟨.master, Threads.stepMaster_of_free hfree ⟨hnot.1, hidle, hnot.2, hopen⟩ h.joined⟩

end

/-- As long as no worker is told to stop between its test of `stop_` and its swap with nothing to
    do, some thread can go on until `Close` has returned. -/
theorem close_not_stuck (n : Nat) (s : Threads n)
    (h : Relation.ReflTransGen ReadyStep (Threads.init n) s) (hopen : s.master ≠ .closed) :
    ∃ a, (s.step a).isSome := by
  have horderly : Orderly s := by
    clear hopen
    induction h with
    | refl => exact .init
    | tail _ hstep ih =>
      obtain ⟨a, hready, hs⟩ := hstep
      exact Threads.orderly_step ih hready hs
  exact horderly.progress hopen

instance : DecidablePred WorkerPc.Hanging := fun _ => inferInstanceAs (Decidable (_ ∨ _ ∨ _ ∨ _))

instance (s : Threads n) (a : Threads.Action n) : Decidable (WakesReady s a) :=
  inferInstanceAs (Decidable (_ → _))

/-- Steps one after another, as long as they meet the condition. -/
def Threads.runReady : Threads n → List (Threads.Action n) → Option (Threads n)
  | s, [] => some s
  | s, a :: as => if WakesReady s a then (s.step a).bind fun s => s.runReady as else none

/-- A run whose wakes come in time. -/
theorem Threads.readySteps_of_runReady {s s' : Threads n} {as : List (Threads.Action n)}
    (h : s.runReady as = some s') : Relation.ReflTransGen ReadyStep s s' := by
  induction as generalizing s with
  | nil =>
    obtain rfl := Option.some.inj h
    exact .refl
  | cons a as ih =>
    unfold runReady at h
    split at h
    · rename_i hready
      obtain ⟨s₁, hs, hrun⟩ := Option.bind_eq_some_iff.1 h
      exact .head ⟨a, hready, hs⟩ (ih hrun)
    · exact nomatch h

/-- Each worker `k` times. -/
def eachWorker (k : Nat) : List (Threads.Action kWorkerNum) :=
  (List.finRange kWorkerNum).flatMap fun w => List.replicate k (.worker w)

/-- The workers start and wait for jobs, each is given one, and `Close` asks them to stop before
    they have taken it. -/
def queuedRun : List (Threads.Action kWorkerNum) :=
  List.replicate 6 .master ++ eachWorker 5 ++ [.master, .master] ++
    (List.range kWorkerNum).flatMap (fun key => [.requestUrl key, .master, .master]) ++ [.close] ++
    List.replicate 13 .master

/-- Where every worker was told to stop with a job in its list. -/
theorem close_not_stuck_queued :
    ∃ s : Threads kWorkerNum, s.master = .stopWaiting ∧
      (∀ w, s.stop w = true ∧ s.jobs w = 1 ∧ s.worker w = .waked) ∧ ∃ a, (s.step a).isSome := by
  have hlast : ((Threads.init kWorkerNum).runReady queuedRun).map (fun s => (s.master,
      decide (∀ w, s.stop w = true ∧ s.jobs w = 1 ∧ s.worker w = .waked))) =
      some (.stopWaiting, true) := by
    decide +kernel
  obtain ⟨s, hrun, hs⟩ := Option.map_eq_some_iff.1 hlast
  obtain ⟨hm, hqueued⟩ := Prod.mk.inj hs
  exact ⟨s, hm, of_decide_eq_true hqueued,
    close_not_stuck kWorkerNum s (Threads.readySteps_of_runReady hrun) fun hc =>
      nomatch hm.symm.trans hc⟩

/-- The workers start and wait for jobs; there are none; `Close` asks them to stop, and they wait
    again. -/
def stuckRun : List (Threads.Action kWorkerNum) :=
  List.replicate 6 .master ++ eachWorker 5 ++ [.master, .master, .close] ++
    List.replicate 11 .master ++
    eachWorker 2 ++ [.master, .master]

/-- A run is a sequence of steps. -/
theorem Threads.exists_of_run {n : Nat} {s s' : Threads n} {as : List (Threads.Action n)}
    (h : s.run as = some s') :
    Relation.ReflTransGen (fun s s' => ∃ a, s.step a = some s') s s' := by
  induction as generalizing s with
  | nil =>
    obtain rfl := Option.some.inj h
    exact .refl
  | cons a as ih =>
    obtain ⟨s₁, hs, hrun⟩ := Option.bind_eq_some_iff.1 h
    exact .head ⟨a, hs⟩ (ih hrun)

/-- `Close` on workers without jobs: nobody can go on. -/
theorem not_close_not_stuck :
    ∃ s : Threads kWorkerNum,
      Relation.ReflTransGen (fun s s' => ∃ a, s.step a = some s') (Threads.init kWorkerNum) s ∧
      s.master = .stopWaiting ∧ ∀ a, s.step a = none := by
  have hlast : ((Threads.init kWorkerNum).run stuckRun).map
      (fun s => (s.master, decide (∀ w, s.worker w = .waiting))) = some (.stopWaiting, true) := by
    decide +kernel
  obtain ⟨s, hrun, hs⟩ := Option.map_eq_some_iff.1 hlast
  obtain ⟨hm, hwaiting⟩ := Prod.mk.inj hs
  have hall := of_decide_eq_true hwaiting
  refine ⟨s, Threads.exists_of_run hrun, hm, ?_⟩
  intro a
  cases a with
  | worker w => simp only [Threads.step, Threads.stepWorker, hall w]
  | master => simp only [Threads.step, Threads.stepMaster, hm]
  | requestUrl i32₂ => simp only [Threads.step, hm, reduceCtorEq, false_and, ↓reduceDIte]
  | close => simp only [Threads.step, hm, reduceCtorEq, ↓reduceIte]

end XGame3.Http
