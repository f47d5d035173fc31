import Mathlib.Data.List.Basic
import XGame3.ForStd.Progress
import XGame3.Spec.HttpJobsOnce

/-!
# Every job is answered

A job is first in the hands of its worker and then in those of the master.  Each of them works
its lists off from the front, so the place of the job in the lists says how many moves of that
thread it still takes (`delay`, `Process.delay`); jobs pushed meanwhile queue up behind it.

Key results:
- `helped_worker`, `helped_master`: each move brings the job nearer to its callback.
- `every_job_called_back`: in a fair run every pushed job is called back, and only once.
-/

namespace XGame3.Http

open Progress

universe u

variable {W C V : Type u}

/-! ## Fair runs -/

/-- The worker waits in `HangUp`. -/
def Jobs.Blocked (s : Jobs W C V) (w : W) : Prop := s.svc w = .hangUp ∧ s.job_list w = []

/-- A worker that has a job goes on, so `GetResponse` returns; and the master goes on, so a
    callback returns and `ProcessFinishJobs` is called again. -/
structure Fair (run : Nat → Jobs W C V) : Prop where
  worker : ∀ w n, ¬ (run n).Blocked w → ∃ m, n ≤ m ∧ (run (m + 1)).svc w ≠ (run m).svc w
  master : ∀ n, ∃ m, n ≤ m ∧ (run (m + 1)).process ≠ (run m).process

/-! ## The place of a job -/

/-- The numbers of some jobs. -/
def idsOf (jobs : List (JobNodePtr W C V)) : List Nat := jobs.map JobNodePtr.id

/-- No job. -/
@[simp] theorem idsOf_nil : idsOf ([] : List (JobNodePtr W C V)) = [] := rfl

/-- One more job. -/
@[simp] theorem idsOf_cons (job : JobNodePtr W C V) (jobs : List (JobNodePtr W C V)) :
    idsOf (job :: jobs) = job.id :: idsOf jobs := rfl

/-- Jobs in two parts. -/
@[simp] theorem idsOf_append (jobs jobs' : List (JobNodePtr W C V)) :
    idsOf (jobs ++ jobs') = idsOf jobs ++ idsOf jobs' := List.map_append

/-- An answer is no new job. -/
@[simp] theorem id_respond (job : JobNodePtr W C V) (json_value : V) :
    (job.respond json_value).id = job.id := rfl

/-- The moves to the next swap, for a job that is not in the local list. -/
def untilSwap (k : Nat) (batch : List Nat) (reload : Nat) : Nat := if k ∈ batch then 0 else reload

/-- The job is in the batch already. -/
theorem untilSwap_of_mem {k : Nat} {batch : List Nat} (reload : Nat) (h : k ∈ batch) :
    untilSwap k batch reload = 0 := if_pos h

/-- The batch is done. -/
@[simp] theorem untilSwap_nil (k reload : Nat) : untilSwap k [] reload = reload :=
  if_neg List.not_mem_nil

/-- Another job is taken from the batch. -/
theorem untilSwap_cons_of_ne {k a : Nat} (batch : List Nat) (reload : Nat) (h : a ≠ k) :
    untilSwap k (a :: batch) reload = untilSwap k batch reload := by
  simp [untilSwap, h.symm]

/-- The numbers of the jobs a worker holds, in the order of its work. -/
def Svc.held (svc : Svc (JobNodePtr W C V)) (job_list : List (JobNodePtr W C V)) : List Nat :=
  idsOf svc.executing ++ (idsOf svc.batch ++ idsOf job_list)

/-- The moves from the end of the local list to the next swap. -/
def Svc.reload {J : Type u} : Svc J → Nat
  | hangUp => 2
  | swap => 1
  | deal _ | getResponse _ _ | pushFinish _ _ => 3

/-- The moves already made for the job in execution. -/
def Svc.spent {J : Type u} : Svc J → Nat
  | hangUp | swap | deal _ => 0
  | getResponse _ _ => 1
  | pushFinish _ _ => 2

/-- The moves of a worker until it hands on the job numbered `k`. -/
def Svc.delay (svc : Svc (JobNodePtr W C V)) (job_list : List (JobNodePtr W C V)) (k : Nat) : Nat :=
  3 * ((svc.held job_list).idxOf k + 1) +
    untilSwap k (idsOf svc.executing ++ idsOf svc.batch) svc.reload - svc.spent

/-- The numbers of the jobs the master holds, in the order of its work. -/
def Process.held (process : Process (JobNodePtr W C V)) (finish : List (JobNodePtr W C V)) :
    List Nat :=
  idsOf process.batch ++ idsOf finish

/-- The moves from the end of the local list to the next swap. -/
def Process.reload {J : Type u} : Process J → Nat
  | idle => 1
  | deal _ | calling _ => 2

/-- The move that ends a callback. -/
def Process.due {J : Type u} : Process J → Nat
  | idle | deal _ => 0
  | calling _ => 1

/-- The moves of the master until it calls back the job numbered `k`. -/
def Process.delay (process : Process (JobNodePtr W C V)) (finish : List (JobNodePtr W C V))
    (k : Nat) : Nat :=
  2 * (process.held finish).idxOf k + 1 + process.due +
    untilSwap k (idsOf process.batch) process.reload

/-! ## The master -/

section Moves

variable {k : Nat}

/-- What is appended comes later. -/
theorem idxOf_append_left {l l' : List Nat} (h : k ∈ l) : (l ++ l').idxOf k = l.idxOf k :=
  List.idxOf_append_of_mem h

/-- Another job is in front. -/
theorem idxOf_cons_of_ne {a : Nat} (l : List Nat) (h : a ≠ k) :
    (a :: l).idxOf k = l.idxOf k + 1 := List.idxOf_cons_ne l h

variable [DecidableEq W]

/-- Each move of the master brings the jobs it holds nearer to their callbacks, and no worker
    holds them up. -/
theorem helped_master (k : Nat) :
    Helped (JobStep (W := W) (C := C) (V := V)) (fun s s' => s'.process ≠ s.process)
      (fun s => k ∈ s.process.held s.finish) (fun s => k ∈ idsOf s.called)
      (fun s => s.process.delay s.finish k) := by
  intro s s' hk hstep
  cases hstep with
  | pushJob | hangUp | swap | request | respond | again =>
    exact .inr ⟨hk, Nat.le_refl _, fun h => absurd rfl h⟩
  | pushFinish w hpc =>
    -- the job handed on is behind those that are there
    have hk' : k ∈ idsOf s.process.batch ++ idsOf s.finish := hk
    refine .inr ⟨?_, ?_, fun h => absurd rfl h⟩
    · simp only [Process.held, idsOf_append, ← List.append_assoc]
      exact List.mem_append_left _ hk'
    · simp only [Process.delay, Process.held, idsOf_append, ← List.append_assoc]
      exact Nat.le_of_eq (by rw [idxOf_append_left hk'])
  | processFinish hpc =>
    refine .inr ?_
    simp only [Process.held, hpc, Process.batch, idsOf_nil, List.nil_append] at hk
    simp [Process.held, Process.delay, hpc, Process.batch, Process.due, Process.reload, hk,
      untilSwap_of_mem]
  | @callBack job job_list hpc =>
    by_cases hjob : job.id = k
    · exact .inl (by simp [hjob])
    · refine .inr ?_
      have hk' : k ≠ job.id := fun h => hjob h.symm
      simp only [Process.held, hpc, Process.batch, idsOf_cons, List.cons_append, List.mem_cons, hk',
        false_or] at hk
      simp only [Process.held, Process.delay, hpc, Process.batch, Process.due, Process.reload,
        idsOf_cons, List.cons_append, untilSwap_cons_of_ne _ _ hjob, idxOf_cons_of_ne _ hjob]
      refine ⟨hk, ?_, fun _ => ?_⟩ <;> omega
  | callBackDone hpc =>
    refine .inr ?_
    simp only [Process.held, hpc, Process.batch] at hk
    simp only [Process.held, Process.delay, hpc, Process.batch, Process.due, Process.reload]
    refine ⟨hk, ?_, fun _ => ?_⟩ <;> omega
  | processDone hpc =>
    refine .inr ?_
    simp only [Process.held, hpc, Process.batch] at hk
    simp only [Process.held, Process.delay, hpc, Process.batch, Process.due, Process.reload,
      idsOf_nil, untilSwap_nil]
    refine ⟨hk, ?_, fun _ => ?_⟩ <;> omega

/-! ## The workers -/

/-- A move of a worker, with the jobs it hands on. -/
inductive Svc.Move : Svc (JobNodePtr W C V) → List (JobNodePtr W C V) → List (JobNodePtr W C V) →
    Svc (JobNodePtr W C V) → List (JobNodePtr W C V) → Prop
  | hangUp {queue} (hsome : queue ≠ []) : Move .hangUp queue [] .swap queue
  | swap {queue} : Move .swap queue [] (.deal queue) []
  | request {queue job job_list} :
      Move (.deal (job :: job_list)) queue [] (.getResponse job job_list) queue
  | respond {queue job job_list} (json_value : V) :
      Move (.getResponse job job_list) queue [] (.pushFinish (job.respond json_value) job_list)
        queue
  | pushFinish {queue job job_list} : Move (.pushFinish job job_list) queue [job]
      (.deal job_list) queue
  | again {queue} : Move (.deal []) queue [] .hangUp queue

/-- What a step is for one worker: a move of its own, or at most more jobs in its queue. -/
theorem JobStep.worker {s s' : Jobs W C V} (hstep : JobStep s s') (w : W) :
    (s'.svc w = s.svc w ∧ ∃ more, s'.job_list w = s.job_list w ++ more ∧ more ⊆ s'.pushed) ∨
      ∃ out, Svc.Move (s.svc w) (s.job_list w) out (s'.svc w) (s'.job_list w) ∧
        s'.finish = s.finish ++ out ∧ s'.process = s.process := by
  cases hstep with
  -- a job is pushed behind those that wait
  | pushJob job hnew =>
    refine .inl ⟨rfl, ?_⟩
    by_cases hw : w = job.worker
    · subst hw
      exact ⟨[job], by simp, by simp⟩
    · exact ⟨[], by simp [Function.update_of_ne hw], by simp⟩
  -- the master's steps leave the workers alone
  | processFinish | callBack | callBackDone | processDone =>
    exact .inl ⟨rfl, [], (List.append_nil _).symm, List.nil_subset _⟩
  -- a worker's step moves that worker only
  | hangUp w' hpc hsome =>
    by_cases hw : w = w'
    · subst hw
      exact .inr ⟨[], by simpa [hpc] using .hangUp hsome, by simp⟩
    · exact .inl ⟨by simp [Function.update_of_ne hw], [], by simp⟩
  | swap w' hpc =>
    by_cases hw : w = w'
    · subst hw
      exact .inr ⟨[], by simpa [hpc] using .swap, by simp⟩
    · exact .inl ⟨by simp [Function.update_of_ne hw], [], by simp [Function.update_of_ne hw]⟩
  | request w' hpc =>
    by_cases hw : w = w'
    · subst hw
      exact .inr ⟨[], by simpa [hpc] using .request, by simp⟩
    · exact .inl ⟨by simp [Function.update_of_ne hw], [], by simp⟩
  | respond w' json_value hpc =>
    by_cases hw : w = w'
    · subst hw
      exact .inr ⟨[], by simpa [hpc] using .respond json_value, by simp⟩
    · exact .inl ⟨by simp [Function.update_of_ne hw], [], by simp⟩
  | @pushFinish w' job _ hpc =>
    by_cases hw : w = w'
    · subst hw
      exact .inr ⟨[job], by simpa [hpc] using .pushFinish, by simp⟩
    · exact .inl ⟨by simp [Function.update_of_ne hw], [], by simp⟩
  | again w' hpc =>
    by_cases hw : w = w'
    · subst hw
      exact .inr ⟨[], by simpa [hpc] using .again, by simp⟩
    · exact .inl ⟨by simp [Function.update_of_ne hw], [], by simp⟩

omit [DecidableEq W] in
/-- A move brings the jobs a worker holds nearer to the master. -/
theorem Svc.Move.delay {svc svc' : Svc (JobNodePtr W C V)}
    {queue out queue' : List (JobNodePtr W C V)}
    (h : Svc.Move svc queue out svc' queue') (hk : k ∈ svc.held queue) :
    k ∈ idsOf out ∨ (k ∈ svc'.held queue' ∧ svc'.delay queue' k < svc.delay queue k) := by
  cases h with
  -- before the swap the delay counts the rest of the round
  | hangUp hsome =>
    simp only [Svc.held, Svc.executing, Svc.batch, idsOf_nil, List.nil_append] at hk
    simp [Svc.held, Svc.delay, Svc.executing, Svc.batch, Svc.reload, Svc.spent, hk]
  | swap =>
    simp only [Svc.held, Svc.executing, Svc.batch, idsOf_nil, List.nil_append] at hk
    simp [Svc.held, Svc.delay, Svc.executing, Svc.batch, Svc.reload, Svc.spent, hk,
      untilSwap_of_mem]
  -- inside a round each step leaves one less
  | request =>
    refine .inr ⟨hk, ?_⟩
    simp only [Svc.held, Svc.delay, Svc.executing, Svc.batch, Svc.reload, Svc.spent, idsOf_nil,
      idsOf_cons, List.nil_append, List.cons_append]
    omega
  | respond =>
    refine .inr ⟨hk, ?_⟩
    simp only [Svc.held, Svc.delay, Svc.executing, Svc.batch, Svc.reload, Svc.spent, idsOf_nil,
      idsOf_cons, id_respond, List.nil_append, List.cons_append]
    omega
  -- a job that leaves is `k` itself, or one that was before it
  | @pushFinish _ job job_list =>
    by_cases hjob : job.id = k
    · exact .inl (by simp [hjob])
    · have hk' : k ≠ job.id := fun h => hjob h.symm
      simp only [Svc.held, Svc.executing, Svc.batch, idsOf_cons, idsOf_nil, List.cons_append,
        List.nil_append, List.mem_cons, hk', false_or] at hk
      refine .inr ⟨hk, ?_⟩
      simp only [Svc.held, Svc.delay, Svc.executing, Svc.batch, Svc.reload, Svc.spent, idsOf_cons,
        idsOf_nil, List.cons_append, List.nil_append, untilSwap_cons_of_ne _ _ hjob,
        idxOf_cons_of_ne _ hjob]
      omega
  | again =>
    refine .inr ⟨hk, ?_⟩
    simp [Svc.held, Svc.delay, Svc.executing, Svc.batch, Svc.reload, Svc.spent]

omit [DecidableEq W] in
/-- What is pushed behind a job leaves it with its worker, -/
theorem Svc.mem_held_append {svc : Svc (JobNodePtr W C V)} {queue : List (JobNodePtr W C V)}
    (hk : k ∈ svc.held queue) (more : List (JobNodePtr W C V)) : k ∈ svc.held (queue ++ more) := by
  simp only [Svc.held, idsOf_append, ← List.append_assoc] at hk ⊢
  exact List.mem_append_left _ hk

omit [DecidableEq W] in
/-- and does not delay it. -/
theorem Svc.delay_append {svc : Svc (JobNodePtr W C V)} {queue : List (JobNodePtr W C V)}
    (hk : k ∈ svc.held queue) (more : List (JobNodePtr W C V)) :
    svc.delay (queue ++ more) k = svc.delay queue k := by
  simp only [Svc.held, Svc.delay, idsOf_append, ← List.append_assoc] at hk ⊢
  rw [idxOf_append_left hk]

/-- Each move of a worker brings the jobs it holds nearer to the master, and nobody holds
    them up. -/
theorem helped_worker (w : W) (k : Nat) :
    Helped (JobStep (W := W) (C := C) (V := V)) (fun s s' => s'.svc w ≠ s.svc w)
      (fun s => k ∈ (s.svc w).held (s.job_list w)) (fun s => k ∈ s.process.held s.finish)
      (fun s => (s.svc w).delay (s.job_list w) k) := by
  intro s s' hk hstep
  obtain ⟨hsvc, more, hmore, -⟩ | ⟨out, hmove, hfinish, hprocess⟩ := hstep.worker w
  · -- jobs pushed meanwhile are behind those that are there
    refine .inr ⟨?_, ?_, fun h => absurd hsvc h⟩
    · show k ∈ (s'.svc w).held (s'.job_list w)
      rw [hsvc, hmore]
      exact Svc.mem_held_append hk more
    · show (s'.svc w).delay (s'.job_list w) k ≤ (s.svc w).delay (s.job_list w) k
      exact Nat.le_of_eq (by rw [hsvc, hmore, Svc.delay_append hk])
  · obtain hout | ⟨hk', hlt⟩ := hmove.delay hk
    · exact .inl (by simp [Process.held, hprocess, hfinish, hout])
    · exact .inr ⟨hk', Nat.le_of_lt hlt, fun _ => hlt⟩

/-! ## Fair runs answer -/

/-- A pushed job is called back, or in the hands of the master or of its worker. -/
theorem Conserved.mem_held {s : Jobs W C V} (h : Conserved s) {job : JobNodePtr W C V}
    (hjob : job ∈ s.pushed) :
    job.id ∈ idsOf s.called ∨ job.id ∈ s.process.held s.finish ∨
      job.id ∈ (s.svc job.worker).held (s.job_list job.worker) := by
  -- the job is in its worker's flow, so in one of the places of its route
  have hflow : job.request ∈ (s.flow job.worker).map JobNodePtr.request := by
    rw [h.order]
    exact List.mem_map_of_mem (List.mem_filter.2 ⟨hjob, decide_eq_true rfl⟩)
  obtain ⟨j, hj, heq⟩ := List.mem_map.1 hflow
  have hid : j.id = job.id := congrArg Prod.fst heq
  obtain ⟨p, hp, hat⟩ := List.mem_flatMap.1 hj
  have hmem : job.id ∈ idsOf (s.at p) := hid ▸ List.mem_map_of_mem (List.mem_filter.1 hat).1
  simp only [route, List.mem_cons, List.not_mem_nil, or_false] at hp
  simp only [Process.held, Svc.held, List.mem_append]
  -- the places in order, from the jobs called back to those that wait
  obtain rfl | rfl | rfl | rfl | rfl | rfl := hp
  · exact .inl hmem
  · exact .inr (.inl (.inl hmem))
  · exact .inr (.inl (.inr hmem))
  · exact .inr (.inr (.inl hmem))
  · exact .inr (.inr (.inr (.inl hmem)))
  · exact .inr (.inr (.inr (.inr hmem)))

/-- Nothing that has been pushed or called back is taken back. -/
theorem JobStep.records {s s' : Jobs W C V} (hstep : JobStep s s') :
    s.pushed <+: s'.pushed ∧ s.called <+: s'.called := by
  cases hstep <;> simp

omit [DecidableEq W] in
/-- A worker that holds a job is not waiting for one. -/
theorem not_blocked_of_held {s : Jobs W C V} {w : W} (hk : k ∈ (s.svc w).held (s.job_list w)) :
    ¬ s.Blocked w := by
  rintro ⟨hpc, hnone⟩
  rw [hpc, hnone] at hk
  simp [Svc.held, Svc.executing, Svc.batch] at hk

variable {run : Nat → Jobs W C V}

/-- A job that a worker holds comes to the master, -/
theorem Fair.worker_leadsTo (hrun : IsRun JobStep run) (hfair : Fair run) (w : W) (k : Nat) :
    LeadsTo run (fun s => k ∈ (s.svc w).held (s.job_list w))
      (fun s => k ∈ s.process.held s.finish) :=
  (helped_worker w k).leadsTo hrun (fun _ h => h rfl)
    fun n hn => hfair.worker w n (not_blocked_of_held hn)

/-- and from there to its callback. -/
theorem Fair.master_leadsTo (hrun : IsRun JobStep run) (hfair : Fair run) (k : Nat) :
    LeadsTo run (fun s => k ∈ s.process.held s.finish) (fun s => k ∈ idsOf s.called) :=
  (helped_master k).leadsTo hrun (fun _ h => h rfl) fun n _ => hfair.master n

end Moves

variable [DecidableEq W]

/-- In a fair run every job that is ever pushed is called back, whatever else is pushed meanwhile,
    and from then on it has been called back once. -/
theorem every_job_called_back {run : Nat → Jobs W C V} (hinit : run 0 = Jobs.init)
    (hrun : IsRun JobStep run) (hfair : Fair run) {n : Nat} {job : JobNodePtr W C V}
    (hjob : job ∈ (run n).pushed) :
    ∃ m, n ≤ m ∧ ∀ m', m ≤ m' →
      ((run m').ids .called).count job.id = 1 ∧ ∃ j ∈ (run m').called, j.request = job.request := by
  have hconserved : ∀ m, Conserved (run m) := fun m =>
    hrun.stable (P := Conserved) (fun _ _ h hstep => hstep.conserved h) (Nat.zero_le m)
      (hinit ▸ .init)
  -- the worker hands the job on, and the master calls it back
  obtain ⟨m, hnm, hm⟩ : ∃ m, n ≤ m ∧ job.id ∈ idsOf (run m).called := by
    obtain hcalled | hmaster | hworker := (hconserved n).mem_held hjob
    · exact ⟨n, Nat.le_refl n, hcalled⟩
    · exact hfair.master_leadsTo hrun job.id n hmaster
    · exact ((hfair.worker_leadsTo hrun job.worker job.id).trans
        (hfair.master_leadsTo hrun job.id)) n hworker
  refine ⟨m, hnm, fun m' hm' => ?_⟩
  have hpushed : job ∈ (run m').pushed :=
    hrun.stable (P := fun s => job ∈ s.pushed) (fun _ _ h hstep => hstep.records.1.subset h)
      (Nat.le_trans hnm hm') hjob
  have hcalled : job.id ∈ idsOf (run m').called :=
    hrun.stable (P := fun s => job.id ∈ idsOf s.called)
      (fun _ _ h hstep => (hstep.records.2.map _).subset h) hm' hm
  obtain ⟨j, hj, hid⟩ := List.mem_map.1 hcalled
  -- a number tells the job
  obtain ⟨j', hj', heq⟩ := (hconserved m').exists_pushed (p := .called) hj
  obtain rfl := List.inj_on_of_nodup_map (hconserved m').fresh hj' hpushed
    ((congrArg Prod.fst heq).trans hid)
  exact ⟨(hconserved m').count_eq_one (p := .called) hpushed hcalled, j, hj, heq.symm⟩

/-- The only job of a run. -/
def loneJob : JobNodePtr Unit Unit Nat :=
  ⟨0, (),
    { url := "u", content := "", scalldata := ⟨fun _ => 0⟩, call_back := (), json_value := 0 }⟩

/-- The states of a run with one job: afterwards the master finds nothing, again and again. -/
def lone : Nat → Jobs Unit Unit Nat
  | 0 => Jobs.init
  | 1 => ⟨fun _ => [loneJob], fun _ => .hangUp, [], .idle, [], [loneJob]⟩
  | 2 => ⟨fun _ => [loneJob], fun _ => .swap, [], .idle, [], [loneJob]⟩
  | 3 => ⟨fun _ => [], fun _ => .deal [loneJob], [], .idle, [], [loneJob]⟩
  | 4 => ⟨fun _ => [], fun _ => .getResponse loneJob [], [], .idle, [], [loneJob]⟩
  | 5 => ⟨fun _ => [], fun _ => .pushFinish (loneJob.respond 7) [], [], .idle, [], [loneJob]⟩
  | 6 => ⟨fun _ => [], fun _ => .deal [], [loneJob.respond 7], .idle, [], [loneJob]⟩
  | 7 => ⟨fun _ => [], fun _ => .hangUp, [loneJob.respond 7], .idle, [], [loneJob]⟩
  | 8 => ⟨fun _ => [], fun _ => .hangUp, [], .deal [loneJob.respond 7], [], [loneJob]⟩
  | 9 => ⟨fun _ => [], fun _ => .hangUp, [], .calling [], [loneJob.respond 7], [loneJob]⟩
  | 10 => ⟨fun _ => [], fun _ => .hangUp, [], .deal [], [loneJob.respond 7], [loneJob]⟩
  | 11 => ⟨fun _ => [], fun _ => .hangUp, [], .idle, [loneJob.respond 7], [loneJob]⟩
  | n + 12 => lone (n + 10)

/-- Each state of `lone` follows from the one before. -/
theorem lone_step (n : Nat) : JobStep (lone n) (lone (n + 1)) := by
  fun_induction lone n with
  | case1 => exact .pushJob loneJob fun j hj => absurd hj List.not_mem_nil
  | case2 => exact .hangUp () rfl (List.cons_ne_nil _ _)
  | case3 => exact .swap () rfl
  | case4 => exact .request () rfl
  | case5 => exact .respond () 7 rfl
  | case6 => exact .pushFinish () rfl
  | case7 => exact .again () rfl
  | case8 => exact .processFinish rfl
  | case9 => exact .callBack rfl
  | case10 => exact .callBackDone rfl
  | case11 => exact .processDone rfl
  | case12 => exact .processFinish rfl
  | case13 n ih => exact ih

/-- So it is a run. -/
theorem lone_isRun : IsRun JobStep lone := fun n => .inr (lone_step n)

/-- The master keeps going, -/
theorem lone_process : ∀ n, (lone (n + 9)).process ≠ (lone (n + 8)).process
  | 0 | 1 | 2 | 3 => nofun
  | n + 4 => lone_process (n + 2)

/-- and the worker does until it has nothing to do. -/
theorem lone_fair : Fair lone where
  worker := by
    intro w n hpc
    refine ⟨n, Nat.le_refl n, ?_⟩
    fun_induction lone n with
    | case1 | case8 | case9 | case10 | case11 | case12 => exact absurd ⟨rfl, rfl⟩ hpc
    | case2 | case3 | case4 | case5 | case6 | case7 => exact nofun
    | case13 n ih => exact ih hpc
  master := by
    intro n
    by_cases hn : n ≤ 7
    · exact ⟨7, hn, nofun⟩
    · obtain ⟨d, rfl⟩ : ∃ d, n = d + 8 := ⟨n - 8, by omega⟩
      exact ⟨d + 8, Nat.le_refl _, lone_process d⟩

/-- The job pushed first in `lone`. -/
theorem every_job_called_back_lone :
    ∃ m, 1 ≤ m ∧ ∀ m', m ≤ m' → ((lone m').ids .called).count loneJob.id = 1 ∧
      ∃ j ∈ (lone m').called, j.request = loneJob.request :=
  every_job_called_back rfl lone_isRun lone_fair (List.mem_singleton_self loneJob)

end XGame3.Http
