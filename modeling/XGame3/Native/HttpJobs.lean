import Mathlib.Logic.Function.Basic
import Mathlib.Logic.Relation

/-!
# Jobs between the HTTP master and its workers (`http_worker.cpp`, `http_master.cpp`)

The workers' `Svc` loops and the master's `ProcessFinishJobs` hand jobs over in lists that
are swapped under a mutex.  A section under a mutex is one step here, as is everything a
thread does between two of them; nobody has asked for a stop.  `PushJob` may be called at
any time, by a callback as well.

`called` and `pushed` record the callbacks in the order they were invoked and the jobs in
the order they were pushed.
-/

namespace XGame3.Http

universe u v

/-- `SCallData`. -/
structure SCallData where
  i32 : Fin 4 → Int

/-- `JobNode`, with callbacks from `C` and JSON values from `V`. -/
structure JobNode (C V : Type u) where
  url : String
  content : String
  scalldata : SCallData
  call_back : C
  json_value : V

/-- `JobNodePtr`: the node, with a number of its own and the worker it is pushed to. -/
structure JobNodePtr (W C V : Type u) where
  id : Nat
  worker : W
  node : JobNode C V

/-- Where a worker is in `Svc`, with its local `job_list`. -/
inductive Svc (J : Type u) where
  | hangUp
  | swap
  | deal (job_list : List J)
  | getResponse (job : J) (job_list : List J)
  | pushFinish (job : J) (job_list : List J)

/-- Where the master is in `ProcessFinishJobs`, with what is left of its local `job_list`. -/
inductive Process (J : Type u) where
  | idle
  | deal (job_list : List J)
  | calling (job_list : List J)

/-- The state of all threads. -/
structure Jobs (W C V : Type u) where
  job_list : W → List (JobNodePtr W C V)
  svc : W → Svc (JobNodePtr W C V)
  finish : List (JobNodePtr W C V)
  process : Process (JobNodePtr W C V)
  called : List (JobNodePtr W C V)
  pushed : List (JobNodePtr W C V)

variable {W C V : Type u}

/-- Nothing pushed yet. -/
def Jobs.init : Jobs W C V where
  job_list := fun _ => []
  svc := fun _ => .hangUp
  finish := []
  process := .idle
  called := []
  pushed := []

/-- The node after `GetResponse`, which keeps everything but the value it was given to fill. -/
def JobNodePtr.respond (job : JobNodePtr W C V) (json_value : V) : JobNodePtr W C V :=
  { job with node := { job.node with json_value := json_value } }

/-- One step of one thread. -/
inductive JobStep [DecidableEq W] : Jobs W C V → Jobs W C V → Prop
  /-- `PushJob` on a worker, of a new node. -/
  | pushJob {s : Jobs W C V} (job : JobNodePtr W C V) (hnew : ∀ j ∈ s.pushed, j.id ≠ job.id) :
      JobStep s { s with
        job_list := Function.update s.job_list job.worker (s.job_list job.worker ++ [job])
        pushed := s.pushed ++ [job] }
  /-- `HangUp` returns: the list is not empty. -/
  | hangUp {s : Jobs W C V} (w : W) (hpc : s.svc w = .hangUp) (hsome : s.job_list w ≠ []) :
      JobStep s { s with svc := Function.update s.svc w .swap }
  /-- The swap with the local list. -/
  | swap {s : Jobs W C V} (w : W) (hpc : s.svc w = .swap) :
      JobStep s { s with
        job_list := Function.update s.job_list w []
        svc := Function.update s.svc w (.deal (s.job_list w)) }
  /-- `GetResponse` is called for the next job of the local list. -/
  | request {s : Jobs W C V} (w : W) {job : JobNodePtr W C V} {job_list : List (JobNodePtr W C V)}
      (hpc : s.svc w = .deal (job :: job_list)) :
      JobStep s { s with svc := Function.update s.svc w (.getResponse job job_list) }
  /-- `GetResponse` returns. -/
  | respond {s : Jobs W C V} (w : W) {job : JobNodePtr W C V} {job_list : List (JobNodePtr W C V)}
      (json_value : V) (hpc : s.svc w = .getResponse job job_list) :
      JobStep s { s with
        svc := Function.update s.svc w (.pushFinish (job.respond json_value) job_list) }
  /-- `PushFinishJob`. -/
  | pushFinish {s : Jobs W C V} (w : W) {job : JobNodePtr W C V}
      {job_list : List (JobNodePtr W C V)} (hpc : s.svc w = .pushFinish job job_list) :
      JobStep s { s with
        svc := Function.update s.svc w (.deal job_list)
        finish := s.finish ++ [job] }
  /-- The end of the local list. -/
  | again {s : Jobs W C V} (w : W) (hpc : s.svc w = .deal []) :
      JobStep s { s with svc := Function.update s.svc w .hangUp }
  /-- `ProcessFinishJobs`: the swap with the local list. -/
  | processFinish {s : Jobs W C V} (hpc : s.process = .idle) :
      JobStep s { s with finish := [], process := .deal s.finish }
  /-- A callback is invoked. -/
  | callBack {s : Jobs W C V} {job : JobNodePtr W C V} {job_list : List (JobNodePtr W C V)}
      (hpc : s.process = .deal (job :: job_list)) :
      JobStep s { s with process := .calling job_list, called := s.called ++ [job] }
  /-- The callback returns. -/
  | callBackDone {s : Jobs W C V} {job_list : List (JobNodePtr W C V)}
      (hpc : s.process = .calling job_list) :
      JobStep s { s with process := .deal job_list }
  /-- `ProcessFinishJobs` returns. -/
  | processDone {s : Jobs W C V} (hpc : s.process = .deal []) :
      JobStep s { s with process := .idle }

/-- What can come about. -/
def Jobs.Reachable [DecidableEq W] (s : Jobs W C V) : Prop :=
  Relation.ReflTransGen JobStep Jobs.init s

end XGame3.Http
