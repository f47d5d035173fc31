import XGame3.Native.HttpJobs
import XGame3.Native.HttpThreads

/-!
# Requests at the master (`http_master.cpp`)

After `Create` there are `kWorkerNum` workers, and `RequestUrl` picks one of them by an index into
`workers_`.  `%` of `int`s takes the sign of the dividend.  An index outside the array is a fault,
after which nothing more is said about the program.
-/

namespace XGame3.Http

/-- The key of a request. -/
def SCallData.key (scalldata : SCallData) : Int := scalldata.i32 2

/-- `workers_[scalldata.i32[2] % kWorkerNum]`, `none` when there is no such element. -/
def SCallData.worker (scalldata : SCallData) : Option (Fin kWorkerNum) :=
  -- negative for a negative key
  let i := (scalldata.i32 2).tmod kWorkerNum
  if h : 0 ≤ i ∧ i < kWorkerNum then some ⟨i.toNat, by omega⟩ else none

/-- The jobs, the requests made so far and whether one of them went to no worker. -/
structure Master (C V : Type) where
  jobs : Jobs (Fin kWorkerNum) C V
  requested : List (JobNode C V)
  fault : Bool

variable {C V : Type}

/-- After `Create`. -/
def Master.init : Master C V where
  jobs := .init
  requested := []
  fault := false

/-- The node of a request under its number, which is that of the requests before it. -/
def Master.ptr (s : Master C V) (w : Fin kWorkerNum) (node : JobNode C V) :
    JobNodePtr (Fin kWorkerNum) C V :=
  ⟨s.requested.length, w, node⟩

/-- One step of one thread. -/
inductive MasterStep : Master C V → Master C V → Prop
  /-- `RequestUrl`, up to the end of `PushJob`. -/
  | requestUrl {s : Master C V} (node : JobNode C V) {w : Fin kWorkerNum}
      (hfault : s.fault = false) (hw : node.scalldata.worker = some w) :
      MasterStep s { s with
        jobs := { s.jobs with
          job_list := Function.update s.jobs.job_list w (s.jobs.job_list w ++ [s.ptr w node])
          pushed := s.jobs.pushed ++ [s.ptr w node] }
        requested := s.requested ++ [node] }
  /-- `RequestUrl` outside the array. -/
  | requestFault {s : Master C V} (node : JobNode C V) (hfault : s.fault = false)
      (hw : node.scalldata.worker = none) :
      MasterStep s { s with requested := s.requested ++ [node], fault := true }
  /-- Anything else that a worker or `ProcessFinishJobs` does. -/
  | thread {s : Master C V} {jobs : Jobs (Fin kWorkerNum) C V} (hfault : s.fault = false)
      (hstep : JobStep s.jobs jobs) (hpushed : jobs.pushed = s.jobs.pushed) :
      MasterStep s { s with jobs := jobs }

/-- What can come about after `Create`. -/
def Master.Reachable (s : Master C V) : Prop :=
  Relation.ReflTransGen MasterStep Master.init s

end XGame3.Http
