import XGame3.Native.HttpMaster
import XGame3.Spec.HttpJobsOnce

/-!
# Requests with the same key

Requests with equal `i32[2]` go to one worker, and a worker's jobs are called back in the order they
were pushed; so they keep their order, as long as there is such a worker.  `%` gives a negative
index for every negative key that is no multiple of `kWorkerNum`.

## Key results

- `worker_ne_none_iff`: the keys that lead to a worker
- `MasterStep.routed`: the step lemma
- `inOrder_iff`: in whatever can come about, the order is kept exactly when every request made so
  far has such a key
-/

namespace XGame3.Http

variable {C V : Type}

/-! ### What is asked for -/

/-- A request: its number and what it hands over. -/
abbrev Asked (C : Type) := Nat × String × String × SCallData × C

/-- The request behind a node. -/
def JobNode.asked (node : JobNode C V) (id : Nat) : Asked C :=
  (id, node.url, node.content, node.scalldata, node.call_back)

/-- The request behind a job. -/
def JobNodePtr.asked (job : JobNodePtr (Fin kWorkerNum) C V) : Asked C := job.node.asked job.id

/-- The requests made so far, in their order. -/
def Master.asked (s : Master C V) : List (Asked C) :=
  s.requested.mapIdx fun id node => node.asked id

/-- The requests with a key. -/
def ofKey (k : Int) (requests : List (Asked C)) : List (Asked C) :=
  requests.filter fun r => r.2.2.2.1.key = k

/-- Every request has gone to a worker, and the callbacks for a key are those of its first requests,
    in their order. -/
structure InOrder (s : Master C V) : Prop where
  noFault : s.fault = false
  order : ∀ k, ofKey k (s.jobs.called.map JobNodePtr.asked) <+: ofKey k s.asked

/-! ### Keys and workers -/

/-- The key alone decides on the worker. -/
theorem worker_congr {a b : SCallData} (h : a.key = b.key) : a.worker = b.worker := by
  have hi : a.i32 2 = b.i32 2 := h
  simp only [SCallData.worker, hi]

/-- The keys that lead to a worker. -/
theorem worker_ne_none_iff (scalldata : SCallData) :
    scalldata.worker ≠ none ↔ 0 ≤ scalldata.key ∨ (kWorkerNum : Int) ∣ scalldata.key := by
  have hpos : (0 : Int) < kWorkerNum := by decide
  have hlt := Int.tmod_lt_of_pos (scalldata.i32 2) hpos
  -- the remainder has the sign of the key
  have hsign : 0 ≤ (scalldata.i32 2).tmod kWorkerNum ↔
      0 ≤ scalldata.i32 2 ∨ (kWorkerNum : Int) ∣ scalldata.i32 2 := by
    constructor
    · intro h
      by_contra hneg
      rw [not_or] at hneg
      have hle : 0 ≤ -(scalldata.i32 2) := by omega
      have hmod := Int.tmod_nonneg (kWorkerNum : Int) hle
      rw [Int.neg_tmod] at hmod
      exact hneg.2 (Int.dvd_of_tmod_eq_zero (by omega))
    · rintro (h | h)
      · exact Int.tmod_nonneg _ h
      · rw [Int.tmod_eq_zero_of_dvd h]
  unfold SCallData.worker SCallData.key
  dsimp only
  -- so the index is found for these keys
  split
  · rename_i h
    exact iff_of_true (Option.some_ne_none _) (hsign.1 h.1)
  · rename_i h
    exact iff_of_false (not_not_intro rfl) fun hk => h ⟨hsign.2 hk, hlt⟩

/-! ### The invariant -/

/-- What has been pushed is what has been asked for, to the workers of the keys. -/
structure Routed (s : Master C V) : Prop where
  conserved : Conserved s.jobs
  pushed : s.fault = false → s.jobs.pushed.map JobNodePtr.asked = s.asked
  worker : ∀ job ∈ s.jobs.pushed, job.node.scalldata.worker = some job.worker
  fault : s.fault = false ↔ ∀ node ∈ s.requested, node.scalldata.worker ≠ none

theorem Routed.init : Routed (Master.init : Master C V) where
  conserved := .init
  pushed := fun _ => rfl
  worker := fun _ h => nomatch h
  fault := iff_of_true rfl fun _ h => nomatch h

/-- The number of a new request is new. -/
theorem Routed.fresh {s : Master C V} (h : Routed s) (hfault : s.fault = false) :
    ∀ job ∈ s.jobs.pushed, job.id ≠ s.requested.length := by
  intro job hjob
  have hmem := List.mem_map_of_mem (f := JobNodePtr.asked) hjob
  rw [h.pushed hfault, Master.asked, List.mem_mapIdx] at hmem
  obtain ⟨i, hi, heq⟩ := hmem
  have hid : i = job.id := congrArg Prod.fst heq
  omega

/-- Every step keeps the jobs with their requests. -/
theorem MasterStep.routed {s s' : Master C V} (h : Routed s) (hstep : MasterStep s s') :
    Routed s' := by
  cases hstep with
  | @requestUrl node w hfault hw =>
    have hnew := h.fresh hfault
    refine ⟨h.conserved.push (s.ptr w node) hnew, fun _ => ?_, ?_, ?_⟩
    · -- the new request is the last one, and so is its job
      rw [List.map_append, h.pushed hfault, Master.asked, Master.asked, List.mapIdx_concat]
      rfl
    · intro job hjob
      obtain hold | hlast := List.mem_append.1 hjob
      · exact h.worker job hold
      · rw [List.mem_singleton.1 hlast]
        exact hw
    · refine iff_of_true hfault fun node' hnode => ?_
      obtain hold | hlast := List.mem_append.1 hnode
      · exact h.fault.1 hfault node' hold
      · rw [List.mem_singleton.1 hlast, hw]
        exact Option.some_ne_none w
  | requestFault node hfault hw =>
    -- nothing has been pushed for a request without a worker
    refine ⟨h.conserved, nofun, h.worker, iff_of_false nofun fun hall => ?_⟩
    exact hall node (List.mem_append_right _ (List.mem_singleton_self node)) hw
  | thread hfault hthread hpushed =>
    -- the threads only pass on what has been pushed
    refine ⟨hthread.conserved h.conserved, ?_, ?_, h.fault⟩
    · rw [hpushed]
      exact h.pushed
    · rw [hpushed]
      exact h.worker

theorem Master.Reachable.routed {s : Master C V} (h : s.Reachable) : Routed s := by
  induction h with
  | refl => exact .init
  | tail _ hstep ih => exact hstep.routed ih

/-! ### Order -/

/-- A job that has been called back is with the worker of its key. -/
theorem Routed.worker_called {s : Master C V} (h : Routed s) :
    ∀ job ∈ s.jobs.called, job.node.scalldata.worker = some job.worker := by
  intro job hjob
  obtain ⟨j, hj, heq⟩ := h.conserved.exists_pushed (p := .called) hjob
  have hworker : j.worker = job.worker := congrArg (fun r => r.2.1) heq
  have hdata : j.node.scalldata = job.node.scalldata := congrArg (fun r => r.2.2.2.2.1) heq
  rw [← hworker, ← hdata]
  exact h.worker j hj

/-- The jobs of a key are among those of its worker. -/
theorem ofKey_ofWorker {jobs : List (JobNodePtr (Fin kWorkerNum) C V)} {w : Fin kWorkerNum}
    {k : Int} (h : ∀ job ∈ jobs, job.node.scalldata.key = k → job.worker = w) :
    ofKey k ((ofWorker w jobs).map JobNodePtr.asked) = ofKey k (jobs.map JobNodePtr.asked) := by
  unfold ofKey ofWorker
  rw [List.filter_map, List.filter_map, List.filter_filter]
  congr 1
  apply List.filter_congr
  intro job hjob
  have hkey : job.asked.2.2.2.1.key = job.node.scalldata.key := rfl
  rw [Function.comp_apply, hkey]
  by_cases hk : job.node.scalldata.key = k
  · simp [hk, h job hjob hk]
  · simp [hk]

/-- The callbacks for a key are those of its first requests. -/
theorem Routed.order {s : Master C V} (h : Routed s) (hfault : s.fault = false) (k : Int) :
    ofKey k (s.jobs.called.map JobNodePtr.asked) <+: ofKey k s.asked := by
  by_cases hnone : ∀ job ∈ s.jobs.called, job.node.scalldata.key ≠ k
  · -- no callback for the key yet
    have hnil : ofKey k (s.jobs.called.map JobNodePtr.asked) = [] := by
      apply List.filter_eq_nil_iff.2
      intro r hr
      obtain ⟨job, hjob, rfl⟩ := List.mem_map.1 hr
      exact fun hk => hnone job hjob (of_decide_eq_true hk)
    rw [hnil]
    exact List.nil_prefix
  · push Not at hnone
    obtain ⟨first, hfirst, hk⟩ := hnone
    -- all jobs with the key are with the worker of this one
    have hworker : ∀ job : JobNodePtr (Fin kWorkerNum) C V,
        job.node.scalldata.worker = some job.worker → job.node.scalldata.key = k →
          job.worker = first.worker := by
      intro job hjob hkey
      have heq := worker_congr (hkey.trans hk.symm)
      rw [hjob, h.worker_called first hfirst] at heq
      exact Option.some.inj heq
    have hprefix := (h.conserved.called_prefix first.worker).map fun r => (r.1, r.2.2)
    rw [List.map_map, List.map_map] at hprefix
    have hkeys : ofKey k ((ofWorker first.worker s.jobs.called).map JobNodePtr.asked) <+:
        ofKey k ((ofWorker first.worker s.jobs.pushed).map JobNodePtr.asked) := hprefix.filter _
    rw [ofKey_ofWorker fun job hjob => hworker job (h.worker_called job hjob),
      ofKey_ofWorker fun job hjob => hworker job (h.worker job hjob), h.pushed hfault] at hkeys
    exact hkeys

/-- Requests with the same key keep their order, and go to a worker at all, exactly when no key so
    far is negative without being a multiple of the number of workers. -/
theorem inOrder_iff (s : Master C V) (h : s.Reachable) :
    InOrder s ↔ ∀ node ∈ s.requested,
      0 ≤ node.scalldata.key ∨ (kWorkerNum : Int) ∣ node.scalldata.key := by
  have hs := h.routed
  simp only [← worker_ne_none_iff]
  rw [← hs.fault]
  exact ⟨InOrder.noFault, fun hfault => ⟨hfault, hs.order hfault⟩⟩

/-- A request with a key. -/
def requestOf (key : Int) : JobNode Unit Unit where
  url := "u"
  content := ""
  scalldata := ⟨fun _ => key⟩
  call_back := ()
  json_value := ()

/-- Two requests with key `7`, which the third worker answers and the master calls back. -/
theorem inOrder_seven :
    ∃ s : Master Unit Unit, s.requested = [requestOf 7, requestOf 7] ∧
      s.jobs.called.map JobNodePtr.id = [0, 1] ∧ InOrder s := by
  have h₁ : (Master.init : Master Unit Unit).Reachable := .refl
  have h₂ := h₁.tail (.requestUrl (requestOf 7) (w := ⟨2, by decide⟩) rfl rfl)
  have h₃ := h₂.tail (.requestUrl (requestOf 7) (w := ⟨2, by decide⟩) rfl rfl)
  -- the worker takes both requests and answers them one after the other
  have h₄ := h₃.tail (.thread rfl (.hangUp ⟨2, by decide⟩ rfl (by simp)) rfl)
  have h₅ := h₄.tail (.thread rfl (.swap ⟨2, by decide⟩ rfl) rfl)
  have h₆ := h₅.tail (.thread rfl (.request ⟨2, by decide⟩ rfl) rfl)
  have h₇ := h₆.tail (.thread rfl (.respond ⟨2, by decide⟩ () rfl) rfl)
  have h₈ := h₇.tail (.thread rfl (.pushFinish ⟨2, by decide⟩ rfl) rfl)
  have h₉ := h₈.tail (.thread rfl (.request ⟨2, by decide⟩ rfl) rfl)
  have h₁₀ := h₉.tail (.thread rfl (.respond ⟨2, by decide⟩ () rfl) rfl)
  have h₁₁ := h₁₀.tail (.thread rfl (.pushFinish ⟨2, by decide⟩ rfl) rfl)
  -- `ProcessFinishJobs`
  have h₁₂ := h₁₁.tail (.thread rfl (.processFinish rfl) rfl)
  have h₁₃ := h₁₂.tail (.thread rfl (.callBack rfl) rfl)
  have h₁₄ := h₁₃.tail (.thread rfl (.callBackDone rfl) rfl)
  have h₁₅ := h₁₄.tail (.thread rfl (.callBack rfl) rfl)
  exact ⟨_, rfl, rfl, (inOrder_iff _ h₁₅).2 (by decide)⟩

/-- The key `-1` leads out of the array. -/
theorem inOrder_negative :
    ∃ s : Master Unit Unit, s.Reachable ∧ s.requested = [requestOf (-1)] ∧ ¬ InOrder s := by
  have h₁ : (Master.init : Master Unit Unit).Reachable := .refl
  have h₂ := h₁.tail (.requestFault (requestOf (-1)) rfl rfl)
  exact ⟨_, h₂, rfl, fun h => nomatch h.noFault⟩

end XGame3.Http
