import Mathlib.Data.List.Nodup
import Mathlib.Data.List.Pairwise
import XGame3.Native.HttpJobs

/-!
# No job is lost or answered twice

The jobs of one worker, from those called back through the master's and the worker's lists
to those still queued, are the jobs pushed to it, in order (`Conserved`): every step moves
a job from the front of one list to the end of the one before it, or a list as a whole.

Key results:
- `JobStep.conserved`: the step lemma.
- `jobs_once`: where the jobs are, and the callbacks so far.
-/

namespace XGame3.Http

universe u

variable {W C V : Type u}

/-! ## Places -/

/-- Where a job can be. -/
inductive Place (W : Type u) where
  | called
  | masterBatch
  | finish
  | execution (w : W)
  | batch (w : W)
  | queue (w : W)

/-- The job in execution. -/
def Svc.executing {J : Type u} : Svc J → List J
  | hangUp | swap | deal _ => []
  | getResponse job _ | pushFinish job _ => [job]

/-- What is left of a worker's local list. -/
def Svc.batch {J : Type u} : Svc J → List J
  | hangUp | swap => []
  | deal job_list | getResponse _ job_list | pushFinish _ job_list => job_list

/-- What is left of the master's local list. -/
def Process.batch {J : Type u} : Process J → List J
  | idle => []
  | deal job_list | calling job_list => job_list

/-- The jobs in a place. -/
def Jobs.at (s : Jobs W C V) : Place W → List (JobNodePtr W C V)
  | .called => s.called
  | .masterBatch => s.process.batch
  | .finish => s.finish
  | .execution w => (s.svc w).executing
  | .batch w => (s.svc w).batch
  | .queue w => s.job_list w

/-- The numbers of the jobs in a place. -/
def Jobs.ids (s : Jobs W C V) (p : Place W) : List Nat := (s.at p).map JobNodePtr.id

/-! ## The invariant -/

/-- What a job asks for: everything but the answer. -/
def JobNodePtr.request (job : JobNodePtr W C V) : Nat × W × String × String × SCallData × C :=
  (job.id, job.worker, job.node.url, job.node.content, job.node.scalldata, job.node.call_back)

/-- Answering a job leaves its request alone. -/
@[simp] theorem request_respond (job : JobNodePtr W C V) (json_value : V) :
    (job.respond json_value).request = job.request := rfl

variable [DecidableEq W]

/-- The jobs of a worker among others. -/
def ofWorker (w : W) (jobs : List (JobNodePtr W C V)) : List (JobNodePtr W C V) :=
  jobs.filter fun job => job.worker = w

/-- The places a job of a worker comes through, the last first. -/
def route (w : W) : List (Place W) :=
  [.called, .masterBatch, .finish, .execution w, .batch w, .queue w]

/-- The jobs of a worker, wherever they are, the oldest first. -/
def Jobs.flow (s : Jobs W C V) (w : W) : List (JobNodePtr W C V) :=
  (route w).flatMap fun p => ofWorker w (s.at p)

/-- The jobs of each worker are those pushed to it, in order. -/
structure Conserved (s : Jobs W C V) : Prop where
  fresh : (s.pushed.map JobNodePtr.id).Nodup
  own : ∀ w, ∀ p ∈ [Place.execution w, .batch w, .queue w], ∀ job ∈ s.at p, job.worker = w
  order : ∀ w, (s.flow w).map JobNodePtr.request = (ofWorker w s.pushed).map JobNodePtr.request

/-- The jobs of a worker in two lists are those of each. -/
@[simp] theorem ofWorker_append (w : W) (jobs jobs' : List (JobNodePtr W C V)) :
    ofWorker w (jobs ++ jobs') = ofWorker w jobs ++ ofWorker w jobs' := List.filter_append ..

/-- Of a worker's own jobs none is left out, -/
theorem ofWorker_eq_self {w : W} {jobs : List (JobNodePtr W C V)}
    (h : ∀ job ∈ jobs, job.worker = w) : ofWorker w jobs = jobs :=
  List.filter_eq_self.2 fun job hjob => decide_eq_true (h job hjob)

/-- and of the others' none is left. -/
theorem ofWorker_eq_nil {w : W} {jobs : List (JobNodePtr W C V)}
    (h : ∀ job ∈ jobs, job.worker ≠ w) : ofWorker w jobs = [] :=
  List.filter_eq_nil_iff.2 fun job hjob => by simpa using h job hjob

omit [DecidableEq W] in
/-- Requests name the worker. -/
theorem worker_of_map_request {w : W} {jobs jobs' : List (JobNodePtr W C V)}
    (h : jobs'.map JobNodePtr.request = jobs.map JobNodePtr.request)
    (hw : ∀ job ∈ jobs, job.worker = w) : ∀ job ∈ jobs', job.worker = w := by
  intro job hjob
  obtain ⟨job', hjob', heq⟩ :=
    List.mem_map.1 (h ▸ List.mem_map_of_mem (f := JobNodePtr.request) hjob)
  have hworker : job'.worker = job.worker := congrArg (fun r => r.2.1) heq
  rw [← hworker]
  exact hw job' hjob'

/-- The flow of a worker, from the jobs called back to the jobs that wait. -/
theorem Jobs.flow_eq (s : Jobs W C V) (w : W) :
    s.flow w = ofWorker w s.called ++ (ofWorker w s.process.batch ++ (ofWorker w s.finish ++
      (ofWorker w (s.svc w).executing ++ (ofWorker w (s.svc w).batch ++
        ofWorker w (s.job_list w))))) := by
  simp only [flow, route, List.flatMap_cons, List.flatMap_nil, List.append_nil, Jobs.at]

/-- Nothing is lost before anything is pushed. -/
theorem Conserved.init : Conserved (Jobs.init : Jobs W C V) where
  fresh := List.nodup_nil
  own := by
    intro w p hp job hjob
    simp only [List.mem_cons, List.not_mem_nil, or_false] at hp
    obtain rfl | rfl | rfl := hp <;> exact nomatch hjob
  order := fun w => rfl

/-! ## Steps -/

/-- A step of the master keeps the jobs it has and their order. -/
theorem Conserved.of_master {s s' : Jobs W C V} (h : Conserved s) (hpushed : s'.pushed = s.pushed)
    (hsvc : s'.svc = s.svc) (hlist : s'.job_list = s.job_list)
    (hflow : s'.called ++ (s'.process.batch ++ s'.finish) =
      s.called ++ (s.process.batch ++ s.finish)) : Conserved s' where
  fresh := hpushed ▸ h.fresh
  own := by
    intro w p hp job hjob
    apply h.own w p hp job
    -- the places of the workers are as before
    simp only [List.mem_cons, List.not_mem_nil, or_false] at hp
    obtain rfl | rfl | rfl := hp <;> simpa only [Jobs.at, hsvc, hlist] using hjob
  order := by
    intro w
    -- the master's three places hold the same jobs in the same order
    have hw := congrArg (ofWorker w) hflow
    simp only [ofWorker_append] at hw
    have heq : s'.flow w = s.flow w := by
      rw [s'.flow_eq, s.flow_eq, hsvc, hlist]
      simp only [← List.append_assoc] at hw ⊢
      rw [hw]
    rw [hpushed, heq]
    exact h.order w

/-- A step of a worker hands on the jobs `out` and keeps the others, in order. -/
theorem Conserved.of_worker {s s' : Jobs W C V} (h : Conserved s) (w : W)
    (out : List (JobNodePtr W C V)) (hpushed : s'.pushed = s.pushed)
    (hcalled : s'.called = s.called)
    (hprocess : s'.process = s.process) (hfinish : s'.finish = s.finish ++ out)
    (hothers : ∀ w', w' ≠ w → s'.svc w' = s.svc w' ∧ s'.job_list w' = s.job_list w')
    (hmoved : (out ++ ((s'.svc w).executing ++ ((s'.svc w).batch ++ s'.job_list w))).map
      JobNodePtr.request =
        ((s.svc w).executing ++ ((s.svc w).batch ++ s.job_list w)).map JobNodePtr.request) :
    Conserved s' := by
  have hown : ∀ job ∈ (s.svc w).executing ++ ((s.svc w).batch ++ s.job_list w), job.worker = w := by
    intro job hjob
    simp only [List.mem_append] at hjob
    obtain hjob | hjob | hjob := hjob
    · exact h.own w (.execution w) (by simp) job hjob
    · exact h.own w (.batch w) (by simp) job hjob
    · exact h.own w (.queue w) (by simp) job hjob
  have hown' := worker_of_map_request hmoved hown
  constructor
  · exact hpushed ▸ h.fresh
  · -- the jobs keep their requests, and with them the worker they name
    intro w' p hp job hjob
    by_cases hw' : w' = w
    · subst hw'
      apply hown' job
      simp only [List.mem_append]
      simp only [List.mem_cons, List.not_mem_nil, or_false] at hp
      obtain rfl | rfl | rfl := hp
      · exact .inr (.inl hjob)
      · exact .inr (.inr (.inl hjob))
      · exact .inr (.inr (.inr hjob))
    · obtain ⟨hsvc, hlist⟩ := hothers w' hw'
      apply h.own w' p hp job
      simp only [List.mem_cons, List.not_mem_nil, or_false] at hp
      obtain rfl | rfl | rfl := hp <;> simpa only [Jobs.at, hsvc, hlist] using hjob
  · -- what the worker has is the end of its flow
    intro w'
    rw [hpushed, ← h.order w', s'.flow_eq, s.flow_eq, hcalled, hprocess, hfinish, ofWorker_append]
    by_cases hw' : w' = w
    · subst hw'
      have hall := ofWorker_eq_self hown
      have hall' := ofWorker_eq_self hown'
      simp only [ofWorker_append] at hall hall'
      rw [hall, List.append_assoc (ofWorker w' s.finish), hall']
      simp only [List.map_append] at hmoved ⊢
      rw [hmoved]
    · -- what is handed on is no job of another worker
      obtain ⟨hsvc, hlist⟩ := hothers w' hw'
      have hout : ofWorker w' out = [] := ofWorker_eq_nil fun job hjob => by
        rw [hown' job (List.mem_append_left _ hjob)]
        exact fun heq => hw' heq.symm
      rw [hsvc, hlist, hout, List.append_nil]

/-- `PushJob`: the new job is the last of its worker's queue. -/
theorem Conserved.push {s : Jobs W C V} (h : Conserved s) (job : JobNodePtr W C V)
    (hnew : ∀ j ∈ s.pushed, j.id ≠ job.id) :
    Conserved { s with
      job_list := Function.update s.job_list job.worker (s.job_list job.worker ++ [job])
      pushed := s.pushed ++ [job] } where
  fresh := by
    rw [List.map_append, List.nodup_append]
    refine ⟨h.fresh, List.nodup_singleton _, ?_⟩
    intro a ha b hb
    obtain ⟨j, hj, rfl⟩ := List.mem_map.1 ha
    rw [List.mem_singleton.1 hb]
    exact hnew j hj
  own := by
    intro w p hp j hj
    simp only [List.mem_cons, List.not_mem_nil, or_false] at hp
    obtain rfl | rfl | rfl := hp
    · exact h.own w (.execution w) (by simp) j hj
    · exact h.own w (.batch w) (by simp) j hj
    · -- only the queue of the job's worker has changed
      simp only [Jobs.at, Function.update_apply] at hj
      split at hj
      · rename_i hw
        rw [hw]
        cases List.mem_append.1 hj with
        | inl hold => exact h.own _ (.queue _) (by simp) j hold
        | inr hnew => rw [List.mem_singleton.1 hnew]
      · exact h.own w (.queue w) (by simp) j hj
  order := by
    intro w
    have hw := h.order w
    rw [Jobs.flow_eq] at hw ⊢
    dsimp only
    by_cases heq : w = job.worker
    · -- the queue is the end of the flow, so the job is last on both sides
      subst heq
      simp only [Function.update_self, ofWorker_append, List.map_append, ← List.append_assoc]
        at hw ⊢
      rw [hw]
    · have hnone : ofWorker w [job] = [] := ofWorker_eq_nil fun j hj => by
        rw [List.mem_singleton.1 hj]
        exact fun h => heq h.symm
      rw [Function.update_of_ne heq, ofWorker_append, hnone, List.append_nil]
      exact hw

/-- Every step keeps the jobs. -/
theorem JobStep.conserved {s s' : Jobs W C V} (h : Conserved s) (hstep : JobStep s s') :
    Conserved s' := by
  have hothers : ∀ {α : Type u} (f : W → α) (w : W) (a : α), ∀ w', w' ≠ w →
      Function.update f w a w' = f w' := fun f w a w' hw' => Function.update_of_ne hw' a f
  cases hstep with
  | pushJob job hnew => exact h.push job hnew
  -- the worker: what it holds, in the order of its work, stays the same
  | hangUp w hpc hsome =>
    refine h.of_worker w [] rfl rfl rfl (List.append_nil _).symm ?_ ?_
    · exact fun w' hw' => ⟨hothers _ _ _ w' hw', rfl⟩
    · simp only [Function.update_self, hpc, Svc.executing, Svc.batch, List.nil_append]
  | swap w hpc =>
    refine h.of_worker w [] rfl rfl rfl (List.append_nil _).symm ?_ ?_
    · exact fun w' hw' => ⟨hothers _ _ _ w' hw', hothers _ _ _ w' hw'⟩
    · simp only [Function.update_self, hpc, Svc.executing, Svc.batch, List.nil_append,
        List.append_nil]
  | request w hpc =>
    refine h.of_worker w [] rfl rfl rfl (List.append_nil _).symm ?_ ?_
    · exact fun w' hw' => ⟨hothers _ _ _ w' hw', rfl⟩
    · simp only [Function.update_self, hpc, Svc.executing, Svc.batch, List.nil_append,
        List.cons_append]
  | respond w json_value hpc =>
    refine h.of_worker w [] rfl rfl rfl (List.append_nil _).symm ?_ ?_
    · exact fun w' hw' => ⟨hothers _ _ _ w' hw', rfl⟩
    · simp only [Function.update_self, hpc, Svc.executing, Svc.batch, List.nil_append,
        List.singleton_append, List.map_cons, request_respond]
  -- the one step that hands a job on
  | @pushFinish w job job_list hpc =>
    refine h.of_worker w [job] rfl rfl rfl rfl ?_ ?_
    · exact fun w' hw' => ⟨hothers _ _ _ w' hw', rfl⟩
    · simp only [Function.update_self, hpc, Svc.executing, Svc.batch, List.nil_append]
  | again w hpc =>
    refine h.of_worker w [] rfl rfl rfl (List.append_nil _).symm ?_ ?_
    · exact fun w' hw' => ⟨hothers _ _ _ w' hw', rfl⟩
    · simp only [Function.update_self, hpc, Svc.executing, Svc.batch, List.nil_append]
  -- the master
  | processFinish hpc =>
    refine h.of_master rfl rfl rfl ?_
    simp only [hpc, Process.batch, List.nil_append, List.append_nil]
  | callBack hpc =>
    refine h.of_master rfl rfl rfl ?_
    simp only [hpc, Process.batch, List.append_assoc, List.cons_append, List.nil_append]
  | callBackDone hpc =>
    refine h.of_master rfl rfl rfl ?_
    simp only [hpc, Process.batch]
  | processDone hpc =>
    refine h.of_master rfl rfl rfl ?_
    simp only [hpc, Process.batch]

/-- Jobs are conserved in every reachable state. -/
theorem Jobs.Reachable.conserved {s : Jobs W C V} (h : s.Reachable) : Conserved s := by
  induction h with
  | refl => exact .init
  | tail _ hstep ih => exact hstep.conserved ih

/-! ## Places of a job -/

namespace Conserved

variable {s : Jobs W C V} {p p' : Place W} {job : JobNodePtr W C V}

/-- A job is on the route of its worker. -/
theorem mem_route (h : Conserved s) (hjob : job ∈ s.at p) : p ∈ route job.worker := by
  unfold route
  cases p with
  | called | masterBatch | finish => simp
  | execution w => rw [h.own w (.execution w) (by simp) job hjob]; simp
  | batch w => rw [h.own w (.batch w) (by simp) job hjob]; simp
  | queue w => rw [h.own w (.queue w) (by simp) job hjob]; simp

/-- A job is found among the jobs of its own worker. -/
theorem mem_ofWorker (hjob : job ∈ s.at p) : job ∈ ofWorker job.worker (s.at p) :=
  List.mem_filter.2 ⟨hjob, decide_eq_true rfl⟩

/-- What is in a place was pushed. -/
theorem exists_pushed (h : Conserved s) (hjob : job ∈ s.at p) :
    ∃ j ∈ s.pushed, j.request = job.request := by
  have hflow : job ∈ s.flow job.worker :=
    List.mem_flatMap.2 ⟨p, h.mem_route hjob, mem_ofWorker hjob⟩
  obtain ⟨j, hj, heq⟩ := List.mem_map.1
    (h.order job.worker ▸ List.mem_map_of_mem (f := JobNodePtr.request) hflow)
  exact ⟨j, (List.mem_filter.1 hj).1, heq⟩

/-- A number tells the worker. -/
theorem worker_eq (h : Conserved s) {j : JobNodePtr W C V} (hj : j ∈ s.at p) (hjob : job ∈ s.pushed)
    (hid : j.id = job.id) : j.worker = job.worker := by
  obtain ⟨j', hj', heq⟩ := h.exists_pushed hj
  have hid' : j'.id = job.id := (congrArg Prod.fst heq).trans hid
  obtain rfl := List.inj_on_of_nodup_map h.fresh hj' hjob hid'
  exact (congrArg (fun r => r.2.1) heq).symm

/-- No job is twice in a worker's flow, -/
theorem nodup_flow (h : Conserved s) (w : W) : ((s.flow w).map JobNodePtr.id).Nodup := by
  have hid : ∀ jobs : List (JobNodePtr W C V),
      jobs.map JobNodePtr.id = (jobs.map JobNodePtr.request).map Prod.fst := fun jobs => by
    rw [List.map_map]
    rfl
  rw [hid, h.order, ← hid]
  exact h.fresh.sublist (List.filter_sublist.map _)

/-- A number in a place is that of a job of its worker. -/
theorem mem_of_ids (h : Conserved s) (hjob : job ∈ s.pushed) (hp : job.id ∈ s.ids p) :
    p ∈ route job.worker ∧ job.id ∈ (ofWorker job.worker (s.at p)).map JobNodePtr.id := by
  obtain ⟨j, hj, hid⟩ := List.mem_map.1 hp
  rw [← h.worker_eq hj hjob hid, ← hid]
  exact ⟨h.mem_route hj, List.mem_map_of_mem (mem_ofWorker hj)⟩

/-- so none is twice in a place of its route, or in two of them. -/
theorem nodup_route (h : Conserved s) (w : W) :
    (∀ p ∈ route w, ((ofWorker w (s.at p)).map JobNodePtr.id).Nodup) ∧
      (route w).Pairwise fun p p' => List.Disjoint ((ofWorker w (s.at p)).map JobNodePtr.id)
        ((ofWorker w (s.at p')).map JobNodePtr.id) := by
  have hnodup := h.nodup_flow w
  rw [Jobs.flow, List.map_flatMap] at hnodup
  exact List.nodup_flatMap.1 hnodup

/-- A job is in no two places. -/
theorem place_unique (h : Conserved s) (hjob : job ∈ s.pushed) (hp : job.id ∈ s.ids p)
    (hp' : job.id ∈ s.ids p') : p = p' := by
  by_contra hne
  obtain ⟨hroute, hmem⟩ := h.mem_of_ids hjob hp
  obtain ⟨hroute', hmem'⟩ := h.mem_of_ids hjob hp'
  have hsymm : Std.Symm fun p p' : Place W =>
      List.Disjoint ((ofWorker job.worker (s.at p)).map JobNodePtr.id)
        ((ofWorker job.worker (s.at p')).map JobNodePtr.id) := ⟨fun _ _ hd _ ha hb => hd hb ha⟩
  exact (h.nodup_route job.worker).2.forall hroute hroute' hne hmem hmem'

/-- A job is in a place once. -/
theorem count_eq_one (h : Conserved s) (hjob : job ∈ s.pushed) (hp : job.id ∈ s.ids p) :
    (s.ids p).count job.id = 1 := by
  obtain ⟨hroute, hmem⟩ := h.mem_of_ids hjob hp
  rw [← List.count_eq_one_of_mem ((h.nodup_route job.worker).1 p hroute) hmem]
  -- the jobs of other workers have other numbers
  unfold Jobs.ids ofWorker
  rw [List.count_eq_countP, List.count_eq_countP, List.countP_map, List.countP_map,
    List.countP_filter]
  apply List.countP_congr
  intro j hj
  simp only [Function.comp_apply, Bool.and_eq_true, beq_iff_eq, decide_eq_true_eq]
  exact ⟨fun hid => ⟨hid, h.worker_eq hj hjob hid⟩, fun hid => hid.1⟩

/-- The callbacks made are the first part of the flow. -/
theorem called_prefix (h : Conserved s) (w : W) :
    (ofWorker w s.called).map JobNodePtr.request <+:
      (ofWorker w s.pushed).map JobNodePtr.request := by
  rw [← h.order w, s.flow_eq, List.map_append]
  exact List.prefix_append _ _

end Conserved

/-- Every pushed job is in one place, and there once; no callback is invoked twice; and the jobs of
    one worker are called back in the order they were pushed. -/
theorem jobs_once (s : Jobs W C V) (h : s.Reachable) :
    (∀ job ∈ s.pushed, ∃ p, (s.ids p).count job.id = 1 ∧ ∀ p', job.id ∈ s.ids p' → p' = p) ∧
    (s.ids .called).Nodup ∧
    (∀ w, (ofWorker w s.called).map JobNodePtr.request <+:
      (ofWorker w s.pushed).map JobNodePtr.request) := by
  have hs := h.conserved
  refine ⟨?_, ?_, ?_⟩
  · intro job hjob
    have hflow : job.request ∈ (s.flow job.worker).map JobNodePtr.request := by
      rw [hs.order]
      exact List.mem_map_of_mem (List.mem_filter.2 ⟨hjob, decide_eq_true rfl⟩)
    obtain ⟨j, hj, heq⟩ := List.mem_map.1 hflow
    obtain ⟨p, -, hp⟩ := List.mem_flatMap.1 hj
    have hid : job.id ∈ s.ids p :=
      List.mem_map.2 ⟨j, (List.mem_filter.1 hp).1, congrArg Prod.fst heq⟩
    exact ⟨p, hs.count_eq_one hjob hid, fun p' hp' => hs.place_unique hjob hp' hid⟩
  · -- a number among the callbacks is that of a pushed job
    apply List.nodup_iff_count_le_one.2
    intro a
    by_cases ha : a ∈ s.ids .called
    · obtain ⟨j, hj, rfl⟩ := List.mem_map.1 ha
      obtain ⟨job, hjob, heq⟩ := hs.exists_pushed hj
      have hid : job.id = j.id := congrArg Prod.fst heq
      rw [← hid] at ha ⊢
      exact Nat.le_of_eq (hs.count_eq_one hjob ha)
    · rw [List.count_eq_zero_of_not_mem ha]
      exact Nat.zero_le 1
  · exact hs.called_prefix

/-- A job that has been called back. -/
def answered : JobNodePtr Bool Unit Nat :=
  ⟨0, true,
    { url := "u", content := "", scalldata := ⟨fun _ => 0⟩, call_back := (), json_value := 0 }⟩

/-- A job that is still queued. -/
def queued : JobNodePtr Bool Unit Nat := { answered with id := 1 }

/-- One job, answered with 7, and another that is still queued. -/
theorem jobs_once_answered :
    ∃ s : Jobs Bool Unit Nat, s.called = [answered.respond 7] ∧ s.pushed.length = 2 ∧
      (s.ids .called).Nodup := by
  have h₁ : (Jobs.init : Jobs Bool Unit Nat).Reachable := .refl
  have h₂ := h₁.tail (.pushJob answered fun j hj => nomatch hj)
  have h₃ := h₂.tail (.hangUp true rfl (by decide))
  have h₄ := h₃.tail (.swap true rfl)
  have h₅ := h₄.tail (.pushJob queued fun j hj => by
    rw [List.mem_singleton.1 hj]
    exact Nat.zero_ne_one)
  have h₆ := h₅.tail (.request true rfl)
  have h₇ := h₆.tail (.respond true 7 rfl)
  have h₈ := h₇.tail (.pushFinish true rfl)
  have h₉ := h₈.tail (.processFinish rfl)
  have h₁₀ := h₉.tail (.callBack rfl)
  exact ⟨_, rfl, rfl, (jobs_once _ h₁₀).2.1⟩

end XGame3.Http
