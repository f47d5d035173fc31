import XGame3.Native.HttpWorker
import XGame3.Spec.HttpJobsAnswered
import XGame3.Spec.ResponseBlobCorrect

/-!
# Answers of the workers

`GetResponse` starts by emptying the response buffer, so a callback is given what the reader makes
of the body of its own response, whatever went over the same handle before.  A body that does not
fit into the first block never ends: from then on its worker hands nothing on.

Key results:
- `getResponse_returned`: what a call that returns has done.
- `called_back_answer`: what the callbacks are given.
- `called_back_iff`: the jobs that are called back in a fair run.
-/

namespace XGame3.Http

open FixedInt Progress ResponseBlob

universe u

variable {W C V : Type u}

/-! ## One call of `GetResponse` -/

/-- The body a transfer brings. -/
def bodyOf : List Delivery → List UInt8
  | [] => []
  | .header _ :: deliveries => bodyOf deliveries
  | .body data _ :: deliveries => data ++ bodyOf deliveries

namespace Served

/-- `HeaderFunction` throws on none of the lines. -/
def Orderly (served : Served V) : Prop :=
  ∀ line, Delivery.header line ∈ served.deliveries →
    ∀ blob, headerFunction .eight blob line 1 line.length ≠ none

/-- The body fits into the first block, where there is a transfer. -/
def Fits (served : Served V) : Prop :=
  served.call.setsUrl = true → (bodyOf served.deliveries).length ≤ defaultBuffSize

/-- The value that `GetResponse` leaves. -/
def answer (json : Json V) (parse : List UInt8 → V → Bool × V) (served : Served V)
    (json_value : V) : V :=
  if served.call.setsUrl then
    ({ served.call with json_value := json_value, parse := parse (bodyOf served.deliveries) }
      |>.respond json).2
  else json_value

end Served

/-- A line of the header leaves the bytes of the blob. -/
theorem headerFunction_contains {blob blob' : ResponseBlob} {acc data : List UInt8}
    {size nmemb taken : Nat} (h : Contains blob acc)
    (hret : headerFunction .eight blob data size nmemb = some (taken, blob')) :
    Contains blob' acc := by
  simp only [headerFunction] at hret
  have hset : ∀ contentType, Contains (blob.setContentType contentType) acc := fun _ =>
    ⟨h.buffSize_eq, h.length_buff, h.useSize_eq, h.fits, h.take_eq⟩
  repeat' split at hret
  all_goals cases hret
  all_goals exact hset _

section Transfer

variable {deliveries : List Delivery} {blob blob' : ResponseBlob} {acc data : List UInt8}
    {fuel : Nat}

/-- A piece of the body is stored when it fits, and keeps `Push` in its loop when it does not. -/
theorem writeFunction_cases (h : Contains blob acc) (hdata : data.length ≤ curlMaxWriteSize)
    (fuel : Nat) (alloc : Alloc) :
    ((acc ++ data).length ≤ defaultBuffSize ∧
      ∃ blob', writeFunction fuel blob data alloc = some (.inr (data.length, blob')) ∧
        Contains blob' (acc ++ data)) ∨
    (defaultBuffSize < (acc ++ data).length ∧
      ∃ newSize, writeFunction fuel blob data alloc = some (.inl newSize)) := by
  by_cases hfits : (acc ++ data).length ≤ defaultBuffSize
  · obtain ⟨blob', hpush, hblob'⟩ := push_of_fits h hfits fuel alloc
    exact .inl ⟨hfits, blob', by rw [writeFunction, hpush]; rfl, hblob'⟩
  · have hacc := h.fits
    -- the sum of the two lengths does not wrap
    have hbound : (acc ++ data).length < SizeT.eight.modulus := by
      simp only [List.length_append, SizeT.modulus, curlMaxWriteSize, defaultBuffSize] at *
      omega
    obtain ⟨newSize, hpush⟩ := push_of_not_fits h (Nat.lt_of_not_le hfits) hbound fuel alloc
    exact .inr ⟨Nat.lt_of_not_le hfits, newSize, by rw [writeFunction, hpush]; rfl⟩

/-- A transfer that ends has brought a body that fits, and the buffer holds it whole. -/
theorem transfer_ended (h : Contains blob acc)
    (hsmall : ∀ data alloc, Delivery.body data alloc ∈ deliveries → data.length ≤ curlMaxWriteSize)
    (hrun : transfer fuel blob deliveries = some (.inr blob')) :
    (acc ++ bodyOf deliveries).length ≤ defaultBuffSize ∧
      Contains blob' (acc ++ bodyOf deliveries) := by
  induction deliveries generalizing blob acc with
  | nil =>
    simp only [transfer, Option.some.injEq, Sum.inr.injEq] at hrun
    subst hrun
    simpa [bodyOf] using ⟨h.fits, h⟩
  | cons delivery deliveries ih =>
    have hsmall' := fun data alloc hmem => hsmall data alloc (List.mem_cons_of_mem _ hmem)
    cases delivery with
    | header line =>
      cases hret : headerFunction .eight blob line 1 line.length with
      | none => simp [transfer, hret] at hrun
      | some r =>
        obtain ⟨taken, blob₁⟩ := r
        simp only [transfer, hret] at hrun
        exact ih (headerFunction_contains h hret) hsmall' hrun
    | body data alloc =>
      have hdata := hsmall data alloc List.mem_cons_self
      rw [bodyOf, ← List.append_assoc]
      obtain ⟨-, blob₁, hwrite, hblob₁⟩ | ⟨-, newSize, hwrite⟩ :=
        writeFunction_cases h hdata fuel alloc
      · simp only [transfer, hwrite] at hrun
        exact ih hblob₁ hsmall' hrun
      · -- a piece that does not fit is still being stored
        simp [transfer, hwrite] at hrun

/-- A transfer without a line that `HeaderFunction` throws on ends, or is in the loop of `Push`. -/
theorem transfer_goes_on (h : Contains blob acc)
    (hheader : ∀ line, .header line ∈ deliveries →
      ∀ blob, headerFunction .eight blob line 1 line.length ≠ none)
    (hsmall : ∀ data alloc, Delivery.body data alloc ∈ deliveries → data.length ≤ curlMaxWriteSize)
    (fuel : Nat) :
    (∃ blob', transfer fuel blob deliveries = some (.inr blob')) ∨
      (defaultBuffSize < (acc ++ bodyOf deliveries).length ∧
        ∃ newSize, transfer fuel blob deliveries = some (.inl newSize)) := by
  induction deliveries generalizing blob acc with
  | nil => exact .inl ⟨blob, rfl⟩
  | cons delivery deliveries ih =>
    have hheader' := fun line hline => hheader line (List.mem_cons_of_mem _ hline)
    have hsmall' := fun data alloc hmem => hsmall data alloc (List.mem_cons_of_mem _ hmem)
    cases delivery with
    -- a header line changes nothing of the content
    | header line =>
      obtain ⟨⟨taken, blob₁⟩, hret⟩ :=
        Option.ne_none_iff_exists'.1 (hheader line List.mem_cons_self blob)
      simp only [transfer, hret]
      exact ih (headerFunction_contains h hret) hheader' hsmall'
    -- a block is appended, or overflows the default buffer, where the transfer stops
    | body data alloc =>
      have hdata := hsmall data alloc List.mem_cons_self
      rw [bodyOf, ← List.append_assoc]
      obtain ⟨-, blob₁, hwrite, hblob₁⟩ | ⟨hover, newSize, hwrite⟩ :=
        writeFunction_cases h hdata fuel alloc
      · simp only [transfer, hwrite]
        exact ih hblob₁ hheader' hsmall'
      · refine .inr ⟨?_, newSize, by simp [transfer, hwrite]⟩
        rw [List.length_append]
        omega

end Transfer

section Answers

variable {json : Json V} {parse : List UInt8 → V → Bool × V} {fuel : Nat} {request : HttpRequest}
  {served : Served V} {acc : List UInt8}

/-- What a call that returns has done. -/
theorem getResponse_returned (h : Contains request.blob acc) {json_value json_value' : V}
    {request' : HttpRequest} {result : Bool}
    (hret : request.getResponse json parse fuel served json_value =
      some (.inr (request', result, json_value'))) :
    served.Fits ∧ json_value' = served.answer json parse json_value ∧
      ∃ acc', Contains request'.blob acc' := by
  unfold HttpRequest.getResponse at hret
  unfold Served.Fits Served.answer
  -- with the address set, the transfer ended and its text was parsed
  by_cases hset : served.call.setsUrl = true
  · simp only [hset, Bool.not_true, Bool.false_eq_true, if_false] at hret
    split at hret
    · cases hret
    · cases hret
    · rename_i blob hrun
      obtain ⟨hfits, hblob⟩ := transfer_ended h.reset served.small hrun
      have htext : responseText blob = bodyOf served.deliveries := by
        rw [responseText, getLength, hblob.useSize_eq]
        exact hblob.take_eq
      simp only [htext, Http.getResponse, Bool.not_true, Bool.false_eq_true, if_false,
        Option.some.injEq, Sum.inr.injEq, Prod.mk.injEq] at hret
      obtain ⟨rfl, hresult⟩ := hret
      exact ⟨fun _ => hfits, by rw [if_pos hset]; exact (congrArg Prod.snd hresult).symm, _, hblob⟩
  -- without it nothing is transferred and the blob is empty
  · simp only [hset, Bool.not_false, if_true, Option.some.injEq, Sum.inr.injEq, Prod.mk.injEq]
      at hret
    obtain ⟨rfl, -, rfl⟩ := hret
    exact ⟨fun hset' => absurd hset' hset, by simp [hset], [], h.reset⟩

/-- A call without a line that throws returns, or is in the loop of `Push`. -/
theorem getResponse_goes_on (json : Json V) (parse : List UInt8 → V → Bool × V)
    (h : Contains request.blob acc) (hheader : served.Orderly) (fuel : Nat) (json_value : V) :
    (∃ r, request.getResponse json parse fuel served json_value = some (.inr r)) ∨
      (¬ served.Fits ∧
        ∃ newSize, request.getResponse json parse fuel served json_value =
          some (.inl newSize)) := by
  unfold HttpRequest.getResponse Served.Fits
  by_cases hset : served.call.setsUrl = true
  · obtain ⟨blob, hrun⟩ | ⟨hover, newSize, hrun⟩ :=
      transfer_goes_on h.reset hheader served.small fuel
    · exact .inl (by simp [hset, hrun])
    · exact .inr ⟨fun hfits => Nat.not_le_of_lt hover (hfits hset), newSize, by simp [hset, hrun]⟩
  · exact .inl (by simp [hset])

/-- A call whose body fits returns, with the answer of its own body. -/
theorem getResponse_of_fits (json : Json V) (parse : List UInt8 → V → Bool × V)
    (h : Contains request.blob acc) (hheader : served.Orderly)
    (hfits : served.Fits) (fuel : Nat) (json_value : V) :
    ∃ request' result, request.getResponse json parse fuel served json_value =
        some (.inr (request', result, served.answer json parse json_value)) := by
  obtain ⟨⟨request', result, json_value'⟩, hret⟩ | ⟨hover, -⟩ :=
    getResponse_goes_on json parse h hheader fuel json_value
  · obtain ⟨-, rfl, -⟩ := getResponse_returned h hret
    exact ⟨request', result, hret⟩
  · exact absurd hfits hover

/-- A call whose body does not fit is still in its loop after any number of iterations. -/
theorem getResponse_of_not_fits (json : Json V) (parse : List UInt8 → V → Bool × V)
    (h : Contains request.blob acc) (hheader : served.Orderly)
    (hfits : ¬ served.Fits) (fuel : Nat) (json_value : V) :
    ∃ newSize, request.getResponse json parse fuel served json_value = some (.inl newSize) := by
  obtain ⟨r, hret⟩ | ⟨-, hloop⟩ := getResponse_goes_on json parse h hheader fuel json_value
  · exact absurd (getResponse_returned h hret).1 hfits
  · exact hloop

end Answers

/-! ## Reachable states -/

section Reachable

variable {json : Json V} {parse : List UInt8 → V → Bool × V} {server : Nat → Served V}

/-- A step of the workers is a step of the jobs. -/
theorem WorkersStep.jobStep [DecidableEq W] {s s' : Workers W C V}
    (h : WorkersStep json parse server s s') :
    JobStep s.jobs s'.jobs := by
  cases h with
  | respond w hpc hret => exact .respond w _ hpc
  | other hstep hcalls => exact hstep

/-- The jobs of a worker that `GetResponse` has not returned for. -/
def Svc.asked {J : Type u} : Svc J → List J
  | hangUp | swap => []
  | deal job_list | pushFinish _ job_list => job_list
  | getResponse job job_list => job :: job_list

/-- The job of a worker that `GetResponse` has returned for. -/
def Svc.answered {J : Type u} : Svc J → List J
  | hangUp | swap | deal _ | getResponse _ _ => []
  | pushFinish job _ => [job]

/-- A pushed job with the answer of its own response. -/
def OwnAnswer (json : Json V) (parse : List UInt8 → V → Bool × V) (server : Nat → Served V)
    (pushed : List (JobNodePtr W C V)) (job : JobNodePtr W C V) : Prop :=
  ∃ j ∈ pushed, (server j.id).Fits ∧
    job = j.respond ((server j.id).answer json parse j.node.json_value)

/-- Jobs wait as they were pushed, and go on with their own answers. -/
structure Answered (json : Json V) (parse : List UInt8 → V → Bool × V) (server : Nat → Served V)
    (s : Workers W C V) : Prop where
  blob : ∀ w, ∃ acc, Contains (s.http_request w).blob acc
  waiting : ∀ w, ∀ job ∈ (s.jobs.svc w).asked ++ s.jobs.job_list w, job ∈ s.jobs.pushed
  executed : ∀ w, ∀ job ∈ (s.jobs.svc w).answered, OwnAnswer json parse server s.jobs.pushed job
  finished : ∀ job ∈ s.jobs.called ++ (s.jobs.process.batch ++ s.jobs.finish),
    OwnAnswer json parse server s.jobs.pushed job

/-- An answer stays a job's own when more jobs are pushed. -/
theorem OwnAnswer.mono {pushed pushed' : List (JobNodePtr W C V)} {job : JobNodePtr W C V}
    (hpushed : pushed <+: pushed') (h : OwnAnswer json parse server pushed job) :
    OwnAnswer json parse server pushed' job := by
  obtain ⟨j, hj, hown⟩ := h
  exact ⟨j, hpushed.subset hj, hown⟩

/-- Nothing is answered before anything is pushed. -/
theorem Answered.init (block : W → Nat → UInt8) :
    Answered json parse server (Workers.init block : Workers W C V) where
  blob := fun _ => ⟨[], contains_new _⟩
  waiting := fun _ _ hjob => absurd hjob List.not_mem_nil
  executed := fun _ _ hjob => absurd hjob List.not_mem_nil
  finished := fun _ hjob => absurd hjob List.not_mem_nil

/-- A job that a worker takes up, or hands on, has been with it before. -/
theorem Svc.Move.places {svc svc' : Svc (JobNodePtr W C V)}
    {queue out queue' : List (JobNodePtr W C V)} (h : Svc.Move svc queue out svc' queue')
    (hcall : ∀ job job_list, svc = .getResponse job job_list → svc' = .getResponse job job_list) :
    (∀ job ∈ svc'.asked ++ queue', job ∈ svc.asked ++ queue) ∧
      ∀ job ∈ svc'.answered ++ out, job ∈ svc.answered := by
  cases h with
  | respond => exact absurd (hcall _ _ rfl) nofun
  | hangUp | swap | request | pushFinish | again => simp [Svc.asked, Svc.answered]

variable [DecidableEq W]

/-- A job that has been answered after a step has been so before, if no call returns. -/
theorem JobStep.answered_before {s s' : Jobs W C V} (hstep : JobStep s s') {job : JobNodePtr W C V}
    (hjob : job ∈ s'.called ++ (s'.process.batch ++ s'.finish)) :
    job ∈ s.called ++ (s.process.batch ++ s.finish) ∨ ∃ w, job ∈ (s.svc w).answered := by
  cases hstep with
  | pushJob | hangUp | swap | request | respond | again => exact .inl hjob
  | pushFinish w hpc =>
    simp only [← List.append_assoc] at hjob ⊢
    obtain hjob | hjob := List.mem_append.1 hjob
    · exact .inl hjob
    · exact .inr ⟨w, by rw [hpc]; exact hjob⟩
  | processFinish hpc | callBack hpc | callBackDone hpc | processDone hpc =>
    exact .inl (by simpa [hpc, Process.batch] using hjob)

/-- A step of the jobs in which no call returns. -/
theorem Answered.other {s : Workers W C V} {jobs : Jobs W C V} (h : Answered json parse server s)
    (hstep : JobStep s.jobs jobs)
    (hcalls : ∀ w job job_list, s.jobs.svc w = .getResponse job job_list →
      jobs.svc w = .getResponse job job_list) :
    Answered json parse server { s with jobs := jobs } := by
  have hpushed := hstep.records.1
  refine ⟨h.blob, fun w job hjob => ?_, fun w job hjob => ?_, fun job hjob => ?_⟩
  -- waiting jobs: pushed now, or waiting before
  · obtain ⟨hsvc, more, hmore, hnew⟩ | ⟨out, hmove, -⟩ := hstep.worker w
    · dsimp only at hjob ⊢
      rw [hsvc, hmore, ← List.append_assoc] at hjob
      obtain hold | hjob := List.mem_append.1 hjob
      · exact hpushed.subset (h.waiting w job hold)
      · exact hnew hjob
    · exact hpushed.subset (h.waiting w job ((hmove.places (hcalls w)).1 job hjob))
  -- executed jobs: only moved
  · refine (h.executed w job ?_).mono hpushed
    obtain ⟨hsvc, -⟩ | ⟨out, hmove, -⟩ := hstep.worker w
    · exact hsvc ▸ hjob
    · exact (hmove.places (hcalls w)).2 job (List.mem_append_left _ hjob)
  -- finished jobs: answered before, by the master or by a worker
  · obtain hjob | ⟨w, hjob⟩ := hstep.answered_before hjob
    · exact (h.finished job hjob).mono hpushed
    · exact (h.executed w job hjob).mono hpushed

/-- A call returns, with the answer of its own body. -/
theorem Answered.step {s s' : Workers W C V} (h : Answered json parse server s)
    (hstep : WorkersStep json parse server s s') :
    Answered json parse server s' := by
  cases hstep with
  | other hstep hcalls => exact h.other hstep hcalls
  | @respond w job job_list hpc fuel request result json_value hret =>
    obtain ⟨acc, hblob⟩ := h.blob w
    obtain ⟨hfits, rfl, hblob'⟩ := getResponse_returned hblob hret
    refine ⟨fun w' => ?_, fun w' j hj => ?_, fun w' j hj => ?_, h.finished⟩
    -- the blob holds what this call left, other workers' blobs are untouched
    · by_cases hw : w' = w
      · subst hw
        simpa using hblob'
      · simpa [Function.update_of_ne hw] using h.blob w'
    · apply h.waiting w' j
      by_cases hw : w' = w
      · subst hw
        simp only [Function.update_self, Svc.asked] at hj
        rw [hpc]
        exact List.mem_cons_of_mem _ hj
      · simpa [Function.update_of_ne hw] using hj
    -- the one job answered has its own answer
    · by_cases hw : w' = w
      · subst hw
        simp only [Function.update_self, Svc.answered, List.mem_singleton] at hj
        exact ⟨job, h.waiting w' job (by simp [hpc, Svc.asked]), hfits, hj⟩
      · exact h.executed w' j (by simpa [Function.update_of_ne hw] using hj)

/-- Every reachable state has its answers right. -/
theorem Answered.reachable {block : W → Nat → UInt8} {s : Workers W C V}
    (h : Relation.ReflTransGen (WorkersStep json parse server) (Workers.init block) s) :
    Answered json parse server s := by
  induction h with
  | refl => exact .init block
  | tail _ hstep ih => exact ih.step hstep

/-- Every callback is given what the reader makes of the body of its own response, and that body
    fits into the first block. -/
theorem called_back_answer {block : W → Nat → UInt8} {s : Workers W C V}
    (h : Relation.ReflTransGen (WorkersStep json parse server) (Workers.init block) s)
    {job : JobNodePtr W C V} (hjob : job ∈ s.jobs.called) :
    ∃ j ∈ s.jobs.pushed, (server j.id).Fits ∧
      job = j.respond ((server j.id).answer json parse j.node.json_value) := by
  exact (Answered.reachable h).finished job (List.mem_append_left _ hjob)

end Reachable

/-! ## Fair runs -/

section Fair

variable {json : Json V} {parse : List UInt8 → V → Bool × V} {server : Nat → Served V}

/-- A worker that neither waits in `HangUp` nor is in a call that never returns goes on, and so does
    the master. -/
structure FairWorkers (json : Json V) (parse : List UInt8 → V → Bool × V) (server : Nat → Served V)
    (run : Nat → Workers W C V) : Prop where
  worker : ∀ w n, ¬ (run n).jobs.Blocked w →
    (∀ job job_list, (run n).jobs.svc w = .getResponse job job_list →
      ∃ fuel r, ((run n).http_request w).getResponse json parse fuel (server job.id)
        job.node.json_value = some (.inr r)) →
    ∃ m, n ≤ m ∧ (run (m + 1)).jobs.svc w ≠ (run m).jobs.svc w
  master : ∀ n, ∃ m, n ≤ m ∧ (run (m + 1)).jobs.process ≠ (run m).jobs.process

variable {α : Type u} {k e : α} {before after first rest : List α}

/-- What is before an element of a list that starts with a part that has it is in that part. -/
theorem mem_of_mem_before (hnodup : (before ++ k :: after).Nodup)
    (heq : before ++ k :: after = first ++ rest) (hk : k ∈ first) :
    ∀ a ∈ before ++ [k], a ∈ first := by
  have hfresh : k ∉ before := fun h => (List.nodup_append.1 hnodup).2.2 k h k List.mem_cons_self rfl
  obtain ⟨mid, rfl, hmid⟩ | ⟨mid, rfl, -⟩ := List.append_eq_append_iff.1 heq
  · cases mid with
    | nil =>
      rw [List.append_nil] at hk
      exact absurd hk hfresh
    | cons a mid =>
      obtain ⟨rfl, -⟩ := List.cons.inj hmid
      intro a ha
      simp only [List.mem_append, List.mem_cons, List.not_mem_nil, or_false] at ha ⊢
      exact ha.imp_right .inl
  · exact absurd (List.mem_append_left _ hk) hfresh

/-- An element that another one follows is before it. -/
theorem mem_before_of_mem (hnodup : (before ++ k :: after).Nodup)
    (heq : before ++ k :: after = first ++ e :: rest) (hk : k ∈ e :: rest) : e ∈ before ++ [k] := by
  -- `k` is behind `e` or `e` itself: the two cuts of the list are compared
  obtain ⟨mid, rfl, hmid⟩ | ⟨mid, rfl, hmid⟩ := List.append_eq_append_iff.1 heq
  · cases mid with
    | nil =>
      obtain ⟨rfl, -⟩ := List.cons.inj hmid
      simp
    | cons a mid =>
      obtain ⟨rfl, -⟩ := List.cons.inj hmid
      rw [heq] at hnodup
      have hdisjoint := (List.nodup_append.1 hnodup).2.2 k (by simp) k hk
      exact absurd rfl hdisjoint
  · cases mid with
    | nil =>
      obtain ⟨rfl, -⟩ := List.cons.inj hmid
      simp
    | cons a mid =>
      obtain ⟨rfl, -⟩ := List.cons.inj hmid
      simp

/-! ### Who is before a job -/

variable [DecidableEq W]

/-- The ids in a worker's flow are those pushed for it, in order. -/
theorem Conserved.flow_ids {s : Jobs W C V} (h : Conserved s) (w : W) :
    idsOf (s.flow w) = idsOf (ofWorker w s.pushed) := by
  have hids := congrArg (List.map Prod.fst) (h.order w)
  rwa [List.map_map, List.map_map] at hids

/-- What a worker holds is the end of its flow. -/
theorem Conserved.flow_held {s : Jobs W C V} (h : Conserved s) (w : W) :
    idsOf (s.flow w) = idsOf (ofWorker w s.called ++ (ofWorker w s.process.batch ++
      ofWorker w s.finish)) ++ (s.svc w).held (s.job_list w) := by
  have hexecuting := ofWorker_eq_self (h.own w (.execution w) (by simp))
  have hbatch := ofWorker_eq_self (h.own w (.batch w) (by simp))
  have hqueue := ofWorker_eq_self (h.own w (.queue w) (by simp))
  simp only [Jobs.at] at hexecuting hbatch hqueue
  rw [s.flow_eq, hexecuting, hbatch, hqueue]
  simp only [Svc.held, idsOf_append, List.append_assoc]

omit [DecidableEq W] in
/-- An id is listed when some job has it. -/
theorem mem_idsOf {k : Nat} {jobs : List (JobNodePtr W C V)} :
    k ∈ idsOf jobs ↔ ∃ j ∈ jobs, j.id = k := List.mem_map

section Pushed

variable {s : Jobs W C V} {pre post : List (JobNodePtr W C V)} {job : JobNodePtr W C V}

/-- The ids pushed for a worker around one of its jobs. -/
theorem ofWorker_pushed (hpushed : s.pushed = pre ++ job :: post) :
    idsOf (ofWorker job.worker s.pushed) =
      idsOf (ofWorker job.worker pre) ++ job.id :: idsOf (ofWorker job.worker post) := by
  have hself : ofWorker job.worker [job] = [job] := ofWorker_eq_self fun j hj => by
    rw [List.mem_singleton.1 hj]
  rw [hpushed, List.append_cons, ofWorker_append, ofWorker_append, hself]
  simp

/-- When a job has been called back, so have those pushed before it to the same worker. -/
theorem Conserved.called_before (h : Conserved s) (hpushed : s.pushed = pre ++ job :: post)
    (hcalled : job.id ∈ idsOf s.called) :
    ∀ j ∈ pre ++ [job], j.worker = job.worker → j.id ∈ idsOf s.called := by
  have hnodup := h.nodup_flow job.worker
  have hids := h.flow_ids job.worker
  rw [ofWorker_pushed hpushed] at hids
  obtain ⟨later, hflow⟩ : ∃ later,
      idsOf (s.flow job.worker) = idsOf (ofWorker job.worker s.called) ++ later :=
    ⟨_, by rw [s.flow_eq, idsOf_append]⟩
  -- the jobs called back are the first of the flow, which are the first pushed
  change (idsOf (s.flow job.worker)).Nodup at hnodup
  rw [hids] at hnodup hflow
  have hmem : job.id ∈ idsOf (ofWorker job.worker s.called) :=
    (h.mem_of_ids (p := .called) (hpushed ▸ by simp) hcalled).2
  intro j hj hw
  have hown : j.id ∈ idsOf (ofWorker job.worker pre) ++ [job.id] := by
    obtain hj | hj := List.mem_append.1 hj
    · exact List.mem_append_left _ (mem_idsOf.2 ⟨j, List.mem_filter.2 ⟨hj, decide_eq_true hw⟩, rfl⟩)
    · rw [List.mem_singleton.1 hj]
      simp
  obtain ⟨c, hc, hid⟩ := mem_idsOf.1 (mem_of_mem_before hnodup hflow hmem _ hown)
  exact mem_idsOf.2 ⟨c, (List.mem_filter.1 hc).1, hid⟩

/-- While a worker holds a job, the job in execution was pushed no later. -/
theorem Conserved.executing_before (h : Conserved s) (hpushed : s.pushed = pre ++ job :: post)
    (hheld : job.id ∈ (s.svc job.worker).held (s.job_list job.worker)) {e : JobNodePtr W C V}
    {job_list : List (JobNodePtr W C V)} (hpc : s.svc job.worker = .getResponse e job_list) :
    ∃ j ∈ pre ++ [job], j.worker = job.worker ∧ j.id = e.id := by
  have hnodup := h.nodup_flow job.worker
  have hids := h.flow_ids job.worker
  have hflow := h.flow_held job.worker
  rw [ofWorker_pushed hpushed] at hids
  change (idsOf (s.flow job.worker)).Nodup at hnodup
  rw [hids] at hnodup hflow
  rw [hpc] at hheld hflow
  have hbefore := mem_before_of_mem hnodup hflow hheld
  obtain hbefore | hself := List.mem_append.1 hbefore
  · obtain ⟨j, hj, hid⟩ := mem_idsOf.1 hbefore
    obtain ⟨hj, hw⟩ := List.mem_filter.1 hj
    exact ⟨j, List.mem_append_left _ hj, of_decide_eq_true hw, hid⟩
  · exact ⟨job, by simp, rfl, (List.mem_singleton.1 hself).symm⟩

end Pushed

/-! ### Who is called back -/

variable {run : Nat → Workers W C V} {block : W → Nat → UInt8}

/-- The run of the jobs. -/
theorem jobs_isRun (hrun : IsRun (WorkersStep json parse server) run) :
    IsRun JobStep fun n => (run n).jobs := by
  intro n
  obtain heq | hstep := hrun n
  · exact .inl (congrArg Workers.jobs heq)
  · exact .inr hstep.jobStep

/-- In a fair run a job is called back exactly when its response, and those of the jobs pushed
    before it to the same worker, have bodies that fit into the first block. -/
theorem called_back_iff (hheader : ∀ id, (server id).Orderly) (hinit : run 0 = Workers.init block)
    (hrun : IsRun (WorkersStep json parse server) run) (hfair : FairWorkers json parse server run)
    {n : Nat} {pre post : List (JobNodePtr W C V)} {job : JobNodePtr W C V}
    (hpushed : (run n).jobs.pushed = pre ++ job :: post) :
    (∃ m, n ≤ m ∧ job.id ∈ (run m).jobs.ids .called) ↔
      ∀ j ∈ pre ++ [job], j.worker = job.worker → (server j.id).Fits := by
  have hanswered : ∀ m, Answered json parse server (run m) := fun m =>
    hrun.stable (P := Answered json parse server) (fun _ _ h hstep => h.step hstep)
      (Nat.zero_le m) (hinit ▸ .init block)
  have hconserved : ∀ m, Conserved (run m).jobs := fun m =>
    hrun.stable (P := fun s => Conserved s.jobs) (fun _ _ h hstep => hstep.jobStep.conserved h)
      (Nat.zero_le m) (hinit ▸ .init)
  have hlater : ∀ m, n ≤ m → ∃ post', (run m).jobs.pushed = pre ++ job :: post' := fun m hm =>
    hrun.stable (P := fun s => ∃ post', s.jobs.pushed = pre ++ job :: post')
      (fun s s' ⟨post', h⟩ hstep => by
        obtain ⟨more, hmore⟩ := hstep.jobStep.records.1
        exact ⟨post' ++ more, by rw [← hmore, h]; simp⟩) hm ⟨post, hpushed⟩
  constructor
  · -- all of them have been answered
    rintro ⟨m, hm, hcalled⟩ j hj hw
    obtain ⟨post', hpushed'⟩ := hlater m hm
    obtain ⟨c, hc, hid⟩ :=
      mem_idsOf.1 ((hconserved m).called_before hpushed' hcalled j hj hw)
    obtain ⟨j', -, hfits, rfl⟩ := (hanswered m).finished c (List.mem_append_left _ hc)
    rw [← hid]
    exact hfits
  · -- no call before that of the job is endless
    intro hfits
    have hjobs := jobs_isRun hrun
    have hmaster : LeadsTo (fun m => (run m).jobs) (fun s => job.id ∈ s.process.held s.finish)
        (fun s => job.id ∈ idsOf s.called) :=
      (helped_master job.id).leadsTo hjobs (fun _ h => h rfl) fun m _ => hfair.master m
    -- the run from the time the job is there
    have hworker : LeadsTo (fun m => (run (n + m)).jobs)
        (fun s => job.id ∈ (s.svc job.worker).held (s.job_list job.worker))
        (fun s => job.id ∈ s.process.held s.finish) := by
      refine (helped_worker job.worker job.id).leadsTo (fun m => hjobs (n + m)) (fun _ h => h rfl)
        fun m hheld => ?_
      obtain ⟨k, hk, hmoves⟩ := hfair.worker job.worker (n + m) (not_blocked_of_held hheld)
        fun e job_list hpc => by
          obtain ⟨post', hpushed'⟩ := hlater (n + m) (Nat.le_add_right n m)
          obtain ⟨j, hj, hw, hid⟩ := (hconserved (n + m)).executing_before hpushed' hheld hpc
          obtain ⟨acc, hblob⟩ := (hanswered (n + m)).blob job.worker
          obtain ⟨request, result, hret⟩ := getResponse_of_fits json parse hblob
            (hheader e.id) (hid ▸ hfits j hj hw) 0 e.node.json_value
          exact ⟨0, _, hret⟩
      obtain ⟨d, rfl⟩ : ∃ d, k = n + d := ⟨k - n, by omega⟩
      exact ⟨d, by omega, hmoves⟩
    have hmem : job ∈ (run n).jobs.pushed := hpushed ▸ by simp
    obtain hcalled | hheld | hheld := (hconserved n).mem_held hmem
    · exact ⟨n, Nat.le_refl n, hcalled⟩
    · exact hmaster n hheld
    · obtain ⟨d, -, hd⟩ := hworker 0 hheld
      obtain ⟨m, hm, hcalled⟩ := hmaster (n + d) hd
      exact ⟨m, by omega, hcalled⟩
end Fair

/-! ### Two responses -/

/-- A response without a header, whose body has `n` bytes. -/
def servedBytes (n : Nat) (hn : n ≤ curlMaxWriteSize) : Served Nat where
  call := {
    uri := [], content := [], json_value := 0, addr := 0, memory := fun _ => none
    holds := fun i hi => absurd hi (Nat.not_lt_zero i)
    setsUrl := true, performs := true, parse := fun v => (true, v) }
  deliveries := [.body (List.replicate n 0) none]
  small := by
    intro data alloc h
    obtain ⟨rfl, -⟩ := Delivery.body.inj (List.mem_singleton.1 h)
    rw [List.length_replicate]
    exact hn

/-- Every value is an object. -/
def Json.number : Json Nat where
  isObject := fun _ => true
  isMember := fun _ _ => false

/-- The length of a text. -/
def parseLength (text : List UInt8) (_ : Nat) : Bool × Nat := (true, text.length)

/-- A server that sends one block is orderly. -/
theorem servedBytes_orderly (n : Nat) (hn : n ≤ curlMaxWriteSize) : (servedBytes n hn).Orderly := by
  intro line hline
  simp [servedBytes] at hline

/-- Its block fits when it is no longer than the default buffer, -/
theorem servedBytes_fits {n : Nat} (hn : n ≤ curlMaxWriteSize) :
    (servedBytes n hn).Fits ↔ n ≤ defaultBuffSize := by
  simp [Served.Fits, servedBytes, bodyOf]

/-- The steps of `lone` around the call. -/
theorem lone_other {request : Unit → HttpRequest} {server : Nat → Served Nat} (n : Nat)
    (hn : n ≠ 4) :
    WorkersStep Json.number parseLength server ⟨lone n, request⟩ ⟨lone (n + 1), request⟩ := by
  refine .other (lone_step n) fun w job job_list hpc => ?_
  fun_induction lone n with
  | case5 => exact absurd rfl hn
  | case13 n ih => exact ih (by omega) hpc
  | case1 | case2 | case3 | case4 | case6 | case7 | case8 | case9 | case10 | case11 | case12 =>
    cases hpc

/-- The call of `lone` returns. -/
theorem lone_respond {request request' : HttpRequest} {server : Nat → Served Nat} {fuel : Nat}
    {result : Bool} (hret : request.getResponse .number parseLength fuel (server 0) 0 =
      some (.inr (request', result, 7))) :
    WorkersStep Json.number parseLength server ⟨lone 4, fun _ => request⟩
      ⟨lone 5, fun _ => request'⟩ :=
  .respond () rfl hret

/-- and the answer is the block's length. -/
theorem servedBytes_answer {n : Nat} (hn : n ≤ curlMaxWriteSize) :
    (servedBytes n hn).answer .number parseLength 0 = n := by
  simp [Served.answer, servedBytes, bodyOf, Call.respond, Json.number, parseLength]

/-- A response of 7 bytes is answered with 7. -/
theorem called_back_answer_seven : ∃ s : Workers Unit Unit Nat,
    s.jobs.called = [loneJob.respond 7] ∧ ∃ j ∈ s.jobs.pushed, loneJob.respond 7 =
      j.respond ((servedBytes 7 (by decide)).answer .number parseLength j.node.json_value) := by
  have hheader := servedBytes_orderly 7 (by decide)
  let created : HttpRequest := ⟨.create, .new fun _ => 0⟩
  obtain ⟨request, result, hret⟩ : ∃ request' result, created.getResponse .number parseLength 0
      (servedBytes 7 (by decide)) 0 = some (.inr (request', result, _)) :=
    getResponse_of_fits .number parseLength (contains_new fun _ => 0) hheader
      ((servedBytes_fits _).2 (by decide)) 0 0
  rw [servedBytes_answer] at hret
  -- four steps bring the job to its worker
  have hcall : Relation.ReflTransGen
      (WorkersStep Json.number parseLength fun _ => servedBytes 7 (by decide))
      (Workers.init fun _ _ => 0) ⟨lone 4, fun _ => created⟩ :=
    (((Relation.ReflTransGen.single (lone_other 0 (by decide))).tail
      (lone_other 1 (by decide))).tail (lone_other 2 (by decide))).tail (lone_other 3 (by decide))
  -- the call returns, and four more steps call it back
  have hreturned := hcall.tail (lone_respond hret)
  have hcalled := (((hreturned.tail (lone_other 5 (by decide))).tail
    (lone_other 6 (by decide))).tail (lone_other 7 (by decide))).tail (lone_other 8 (by decide))
  obtain ⟨j, hj, -, heq⟩ := called_back_answer hcalled
    (List.mem_singleton_self (loneJob.respond 7))
  exact ⟨⟨lone 9, fun _ => request⟩, rfl, j, hj, heq⟩

/-- The states of a run with one job whose response does not fit. -/
def endless : Nat → Jobs Unit Unit Nat
  | 0 => lone 0
  | 1 => lone 1
  | 2 => lone 2
  | 3 => lone 3
  | 4 => lone 4
  | 5 => { lone 4 with process := .deal [] }
  | n + 6 => endless (n + 4)

/-- Each state follows the one before by a step of the jobs. -/
theorem endless_step (n : Nat) : JobStep (endless n) (endless (n + 1)) := by
  fun_induction endless n with
  | case1 => exact lone_step 0
  | case2 => exact lone_step 1
  | case3 => exact lone_step 2
  | case4 => exact lone_step 3
  | case5 => exact .processFinish rfl
  | case6 => exact .processDone rfl
  | case7 n ih => exact ih

/-- From the fourth step on the worker is in `GetResponse`. -/
theorem endless_svc : ∀ n, (endless (n + 4)).svc () = .getResponse loneJob []
  | 0 | 1 => rfl
  | n + 2 => endless_svc n

/-- The processing thread keeps moving. -/
theorem endless_process : ∀ n, (endless (n + 5)).process ≠ (endless (n + 4)).process
  | 0 | 1 => nofun
  | n + 2 => endless_process n

/-- The run of the workers: no call returns. -/
def endlessRun (request : HttpRequest) (n : Nat) : Workers Unit Unit Nat :=
  ⟨endless n, fun _ => request⟩

/-- The states are a run: the worker stays in its call and only the processing thread goes round. -/
theorem endless_isRun (request : HttpRequest) (server : Nat → Served Nat) :
    IsRun (WorkersStep Json.number parseLength server) (endlessRun request) := by
  intro n
  refine .inr (.other (endless_step n) fun w job job_list hpc => ?_)
  by_cases hn : n < 4
  · -- no call has begun
    have hcases : n = 0 ∨ n = 1 ∨ n = 2 ∨ n = 3 := by omega
    obtain rfl | rfl | rfl | rfl := hcases <;> cases hpc
  · obtain ⟨d, rfl⟩ : ∃ d, n = d + 4 := ⟨n - 4, by omega⟩
    exact (endless_svc (d + 1)).trans ((endless_svc d).symm.trans hpc)

/-- It is fair, since the call that overflows the blob cannot return. -/
theorem endless_fair {request : HttpRequest} {acc : List UInt8} (h : Contains request.blob acc)
    {n : Nat} (hn : n ≤ curlMaxWriteSize) (hover : ¬ n ≤ defaultBuffSize) :
    FairWorkers Json.number parseLength (fun _ => servedBytes n hn) (endlessRun request) where
  worker := by
    intro w i hblocked hreturns
    by_cases hi : i < 4
    · refine ⟨i, Nat.le_refl i, ?_⟩
      have hcases : i = 0 ∨ i = 1 ∨ i = 2 ∨ i = 3 := by omega
      obtain rfl | rfl | rfl | rfl := hcases
      · exact absurd ⟨rfl, rfl⟩ hblocked
      all_goals exact nofun
    · -- the call does not return
      obtain ⟨d, rfl⟩ : ∃ d, i = d + 4 := ⟨i - 4, by omega⟩
      obtain ⟨fuel, r, hret⟩ := hreturns loneJob [] (endless_svc d)
      obtain ⟨newSize, hloop⟩ := getResponse_of_not_fits .number parseLength h
        (servedBytes_orderly n hn) (fun hfits => hover ((servedBytes_fits hn).1 hfits)) fuel
        loneJob.node.json_value
      exact absurd (hloop.symm.trans hret) nofun
  master := by
    intro i
    obtain ⟨d, hd⟩ : ∃ d, d + 4 = max i 4 := ⟨max i 4 - 4, by omega⟩
    exact ⟨d + 4, by omega, endless_process d⟩

/-- A response of 257 bytes is never answered. -/
theorem called_back_iff_endless : ¬ ∃ m, 1 ≤ m ∧ loneJob.id ∈ (endless m).ids .called := by
  have hblob := contains_new fun _ => 0
  have hinit : endlessRun ⟨.create, .new fun _ => 0⟩ 0 = .init fun _ _ => 0 := rfl
  have hiff := called_back_iff (n := 1) (fun _ => servedBytes_orderly 257 (by decide)) hinit
    (endless_isRun _ _) (endless_fair hblob (by decide) (by decide))
    (List.nil_append [loneJob]).symm
  intro hcalled
  have hfits := hiff.1 hcalled loneJob (by simp) rfl
  exact absurd ((servedBytes_fits _).1 hfits) (by decide)

end XGame3.Http
