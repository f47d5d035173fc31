import XGame3.Native.HttpHeader
import XGame3.Native.HttpJobs

/-!
# Workers with their request objects (`http_worker.cpp`, `http_request.cpp`)

Each worker has one `HttpRequest`, that is one curl handle and one response buffer, and calls
`GetResponse` on it for one job after the other.  During a transfer libcurl calls
`HeaderFunction` for each line of the header and `WriteFunction` for each piece of the body.
What the other side sends for a job is given from outside, as is the JSON reader.
-/

namespace XGame3.Http

open FixedInt

universe u

variable {W C V : Type u}

/-- `CURL_MAX_WRITE_SIZE`. -/
def curlMaxWriteSize : Nat := 16384

/-- A call libcurl makes during a transfer; a piece of the body comes with what an allocation would
    give. -/
inductive Delivery where
  | header (line : List UInt8)
  | body (data : List UInt8) (alloc : Alloc)

/-- `HttpRequest`. -/
structure HttpRequest where
  curl : Handle
  blob : ResponseBlob

/-- What comes back for a job: how the call goes, and what libcurl hands over during it. -/
structure Served (V : Type u) where
  call : Call V
  deliveries : List Delivery
  small : ∀ data alloc, Delivery.body data alloc ∈ deliveries → data.length ≤ curlMaxWriteSize

/-- `WriteFunction`, which takes no notice of what `Push` returns. -/
def writeFunction (fuel : Nat) (blob : ResponseBlob) (data : List UInt8) (alloc : Alloc) :
    Option (Nat ⊕ (Nat × ResponseBlob)) :=
  (blob.push fuel data alloc).map (Sum.map id fun r => (data.length, r.2))

/-- The callbacks of a transfer.  Each says that it has taken all bytes, so libcurl goes on. -/
def transfer (fuel : Nat) : ResponseBlob → List Delivery → Option (Nat ⊕ ResponseBlob)
  | blob, [] => some (.inr blob)
  | blob, .header line :: deliveries =>
    match headerFunction .eight blob line 1 line.length with
    | none => none
    | some (_, blob) => transfer fuel blob deliveries
  | blob, .body data alloc :: deliveries =>
    match writeFunction fuel blob data alloc with
    | none => none
    | some (.inl newSize) => some (.inl newSize)
    | some (.inr (_, blob)) => transfer fuel blob deliveries

/-- The text the JSON reader is given. -/
def responseText (blob : ResponseBlob) : List UInt8 := blob.getData.take blob.getLength

/-- `GetResponse`, each loop of it allowed `fuel` iterations. -/
def HttpRequest.getResponse (json : Json V) (parse : List UInt8 → V → Bool × V) (fuel : Nat)
    (request : HttpRequest) (served : Served V) (json_value : V) :
    Option (Nat ⊕ (HttpRequest × Bool × V)) :=
  let blob := request.blob.reset
  if !served.call.setsUrl then some (.inr ({ request with blob := blob }, false, json_value))
  else
    match transfer fuel blob served.deliveries with
    | none => none
    | some (.inl newSize) => some (.inl newSize)
    | some (.inr blob) =>
      let (curl, _, result) := Http.getResponse json request.curl
        { served.call with json_value := json_value, parse := parse (responseText blob) }
      some (.inr ({ curl := curl, blob := blob }, result))

/-- All threads, with the request object of each worker. -/
structure Workers (W C V : Type u) where
  jobs : Jobs W C V
  http_request : W → HttpRequest

/-- After `Create`: the blocks are what `malloc` returned. -/
def Workers.init (block : W → Nat → UInt8) : Workers W C V where
  jobs := .init
  http_request := fun w => { curl := .create, blob := .new (block w) }

/-- One step of one thread; `server` is what comes back for the job of a number. -/
inductive WorkersStep [DecidableEq W] (json : Json V) (parse : List UInt8 → V → Bool × V)
    (server : Nat → Served V) : Workers W C V → Workers W C V → Prop
  /-- `GetResponse` returns; `Svc` takes no notice of its result. -/
  | respond {s : Workers W C V} (w : W) {job : JobNodePtr W C V}
      {job_list : List (JobNodePtr W C V)}
      (hpc : s.jobs.svc w = .getResponse job job_list) {fuel : Nat} {request : HttpRequest}
      {result : Bool} {json_value : V}
      (hret : (s.http_request w).getResponse json parse fuel (server job.id) job.node.json_value =
        some (.inr (request, result, json_value))) :
      WorkersStep json parse server s {
        jobs := { s.jobs with
          svc := Function.update s.jobs.svc w (.pushFinish (job.respond json_value) job_list) }
        http_request := Function.update s.http_request w request }
  /-- Anything else, and every call of `GetResponse` goes on. -/
  | other {s : Workers W C V} {jobs : Jobs W C V} (hstep : JobStep s.jobs jobs)
      (hcalls : ∀ w job job_list, s.jobs.svc w = .getResponse job job_list →
        jobs.svc w = .getResponse job job_list) :
      WorkersStep json parse server s { s with jobs := jobs }

end XGame3.Http
