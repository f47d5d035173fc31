import XGame3.Native.HttpSession

/-!
# Sessions under one manager (`http_request_mgr.h`, `http_session.cpp`)

`HttpRequestMgr::HttpRequest` creates a session and starts it; from then on the `io_service` calls
the handlers, one at a time, in any order the network makes of it.  A session is kept alive by the
handler that is bound to it, and is destroyed when a handler returns without binding another one.
A callback may make further requests; they come after it here.

What a session prints is left out, as are the endpoints it tries.
-/

namespace XGame3.Http

open IStream

/-- A `std::string`. -/
abbrev Bytes := List UInt8

/-- The operation a session has started before it reads. -/
inductive Operation where
  | resolve
  | connect
  | write
deriving DecidableEq, Repr

/-- What the `io_service` reports. -/
inductive Event where
  | resolved (err : ErrorCode)
  | connected (err : ErrorCode)
  | written (err : ErrorCode)
  | received (chunk : Bytes)
  | closed
  | failed
deriving DecidableEq, Repr

namespace HttpSession

/-- The outstanding read fails. -/
def readError (s : HttpSession) : HttpSession :=
  match s.pending with
  | none => s
  | some .readStatusLine => handleReadStatusLine .other { s with pending := none }
  | some .readHeaders => handleReadHeaders .other { s with pending := none }
  | some .readContent => handleReadContent .other { s with pending := none }

end HttpSession

/-- An `HttpSession` with what it has from its creation: `request` is what is left to be sent. -/
structure Client where
  server : Bytes
  path : Bytes
  srcSID : Int
  dstSID : Int
  request : Bytes
  operation : Option Operation
  session : HttpSession
deriving DecidableEq, Repr

namespace Client

/-- `HttpSession::Create`; the callback is set. -/
def create (server path : Bytes) (srcID dstID : Int) : Client where
  server := server
  path := path
  srcSID := srcID
  dstSID := dstID
  request := []
  operation := none
  session := .new true

/-- The text `start` forms. -/
def requestText (server path : Bytes) : Bytes :=
  ascii "GET " ++ path ++ ascii " HTTP/1.0\r\n" ++ (ascii "Host: " ++ server ++ ascii "\r\n") ++
    ascii "Accept: */*\r\n" ++ ascii "Connection: close\r\n\r\n"

/-- `start`. -/
def start (c : Client) : Client :=
  { c with request := c.request ++ requestText c.server c.path, operation := some .resolve }

/-- `handle_resolve`. -/
def handleResolve (err : ErrorCode) (c : Client) : Client :=
  if err = .ok then { c with operation := some .connect } else c

/-- `handle_connect`. -/
def handleConnect (err : ErrorCode) (c : Client) : Client :=
  if err = .ok then { c with operation := some .write } else c

/-- A handler is bound to the session. -/
def Bound (c : Client) : Prop := c.operation ≠ none ∨ c.session.pending ≠ none

instance (c : Client) : Decidable c.Bound := inferInstanceAs (Decidable (_ ∨ _))

/-- The operation an event completes is the one that is outstanding. -/
def Expects (c : Client) : Event → Prop
  | .resolved _ => c.operation = some .resolve
  | .connected _ => c.operation = some .connect
  | .written _ => c.operation = some .write
  | .received chunk => c.session.pending ≠ none ∧ chunk ≠ []
  | .closed | .failed => c.session.pending ≠ none

instance (c : Client) : (e : Event) → Decidable (c.Expects e)
  | .resolved _ | .connected _ | .written _ => inferInstanceAs (Decidable (_ = _))
  | .received _ => inferInstanceAs (Decidable (_ ∧ _))
  | .closed | .failed => inferInstanceAs (Decidable (_ ≠ _))

/-- The handler runs. -/
def handle (c : Client) : Event → Client
  | .resolved err => { c with operation := none }.handleResolve err
  | .connected err => { c with operation := none }.handleConnect err
  | .written err =>
    -- `async_write` consumes what it has sent, all of it when there is no error
    { c with
      operation := none
      request := if err = .ok then [] else c.request
      session := c.session.handleWriteRequest err }
  | .received chunk => { c with session := c.session.receive chunk }
  | .closed => { c with session := c.session.endOfFile }
  | .failed => { c with session := c.session.readError }

end Client

/-- All sessions that are alive, under the numbers of their requests, with the requests accepted,
    what has been sent and the callbacks invoked so far. -/
structure HttpRequestMgr where
  sessions : List (Nat × Client)
  http_counter : Int
  requests : List Client
  sent : List (Nat × Bytes)
  called : List (Nat × CltMsg)

namespace HttpRequestMgr

/-- Before any request. -/
def init : HttpRequestMgr where
  sessions := []
  http_counter := 0
  requests := []
  sent := []
  called := []

/-- `HttpRequest`; `call_back` is whether the pointer is set. -/
def httpRequest (s : HttpRequestMgr) (server path : Bytes) (srcID dstID : Int) (call_back : Bool) :
    Bool × HttpRequestMgr :=
  if !call_back then (false, s)
  else
    let new_session := Client.create server path srcID dstID
    (true, { s with
      sessions := s.sessions ++ [(s.requests.length, new_session.start)]
      http_counter := s.http_counter + 1
      requests := s.requests ++ [new_session] })

/-- A session in the place of the one of its number, or none if no handler is bound any more:
    the destructor counts down. -/
def put (s : HttpRequestMgr) (i : Nat) (c : Client) : HttpRequestMgr :=
  if c.Bound then
    { s with sessions := s.sessions.map fun p => if p.1 = i then (i, c) else p }
  else
    { s with
      sessions := s.sessions.filter fun p => p.1 ≠ i
      http_counter := s.http_counter - 1 }

/-- What happens. -/
inductive Action where
  | httpRequest (server path : Bytes) (srcID dstID : Int) (call_back : Bool)
  | event (i : Nat) (e : Event)

/-- One step; `none` when the event cannot come about. -/
def step (s : HttpRequestMgr) : Action → Option HttpRequestMgr
  | .httpRequest server path srcID dstID call_back =>
    some (s.httpRequest server path srcID dstID call_back).2
  | .event i e =>
    match s.sessions.lookup i with
    | none => none
    | some c =>
      if c.Expects e then
        let c' := c.handle e
        let s := { s with
          sent := s.sent ++ (if e = Event.written .ok then [(i, c.request)] else [])
          called := s.called ++ (c'.session.called.drop c.session.called.length).map (i, ·) }
        some (s.put i c')
      else none

/-- One step after the other. -/
def run (s : HttpRequestMgr) : List Action → Option HttpRequestMgr
  | [] => some s
  | a :: as => (s.step a).bind fun s => s.run as

end HttpRequestMgr

end XGame3.Http
