import Mathlib.Data.List.Basic

/-!
# Requests on one curl handle (`http_request.cpp`)

A `std::string` is its list of bytes.  libcurl keeps an option until it is set again, copies
the URL, keeps only the pointer of `CURLOPT_POSTFIELDS`, and issues a POST whenever that
pointer is set.  The rest of the world comes with each call: where the content lies, what
the memory holds during the transfer, and what the transfer and the JSON reader answer.
-/

namespace XGame3.Http

universe u

/-- The options of the easy handle that a request depends on. -/
structure Handle where
  url : Option (List UInt8)
  postFields : Option Nat
  postFieldSize : Option Nat
deriving DecidableEq, Repr

/-- What goes out on the wire.  The body of a POST is `none` when it is not there any more. -/
inductive Transfer where
  | get (url : List UInt8)
  | post (url : List UInt8) (body : Option (List UInt8))
deriving DecidableEq, Repr

/-- What `GetResponse` asks of a `Json::Value`. -/
structure Json (V : Type u) where
  isObject : V → Bool
  isMember : V → String → Bool

/-- One call of `GetResponse`: `content.c_str()` is `addr`, where the content lies until the call
    returns. -/
structure Call (V : Type u) where
  uri : List UInt8
  content : List UInt8
  json_value : V
  addr : Nat
  memory : Nat → Option UInt8
  holds : ∀ i < content.length, memory (addr + i) = content[i]?
  setsUrl : Bool
  performs : Bool
  parse : V → Bool × V

variable {V : Type u}

/-- `c_str`, up to the first zero byte. -/
def cStr (s : List UInt8) : List UInt8 := s.takeWhile (· ≠ 0)

/-- `n` bytes from an address on. -/
def readBytes (memory : Nat → Option UInt8) (addr : Nat) : Nat → Option (List UInt8)
  | 0 => some []
  | n + 1 =>
    match memory addr, readBytes memory (addr + 1) n with
    | some b, some bs => some (b :: bs)
    | _, _ => none

/-- The handle that `HttpRequest::Create` leaves: none of these options is set. -/
def Handle.create : Handle where
  url := none
  postFields := none
  postFieldSize := none

/-- `curl_easy_setopt(curl_, CURLOPT_URL, uri.c_str())`. -/
def Handle.setUrl (h : Handle) (c : Call V) : Handle := { h with url := some (cStr c.uri) }

/-- The two options that are set for a content that is not empty. -/
def Handle.setPost (h : Handle) (c : Call V) : Handle :=
  if 0 < c.content.length then
    { h with postFields := some c.addr, postFieldSize := some c.content.length }
  else h

/-- The transfer `curl_easy_perform` makes. -/
def Handle.perform (h : Handle) (memory : Nat → Option UInt8) : Option Transfer :=
  h.url.map fun url =>
    match h.postFields with
    | none => .get url
    -- a pointer is never set without a size
    | some addr => .post url (h.postFieldSize.bind (readBytes memory addr))

/-- What is left of `GetResponse` once the transfer is over. -/
def Call.respond (json : Json V) (c : Call V) : Bool × V :=
  if !c.performs then (false, c.json_value)
  else
    match c.parse c.json_value with
    | (false, json_value) => (false, json_value)
    | (true, json_value) =>
      if !json.isObject json_value then (false, json_value)
      else if json.isMember json_value "error" then (false, json_value)
      else (true, json_value)

/-- `GetResponse`, with the transfer it makes. -/
def getResponse (json : Json V) (h : Handle) (c : Call V) :
    Handle × Option Transfer × Bool × V :=
  if !c.setsUrl then (h, none, false, c.json_value)
  else
    let h := (h.setUrl c).setPost c
    (h, h.perform c.memory, c.respond json)

/-- The transfers of a sequence of calls, one after the other on one handle. -/
def transfers (json : Json V) : Handle → List (Call V) → List (Option Transfer)
  | _, [] => []
  | h, c :: cs =>
    (getResponse json h c).2.1 :: transfers json (getResponse json h c).1 cs

end XGame3.Http
