import XGame3.ForStd.IStream

/-!
# One HTTP response (`http_session.cpp`)

The handlers of the asynchronous reads, and the two things the network does: it receives
bytes, and it reports the end of the stream.  `async_read_until` completes as soon as its
delimiter is in the buffer, which may by then hold more, and fails at the end of the stream.
`async_read` with `transfer_at_least(1)` completes when bytes have arrived and keeps them.

The buffer of the streambuf is the list of its bytes.  What the handlers print is left out.
-/

namespace XGame3.Http

open IStream

/-- `kRecvBufMaxSize`. -/
def kRecvBufMaxSize : Nat := 8192

/-- The error code a handler is given. -/
inductive ErrorCode where
  | ok
  | eof
  | other
deriving DecidableEq, Repr

/-- The handler of the read that is outstanding. -/
inductive Handler where
  | readStatusLine
  | readHeaders
  | readContent
deriving DecidableEq, Repr

/-- What `call_back_->fn` is invoked with. -/
structure CltMsg where
  data : List UInt8
  len : Nat
  url : String
deriving DecidableEq, Repr

/-- `HttpSession`: `call_back_` is whether the pointer is set, `called` the invocations of its
    function so far. -/
structure HttpSession where
  response : List UInt8
  pending : Option Handler
  call_back : Bool
  buff : List UInt8
  buff_len : Nat
  called : List CltMsg
deriving DecidableEq, Repr

namespace HttpSession

/-- The constructor. -/
def new (call_back : Bool) : HttpSession where
  response := []
  pending := none
  call_back := call_back
  buff := List.replicate kRecvBufMaxSize 0
  buff_len := 0
  called := []

/-- `async_read_until`, as far as the buffer alone decides. -/
def asyncReadUntil (delim : List UInt8) (pending : Handler)
    (handler : ErrorCode → HttpSession → HttpSession) (s : HttpSession) : HttpSession :=
  if delim <:+: s.response then handler .ok { s with pending := none }
  else { s with pending := some pending }

/-- `async_read` with `transfer_at_least(1)`. -/
def asyncRead (s : HttpSession) : HttpSession := { s with pending := some .readContent }

/-- `sgetn` into `buff_`. -/
def sgetn (s : HttpSession) : HttpSession :=
  { s with
    buff := s.response.take kRecvBufMaxSize ++ s.buff.drop s.response.length
    response := s.response.drop kRecvBufMaxSize }

/-- `handle_read_content`. -/
def handleReadContent (err : ErrorCode) (s : HttpSession) : HttpSession :=
  match err with
  | .ok => s.asyncRead
  | .other => s
  | .eof =>
    if kRecvBufMaxSize ≤ s.response.length then s
    else
      let s := { s with buff_len := s.response.length }.sgetn
      if s.call_back then
        { s with called := s.called ++ [{ data := s.buff, len := s.buff_len, url := "" }] }
      else s

/-- The header loop of `handle_read_headers`: lines up to one with nothing but its carriage
    return. -/
def readHeaders (buf : List UInt8) : List UInt8 :=
  match h : getline buf with
  | none => buf
  | some (header, rest) =>
    have : rest.length < buf.length := getline_length h
    if header = [cr] then rest else readHeaders rest
termination_by buf.length

/-- `handle_read_headers`. -/
def handleReadHeaders (err : ErrorCode) (s : HttpSession) : HttpSession :=
  match err with
  | .ok => { s with response := readHeaders s.response }.asyncRead
  | _ => s

/-- The three extractions of `handle_read_status_line`: the version, the code and what is left. -/
def readStatusLine (buf : List UInt8) : Option (List UInt8 × Nat × List UInt8) :=
  (word buf).bind fun (http_version, buf) =>
    (number 32 buf).bind fun (status_code, buf) =>
      (getline buf).map fun (_, buf) => (http_version, status_code, buf)

/-- `handle_read_status_line`. -/
def handleReadStatusLine (err : ErrorCode) (s : HttpSession) : HttpSession :=
  match err with
  | .ok =>
    match readStatusLine s.response with
    -- the stream has failed, and what is left in it is read by nobody
    | none => s
    | some (http_version, status_code, response) =>
      let s := { s with response := response }
      if http_version.take 5 ≠ ascii "HTTP/" then s
      else if status_code ≠ 200 then s
      else s.asyncReadUntil crlf2 .readHeaders handleReadHeaders
  | _ => s

/-- `handle_write_request`. -/
def handleWriteRequest (err : ErrorCode) (s : HttpSession) : HttpSession :=
  match err with
  | .ok => s.asyncReadUntil crlf .readStatusLine handleReadStatusLine
  | _ => s

/-- Bytes arrive for the outstanding read. -/
def receive (s : HttpSession) (chunk : List UInt8) : HttpSession :=
  match s.pending with
  | none => s
  | some .readStatusLine =>
    { s with response := s.response ++ chunk }.asyncReadUntil crlf .readStatusLine
      handleReadStatusLine
  | some .readHeaders =>
    { s with response := s.response ++ chunk }.asyncReadUntil crlf2 .readHeaders
      handleReadHeaders
  | some .readContent =>
    -- nothing has been transferred yet by an empty chunk
    if chunk = [] then s
    else
      handleReadContent .ok { s with response := s.response ++ chunk, pending := none }

/-- The peer has closed the connection. -/
def endOfFile (s : HttpSession) : HttpSession :=
  match s.pending with
  | none => s
  | some .readStatusLine => handleReadStatusLine .eof { s with pending := none }
  | some .readHeaders => handleReadHeaders .eof { s with pending := none }
  | some .readContent => handleReadContent .eof { s with pending := none }

/-- A session from the written request to the end of the stream. -/
def respond (call_back : Bool) (chunks : List (List UInt8)) : HttpSession :=
  (chunks.foldl receive ((new call_back).handleWriteRequest .ok)).endOfFile

end HttpSession

end XGame3.Http
