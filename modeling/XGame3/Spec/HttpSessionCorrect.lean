import XGame3.Native.HttpSession

/-!
# Which responses are delivered

The handler of the status line consumes the line end behind it.  What the next read waits
for, a line end and a blank line, is then found behind the last header line; where there is
no header line, only the body can contain it.

Key results:
- `readStatusLine_line`, `readHeaders_block`: what the handlers leave of the buffer
- `block_of_delim`: once the second delimiter has arrived, so has the whole header block
- `At.receive`: where a session is depends only on the bytes received, not on their chunks
- `delivered_iff`: exactly when the body is delivered, for every split into chunks
-/

namespace XGame3.Http

open IStream

/-- A response: `HTTP/major.minor 200 reason`, header lines, a blank line and a body that fits. -/
structure Response where
  major : List UInt8
  minor : List UInt8
  reason : List UInt8
  headers : List (List UInt8)
  body : List UInt8
  version_word : ∀ b ∈ major ++ minor, isSpace b = false
  reason_line : cr ∉ reason ∧ lf ∉ reason
  header_line : ∀ h ∈ headers, cr ∉ h ∧ lf ∉ h
  header_some : ∀ h ∈ headers, h ≠ []
  body_fits : body.length < kRecvBufMaxSize

namespace Response

/-- The version word. -/
def version (r : Response) : List UInt8 := ascii "HTTP/" ++ r.major ++ ascii "." ++ r.minor

/-- The status line without its line end. -/
def statusLine (r : Response) : List UInt8 :=
  r.version ++ 32 :: ascii "200" ++ 32 :: r.reason

/-- Header lines with their line ends. -/
def headerLines (headers : List (List UInt8)) : List UInt8 := headers.flatMap (· ++ crlf)

/-- The header block with the blank line. -/
def block (r : Response) : List UInt8 := headerLines r.headers ++ crlf

/-- What the peer sends. -/
def bytes (r : Response) : List UInt8 := r.statusLine ++ crlf ++ (r.block ++ r.body)

end Response

/-- The callback has been invoked once, with the body and its length. -/
def Delivered (r : Response) (s : HttpSession) : Prop :=
  ∃ msg, s.called = [msg] ∧ msg.data.take msg.len = r.body ∧ msg.len = r.body.length

/-! ### What the handlers read -/

/-- No byte of the version is a space. -/
theorem version_noSpace (r : Response) : ∀ b ∈ r.version, isSpace b = false := by
  intro b hb
  simp only [Response.version, List.mem_append] at hb
  rcases hb with ((hb | hb) | hb) | hb
  · revert b; decide +kernel
  · exact r.version_word b (by simp [hb])
  · revert b; decide +kernel
  · exact r.version_word b (by simp [hb])

/-- The status line is one line. -/
theorem statusLine_line (r : Response) : cr ∉ r.statusLine ∧ lf ∉ r.statusLine := by
  have hcr : cr ∉ r.version := fun h => absurd (version_noSpace r cr h) (by decide)
  have hlf : lf ∉ r.version := fun h => absurd (version_noSpace r lf h) (by decide)
  have hcode : cr ∉ ascii "200" ∧ lf ∉ ascii "200" := by decide
  have hsp : cr ≠ 32 ∧ lf ≠ 32 := by decide
  simp [Response.statusLine, hcr, hlf, hcode, hsp, r.reason_line]

/-- The status line handler reads the version, the code and the rest of the line. -/
theorem readStatusLine_line (r : Response) (rest : List UInt8) :
    HttpSession.readStatusLine (r.statusLine ++ crlf ++ rest) = some (r.version, 200, rest) := by
  have hne : r.version ≠ [] := by
    simp only [Response.version, List.append_assoc]
    exact List.append_ne_nil_of_left_ne_nil (by decide) _
  -- the line is the version, the status and the reason, with blanks between
  have hbuf : r.statusLine ++ crlf ++ rest =
      r.version ++ 32 :: (ascii "200" ++ 32 :: (r.reason ++ crlf ++ rest)) := by
    simp [Response.statusLine]
  have hword : word (r.version ++ 32 :: (ascii "200" ++ 32 :: (r.reason ++ crlf ++ rest))) =
      some (r.version, 32 :: (ascii "200" ++ 32 :: (r.reason ++ crlf ++ rest))) :=
    word_append _ hne (version_noSpace r) (by decide)
  have hnumber : number 32 (32 :: (ascii "200" ++ 32 :: (r.reason ++ crlf ++ rest))) =
      some (200, 32 :: (r.reason ++ crlf ++ rest)) :=
    number_append _ (by decide) (by decide +kernel) (by decide) (by decide)
  -- which is read up to the line end
  have hline : getline (32 :: (r.reason ++ crlf ++ rest)) =
    some (32 :: r.reason ++ [cr], rest) := by
    have hlf : lf ∉ 32 :: r.reason ++ [cr] := by
      have hsp : lf ≠ 32 ∧ lf ≠ cr := by decide
      simp [hsp, r.reason_line.2]
    simpa using getline_append rest hlf
  rw [hbuf, HttpSession.readStatusLine, hword]
  simp only [Option.bind_some, hnumber, hline, Option.map_some]

/-- One turn of the header loop. -/
theorem readHeaders_line {line : List UInt8} (rest : List UInt8) (hline : lf ∉ line) :
    HttpSession.readHeaders (line ++ lf :: rest) =
      if line = [cr] then rest else HttpSession.readHeaders rest := by
  have hget := getline_append rest hline
  rw [HttpSession.readHeaders]
  split
  · rename_i hnone
    rw [hget] at hnone
    cases hnone
  · rename_i header rest' hsome
    rw [hget] at hsome
    cases hsome
    rfl

/-- The header loop stops behind the blank line. -/
theorem readHeaders_block {headers : List (List UInt8)} (rest : List UInt8)
    (hlines : ∀ h ∈ headers, lf ∉ h) (hsome : ∀ h ∈ headers, h ≠ []) :
    HttpSession.readHeaders (Response.headerLines headers ++ crlf ++ rest) = rest := by
  have hne : lf ≠ cr := by decide
  induction headers with
  | nil =>
    have h := @readHeaders_line [cr] rest (by simp [hne])
    simpa [Response.headerLines] using h
  | cons header headers ih =>
    have hlf : lf ∉ header ++ [cr] := by simp [hne, hlines header (by simp)]
    -- a line end of its own is not the blank line: the header is not empty
    have hblank : header ++ [cr] ≠ [cr] := by simp [hsome header (by simp)]
    have hturn := readHeaders_line (Response.headerLines headers ++ crlf ++ rest) hlf
    rw [if_neg hblank] at hturn
    have hih := ih (fun h hh => hlines h (by simp [hh])) (fun h hh => hsome h (by simp [hh]))
    have hboth := hturn.trans hih
    simpa [Response.headerLines] using hboth

/-! ### Where the delimiters are -/

/-- A line end in what has been received: the whole status line has been. -/
theorem statusLine_of_delim (r : Response) {p : List UInt8} (hp : p <+: r.bytes)
    (hdelim : crlf <:+: p) : r.statusLine ++ crlf <+: p := by
  rcases prefix_or_prefix_dropLast hp with h | h
  · exact h
  · -- without its line feed the status line contains none
    have hlf : lf ∈ p := hdelim.subset (by simp)
    have hmem := h.subset hlf
    have hne : lf ≠ cr := by decide
    have hdrop : (r.statusLine ++ crlf).dropLast = r.statusLine ++ [cr] := by
      rw [List.dropLast_append_of_ne_nil (by simp)]
      rfl
    rw [hdrop] at hmem
    simp [hne, (statusLine_line r).2] at hmem

/-- Header lines do not begin with a line end. -/
theorem headerLines_no_crlf {headers : List (List UInt8)} (hlines : ∀ h ∈ headers, cr ∉ h)
    (hsome : ∀ h ∈ headers, h ≠ []) : ¬crlf <+: Response.headerLines headers ++ [cr] := by
  cases headers with
  | nil => decide
  | cons header headers =>
    obtain ⟨b, text, rfl⟩ := List.exists_cons_of_ne_nil (hsome header (by simp))
    have hb : cr ≠ b := fun h => hlines _ (List.mem_cons_self ..) (by simp [h])
    simp [Response.headerLines, List.cons_prefix_cons, hb]

/-- Two line ends in a row come only with the line feed of the blank line. -/
theorem headerLines_no_delim {headers : List (List UInt8)} (hlines : ∀ h ∈ headers, cr ∉ h)
    (hsome : ∀ h ∈ headers, h ≠ []) : ¬crlf2 <:+: Response.headerLines headers ++ [cr] := by
  induction headers with
  | nil => decide
  | cons header headers ih =>
    have hlines' : ∀ h ∈ headers, cr ∉ h := fun h hh => hlines h (by simp [hh])
    have hsome' : ∀ h ∈ headers, h ≠ [] := fun h hh => hsome h (by simp [hh])
    have hsplit : Response.headerLines (header :: headers) ++ [cr] =
        header ++ crlf ++ (Response.headerLines headers ++ [cr]) := by
      simp [Response.headerLines]
    rw [hsplit, infix_line _ (hlines header (by simp)), not_or]
    exact ⟨headerLines_no_crlf hlines' hsome', ih hlines' hsome'⟩

/-- The second delimiter in what has been received behind the status line: the whole header block
    has been. -/
theorem block_of_delim (r : Response) {q : List UInt8} (hq : q <+: r.block ++ r.body)
    (hdelim : crlf2 <:+: q) : r.block <+: q := by
  rcases prefix_or_prefix_dropLast hq with h | h
  · exact h
  · have hdrop : r.block.dropLast = Response.headerLines r.headers ++ [cr] := by
      rw [Response.block, List.dropLast_append_of_ne_nil (by simp)]
      rfl
    rw [hdrop] at h
    have hno := headerLines_no_delim (fun l hl => (r.header_line l hl).1) r.header_some
    exact absurd (hdelim.trans h.isInfix) hno

/-- The second delimiter comes with the response: behind a header line, or in the body. -/
theorem delim_iff (r : Response) :
    crlf2 <:+: r.block ++ r.body ↔ r.headers ≠ [] ∨ crlf2 <:+: crlf ++ r.body := by
  by_cases hnil : r.headers = []
  · simp [Response.block, Response.headerLines, hnil]
  · simp only [ne_eq, hnil, not_false_eq_true, true_or, iff_true]
    -- the line end of the last header line and the blank line
    obtain ⟨headers, header, hlast⟩ : ∃ l h, r.headers = l ++ [h] :=
      ⟨_, _, (List.dropLast_append_getLast hnil).symm⟩
    refine ⟨Response.headerLines headers ++ header, r.body, ?_⟩
    simp [Response.block, Response.headerLines, hlast]

/-! ### Where a session is -/

/-- A session after it has received the bytes `p`. -/
inductive At (r : Response) (p : List UInt8) (s : HttpSession) : Prop
  | statusLine (hpending : s.pending = some .readStatusLine) (hbuf : s.response = p)
      (hdelim : ¬crlf <:+: p)
  | headers (q : List UInt8) (hp : p = r.statusLine ++ crlf ++ q)
      (hpending : s.pending = some .readHeaders) (hbuf : s.response = q)
      (hdelim : ¬crlf2 <:+: q)
  | content (t : List UInt8) (hp : p = r.statusLine ++ crlf ++ (r.block ++ t))
      (hpending : s.pending = some .readContent) (hbuf : s.response = t)
      (hdelim : crlf2 <:+: r.block ++ t)

/-- Waiting for the header block, with what has arrived of it in the buffer. -/
theorem at_readHeaders {r : Response} {q : List UInt8} {s : HttpSession}
    (hp : r.statusLine ++ crlf ++ q <+: r.bytes) (hbuf : s.response = q) :
    At r (r.statusLine ++ crlf ++ q)
      (s.asyncReadUntil crlf2 .readHeaders HttpSession.handleReadHeaders) := by
  have hq : q <+: r.block ++ r.body := (List.prefix_append_right_inj _).1 hp
  rw [HttpSession.asyncReadUntil, hbuf]
  split
  · rename_i hdelim
    obtain ⟨t, rfl⟩ := block_of_delim r hq hdelim
    have hread : HttpSession.readHeaders (r.block ++ t) = t :=
      readHeaders_block t (fun l hl => (r.header_line l hl).2) r.header_some
    apply At.content t rfl rfl
    · simpa [HttpSession.handleReadHeaders, HttpSession.asyncRead, hbuf] using hread
    · exact hdelim
  · rename_i hdelim
    exact .headers q rfl rfl rfl hdelim

/-- Waiting for the status line, with what has arrived in the buffer. -/
theorem at_readStatusLine {r : Response} {p : List UInt8} {s : HttpSession}
    (hp : p <+: r.bytes) (hbuf : s.response = p) :
    At r p (s.asyncReadUntil crlf .readStatusLine HttpSession.handleReadStatusLine) := by
  rw [HttpSession.asyncReadUntil, hbuf]
  split
  · rename_i hdelim
    obtain ⟨q, rfl⟩ := statusLine_of_delim r hp hdelim
    have hversion : r.version.take 5 = ascii "HTTP/" := by
      have hlen : (ascii "HTTP/").length = 5 := by decide
      rw [Response.version, List.append_assoc, List.append_assoc, ← hlen]
      exact List.take_left
    simp only [HttpSession.handleReadStatusLine, readStatusLine_line, hversion, ne_eq,
      not_true_eq_false, if_false]
    -- the next read may find its delimiter in what is left
    exact at_readHeaders hp rfl
  · rename_i hdelim
    exact .statusLine rfl rfl hdelim

/-- Where a session is depends only on what it has received. -/
theorem At.receive {r : Response} {p chunk : List UInt8} {s : HttpSession} (h : At r p s)
    (hp : p ++ chunk <+: r.bytes) : At r (p ++ chunk) (s.receive chunk) := by
  cases h with
  | statusLine hpending hbuf hdelim =>
    simp only [HttpSession.receive, hpending]
    exact at_readStatusLine hp (by simp [hbuf])
  | headers q hq hpending hbuf hdelim =>
    subst hq
    simp only [HttpSession.receive, hpending]
    rw [List.append_assoc] at hp ⊢
    exact at_readHeaders hp (by simp [hbuf])
  | content t ht hpending hbuf hdelim =>
    subst ht
    -- an empty chunk reads nothing
    by_cases hnil : chunk = []
    · subst hnil
      simp only [HttpSession.receive, hpending, if_true, List.append_nil]
      exact .content t rfl hpending hbuf hdelim
    · simp only [HttpSession.receive, hpending, if_neg hnil]
      apply At.content (t ++ chunk) (by simp) rfl
      · simp [HttpSession.handleReadContent, HttpSession.asyncRead, hbuf]
      · rw [← List.append_assoc]
        exact hdelim.trans (List.prefix_append _ _).isInfix

/-- Any split of what is received leaves the session at the same place. -/
theorem At.receiveAll {r : Response} {p : List UInt8} {s : HttpSession} (h : At r p s)
    {chunks : List (List UInt8)} (hp : p ++ chunks.flatten <+: r.bytes) :
    At r (p ++ chunks.flatten) (chunks.foldl HttpSession.receive s) := by
  induction chunks generalizing p s with
  | nil => simpa using h
  | cons chunk chunks ih =>
    rw [List.flatten_cons, ← List.append_assoc] at hp ⊢
    have hchunk : p ++ chunk <+: r.bytes := (List.prefix_append _ _).trans hp
    exact ih (h.receive hchunk) hp

/-! ### What the callback gets -/

/-- A session that has not invoked its callback. -/
structure Silent (call_back : Bool) (s : HttpSession) : Prop where
  call_back : s.call_back = call_back
  called : s.called = []
  buff : s.buff.length = kRecvBufMaxSize

/-- The header handler invokes nothing. -/
theorem silent_readHeaders {call_back : Bool} {s : HttpSession} (h : Silent call_back s) :
    Silent call_back
      (s.asyncReadUntil crlf2 .readHeaders HttpSession.handleReadHeaders) := by
  rw [HttpSession.asyncReadUntil]
  split
  · exact ⟨h.call_back, h.called, h.buff⟩
  · exact ⟨h.call_back, h.called, h.buff⟩

/-- The status line handler invokes nothing. -/
theorem silent_readStatusLine {call_back : Bool} {s : HttpSession} (h : Silent call_back s) :
    Silent call_back
      (s.asyncReadUntil crlf .readStatusLine HttpSession.handleReadStatusLine) := by
  -- nobody is called while the callback, the calls and the buffer stay
  have hsame : ∀ {s' : HttpSession}, s'.call_back = s.call_back → s'.called = s.called →
      s'.buff = s.buff → Silent call_back s' := by
    intro s' h1 h2 h3
    exact ⟨h1.trans h.call_back, h2.trans h.called, h3 ▸ h.buff⟩
  rw [HttpSession.asyncReadUntil]
  split
  · simp only [HttpSession.handleReadStatusLine]
    split
    · exact hsame rfl rfl rfl
    · split
      · exact hsame rfl rfl rfl
      · split
        · exact hsame rfl rfl rfl
        · exact silent_readHeaders (hsame rfl rfl rfl)
  · exact hsame rfl rfl rfl

/-- Receiving invokes nothing. -/
theorem Silent.receive {call_back : Bool} {s : HttpSession} (h : Silent call_back s)
    (chunk : List UInt8) : Silent call_back (s.receive chunk) := by
  rw [HttpSession.receive]
  split
  · exact h
  · exact silent_readStatusLine ⟨h.call_back, h.called, h.buff⟩
  · exact silent_readHeaders ⟨h.call_back, h.called, h.buff⟩
  · split
    · exact h
    · exact ⟨h.call_back, h.called, h.buff⟩

/-- Receiving any number of chunks invokes nothing. -/
theorem Silent.receiveAll {call_back : Bool} {s : HttpSession} (h : Silent call_back s)
    (chunks : List (List UInt8)) :
    Silent call_back (chunks.foldl HttpSession.receive s) := by
  induction chunks generalizing s with
  | nil => exact h
  | cons chunk chunks ih => exact ih (h.receive chunk)

/-- The end of the stream while the body is read: the callback gets what is in the buffer. -/
theorem Silent.endOfFile_content {call_back : Bool} {s : HttpSession} (h : Silent call_back s)
    (hpending : s.pending = some .readContent) (hfits : s.response.length < kRecvBufMaxSize) :
    s.endOfFile.called =
      if call_back then
        [{ data := s.response ++ s.buff.drop s.response.length
           len := s.response.length
           url := "" }]
      else [] := by
  have hle : ¬kRecvBufMaxSize ≤ s.response.length := by omega
  have htake : s.response.take kRecvBufMaxSize = s.response :=
    List.take_of_length_le (by omega)
  rw [HttpSession.endOfFile, hpending]
  cases call_back <;>
    simp [HttpSession.handleReadContent, HttpSession.sgetn, hle, h.call_back, h.called, htake]

/-- The end of the stream before that: nobody is told. -/
theorem Silent.endOfFile_early {call_back : Bool} {s : HttpSession} (h : Silent call_back s)
    (hpending : s.pending ≠ some .readContent) : s.endOfFile.called = [] := by
  rw [HttpSession.endOfFile]
  split
  · exact h.called
  · exact h.called
  · exact h.called
  · rename_i hcontent
    exact absurd hcontent hpending

/-- A response in any chunks, with a callback set, is delivered exactly when it has a header line or
    its body contains what the header block should have ended in. -/
theorem delivered_iff (r : Response) (chunks : List (List UInt8))
    (hchunks : chunks.flatten = r.bytes) :
    Delivered r (HttpSession.respond true chunks) ↔
      r.headers ≠ [] ∨ crlf2 <:+: crlf ++ r.body := by
  have hstart : At r [] ((HttpSession.new true).handleWriteRequest .ok) :=
    at_readStatusLine List.nil_prefix rfl
  have hsilent : Silent true ((HttpSession.new true).handleWriteRequest .ok) :=
    silent_readStatusLine ⟨rfl, rfl, List.length_replicate⟩
  have hall : [] ++ chunks.flatten <+: r.bytes := by simp [hchunks]
  have hat := hstart.receiveAll hall
  have hquiet := hsilent.receiveAll chunks
  rw [List.nil_append, hchunks] at hat
  rw [← delim_iff, HttpSession.respond]
  generalize chunks.foldl HttpSession.receive _ = s at hat hquiet
  cases hat with
  | statusLine hpending hbuf hdelim => exact absurd (List.infix_append _ _ _) hdelim
  | headers q hq hpending hbuf hdelim =>
    -- the stream has ended before the second delimiter
    obtain rfl : r.block ++ r.body = q := List.append_cancel_left hq
    have hnone := hquiet.endOfFile_early (by simp [hpending])
    simp [Delivered, hnone, hdelim]
  | content t ht hpending hbuf hdelim =>
    have ht : r.block ++ r.body = r.block ++ t := List.append_cancel_left ht
    obtain rfl : r.body = t := List.append_cancel_left ht
    have hcalled := hquiet.endOfFile_content hpending (by rw [hbuf]; exact r.body_fits)
    simp only [hdelim, iff_true]
    exact ⟨_, hcalled, by simp [hbuf], by simp [hbuf]⟩

/-- A response with the given header lines and body. -/
def Response.short (headers : List (List UInt8)) (body : List UInt8)
    (hlines : ∀ h ∈ headers, cr ∉ h ∧ lf ∉ h) (hsome : ∀ h ∈ headers, h ≠ [])
    (hfits : body.length < kRecvBufMaxSize) : Response where
  major := ascii "1"
  minor := ascii "0"
  reason := ascii "OK"
  headers := headers
  body := body
  version_word := by decide +kernel
  reason_line := by decide
  header_line := hlines
  header_some := hsome
  body_fits := hfits

/-- One header line, in chunks that cut both delimiters. -/
theorem delivered_one_header :
    ∃ (r : Response) (chunks : List (List UInt8)), chunks.length = 5 ∧
      chunks.flatten = r.bytes ∧ Delivered r (HttpSession.respond true chunks) := by
  refine ⟨Response.short [ascii "a:b"] (ascii "ok") (by decide) (by decide) (by decide),
    [ascii "HTTP/1.0 200 OK\r", ascii "\na:", ascii "b\r\n", ascii "\r\no", ascii "k"], rfl,
    by decide, ?_⟩
  exact (delivered_iff _ _ (by decide)).2 (.inl (by decide))

/-- A response without header lines is not delivered. -/
theorem not_delivered :
    ¬(∀ (r : Response) (chunks : List (List UInt8)), chunks.flatten = r.bytes →
      Delivered r (HttpSession.respond true chunks)) := by
  intro h
  have hbytes : [ascii "HTTP/1.0 200 OK\r\n\r\nok"].flatten =
      (Response.short [] (ascii "ok") (by decide) (by decide) (by decide)).bytes := by decide
  obtain ⟨msg, hcalled, -, -⟩ := h _ _ hbytes
  have hnone : (HttpSession.respond true [ascii "HTTP/1.0 200 OK\r\n\r\nok"]).called = [] := by
    rfl
  rw [hnone] at hcalled
  exact absurd hcalled (by simp)

end XGame3.Http
