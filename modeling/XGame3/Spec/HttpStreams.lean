import XGame3.Spec.HttpSessionCorrect

/-!
# Any stream of bytes as a response

What a session makes of a stream is settled by its first line, as long as that line holds the
version and the code itself: then the handlers find the same, however the bytes are split into
chunks.  A first line that does not is read on into what follows, and a stream cut behind it
is never delivered.

Key results:
- `firstLine_more`, `readHeaders_more`: what has been read stays as it is when more arrives
- `StreamAt.receive`: where a session is depends only on the bytes received
- `delivered_always_iff`: the streams that are delivered whatever the chunks, and what is delivered
-/

namespace XGame3.Http

open IStream HttpSession

variable {line rest more q : List UInt8}

/-! ### The first line -/

/-- The bytes up to the first line end and with it, and those behind it. -/
def firstLine : List UInt8 → Option (List UInt8 × List UInt8)
  | [] => none
  | b :: bytes =>
    if crlf <+: b :: bytes then some (crlf, bytes.drop 1)
    else (firstLine bytes).map fun (line, rest) => (b :: line, rest)

/-- There is no first line while the bytes have no line end. -/
theorem firstLine_eq_none_iff {bytes : List UInt8} :
    firstLine bytes = none ↔ ¬ crlf <:+: bytes := by
  induction bytes with
  | nil => simp [firstLine]
  | cons b bytes ih =>
    rw [firstLine, List.infix_cons_iff]
    split
    · rename_i h
      simp [h]
    · rename_i h
      simp [h, ih]

/-- The line and what is behind it are all bytes, and the line ends in a line end. -/
theorem firstLine_spec {bytes : List UInt8} (h : firstLine bytes = some (line, rest)) :
    bytes = line ++ rest ∧ crlf <:+ line := by
  induction bytes generalizing line with
  | nil => cases h
  | cons b bytes ih =>
    rw [firstLine] at h
    split at h
    · rename_i hcrlf
      obtain ⟨rfl, rfl⟩ := Prod.mk.inj (Option.some.inj h)
      obtain ⟨tail, htail⟩ := hcrlf
      obtain ⟨rfl, rfl⟩ := List.cons.inj htail
      exact ⟨rfl, List.suffix_refl _⟩
    · obtain ⟨⟨line', rest'⟩, hline, heq⟩ := Option.map_eq_some_iff.1 h
      obtain ⟨rfl, rfl⟩ := Prod.mk.inj heq
      obtain ⟨rfl, hlast⟩ := ih hline
      exact ⟨rfl, hlast.trans (List.suffix_cons _ _)⟩

/-- A first line that is there stays when more bytes come. -/
theorem firstLine_more {bytes : List UInt8} (h : firstLine bytes = some (line, rest))
    (more : List UInt8) : firstLine (bytes ++ more) = some (line, rest ++ more) := by
  induction bytes generalizing line with
  | nil => cases h
  | cons b bytes ih =>
    rw [firstLine] at h
    rw [List.cons_append, firstLine]
    split at h
    · rename_i hcrlf
      obtain ⟨rfl, rfl⟩ := Prod.mk.inj (Option.some.inj h)
      obtain ⟨tail, htail⟩ := hcrlf
      obtain ⟨rfl, rfl⟩ := List.cons.inj htail
      rw [if_pos (by simp)]
      rfl
    · rename_i hcrlf
      obtain ⟨⟨line', rest'⟩, hline, heq⟩ := Option.map_eq_some_iff.1 h
      obtain ⟨rfl, rfl⟩ := Prod.mk.inj heq
      -- a line end at the very start would have been one before
      rw [if_neg, ih hline, Option.map_some]
      intro hcrlf'
      refine hcrlf (List.prefix_of_prefix_length_le hcrlf' ?_ ?_)
      · rw [← List.cons_append]
        exact List.prefix_append _ _
      · obtain ⟨hsplit, hlast⟩ := firstLine_spec hline
        have hpos := hlast.length_le
        simp [hsplit] at hpos ⊢
        omega

/-- What is read off a line does not change when more arrives. -/
theorem readStatusLine_more (hlast : crlf <:+ line) {http_version : List UInt8} {status_code : Nat}
    (h : readStatusLine line = some (http_version, status_code, q)) (more : List UInt8) :
    readStatusLine (line ++ more) = some (http_version, status_code, q ++ more) := by
  obtain ⟨⟨w, buf⟩, hword, h⟩ := Option.bind_eq_some_iff.1 h
  obtain ⟨⟨n, buf'⟩, hnumber, h⟩ := Option.bind_eq_some_iff.1 h
  obtain ⟨⟨l, buf''⟩, hline, heq⟩ := Option.map_eq_some_iff.1 h
  simp only [Prod.mk.injEq] at heq
  obtain ⟨rfl, rfl, rfl⟩ := heq
  have hlf : [lf] <:+ line := (List.suffix_cons cr [lf]).trans hlast
  obtain ⟨hword', hlast'⟩ := word_more (by decide) hlf hword more
  obtain ⟨hnumber', hlast''⟩ := number_more (by decide) hlast' hnumber more
  have hmem : lf ∈ buf' := hlast''.subset (List.mem_singleton_self lf)
  simp only [readStatusLine, hword', Option.bind_some, hnumber', getline_more hmem, hline,
    Option.map_some]

/-! ### The header block -/

/-- A header block has ended: with a blank line behind a line end, or at the very start. -/
def Ended (q : List UInt8) : Prop := crlf2 <:+: q ∨ crlf <+: q

/-- Behind a line that is not blank there is the rest of a block. -/
theorem Ended.behind (h : Ended (line ++ lf :: rest)) (hline : lf ∉ line) (hblank : line ≠ [cr]) :
    Ended rest := by
  have hne : lf ≠ cr := by decide
  obtain ⟨before, after, heq⟩ | hstart := h
  · rw [List.append_assoc, eq_comm] at heq
    obtain ⟨mid, rfl, hmid⟩ | ⟨mid, rfl, hmid⟩ := List.append_eq_append_iff.1 heq
    · -- the delimiter begins at the line feed of the line, or behind it
      cases mid with
      | nil => exact absurd (List.cons.inj hmid).1 hne
      | cons b mid =>
        obtain ⟨rfl, rfl⟩ := List.cons.inj hmid
        exact .inl ⟨mid, after, by simp⟩
    · -- it begins in the line, so with its carriage return
      cases mid with
      | nil => exact absurd (List.cons.inj hmid).1.symm hne
      | cons b mid =>
        cases mid with
        | nil =>
          obtain ⟨-, hmid⟩ := List.cons.inj hmid
          obtain ⟨-, hrest⟩ := List.cons.inj hmid
          exact .inr ⟨after, hrest⟩
        | cons b' mid =>
          obtain ⟨-, hmid⟩ := List.cons.inj hmid
          obtain ⟨rfl, -⟩ := List.cons.inj hmid
          simp at hline
  · cases line with
    | nil => exact absurd (List.cons_prefix_cons.1 hstart).1.symm hne
    | cons b line =>
      obtain ⟨rfl, htail⟩ := List.cons_prefix_cons.1 hstart
      cases line with
      | nil => exact absurd rfl hblank
      | cons b' line =>
        obtain ⟨rfl, -⟩ := List.cons_prefix_cons.1 htail
        simp at hline

/-- The header loop reads the same when more arrives. -/
theorem readHeaders_more (h : Ended q) (more : List UInt8) :
    HttpSession.readHeaders (q ++ more) = HttpSession.readHeaders q ++ more := by
  induction hlen : q.length using Nat.strongRecOn generalizing q with
  | ind n ih =>
    have hlf : lf ∈ q := by
      obtain h | h := h
      · exact h.subset (by simp)
      · exact h.subset (by simp)
    obtain ⟨line, rest, rfl, hline⟩ := List.eq_append_cons_of_mem hlf
    rw [List.append_assoc, List.cons_append, readHeaders_line _ hline, readHeaders_line _ hline]
    split
    · rfl
    · rename_i hblank
      refine ih rest.length ?_ (h.behind hline hblank) rfl
      simp only [← hlen, List.length_append, List.length_cons]
      omega

/-! ### Where a session is -/

/-- A first line that the handler accepts, leaving `q` of it. -/
def Accepts (line q : List UInt8) : Prop :=
  ∃ http_version, readStatusLine line = some (http_version, 200, q) ∧
    http_version.take 5 = ascii "HTTP/"

/-- A session after it has received the bytes `p`. -/
inductive StreamAt (p : List UInt8) (s : HttpSession) : Prop
  | statusLine (hpending : s.pending = some .readStatusLine) (hbuf : s.response = p)
      (hdelim : ¬ crlf <:+: p)
  | refused {line rest : List UInt8} (hline : firstLine p = some (line, rest))
      (hrefused : ∀ q, ¬ Accepts line q) (hpending : s.pending = none)
  | headers {line rest q : List UInt8} (hline : firstLine p = some (line, rest))
      (haccepts : Accepts line q) (hpending : s.pending = some .readHeaders)
      (hbuf : s.response = q ++ rest) (hdelim : ¬ crlf2 <:+: q ++ rest)
  | content {line rest q : List UInt8} (hline : firstLine p = some (line, rest))
      (haccepts : Accepts line q) (hpending : s.pending = some .readContent)
      (hbuf : s.response = HttpSession.readHeaders (q ++ rest)) (hdelim : crlf2 <:+: q ++ rest)

/-- The first line, once it is there, holds all that the handler extracts. -/
def SelfContained (bytes : List UInt8) : Prop :=
  ∀ line rest, firstLine bytes = some (line, rest) → readStatusLine line ≠ none

/-- The header read has been started on what is left of the first line and behind it. -/
theorem streamAt_readHeaders {p : List UInt8} {s : HttpSession}
    (hline : firstLine p = some (line, rest)) (haccepts : Accepts line q)
    (hbuf : s.response = q ++ rest) :
    StreamAt p (s.asyncReadUntil crlf2 .readHeaders HttpSession.handleReadHeaders) := by
  rw [HttpSession.asyncReadUntil, hbuf]
  split
  · rename_i hdelim
    refine .content hline haccepts rfl ?_ hdelim
    simp [HttpSession.handleReadHeaders, HttpSession.asyncRead]
  · rename_i hdelim
    exact .headers hline haccepts rfl rfl hdelim

/-- The read of the first line has been started, or goes on with more bytes. -/
theorem streamAt_readStatusLine {p : List UInt8} {s : HttpSession} (hself : SelfContained p)
    (hbuf : s.response = p) :
    StreamAt p (s.asyncReadUntil crlf .readStatusLine HttpSession.handleReadStatusLine) := by
  rw [HttpSession.asyncReadUntil, hbuf]
  split
  -- a whole line is there: it reads alike whatever follows
  · rename_i hdelim
    obtain ⟨⟨line, rest⟩, hline⟩ :=
      Option.ne_none_iff_exists'.1 (mt firstLine_eq_none_iff.1 (not_not_intro hdelim))
    obtain ⟨⟨http_version, status_code, q⟩, hread⟩ :=
      Option.ne_none_iff_exists'.1 (hself line rest hline)
    obtain ⟨hsplit, hlast⟩ := firstLine_spec hline
    have hmore := readStatusLine_more hlast hread rest
    simp only [HttpSession.handleReadStatusLine]
    rw [hsplit, hmore]
    dsimp only
    split
    -- a wrong version, or a wrong status, refuses the stream
    · rename_i hversion
      refine .refused (hsplit ▸ hline) (fun q' haccepts => ?_) rfl
      obtain ⟨v, hread', hversion'⟩ := haccepts
      rw [hread] at hread'
      cases hread'
      exact hversion hversion'
    · split
      · rename_i hcode
        refine .refused (hsplit ▸ hline) (fun q' haccepts => ?_) rfl
        obtain ⟨v, hread', hversion'⟩ := haccepts
        rw [hread] at hread'
        cases hread'
        exact hcode rfl
      · rename_i hversion hcode
        obtain rfl := of_not_not hcode
        exact streamAt_readHeaders (hsplit ▸ hline) ⟨http_version, hread, of_not_not hversion⟩ rfl
  -- no line yet
  · rename_i hdelim
    exact .statusLine rfl rfl hdelim

/-- Where a session is depends only on what it has received. -/
theorem StreamAt.receive {p chunk : List UInt8} {s : HttpSession} (h : StreamAt p s)
    (hself : SelfContained (p ++ chunk)) : StreamAt (p ++ chunk) (s.receive chunk) := by
  cases h with
  | statusLine hpending hbuf hdelim =>
    simp only [HttpSession.receive, hpending]
    exact streamAt_readStatusLine hself (by simp [hbuf])
  | refused hline hrefused hpending =>
    simp only [HttpSession.receive, hpending]
    exact .refused (firstLine_more hline chunk) hrefused hpending
  | headers hline haccepts hpending hbuf hdelim =>
    simp only [HttpSession.receive, hpending]
    exact streamAt_readHeaders (firstLine_more hline chunk) haccepts (by simp [hbuf])
  | @content line rest q hline haccepts hpending hbuf hdelim =>
    -- the end of the headers is in what came before
    have hdelim' : crlf2 <:+: q ++ (rest ++ chunk) := by
      rw [← List.append_assoc]
      exact hdelim.trans (List.prefix_append _ _).isInfix
    have hread := readHeaders_more (.inl hdelim) chunk
    rw [List.append_assoc, ← hbuf] at hread
    -- an empty chunk reads nothing
    by_cases hnil : chunk = []
    · subst hnil
      simp only [HttpSession.receive, hpending, if_true, List.append_nil]
      exact .content hline haccepts hpending hbuf hdelim
    · simp only [HttpSession.receive, hpending, if_neg hnil]
      exact .content (firstLine_more hline chunk) haccepts rfl hread.symm hdelim'

/-- A front of a stream is self-contained when the stream is. -/
theorem SelfContained.front {p more : List UInt8} (h : SelfContained (p ++ more)) :
    SelfContained p :=
  fun line rest hline => h line (rest ++ more) (firstLine_more hline more)

/-- A session is at the place the stream says after every chunk. -/
theorem StreamAt.receiveAll {p : List UInt8} {s : HttpSession} (h : StreamAt p s)
    {chunks : List (List UInt8)} (hself : SelfContained (p ++ chunks.flatten)) :
    StreamAt (p ++ chunks.flatten) (chunks.foldl HttpSession.receive s) := by
  induction chunks generalizing p s with
  | nil => simpa using h
  | cons chunk chunks ih =>
    rw [List.flatten_cons, ← List.append_assoc] at hself ⊢
    exact ih (h.receive hself.front) hself

/-! ### What is delivered -/

/-- The content that a stream of bytes carries as a response. -/
def contentOf (bytes : List UInt8) : Option (List UInt8) :=
  (firstLine bytes).bind fun (line, rest) =>
    (readStatusLine line).bind fun (http_version, status_code, q) =>
      if http_version.take 5 = ascii "HTTP/" ∧ status_code = 200 ∧ crlf2 <:+: q ++ rest ∧
          (HttpSession.readHeaders (q ++ rest)).length < kRecvBufMaxSize then
        some (HttpSession.readHeaders (q ++ rest))
      else none

/-- The callback has been invoked once, with these bytes and their number. -/
def DeliveredContent (content : List UInt8) (s : HttpSession) : Prop :=
  ∃ msg, s.called = [msg] ∧ msg.data.take msg.len = content ∧ msg.len = content.length

/-- An accepted line carries what is behind the header block, if the block has ended and the rest
    fits. -/
theorem contentOf_accepts {bytes : List UInt8} (hline : firstLine bytes = some (line, rest))
    (haccepts : Accepts line q) : contentOf bytes =
      if crlf2 <:+: q ++ rest ∧ (HttpSession.readHeaders (q ++ rest)).length < kRecvBufMaxSize then
        some (HttpSession.readHeaders (q ++ rest))
      else none := by
  obtain ⟨http_version, hread, hversion⟩ := haccepts
  simp [contentOf, hline, hread, hversion]

/-- A line that is not accepted carries nothing. -/
theorem contentOf_refused {bytes : List UInt8} (hline : firstLine bytes = some (line, rest))
    (hrefused : ∀ q, ¬ Accepts line q) : contentOf bytes = none := by
  simp only [contentOf, hline, Option.bind_some]
  cases hread : readStatusLine line with
  | none => rfl
  | some r =>
    obtain ⟨http_version, status_code, q⟩ := r
    rw [Option.bind_some, if_neg]
    rintro ⟨hversion, rfl, -⟩
    exact hrefused q ⟨http_version, hread, hversion⟩

/-- The end of the stream while the body is read: too much for the buffer is dropped. -/
theorem endOfFile_too_long {s : HttpSession} (h : Silent true s)
    (hpending : s.pending = some .readContent) (hlong : kRecvBufMaxSize ≤ s.response.length) :
    s.endOfFile.called = [] := by
  rw [HttpSession.endOfFile, hpending]
  simp [HttpSession.handleReadContent, hlong, h.called]

/-- At the end of the stream the callback gets its content, or nothing happens. -/
theorem StreamAt.endOfFile {p : List UInt8} {s : HttpSession} (h : StreamAt p s)
    (hquiet : Silent true s) :
    (contentOf p = none ∧ s.endOfFile.called = []) ∨
      ∃ content, contentOf p = some content ∧ DeliveredContent content s.endOfFile := by
  cases h with
  -- no line, a refused line and unfinished headers: nothing is delivered
  | statusLine hpending hbuf hdelim =>
    refine .inl ⟨?_, hquiet.endOfFile_early (by simp [hpending])⟩
    rw [contentOf, firstLine_eq_none_iff.2 hdelim, Option.bind_none]
  | refused hline hrefused hpending =>
    exact .inl ⟨contentOf_refused hline hrefused, hquiet.endOfFile_early (by simp [hpending])⟩
  | headers hline haccepts hpending hbuf hdelim =>
    refine .inl ⟨?_, hquiet.endOfFile_early (by simp [hpending])⟩
    rw [contentOf_accepts hline haccepts, if_neg fun h => hdelim h.1]
  | content hline haccepts hpending hbuf hdelim =>
    rw [contentOf_accepts hline haccepts]
    -- the content is delivered if it fits the buffer
    by_cases hfits : s.response.length < kRecvBufMaxSize
    · have hcalled := hquiet.endOfFile_content hpending hfits
      rw [if_pos ⟨hdelim, hbuf ▸ hfits⟩, ← hbuf]
      exact .inr ⟨s.response, rfl, _, hcalled, by simp, rfl⟩
    · rw [if_neg fun h => hfits (hbuf ▸ h.2)]
      exact .inl ⟨rfl, endOfFile_too_long hquiet hpending (Nat.le_of_not_lt hfits)⟩

/-- A self-contained stream, in any chunks. -/
theorem respond_selfContained {bytes : List UInt8} (hself : SelfContained bytes)
    {chunks : List (List UInt8)} (hchunks : chunks.flatten = bytes) :
    (contentOf bytes = none ∧ (HttpSession.respond true chunks).called = []) ∨
      ∃ content, contentOf bytes = some content ∧
        DeliveredContent content (HttpSession.respond true chunks) := by
  have hstart : StreamAt [] ((HttpSession.new true).handleWriteRequest .ok) :=
    streamAt_readStatusLine (fun _ _ hline => by cases hline) rfl
  have hsilent : Silent true ((HttpSession.new true).handleWriteRequest .ok) :=
    silent_readStatusLine ⟨rfl, rfl, List.length_replicate⟩
  have hself' : SelfContained ([] ++ chunks.flatten) := by simpa [hchunks] using hself
  have hat := hstart.receiveAll hself'
  rw [List.nil_append, hchunks] at hat
  exact hat.endOfFile (hsilent.receiveAll chunks)

/-- A first line that is not self-contained, cut off behind it: the session gives up. -/
theorem respond_cut {bytes : List UInt8} (hline : firstLine bytes = some (line, rest))
    (hread : readStatusLine line = none) :
    (HttpSession.respond true [line, rest]).called = [] := by
  have hdelim : crlf <:+: line := (firstLine_spec hline).2.isInfix
  have hnone : ¬ crlf <:+: ([] : List UInt8) := by simp
  have hsilent : Silent true ((HttpSession.new true).handleWriteRequest .ok) :=
    silent_readStatusLine ⟨rfl, rfl, List.length_replicate⟩
  refine (hsilent.receiveAll [line, rest]).endOfFile_early ?_
  -- the handler of the first line starts no other read
  simp [HttpSession.receive, HttpSession.handleWriteRequest, HttpSession.asyncReadUntil,
    HttpSession.handleReadStatusLine, HttpSession.new, hnone, hdelim, hread]

/-- A stream of bytes is delivered whatever the chunks it comes in exactly when its first line holds
    the version and the code 200, the header block ends, and what is behind it fits into the buffer;
    and that is what is delivered. -/
theorem delivered_always_iff (bytes content : List UInt8) :
    (∀ chunks : List (List UInt8), chunks.flatten = bytes →
      DeliveredContent content (HttpSession.respond true chunks)) ↔
        contentOf bytes = some content := by
  have hnothing : ∀ {s : HttpSession}, s.called = [] → ¬ DeliveredContent content s := by
    rintro s hcalled ⟨msg, hmsg, -⟩
    simp [hcalled] at hmsg
  have hunique : ∀ {s : HttpSession} {content' : List UInt8}, DeliveredContent content' s →
      (DeliveredContent content s ↔ content' = content) := by
    rintro s content' ⟨msg, hmsg, htake, hlen⟩
    constructor
    · rintro ⟨msg', hmsg', htake', -⟩
      obtain rfl : msg = msg' := by simpa [hmsg] using hmsg'
      exact htake.symm.trans htake'
    · rintro rfl
      exact ⟨msg, hmsg, htake, hlen⟩
  constructor
  · intro h
    by_cases hself : SelfContained bytes
    · have hwhole : [bytes].flatten = bytes := List.flatten_singleton
      obtain ⟨-, hcalled⟩ | ⟨content', hcontent, hdelivered⟩ := respond_selfContained hself hwhole
      · exact absurd (h _ hwhole) (hnothing hcalled)
      · rw [hcontent, (hunique hdelivered).1 (h _ hwhole)]
    · -- it could have been cut behind the first line
      simp only [SelfContained, not_forall, not_not] at hself
      obtain ⟨line, rest, hline, hread⟩ := hself
      have hcut : [line, rest].flatten = bytes := by
        rw [(firstLine_spec hline).1]
        simp
      exact absurd (h _ hcut) (hnothing (respond_cut hline hread))
  · intro hcontent chunks hchunks
    have hself : SelfContained bytes := by
      intro line rest hline hread
      simp [contentOf, hline, hread] at hcontent
    obtain ⟨hnone, -⟩ | ⟨content', hcontent', hdelivered⟩ := respond_selfContained hself hchunks
    · rw [hnone] at hcontent
      cases hcontent
    · rw [hcontent'] at hcontent
      exact (hunique hdelivered).2 (Option.some.inj hcontent)

end XGame3.Http
