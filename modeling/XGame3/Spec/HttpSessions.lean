import Mathlib.Data.List.Nodup
import XGame3.Native.HttpRequestMgr
import XGame3.Spec.HttpStreams

/-!
# Many sessions at once

Each session is moved by its own events only, so what a request comes to does not depend on the
others; and a session is alive just as long as a handler is bound to it.

Key results:
- `Client.Quiet.handle`: one handler, one operation, and no callback before the last
- `Tracks.step`: a step of the manager, seen by every session
- `sessions_accounted`: the counter, the sessions alive and the callbacks, over whole runs
- `session_content`: what a request is answered with, whatever the others do
-/

namespace XGame3.Http

open IStream

/-! ## One session -/

namespace Client

/-- The events of a session, one after the other. -/
def after (c : Client) (es : List Event) : Client := es.foldl handle c

/-- No event. -/
@[simp] theorem after_nil (c : Client) : c.after [] = c := rfl

/-- Events in two parts. -/
@[simp] theorem after_append (c : Client) (es es' : List Event) :
    c.after (es ++ es') = (c.after es).after es' := List.foldl_append ..

/-- One event. -/
@[simp] theorem after_singleton (c : Client) (e : Event) : c.after [e] = c.handle e := rfl

/-- At most one operation is outstanding; no callback is invoked as long as one is, and at most one
    ever. -/
structure Quiet (c : Client) : Prop where
  one : c.operation = none ∨ c.session.pending = none
  loaded : c.operation ≠ none → c.request = requestText c.server c.path
  silent : c.Bound → Silent true c.session
  once : c.session.called.length ≤ 1

end Client

/-- At the end of the stream nothing is awaited any more. -/
theorem endOfFile_pending (s : HttpSession) : s.endOfFile.pending = none := by
  rw [HttpSession.endOfFile]
  split
  · assumption
  · rfl
  · rfl
  · simp only [HttpSession.handleReadContent]
    split
    · rfl
    · split <;> rfl

/-- The last handler invokes the callback at most once. -/
theorem Silent.endOfFile_once {s : HttpSession} (h : Silent true s) :
    s.endOfFile.called.length ≤ 1 := by
  by_cases hpending : s.pending = some .readContent
  · by_cases hfits : s.response.length < kRecvBufMaxSize
    · simp [h.endOfFile_content hpending hfits]
    · simp [endOfFile_too_long h hpending (Nat.le_of_not_lt hfits)]
  · simp [h.endOfFile_early hpending]

/-- A read that fails ends the session, and invokes nothing. -/
theorem readError_eq (s : HttpSession) : s.readError = { s with pending := none } := by
  rw [HttpSession.readError]
  split
  · rename_i hpending
    rw [← hpending]
  · rfl
  · rfl
  · rfl

/-- A request that was sent twice stays silent. -/
theorem Silent.handleWriteRequest {s : HttpSession} (h : Silent true s) (err : ErrorCode) :
    Silent true (s.handleWriteRequest err) := by
  cases err with
  | ok => exact silent_readStatusLine h
  | eof | other => exact h

namespace Client

/-- The session a request has created. -/
theorem Quiet.start (server path : Bytes) (srcID dstID : Int) :
    Quiet (create server path srcID dstID).start where
  one := .inr rfl
  loaded := fun _ => rfl
  silent := fun _ => ⟨rfl, rfl, List.length_replicate⟩
  once := Nat.zero_le 1

/-- What a handler does to a session that expects its event. -/
theorem Quiet.handle {c : Client} (h : c.Quiet) {e : Event} (he : c.Expects e) :
    (c.handle e).Quiet := by
  have hsilent : Silent true c.session := h.silent <| by
    cases e with
    | resolved | connected | written =>
      exact .inl (by rw [show c.operation = some _ from he]; nofun)
    | received => exact .inr he.1
    | closed | failed => exact .inr he
  have honce : c.session.called.length ≤ 1 := by simp [hsilent.called]
  cases e with
  | resolved err | connected err =>
    have hoperation : c.operation ≠ none := by rw [show c.operation = some _ from he]; nofun
    have hpending : c.session.pending = none := h.one.resolve_left hoperation
    have hloaded := h.loaded hoperation
    cases err <;> exact ⟨.inr hpending, fun _ => hloaded, fun _ => hsilent, honce⟩
  | written err =>
    have hsilent' := hsilent.handleWriteRequest err
    exact ⟨.inl rfl, fun hnone => absurd rfl hnone, fun _ => hsilent',
      by simp [Client.handle, hsilent'.called]⟩
  | received chunk =>
    have hsilent' := hsilent.receive chunk
    exact ⟨h.one.imp_right fun hpending => absurd hpending he.1, h.loaded, fun _ => hsilent',
      by simp [Client.handle, hsilent'.called]⟩
  | closed =>
    -- the last handler: nothing is bound any more
    have hoperation : c.operation = none := h.one.resolve_right he
    refine ⟨.inl hoperation, h.loaded, fun hbound => ?_, hsilent.endOfFile_once⟩
    have hpending : (c.handle .closed).session.pending = none := endOfFile_pending c.session
    obtain hbound | hbound := hbound
    · exact absurd hoperation hbound
    · exact absurd hpending hbound
  | failed =>
    have hsession : (c.handle .failed).session = { c.session with pending := none } :=
      readError_eq c.session
    refine ⟨.inr (by rw [hsession]), h.loaded, fun _ => ?_, ?_⟩
    · rw [hsession]
      exact ⟨hsilent.call_back, hsilent.called, hsilent.buff⟩
    · rw [hsession]
      exact honce

/-- A session keeps its server and its path. -/
theorem handle_server (c : Client) (e : Event) :
    (c.handle e).server = c.server ∧ (c.handle e).path = c.path := by
  cases e with
  | resolved err | connected err => cases err <;> exact ⟨rfl, rfl⟩
  | written | received | closed | failed => exact ⟨rfl, rfl⟩

/-- The address of a request never changes. -/
theorem after_server (c : Client) (es : List Event) :
    (c.after es).server = c.server ∧ (c.after es).path = c.path := by
  induction es generalizing c with
  | nil => exact ⟨rfl, rfl⟩
  | cons e es ih =>
    obtain ⟨hserver, hpath⟩ := ih (c.handle e)
    obtain ⟨hserver', hpath'⟩ := c.handle_server e
    exact ⟨hserver.trans hserver', hpath.trans hpath'⟩

/-- A session that has no operation but a read gets no other. -/
theorem handle_operation {c : Client} {e : Event} (he : c.Expects e)
    (h : e = .written .ok ∨ c.operation = none) : (c.handle e).operation = none := by
  cases e with
  | resolved err | connected err =>
    have hsome : c.operation = some _ := he
    obtain h | h := h
    · cases h
    · rw [hsome] at h
      cases h
  | written => rfl
  | received | closed | failed =>
    obtain h | h := h
    · cases h
    · exact h

end Client

/-! ## All sessions -/

namespace HttpRequestMgr

/-- The events of one session among the actions. -/
def own (i : Nat) (as : List Action) : List Event :=
  as.filterMap fun
    | .httpRequest .. => none
    | .event j e => if j = i then some e else none

/-- The own events of two parts of a run. -/
@[simp] theorem own_append (i : Nat) (as as' : List Action) :
    own i (as ++ as') = own i as ++ own i as' := List.filterMap_append

/-- A new request is no event of an old one. -/
@[simp] theorem own_httpRequest (i : Nat) (server path : Bytes) (srcID dstID : Int)
    (call_back : Bool) : own i [.httpRequest server path srcID dstID call_back] = [] := rfl

/-- An own event. -/
@[simp] theorem own_event_self (i : Nat) (e : Event) : own i [.event i e] = [e] := by simp [own]

/-- Somebody else's event. -/
theorem own_event_of_ne {i j : Nat} (h : j ≠ i) (e : Event) : own i [.event j e] = [] := by
  simp [own, h]

/-- The callbacks of one session. -/
def calledBy (s : HttpRequestMgr) (i : Nat) : List CltMsg :=
  (s.called.filter (·.1 = i)).map Prod.snd

/-- What one session has sent. -/
def sentBy (s : HttpRequestMgr) (i : Nat) : List Bytes := (s.sent.filter (·.1 = i)).map Prod.snd

/-- Every session is where its own events have brought it. -/
structure Tracks (as : List Action) (s : HttpRequestMgr) : Prop where
  alive : ∀ i c, (i, c) ∈ s.sessions ↔
    ∃ c₀ : Client, s.requests[i]? = some c₀ ∧ c = c₀.start.after (own i as) ∧ c.Bound
  numbers : (s.sessions.map Prod.fst).Nodup
  created : ∀ c ∈ s.requests, c.session = .new true
  counter : s.http_counter = s.sessions.length
  quiet : ∀ i (c₀ : Client), s.requests[i]? = some c₀ → (c₀.start.after (own i as)).Quiet
  calledBy_eq : ∀ i (c₀ : Client), s.requests[i]? = some c₀ →
    s.calledBy i = (c₀.start.after (own i as)).session.called
  written : ∀ i (c₀ : Client), s.requests[i]? = some c₀ → .written .ok ∈ own i as →
    (c₀.start.after (own i as)).operation = none
  sentBy_eq : ∀ i (c₀ : Client), s.requests[i]? = some c₀ →
    s.sentBy i = if .written .ok ∈ own i as then [Client.requestText c₀.server c₀.path] else []
  fresh : ∀ i, s.requests.length ≤ i → own i as = [] ∧ s.calledBy i = [] ∧ s.sentBy i = []

/-- Nothing has happened yet. -/
theorem Tracks.init : Tracks [] init where
  alive := by simp [HttpRequestMgr.init]
  numbers := List.nodup_nil
  created := fun _ hc => absurd hc List.not_mem_nil
  counter := rfl
  quiet := by simp [HttpRequestMgr.init]
  calledBy_eq := by simp [HttpRequestMgr.init]
  written := by simp [HttpRequestMgr.init]
  sentBy_eq := by simp [HttpRequestMgr.init]
  fresh := fun _ _ => ⟨rfl, rfl, rfl⟩

/-- A list with one more element. -/
theorem getElem?_concat_eq_some {α : Type} {l : List α} {a b : α} {i : Nat} :
    (l ++ [a])[i]? = some b ↔ l[i]? = some b ∨ (i = l.length ∧ b = a) := by
  rw [List.getElem?_append]
  split
  · rename_i hi
    simp [Nat.ne_of_lt hi]
  · rename_i hi
    rw [List.getElem?_eq_none (Nat.le_of_not_lt hi), List.getElem?_singleton]
    by_cases heq : i = l.length
    · simp [heq, eq_comm]
    · have hpos : i - l.length ≠ 0 := by omega
      simp [heq, hpos]

/-- A request is the next session. -/
theorem Tracks.httpRequest {as : List Action} {s : HttpRequestMgr} (h : Tracks as s)
    (server path : Bytes) (srcID dstID : Int) (call_back : Bool) :
    Tracks (as ++ [.httpRequest server path srcID dstID call_back])
      (s.httpRequest server path srcID dstID call_back).2 := by
  cases call_back with
  | false =>
    -- refused: nothing has changed
    constructor
    · simpa [HttpRequestMgr.httpRequest] using h.alive
    · exact h.numbers
    · exact h.created
    · exact h.counter
    · simpa [HttpRequestMgr.httpRequest] using h.quiet
    · simpa [HttpRequestMgr.httpRequest] using h.calledBy_eq
    · simpa [HttpRequestMgr.httpRequest] using h.written
    · simpa [HttpRequestMgr.httpRequest] using h.sentBy_eq
    · simpa [HttpRequestMgr.httpRequest] using h.fresh
  | true =>
    obtain ⟨hown, hcalled, hsent⟩ := h.fresh s.requests.length (Nat.le_refl _)
    have hnone : ∀ c, (s.requests.length, c) ∉ s.sessions := fun c hc => by
      obtain ⟨c₀, hc₀, -⟩ := (h.alive _ c).1 hc
      simp at hc₀
    constructor
    · intro i c
      simp only [HttpRequestMgr.httpRequest, Bool.not_true, Bool.false_eq_true, if_false,
        List.mem_append, List.mem_singleton, getElem?_concat_eq_some, own_append, own_httpRequest,
        List.append_nil]
      rw [h.alive i c]
      constructor
      · rintro (⟨c₀, hc₀, hc⟩ | heq)
        · exact ⟨c₀, .inl hc₀, hc⟩
        · obtain ⟨rfl, rfl⟩ := Prod.mk.inj heq
          exact ⟨_, .inr ⟨rfl, rfl⟩, by rw [hown]; rfl, .inl nofun⟩
      · rintro ⟨c₀, hc₀ | ⟨rfl, rfl⟩, rfl, hbound⟩
        · exact .inl ⟨c₀, hc₀, rfl, hbound⟩
        · exact .inr (by rw [hown]; rfl)
    · simp only [HttpRequestMgr.httpRequest, Bool.not_true, Bool.false_eq_true, if_false,
        List.map_append, List.nodup_append, List.map_cons, List.map_nil]
      refine ⟨h.numbers, List.nodup_singleton _, ?_⟩
      rintro a ha b hb rfl
      obtain ⟨⟨i, c⟩, hc, rfl⟩ := List.mem_map.1 ha
      rw [List.mem_singleton] at hb
      dsimp only at hb
      subst hb
      exact hnone c hc
    · intro c hc
      obtain hc | hc := List.mem_append.1 hc
      · exact h.created c hc
      · rw [List.mem_singleton.1 hc]
        rfl
    · simp [HttpRequestMgr.httpRequest, h.counter]
    · intro i c₀ hc₀
      simp only [HttpRequestMgr.httpRequest, Bool.not_true, Bool.false_eq_true, if_false,
        getElem?_concat_eq_some] at hc₀
      rw [own_append, own_httpRequest, List.append_nil]
      obtain hc₀ | ⟨rfl, rfl⟩ := hc₀
      · exact h.quiet i c₀ hc₀
      · rw [hown]
        exact .start server path srcID dstID
    · intro i c₀ hc₀
      simp only [HttpRequestMgr.httpRequest, Bool.not_true, Bool.false_eq_true, if_false,
        getElem?_concat_eq_some] at hc₀
      rw [own_append, own_httpRequest, List.append_nil]
      obtain hc₀ | ⟨rfl, rfl⟩ := hc₀
      · exact h.calledBy_eq i c₀ hc₀
      · rw [hown]
        exact hcalled
    · intro i c₀ hc₀
      simp only [HttpRequestMgr.httpRequest, Bool.not_true, Bool.false_eq_true, if_false,
        getElem?_concat_eq_some] at hc₀
      rw [own_append, own_httpRequest, List.append_nil]
      obtain hc₀ | ⟨rfl, rfl⟩ := hc₀
      · exact h.written i c₀ hc₀
      · rw [hown]
        exact fun hmem => absurd hmem List.not_mem_nil
    · intro i c₀ hc₀
      simp only [HttpRequestMgr.httpRequest, Bool.not_true, Bool.false_eq_true, if_false,
        getElem?_concat_eq_some] at hc₀
      rw [own_append, own_httpRequest, List.append_nil]
      obtain hc₀ | ⟨rfl, rfl⟩ := hc₀
      · exact h.sentBy_eq i c₀ hc₀
      · rw [hown, if_neg List.not_mem_nil]
        exact hsent
    · intro i hi
      simp only [HttpRequestMgr.httpRequest, Bool.not_true, Bool.false_eq_true, if_false,
        List.length_append, List.length_singleton] at hi
      rw [own_append, own_httpRequest, List.append_nil]
      exact h.fresh i (by omega)

/-- A session is put in its place, or taken away. -/
theorem mem_put {s : HttpRequestMgr} {i j : Nat} {c c' d : Client} (hc : (i, c) ∈ s.sessions) :
    (j, d) ∈ (s.put i c').sessions ↔
      (j ≠ i ∧ (j, d) ∈ s.sessions) ∨ (j = i ∧ d = c' ∧ c'.Bound) := by
  unfold put
  split
  -- the session is bound on: its client is replaced
  · rename_i hbound
    simp only [List.mem_map, hbound, and_true]
    constructor
    · rintro ⟨p, hp, heq⟩
      split at heq
      · cases heq
        exact .inr ⟨rfl, rfl⟩
      · rename_i hne
        subst heq
        exact .inl ⟨hne, hp⟩
    · rintro (⟨hne, hd⟩ | ⟨rfl, rfl⟩)
      · exact ⟨(j, d), hd, if_neg hne⟩
      · exact ⟨(j, c), hc, if_pos rfl⟩
  -- nothing holds it any more: it is dropped
  · rename_i hbound
    simp [hbound, and_comm]

/-- Taking one session away. -/
theorem length_filter_ne {sessions : List (Nat × Client)} {i : Nat} {c : Client}
    (hnumbers : (sessions.map Prod.fst).Nodup) (hc : (i, c) ∈ sessions) :
    (sessions.filter (·.1 ≠ i)).length + 1 = sessions.length := by
  have hcount : (sessions.map Prod.fst).count i = 1 :=
    List.count_eq_one_of_mem hnumbers (List.mem_map_of_mem hc)
  rw [List.count_eq_countP, List.countP_map] at hcount
  rw [← List.countP_eq_length_filter,
    List.length_eq_countP_add_countP (fun p : Nat × Client => decide (p.1 ≠ i)), ← hcount]
  congr 1
  apply List.countP_congr
  simp

/-- A session that changes keeps its number, -/
theorem put_numbers {s : HttpRequestMgr} (i : Nat) (c' : Client)
    (hnumbers : (s.sessions.map Prod.fst).Nodup) : ((s.put i c').sessions.map Prod.fst).Nodup := by
  unfold put
  split
  · have hsame : (s.sessions.map fun p => if p.1 = i then (i, c') else p).map Prod.fst =
        s.sessions.map Prod.fst := by
      rw [List.map_map]
      apply List.map_congr_left
      intro p _
      by_cases hp : p.1 = i
      · simp [hp]
      · simp [hp]
    simpa only [hsame] using hnumbers
  · exact hnumbers.sublist (List.filter_sublist.map _)

/-- and is counted as before. -/
theorem put_counter {s : HttpRequestMgr} {i : Nat} {c : Client} (c' : Client)
    (hnumbers : (s.sessions.map Prod.fst).Nodup) (hc : (i, c) ∈ s.sessions)
    (hcounter : s.http_counter = s.sessions.length) :
    (s.put i c').http_counter = (s.put i c').sessions.length := by
  unfold put
  split
  · simpa using hcounter
  · have hlength := length_filter_ne hnumbers hc
    dsimp only
    omega

/-- The requests are those that were made, -/
@[simp] theorem put_requests (s : HttpRequestMgr) (i : Nat) (c : Client) :
    (s.put i c).requests = s.requests := by
  unfold put
  split <;> rfl

/-- the callbacks those that were called -/
@[simp] theorem put_calledBy (s : HttpRequestMgr) (i j : Nat) (c : Client) :
    (s.put i c).calledBy j = s.calledBy j := by
  unfold put
  split <;> rfl

/-- and the messages those that were sent. -/
@[simp] theorem put_sentBy (s : HttpRequestMgr) (i j : Nat) (c : Client) :
    (s.put i c).sentBy j = s.sentBy j := by
  unfold put
  split <;> rfl

/-- What is recorded under one number counts for that number. -/
theorem filter_append_own {α : Type} (l : List (Nat × α)) (i j : Nat) (new : List α) :
    ((l ++ new.map (i, ·)).filter (·.1 = j)).map Prod.snd =
      (l.filter (·.1 = j)).map Prod.snd ++ if j = i then new else [] := by
  simp only [List.filter_append, List.map_append, List.filter_map]
  by_cases hj : j = i
  · subst hj
    simp [Function.comp_def]
  · have hne : ¬ i = j := fun h => hj h.symm
    simp [Function.comp_def, hj, hne]

/-- What an event does before its session is put back. -/
theorem step_event {s s' : HttpRequestMgr} {i : Nat} {e : Event}
    (hstep : s.step (.event i e) = some s') : ∃ c s₁, (i, c) ∈ s.sessions ∧ c.Expects e ∧
      s' = put s₁ i (c.handle e) ∧ s₁.sessions = s.sessions ∧ s₁.requests = s.requests ∧
      s₁.http_counter = s.http_counter ∧
      (∀ j, s₁.calledBy j = s.calledBy j ++
        if j = i then (c.handle e).session.called.drop c.session.called.length else []) ∧
      ∀ j, s₁.sentBy j = s.sentBy j ++
        if j = i then (if e = .written .ok then [c.request] else []) else [] := by
  simp only [HttpRequestMgr.step] at hstep
  split at hstep
  · cases hstep
  · rename_i c hlookup
    split at hstep
    · rename_i he
      -- the event goes to the session of its number
      obtain ⟨before, after, heq, -⟩ := List.lookup_eq_some_iff.1 hlookup
      refine ⟨c, _, by simp [heq], he, (Option.some.inj hstep).symm, rfl, rfl, rfl,
        fun j => filter_append_own _ i j _, fun j => ?_⟩
      have hsent := filter_append_own s.sent i j (if e = .written .ok then [c.request] else [])
      rw [sentBy, sentBy, ← hsent]
      by_cases hok : e = .written .ok <;> simp [hok]
    · cases hstep

/-- An event moves its own session only. -/
theorem Tracks.event {as : List Action} {s s' : HttpRequestMgr} (h : Tracks as s) {i : Nat}
    {e : Event} (hstep : s.step (.event i e) = some s') : Tracks (as ++ [.event i e]) s' := by
  obtain ⟨c, s₁, hc, he, rfl, hsessions, hrequests, hcounter, hcalled, hsent⟩ := step_event hstep
  obtain ⟨c₀, hc₀, rfl, hbound⟩ := (h.alive i c).1 hc
  have hquiet := h.quiet i c₀ hc₀
  have hsilent := (hquiet.silent hbound).called
  have hown : ∀ j, j ≠ i → own j (as ++ [.event i e]) = own j as := fun j hj => by
    rw [own_append, own_event_of_ne (Ne.symm hj), List.append_nil]
  have hself : own i (as ++ [.event i e]) = own i as ++ [e] := by simp
  have hnow : c₀.start.after (own i (as ++ [.event i e])) =
      (c₀.start.after (own i as)).handle e := by simp
  constructor
  · intro j d
    rw [mem_put (hsessions ▸ hc), put_requests, hsessions, hrequests, h.alive j d]
    by_cases hj : j = i
    · -- its own session is where the handler has left it
      subst hj
      simp only [hc₀, Option.some.injEq, ne_eq, not_true_eq_false, false_and, true_and, false_or,
        exists_eq_left', hnow]
      exact and_congr_right fun hd => by rw [hd]
    · simp [hj, hown j hj]
  · exact put_numbers i _ (hsessions ▸ h.numbers)
  · rw [put_requests, hrequests]
    exact h.created
  · exact put_counter _ (hsessions ▸ h.numbers) (hsessions ▸ hc)
      (by rw [hcounter, hsessions, h.counter])
  · intro j c₁ hc₁
    rw [put_requests, hrequests] at hc₁
    by_cases hj : j = i
    · subst hj
      obtain rfl := Option.some.inj (hc₀.symm.trans hc₁)
      rw [hnow]
      exact hquiet.handle he
    · rw [hown j hj]
      exact h.quiet j c₁ hc₁
  · intro j c₁ hc₁
    rw [put_requests, hrequests] at hc₁
    rw [put_calledBy, hcalled j, h.calledBy_eq j c₁ hc₁]
    by_cases hj : j = i
    · subst hj
      obtain rfl := Option.some.inj (hc₀.symm.trans hc₁)
      rw [hnow, hsilent]
      simp
    · simp [hj, hown j hj]
  · intro j c₁ hc₁
    rw [put_requests, hrequests] at hc₁
    by_cases hj : j = i
    · subst hj
      obtain rfl := Option.some.inj (hc₀.symm.trans hc₁)
      rw [hself, List.mem_append, List.mem_singleton, ← hself, hnow]
      intro hmem
      exact Client.handle_operation he (hmem.symm.imp Eq.symm (h.written j c₀ hc₀))
    · rw [hown j hj]
      exact h.written j c₁ hc₁
  · intro j c₁ hc₁
    rw [put_requests, hrequests] at hc₁
    rw [put_sentBy, hsent j, h.sentBy_eq j c₁ hc₁]
    by_cases hj : j = i
    · subst hj
      obtain rfl := Option.some.inj (hc₀.symm.trans hc₁)
      simp only [hself, List.mem_append, List.mem_singleton, if_true]
      by_cases hok : e = .written .ok
      · -- nothing has been sent before
        subst hok
        have hwrite : (c₀.start.after (own j as)).operation = some .write := he
        have hbefore : .written .ok ∉ own j as := fun hmem => by
          rw [h.written j c₀ hc₀ hmem] at hwrite
          cases hwrite
        obtain ⟨hserver, hpath⟩ := c₀.start.after_server (own j as)
        have hrequest : (c₀.start.after (own j as)).request =
            Client.requestText c₀.server c₀.path := by
          rw [hquiet.loaded (by rw [hwrite]; nofun), hserver, hpath]
          rfl
        simp [hbefore, hrequest]
      · have hok' : ¬ Event.written .ok = e := fun h => hok h.symm
        simp [hok, hok']
    · simp [hj, hown j hj]
  · intro j hj
    rw [put_requests, hrequests] at hj
    have hne : j ≠ i := by
      rintro rfl
      rw [List.getElem?_eq_none hj] at hc₀
      cases hc₀
    rw [put_calledBy, put_sentBy, hcalled j, hsent j, if_neg hne, if_neg hne, List.append_nil,
      List.append_nil, hown j hne]
    exact h.fresh j hj

/-- One more action. -/
theorem Tracks.step {as : List Action} {s s' : HttpRequestMgr} (h : Tracks as s) {a : Action}
    (hstep : s.step a = some s') : Tracks (as ++ [a]) s' := by
  cases a with
  | httpRequest server path srcID dstID call_back =>
    obtain rfl := Option.some.inj hstep
    exact h.httpRequest server path srcID dstID call_back
  | event i e => exact h.event hstep

/-- More actions. -/
theorem Tracks.run {as as' : List Action} {s s' : HttpRequestMgr} (h : Tracks as s)
    (hrun : s.run as' = some s') : Tracks (as ++ as') s' := by
  induction as' generalizing as s with
  | nil =>
    obtain rfl := Option.some.inj hrun
    simpa using h
  | cons a as' ih =>
    obtain ⟨s₁, hstep, hrun⟩ := Option.bind_eq_some_iff.1 hrun
    simpa using ih (h.step hstep) hrun

/-- Every run from the start. -/
theorem Tracks.of_run {as : List Action} {s : HttpRequestMgr}
    (hrun : HttpRequestMgr.init.run as = some s) :
    Tracks as s := by
  simpa using Tracks.init.run hrun

end HttpRequestMgr

open HttpRequestMgr

/-- Over any run: the counter says how many sessions are alive, each of these has a handler bound
    and has not called back; no request is called back twice, or sent twice, and what is sent is its
    own text. -/
theorem sessions_accounted {as : List Action} {s : HttpRequestMgr}
    (hrun : HttpRequestMgr.init.run as = some s) :
    s.http_counter = s.sessions.length ∧ (s.sessions.map Prod.fst).Nodup ∧
    (∀ i c, (i, c) ∈ s.sessions → c.Bound ∧ s.calledBy i = []) ∧
    ∀ i, (s.calledBy i).length ≤ 1 ∧
      (s.sentBy i = [] ∨ ∃ c, s.requests[i]? = some c ∧
        s.sentBy i = [Client.requestText c.server c.path]) := by
  have h := Tracks.of_run hrun
  refine ⟨h.counter, h.numbers, fun i c hc => ?_, fun i => ?_⟩
  -- a living session has called nobody back
  · obtain ⟨c₀, hc₀, rfl, hbound⟩ := (h.alive i c).1 hc
    exact ⟨hbound, (h.calledBy_eq i c₀ hc₀).trans ((h.quiet i c₀ hc₀).silent hbound).called⟩
  -- a number not yet given out, or one of a request made before
  · cases hrequest : s.requests[i]? with
    | none =>
      obtain ⟨-, hcalled, hsent⟩ := h.fresh i (List.getElem?_eq_none_iff.1 hrequest)
      exact ⟨by simp [hcalled], .inl hsent⟩
    | some c₀ =>
      refine ⟨(h.calledBy_eq i c₀ hrequest).symm ▸ (h.quiet i c₀ hrequest).once, ?_⟩
      rw [h.sentBy_eq i c₀ hrequest]
      split
      · exact .inr ⟨c₀, rfl, rfl⟩
      · exact .inl rfl

/-- Two requests, one of which does not get through. -/
def twoSessions : List Action :=
  [.httpRequest (ascii "a") (ascii "/") 1 2 true, .httpRequest (ascii "b") (ascii "/") 1 2 true,
    .event 0 (.resolved .ok), .event 1 (.resolved .ok), .event 0 (.connected .ok),
    .event 1 (.connected .other), .event 0 (.written .ok),
    .event 0 (.received (ascii "HTTP/1.0 200 OK\r\na:b\r")),
    .event 0 (.received (ascii "\n\r\nok")), .event 0 .closed]

/-- The two sessions run to their ends. -/
theorem twoSessions_run : (HttpRequestMgr.init.run twoSessions).isSome = true := by decide +kernel

/-- Both are accounted for. -/
theorem sessions_accounted_two : ∃ s : HttpRequestMgr, s.requests.length = 2 ∧
    s.http_counter = s.sessions.length ∧ ∀ i, (s.calledBy i).length ≤ 1 := by
  obtain ⟨s, hrun⟩ := Option.isSome_iff_exists.1 twoSessions_run
  obtain ⟨hcounter, -, -, hall⟩ := sessions_accounted hrun
  have hlength : (HttpRequestMgr.init.run twoSessions).map (·.requests.length) = some 2 := by
    decide +kernel
  rw [hrun] at hlength
  exact ⟨s, Option.some.inj hlength, hcounter, fun i => (hall i).1⟩

/-- The events of a session that gets through to its server and is sent some chunks, until the
    server closes the connection. -/
def servedEvents (chunks : List Bytes) : List Event :=
  [.resolved .ok, .connected .ok, .written .ok] ++ chunks.map .received ++ [.closed]

/-- The chunks of a body, one after the other. -/
theorem after_received (c : Client) (chunks : List Bytes) :
    (c.after (chunks.map .received)).session = chunks.foldl HttpSession.receive c.session := by
  induction chunks generalizing c with
  | nil => rfl
  | cons chunk chunks ih => exact ih (c.handle (.received chunk))

/-- Such a session does what it does alone. -/
theorem after_servedEvents {c : Client} (hc : c.session = .new true) (chunks : List Bytes) :
    (c.start.after (servedEvents chunks)).session = HttpSession.respond true chunks := by
  rw [servedEvents, Client.after_append, Client.after_append, Client.after_singleton]
  show HttpSession.endOfFile _ = _
  rw [after_received]
  show HttpSession.endOfFile (chunks.foldl _ (c.session.handleWriteRequest .ok)) = _
  rw [hc, HttpSession.respond]

/-- A request whose session gets through is answered with the content of what its own server sends
    it, in whatever chunks, and whatever happens to the other sessions in between. -/
theorem session_content {as : List Action} {s : HttpRequestMgr}
    (hrun : HttpRequestMgr.init.run as = some s) {i : Nat} {c : Client}
    (hc : s.requests[i]? = some c) {chunks : List Bytes} (hown : own i as = servedEvents chunks)
    (hself : SelfContained chunks.flatten) :
    (contentOf chunks.flatten = none ∧ s.calledBy i = []) ∨
      ∃ content msg, contentOf chunks.flatten = some content ∧ s.calledBy i = [msg] ∧
        msg.data.take msg.len = content ∧ msg.len = content.length := by
  have h := Tracks.of_run hrun
  have hcalled := h.calledBy_eq i c hc
  rw [hown, after_servedEvents (h.created c (List.mem_of_getElem? hc))] at hcalled
  rw [hcalled]
  obtain ⟨hnone, hnothing⟩ | ⟨content, hcontent, msg, hmsg, htake, hlen⟩ :=
    respond_selfContained hself (rfl : chunks.flatten = _)
  · exact .inl ⟨hnone, hnothing⟩
  · exact .inr ⟨content, msg, hcontent, hmsg, htake, hlen⟩

/-- The first of the two requests is answered with `ok`. -/
theorem session_content_two : ∃ s msg, HttpRequestMgr.init.run twoSessions = some s ∧
    s.calledBy 0 = [msg] ∧ msg.data.take msg.len = ascii "ok" ∧ msg.len = 2 := by
  obtain ⟨s, hrun⟩ := Option.isSome_iff_exists.1 twoSessions_run
  let chunks := [ascii "HTTP/1.0 200 OK\r\na:b\r", ascii "\n\r\nok"]
  -- the first line ends inside the first chunk
  have hline : firstLine chunks.flatten =
      some (ascii "HTTP/1.0 200 OK\r\n", ascii "a:b\r\n\r\nok") := by decide +kernel
  have hread : HttpSession.readStatusLine (ascii "HTTP/1.0 200 OK\r\n") =
    some (ascii "HTTP/1.0", 200, []) := by
    decide +kernel
  have hself : SelfContained chunks.flatten := fun line rest h => by
    rw [hline] at h
    cases h
    rw [hread]
    nofun
  -- the headers end across the two chunks
  have hheaders : HttpSession.readHeaders (ascii "a:b\r\n\r\nok") = ascii "ok" := by
    have h := @readHeaders_block [ascii "a:b"] (ascii "ok") (by decide) (by decide)
    exact (congrArg HttpSession.readHeaders (by decide)).trans h
  have hcontent : contentOf chunks.flatten = some (ascii "ok") := by
    rw [contentOf_accepts hline ⟨_, hread, by decide⟩, List.nil_append, hheaders]
    exact if_pos ⟨by decide, by decide⟩
  have hrequest : (HttpRequestMgr.init.run twoSessions).map (·.requests[0]?.isSome) =
    some true := by
    decide +kernel
  rw [hrun] at hrequest
  obtain ⟨c, hc⟩ := Option.isSome_iff_exists.1 (Option.some.inj hrequest)
  have hown : own 0 twoSessions = servedEvents chunks := by decide +kernel
  -- so the content is what follows them
  obtain ⟨hnone, -⟩ | ⟨content, msg, hsome, hcalled, htake, hlen⟩ :=
    session_content hrun hc hown hself
  · rw [hcontent] at hnone
    cases hnone
  · obtain rfl := Option.some.inj (hcontent.symm.trans hsome)
    exact ⟨s, msg, hrun, hcalled, htake, hlen⟩

end XGame3.Http
