import XGame3.Native.HttpRequest

/-!
# What one request leaves behind for the next

`GetResponse` sets the POST options for a content that is not empty and never takes them
back.  A request with content is always its own POST; one without is a GET only as long as
no request with content went before it on the handle.

Key results:
- `transfer_posted`: a request with content is a POST of just that
- `transfer_empty`: a request without is a GET exactly on a handle without `POSTFIELDS`
- `independent_iff`: when every transfer of a sequence is the one its own call asks for
-/

namespace XGame3.Http

universe u

variable {V : Type u}

/-! ### What a call asks for -/

/-- The transfer that belongs to a call: a POST of its content, or a GET when there is none. -/
def Call.own (c : Call V) : Transfer :=
  if c.content = [] then .get (cStr c.uri) else .post (cStr c.uri) (some c.content)

/-- Every transfer is the one that its own call asks for. -/
def Independent (json : Json V) (cs : List (Call V)) : Prop :=
  ∀ (n : Nat) (c : Call V) (t : Transfer), cs[n]? = some c →
    (transfers json .create cs)[n]? = some (some t) → t = c.own

/-- No call without content follows a call with content. -/
def NoneEmptyAfter (cs : List (Call V)) : Prop :=
  cs.Pairwise fun c c' => c.setsUrl → c.content ≠ [] → c'.setsUrl → c'.content ≠ []

/-! ### One call -/

/-- Memory that holds a list from an address on reads as that list. -/
theorem readBytes_holds {memory : Nat → Option UInt8} {addr : Nat} {l : List UInt8}
    (h : ∀ i < l.length, memory (addr + i) = l[i]?) :
    readBytes memory addr l.length = some l := by
  induction l generalizing addr with
  | nil => rfl
  | cons b l ih =>
    have hb : memory addr = some b := by simpa using h 0 (by simp)
    have hl : ∀ i < l.length, memory (addr + 1 + i) = l[i]? := by
      intro i hi
      have := h (i + 1) (by simpa using hi)
      simpa [Nat.add_assoc, Nat.add_comm 1 i] using this
    simp [readBytes, hb, ih hl]

/-- A call that sets no URL leaves the handle alone and transfers nothing. -/
theorem getResponse_no_url {json : Json V} {h : Handle} {c : Call V}
    (hset : c.setsUrl = false) :
    getResponse json h c = (h, none, false, c.json_value) := by
  simp [getResponse, hset]

/-- The handle after a call that sets the URL. -/
theorem getResponse_handle {json : Json V} {h : Handle} {c : Call V} (hset : c.setsUrl = true) :
    (getResponse json h c).1 = (h.setUrl c).setPost c := by
  simp [getResponse, hset]

/-- A call with content is a POST of just that. -/
theorem transfer_posted (json : Json V) (h : Handle) (c : Call V) (hset : c.setsUrl = true)
    (hc : c.content ≠ []) :
    (getResponse json h c).2.1 = some (.post (cStr c.uri) (some c.content)) := by
  have hlen : 0 < c.content.length := List.length_pos_iff.2 hc
  simp [getResponse, hset, Handle.perform, Handle.setPost, Handle.setUrl, hlen,
    readBytes_holds c.holds]

/-- A call without content is its own GET exactly when the handle has no `POSTFIELDS`. -/
theorem transfer_empty (json : Json V) (h : Handle) (c : Call V) (hset : c.setsUrl = true)
    (hc : c.content = []) :
    (getResponse json h c).2.1 = some (.get (cStr c.uri)) ↔ h.postFields = none := by
  -- the pointer that decides is the one the handle came with
  cases hp : h.postFields <;>
    simp [getResponse, hset, Handle.perform, Handle.setPost, Handle.setUrl, hc, hp]

/-- A call that sets the URL makes a transfer. -/
theorem transfer_some (json : Json V) (h : Handle) (c : Call V) (hset : c.setsUrl = true) :
    ∃ t, (getResponse json h c).2.1 = some t := by
  by_cases hc : c.content = []
  · simp [getResponse, hset, Handle.perform, Handle.setPost, Handle.setUrl, hc]
  · exact ⟨_, transfer_posted json h c hset hc⟩

/-- When one call makes its own transfer: it has content, or the handle has no `POSTFIELDS`. -/
theorem transfer_own (json : Json V) (h : Handle) (c : Call V) :
    (∀ t, (getResponse json h c).2.1 = some t → t = c.own) ↔
      (c.setsUrl → c.content = [] → h.postFields = none) := by
  cases hset : c.setsUrl with
  | false => simp [getResponse_no_url hset]
  | true =>
    by_cases hc : c.content = []
    · obtain ⟨t, ht⟩ := transfer_some json h c hset
      have hempty := transfer_empty json h c hset hc
      rw [ht] at hempty ⊢
      simpa [Call.own, hc] using hempty
    · simp [transfer_posted json h c hset hc, Call.own, hc]

/-- The pointer after a call: set if it was set, or if the call had content. -/
theorem getResponse_postFields (json : Json V) (h : Handle) (c : Call V) :
    (getResponse json h c).1.postFields = none ↔
      h.postFields = none ∧ (c.setsUrl → c.content = []) := by
  cases hset : c.setsUrl with
  | false => simp [getResponse_no_url hset]
  | true =>
    rw [getResponse_handle hset]
    by_cases hc : c.content = []
    · simp [Handle.setPost, Handle.setUrl, hc]
    · have hlen : 0 < c.content.length := List.length_pos_iff.2 hc
      simp [Handle.setPost, Handle.setUrl, hlen, hc]

/-! ### A sequence of calls -/

/-- Every transfer from a handle on is the one its own call asks for. -/
def IndependentFrom (json : Json V) (h : Handle) (cs : List (Call V)) : Prop :=
  ∀ (n : Nat) (c : Call V) (t : Transfer), cs[n]? = some c →
    (transfers json h cs)[n]? = some (some t) → t = c.own

/-- The first call, and the rest from the handle it leaves. -/
theorem independentFrom_cons (json : Json V) (h : Handle) (c : Call V) (cs : List (Call V)) :
    IndependentFrom json h (c :: cs) ↔
      (∀ t, (getResponse json h c).2.1 = some t → t = c.own) ∧
        IndependentFrom json (getResponse json h c).1 cs := by
  constructor
  · intro hind
    constructor
    · intro t ht
      exact hind 0 c t rfl (by simp [transfers, ht])
    · intro n c' t hc ht
      exact hind (n + 1) c' t (by simpa using hc) (by simpa [transfers] using ht)
  · intro ⟨hfirst, hrest⟩ n c' t hc ht
    cases n with
    | zero =>
      obtain rfl : c = c' := by simpa using hc
      exact hfirst t (by simpa [transfers] using ht)
    | succ n => exact hrest n c' t (by simpa using hc) (by simpa [transfers] using ht)

/-- From a handle with `POSTFIELDS` no call may be empty; from one without, none behind a call with
    content. -/
theorem independentFrom_iff (json : Json V) (h : Handle) (cs : List (Call V)) :
    IndependentFrom json h cs ↔
      (h.postFields ≠ none → ∀ c ∈ cs, c.setsUrl → c.content ≠ []) ∧ NoneEmptyAfter cs := by
  induction cs generalizing h with
  | nil => simp [IndependentFrom, NoneEmptyAfter, transfers]
  | cons c cs ih =>
    have hpairs : NoneEmptyAfter (c :: cs) ↔
        (∀ c' ∈ cs, c.setsUrl → c.content ≠ [] → c'.setsUrl → c'.content ≠ []) ∧
          NoneEmptyAfter cs := List.pairwise_cons
    rw [independentFrom_cons, transfer_own, ih, hpairs, List.forall_mem_cons]
    have hset := getResponse_postFields json h c
    constructor
    · intro ⟨hc, hrest, hpair⟩
      refine ⟨fun hp => ⟨fun hs he => hp (hc hs he), ?_⟩, ?_, hpair⟩
      · exact hrest fun hn => hp (hset.1 hn).1
      · intro c' hc' hs hne
        exact hrest (fun hn => hne ((hset.1 hn).2 hs)) c' hc'
    · intro ⟨hp, hafter, hpair⟩
      refine ⟨fun hs he => ?_, fun hn c' hc' hs' => ?_, hpair⟩
      · by_contra hne
        exact (hp hne).1 hs he
      · by_cases hne : h.postFields = none
        · -- the pointer was set by this very call
          have hposts : ¬(c.setsUrl → c.content = []) := fun himp => hn (hset.2 ⟨hne, himp⟩)
          have hposts := Classical.not_imp.1 hposts
          exact hafter c' hc' hposts.1 hposts.2 hs'
        · exact (hp hne).2 c' hc' hs'

/-- The transfers of a sequence of calls are each their own call's exactly when no call without
    content follows a call with content. -/
theorem independent_iff (json : Json V) (cs : List (Call V)) :
    Independent json cs ↔ NoneEmptyAfter cs := by
  have h := independentFrom_iff json .create cs
  simpa [IndependentFrom, Independent, Handle.create] using h

/-- A call of the given content, which lies at the given address. -/
def Call.at (addr : Nat) (content : List UInt8) : Call Unit where
  uri := [47]
  content := content
  json_value := ()
  addr := addr
  memory := fun i => if i < addr then none else content[i - addr]?
  holds := by
    intro i _
    have hle : ¬addr + i < addr := by omega
    simp [hle]
  setsUrl := true
  performs := true
  parse := fun _ => (true, ())

/-- A value that is an object without members. -/
def Json.empty : Json Unit where
  isObject := fun _ => true
  isMember := fun _ _ => false

/-- A call without content behind a POST is a POST of bytes that are gone. -/
theorem not_independent :
    ¬(∀ cs : List (Call Unit), Independent Json.empty cs) := by
  intro h
  have htransfer : (transfers Json.empty .create [Call.at 100 [65], Call.at 200 []])[1]? =
      some (some (.post [47] none)) := by decide
  have howner := h _ 1 (Call.at 200 []) _ rfl htransfer
  exact absurd howner (by decide)

end XGame3.Http
