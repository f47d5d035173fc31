import Mathlib.Logic.Function.Basic
import Mathlib.Logic.Relation

/-!
# Monitors with one condition variable

A state under a mutex, actions on it, and a wait that blocks while a predicate of the state holds.
The sections under the mutex are single steps; a thread that blocks is waiting from then on, and
looks at the state again once it has been woken, by `notify_all` or for no reason.

Key facts:

* `Good.perform`    no wakeup is lost when an action that ends the blocking notifies
* `Reachable.good`  what the actions preserve holds of the state, and of every state a wait ended in
-/

namespace Monitor

universe u v

variable {σ A : Type u} {T : Type v}

/-- A state of type `σ` with actions from `A`. -/
structure Sections (σ A : Type u) where
  blocks : σ → Bool
  act : A → σ → σ
  notifies : A → σ → Bool

/-- Where a thread is. -/
inductive Place where
  | outside
  | waiting
  | woken
  deriving DecidableEq

/-- The state, the threads, and the states in which waits have ended so far. -/
structure Config (σ : Type u) (T : Type v) where
  state : σ
  place : T → Place
  ended : List σ

namespace Config

/-- Before any call. -/
def init (state : σ) : Config σ T where
  state := state
  place := fun _ => .outside
  ended := []

/-- `notify_all`. -/
def wake (place : T → Place) (t : T) : Place :=
  if place t = .waiting then .woken else place t

variable [DecidableEq T]

/-- A thread in a wait looks at the state: it blocks, or the wait ends. -/
def look (m : Sections σ A) (c : Config σ T) (t : T) : Config σ T :=
  if m.blocks c.state then { c with place := Function.update c.place t .waiting }
  else { c with place := Function.update c.place t .outside, ended := c.ended ++ [c.state] }

/-- An action. -/
def perform (m : Sections σ A) (c : Config σ T) (a : A) : Config σ T :=
  { c with
    state := m.act a c.state
    place := if m.notifies a c.state then wake c.place else c.place }

end Config

variable [DecidableEq T]

/-- One step of one thread. -/
inductive Step (m : Sections σ A) : Config σ T → Config σ T → Prop
  | act {c : Config σ T} (t : T) (a : A) (ht : c.place t = .outside) : Step m c (c.perform m a)
  /-- A wait begins. -/
  | wait {c : Config σ T} (t : T) (ht : c.place t = .outside) : Step m c (c.look m t)
  /-- A thread wakes up although nobody has notified it. -/
  | spurious {c : Config σ T} (t : T) (ht : c.place t = .waiting) :
      Step m c { c with place := Function.update c.place t .woken }
  /-- A woken thread has the mutex again. -/
  | again {c : Config σ T} (t : T) (ht : c.place t = .woken) : Step m c (c.look m t)

/-- What can come about. -/
def Reachable (m : Sections σ A) (state : σ) (c : Config σ T) : Prop :=
  Relation.ReflTransGen (Step m) (Config.init state) c

variable {m : Sections σ A} {c c' : Config σ T} {I : σ → Prop} {state : σ}

/-- The state satisfies the invariant, so did every state in which a wait ended, and there the wait
    had no reason to block. -/
structure Good (m : Sections σ A) (I : σ → Prop) (c : Config σ T) : Prop where
  state : I c.state
  ended : ∀ s ∈ c.ended, I s ∧ m.blocks s = false
  /-- No thread waits without a reason. -/
  blocked : ∀ t, c.place t = .waiting → m.blocks c.state = true

omit [DecidableEq T] in
theorem Good.init (h : I state) : Good m I (Config.init state : Config σ T) where
  state := h
  ended := fun _ hs => nomatch hs
  blocked := fun _ ht => nomatch ht

/-- Looking at the state keeps all this. -/
theorem Good.look (h : Good m I c) (t : T) : Good m I (c.look m t) := by
  unfold Config.look
  split
  · -- the thread blocks, for a reason
    rename_i hblocks
    exact ⟨h.state, h.ended, fun _ _ => hblocks⟩
  · -- the wait ends in this state
    rename_i hblocks
    refine ⟨h.state, ?_, ?_⟩
    · intro s hs
      obtain hs | hs := List.mem_append.1 hs
      · exact h.ended s hs
      · rw [List.mem_singleton.1 hs]
        exact ⟨h.state, Bool.eq_false_iff.2 hblocks⟩
    · intro t' ht'
      apply h.blocked t'
      simp only [Function.update_apply] at ht'
      split at ht'
      · exact nomatch ht'
      · exact ht'

omit [DecidableEq T] in
/-- After `notify_all` nobody is waiting. -/
theorem Config.wake_ne_waiting (place : T → Place) (t : T) : wake place t ≠ .waiting := by
  unfold wake
  split
  · exact nofun
  · assumption

omit [DecidableEq T] in
/-- An action keeps all this when it notifies as soon as it ends the blocking. -/
theorem Good.perform (h : Good m I c) (hinv : ∀ a s, I s → I (m.act a s))
    (hnotify : ∀ a s, I s → m.blocks s = true → m.blocks (m.act a s) = false →
      m.notifies a s = true) (a : A) : Good m I (c.perform m a) := by
  refine ⟨hinv a _ h.state, h.ended, ?_⟩
  intro t ht
  simp only [Config.perform] at ht ⊢
  split at ht
  · exact absurd ht (Config.wake_ne_waiting c.place t)
  · -- without a notification the blocking has not ended
    rename_i hsilent
    by_contra hfree
    exact hsilent (hnotify a _ h.state (h.blocked t ht) (Bool.eq_false_iff.2 hfree))

/-- Whatever comes about, no wait has ended while it had a reason to block, and nobody waits without
    one. -/
theorem Reachable.good (hinit : I state) (hinv : ∀ a s, I s → I (m.act a s))
    (hnotify : ∀ a s, I s → m.blocks s = true → m.blocks (m.act a s) = false →
      m.notifies a s = true) (h : Reachable m state c) : Good m I c := by
  induction h with
  | refl => exact .init hinit
  | tail _ hstep ih =>
    cases hstep with
    | act t a ht => exact ih.perform hinv hnotify a
    | wait t ht => exact ih.look t
    | spurious t ht =>
      -- one thread fewer is waiting, and the state is as it was
      refine ⟨ih.state, ih.ended, fun t' ht' => ih.blocked t' ?_⟩
      simp only [Function.update_apply] at ht'
      split at ht'
      · exact nomatch ht'
      · exact ht'
    | again t ht => exact ih.look t

end Monitor
