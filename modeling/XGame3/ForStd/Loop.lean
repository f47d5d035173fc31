/-!
# Loops as iterated bodies

A `while` loop is given by its body: one iteration either goes on with a new
state, `.inl s`, or leaves the loop with a result, `.inr r`; `none` is a fault.
`run body n s` performs at most `n` iterations, so a loop that is still going
after `n` of them shows as `.inl`, and termination, divergence and what holds
after every iteration are statements about all `n`.

* `run_inl` / `run_inr`  the invariant rule, for the states passed and for the result
* `run_inr_of_inl`   a loop that is left is left from every state it passes
* `run_returns`      a decreasing measure bounds the iterations
* `run_stages`       a loop that passes through stages ends after the last
* `run_diverges`     a body that always goes on never yields a result
* `run_rel`          two loops whose bodies do the same to related states end related
* `mem_trace_of_run`  every state that is passed is seen
* `forall_mem_trace` / `run_inr_of_trace`  what is seen on the way, concluded or assumed
* `run_map_of_trace`  what is seen decides the run
-/

namespace Loop

universe u v w

variable {σ : Type u} {ρ : Type v} {body : σ → Option (σ ⊕ ρ)} {I : σ → Prop} {Q : ρ → Prop}

/-- At most `n` iterations of `body`. -/
def run (body : σ → Option (σ ⊕ ρ)) : Nat → σ → Option (σ ⊕ ρ)
  | 0, s => some (.inl s)
  | n + 1, s =>
    match body s with
    | some (.inl s') => run body n s'
    | some (.inr r) => some (.inr r)
    | none => none

/-- Without fuel nothing is done. -/
@[simp] theorem run_zero (body : σ → Option (σ ⊕ ρ)) (s : σ) : run body 0 s = some (.inl s) := rfl

/-- A turn that goes on is the first of the run, -/
theorem run_succ_of_inl {n : Nat} {s s' : σ} (h : body s = some (.inl s')) :
    run body (n + 1) s = run body n s' := by
  simp only [run, h]

/-- and one that returns ends it. -/
theorem run_succ_of_inr {n : Nat} {s : σ} {r : ρ} (h : body s = some (.inr r)) :
    run body (n + 1) s = some (.inr r) := by
  simp only [run, h]

/-- A loop that is still going has gone on from the first iteration. -/
theorem exists_of_run_inl {n : Nat} {s s' : σ} (h : run body (n + 1) s = some (.inl s')) :
    ∃ s₁, body s = some (.inl s₁) ∧ run body n s₁ = some (.inl s') := by
  match hb : body s with
  | none => simp only [run, hb] at h; exact nomatch h
  | some (.inr r) => rw [run_succ_of_inr hb] at h; exact nomatch h
  | some (.inl s₁) =>
    rw [run_succ_of_inl hb] at h
    exact ⟨s₁, rfl, h⟩

/-- A loop that was left was left in the first iteration or after it. -/
theorem cases_of_run_inr {n : Nat} {s : σ} {r : ρ} (h : run body (n + 1) s = some (.inr r)) :
    body s = some (.inr r) ∨ ∃ s₁, body s = some (.inl s₁) ∧ run body n s₁ = some (.inr r) := by
  match hb : body s with
  | none => simp only [run, hb] at h; exact nomatch h
  | some (.inr r') =>
    rw [run_succ_of_inr hb] at h
    exact .inl h
  | some (.inl s₁) =>
    rw [run_succ_of_inl hb] at h
    exact .inr ⟨s₁, rfl, h⟩

/-! ## Invariants -/

/-- What every iteration preserves holds after every number of iterations. -/
theorem run_inl (hstep : ∀ s s', I s → body s = some (.inl s') → I s') :
    ∀ {n : Nat} {s s' : σ}, I s → run body n s = some (.inl s') → I s' := by
  intro n
  induction n with
  | zero =>
    intro s s' hs h
    simp only [run_zero, Option.some.injEq, Sum.inl.injEq] at h
    exact h ▸ hs
  | succ n ih =>
    intro s s' hs h
    obtain ⟨s₁, hb, h⟩ := exists_of_run_inl h
    exact ih (hstep s s₁ hs hb) h

/-- A result comes out of a state that satisfies the invariant. -/
theorem run_inr (hstep : ∀ s s', I s → body s = some (.inl s') → I s')
    (hexit : ∀ s r, I s → body s = some (.inr r) → Q r) :
    ∀ {n : Nat} {s : σ} {r : ρ}, I s → run body n s = some (.inr r) → Q r := by
  intro n
  induction n with
  | zero => intro s r _ h; exact nomatch h
  | succ n ih =>
    intro s r hs h
    cases cases_of_run_inr h with
    | inl hexited => exact hexit s r hs hexited
    | inr hwent =>
      obtain ⟨s₁, hb, h⟩ := hwent
      exact ih (hstep s s₁ hs hb) h

/-- The last of some iterations. -/
theorem run_succ_last : ∀ {n : Nat} {s s' : σ}, run body (n + 1) s = some (.inl s') →
    ∃ s₁, run body n s = some (.inl s₁) ∧ body s₁ = some (.inl s') := by
  intro n
  induction n with
  | zero =>
    intro s s' h
    obtain ⟨s₁, hb, h⟩ := exists_of_run_inl h
    exact ⟨s, rfl, hb.trans h⟩
  | succ n ih =>
    intro s s' h
    obtain ⟨s₁, hb, h⟩ := exists_of_run_inl h
    obtain ⟨s₂, hrun, hlast⟩ := ih h
    exact ⟨s₂, (run_succ_of_inl hb).trans hrun, hlast⟩

/-- One iteration more. -/
theorem run_snoc : ∀ {n : Nat} {s s₁ s' : σ}, run body n s = some (.inl s₁) →
    body s₁ = some (.inl s') → run body (n + 1) s = some (.inl s') := by
  intro n
  induction n with
  | zero =>
    intro s s₁ s' h hbody
    obtain rfl := Sum.inl.inj (Option.some.inj h)
    exact run_succ_of_inl hbody
  | succ n ih =>
    intro s s₁ s' h hbody
    obtain ⟨s₂, hb, h⟩ := exists_of_run_inl h
    exact (run_succ_of_inl hb).trans (ih h hbody)

/-- A result comes out of the state after the last iteration that went on. -/
theorem run_last : ∀ {n : Nat} {s : σ} {r : ρ}, run body n s = some (.inr r) →
    ∃ m s', run body m s = some (.inl s') ∧ body s' = some (.inr r) := by
  intro n
  induction n with
  | zero => intro s r h; exact nomatch h
  | succ n ih =>
    intro s r h
    cases cases_of_run_inr h with
    | inl hexited => exact ⟨0, s, rfl, hexited⟩
    | inr hwent =>
      obtain ⟨s₁, hb, h⟩ := hwent
      obtain ⟨m, s', hrun, hexit⟩ := ih h
      exact ⟨m + 1, s', (run_succ_of_inl hb).trans hrun, hexit⟩

/-- A loop that is left is left from every state it passes. -/
theorem run_inr_of_inl : ∀ {n m : Nat} {s s' : σ} {r : ρ}, run body n s = some (.inl s') →
    run body m s = some (.inr r) → ∃ k, run body k s' = some (.inr r) := by
  intro n
  induction n with
  | zero =>
    -- from the state itself
    intro m s s' r h hr
    obtain rfl := Sum.inl.inj (Option.some.inj h)
    exact ⟨m, hr⟩
  | succ n ih =>
    intro m s s' r h hr
    obtain ⟨s₁, hb, h⟩ := exists_of_run_inl h
    match m with
    | 0 => exact nomatch hr
    | m + 1 =>
      -- the first turn of both runs is the same
      cases cases_of_run_inr hr with
      | inl hexited => exact nomatch hb.symm.trans hexited
      | inr hwent =>
        obtain ⟨s₂, hb', hr⟩ := hwent
        cases hb.symm.trans hb'
        exact ih h hr

/-! ## Two runs side by side -/

section

variable {α β : Type u} {γ δ : Type v} {R : α → β → Prop} {S : γ → δ → Prop}

/-- Related results are continued to related results. -/
theorem rel_bind {o : Option α} {o' : Option β} {g : α → Option γ} {g' : β → Option δ}
    (h : Option.Rel R o o') (hg : ∀ a b, R a b → Option.Rel S (g a) (g' b)) :
    Option.Rel S (o.bind g) (o'.bind g') := by
  cases h with
  | none => exact .none
  | some hab => exact hg _ _ hab

/-- Related results are what the two sides return. -/
theorem rel_returned {o : Option α} {o' : Option β} (h : Option.Rel R o o') :
    Option.Rel (fun a b => o = some a ∧ o' = some b ∧ R a b) o o' := by
  cases h with
  | none => exact .none
  | some hab => exact .some ⟨rfl, rfl, hab⟩

/-- Both sides go on with the same value. -/
theorem rel_bind_same {o : Option α} {g : α → Option γ} {g' : α → Option δ}
    (hg : ∀ a, o = some a → Option.Rel S (g a) (g' a)) :
    Option.Rel S (o.bind g) (o.bind g') := by
  match o with
  | none => exact .none
  | some a => exact hg a rfl

end

/-- Bodies that do the same to related states, and leave with related results, do so in every
    iteration. -/
theorem run_rel {σ' : Type u} {ρ' : Type v} {body' : σ' → Option (σ' ⊕ ρ')} {R : σ → σ' → Prop}
    {S : ρ → ρ' → Prop}
    (hstep : ∀ s s', R s s' → Option.Rel (Sum.LiftRel R S) (body s) (body' s')) :
    ∀ {n : Nat} {s : σ} {s' : σ'}, R s s' →
      Option.Rel (Sum.LiftRel R S) (run body n s) (run body' n s') := by
  intro n
  induction n with
  | zero =>
    intro s s' h
    exact .some (.inl h)
  | succ n ih =>
    intro s s' h
    have hbody := hstep s s' h
    unfold run
    generalize body s = o at hbody
    generalize body' s' = o' at hbody
    cases hbody with
    | none => exact .none
    | some hrel =>
      -- both sides go on or both leave
      cases hrel with
      | inl hs => exact ih hs
      | inr hr => exact .some (.inr hr)

/-! ## What is seen on the way -/

/-- What `emit` sees of the states that at most `n` iterations begin with. -/
def trace {α : Type w} (body : σ → Option (σ ⊕ ρ)) (emit : σ → List α) : Nat → σ → List α
  | 0, _ => []
  | n + 1, s =>
    emit s ++ match body s with
      | some (.inl s') => trace body emit n s'
      | _ => []

section

variable {α : Type w} {emit : σ → List α} {P : α → Prop}

/-- The iterations after the first see a part of what is seen. -/
theorem mem_trace_of_next {n : Nat} {s s' : σ} {a : α} (h : body s = some (.inl s'))
    (ha : a ∈ trace body emit n s') : a ∈ trace body emit (n + 1) s := by
  simp only [trace, h, List.mem_append]
  exact .inr ha

/-- What a state emits is in the trace from it. -/
theorem mem_trace_of_emit {n : Nat} {s : σ} {a : α} (ha : a ∈ emit s) :
    a ∈ trace body emit (n + 1) s := by
  simp only [trace, List.mem_append]
  exact .inl ha

/-- Every state that a loop passes before it is left is seen. -/
theorem mem_trace_of_run {m : Nat} {s' : σ} {r : ρ} {a : α} (ha : a ∈ emit s') :
    ∀ {n : Nat} {s : σ}, run body n s = some (.inl s') → run body m s = some (.inr r) →
      a ∈ trace body emit m s := by
  intro n
  induction n generalizing m with
  | zero =>
    intro s h hr
    obtain rfl := Sum.inl.inj (Option.some.inj h)
    match m with
    | 0 => exact nomatch hr
    | m + 1 => exact mem_trace_of_emit ha
  | succ n ih =>
    intro s h hr
    obtain ⟨s₁, hb, h⟩ := exists_of_run_inl h
    match m with
    | 0 => exact nomatch hr
    | m + 1 =>
      -- the first turn of both runs is the same
      cases cases_of_run_inr hr with
      | inl hexited => exact nomatch hb.symm.trans hexited
      | inr hwent =>
        obtain ⟨s₂, hb', hr⟩ := hwent
        cases hb.symm.trans hb'
        exact mem_trace_of_next hb (ih h hr)

/-- Under an invariant everything seen has a property that all seen of one state has. -/
theorem forall_mem_trace (hemit : ∀ s, I s → ∀ a ∈ emit s, P a)
    (hstep : ∀ s s', I s → body s = some (.inl s') → I s') :
    ∀ {n : Nat} {s : σ}, I s → ∀ a ∈ trace body emit n s, P a := by
  intro n
  induction n with
  | zero => intro s _ a ha; exact absurd ha List.not_mem_nil
  | succ n ih =>
    intro s hs a ha
    simp only [trace, List.mem_append] at ha
    cases ha with
    | inl hseen => exact hemit s hs a hseen
    | inr hlater =>
      split at hlater
      · rename_i s' hb
        exact ih (hstep s s' hs hb) a hlater
      · exact absurd hlater List.not_mem_nil

/-- The invariant rule for a body that keeps the invariant where what is seen has a property. -/
theorem run_inr_of_trace
    (hstep : ∀ s s', I s → (∀ a ∈ emit s, P a) → body s = some (.inl s') → I s')
    (hexit : ∀ s r, I s → (∀ a ∈ emit s, P a) → body s = some (.inr r) → Q r) :
    ∀ {n : Nat} {s : σ} {r : ρ}, I s → (∀ a ∈ trace body emit n s, P a) →
      run body n s = some (.inr r) → Q r := by
  intro n
  induction n with
  | zero => intro s r _ _ h; exact nomatch h
  | succ n ih =>
    intro s r hs hP h
    have hfirst : ∀ a ∈ emit s, P a := fun a ha => hP a (mem_trace_of_emit ha)
    cases cases_of_run_inr h with
    | inl hexited => exact hexit s r hs hfirst hexited
    | inr hwent =>
      obtain ⟨s₁, hb, h⟩ := hwent
      exact ih (hstep s s₁ hs hfirst hb) (fun a ha => hP a (mem_trace_of_next hb ha)) h

/-- A loop over states that are mapped to others with the same iterations, where what is seen has
    a property. -/
theorem run_map_of_trace {φ : σ → σ} {ψ : ρ → ρ}
    (hstep : ∀ s s', I s → body s = some (.inl s') → I s')
    (hbody : ∀ s, I s → (∀ a ∈ emit s, P a) → body (φ s) = (body s).map (Sum.map φ ψ)) :
    ∀ {n : Nat} {s : σ}, I s → (∀ a ∈ trace body emit n s, P a) →
      run body n (φ s) = (run body n s).map (Sum.map φ ψ) := by
  intro n
  induction n with
  | zero => intro s _ _; rfl
  | succ n ih =>
    intro s hs hP
    -- the first turn answers to what it emits
    have hfirst := hbody s hs fun a ha => hP a (mem_trace_of_emit ha)
    match hb : body s with
    | none => simp [run, hfirst, hb]
    | some (.inr r) => simp [run, hfirst, hb]
    | some (.inl s₁) =>
      rw [hb] at hfirst
      rw [run_succ_of_inl hfirst, run_succ_of_inl hb]
      exact ih (hstep s s₁ hs hb) fun a ha => hP a (mem_trace_of_next hb ha)

end

/-! ## Number of iterations -/

/-- A body that does not fault, and decreases a measure whenever it goes on, leaves the loop after
    no more iterations than the measure says. -/
theorem run_returns (μ : σ → Nat)
    (hstep : ∀ s, I s → ∃ r, body s = some r ∧ ∀ s', r = .inl s' → I s' ∧ μ s' < μ s) :
    ∀ {n : Nat} {s : σ}, I s → μ s < n → ∃ r, run body n s = some (.inr r) := by
  intro n
  induction n with
  | zero => intro s _ hμ; omega
  | succ n ih =>
    intro s hs hμ
    obtain ⟨r, hb, hnext⟩ := hstep s hs
    cases r with
    | inr r => exact ⟨r, run_succ_of_inr hb⟩
    | inl s₁ =>
      obtain ⟨hs₁, hless⟩ := hnext s₁ rfl
      rw [run_succ_of_inl hb]
      exact ih hs₁ (by omega)

/-- A body that goes on from stage to stage and leaves at the last. -/
theorem run_stages {J : Nat → σ → Prop} {n : Nat}
    (hnext : ∀ k s, k < n → J k s → ∃ s', body s = some (.inl s') ∧ J (k + 1) s')
    (hlast : ∀ s, J n s → ∃ r, body s = some (.inr r) ∧ Q r) :
    ∀ {m k : Nat} {s : σ}, J k s → k ≤ n → n < k + m → ∃ r, run body m s = some (.inr r) ∧ Q r := by
  intro m
  induction m with
  | zero => intro k s _ hk hm; omega
  | succ m ih =>
    intro k s hs hk hm
    by_cases hlt : k < n
    · obtain ⟨s₁, hb, hs₁⟩ := hnext k s hlt hs
      rw [run_succ_of_inl hb]
      exact ih hs₁ hlt (by omega)
    · obtain rfl : k = n := by omega
      obtain ⟨r, hb, hr⟩ := hlast s hs
      exact ⟨r, run_succ_of_inr hb, hr⟩

/-- A body that goes on from every invariant state never leaves the loop. -/
theorem run_diverges (hstep : ∀ s, I s → ∃ s', body s = some (.inl s') ∧ I s') :
    ∀ (n : Nat) {s : σ}, I s → ∃ s', run body n s = some (.inl s') := by
  intro n
  induction n with
  | zero => intro s _; exact ⟨s, rfl⟩
  | succ n ih =>
    intro s hs
    obtain ⟨s₁, hb, hs₁⟩ := hstep s hs
    rw [run_succ_of_inl hb]
    exact ih hs₁

end Loop
