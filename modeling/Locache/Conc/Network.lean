import Locache.Conc.Machine

/-!
# Machines in a network

A network is a family of machines. A step of the network is a step of one of them that the network
admits, given what has happened so far everywhere (`NetGuard`). What one machine does in a run of
the network is a run of its own (`NetRun.node`), so what holds in all runs of a machine holds in a
network.
-/

namespace Conc

variable {S : Sig} {ι : Type} [DecidableEq ι] {M : ι → Machine S}

/-- A step of one of the machines. -/
abbrev NetLabel (M : ι → Machine S) := (a : ι) × Label (M a)

/-- What machine `a` did in a trace of the network. -/
def localTrace (a : ι) : List (NetLabel M) → List (Label (M a))
  | [] => []
  | ⟨b, ℓ⟩ :: tr => if h : b = a then (h ▸ ℓ) :: localTrace a tr else localTrace a tr

section LocalTrace

variable {a b : ι} {tr : List (NetLabel M)}

@[simp] theorem localTrace_nil : localTrace a ([] : List (NetLabel M)) = [] := rfl

@[simp] theorem localTrace_self {ℓ : Label (M a)} :
    localTrace a (⟨a, ℓ⟩ :: tr) = ℓ :: localTrace a tr := by
  simp [localTrace]

theorem localTrace_ne {ℓ : Label (M b)} (h : b ≠ a) :
    localTrace a (⟨b, ℓ⟩ :: tr) = localTrace a tr := by
  simp [localTrace, h]

theorem localTrace_append (A B : List (NetLabel M)) :
    localTrace a (A ++ B) = localTrace a A ++ localTrace a B := by
  induction A with
  | nil => rfl
  | cons x A ih =>
    obtain ⟨b, ℓ⟩ := x
    by_cases h : b = a
    · subst h
      simp [ih]
    · simp [localTrace_ne h, ih]

/-- A step is in the trace of its machine exactly when it is in that of the network. -/
theorem mem_localTrace {ℓ : Label (M a)} : ℓ ∈ localTrace a tr ↔ ⟨a, ℓ⟩ ∈ tr := by
  induction tr with
  | nil => simp
  | cons x tr ih =>
    obtain ⟨b, ℓ'⟩ := x
    by_cases h : b = a
    · subst h
      simp [ih]
    · rw [localTrace_ne h, ih, List.mem_cons]
      constructor
      · exact Or.inr
      · rintro (heq | hm)
        · cases heq
          exact absurd rfl h
        · exact hm

/-- The trace of the network can be cut where that of a machine can. -/
theorem exists_of_localTrace_append {ℓ : Label (M a)} {X Y : List (Label (M a))}
    (h : localTrace a tr = X ++ ℓ :: Y) :
    ∃ A B, tr = A ++ ⟨a, ℓ⟩ :: B ∧ localTrace a A = X ∧ localTrace a B = Y := by
  induction tr generalizing X with
  | nil => simp at h
  | cons x tr ih =>
    obtain ⟨b, ℓ'⟩ := x
    by_cases hba : b = a
    · subst hba
      rw [localTrace_self] at h
      cases X with
      | nil =>
        obtain ⟨rfl, hrest⟩ := List.cons.inj h
        exact ⟨[], tr, rfl, rfl, hrest⟩
      | cons ℓ'' X =>
        obtain ⟨rfl, hrest⟩ := List.cons.inj h
        obtain ⟨A, B, rfl, hA, hB⟩ := ih hrest
        exact ⟨⟨b, ℓ'⟩ :: A, B, rfl, by rw [localTrace_self, hA], hB⟩
    · rw [localTrace_ne hba] at h
      obtain ⟨A, B, rfl, hA, hB⟩ := ih h
      exact ⟨⟨b, ℓ'⟩ :: A, B, rfl, by rw [localTrace_ne hba, hA], hB⟩

end LocalTrace

/-- A condition on single steps of a network: the trace of the network before, the machine, its
state before, the label and its state after. -/
abbrev NetGuard (M : ι → Machine S) :=
  List (NetLabel M) → (a : ι) → (M a).State → Label (M a) → (M a).State → Prop

/-- The runs of a network from the states `σ`, all of whose steps meet `N`. -/
inductive NetRun (N : NetGuard M) (σ : ∀ a, (M a).State) :
    (∀ a, Config (M a)) → List (NetLabel M) → Prop where
  | start : NetRun N σ (fun a => .start (σ a)) []
  | step {c : ∀ a, Config (M a)} {tr : List (NetLabel M)} {a : ι} {ℓ : Label (M a)}
      {c' : Config (M a)} (cmd : Cmd (M a)) (prior : NetRun N σ c tr)
      (hstep : (c a).step cmd = some (ℓ, c')) (hguard : N tr a (c a).state ℓ c'.state) :
      NetRun N σ (Function.update c a c') (⟨a, ℓ⟩ :: tr)

section NetRun

variable {N : NetGuard M} {σ : ∀ a, (M a).State} {c : ∀ a, Config (M a)} {tr : List (NetLabel M)}

/-- **What one machine does in a network is a run of its own.** -/
theorem NetRun.node {a : ι} {G : Guard (M a)}
    (hG : ∀ tr s ℓ s', N tr a s ℓ s' → G (localTrace a tr) s ℓ s') (h : NetRun N σ c tr) :
    Run G (σ a) (c a) (localTrace a tr) := by
  induction h with
  | start => exact .start
  | @step c tr b ℓ c' cmd prior hstep hguard ih =>
    by_cases hba : b = a
    · subst hba
      rw [Function.update_self, localTrace_self]
      exact .step cmd ih hstep (hG _ _ _ _ hguard)
    · rw [Function.update_of_ne (Ne.symm hba), localTrace_ne hba]
      exact ih

/-- A guard may be weakened. -/
theorem NetRun.mono {N' : NetGuard M} (hN : ∀ tr a s ℓ s', N tr a s ℓ s' → N' tr a s ℓ s')
    (h : NetRun N σ c tr) : NetRun N' σ c tr := by
  induction h with
  | start => exact .start
  | step cmd _ hstep hguard ih => exact .step cmd ih hstep (hN _ _ _ _ _ hguard)

/-- A run of a network can be cut at any of its steps. -/
theorem NetRun.split {A B : List (NetLabel M)} {a : ι} {ℓ : Label (M a)}
    (h : NetRun N σ c (A ++ ⟨a, ℓ⟩ :: B)) :
    ∃ c₁ cmd c', NetRun N σ c₁ B ∧ (c₁ a).step cmd = some (ℓ, c') ∧
      N B a (c₁ a).state ℓ c'.state := by
  induction A generalizing c with
  | nil =>
    cases h with
    | @step c₁ _ _ _ c' cmd prior hstep hguard => exact ⟨c₁, cmd, c', prior, hstep, hguard⟩
  | cons x A ih =>
    cases h with
    | step _ prior _ _ => exact ih prior

end NetRun

/-! ## Schedules -/

/-- Run a schedule, checking every step. -/
def netSteps (ok : List (NetLabel M) → (a : ι) → (M a).State → Label (M a) → Bool)
    (c : ∀ a, Config (M a)) (tr : List (NetLabel M)) :
    List ((a : ι) × Cmd (M a)) → Option ((∀ a, Config (M a)) × List (NetLabel M))
  | [] => some (c, tr)
  | ⟨a, cmd⟩ :: cmds =>
    match (c a).step cmd with
    | none => none
    | some (ℓ, c') =>
      if ok tr a (c a).state ℓ then netSteps ok (Function.update c a c') (⟨a, ℓ⟩ :: tr) cmds
      else none

theorem NetRun.steps {N : NetGuard M}
    {ok : List (NetLabel M) → (a : ι) → (M a).State → Label (M a) → Bool}
    (hok : ∀ tr a s ℓ s', ok tr a s ℓ = true → N tr a s ℓ s') {σ : ∀ a, (M a).State}
    {c c' : ∀ a, Config (M a)} {tr tr' : List (NetLabel M)} {cmds : List ((a : ι) × Cmd (M a))}
    (h : NetRun N σ c tr) (hs : netSteps ok c tr cmds = some (c', tr')) : NetRun N σ c' tr' := by
  induction cmds generalizing c tr with
  | nil =>
    simp only [netSteps, Option.some.injEq, Prod.mk.injEq] at hs
    obtain ⟨rfl, rfl⟩ := hs
    exact h
  | cons x cmds ih =>
    obtain ⟨a, cmd⟩ := x
    simp only [netSteps] at hs
    cases hc : (c a).step cmd with
    | none => simp [hc] at hs
    | some out =>
      obtain ⟨ℓ, c₁⟩ := out
      rw [hc] at hs
      simp only at hs
      split at hs
      · next hcheck => exact ih (.step cmd h hc (hok _ _ _ _ _ hcheck)) hs
      · cases hs

/-- The same, when what is checked of a step and the step itself tell that it meets the guard. -/
theorem NetRun.steps_of_step {N : NetGuard M}
    {ok : List (NetLabel M) → (a : ι) → (M a).State → Label (M a) → Bool}
    (hok : ∀ tr a (c c' : Config (M a)) cmd ℓ, c.step cmd = some (ℓ, c') →
      ok tr a c.state ℓ = true → N tr a c.state ℓ c'.state) {σ : ∀ a, (M a).State}
    {c c' : ∀ a, Config (M a)} {tr tr' : List (NetLabel M)} {cmds : List ((a : ι) × Cmd (M a))}
    (h : NetRun N σ c tr) (hs : netSteps ok c tr cmds = some (c', tr')) : NetRun N σ c' tr' := by
  induction cmds generalizing c tr with
  | nil =>
    simp only [netSteps, Option.some.injEq, Prod.mk.injEq] at hs
    obtain ⟨rfl, rfl⟩ := hs
    exact h
  | cons x cmds ih =>
    obtain ⟨a, cmd⟩ := x
    simp only [netSteps] at hs
    cases hc : (c a).step cmd with
    | none => simp [hc] at hs
    | some out =>
      obtain ⟨ℓ, c₁⟩ := out
      rw [hc] at hs
      simp only at hs
      split at hs
      · next hcheck => exact ih (.step cmd h hc (hok _ _ _ _ _ _ hc hcheck)) hs
      · cases hs

end Conc
