import Mathlib.Data.DFinsupp.WellFounded
import Mathlib.Logic.Relation
import Locache.Conc.Network

/-!
# Completion

A system completes when it comes to rest whichever steps are taken and whatever its environment does
between them: as long as it is not at rest some step is enabled, and it cannot go on stepping
forever (`Completes`). The second part needs a measure that every step lowers and that the
environment leaves alone (`Descent`); for threads that run programs the measure is what is left of
the programs (`wellFounded_shrinks`), so what remains to be shown is that the threads do not block
each other (`Run.completes`).
-/

namespace Conc

/-- However the steps are chosen and whatever the environment does between them, the system comes to
rest. -/
inductive Completes {C : Type} (env step : C → C → Prop) (rest : C → Prop) : C → Prop where
  | rest {c : C} (h : rest c) : Completes env step rest c
  | step {c : C} (ready : ∀ c₁, Relation.ReflTransGen env c c₁ → ∃ c₂, step c₁ c₂)
      (next : ∀ c₁ c₂, Relation.ReflTransGen env c c₁ → step c₁ c₂ → Completes env step rest c₂) :
      Completes env step rest c

/-- In the states that have `I`, every step lowers `μ`, the environment leaves it alone and cannot
bring the system to rest, and some step is enabled unless the system is at rest. -/
structure Descent {C A : Type} (env step : C → C → Prop) (rest : C → Prop) (r : A → A → Prop)
    (μ : C → A) (I : C → Prop) : Prop where
  env_inv : ∀ {c c'}, I c → env c c' → I c'
  env_same : ∀ {c c'}, I c → env c c' → μ c' = μ c
  env_rest : ∀ {c c'}, I c → env c c' → rest c' → rest c
  step_inv : ∀ {c c'}, I c → step c c' → I c'
  step_lower : ∀ {c c'}, I c → step c c' → r (μ c') (μ c)
  ready : ∀ {c}, I c → ¬ rest c → ∃ c', step c c'

namespace Descent

variable {C A : Type} {env step : C → C → Prop} {rest : C → Prop} {r : A → A → Prop} {μ : C → A}
  {I : C → Prop} {c c' : C}

/-- What several steps of the environment leave alone. -/
theorem envs (h : Descent env step rest r μ I) (hc : I c) (hs : Relation.ReflTransGen env c c') :
    I c' ∧ μ c' = μ c ∧ (rest c' → rest c) := by
  induction hs with
  | refl => exact ⟨hc, rfl, id⟩
  | tail _ hlast ih =>
    obtain ⟨hI, hμ, hr⟩ := ih
    refine ⟨h.env_inv hI hlast, (h.env_same hI hlast).trans hμ, ?_⟩
    intro hrest
    exact hr (h.env_rest hI hlast hrest)

/-- **Where every step descends, the system completes.** -/
theorem completes (h : Descent env step rest r μ I) (hr : WellFounded r) (hc : I c) :
    Completes env step rest c := by
  generalize hm : μ c = m
  induction m using hr.induction generalizing c with
  | _ m ih =>
    by_cases hrest : rest c
    · exact .rest hrest
    · refine .step ?_ ?_
      · intro c₁ hs
        obtain ⟨hI, -, hback⟩ := h.envs hc hs
        apply h.ready hI
        intro hrest'
        exact hrest (hback hrest')
      · intro c₁ c₂ hs hstep
        obtain ⟨hI, hμ, -⟩ := h.envs hc hs
        have hlow := h.step_lower hI hstep
        rw [hμ, hm] at hlow
        exact ih _ hlow (h.step_inv hI hstep) rfl

end Descent

/-! ## What is left of the programs -/

section Shrinks

variable {S : Sig} {α T : Type}

/-- What is left of a thread's program after a step of it. -/
inductive After : Option (Prog S α) → Option (Prog S α) → Prop where
  | act {o : S.Op} {k : S.Ans o → Prog S α} (a : S.Ans o) : After (some (k a)) (some (.act o k))
  | ended (p : Prog S α) : After none (some p)

theorem After.ne_none {q p : Option (Prog S α)} (h : After q p) : p ≠ none := by
  cases h <;> simp

theorem wellFounded_after : WellFounded (After (S := S) (α := α)) := by
  have hnone : Acc (After (S := S) (α := α)) none := by
    constructor
    intro y hy
    cases hy
  constructor
  intro x
  cases x with
  | none => exact hnone
  | some p =>
    induction p with
    | ret a =>
      constructor
      intro y hy
      cases hy
      exact hnone
    | raise e =>
      constructor
      intro y hy
      cases hy
      exact hnone
    | act o k ih =>
      constructor
      intro y hy
      cases hy with
      | act a => exact ih a
      | ended => exact hnone

/-- Finitely many threads are running, and one of them has made a step. -/
def Shrinks (f' f : T → Option (Prog S α)) : Prop :=
  {t | f t ≠ none}.Finite ∧ ∃ t, After (f' t) (f t) ∧ ∀ u, u ≠ t → f' u = f u

theorem acc_shrinks {s : Set T} (hs : s.Finite) {f : T → Option (Prog S α)}
    (hf : ∀ t, t ∉ s → f t = none) : Acc Shrinks f := by
  have : Finite s := hs
  have hwf : WellFounded (Pi.Lex (β := fun _ : s => Option (Prog S α)) WellOrderingRel
    fun {_} => After) := Pi.Lex.wellFounded _ fun _ => wellFounded_after
  -- the induction is on what is left of the threads in `s`
  generalize hg : (fun t : s => f t) = g
  induction g using hwf.induction generalizing f with
  | _ g ih =>
    subst hg
    constructor
    rintro f' ⟨-, t, hafter, hsame⟩
    have ht : t ∈ s := by
      by_contra hnot
      exact hafter.ne_none (hf t hnot)
    refine ih (fun t : s => f' t) ⟨⟨t, ht⟩, ?_, hafter⟩ ?_ rfl
    · intro u hu
      apply hsame
      rintro rfl
      exact irrefl _ hu
    · intro u hu
      rw [hsame u (by rintro rfl; exact hu ht), hf u hu]

/-- Threads cannot go on making steps forever. -/
theorem wellFounded_shrinks : WellFounded (Shrinks (S := S) (α := α) (T := T)) := by
  constructor
  intro f
  constructor
  intro f' hf'
  have hf : Acc Shrinks f := by
    apply acc_shrinks hf'.1
    intro t ht
    simpa using ht
  exact hf.inv hf'

theorem Shrinks.update [DecidableEq T] {f : T → Option (Prog S α)} {t : T} {q : Option (Prog S α)}
    (hfin : {t | f t ≠ none}.Finite) (ha : After q (f t)) : Shrinks (Function.update f t q) f := by
  refine ⟨hfin, t, ?_, ?_⟩
  · rw [Function.update_self]
    exact ha
  · intro u hu
    exact Function.update_of_ne hu _ _

end Shrinks

/-! ## The threads of a machine -/

variable {S : Sig} {M : Machine S}

/-- A step of a thread that is running. -/
def Label.works : Label M → Bool
  | .act _ _ | .ret _ _ => true
  | _ => false

/-- No thread is running. -/
def Config.Quiet (c : Config M) : Prop := ∀ t, c.threads t = none

/-- Some running thread makes a step. -/
def Config.Works (c c' : Config M) : Prop := ∃ cmd ℓ, c.step cmd = some (ℓ, c') ∧ ℓ.works = true

/-- The environment changes the state. -/
def Config.Drifts (c c' : Config M) : Prop := ∃ cmd e, c.step cmd = some (.env e, c')

/-- The threads that are running come to an end if no others are started. -/
abbrev Config.Completes (c : Config M) : Prop :=
  Conc.Completes (Config.Drifts (M := M)) Config.Works Config.Quiet c

theorem Config.drifts_eq {c c' : Config M} (h : c.Drifts c') :
    c'.threads = c.threads ∧ c'.next = c.next := by
  obtain ⟨cmd, e, hstep⟩ := h
  cases Config.steps_of_step hstep with
  | env hx => exact ⟨rfl, rfl⟩

/-- A step of a thread takes one action off its program, or ends it. -/
theorem Config.after_of_works {c c' : Config M} {ℓ : Label M} (h : Steps c ℓ c')
    (hℓ : ℓ.works = true) : ∃ t q, After q (c.threads t) ∧
      c'.threads = Function.update c.threads t q := by
  cases h with
  | spawn call => cases hℓ
  | @act t o k i a σ ht hx =>
    refine ⟨t, some (k a), ?_, rfl⟩
    rw [ht]
    exact .act a
  | @ret t a ht =>
    refine ⟨t, none, ?_, rfl⟩
    rw [ht]
    exact .ended _
  | @raise t e ht =>
    refine ⟨t, none, ?_, rfl⟩
    rw [ht]
    exact .ended _
  | env hx => cases hℓ

/-- What a thread does when it is its turn. -/
theorem Config.works_of_run {c c' : Config M} {t : Nat} {i : M.Inp} {ℓ : Label M}
    (h : c.step (.run t i) = some (ℓ, c')) :
    ℓ.works = true ∧ ∀ u e, ℓ = .act u e → ∃ k, c.threads t = some (.act e.op k) := by
  simp only [Config.step] at h
  split at h
  · cases h
  · cases h
    exact ⟨rfl, fun _ _ heq => by cases heq⟩
  · cases h
    exact ⟨rfl, fun _ _ heq => by cases heq⟩
  · next o k ht =>
    split at h
    · cases h
    · cases h
      refine ⟨rfl, ?_⟩
      rintro u e ⟨⟩
      exact ⟨k, ht⟩

theorem Run.finite_threads {G : Guard M} {σ : M.State} {c : Config M} {tr : List (Label M)}
    (h : Run G σ c tr) : {t | c.threads t ≠ none}.Finite := by
  refine (Set.finite_lt_nat c.next).subset ?_
  intro t ht
  by_contra hle
  exact ht (h.unused t (Nat.not_lt.1 hle)).1

/-- **Threads that do not block each other come to an end.** -/
theorem Run.completes {σ : M.State} (hready : ∀ {c tr}, Run Free σ c tr → ¬ c.Quiet →
    ∃ c', Config.Works c c') {c : Config M} {tr : List (Label M)} (h : Run Free σ c tr) :
    c.Completes := by
  refine Descent.completes (r := Shrinks) (μ := Config.threads)
    (I := fun c => ∃ tr, Run Free σ c tr) ⟨?_, ?_, ?_, ?_, ?_, ?_⟩ wellFounded_shrinks ⟨tr, h⟩
  · rintro c c' ⟨tr, h⟩ ⟨cmd, e, hstep⟩
    exact ⟨_, .step cmd h hstep trivial⟩
  · intro c c' _ henv
    exact (Config.drifts_eq henv).1
  · intro c c' _ henv hrest t
    rw [← (Config.drifts_eq henv).1]
    exact hrest t
  · rintro c c' ⟨tr, h⟩ ⟨cmd, ℓ, hstep, -⟩
    exact ⟨_, .step cmd h hstep trivial⟩
  · rintro c c' ⟨tr, h⟩ ⟨cmd, ℓ, hstep, hℓ⟩
    obtain ⟨t, q, hafter, heq⟩ := Config.after_of_works (Config.steps_of_step hstep) hℓ
    rw [heq]
    exact .update h.finite_threads hafter
  · rintro c ⟨tr, h⟩ hq
    exact hready h hq

end Conc
