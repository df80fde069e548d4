import Locache.Conc.Prog

/-!
# Threads over a shared state

A machine gives the actions of a signature a meaning on a shared state and names the programs that
may be started (`Machine`). A configuration holds the state and what is left of every running
program; a step starts a program, performs one action of one thread, ends a thread, or lets the
environment change the state (`Config.step`). Any number of threads may run, in any interleaving.

`Run G σ c tr` says that the configuration `c` is reached from the state `σ` with the trace `tr`
(newest label first), every step meeting the guard `G`; the unguarded runs are `Run Free`.

A thread's own actions (`hist`) determine what is left of its program (`Run.thread`), so what a
thread knows is a statement about its own actions, and no step of another thread can break it. The
invariant rule `Run.inv` uses this: an invariant of the shared state and the trace has to be kept
by single actions only, each under what the program logic says of the thread that performs it.
-/

namespace Conc

/-- What the actions do and which programs may run. -/
structure Machine (S : Sig) where
  State : Type
  Inp : Type
  Env : Type
  Call : Type
  Res : Type
  exec : (o : S.Op) → Inp → State → Option (S.Ans o × State)
  env : Env → State → Option State
  prog : Call → Prog S Res

variable {S : Sig} {M : Machine S}

/-- An observable step. -/
inductive Label (M : Machine S) where
  | spawn (t : Nat) (c : M.Call)
  | act (t : Nat) (e : Ev S M.Inp)
  | ret (t : Nat) (r : Except S.Exn M.Res)
  | env (e : M.Env)

/-- The shared state and the running programs; thread ids below `next` have been used. -/
structure Config (M : Machine S) where
  state : M.State
  threads : Nat → Option (Prog S M.Res)
  next : Nat

/-- What the scheduler may ask for. -/
inductive Cmd (M : Machine S) where
  | spawn (c : M.Call)
  | run (t : Nat) (i : M.Inp)
  | env (e : M.Env)

/-- No thread has been started. -/
def Config.start (σ : M.State) : Config M := ⟨σ, fun _ => none, 0⟩

/-- One step, with its label; `none` when the step is not enabled. -/
def Config.step (c : Config M) : Cmd M → Option (Label M × Config M)
  | .spawn call =>
    some (.spawn c.next call,
      ⟨c.state, Function.update c.threads c.next (some (M.prog call)), c.next + 1⟩)
  | .run t i =>
    match c.threads t with
    | none => none
    | some (.ret a) => some (.ret t (.ok a), { c with threads := Function.update c.threads t none })
    | some (.raise e) =>
      some (.ret t (.error e), { c with threads := Function.update c.threads t none })
    | some (.act o k) =>
      match M.exec o i c.state with
      | none => none
      | some (a, σ) =>
        some (.act t ⟨o, i, a⟩, ⟨σ, Function.update c.threads t (some (k a)), c.next⟩)
  | .env e => (M.env e c.state).map fun σ => (.env e, { c with state := σ })

/-- A condition on single steps: the trace and state before, the label, the state after. -/
abbrev Guard (M : Machine S) := List (Label M) → M.State → Label M → M.State → Prop

/-- No condition. -/
def Free : Guard M := fun _ _ _ _ => True

/-- The runs from `σ` all of whose steps meet `G`. -/
inductive Run (G : Guard M) (σ : M.State) : Config M → List (Label M) → Prop where
  | start : Run G σ (.start σ) []
  | step {c c' : Config M} {tr : List (Label M)} {ℓ : Label M} (cmd : Cmd M)
      (prior : Run G σ c tr) (hstep : c.step cmd = some (ℓ, c'))
      (hguard : G tr c.state ℓ c'.state) : Run G σ c' (ℓ :: tr)

/-- Run a schedule, checking every step. -/
def Config.stepsIf (ok : List (Label M) → M.State → Label M → Bool) (c : Config M)
    (tr : List (Label M)) : List (Cmd M) → Option (Config M × List (Label M))
  | [] => some (c, tr)
  | cmd :: cmds =>
    match c.step cmd with
    | none => none
    | some (ℓ, c') => if ok tr c.state ℓ then c'.stepsIf ok (ℓ :: tr) cmds else none

/-- Run a schedule. -/
abbrev Config.steps (c : Config M) (tr : List (Label M)) (cmds : List (Cmd M)) :
    Option (Config M × List (Label M)) := c.stepsIf (fun _ _ _ => true) tr cmds

theorem Run.stepsIf {G : Guard M} {ok : List (Label M) → M.State → Label M → Bool}
    (hok : ∀ tr σ ℓ σ', ok tr σ ℓ = true → G tr σ ℓ σ') {σ : M.State} {c : Config M}
    {tr : List (Label M)} (h : Run G σ c tr) {cmds : List (Cmd M)} {c' : Config M}
    {tr' : List (Label M)} (hs : c.stepsIf ok tr cmds = some (c', tr')) : Run G σ c' tr' := by
  induction cmds generalizing c tr with
  | nil =>
    simp only [Config.stepsIf, Option.some.injEq, Prod.mk.injEq] at hs
    obtain ⟨rfl, rfl⟩ := hs
    exact h
  | cons cmd cmds ih =>
    simp only [Config.stepsIf] at hs
    cases hc : c.step cmd with
    | none => simp [hc] at hs
    | some out =>
      obtain ⟨ℓ, c₁⟩ := out
      rw [hc] at hs
      simp only at hs
      split at hs
      · next hcheck => exact ih (.step cmd h hc (hok _ _ _ _ hcheck)) hs
      · cases hs

theorem Run.steps {σ : M.State} {c : Config M} {tr : List (Label M)} (h : Run Free σ c tr)
    {cmds : List (Cmd M)} {c' : Config M} {tr' : List (Label M)}
    (hs : c.steps tr cmds = some (c', tr')) : Run Free σ c' tr' :=
  h.stepsIf (fun _ _ _ _ _ => trivial) hs

/-- A run whose steps meet a guard meets every weaker one. -/
theorem Run.mono {G G' : Guard M} (hG : ∀ tr σ ℓ σ', G tr σ ℓ σ' → G' tr σ ℓ σ') {σ : M.State}
    {c : Config M} {tr : List (Label M)} (h : Run G σ c tr) : Run G' σ c tr := by
  induction h with
  | start => exact .start
  | step cmd _ hstep hguard ih => exact .step cmd ih hstep (hG _ _ _ _ hguard)

/-- A guard that looks at the label only holds of every label of the trace. -/
theorem Run.forall_mem {G : Guard M} {P : Label M → Prop} (hG : ∀ tr σ ℓ σ', G tr σ ℓ σ' → P ℓ)
    {σ : M.State} {c : Config M} {tr : List (Label M)} (h : Run G σ c tr) : ∀ ℓ ∈ tr, P ℓ := by
  induction h with
  | start => simp
  | step cmd _ _ hguard ih => exact List.forall_mem_cons.2 ⟨hG _ _ _ _ hguard, ih⟩

/-! ## What one step can do -/

/-- Everything a step can do, guards included. -/
inductive Steps (c : Config M) : Label M → Config M → Prop where
  | spawn (call : M.Call) : Steps c (.spawn c.next call)
      ⟨c.state, Function.update c.threads c.next (some (M.prog call)), c.next + 1⟩
  | act {t : Nat} {o : S.Op} {k : S.Ans o → Prog S M.Res} {i : M.Inp} {a : S.Ans o} {σ : M.State}
      (ht : c.threads t = some (.act o k)) (hx : M.exec o i c.state = some (a, σ)) :
      Steps c (.act t ⟨o, i, a⟩) ⟨σ, Function.update c.threads t (some (k a)), c.next⟩
  | ret {t : Nat} {a : M.Res} (ht : c.threads t = some (.ret a)) :
      Steps c (.ret t (.ok a)) { c with threads := Function.update c.threads t none }
  | raise {t : Nat} {e : S.Exn} (ht : c.threads t = some (.raise e)) :
      Steps c (.ret t (.error e)) { c with threads := Function.update c.threads t none }
  | env {e : M.Env} {σ : M.State} (hx : M.env e c.state = some σ) :
      Steps c (.env e) { c with state := σ }

theorem Config.steps_of_step {c c' : Config M} {cmd : Cmd M} {ℓ : Label M}
    (h : c.step cmd = some (ℓ, c')) : Steps c ℓ c' := by
  cases cmd with
  | spawn call =>
    simp only [Config.step, Option.some.injEq, Prod.mk.injEq] at h
    obtain ⟨rfl, rfl⟩ := h
    exact .spawn call
  | run t i =>
    simp only [Config.step] at h
    split at h
    · cases h
    · next a ht =>
      simp only [Option.some.injEq, Prod.mk.injEq] at h
      obtain ⟨rfl, rfl⟩ := h
      exact .ret ht
    · next e ht =>
      simp only [Option.some.injEq, Prod.mk.injEq] at h
      obtain ⟨rfl, rfl⟩ := h
      exact .raise ht
    · next o k ht =>
      split at h
      · cases h
      · next a σ hx =>
        simp only [Option.some.injEq, Prod.mk.injEq] at h
        obtain ⟨rfl, rfl⟩ := h
        exact .act ht hx
  | env e =>
    simp only [Config.step, Option.map_eq_some_iff, Prod.mk.injEq] at h
    obtain ⟨σ, hx, rfl, rfl⟩ := h
    exact .env hx

/-! ## The states of a run -/

/-- The state a trace leads to. -/
def Machine.replay (M : Machine S) (σ : M.State) : List (Label M) → M.State
  | [] => σ
  | .act _ e :: tr => (M.exec e.op e.inp (M.replay σ tr)).elim (M.replay σ tr) Prod.snd
  | .env e :: tr => (M.env e (M.replay σ tr)).getD (M.replay σ tr)
  | _ :: tr => M.replay σ tr

theorem Run.replay {G : Guard M} {σ : M.State} {c : Config M} {tr : List (Label M)}
    (h : Run G σ c tr) : M.replay σ tr = c.state := by
  induction h with
  | start => rfl
  | step cmd _ hstep _ ih =>
    cases Config.steps_of_step hstep with
    | spawn call => exact ih
    | act ht hx => rw [Machine.replay, ih, hx, Option.elim_some]
    | ret ht => exact ih
    | raise ht => exact ih
    | env hx => rw [Machine.replay, ih, hx, Option.getD_some]

/-! ## A thread's own actions -/

/-- The actions of thread `t` in a trace, newest first. -/
def hist : List (Label M) → Nat → List (Ev S M.Inp)
  | [], _ => []
  | .act u e :: tr, t => if u = t then e :: hist tr t else hist tr t
  | _ :: tr, t => hist tr t

/-- The call thread `t` was started with. -/
def callOf : List (Label M) → Nat → Option M.Call
  | [], _ => none
  | .spawn u c :: tr, t => if u = t then some c else callOf tr t
  | _ :: tr, t => callOf tr t

section Hist

variable {tr : List (Label M)} {t u : Nat} {e : Ev S M.Inp} {call : M.Call}
  {r : Except S.Exn M.Res} {v : M.Env}

@[simp] theorem hist_nil : hist ([] : List (Label M)) t = [] := rfl
@[simp] theorem hist_act_self : hist (.act t e :: tr) t = e :: hist tr t := by simp [hist]
theorem hist_act_ne (h : u ≠ t) : hist (.act u e :: tr) t = hist tr t := by simp [hist, h]
@[simp] theorem hist_spawn : hist (.spawn u call :: tr) t = hist tr t := rfl
@[simp] theorem hist_ret : hist (.ret u r :: tr) t = hist tr t := rfl
@[simp] theorem hist_env : hist (.env v :: tr) t = hist tr t := rfl

@[simp] theorem callOf_nil : callOf ([] : List (Label M)) t = none := rfl
@[simp] theorem callOf_spawn_self : callOf (.spawn t call :: tr) t = some call := by simp [callOf]
theorem callOf_spawn_ne (h : u ≠ t) : callOf (.spawn u call :: tr) t = callOf tr t := by
  simp [callOf, h]
@[simp] theorem callOf_act : callOf (.act u e :: tr) t = callOf tr t := rfl
@[simp] theorem callOf_ret : callOf (.ret u r :: tr) t = callOf tr t := rfl
@[simp] theorem callOf_env : callOf (.env v :: tr) t = callOf tr t := rfl

theorem hist_append (A B : List (Label M)) (t : Nat) : hist (A ++ B) t = hist A t ++ hist B t := by
  induction A with
  | nil => rfl
  | cons ℓ A ih =>
    cases ℓ with
    | act u f =>
      by_cases h : u = t
      · subst h; simp [ih]
      · simp [hist_act_ne h, ih]
    | _ => simpa using ih

theorem hist_suffix {A B : List (Label M)} (h : A <:+ B) (t : Nat) : hist A t <:+ hist B t := by
  obtain ⟨l, rfl⟩ := h
  rw [hist_append]
  exact List.suffix_append _ _

/-- An action is in its thread's own history exactly when it is in the trace. -/
theorem mem_hist : e ∈ hist tr t ↔ Label.act t e ∈ tr := by
  induction tr with
  | nil => simp
  | cons ℓ tr ih =>
    cases ℓ with
    | act u f =>
      by_cases h : u = t
      · subst h; simp [ih]
      · have hne : t ≠ u := fun e => h e.symm
        simp [hist_act_ne h, ih, hne]
    | _ => simp [ih]

theorem mem_of_callOf (h : callOf tr t = some call) : .spawn t call ∈ tr := by
  induction tr with
  | nil => cases h
  | cons ℓ tr ih =>
    cases ℓ with
    | spawn u call' =>
      by_cases hut : u = t
      · subst hut
        rw [callOf_spawn_self] at h
        cases h
        exact List.mem_cons_self ..
      · rw [callOf_spawn_ne hut] at h
        exact List.mem_cons_of_mem _ (ih h)
    | _ => exact List.mem_cons_of_mem _ (ih h)

/-- A trace can be cut where a thread's own history can. -/
theorem exists_of_hist_append {X Y : List (Ev S M.Inp)} (h : hist tr t = X ++ e :: Y) :
    ∃ A B, tr = A ++ .act t e :: B ∧ hist A t = X ∧ hist B t = Y := by
  induction tr generalizing X with
  | nil => simp at h
  | cons ℓ tr ih =>
    have hskip : hist tr t = X ++ e :: Y → hist [ℓ] t = [] →
        ∃ A B, ℓ :: tr = A ++ .act t e :: B ∧ hist A t = X ∧ hist B t = Y := by
      intro h hℓ
      obtain ⟨A, B, rfl, hA, hB⟩ := ih h
      refine ⟨ℓ :: A, B, rfl, ?_, hB⟩
      rw [← List.singleton_append, hist_append, hℓ, hA, List.nil_append]
    cases ℓ with
    | act u f =>
      by_cases hut : u = t
      · subst hut
        rw [hist_act_self] at h
        cases X with
        | nil =>
          cases h
          exact ⟨[], tr, rfl, rfl, rfl⟩
        | cons f' X =>
          obtain ⟨rfl, hrest⟩ := List.cons.inj h
          obtain ⟨A, B, rfl, hA, hB⟩ := ih hrest
          exact ⟨.act u f :: A, B, rfl, by rw [hist_act_self, hA], hB⟩
      · rw [hist_act_ne hut] at h
        exact hskip h (hist_act_ne hut)
    | _ => exact hskip h rfl

end Hist

/-! ## Threads of a run -/

section Threads

variable {G : Guard M} {σ : M.State} {c : Config M} {tr : List (Label M)}

/-- Ids that have not been used have no call, no program and no actions. -/
theorem Run.unused (h : Run G σ c tr) :
    ∀ t, c.next ≤ t → c.threads t = none ∧ callOf tr t = none ∧ hist tr t = [] := by
  induction h with
  | start => exact fun t _ => ⟨rfl, rfl, rfl⟩
  | step cmd _ hstep _ ih =>
    intro t ht
    cases Config.steps_of_step hstep with
    | spawn call =>
      simp only at ht
      obtain ⟨h1, h2, h3⟩ := ih t (by omega)
      exact ⟨by simp only; rw [Function.update_of_ne (by omega)]; exact h1,
        by rw [callOf_spawn_ne (by omega)]; exact h2, h3⟩
    | @act u o k i a σ hu hx =>
      simp only at ht
      obtain ⟨h1, h2, h3⟩ := ih t ht
      have hne : u ≠ t := by rintro rfl; rw [h1] at hu; cases hu
      refine ⟨?_, h2, ?_⟩
      · simp only
        rw [Function.update_of_ne hne.symm]
        exact h1
      · rw [hist_act_ne hne]
        exact h3
    | @ret u a hu =>
      obtain ⟨h1, h2, h3⟩ := ih t ht
      have hne : u ≠ t := by rintro rfl; rw [h1] at hu; cases hu
      exact ⟨by simp only; rw [Function.update_of_ne hne.symm]; exact h1, h2, h3⟩
    | @raise u a hu =>
      obtain ⟨h1, h2, h3⟩ := ih t ht
      have hne : u ≠ t := by rintro rfl; rw [h1] at hu; cases hu
      exact ⟨by simp only; rw [Function.update_of_ne hne.symm]; exact h1, h2, h3⟩
    | env hx => exact ih t ht

/-- What is left of a thread's program is where its own actions lead. -/
theorem Run.thread (h : Run G σ c tr) : ∀ {t : Nat} {p : Prog S M.Res}, c.threads t = some p →
    ∃ call, callOf tr t = some call ∧ (M.prog call).Leads (hist tr t) p := by
  induction h with
  | start => intro t p ht; cases ht
  | @step c c' tr ℓ cmd prior hstep _ ih =>
    intro t p ht
    cases Config.steps_of_step hstep with
    | spawn call =>
      simp only at ht
      by_cases htn : t = c.next
      · subst htn
        rw [Function.update_self] at ht
        cases ht
        refine ⟨call, callOf_spawn_self, ?_⟩
        rw [hist_spawn, (prior.unused _ (Nat.le_refl _)).2.2]
        exact .refl
      · rw [Function.update_of_ne htn] at ht
        obtain ⟨call', h1, h2⟩ := ih ht
        exact ⟨call', by rw [callOf_spawn_ne (Ne.symm htn)]; exact h1, h2⟩
    | @act u o k i a σ hu hx =>
      simp only at ht
      by_cases htu : t = u
      · subst htu
        rw [Function.update_self] at ht
        cases ht
        obtain ⟨call, h1, h2⟩ := ih hu
        exact ⟨call, h1, by rw [hist_act_self]; exact .step i a h2⟩
      · rw [Function.update_of_ne htu] at ht
        obtain ⟨call, h1, h2⟩ := ih ht
        exact ⟨call, h1, by rw [hist_act_ne (Ne.symm htu)]; exact h2⟩
    | @ret u a hu =>
      simp only at ht
      by_cases htu : t = u
      · subst htu; rw [Function.update_self] at ht; cases ht
      · rw [Function.update_of_ne htu] at ht; exact ih ht
    | @raise u a hu =>
      simp only at ht
      by_cases htu : t = u
      · subst htu; rw [Function.update_self] at ht; cases ht
      · rw [Function.update_of_ne htu] at ht; exact ih ht
    | env hx => exact ih ht

end Threads

/-! ## The invariant rule -/

/-- What the program logic says of every program of the machine. -/
structure Protocol (M : Machine S) where
  allows : M.Call → List (Ev S M.Inp) → S.Op → Prop
  ends : M.Call → List (Ev S M.Inp) → Except S.Exn M.Res → Prop
  follows : ∀ call, (M.prog call).Follows (allows call) (ends call) []

/-- An invariant of trace and state: it holds at the start and each kind of step keeps it. -/
structure Protocol.Invariant (P : Protocol M) (G : Guard M) (σ₀ : M.State)
    (I : List (Label M) → M.State → Prop) : Prop where
  start : I [] σ₀
  spawn : ∀ {tr σ t call}, I tr σ → G tr σ (.spawn t call) σ → callOf tr t = none →
    hist tr t = [] → I (.spawn t call :: tr) σ
  act : ∀ {tr σ t call o i a σ'}, I tr σ → G tr σ (.act t ⟨o, i, a⟩) σ' →
    callOf tr t = some call → P.allows call (hist tr t) o → M.exec o i σ = some (a, σ') →
    I (.act t ⟨o, i, a⟩ :: tr) σ'
  ret : ∀ {tr σ t call r}, I tr σ → G tr σ (.ret t r) σ → callOf tr t = some call →
    P.ends call (hist tr t) r → I (.ret t r :: tr) σ
  env : ∀ {tr σ e σ'}, I tr σ → G tr σ (.env e) σ' → M.env e σ = some σ' → I (.env e :: tr) σ'

/-- **The invariant rule.** -/
theorem Run.inv {P : Protocol M} {G : Guard M} {σ₀ : M.State} {I : List (Label M) → M.State → Prop}
    (hI : P.Invariant G σ₀ I) {c : Config M} {tr : List (Label M)} (h : Run G σ₀ c tr) :
    I tr c.state := by
  induction h with
  | start => exact hI.start
  | @step c c' tr ℓ cmd prior hstep hguard ih =>
    cases Config.steps_of_step hstep with
    | spawn call =>
      obtain ⟨-, h2, h3⟩ := prior.unused _ (Nat.le_refl _)
      exact hI.spawn ih hguard h2 h3
    | act ht hx =>
      obtain ⟨call, h1, h2⟩ := prior.thread ht
      exact hI.act ih hguard h1 ((P.follows call).of_leads h2).1 hx
    | ret ht =>
      obtain ⟨call, h1, h2⟩ := prior.thread ht
      exact hI.ret ih hguard h1 ((P.follows call).of_leads h2)
    | raise ht =>
      obtain ⟨call, h1, h2⟩ := prior.thread ht
      exact hI.ret ih hguard h1 ((P.follows call).of_leads h2)
    | env hx => exact hI.env ih hguard hx

/-- What holds in every reachable configuration may be used as part of the guard. -/
theorem Run.guarded {G : Guard M} {σ₀ : M.State} {I : List (Label M) → M.State → Prop}
    (hI : ∀ {c tr}, Run G σ₀ c tr → I tr c.state) {c : Config M} {tr : List (Label M)}
    (h : Run G σ₀ c tr) : Run (fun tr σ ℓ σ' => G tr σ ℓ σ' ∧ I tr σ ∧ I (ℓ :: tr) σ') σ₀ c tr := by
  induction h with
  | start => exact .start
  | step cmd prior hstep hguard ih =>
    exact .step cmd ih hstep ⟨hguard, hI prior, hI (.step cmd prior hstep hguard)⟩

/-- What a run has done at any time is a run. -/
theorem Run.suffix {G : Guard M} {σ₀ : M.State} {c : Config M} {A B : List (Label M)}
    (h : Run G σ₀ c (A ++ B)) : ∃ c', Run G σ₀ c' B := by
  induction A generalizing c with
  | nil => exact ⟨c, h⟩
  | cons ℓ A ih =>
    cases h with
    | step _ prior _ _ => exact ih prior

/-- A run can be cut at any of its labels. -/
theorem Run.split {G : Guard M} {σ₀ : M.State} {c : Config M} {A B : List (Label M)} {ℓ : Label M}
    (h : Run G σ₀ c (A ++ ℓ :: B)) :
    ∃ c₁ cmd c₂, Run G σ₀ c₁ B ∧ c₁.step cmd = some (ℓ, c₂) ∧ G B c₁.state ℓ c₂.state := by
  obtain ⟨c', h⟩ := h.suffix
  cases h with
  | @step c₁ _ _ _ cmd prior hstep hguard => exact ⟨c₁, cmd, c', prior, hstep, hguard⟩

/-- A thread does nothing before it is started, and is started once. -/
theorem Run.before_spawn {G : Guard M} {σ₀ : M.State} {c : Config M} {A B : List (Label M)}
    {t : Nat} {call : M.Call} (h : Run G σ₀ c (A ++ .spawn t call :: B)) :
    hist B t = [] ∧ callOf B t = none := by
  obtain ⟨c₁, cmd, c₂, hrun, hstep, -⟩ := h.split
  cases Config.steps_of_step hstep with
  | spawn call =>
    obtain ⟨-, h1, h2⟩ := hrun.unused _ (Nat.le_refl _)
    exact ⟨h2, h1⟩

theorem Run.callOf_spawn {G : Guard M} {σ₀ : M.State} {c : Config M} {tr : List (Label M)}
    (h : Run G σ₀ c tr) {t : Nat} {call : M.Call} (hm : .spawn t call ∈ tr) :
    callOf tr t = some call := by
  induction h with
  | start => cases hm
  | @step c c' tr ℓ cmd prior hstep _ ih =>
    cases Config.steps_of_step hstep with
    | spawn call' =>
      rcases List.mem_cons.1 hm with heq | hm
      · cases heq
        exact callOf_spawn_self
      · have hcall := ih hm
        rw [callOf_spawn_ne fun e => ?_]
        · exact hcall
        · rw [← e, (prior.unused _ (Nat.le_refl _)).2.1] at hcall
          cases hcall
    | _ =>
      rcases List.mem_cons.1 hm with heq | hm
      · cases heq
      · exact ih hm

/-- An action of a step is allowed, and does what the machine says. -/
theorem Run.of_act {G : Guard M} {σ₀ : M.State} (P : Protocol M) {c c' : Config M}
    {tr : List (Label M)} (h : Run G σ₀ c tr) {cmd : Cmd M} {t : Nat} {o : S.Op} {i : M.Inp}
    {a : S.Ans o} (hstep : c.step cmd = some (.act t ⟨o, i, a⟩, c')) :
    ∃ call, callOf tr t = some call ∧ P.allows call (hist tr t) o ∧
      M.exec o i c.state = some (a, c'.state) := by
  cases Config.steps_of_step hstep with
  | act ht hx =>
    obtain ⟨call, h1, h2⟩ := h.thread ht
    exact ⟨call, h1, ((P.follows call).of_leads h2).1, hx⟩

/-- When a thread ends, what the program logic says of its end holds. -/
theorem Run.of_ret {G : Guard M} {σ₀ : M.State} (P : Protocol M) {c c' : Config M}
    {tr : List (Label M)} (h : Run G σ₀ c tr) {cmd : Cmd M} {t : Nat} {r : Except S.Exn M.Res}
    (hstep : c.step cmd = some (.ret t r, c')) :
    ∃ call, callOf tr t = some call ∧ P.ends call (hist tr t) r := by
  cases Config.steps_of_step hstep with
  | ret ht =>
    obtain ⟨call, h1, h2⟩ := h.thread ht
    exact ⟨call, h1, (P.follows call).of_leads h2⟩
  | raise ht =>
    obtain ⟨call, h1, h2⟩ := h.thread ht
    exact ⟨call, h1, (P.follows call).of_leads h2⟩

/-- A thread that has ended left what the program logic says of its end. -/
theorem Run.finished {G : Guard M} {σ₀ : M.State} (P : Protocol M) {c : Config M}
    {tr : List (Label M)} (h : Run G σ₀ c tr) {t : Nat} {call : M.Call} {r : Except S.Exn M.Res}
    (hspawn : .spawn t call ∈ tr) (hret : .ret t r ∈ tr) :
    ∃ A B c', tr = A ++ .ret t r :: B ∧ Run G σ₀ c' B ∧ P.ends call (hist B t) r := by
  obtain ⟨A, B, rfl⟩ := List.append_of_mem hret
  obtain ⟨c₁, cmd, c₂, hrun, hstep, -⟩ := h.split
  obtain ⟨call', hcall, hend⟩ := hrun.of_ret P hstep
  have hmem := List.mem_append_right A (List.mem_cons_of_mem (.ret t r) (mem_of_callOf hcall))
  obtain rfl : call' = call :=
    Option.some.inj ((h.callOf_spawn hmem).symm.trans (h.callOf_spawn hspawn))
  exact ⟨A, B, c₁, rfl, hrun, hend⟩

/-- A thread that was started is running or has ended. -/
theorem Run.running_or_ended {G : Guard M} {σ₀ : M.State} {c : Config M} {tr : List (Label M)}
    (h : Run G σ₀ c tr) {t : Nat} {call : M.Call} (hm : .spawn t call ∈ tr) :
    (∃ p, c.threads t = some p) ∨ ∃ r, .ret t r ∈ tr := by
  induction h with
  | start => cases hm
  | @step c c' tr ℓ cmd prior hstep _ ih =>
    have hold : ∀ {u : Nat} {q : Option (Prog S M.Res)}, t ≠ u → .spawn t call ∈ tr →
        (∃ p, Function.update c.threads u q t = some p) ∨ ∃ r, .ret t r ∈ ℓ :: tr := by
      intro u q hne hm
      rw [Function.update_of_ne hne]
      exact (ih hm).imp_right fun ⟨r, hr⟩ => ⟨r, List.mem_cons_of_mem _ hr⟩
    have hend : ∀ {u : Nat} {q : Option (Prog S M.Res)} {r : Except S.Exn M.Res},
        .spawn t call ∈ Label.ret u r :: tr → ℓ = .ret u r →
        (∃ p, Function.update c.threads u q t = some p) ∨ ∃ r, .ret t r ∈ ℓ :: tr := by
      intro u q r hm hℓ
      rcases List.mem_cons.1 hm with heq | hm
      · cases heq
      · by_cases hu : t = u
        · subst hu hℓ
          exact Or.inr ⟨r, List.mem_cons_self⟩
        · exact hold hu hm
    cases Config.steps_of_step hstep with
    | spawn call' =>
      by_cases ht : t = c.next
      · subst ht
        exact Or.inl ⟨_, Function.update_self ..⟩
      · rcases List.mem_cons.1 hm with heq | hm
        · cases heq
          exact absurd rfl ht
        · exact hold ht hm
    | @act u o k i a σ hu hx =>
      rcases List.mem_cons.1 hm with heq | hm
      · cases heq
      · by_cases ht : t = u
        · subst ht
          exact Or.inl ⟨_, Function.update_self ..⟩
        · exact hold ht hm
    | ret hu => exact hend hm rfl
    | raise hu => exact hend hm rfl
    | env hx =>
      rcases List.mem_cons.1 hm with heq | hm
      · cases heq
      · exact (ih hm).imp_right fun ⟨r, hr⟩ => ⟨r, List.mem_cons_of_mem _ hr⟩

/-- A thread that has ended does nothing any more. -/
theorem Run.after_ret {G : Guard M} {σ₀ : M.State} {c : Config M} {A B : List (Label M)} {t : Nat}
    {r : Except S.Exn M.Res} (h : Run G σ₀ c (A ++ .ret t r :: B)) : hist A t = [] := by
  suffices hsuff : hist A t = [] ∧ c.threads t = none ∧ t < c.next from hsuff.1
  induction A generalizing c with
  | nil =>
    cases h with
    | @step c₁ _ _ _ cmd prior hstep _ =>
      have hlt : ∀ {p : Prog S M.Res}, c₁.threads t = some p → t < c₁.next := by
        intro p hp
        by_contra hle
        rw [(prior.unused t (Nat.not_lt.1 hle)).1] at hp
        cases hp
      cases Config.steps_of_step hstep with
      | ret ht => exact ⟨rfl, Function.update_self .., hlt ht⟩
      | raise ht => exact ⟨rfl, Function.update_self .., hlt ht⟩
  | cons ℓ A ih =>
    cases h with
    | @step c₁ _ _ _ cmd prior hstep _ =>
      obtain ⟨hhist, hnone, hlt⟩ := ih prior
      have hne : ∀ {u : Nat} {p : Prog S M.Res}, c₁.threads u = some p → t ≠ u := by
        rintro u p hp rfl
        rw [hnone] at hp
        cases hp
      cases Config.steps_of_step hstep with
      | spawn call =>
        refine ⟨hhist, ?_, Nat.lt_succ_of_lt hlt⟩
        show Function.update c₁.threads c₁.next _ t = none
        rw [Function.update_of_ne (Nat.ne_of_lt hlt), hnone]
      | act hu hx =>
        refine ⟨?_, ?_, hlt⟩
        · rw [hist_act_ne (Ne.symm (hne hu)), hhist]
        · show Function.update c₁.threads _ _ t = none
          rw [Function.update_of_ne (hne hu), hnone]
      | ret hu =>
        refine ⟨hhist, ?_, hlt⟩
        show Function.update c₁.threads _ _ t = none
        rw [Function.update_of_ne (hne hu), hnone]
      | raise hu =>
        refine ⟨hhist, ?_, hlt⟩
        show Function.update c₁.threads _ _ t = none
        rw [Function.update_of_ne (hne hu), hnone]
      | env hx => exact ⟨hhist, hnone, hlt⟩

/-- What a thread that has ended did is a path of its program. -/
theorem Run.ends {G : Guard M} {σ₀ : M.State} {c : Config M} {tr : List (Label M)}
    (h : Run G σ₀ c tr) {t : Nat} {call : M.Call} {r : Except S.Exn M.Res}
    (hspawn : .spawn t call ∈ tr) (hret : .ret t r ∈ tr) :
    (M.prog call).Ends (hist tr t) r := by
  let P : Protocol M := ⟨fun _ _ _ => True, fun call => (M.prog call).Ends, fun call =>
    Prog.Leads.refl.follows_ends⟩
  obtain ⟨A, B, c', rfl, -, hend⟩ := h.finished P hspawn hret
  rw [hist_append, h.after_ret, List.nil_append, hist_ret]
  exact hend

/-- Every action of a run was allowed after the actions its thread had done before. -/
theorem Run.allowed {G : Guard M} {σ₀ : M.State} (P : Protocol M) {c : Config M}
    {tr : List (Label M)} (h : Run G σ₀ c tr) : ∀ t e g, e :: g <:+ hist tr t →
      ∃ call, callOf tr t = some call ∧ P.allows call g e.op := by
  refine h.inv (P := P) (I := fun tr _ => ∀ t e g, e :: g <:+ hist tr t →
    ∃ call, callOf tr t = some call ∧ P.allows call g e.op) ⟨?_, ?_, ?_, ?_, ?_⟩
  · intro t e g hs
    simp at hs
  · intro tr σ u call hI _ hcall hhist t e g hs
    obtain ⟨call', h1, h2⟩ := hI t e g hs
    refine ⟨call', ?_, h2⟩
    rw [callOf_spawn_ne fun heq => by rw [heq, h1] at hcall; cases hcall]
    exact h1
  · intro tr σ u call o i a σ' hI _ hcall hallow _ t e g hs
    by_cases htu : u = t
    · subst htu
      rw [hist_act_self] at hs
      rcases List.suffix_cons_iff.1 hs with heq | hs
      · cases heq
        exact ⟨call, hcall, hallow⟩
      · exact hI u e g hs
    · rw [hist_act_ne htu] at hs
      exact hI t e g hs
  · exact fun hI _ _ _ => hI
  · exact fun hI _ _ => hI

/-- A thread that is not running has done nothing, or has ended. -/
theorem Run.idle_or_ended {G : Guard M} {σ₀ : M.State} (P : Protocol M) {c : Config M}
    {tr : List (Label M)} (h : Run G σ₀ c tr) {t : Nat} (ht : c.threads t = none) :
    hist tr t = [] ∨ ∃ call r, P.ends call (hist tr t) r := by
  cases hh : hist tr t with
  | nil => exact Or.inl rfl
  | cons e g =>
    obtain ⟨call, hcall, -⟩ := h.allowed P t e g (hh ▸ List.suffix_refl _)
    rcases h.running_or_ended (mem_of_callOf hcall) with ⟨p, hp⟩ | ⟨r, hr⟩
    · rw [ht] at hp
      cases hp
    · obtain ⟨A, B, c', rfl, -, hend⟩ := h.finished P (mem_of_callOf hcall) hr
      rw [hist_append, h.after_ret, List.nil_append, hist_ret] at hh
      rw [hh] at hend
      exact Or.inr ⟨call, r, hend⟩

end Conc
