import Locache.Conc.Progress
import Locache.Group.Flight

/-!
# No call waits forever

The only action of a goroutine that may have to wait for another one is the wait of a follower for
its singleflight call. The leader of a call is running until it has ended the call, and a leader
never waits for another call, so every goroutine that waits is helped by one that does not. Hence
the goroutines of a node do not block each other, and as every program ends, all calls return if the
Getter and the peers do (`calls_complete`).
-/

namespace Locache

open Conc

variable {g : Cfg} {tr : Trace g} {σ σ' σ₀ : State} {t u : Nat} {k key : GoString} {c : Nat}
  {o : Op} {i : Inp} {a : o.Ans}

/-! ## Calls that have been entered -/

/-- A goroutine stops leading a call only by ending it. -/
theorem Move.owns_or_done {e : Option Nat} {x x' : Option (GoString × Nat)} {st st' : Stage}
    (hm : Move e o a x st x' st') (h : st.owns = some c) :
    x' = x ∧ st'.owns = some c ∨ ∃ r, o = .doDone c r := by
  cases hm with
  | done =>
    cases h
    exact Or.inr ⟨_, rfl⟩
  | acquire => cases h
  | release => cases h
  | join => cases h
  | lead => cases h
  | wait => cases h
  | _ => exact Or.inl ⟨rfl, h⟩

/-- A call that has a result keeps one. -/
theorem calls_ne_none_of_exec (hx : Node.exec g o i σ = some (a, σ')) (hc : σ.calls c ≠ none) :
    σ'.calls c ≠ none := by
  by_cases ho : o.onFlights = true
  · obtain ⟨-, σ₁, hact, rfl⟩ := exec_eq_some.1 hx
    cases o with
    | doEnter key =>
      obtain rfl : (Group.doEnter key σ).2 = σ₁ := congrArg Prod.snd (Option.some.inj hact)
      unfold Group.doEnter
      split <;> exact hc
    | doRemove key c' =>
      cases hact
      exact hc
    | doDone c' r =>
      cases hact
      show Function.update σ.calls c' (some r) c ≠ none
      by_cases hcc : c = c'
      · subst hcc
        simp
      · rw [Function.update_of_ne hcc]
        exact hc
    | _ => cases ho
  · rw [((exec_frame hx).flights (Bool.eq_false_of_not_eq_true ho)).2.1]
    exact hc

/-- A call that was entered is led by the goroutine that entered it until it has a result. -/
def Attended (tr : Trace g) (σ : State) : Prop :=
  ∀ t k c, Entered tr t k c → Owns tr t k c ∨ σ.calls c ≠ none

namespace Attended

theorem act {call : Call} (h : Attended tr σ) (hallow : Allowed g call (hist tr u) o)
    (hx : Node.exec g o i σ = some (a, σ')) : Attended (.act u ⟨o, i, a⟩ :: tr) σ' := by
  rintro t k c ⟨j, hj⟩
  rcases List.mem_cons.1 hj with heq | hold
  · -- the call is entered now
    cases heq
    obtain ⟨-, s, hheld, -⟩ := id hallow
    exact Or.inl ((atCall_act hallow rfl).2 (Or.inl ⟨rfl, ⟨s, hheld⟩, rfl⟩))
  · rcases h t k c ⟨j, hold⟩ with howns | hdone
    · by_cases htu : t = u
      · subst htu
        obtain ⟨s, hheld, hst⟩ := id howns
        rcases (hallow.move a).owns_or_done hst with ⟨-, hst'⟩ | ⟨r, rfl⟩
        · exact Or.inl ((atCall_act hallow rfl).2 (Or.inl ⟨rfl, ⟨s, hheld⟩, hst'⟩))
        · obtain ⟨-, σ₁, hact, rfl⟩ := exec_eq_some.1 hx
          cases hact
          right
          simp
      · exact Or.inl ((atCall_act hallow rfl).2 (Or.inr ⟨htu, howns⟩))
    · exact Or.inr (calls_ne_none_of_exec hx hdone)

theorem other (h : Attended tr σ) {ℓ : Label (node g)} (hℓ : ∀ t e, ℓ ≠ .act t e)
    (hl : ∀ t, locOf (ℓ :: tr) t = locOf tr t) (hc : σ'.calls = σ.calls) :
    Attended (ℓ :: tr) σ' := by
  rintro t k c ⟨j, hj⟩
  rcases List.mem_cons.1 hj with heq | hold
  · exact absurd heq.symm (hℓ _ _)
  · simp only [AtCall, hl, hc]
    exact h t k c ⟨j, hold⟩

end Attended

theorem Run.attended {G : Guard (node g)} {cf : Config (node g)} (h : Run G σ₀ cf tr) :
    Attended tr cf.state := by
  refine h.inv (P := protocol g) ⟨?_, ?_, ?_, ?_, ?_⟩
  · rintro t k c ⟨j, hj⟩
    cases hj
  · exact fun h _ _ _ => h.other (fun _ _ h => by cases h) (fun _ => rfl) rfl
  · exact fun h _ _ hallow hx => h.act hallow hx
  · exact fun h _ _ _ => h.other (fun _ _ h => by cases h) (fun _ => rfl) rfl
  · intro tr σ e σ' h _ hx
    exact h.other (fun _ _ h => by cases h) (fun _ => rfl) (env_frame hx).flights.2.1

/-! ## Who waits, and for whom -/

/-- A goroutine that holds a mutation state is running. -/
theorem Run.running_of_held {G : Guard (node g)} {cf : Config (node g)} (h : Run G σ₀ cf tr)
    {x : GoString × Nat} (hheld : (locOf tr t).held = some x) : ∃ p, cf.threads t = some p := by
  cases hp : cf.threads t with
  | some p => exact ⟨p, rfl⟩
  | none =>
    unfold locOf at hheld
    rcases h.idle_or_ended (protocol g) hp with hnil | ⟨call, r, hend⟩
    · rw [hnil] at hheld
      cases hheld
    · rw [hend.1.1] at hheld
      cases hheld

/-- Only the wait for a call without a result is not enabled. -/
theorem exec_eq_none (hclock : σ.clock ≤ i.now) (hx : Node.exec g o i σ = none) :
    ∃ c, o = .doWait c ∧ σ.calls c = none := by
  unfold Node.exec at hx
  rw [if_neg (not_lt.2 hclock), Option.map_eq_none_iff] at hx
  cases o with
  | doWait c =>
    simp only [Group.act, Option.map_eq_none_iff] at hx
    exact ⟨c, rfl, hx⟩
  | _ => cases hx

/-- A goroutine that is not enabled waits for a call that has no result. -/
theorem blocked_of_step {cf : Config (node g)} {p : GoProg Res} (ht : cf.threads t = some p)
    (hclock : cf.state.clock ≤ i.now) (hstep : cf.step (.run t i) = none) :
    ∃ c k, p = .act (.doWait c) k ∧ cf.state.calls c = none := by
  unfold Config.step at hstep
  simp only [ht] at hstep
  cases p with
  | ret r => cases hstep
  | raise e => cases hstep
  | act o k =>
    simp only at hstep
    split at hstep
    · next hx =>
      obtain ⟨c, rfl, hc⟩ := exec_eq_none hclock hx
      exact ⟨c, k, rfl, hc⟩
    · cases hstep

/-- Goroutine `t` can make a step, whatever the input. -/
def Enabled (cf : Config (node g)) (t : Nat) : Prop :=
  ∀ i : Inp, cf.state.clock ≤ i.now → ∃ out, cf.step (.run t i) = some out

/-- Goroutine `t` waits for a call that `u` leads, and `u` does not wait. -/
def Helped (cf : Config (node g)) (tr : Trace g) (t u : Nat) : Prop :=
  ∃ k c, Joined tr t k c ∧ Owns tr u k c ∧ Enabled cf u

theorem enabled_of_owns {G : Guard (node g)} {cf : Config (node g)} (h : Run G σ₀ cf tr)
    (howns : Owns tr u k c) : Enabled cf u := by
  intro i hclock
  obtain ⟨s, hheld, hst⟩ := howns
  obtain ⟨p, hp⟩ := Run.running_of_held h hheld
  cases hstep : cf.step (.run u i) with
  | some out => exact ⟨out, rfl⟩
  | none =>
    -- a leader does not wait for a call
    obtain ⟨c', k', rfl, -⟩ := blocked_of_step hp hclock hstep
    obtain ⟨call, -, hleads⟩ := h.thread hp
    obtain ⟨key, s', -, hst'⟩ := (((protocol g).follows call).of_leads hleads).1
    change (locOf tr u).stage = _ at hst'
    rw [hst'] at hst
    cases hst

theorem helped_of_blocked {G : Guard (node g)} (h₀ : σ₀.Fresh) {cf : Config (node g)}
    (h : Run G σ₀ cf tr) {p : GoProg Res} (ht : cf.threads t = some p)
    (hclock : cf.state.clock ≤ i.now) (hstep : cf.step (.run t i) = none) :
    ∃ u, Helped cf tr t u := by
  obtain ⟨c, k, rfl, hc⟩ := blocked_of_step ht hclock hstep
  obtain ⟨call, -, hleads⟩ := h.thread ht
  obtain ⟨key, s, hheld, hst⟩ := (((protocol g).follows call).of_leads hleads).1
  have hjoined : Joined tr t key c := by
    refine ⟨s, hheld, ?_⟩
    change (locOf tr t).stage = _ at hst
    rw [hst]
    rfl
  obtain ⟨u, hentered⟩ := (Run.flights h₀ h).joined t key c hjoined
  rcases Run.attended h u key c hentered with howns | hdone
  · exact ⟨u, key, c, hjoined, howns, enabled_of_owns h howns⟩
  · exact absurd hc hdone

theorem exists_enabled {G : Guard (node g)} (h₀ : σ₀.Fresh) {cf : Config (node g)}
    (h : Run G σ₀ cf tr) (hq : ¬ cf.Quiet) : ∃ t, Enabled cf t := by
  obtain ⟨t, ht⟩ := not_forall.1 hq
  obtain ⟨p, hp⟩ := Option.ne_none_iff_exists'.1 ht
  by_cases henabled : Enabled cf t
  · exact ⟨t, henabled⟩
  · simp only [Enabled, not_forall] at henabled
    obtain ⟨i, hclock, hstep⟩ := henabled
    cases hs : cf.step (.run t i) with
    | some out => exact absurd ⟨out, hs⟩ hstep
    | none =>
      obtain ⟨u, k, c, -, -, hu⟩ := helped_of_blocked h₀ h hp hclock hs
      exact ⟨u, hu⟩

theorem Enabled.works {cf : Config (node g)} (h : Enabled cf t) : ∃ cf', cf.Works cf' := by
  obtain ⟨⟨ℓ, cf'⟩, hstep⟩ := h { Inp.fetch [] with now := cf.state.clock } (le_refl _)
  exact ⟨cf', _, ℓ, hstep, (Config.works_of_run hstep).1⟩

/-! ## Completion -/

/-- What keeps a node going. -/
structure Proceeds (cf : Config (node g)) (tr : Trace g) : Prop where
  /-- A goroutine that is not enabled is helped by one that is. -/
  helped : ∀ t p i, cf.threads t = some p → cf.state.clock ≤ i.now →
    cf.step (.run t i) = none → ∃ u, Helped cf tr t u
  /-- As long as a call is running, some goroutine is enabled. -/
  ready : ¬ cf.Quiet → ∃ t, Enabled cf t
  /-- If no more calls are started, all calls return. -/
  completes : cf.Completes
  /-- Then no singleflight call is left in the map, and each has its result. -/
  flights : cf.Quiet → ∀ k, cf.state.flights k = none
  results : cf.Quiet → ∀ t k c, Entered tr t k c → cf.state.calls c ≠ none

theorem not_owns_of_quiet {G : Guard (node g)} {cf : Config (node g)} (h : Run G σ₀ cf tr)
    (hq : cf.Quiet) : ¬ Owns tr t k c := by
  rintro ⟨s, hheld, -⟩
  obtain ⟨p, hp⟩ := Run.running_of_held h hheld
  rw [hq t] at hp
  cases hp

/-- **The goroutines of a node never block each other.** In every reachable state and whatever the
Getter, the peers and the membership do, a goroutine that has to wait is helped by one that does
not, and the calls that are running all return. -/
theorem calls_complete (h₀ : σ₀.Fresh) {cf : Config (node g)} (h : Run Free σ₀ cf tr) :
    Proceeds cf tr where
  helped := fun _ _ _ ht hclock hstep => helped_of_blocked h₀ h ht hclock hstep
  ready := exists_enabled h₀ h
  completes := by
    apply h.completes
    intro cf tr hrun hq
    obtain ⟨t, ht⟩ := exists_enabled h₀ hrun hq
    exact ht.works
  flights := by
    intro hq k
    cases hk : cf.state.flights k with
    | none => rfl
    | some c =>
      obtain ⟨t, ht⟩ := (Run.flights h₀ h).registered k c hk
      exact absurd ht.owns (not_owns_of_quiet h hq)
  results := by
    intro hq t k c hentered
    exact (Run.attended h t k c hentered).resolve_left (not_owns_of_quiet h hq)

/-- A goroutine that has joined a load cannot go on; the goroutine that leads the load can. -/
theorem follower_helped : ∃ (cf : Config (node Cfg.solo)) (tr : Trace Cfg.solo),
    Run Free State.solo cf tr ∧ cf.step (.run 1 (.fetch [])) = none ∧ Proceeds cf tr := by
  obtain ⟨cf, tr, hsteps, hstep⟩ : ∃ cf tr,
      (Config.start (M := node Cfg.solo) State.solo).steps []
        (.spawn (.get (ascii "k")) :: List.replicate 9 (.run 0 (.fetch [])) ++
          .spawn (.get (ascii "k")) :: List.replicate 6 (.run 1 (.fetch []))) = some (cf, tr) ∧
      cf.step (.run 1 (.fetch [])) = none :=
    ⟨_, _, rfl, rfl⟩
  have hrun := Run.steps .start hsteps
  exact ⟨cf, tr, hrun, hstep, calls_complete State.fresh_solo hrun⟩

end Locache
