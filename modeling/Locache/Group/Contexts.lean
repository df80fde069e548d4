import Locache.Group.Outcomes

/-!
# The context of a shared load

The function that `getLocal` hands to singleflight holds on to the context of the caller that came
first, and all callers that join its call get its result. So a read can fail although its own
context is never cancelled: when it joined the load of a caller whose context was. That is the only
way; a read that leads its load is not touched by the contexts of others.
-/

namespace Locache

open Conc

variable {g : Cfg} {tr : Trace g} {σ₀ : State} {k : GoString}

/-- The contexts of the callers: whose context has been cancelled by the time the steps of a trace
have been made. -/
structure Contexts (g : Cfg) where
  cancelled : Nat → Trace g → Prop
  grows : ∀ t ℓ tr, cancelled t tr → cancelled t (ℓ :: tr)

variable {ctx : Contexts g}

/-- The runs that are meant: no membership change, no `Close` and no mutation of `k`, and the Getter
fails exactly when the context of the caller that runs it has been cancelled. -/
structure FailsByContext (ctx : Contexts g) (k : GoString) (tr : Trace g) (ℓ : Label (node g)) :
    Prop where
  uninterrupted : Uninterrupted ℓ
  unmutated : Mutation k ℓ = false
  fails : ∀ t id i out, ℓ = .act t ⟨.getterEnd id, i, out⟩ → ctx.cancelled t tr →
    ∃ err, out = .ok (.error err)
  succeeds : ∀ t id i out, ℓ = .act t ⟨.getterEnd id, i, out⟩ → ¬ ctx.cancelled t tr →
    ∃ b, out = .ok (.ok b)

def ContextGuard (ctx : Contexts g) (k : GoString) : Guard (node g) := fun tr _ ℓ _ =>
  FailsByContext ctx k tr ℓ

/-- The leader of the call `n` is a caller whose context was cancelled, and its Getter call failed.
-/
def LedByCancelled (ctx : Contexts g) (k : GoString) (tr : Trace g) (n : Nat) : Prop :=
  ∃ u, Entered tr u k n ∧ ctx.cancelled u tr ∧
    ∃ id i err, .act u ⟨.getterEnd id, i, .ok (.error err)⟩ ∈ tr

theorem LedByCancelled.cons (tr : Trace g) (ℓ : Label (node g)) (n : Nat)
    (h : LedByCancelled ctx k tr n) : LedByCancelled ctx k (ℓ :: tr) n := by
  obtain ⟨u, hent, hctx, id, i, err, hm⟩ := h
  exact ⟨u, hent.cons, ctx.grows u ℓ tr hctx, id, i, err, List.mem_cons_of_mem _ hm⟩

/-- A read of `k` whose own context is not cancelled returns a value. -/
def Independent (ctx : Contexts g) (k : GoString) (tr : Trace g) : Prop :=
  ∀ W t r call, tr = .ret t r :: W → .spawn t call ∈ W → call.Asks g k → ¬ ctx.cancelled t tr →
    ∃ v, call.Returns v r

/-- A read of `k` whose own context is not cancelled returns a value, unless it joined a call whose
leader is another caller, whose context was cancelled and whose Getter call failed. -/
def DependsOnLeader (ctx : Contexts g) (k : GoString) (tr : Trace g) : Prop :=
  ∀ W t r call, tr = .ret t r :: W → .spawn t call ∈ W → call.Asks g k → ¬ ctx.cancelled t tr →
    (∃ v, call.Returns v r) ∨ ∃ n i, .act t ⟨.doEnter k, i, .join n⟩ ∈ W ∧
      ∃ u, u ≠ t ∧ Entered W u k n ∧ ctx.cancelled u tr ∧
        ∃ id j err, .act u ⟨.getterEnd id, j, .ok (.error err)⟩ ∈ W

/-- Calls fail only with the context of their leader. -/
theorem Run.ledByCancelled (hR : ReadThrough g σ₀ k) {c : Config (node g)}
    (h : Run (ContextGuard ctx k) σ₀ c tr) : Blamed (LedByCancelled ctx k) k tr c.state := by
  refine Run.blamed hR (fun _ _ _ _ hG => hG.1.uninterrupted) LedByCancelled.cons ?_ ?_
    (h.guarded (I := fun tr _ => ∀ ℓ ∈ tr, Mutation k ℓ = false)
      fun h => h.forall_mem fun _ _ _ _ hG => hG.unmutated)
  · intro tr σ x id i out σ' s c n hG hB hheld hst hout
    have hent : Entered tr x k c := hB.flights.entered x k c ⟨s, hheld, by rw [hst]; rfl⟩
    by_cases hctx : ctx.cancelled x tr
    · obtain ⟨err, rfl⟩ := hG.1.fails x id i out rfl hctx
      exact ⟨x, hent.cons, ctx.grows x _ tr hctx, id, i, err, List.mem_cons_self⟩
    · obtain ⟨b, hb⟩ := hG.1.succeeds x id i out rfl hctx
      exact absurd hb (hout b)
  · rintro tr σ x s n b i σ' c w hG _ _ _ ⟨⟨j, tr', rfl⟩, -⟩ hmut
    refine absurd (List.countP_eq_zero.2 fun ℓ hℓ => ?_) hmut
    simp [hG.2.1 ℓ (List.mem_append_left _ hℓ)]

/-- **A read fails with the context of another caller only if that caller led the load it joined**,
locally and through `Server.Get`. -/
theorem uncancelled_read_depends (hR : ReadThrough g σ₀ k) {c : Config (node g)}
    (h : Run (ContextGuard ctx k) σ₀ c tr) : DependsOnLeader ctx k tr := by
  rintro W t r call rfl hspawn hcall hctx
  rcases Run.read_fails hR (fun _ _ _ _ hG => hG.uninterrupted) LedByCancelled.cons
    (fun h => Run.ledByCancelled hR h) h (List.mem_cons_of_mem _ hspawn) hcall
    List.mem_cons_self with hv | ⟨n, i, ⟨u, hent, hu, id, j, err, hm⟩, hled | hjoined⟩
  · exact Or.inl hv
  · -- the leader of the call is the read itself
    obtain ⟨rfl, -⟩ := (Run.flights hR.fresh h).unique u t k k n hent ⟨i, hled⟩
    exact absurd hu hctx
  · have hW : ∀ {x : Nat} {ev : Ev groupSig Inp}, .act x ev ∈ .ret t r :: W → .act x ev ∈ W := by
      intro x ev hx
      rcases List.mem_cons.1 hx with heq | hx
      · cases heq
      · exact hx
    obtain ⟨l, hl⟩ := hent
    refine Or.inr ⟨n, i, hW hjoined, u, ?_, ⟨l, hW hl⟩, hu, id, j, err, hW hm⟩
    rintro rfl
    exact hctx hu

/-- The context of the first caller is cancelled from the start, those of the others never are. -/
def firstCancelled : Contexts g where
  cancelled := fun t _ => t = 0
  grows := fun _ _ _ h => h

/-- A step at which the Getter fails for the first caller only. -/
def failsForFirst (_ : Trace g) (_ : State) : Label (node g) → Bool
  | .env (.membership _) | .spawn _ .close | .act _ ⟨.setSection _ _ _, _, _⟩
  | .act _ ⟨.deleteSection _ _, _, _⟩ | .act _ ⟨.getterEnd _, _, .error _⟩ => false
  | .act t ⟨.getterEnd _, _, .ok (.error _)⟩ => t = 0
  | .act t ⟨.getterEnd _, _, .ok (.ok _)⟩ => t ≠ 0
  | _ => true

theorem contextGuard_of_step (k : GoString) (tr : Trace g) (σ : State) (ℓ : Label (node g))
    (σ' : State) (h : failsForFirst tr σ ℓ = true) :
    ContextGuard firstCancelled k tr σ ℓ σ' := by
  refine ⟨?_, ?_, ?_, ?_⟩
  · unfold Uninterrupted
    split
    · cases h
    · cases h
    · trivial
  · cases ℓ with
    | act t ev =>
      obtain ⟨o, i, a⟩ := ev
      cases o <;> first | rfl | cases h
    | _ => rfl
  · rintro t id i out rfl rfl
    match out, h with
    | .ok (.error err), _ => exact ⟨err, rfl⟩
  · rintro t id i out rfl ht
    match out, h with
    | .ok (.error err), h => exact absurd (of_decide_eq_true h) ht
    | .ok (.ok b), _ => exact ⟨b, rfl⟩

/-- What the Getter returns when its context is cancelled. -/
def contextCanceled : Err := .other (ascii "context canceled")

/-- The load of a cancelled caller fails, and the next caller loads for itself. -/
theorem next_caller_loads : ∃ c : Config (node Cfg.solo), ∃ tr,
    Run (ContextGuard firstCancelled (ascii "k")) State.solo c tr ∧
    .ret 0 (.ok (.view (.error (Group.loadError Cfg.solo (ascii "k") contextCanceled)))) ∈ tr ∧
    .ret 1 (.ok (.view (.ok ⟨[1]⟩))) ∈ tr ∧ DependsOnLeader firstCancelled (ascii "k") tr := by
  obtain ⟨c, tr, hsteps, h₁, h₂⟩ : ∃ c tr,
      (Config.start (M := node Cfg.solo) State.solo).stepsIf failsForFirst []
        (.spawn (.get (ascii "k")) :: List.replicate 15 (.run 0 (Inp.failing contextCanceled)) ++
          .spawn (.get (ascii "k")) :: List.replicate 15 (.run 1 (Inp.fetch [1]))) =
        some (c, tr) ∧
      .ret 0 (.ok (.view (.error (Group.loadError Cfg.solo (ascii "k") contextCanceled)))) ∈ tr ∧
      .ret 1 (.ok (.view (.ok ⟨[1]⟩))) ∈ tr :=
    ⟨_, _, rfl, by simp, by simp⟩
  have hrun : Run (ContextGuard firstCancelled (ascii "k")) State.solo c tr :=
    Run.stepsIf (contextGuard_of_step (ascii "k")) .start hsteps
  exact ⟨c, tr, hrun, h₁, h₂, uncancelled_read_depends (readThrough_solo _) hrun⟩

/-- A peer's `Get` comes in through the server and leads the load, a local `Get` joins it, and the
peer's context is cancelled: the local `Get` fails with it. -/
theorem cancelled_leader_fails_follower : ∃ c : Config (node Cfg.solo), ∃ tr,
    Run (ContextGuard firstCancelled (ascii "k")) State.solo c tr ∧
    .ret 1 (.ok (.view (.error (Group.loadError Cfg.solo (ascii "k") contextCanceled)))) ∈ tr ∧
    ¬ Independent firstCancelled (ascii "k") tr := by
  obtain ⟨c, W, hsteps, hspawn⟩ : ∃ c W,
      (Config.start (M := node Cfg.solo) State.solo).stepsIf failsForFirst []
        (.spawn (.serve (ascii "b", 0) (.get Cfg.solo.name (ascii "k"))) ::
          List.replicate 9 (.run 0 (Inp.failing contextCanceled)) ++
          .spawn (.get (ascii "k")) :: List.replicate 6 (.run 1 (Inp.fetch [1])) ++
          List.replicate 4 (.run 0 (Inp.failing contextCanceled)) ++
          List.replicate 3 (.run 1 (Inp.fetch [1]))) =
        some (c, .ret 1 (.ok (.view (.error
          (Group.loadError Cfg.solo (ascii "k") contextCanceled)))) :: W) ∧
      .spawn 1 (.get (ascii "k")) ∈ W := ⟨_, _, rfl, by simp [Config.start]⟩
  refine ⟨c, _, Run.stepsIf (contextGuard_of_step (ascii "k")) .start hsteps, by simp, ?_⟩
  intro hindependent
  obtain ⟨v, hv⟩ := hindependent W 1 _ (.get (ascii "k")) rfl hspawn ⟨rfl, by simp [ascii]⟩
    fun h => by cases h
  exact hv

end Locache
