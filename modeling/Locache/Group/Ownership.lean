import Locache.Group.Membership
import Locache.Group.Provenance

/-!
# Ownership periods

An operation on the owner first observes the epoch under which the node owns the key and has the
main cache cleared if it was used under another one. The check, the lookup and the store are
separate steps. As long as each of them finds the main cache still set to the epoch the operation
observed, what a read finds was stored by an operation of its own epoch.
-/

namespace Locache

open Conc

variable {g : Cfg} {tr : Trace g} {σ σ' σ₀ : State} {t x : Nat} {k key : GoString}
  {v : ByteView} {o : Op} {i : Inp} {a : o.Ans} {e : Nat} {call : Call}

/-- The bytes `v` were stored under `k` by an operation whose ownership check observed the epoch
`e`. -/
def StoredUnder (k : GoString) (v : ByteView) (e : Nat) (tr : Trace g) : Prop :=
  ∃ A B t ev, tr = A ++ .act t ev :: B ∧ Stores k v ev ∧ (locOf B t).epoch = some e

/-- The singleflight call `c` was entered by an operation whose ownership check observed the epoch
`e`. -/
def EnteredUnder (tr : Trace g) (c e : Nat) : Prop :=
  ∃ A B t k i, tr = A ++ .act t ⟨.doEnter k, i, .lead c⟩ :: B ∧ (locOf B t).epoch = some e

/-- The lookups and the stores of local reads and writes. -/
def Op.usesMain : Op → Bool
  | .mainGet _ | .loadBegin _ _ | .loadCommit _ _ _ _ | .setSection _ _ _ => true
  | _ => false

/-- **The condition on a step.** A lookup or a store finds the main cache set to the epoch the
operation observed, and a read joins only a call entered under the epoch it observed. -/
structure EpochGuard (tr : Trace g) (σ : State) (ℓ : Label (node g)) (σ' : State) : Prop where
  cache : ∀ t e, ℓ = .act t e → e.op.usesMain = true → (locOf tr t).epoch = some σ.ownerEpoch
  joins : ∀ t k i c e, ℓ = .act t ⟨.doEnter k, i, .join c⟩ → (locOf tr t).epoch = some e →
    EnteredUnder tr c e

/-! ## Observed epochs -/

/-- An operation observes an epoch only at rest. -/
theorem epoch_next (hallow : Allowed g call (hist tr x) o)
    (hne : ((locOf tr x).next o a).epoch ≠ (locOf tr x).epoch) :
    ((locOf tr x).next o a).held = none ∧ ((locOf tr x).next o a).out = none := by
  cases o with
  | pickOwner site key =>
    cases site with
    | prepare => exact ⟨hallow.1, rfl⟩
    | _ => exact absurd rfl hne
  | _ => exact absurd rfl hne

theorem EnteredUnder.cons {ℓ : Label (node g)} {c : Nat} (h : EnteredUnder tr c e) :
    EnteredUnder (ℓ :: tr) c e := by
  obtain ⟨A, B, t, k, i, rfl, he⟩ := h
  exact ⟨ℓ :: A, B, t, k, i, rfl, he⟩

/-- A call that is already there is not entered again. -/
theorem enteredUnder_act {c : Nat} (hF : Flights tr σ) (hent : Entered tr t k c)
    (hx : Node.exec g o i σ = some (a, σ')) :
    EnteredUnder (.act x ⟨o, i, a⟩ :: tr) c e ↔ EnteredUnder tr c e := by
  refine ⟨?_, EnteredUnder.cons⟩
  rintro ⟨A, B, u, k', j, htr, he⟩
  cases A with
  | nil =>
    cases htr
    have hlt := hF.fresh t k c hent
    rw [lead_eq_next hx] at hlt
    exact absurd hlt (Nat.lt_irrefl _)
  | cons ℓ A =>
    cases htr
    exact ⟨A, B, u, k', j, rfl, he⟩

/-- As long as a goroutine leads a call, the epoch it observed is the one it entered the call
under. -/
def LeaderEpochs (tr : Trace g) : Prop :=
  ∀ t k c e, Owns tr t k c → EnteredUnder tr c e → (locOf tr t).epoch = some e

theorem LeaderEpochs.act (hF : Flights tr σ) (h : LeaderEpochs tr)
    (hallow : Allowed g call (hist tr x) o) (hx : Node.exec g o i σ = some (a, σ')) :
    LeaderEpochs (.act x ⟨o, i, a⟩ :: tr) := by
  intro t k c e howns hent
  rcases owns_act hallow howns with hold | ⟨rfl, heq⟩
  · have he := h t k c e hold ((enteredUnder_act hF (hF.entered t k c hold) hx).1 hent)
    by_cases htx : x = t
    · subst htx
      rw [locOf_act_self]
      obtain ⟨s, hs, -⟩ := howns
      rw [locOf_act_self] at hs
      by_contra hne
      rw [← he] at hne
      rw [(epoch_next hallow hne).1] at hs
      cases hs
    · rw [locOf_act_ne htx]
      exact he
  · cases heq
    obtain ⟨A, B, u, k', j, htr, he⟩ := hent
    cases A with
    | nil =>
      cases htr
      rw [locOf_act_self]
      exact he
    | cons ℓ A =>
      cases htr
      have hlt := hF.fresh u k' c ⟨j, List.mem_append_right _ (List.mem_cons_self ..)⟩
      rw [lead_eq_next hx] at hlt
      exact absurd hlt (Nat.lt_irrefl _)

/-- The main cache is empty until an epoch is set. -/
def EmptyAtZero (σ : State) : Prop := σ.ownerEpoch = 0 → ∀ k, σ.main.view k = none

theorem EmptyAtZero.act (h : EmptyAtZero σ) (hm : MainOk g σ) {T₀ : Topology}
    (hM : Memberships T₀ tr σ) (hG : EpochGuard tr σ (.act x ⟨o, i, a⟩) σ')
    (hallow : Allowed g call (hist tr x) o) (hx : Node.exec g o i σ = some (a, σ')) :
    EmptyAtZero σ' := by
  intro h0 k
  by_cases hep : o.onEpoch = true
  · cases o with
    | ownerEpoch e =>
      -- the epoch that is set is positive
      have he : 0 < e := hM.epoch_pos hallow
      obtain ⟨-, σ₁, hact, rfl⟩ := exec_eq_some.1 hx
      cases hact
      change (Group.checkOwnerEpoch e i.order σ).ownerEpoch = 0 at h0
      unfold Group.checkOwnerEpoch at h0
      split at h0
      · simp only at h0
        omega
      · split at h0
        · simp only at h0
          omega
        · contradiction
    | _ => cases hep
  · have hep : o.onEpoch = false := by simpa using hep
    rw [(exec_frame hx).epoch hep] at h0
    obtain ⟨-, σ₁, hact, rfl⟩ := exec_eq_some.1 hx
    cases hv : σ₁.main.view k with
    | none => rfl
    | some y =>
      rcases view_of_act hm.wf hact hv with ⟨hs, -⟩ | ⟨hold, -⟩
      · have huse : o.usesMain = true := by
          cases o <;> first | rfl | cases hs
        have he := hM.epoch_pos (hG.cache x _ rfl huse)
        omega
      · rw [h h0 k] at hold
        cases hold

/-! ## Reads of one epoch -/

/-- The reads that observed the epoch `e` get values stored by operations that observed `e`. -/
def epochScope (k : GoString) (e : Nat) : Scope g where
  good := fun tr v => StoredUnder k v e tr
  trusts := fun _ σ => σ.ownerEpoch = e
  reads := fun tr t => (locOf tr t).epoch = some e
  calls := fun tr c => EnteredUnder tr c e

theorem StoredUnder.cons {ℓ : Label (node g)} (h : StoredUnder k v e tr) :
    StoredUnder k v e (ℓ :: tr) := by
  obtain ⟨A, B, t, ev, rfl, hs, he⟩ := h
  exact ⟨ℓ :: A, B, t, ev, rfl, hs, he⟩

theorem epochScope_grows (hF : Flights tr σ) (hallow : Allowed g call (hist tr x) o)
    (hx : Node.exec g o i σ = some (a, σ')) :
    (epochScope k e).Grows k tr (.act x ⟨o, i, a⟩) := by
  refine ⟨fun v hv => hv.cons, fun t c hent => enteredUnder_act hF hent hx, ?_⟩
  intro t ht
  change (locOf _ t).epoch = some e at ht
  by_cases htx : x = t
  · subst htx
    rw [locOf_act_self] at ht ⊢
    by_cases heq : ((locOf tr x).next o a).epoch = (locOf tr x).epoch
    · exact Or.inl (heq.symm.trans ht)
    · exact Or.inr (epoch_next hallow heq)
  · rw [locOf_act_ne htx] at ht
    exact Or.inl ht

/-- When the main cache is set to another epoch, it is empty. -/
theorem ownerEpoch_act (h0 : EmptyAtZero σ)
    (hx : Node.exec g o i σ = some (a, σ')) (he : σ'.ownerEpoch = e) :
    σ.ownerEpoch = e ∨ ∀ v, σ'.main.live σ'.clock k ≠ some v := by
  by_cases hep : o.onEpoch = true
  · cases o with
    | ownerEpoch e' =>
      obtain ⟨-, σ₁, hact, rfl⟩ := exec_eq_some.1 hx
      cases hact
      change (Group.checkOwnerEpoch e' i.order σ).ownerEpoch = e at he
      have hnone : (Group.checkOwnerEpoch e' i.order σ).main.view k = none →
          ∀ v, (Group.checkOwnerEpoch e' i.order σ).main.live i.last k ≠ some v := by
        intro hview v hv
        obtain ⟨d, hd, -⟩ := Cache.live_eq_some.1 hv
        rw [hview] at hd
        cases hd
      unfold Group.checkOwnerEpoch at he hnone ⊢
      split at he
      · next hz =>
        simp only [hz, ↓reduceIte] at hnone ⊢
        exact Or.inr (hnone (h0 hz k))
      · next hz =>
        split at he
        · next hne =>
          simp only [hz, hne, ne_eq, not_false_eq_true, ↓reduceIte] at hnone ⊢
          exact Or.inr (hnone (Cache.view_clear ..))
        · exact Or.inl he
    | _ => cases hep
  · have hep : o.onEpoch = false := by simpa using hep
    rw [(exec_frame hx).epoch hep] at he
    exact Or.inl he

theorem epochScope_acts (h0 : EmptyAtZero σ) (hl : LeaderEpochs tr)
    (hG : EpochGuard tr σ (.act x ⟨o, i, a⟩) σ') (hx : Node.exec g o i σ = some (a, σ')) :
    (epochScope k e).Acts k tr σ x ⟨o, i, a⟩ σ' := by
  refine ⟨fun he => ownerEpoch_act h0 hx he, ?_, ?_, ?_, ?_⟩
  · intro v hs hor
    have huse : o.usesMain = true := by
      cases o <;> first | rfl | cases hs
    have hep : o.onEpoch = false := by
      cases o <;> first | rfl | cases hs
    refine ⟨[], tr, x, _, rfl, hs, ?_⟩
    rcases hor with he | ⟨c, howns, hent⟩
    · rw [hG.cache x _ rfl huse, ← (exec_frame hx).epoch hep]
      exact congrArg some he
    · exact hl x k c e howns hent
  · intro ho hreads
    have he := hG.cache x _ rfl (by rw [ho]; rfl)
    exact Option.some.inj (he.symm.trans hreads)
  · intro c howns hent ho
    have huse : o.usesMain = true := by
      rcases ho with ⟨s, ho⟩ | ⟨s, n, b, ho⟩ <;> change o = _ at ho <;> rw [ho] <;> rfl
    have he := hG.cache x _ rfl huse
    exact Option.some.inj (he.symm.trans (hl x k c e howns hent))
  · rintro j c hreads (heq | heq)
    · cases heq
      exact (hG.joins x k i c e rfl hreads).cons
    · cases heq
      exact ⟨[], tr, x, k, i, rfl, hreads⟩

theorem enteredUnder_other {ℓ : Label (node g)} {c : Nat} (hℓ : ∀ t e, ℓ ≠ .act t e) :
    EnteredUnder (ℓ :: tr) c e ↔ EnteredUnder tr c e := by
  refine ⟨?_, EnteredUnder.cons⟩
  rintro ⟨A, B, u, k', j, htr, he⟩
  cases A with
  | nil =>
    cases htr
    exact absurd rfl (hℓ _ _)
  | cons ℓ' A =>
    cases htr
    exact ⟨A, B, u, k', j, rfl, he⟩

/-- What is known of the ownership periods. -/
structure Periods (tr : Trace g) (σ : State) : Prop where
  leaders : LeaderEpochs tr
  empty : EmptyAtZero σ
  reads : ∀ k e, (epochScope k e).Inv k tr σ

/-- A step without an action keeps it. -/
theorem Periods.other {ℓ : Label (node g)} (h : Periods tr σ) (hF : Flights tr σ)
    (hℓ : ∀ t e, ℓ ≠ .act t e) (hl : ∀ t, locOf (ℓ :: tr) t = locOf tr t)
    (hv : ∀ k x, σ'.main.view k = some x → σ.main.view k = some x)
    (hm : ∀ k v, σ'.main.live σ'.clock k = some v → σ.main.live σ.clock k = some v)
    (he : σ'.ownerEpoch = σ.ownerEpoch) (hc : σ'.calls = σ.calls) : Periods (ℓ :: tr) σ' := by
  refine ⟨?_, ?_, ?_⟩
  · rintro t k c e ⟨s, hs, ho⟩ hent
    rw [hl] at hs ho ⊢
    exact h.leaders t k c e ⟨s, hs, ho⟩ ((enteredUnder_other hℓ).1 hent)
  · intro h0 k
    rw [he] at h0
    cases hvk : σ'.main.view k with
    | none => rfl
    | some x =>
      have hold := hv k x hvk
      rw [h.empty h0 k] at hold
      cases hold
  · intro k e
    have hgrows : (epochScope k e).Grows k tr ℓ := by
      refine ⟨fun v hv => hv.cons, fun t c _ => enteredUnder_other hℓ, ?_⟩
      intro t ht
      change (locOf _ t).epoch = some e at ht
      rw [hl] at ht
      exact Or.inl ht
    refine (h.reads k e).other hF hgrows hℓ hl ?_ (hm k) hc
    intro htrust
    exact he.symm.trans htrust

/-- **Ownership periods over whole runs.** -/
theorem Run.periods (h₀ : σ₀.Fresh) {c : Config (node g)} (h : Run EpochGuard σ₀ c tr) :
    Periods tr c.state := by
  refine (h.guarded (I := fun tr σ => MainOk g σ ∧ Flights tr σ ∧ Memberships σ₀.topology tr σ)
    fun h => ⟨Run.mainOk h₀ h, Run.flights h₀ h, Run.memberships h₀ h⟩).inv (P := protocol g)
    ⟨?_, ?_, ?_, ?_, ?_⟩
  · refine ⟨?_, fun _ => h₀.main_view, fun k e => Scope.Inv.start h₀⟩
    rintro t k c e ⟨s, hs, -⟩
    cases hs
  · intro tr σ t call h hG _ _
    exact h.other hG.2.1.2.1 (fun _ _ h => by cases h) (fun _ => rfl) (fun _ _ h => h)
      (fun _ _ h => h) rfl rfl
  · intro tr σ x call o i a σ' h hG _ hallow hx
    obtain ⟨hG, ⟨hm, hF, hM⟩, -⟩ := hG
    refine ⟨h.leaders.act hF hallow hx, h.empty.act hm hM hG hallow hx, ?_⟩
    intro k e
    exact (h.reads k e).act hm hF (epochScope_grows hF hallow hx)
      (epochScope_acts h.empty h.leaders hG hx) hallow hx
  · intro tr σ t call r h hG _ _
    exact h.other hG.2.1.2.1 (fun _ _ h => by cases h) (fun _ => rfl) (fun _ _ h => h)
      (fun _ _ h => h) rfl rfl
  · intro tr σ ev σ' h hG hx
    refine h.other hG.2.1.2.1 (fun _ _ h => by cases h) (fun _ => rfl) ?_
      (fun k v hv => live_of_env hG.2.1.1 hx hv) (env_frame hx).epoch (env_frame hx).flights.2.1
    intro k x hv
    exact view_of_env hG.2.1.1 hx hv

/-- Whenever a local read of `key` that observed the epoch `e` returns a value, the value was stored
by an operation that observed `e`. -/
def ServedUnder (tr : Trace g) : Prop :=
  ∀ A B t key s i v e, tr = A ++ .act t ⟨.releaseKeyState key s, i, ()⟩ :: B →
    LocalRead (locOf B t).out key v → (locOf B t).epoch = some e → StoredUnder key v e B

/-- **An entry of another ownership period is not served**, in every run in which each lookup and
each store finds the main cache set to the epoch its operation observed. -/
theorem served_under_own_epoch (h₀ : σ₀.Fresh) {c : Config (node g)}
    (h : Run EpochGuard σ₀ c tr) : ServedUnder tr := by
  rintro A B t key s i v e rfl hr he
  obtain ⟨c₁, cmd, c₂, hrun, -, -⟩ := h.split
  exact ((Run.periods h₀ hrun).reads key e).out t v he hr

/-- A step that meets the condition and joins no call. -/
def ownStep (tr : Trace g) (σ : State) : Label (node g) → Bool
  | .act _ ⟨.doEnter _, _, .join _⟩ => false
  | .act t ev => !ev.op.usesMain || (locOf tr t).epoch = some σ.ownerEpoch
  | _ => true

theorem epochGuard_of_own (tr : Trace g) (σ : State) (ℓ : Label (node g)) (σ' : State)
    (h : ownStep tr σ ℓ = true) : EpochGuard tr σ ℓ σ' := by
  refine ⟨?_, ?_⟩
  · rintro t ⟨o, i, a⟩ rfl huse
    change o.usesMain = true at huse
    have hcheck : (!o.usesMain || decide ((locOf tr t).epoch = some σ.ownerEpoch)) = true := by
      cases o with
      | doEnter key => cases huse
      | _ => exact h
    simpa [huse] using hcheck
  · rintro t k i c e rfl -
    cases h

/-- A `Set` on the owner, then a read there. -/
def setThenGet : Trace Cfg.pair :=
  let i := Inp.fetch []
  let k := ascii "k"
  [.act 1 ⟨.count .localHits, i, ()⟩, .act 1 ⟨.mainGet k, i, some ⟨[1]⟩⟩,
    .act 1 ⟨.acquireKeyState k, i, 1⟩, .act 1 ⟨.ownerEpoch 1, i, ()⟩,
    .act 1 ⟨.pickOwner .prepare k, i, pickSelf 1⟩, .act 1 ⟨.loadClosed, i, false⟩,
    .act 1 ⟨.pickOwner .route k, i, pickSelf 1⟩, .act 1 ⟨.loadClosed, i, false⟩,
    .spawn 1 (.get k), .act 0 ⟨.releaseKeyState k 0, i, ()⟩,
    .act 0 ⟨.setSection 0 k [1], i, ()⟩, .act 0 ⟨.acquireKeyState k, i, 0⟩,
    .act 0 ⟨.ownerEpoch 1, i, ()⟩, .act 0 ⟨.pickOwner .prepare k, i, pickSelf 1⟩,
    .act 0 ⟨.loadClosed, i, false⟩, .act 0 ⟨.pickOwner .route k, i, pickSelf 1⟩,
    .act 0 ⟨.loadClosed, i, false⟩, .spawn 0 (.set k [1])]

/-- The read is served what was stored under its own epoch. -/
theorem get_served_under_own_epoch : ∃ c : Config (node Cfg.pair), ∃ tr,
    tr = .act 1 ⟨.releaseKeyState (ascii "k") 1, Inp.fetch [], ()⟩ :: setThenGet ∧
    Run EpochGuard State.pair c tr ∧ ServedUnder tr := by
  obtain ⟨c, hsteps⟩ : ∃ c, (Config.start (M := node Cfg.pair) State.pair).stepsIf ownStep []
      (.spawn (.set (ascii "k") [1]) :: List.replicate 8 (.run 0 (Inp.fetch [])) ++
        .spawn (.get (ascii "k")) :: List.replicate 9 (.run 1 (Inp.fetch []))) =
      some (c, .act 1 ⟨.releaseKeyState (ascii "k") 1, Inp.fetch [], ()⟩ :: setThenGet) :=
    ⟨_, rfl⟩
  have hrun : Run EpochGuard State.pair c _ := Run.stepsIf epochGuard_of_own .start hsteps
  exact ⟨c, _, rfl, hrun, served_under_own_epoch State.fresh_pair hrun⟩

/-- The epochs that the operations which stored something had observed, newest first. -/
def storeEpochs : Trace g → List (Option Nat)
  | [] => []
  | .act t ⟨.setSection _ _ _, _, _⟩ :: tr => (locOf tr t).epoch :: storeEpochs tr
  | .act t ⟨.loadCommit _ _ _ _, _, .stored _⟩ :: tr => (locOf tr t).epoch :: storeEpochs tr
  | _ :: tr => storeEpochs tr

theorem StoredUnder.mem_storeEpochs (h : StoredUnder k v e tr) : some e ∈ storeEpochs tr := by
  obtain ⟨A, B, t, ⟨o, i, a⟩, rfl, hs, he⟩ := h
  induction A with
  | nil =>
    rcases hs.cases with ⟨s, heq⟩ | ⟨s, n, b, heq⟩ <;>
      · cases heq
        exact List.mem_cons.2 (Or.inl he.symm)
  | cons ℓ A ih =>
    rw [List.cons_append]
    unfold storeEpochs
    split
    · next heq => cases heq
    · next heq =>
      cases heq
      exact List.mem_cons_of_mem _ ih
    · next heq =>
      cases heq
      exact List.mem_cons_of_mem _ ih
    · next heq =>
      cases heq
      exact ih

/-- A `Set` observes the epoch `1`; the key moves to the other node and back; a read observes the
epoch `3` and has the main cache cleared; then the `Set` stores. -/
def slowSet : Trace Cfg.pair :=
  let i := Inp.fetch []
  let k := ascii "k"
  [.act 1 ⟨.count .localHits, i, ()⟩, .act 1 ⟨.mainGet k, i, some ⟨[1]⟩⟩,
    .act 0 ⟨.setSection 0 k [1], i, ()⟩, .act 1 ⟨.acquireKeyState k, i, 0⟩,
    .act 1 ⟨.ownerEpoch 3, i, ()⟩, .act 1 ⟨.pickOwner .prepare k, i, pickSelf 3⟩,
    .act 1 ⟨.loadClosed, i, false⟩, .act 1 ⟨.pickOwner .route k, i, pickSelf 3⟩,
    .act 1 ⟨.loadClosed, i, false⟩, .spawn 1 (.get k), .env (.membership (.mine 3)),
    .env (.membership (.theirs 2)), .act 0 ⟨.acquireKeyState k, i, 0⟩,
    .act 0 ⟨.ownerEpoch 1, i, ()⟩, .act 0 ⟨.pickOwner .prepare k, i, pickSelf 1⟩,
    .act 0 ⟨.loadClosed, i, false⟩, .act 0 ⟨.pickOwner .route k, i, pickSelf 1⟩,
    .act 0 ⟨.loadClosed, i, false⟩, .spawn 0 (.set k [1])]

/-- The read is served what was stored under the earlier epoch. -/
theorem get_served_under_old_epoch : ∃ c : Config (node Cfg.pair), ∃ tr,
    Run Free State.pair c tr ∧ ¬ ServedUnder tr := by
  obtain ⟨c, hsteps⟩ : ∃ c, (Config.start (M := node Cfg.pair) State.pair).steps []
      (.spawn (.set (ascii "k") [1]) :: List.replicate 6 (.run 0 (Inp.fetch [])) ++
        .env (.membership (.theirs 2)) :: .env (.membership (.mine 3)) ::
        .spawn (.get (ascii "k")) :: List.replicate 6 (.run 1 (Inp.fetch [])) ++
        .run 0 (Inp.fetch []) :: List.replicate 3 (.run 1 (Inp.fetch []))) =
      some (c, .act 1 ⟨.releaseKeyState (ascii "k") 0, Inp.fetch [], ()⟩ :: slowSet) := ⟨_, rfl⟩
  refine ⟨c, _, Run.steps .start hsteps, fun hserved => ?_⟩
  have hstored : StoredUnder (ascii "k") ⟨[1]⟩ 3 slowSet :=
    hserved [] slowSet 1 _ _ _ _ _ rfl (Or.inl rfl) rfl
  have honly : some 3 ∈ [some 1] := hstored.mem_storeEpochs
  exact absurd honly (by decide)

end Locache
