import Locache.Service.Protocol

/-!
# What the actions of a server change

One lemma for each part of the state says which actions can change it, and how: the flags of the
server and of its registrations (`frame_of_act`), the leases and keys in etcd (`leasing_of_act`),
and what goes on beside the calls (`env_cases`).
-/

namespace Locache.Service

open Conc

variable {σ σ' σ₁ : State} {o : Op} {i : Inp} {a : o.Ans} {n lease : Nat}

theorem exec_eq_some : exec o i σ = some (a, σ') ↔
    σ.clock ≤ i.now ∧ ∃ σ₁, act i σ o = some (a, σ₁) ∧ σ' = { σ₁ with clock := i.now } := by
  unfold exec
  split
  · next hlt => simp [not_le.2 hlt]
  · next hle =>
    simp only [Option.map_eq_some_iff, Prod.mk.injEq, Prod.exists]
    constructor
    · rintro ⟨a', σ₁, hact, rfl, rfl⟩
      exact ⟨not_lt.1 hle, σ₁, hact, rfl⟩
    · rintro ⟨-, σ₁, hact, rfl⟩
      exact ⟨a, σ₁, hact, rfl, rfl⟩

/-! ## Flags -/

/-- What an action leaves alone, and what it can only set. -/
structure Frame (o : Op) (σ σ' : State) : Prop where
  cancelled : σ.cancelled = true → σ'.cancelled = true
  stopped : σ.stopped = true → σ'.stopped = true
  etcdOpen : σ.etcdOpen = false → σ'.etcdOpen = false
  regCancelled : ∀ n, (σ.regs n).cancelled = true → (σ'.regs n).cancelled = true
  once : ∀ n, o ≠ .closeEnter n → o ≠ .closeLeave n → (σ'.regs n).once = (σ.regs n).once
  stopOnce : o ≠ .stopEnter → o ≠ .stopLeave → σ'.stopOnce = σ.stopOnce
  renews : ∀ n, (∀ lease, o ≠ .keepAlive n lease) → (σ'.regs n).renews = (σ.regs n).renews
  leaseID : ∀ n, (∀ lease, o ≠ .newRegistration n lease) →
    (σ'.regs n).leaseID = (σ.regs n).leaseID
  registration : (∀ n lis, o ≠ .setRegistration n lis) → σ'.registration = σ.registration

section Frame

theorem setReg_regs {r : Reg} {m : Nat} :
    (σ.setReg n r).regs m = if m = n then r else σ.regs m := by
  simp [State.setReg, Function.update_apply]

/-- An action that changes one registration. -/
theorem Frame.setReg {r : Reg} (hc : (σ.regs n).cancelled = true → r.cancelled = true)
    (ho : o ≠ .closeEnter n → o ≠ .closeLeave n → r.once = (σ.regs n).once)
    (hr : (∀ lease, o ≠ .keepAlive n lease) → r.renews = (σ.regs n).renews)
    (hl : (∀ lease, o ≠ .newRegistration n lease) → r.leaseID = (σ.regs n).leaseID) :
    Frame o σ (σ.setReg n r) := by
  refine ⟨id, id, id, ?_, ?_, fun _ _ => rfl, ?_, ?_, fun _ => rfl⟩
  all_goals
    intro m
    rw [setReg_regs]
    split
    · next heq =>
      subst heq
      assumption
    · simp

/-- An action that leaves the registrations and the server alone. -/
theorem Frame.of_eq (h₁ : σ'.cancelled = σ.cancelled) (h₂ : σ'.stopped = σ.stopped)
    (h₃ : σ'.etcdOpen = σ.etcdOpen) (h₄ : σ'.regs = σ.regs) (h₅ : σ'.stopOnce = σ.stopOnce)
    (h₆ : σ'.registration = σ.registration) : Frame o σ σ' := by
  refine ⟨?_, ?_, ?_, ?_, ?_, fun _ _ => h₅, ?_, ?_, fun _ => h₆⟩ <;> simp [h₁, h₂, h₃, h₄]

theorem Frame.grant (ttl : Int) : Frame o σ (σ.grant n ttl i).2 := by
  apply Frame.of_eq <;>
    · unfold State.grant
      cases i.outcome <;> simp only
      split <;> rfl

theorem Frame.put (key value : GoString) : Frame o σ (σ.put n key value lease i).2 := by
  apply Frame.of_eq <;>
    · unfold State.put
      split
      · cases i.outcome <;> simp only
        split <;> rfl
      · rfl

theorem Frame.revoke : Frame o σ (σ.revoke n i).2 := by
  apply Frame.of_eq <;>
    · unfold State.revoke
      split
      · rfl
      · split
        · rfl
        · split
          · cases i.outcome <;> simp only [State.dropLease]
            split <;> rfl
          · rfl

theorem Frame.keepAlive : Frame (.keepAlive n lease) σ (σ.keepAlive n lease i).2 := by
  unfold State.keepAlive
  split
  · exact .setReg id (fun _ _ => rfl) (fun h => absurd rfl (h lease)) fun _ => rfl
  · exact .of_eq rfl rfl rfl rfl rfl rfl

theorem frame_of_act (h : act i σ o = some (a, σ₁)) : Frame o σ σ₁ := by
  cases o with
  | listen =>
    simp only [act] at h
    split at h <;> cases h <;> exact .of_eq rfl rfl rfl rfl rfl rfl
  | grant reg ttl =>
    obtain rfl : (σ.grant reg ttl i).2 = σ₁ := congrArg Prod.snd (Option.some.inj h)
    exact .grant ttl
  | put reg key value lease =>
    obtain rfl : (σ.put reg key value lease i).2 = σ₁ := congrArg Prod.snd (Option.some.inj h)
    exact .put key value
  | keepAlive reg lease =>
    obtain rfl : (σ.keepAlive reg lease i).2 = σ₁ := congrArg Prod.snd (Option.some.inj h)
    exact .keepAlive
  | newRegistration reg lease =>
    cases h
    exact .setReg id (fun _ _ => rfl) (fun _ => rfl) fun h => absurd rfl (h lease)
  | cancelReg reg =>
    cases h
    exact .setReg (fun _ => rfl) (fun _ _ => rfl) (fun _ => rfl) fun _ => rfl
  | setRegistration reg lis =>
    cases h
    exact ⟨id, id, id, fun _ => id, fun _ _ _ => rfl, fun _ _ => rfl, fun _ _ => rfl,
      fun _ _ => rfl, fun h => absurd rfl (h reg lis)⟩
  | serveEnd lis =>
    simp only [act] at h
    split at h
    · cases h
      exact .of_eq rfl rfl rfl rfl rfl rfl
    · split at h <;> cases h
      exact .of_eq rfl rfl rfl rfl rfl rfl
  | closeEnter reg =>
    simp only [act, Option.map_eq_some_iff] at h
    obtain ⟨r, -, heq⟩ := h
    cases heq
    exact .setReg id (fun h => absurd rfl h) (fun _ => rfl) fun _ => rfl
  | awaitDone reg =>
    simp only [act] at h
    split at h
    · cases h
      exact .of_eq rfl rfl rfl rfl rfl rfl
    · split at h <;> cases h
      exact .of_eq rfl rfl rfl rfl rfl rfl
  | revoke reg =>
    obtain rfl : (σ.revoke reg i).2 = σ₁ := congrArg Prod.snd (Option.some.inj h)
    exact .revoke
  | closeLeave reg =>
    cases h
    exact .setReg id (fun _ h => absurd rfl h) (fun _ => rfl) fun _ => rfl
  | stopEnter =>
    simp only [act, Option.map_eq_some_iff] at h
    obtain ⟨r, -, heq⟩ := h
    cases heq
    exact ⟨id, id, id, fun _ => id, fun _ _ _ => rfl, fun h => absurd rfl h, fun _ _ => rfl,
      fun _ _ => rfl, fun _ => rfl⟩
  | cancel =>
    cases h
    exact ⟨fun _ => rfl, id, id, fun _ => id, fun _ _ _ => rfl, fun _ _ => rfl, fun _ _ => rfl,
      fun _ _ => rfl, fun _ => rfl⟩
  | gracefulStop =>
    cases h
    exact ⟨id, fun _ => rfl, id, fun _ => id, fun _ _ _ => rfl, fun _ _ => rfl, fun _ _ => rfl,
      fun _ _ => rfl, fun _ => rfl⟩
  | closeEtcd =>
    cases h
    exact ⟨id, id, fun _ => rfl, fun _ => id, fun _ _ _ => rfl, fun _ _ => rfl, fun _ _ => rfl,
      fun _ _ => rfl, fun _ => rfl⟩
  | stopLeave =>
    cases h
    exact ⟨id, id, id, fun _ => id, fun _ _ _ => rfl, fun _ h => absurd rfl h, fun _ _ => rfl,
      fun _ _ => rfl, fun _ => rfl⟩
  | _ =>
    cases h
    exact .of_eq rfl rfl rfl rfl rfl rfl

end Frame

/-! ## Leases -/

/-- What an action does to the leases. -/
structure Leasing (i : Inp) (σ σ' : State) : Prop where
  next : σ.nextLease ≤ σ'.nextLease
  lease : ∀ ℓ, σ'.leases ℓ = σ.leases ℓ ∨
    (ℓ = σ.nextLease ∧ σ.nextLease < σ'.nextLease ∧
      ∃ time : Duration, σ'.leases ℓ = some ⟨time, i.now + time, false⟩) ∨
    ∃ L, σ.leases ℓ = some L ∧ σ'.leases ℓ = some { L with revoked := true } ∧
      ∀ key value, σ'.kvs key ≠ some (value, ℓ)
  keys : ∀ key value ℓ, σ'.kvs key = some (value, ℓ) →
    σ.kvs key = some (value, ℓ) ∨ (σ.leases ℓ).any (Lease.live i.now) = true

section Leasing

theorem Leasing.of_eq (h₁ : σ'.leases = σ.leases) (h₂ : σ'.nextLease = σ.nextLease)
    (h₃ : σ'.kvs = σ.kvs) : Leasing i σ σ' :=
  ⟨h₂.ge, fun ℓ => Or.inl (congrFun h₁ ℓ), fun key value ℓ hk => Or.inl (by rw [← h₃, hk])⟩

theorem Leasing.grant (ttl : Int) : Leasing i σ (σ.grant n ttl i).2 := by
  have hnew : Leasing i σ { σ with
      leases := Function.update σ.leases σ.nextLease
        (some ⟨(ttl + i.extra) * 10 ^ 9, i.now + (ttl + i.extra) * 10 ^ 9, false⟩)
      nextLease := σ.nextLease + 1 } := by
    refine ⟨Nat.le_succ _, ?_, fun _ _ _ hk => Or.inl hk⟩
    intro ℓ
    by_cases hℓ : ℓ = σ.nextLease
    · subst hℓ
      exact Or.inr (Or.inl ⟨rfl, Nat.lt_succ_self _, _, Function.update_self ..⟩)
    · exact Or.inl (Function.update_of_ne hℓ _ _)
  unfold State.grant
  cases i.outcome with
  | success =>
    simp only
    split
    · exact hnew
    · exact .of_eq rfl rfl rfl
  | lost => exact hnew
  | refused => exact .of_eq rfl rfl rfl

theorem Leasing.put (key value : GoString) : Leasing i σ (σ.put n key value lease i).2 := by
  unfold State.put
  split
  · next hlive =>
    have hput : Leasing i σ
        { σ with kvs := Function.update σ.kvs key (some (value, lease)) } := by
      refine ⟨Nat.le_refl _, fun _ => Or.inl rfl, ?_⟩
      intro key' value' ℓ hk
      by_cases hkey : key' = key
      · subst hkey
        simp only [Function.update_self, Option.some.injEq, Prod.mk.injEq] at hk
        obtain ⟨-, rfl⟩ := hk
        exact Or.inr hlive
      · simp only [Function.update_of_ne hkey] at hk
        exact Or.inl hk
    cases i.outcome with
    | success =>
      simp only
      split
      · exact hput
      · exact .of_eq rfl rfl rfl
    | lost => exact hput
    | refused => exact .of_eq rfl rfl rfl
  · exact .of_eq rfl rfl rfl

theorem Leasing.dropLease {L : Lease} (hL : σ.leases lease = some L) :
    Leasing i σ (σ.dropLease lease L) := by
  have hkeys : ∀ key value ℓ, (σ.dropLease lease L).kvs key = some (value, ℓ) →
      σ.kvs key = some (value, ℓ) ∧ ℓ ≠ lease := by
    intro key value ℓ hk
    simpa [State.dropLease, Option.filter_eq_some_iff] using hk
  refine ⟨Nat.le_refl _, ?_, fun key value ℓ hk => Or.inl (hkeys key value ℓ hk).1⟩
  intro ℓ
  by_cases hℓ : ℓ = lease
  · subst hℓ
    exact Or.inr (Or.inr ⟨L, hL, Function.update_self .., fun key value hk =>
      (hkeys key value ℓ hk).2 rfl⟩)
  · exact Or.inl (Function.update_of_ne hℓ _ _)

/-- A revocation that succeeded has revoked the lease of the registration. -/
theorem revoke_cases : (σ.revoke n i).2 = σ ∧ (σ.revoke n i).1 ≠ none ∨
    ∃ ℓ L, (σ.regs n).leaseID = some ℓ ∧ σ.leases ℓ = some L ∧
      (σ.revoke n i).2 = σ.dropLease ℓ L := by
  unfold State.revoke
  split
  · exact Or.inl ⟨rfl, by simp⟩
  · next ℓ hℓ =>
    split
    · exact Or.inl ⟨rfl, by simp⟩
    · next L hL =>
      split
      · cases i.outcome with
        | success =>
          simp only
          split
          · exact Or.inr ⟨ℓ, L, hℓ, hL, rfl⟩
          · exact Or.inl ⟨rfl, by simp⟩
        | lost => exact Or.inr ⟨ℓ, L, hℓ, hL, rfl⟩
        | refused => exact Or.inl ⟨rfl, by simp⟩
      · exact Or.inl ⟨rfl, by simp⟩

theorem leasing_of_act (h : act i σ o = some (a, σ₁)) : Leasing i σ σ₁ := by
  cases o with
  | listen =>
    simp only [act] at h
    split at h <;> cases h <;> exact .of_eq rfl rfl rfl
  | grant reg ttl =>
    obtain rfl : (σ.grant reg ttl i).2 = σ₁ := congrArg Prod.snd (Option.some.inj h)
    exact .grant ttl
  | put reg key value lease =>
    obtain rfl : (σ.put reg key value lease i).2 = σ₁ := congrArg Prod.snd (Option.some.inj h)
    exact .put key value
  | keepAlive reg lease =>
    obtain rfl : (σ.keepAlive reg lease i).2 = σ₁ := congrArg Prod.snd (Option.some.inj h)
    unfold State.keepAlive
    split <;> exact .of_eq rfl rfl rfl
  | serveEnd lis =>
    simp only [act] at h
    split at h
    · cases h
      exact .of_eq rfl rfl rfl
    · split at h <;> cases h
      exact .of_eq rfl rfl rfl
  | closeEnter reg =>
    simp only [act, Option.map_eq_some_iff] at h
    obtain ⟨r, -, heq⟩ := h
    cases heq
    exact .of_eq rfl rfl rfl
  | awaitDone reg =>
    simp only [act] at h
    split at h
    · cases h
      exact .of_eq rfl rfl rfl
    · split at h <;> cases h
      exact .of_eq rfl rfl rfl
  | revoke reg =>
    obtain rfl : (σ.revoke reg i).2 = σ₁ := congrArg Prod.snd (Option.some.inj h)
    rcases revoke_cases (σ := σ) (n := reg) (i := i) with ⟨heq, -⟩ | ⟨ℓ, L, -, hL, heq⟩
    · rw [heq]
      exact .of_eq rfl rfl rfl
    · rw [heq]
      exact .dropLease hL
  | stopEnter =>
    simp only [act, Option.map_eq_some_iff] at h
    obtain ⟨r, -, heq⟩ := h
    cases heq
    exact .of_eq rfl rfl rfl
  | _ =>
    cases h
    exact .of_eq rfl rfl rfl

end Leasing

theorem grant_ok {ttl : Int} (h : act i σ (.grant n ttl) = some (.ok lease, σ₁)) :
    lease = σ.nextLease ∧ σ₁.nextLease = σ.nextLease + 1 := by
  have hgrant : σ.grant n ttl i = (.ok lease, σ₁) := Option.some.inj h
  unfold State.grant at hgrant
  cases hout : i.outcome with
  | success =>
    rw [hout] at hgrant
    simp only at hgrant
    split at hgrant
    · cases hgrant
      exact ⟨rfl, rfl⟩
    · cases hgrant
  | lost =>
    rw [hout] at hgrant
    cases hgrant
  | refused =>
    rw [hout] at hgrant
    cases hgrant

/-! ## Beside the calls -/

/-- Everything that goes on beside the calls. -/
theorem env_cases {e : Event} (h : env e σ = some σ') :
    (∃ reg now ℓ L, (σ.regs reg).renews = some ℓ ∧ σ.leases ℓ = some L ∧ σ.reaches reg = true ∧
      σ.clock ≤ now ∧ σ' = { σ with
        leases := Function.update σ.leases ℓ (some { L with deadline := now + L.ttl })
        clock := now }) ∨
    ∃ reg r, σ' = σ.setReg reg r ∧ r.cancelled = (σ.regs reg).cancelled ∧
      r.once = (σ.regs reg).once ∧ r.leaseID = (σ.regs reg).leaseID ∧
      (r.renews = (σ.regs reg).renews ∨ r.renews = none) := by
  cases e with
  | renew reg now =>
    simp only [env, renew] at h
    split at h
    · cases h
    · next ℓ hℓ =>
      split at h
      · cases h
      · next L hL =>
        split at h
        · next hcond =>
          cases h
          exact Or.inl ⟨reg, now, ℓ, L, hℓ, hL, hcond.1, hcond.2.2, rfl⟩
        · cases h
  | channelClosed reg =>
    cases h
    exact Or.inr ⟨reg, _, rfl, rfl, rfl, rfl, Or.inr rfl⟩
  | readerDone reg =>
    simp only [env] at h
    split at h
    · cases h
      exact Or.inr ⟨reg, _, rfl, rfl, rfl, rfl, Or.inl rfl⟩
    · cases h

/-- What goes on beside the calls opens and closes nothing. -/
theorem frame_of_env {e : Event} (h : env e σ = some σ') :
    σ'.cancelled = σ.cancelled ∧ σ'.stopped = σ.stopped ∧ σ'.etcdOpen = σ.etcdOpen ∧
      σ'.stopOnce = σ.stopOnce ∧ σ'.registration = σ.registration ∧
      ∀ n, (σ'.regs n).cancelled = (σ.regs n).cancelled ∧
        (σ'.regs n).once = (σ.regs n).once ∧ (σ'.regs n).leaseID = (σ.regs n).leaseID ∧
        ((σ'.regs n).renews = (σ.regs n).renews ∨ (σ'.regs n).renews = none) := by
  rcases env_cases h with ⟨reg, now, ℓ, L, -, -, -, -, rfl⟩ | ⟨reg, r, rfl, hc, ho, hl, hr⟩
  · exact ⟨rfl, rfl, rfl, rfl, rfl, fun n => ⟨rfl, rfl, rfl, Or.inl rfl⟩⟩
  · refine ⟨rfl, rfl, rfl, rfl, rfl, fun n => ?_⟩
    rw [setReg_regs]
    split
    · next heq =>
      subst heq
      exact ⟨hc, ho, hl, hr⟩
    · exact ⟨rfl, rfl, rfl, Or.inl rfl⟩

end Locache.Service
