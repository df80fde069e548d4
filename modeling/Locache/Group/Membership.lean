import Locache.Group.Effects

/-!
# Memberships

The memberships a node has had, newest first, are read off its trace. Every one has a positive epoch
of its own, so two answers of `PickOwner` for one key under one epoch are the same answer, and no
goroutine ever sees an odd one (`Memberships`).
-/

namespace Locache

open Conc

variable {g : Cfg} {tr : Trace g} {σ σ' σ₀ : State} {T₀ : Topology}

/-- The memberships of a run that started with `T₀`. -/
def topologies (T₀ : Topology) : Trace g → List Topology
  | [] => [T₀]
  | .env (.membership T) :: tr => T :: topologies T₀ tr
  | _ :: tr => topologies T₀ tr

structure Memberships (T₀ : Topology) (tr : Trace g) (σ : State) : Prop where
  current : σ.topology ∈ topologies T₀ tr
  epochs : σ.epochs = (topologies T₀ tr).map Topology.epoch
  nodup : ((topologies T₀ tr).map Topology.epoch).Nodup
  pos : ∀ T ∈ topologies T₀ tr, 0 < T.epoch
  picks : ∀ t site key i p, .act t ⟨.pickOwner site key, i, p⟩ ∈ tr →
    ∃ T ∈ topologies T₀ tr, T.pick key = p

namespace Memberships

/-- An epoch belongs to one membership. -/
theorem eq_of_epoch (h : Memberships T₀ tr σ) {T T' : Topology} (hT : T ∈ topologies T₀ tr)
    (hT' : T' ∈ topologies T₀ tr) (he : T.epoch = T'.epoch) : T = T' :=
  List.inj_on_of_nodup_map h.nodup hT hT' he

theorem pick_unique (h : Memberships T₀ tr σ) {t t' : Nat} {site site' : Site} {key : GoString}
    {i i' : Inp} {p q : Pick} (hp : .act t ⟨.pickOwner site key, i, p⟩ ∈ tr)
    (hq : .act t' ⟨.pickOwner site' key, i', q⟩ ∈ tr) (he : p.epoch = q.epoch) : p = q := by
  obtain ⟨T, hT, rfl⟩ := h.picks _ _ _ _ _ hp
  obtain ⟨T', hT', rfl⟩ := h.picks _ _ _ _ _ hq
  rw [T.pick_epoch, T'.pick_epoch] at he
  rw [h.eq_of_epoch hT hT' he]

theorem pick_pos (h : Memberships T₀ tr σ) {t : Nat} {site : Site} {key : GoString} {i : Inp}
    {p : Pick} (hp : .act t ⟨.pickOwner site key, i, p⟩ ∈ tr) : 0 < p.epoch := by
  obtain ⟨T, hT, rfl⟩ := h.picks _ _ _ _ _ hp
  rw [T.pick_epoch]
  exact h.pos T hT

/-- The client a picker returns is the owner's. -/
theorem peer_addr (h : Memberships T₀ tr σ) {t : Nat} {site : Site} {key : GoString} {i : Inp}
    {p : Pick} (hp : .act t ⟨.pickOwner site key, i, p⟩ ∈ tr) {c : Client}
    (hc : p.peer = .client (some c)) : c.addr = p.owner := by
  obtain ⟨T, -, rfl⟩ := h.picks _ _ _ _ _ hp
  exact T.pick_addr key c hc

theorem not_odd (h : Memberships T₀ tr σ) (t : Nat) : ¬ Odd (hist tr t) := by
  rintro ⟨site, key, i, q, hq, h0 | ⟨site', i', p, hp, he, hne⟩⟩
  · exact absurd h0 (Nat.ne_of_gt (h.pick_pos (mem_hist.1 hq)))
  · exact hne (h.pick_unique (mem_hist.1 hp) (mem_hist.1 hq) he)

/-- A step that changes no membership and asks no picker keeps the invariant. -/
theorem frame (h : Memberships T₀ tr σ) {ℓ : Label (node g)}
    (ht : topologies T₀ (ℓ :: tr) = topologies T₀ tr)
    (hp : ∀ t site key i p, ℓ = .act t ⟨.pickOwner site key, i, p⟩ → σ.topology.pick key = p)
    (h₁ : σ'.topology = σ.topology) (h₂ : σ'.epochs = σ.epochs) :
    Memberships T₀ (ℓ :: tr) σ' := by
  refine ⟨?_, ?_, ?_, ?_, ?_⟩
  · rw [ht, h₁]
    exact h.current
  · rw [ht, h₂]
    exact h.epochs
  · rw [ht]
    exact h.nodup
  · rw [ht]
    exact h.pos
  · intro t site key i p hm
    rw [ht]
    rcases List.mem_cons.1 hm with heq | hm
    · exact ⟨σ.topology, h.current, hp t site key i p heq.symm⟩
    · exact h.picks t site key i p hm

end Memberships

/-- **Memberships over whole runs.** -/
theorem Run.memberships {G : Guard (node g)} (h₀ : σ₀.Fresh) {c : Config (node g)}
    (h : Run G σ₀ c tr) : Memberships σ₀.topology tr c.state := by
  refine h.inv (P := protocol g) ⟨?_, ?_, ?_, ?_, ?_⟩
  · refine ⟨?_, ?_, ?_, ?_, ?_⟩
    · exact List.mem_singleton_self _
    · exact h₀.epochs
    · exact List.nodup_singleton _
    · intro T hT
      rw [List.mem_singleton.1 hT]
      exact h₀.epoch
    · intro t site key i p hm
      cases hm
  · exact fun h _ _ _ => h.frame rfl (fun _ _ _ _ _ h => by cases h) rfl rfl
  · intro tr σ t call o i a σ' h _ _ _ hx
    obtain ⟨h₁, h₂⟩ := (exec_frame hx).topology
    refine h.frame rfl ?_ h₁ h₂
    rintro _ site key _ p ⟨⟩
    obtain ⟨-, σ₁, hact, rfl⟩ := exec_eq_some.1 hx
    cases hact
    rfl
  · exact fun h _ _ _ => h.frame rfl (fun _ _ _ _ _ h => by cases h) rfl rfl
  · intro tr σ e σ' h _ hx
    cases e with
    | membership T =>
      simp only [Node.env, Option.ite_none_right_eq_some, Option.some.injEq] at hx
      obtain ⟨⟨hpos, hnew⟩, rfl⟩ := hx
      have hnew : T.epoch ∉ (topologies σ₀.topology tr).map Topology.epoch := h.epochs ▸ hnew
      refine ⟨?_, ?_, ?_, ?_, ?_⟩
      · exact List.mem_cons_self ..
      · exact congrArg (T.epoch :: ·) h.epochs
      · exact List.nodup_cons.2 ⟨hnew, h.nodup⟩
      · exact List.forall_mem_cons.2 ⟨hpos, h.pos⟩
      · intro t site key i p hm
        rcases List.mem_cons.1 hm with heq | hm
        · cases heq
        · obtain ⟨T', hT', hp⟩ := h.picks t site key i p hm
          exact ⟨T', List.mem_cons_of_mem _ hT', hp⟩
    | cleanupMain shard order now =>
      simp only [Node.env, Option.ite_none_left_eq_some, Option.some.injEq] at hx
      obtain ⟨-, rfl⟩ := hx
      exact h.frame rfl (fun _ _ _ _ _ h => by cases h) rfl rfl
    | cleanupNear shard order now =>
      simp only [Node.env, Option.ite_none_left_eq_some, Option.some.injEq] at hx
      obtain ⟨-, rfl⟩ := hx
      exact h.frame rfl (fun _ _ _ _ _ h => by cases h) rfl rfl

/-- No membership change. -/
def Stable : Label (node g) → Prop
  | .env (.membership _) => False
  | _ => True

theorem topologies_of_stable (h : ∀ ℓ ∈ tr, Stable ℓ) : topologies T₀ tr = [T₀] := by
  induction tr with
  | nil => rfl
  | cons ℓ tr ih =>
    have ih := ih fun ℓ hℓ => h ℓ (List.mem_cons_of_mem _ hℓ)
    have hℓ := h ℓ (List.mem_cons_self ..)
    match ℓ with
    | .env (.membership T) => cases hℓ
    | .env (.cleanupMain _ _ _) | .env (.cleanupNear _ _ _) | .spawn _ _ | .act _ _ | .ret _ _ =>
      exact ih

/-- Without membership changes the picker always gives the same answer. -/
theorem Memberships.pick_of_stable (h : Memberships T₀ tr σ) (hs : ∀ ℓ ∈ tr, Stable ℓ) {t : Nat}
    {site : Site} {key : GoString} {i : Inp} {p : Pick}
    (hp : .act t ⟨.pickOwner site key, i, p⟩ ∈ tr) : p = T₀.pick key := by
  obtain ⟨T, hT, rfl⟩ := h.picks _ _ _ _ _ hp
  rw [topologies_of_stable hs, List.mem_singleton] at hT
  rw [hT]

/-- Without membership changes the picker stays as it was. -/
theorem Memberships.topology_of_stable (h : Memberships T₀ tr σ) (hs : ∀ ℓ ∈ tr, Stable ℓ) :
    σ.topology = T₀ := by
  have hcur := h.current
  rwa [topologies_of_stable hs, List.mem_singleton] at hcur

/-- An epoch that an operation observed was that of an answer. -/
theorem epoch_mem {h : History} {e : Nat} (he : (loc h).epoch = some e) :
    ∃ key i p, (⟨.pickOwner .prepare key, i, p⟩ : Ev groupSig Inp) ∈ h ∧ p.epoch = e := by
  induction h with
  | nil => cases he
  | cons ev h ih =>
    obtain ⟨o, i, a⟩ := ev
    have hold : (loc h).epoch = some e → ∃ key i' p,
        (⟨.pickOwner .prepare key, i', p⟩ : Ev groupSig Inp) ∈ ⟨o, i, a⟩ :: h ∧ p.epoch = e := by
      intro he
      obtain ⟨key, j, p, hm, hp⟩ := ih he
      exact ⟨key, j, p, List.mem_cons_of_mem _ hm, hp⟩
    cases o with
    | pickOwner site key =>
      cases site with
      | prepare => exact ⟨key, i, a, List.mem_cons_self .., Option.some.inj he⟩
      | _ => exact hold he
    | _ => exact hold he

/-- The epoch an operation observed is positive. -/
theorem Memberships.epoch_pos {t e : Nat} (h : Memberships T₀ tr σ)
    (he : (locOf tr t).epoch = some e) : 0 < e := by
  obtain ⟨key, i, p, hm, rfl⟩ := epoch_mem he
  exact h.pick_pos (mem_hist.1 hm)

/-- The epoch an operation observed is that of the one membership. -/
theorem epoch_of_stable {t e : Nat} (hM : Memberships T₀ tr σ) (hs : ∀ ℓ ∈ tr, Stable ℓ)
    (he : (locOf tr t).epoch = some e) : e = T₀.epoch := by
  obtain ⟨key, i, p, hm, rfl⟩ := epoch_mem he
  rw [hM.pick_of_stable hs (mem_hist.1 hm), T₀.pick_epoch]

/-- An operation that has asked for the owner has observed an epoch. -/
theorem epoch_of_mem {h : History} {key : GoString} {i : Inp} {p : Pick}
    (hm : (⟨.pickOwner .prepare key, i, p⟩ : Ev groupSig Inp) ∈ h) :
    ∃ e, (loc h).epoch = some e := by
  induction h with
  | nil => cases hm
  | cons ev h ih =>
    obtain ⟨o, j, a⟩ := ev
    rcases List.mem_cons.1 hm with heq | hm
    · cases heq
      exact ⟨p.epoch, rfl⟩
    · obtain ⟨e, he⟩ := ih hm
      cases o with
      | pickOwner site key' =>
        cases site with
        | prepare => exact ⟨_, rfl⟩
        | _ => exact ⟨e, he⟩
      | _ => exact ⟨e, he⟩

/-- A goroutine that called the Getter had checked that the node owns the key. -/
theorem Run.checked {G : Guard (node g)} {c : Config (node g)} (h : Run G σ₀ c tr) {t id : Nat}
    {key : GoString} {i : Inp} (hm : .act t ⟨.getterStart key, i, id⟩ ∈ tr) :
    Checked g key (hist tr t) := by
  obtain ⟨X, Y, hXY⟩ := List.append_of_mem (mem_hist.2 hm)
  have hs : ⟨.getterStart key, i, id⟩ :: Y <:+ hist tr t := ⟨X, hXY.symm⟩
  obtain ⟨call, -, hchecked, -⟩ := h.allowed (protocol g) t _ _ hs
  exact hchecked.mono ((List.suffix_cons _ _).trans hs)

end Locache
