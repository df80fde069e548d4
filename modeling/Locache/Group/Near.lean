import Locache.Group.Membership

/-!
# The near cache

Every entry of the near cache comes from one insertion of this node, after which nothing removed it
(`Inserted`), and the goroutine that made it had called the owner of the key before, with the same
owner and epoch picked before and after the call (`Run.nearCopy`). The near key holds the epoch and
the key, and no epoch comes twice, so what a lookup finds belongs to the membership it was made for.
No two pairs of an epoch and a key share a near key (`near_keys_apart`).
-/

namespace Locache

open Conc
open Store (Expired)

variable {g : Cfg} {tr : Trace g} {σ σ' σ₀ : State} {t u x : Nat} {k key nk : GoString}
  {v : ByteView} {o : Op} {i : Inp} {a : o.Ans}

/-- A near key determines its epoch and its key. -/
theorem nearKey_inj {e e' : Nat} (h : Group.nearKey e k = Group.nearKey e' key) :
    e = e' ∧ k = key := by
  have hdigits : ∀ n (s : GoString),
      (Group.nearKey n s).takeWhile (fun b => decide (b ≠ 58)) = formatUint n := by
    intro n s
    rw [Group.nearKey, List.append_assoc, List.takeWhile_append_of_pos]
    · change formatUint n ++ List.takeWhile _ (58 :: s) = _
      simp
    · intro b hb
      rw [decide_eq_true_eq]
      rintro rfl
      exact colon_notMem_formatUint n hb
  obtain rfl : e = e' := formatUint_injective (by rw [← hdigits e k, h, hdigits])
  exact ⟨rfl, List.append_cancel_left h⟩

/-! ## Entries -/

/-- The value `v` with deadline `d` was inserted under `nk`, and `nk` was not deleted since. -/
def Inserted (tr : Trace g) (nk : GoString) (v : ByteView) (d : Option Time) : Prop :=
  ∃ A B u ttl i, tr = A ++ .act u ⟨.nearSet nk v ttl, i, ()⟩ :: B ∧ d = some (i.now + ttl) ∧
    ∀ t j b, .act t ⟨.nearDelete nk, j, b⟩ ∉ A

theorem Inserted.cons {d : Option Time} {ℓ : Label (node g)} (h : Inserted tr nk v d)
    (hℓ : ∀ t j b, ℓ ≠ .act t ⟨.nearDelete nk, j, b⟩) : Inserted (ℓ :: tr) nk v d := by
  obtain ⟨A, B, u, ttl, i, rfl, hd, hno⟩ := h
  refine ⟨ℓ :: A, B, u, ttl, i, rfl, hd, ?_⟩
  intro t j b hm
  rcases List.mem_cons.1 hm with heq | hm
  · exact hℓ t j b heq.symm
  · exact hno t j b hm

theorem near_wf_of_act {σ₁ : State} (hn : σ.near.WF) (h : Group.act g i σ o = some (a, σ₁)) :
    σ₁.near.WF := by
  cases o with
  | nearGet key => cases h; exact Cache.WF.get hn _ _
  | nearDelete key => cases h; exact Cache.WF.delete hn _
  | nearClear shard => cases h; exact Cache.WF.clearShard hn _ _
  | nearClose => cases h; exact Cache.WF.close hn
  | nearSet key view ttl => cases h; exact Cache.WF.addFor hn _ _ _ _ _ _
  | _ => rw [(act_frame h).near rfl]; exact hn

/-- What an entry of the near cache after an action is: one the action inserted, or one that was
there before and that the action does not delete. -/
theorem near_view_of_act {σ₁ : State} (hn : σ.near.WF) (h : Group.act g i σ o = some (a, σ₁))
    {y : ByteView × Option Time} (hy : σ₁.near.view nk = some y) :
    (∃ ttl, o = .nearSet nk y.1 ttl ∧ y.2 = some (i.now + ttl)) ∨
      (σ.near.view nk = some y ∧ o ≠ .nearDelete nk) := by
  cases o with
  | nearGet key =>
    cases h
    exact Or.inr ⟨Cache.view_get hn _ _ hy, fun h => by cases h⟩
  | nearDelete key =>
    cases h
    change (σ.near.delete key).2.view nk = _ at hy
    rw [Cache.view_delete hn] at hy
    split at hy
    · cases hy
    · next hne =>
      refine Or.inr ⟨hy, fun h => ?_⟩
      cases h
      exact hne rfl
  | nearClear shard =>
    cases h
    exact Or.inr ⟨Cache.view_clearShard _ _ _ hy, fun h => by cases h⟩
  | nearClose =>
    cases h
    rw [Cache.view_close] at hy
    cases hy
  | nearSet key view ttl =>
    cases h
    rcases Cache.view_addFor hn _ _ _ _ _ _ hy with ⟨rfl, rfl, -⟩ | ⟨hy, -⟩
    · exact Or.inl ⟨ttl, rfl, rfl⟩
    · exact Or.inr ⟨hy, fun h => by cases h⟩
  | _ =>
    rw [(act_frame h).near rfl] at hy
    exact Or.inr ⟨hy, fun h => by cases h⟩

/-- The near cache is well formed and its entries were inserted. -/
structure NearOk (tr : Trace g) (σ : State) : Prop where
  wf : σ.near.WF
  entries : ∀ nk v d, σ.near.view nk = some (v, d) → Inserted tr nk v d

/-- A step without an action keeps the entries. -/
theorem NearOk.other {ℓ : Label (node g)} (h : NearOk tr σ) (hℓ : ∀ t e, ℓ ≠ .act t e)
    (hwf : σ'.near.WF)
    (hv : ∀ nk y, σ'.near.view nk = some y → σ.near.view nk = some y) : NearOk (ℓ :: tr) σ' := by
  refine ⟨hwf, ?_⟩
  intro nk v d hd
  exact (h.entries nk v d (hv nk _ hd)).cons fun t j b => hℓ t _

/-- **The near cache over whole runs.** -/
theorem Run.nearOk {G : Guard (node g)} (h₀ : σ₀.Fresh) {c : Config (node g)}
    (h : Run G σ₀ c tr) : NearOk tr c.state := by
  refine h.inv (P := protocol g) ⟨?_, ?_, ?_, ?_, ?_⟩
  · refine ⟨h₀.near_wf, ?_⟩
    intro nk v d hd
    rw [h₀.near_view] at hd
    cases hd
  · exact fun h _ _ _ => h.other (fun _ _ h => by cases h) h.wf fun _ _ h => h
  · intro tr σ x call o i a σ' h _ _ _ hx
    obtain ⟨-, σ₁, hact, rfl⟩ := exec_eq_some.1 hx
    have hwf : σ₁.near.WF := near_wf_of_act h.wf hact
    refine ⟨hwf, ?_⟩
    intro nk v d hd
    rcases near_view_of_act h.wf hact hd with ⟨ttl, rfl, rfl⟩ | ⟨hold, hne⟩
    · exact ⟨[], tr, x, ttl, i, rfl, rfl, fun _ _ _ hm => by cases hm⟩
    · apply (h.entries nk v d hold).cons
      intro t j b heq
      cases heq
      exact hne rfl
  · exact fun h _ _ _ => h.other (fun _ _ h => by cases h) h.wf fun _ _ h => h
  · intro tr σ ev σ' h _ hx
    rcases env_cases hx with ⟨T, -, -, rfl⟩ | ⟨shard, order, now, -, -, rfl⟩ |
      ⟨shard, order, now, -, -, rfl⟩
    · exact h.other (fun _ _ h => by cases h) h.wf fun _ _ h => h
    · exact h.other (fun _ _ h => by cases h) h.wf fun _ _ h => h
    · exact h.other (fun _ _ h => by cases h) (Cache.WF.cleanupShard h.wf _ _ _)
        fun _ _ hv => Cache.view_cleanupShard h.wf _ _ _ hv

/-! ## Lookups and insertions -/

theorem env_clock {ev : Event} (h : Node.env ev σ = some σ') : σ.clock ≤ σ'.clock := by
  rcases env_cases h with ⟨T, -, -, rfl⟩ | ⟨shard, order, now, -, hc, rfl⟩ |
    ⟨shard, order, now, -, hc, rfl⟩
  · exact le_refl _
  · exact hc
  · exact hc

section Steps

variable {G : Guard (node g)} {c : Config (node g)} {A B : Trace g}

/-- What a lookup finds was inserted, and its time is not over. -/
theorem Run.near_hit (h₀ : σ₀.Fresh)
    (h : Run G σ₀ c (A ++ .act t ⟨.nearGet nk, i, some v⟩ :: B)) :
    ∃ d, Inserted B nk v d ∧ ¬ Expired d i.now := by
  obtain ⟨c₁, cmd, c₂, hrun, hstep, -⟩ := h.split
  obtain ⟨call, -, -, hx⟩ := hrun.of_act (protocol g) hstep
  obtain ⟨-, σ₁, hact, -⟩ := exec_eq_some.1 hx
  have hok := Run.nearOk h₀ hrun
  have hlive : c₁.state.near.live i.now nk = some v := by
    rw [← Cache.get_fst hok.wf]
    exact congrArg Prod.fst (Option.some.inj hact)
  obtain ⟨d, hd, hexp⟩ := Cache.live_eq_some.1 hlive
  exact ⟨d, hok.entries nk v d hd, hexp⟩

/-- Every clock reading is over when the next one is taken. -/
theorem Run.last_le_clock (h : Run G σ₀ c tr) :
    ∀ t e, .act t e ∈ tr → e.inp.last ≤ c.state.clock := by
  refine h.inv (P := protocol g) (I := fun tr σ => ∀ t e, .act t e ∈ tr → e.inp.last ≤ σ.clock)
    ⟨?_, ?_, ?_, ?_, ?_⟩
  · intro t e hm
    cases hm
  · intro tr σ u call hI _ _ _ t e hm
    rcases List.mem_cons.1 hm with heq | hm
    · cases heq
    · exact hI t e hm
  · intro tr σ u call o i a σ' hI _ _ _ hx t e hm
    obtain ⟨hle, hclock⟩ := exec_clock hx
    rw [hclock]
    rcases List.mem_cons.1 hm with heq | hm
    · cases heq
      exact le_refl _
    · exact (hI t e hm).trans (hle.trans i.now_le_last)
  · intro tr σ u call r hI _ _ _ t e hm
    rcases List.mem_cons.1 hm with heq | hm
    · cases heq
    · exact hI t e hm
  · intro tr σ ev σ' hI _ hx t e hm
    rcases List.mem_cons.1 hm with heq | hm
    · cases heq
    · exact (hI t e hm).trans (env_clock hx)

/-- What is inserted lives no longer than the near TTL: the time the deadline was computed from is
not later than the one the lifetime is computed at. -/
theorem Run.near_ttl {ttl : Duration}
    (h : Run G σ₀ c (A ++ .act u ⟨.nearSet nk v ttl, i, ()⟩ :: B)) : ttl ≤ g.nearTTL := by
  obtain ⟨c₁, cmd, c₂, hrun, hstep, -⟩ := h.split
  obtain ⟨call, -, ⟨⟨now, i', j, Y, hY⟩, -⟩, -⟩ := hrun.of_act (protocol g) hstep
  obtain ⟨A₁, B₁, rfl, -, hB₁⟩ := exists_of_hist_append (X := []) hY.symm
  obtain ⟨A₂, B₂, rfl, -, -⟩ := exists_of_hist_append (X := []) hB₁
  obtain ⟨c₃, cmd', c₄, hrun', hstep', -⟩ := hrun.split
  obtain ⟨call', -, -, hx⟩ := hrun'.of_act (protocol g) hstep'
  obtain ⟨hj, σ₁, hact, -⟩ := exec_eq_some.1 hx
  obtain rfl : Cache.ttl (now + g.nearTTL) j.now = ttl := congrArg Prod.fst (Option.some.inj hact)
  obtain ⟨c₅, cmd'', c₆, hrun'', hstep'', -⟩ := hrun'.split
  obtain ⟨call'', -, -, hx'⟩ := hrun''.of_act (protocol g) hstep''
  obtain ⟨-, σ₂, hact', -⟩ := exec_eq_some.1 hx'
  obtain rfl : i'.now = now := congrArg Prod.fst (Option.some.inj hact')
  have hlast := Run.last_le_clock hrun' u _ (List.mem_append_right _ (List.mem_cons_self ..))
  have hnow := i'.now_le_last
  change i'.last ≤ _ at hlast
  change i'.now + g.nearTTL - j.now ≤ g.nearTTL
  linarith

/-- What is inserted was read from the owner, or written to it, by the goroutine that inserts it. -/
theorem Run.nearCopy (h₀ : σ₀.Fresh) {ttl : Duration}
    (h : Run G σ₀ c (A ++ .act u ⟨.nearSet nk v ttl, i, ()⟩ :: B)) :
    NearCopy g (hist B u) nk v := by
  obtain ⟨c₁, cmd, c₂, hrun, hstep, -⟩ := h.split
  obtain ⟨call, -, ⟨-, hcopy⟩, -⟩ := hrun.of_act (protocol g) hstep
  exact hcopy.resolve_right ((Run.memberships h₀ hrun).not_odd u)

/-- Without membership changes a copy is kept under the one epoch, and another node owns its key. -/
theorem Run.nearSet_of_stable (h₀ : σ₀.Fresh) {ttl : Duration} {e : Nat}
    (h : Run G σ₀ c (A ++ .act u ⟨.nearSet (Group.nearKey e k) v ttl, i, ()⟩ :: B))
    (hs : ∀ ℓ ∈ A ++ .act u ⟨.nearSet (Group.nearKey e k) v ttl, i, ()⟩ :: B, Stable ℓ) :
    e = σ₀.topology.epoch ∧ (σ₀.topology.pick k).self = false := by
  obtain ⟨key, p, q, hkey, hsame, -, hcall⟩ := Run.nearCopy h₀ h
  obtain ⟨rfl, rfl⟩ := nearKey_inj hkey
  obtain ⟨j, hm⟩ := hcall.route_mem
  have hp : p = σ₀.topology.pick k := (Run.memberships h₀ h).pick_of_stable hs
    (List.mem_append_right _ (List.mem_cons_of_mem _ (mem_hist.1 hm)))
  refine ⟨?_, ?_⟩
  · rw [hp, σ₀.topology.pick_epoch]
  · rw [← hp]
    exact hsame.remote

end Steps

/-! ## Remote reads -/

/-- Goroutine `u` got the bytes of `v` from the owner `o` of `k`, or wrote them to it, in a call
before and after which `o` was picked under the epoch `e`. -/
def CalledOwner (g : Cfg) (k : GoString) (v : ByteView) (owner : GoString) (e : Nat)
    (h : History) : Prop :=
  ∃ p q, SameOwner p q ∧ q.self = false ∧ p.owner = owner ∧ p.epoch = e ∧ PeerCall g k p q v h

/-- What a lookup finds was inserted for the same epoch and the same key, by a goroutine that had
called the owner of the key under this epoch, and neither deleted since nor over its time. -/
theorem Run.near_hit_called {G : Guard (node g)} {c : Config (node g)} {A B : Trace g} {e : Nat}
    (h₀ : σ₀.Fresh)
    (h : Run G σ₀ c (A ++ .act t ⟨.nearGet (Group.nearKey e k), i, some v⟩ :: B)) :
    ∃ (B₁ B₂ : Trace g) (u : Nat) (ttl : Duration) (j : Inp) (owner : GoString),
      B = B₁ ++ .act u ⟨.nearSet (Group.nearKey e k) v ttl, j, ()⟩ :: B₂ ∧
      (∀ t j b, .act t ⟨.nearDelete (Group.nearKey e k), j, b⟩ ∉ B₁) ∧
      i.now < j.now + g.nearTTL ∧ CalledOwner g k v owner e (hist B₂ u) := by
  obtain ⟨d, ⟨B₁, B₂, u, ttl, j, rfl, rfl, hno⟩, hlive⟩ := Run.near_hit h₀ h
  have hrun : Run G σ₀ c ((A ++ .act t ⟨.nearGet (Group.nearKey e k), i, some v⟩ :: B₁) ++
      .act u ⟨.nearSet (Group.nearKey e k) v ttl, j, ()⟩ :: B₂) := by
    simpa using h
  obtain ⟨key, p, q, hkey, hsame, hself, hcall⟩ := Run.nearCopy h₀ hrun
  obtain ⟨rfl, rfl⟩ := nearKey_inj hkey
  refine ⟨B₁, B₂, u, ttl, j, p.owner, rfl, hno, ?_, p, q, hsame, hself, rfl, rfl, hcall⟩
  have httl := Run.near_ttl hrun
  have hnow : i.now < j.now + ttl := not_not.1 hlive
  linarith

/-- The remote read of goroutine `t` got its value from the owner itself, or from the near cache,
where a goroutine had put it that had got it from the owner; after it had the value, the owner was
picked again under the same epoch. -/
inductive ReadFrom (k : GoString) (v : ByteView) (owner : GoString) (e : Nat) (t : Nat) :
    Trace g → Prop where
  | peer {tr : Trace g} (hcall : CalledOwner g k v owner e (hist tr t)) : ReadFrom k v owner e t tr
  | near {A B C : Trace g} {i j i' : Inp} {u : Nat} {ttl : Duration} {q : Pick}
      (hcall : CalledOwner g k v owner e (hist C u))
      (hpick : (⟨.pickOwner .nearHit k, j, q⟩ : Ev groupSig Inp) ∈ hist A t) (hok : q.ok = true)
      (howner : q.owner = owner) (hepoch : q.epoch = e) :
      ReadFrom k v owner e t (A ++ .act t ⟨.nearGet (Group.nearKey e k), i, some v⟩ ::
        (B ++ .act u ⟨.nearSet (Group.nearKey e k) v ttl, i', ()⟩ :: C))

/-- A lookup in a history, with what came before and after it. -/
theorem exists_lookup {e₁ e₂ e₃ : Ev groupSig Inp} (h : [e₁, e₂, e₃].Sublist (hist tr t)) :
    ∃ A B : Trace g, tr = A ++ .act t e₂ :: B ∧ e₁ ∈ hist A t ∧ e₃ ∈ hist B t := by
  obtain ⟨r₁, r₂, hr, h₁, h⟩ := List.cons_sublist_iff.1 h
  obtain ⟨s₁, s₂, rfl, h₂, h₃⟩ := List.cons_sublist_iff.1 h
  obtain ⟨X, Y, rfl⟩ := List.append_of_mem h₂
  have hsplit : hist tr t = (r₁ ++ X) ++ e₂ :: (Y ++ s₂) := by
    rw [hr]
    simp
  obtain ⟨A, B, htr, hA, hB⟩ := exists_of_hist_append hsplit
  refine ⟨A, B, htr, ?_, ?_⟩
  · rw [hA]
    exact List.mem_append_left _ h₁
  · rw [hB]
    exact List.mem_append_right _ (h₃.subset (List.mem_singleton_self _))

/-- **A remote read returns what its owner gave, under one epoch.** Whenever a `Get` of `k` returns
a value after it was routed to another node, the value comes from a call of this node to an owner of
`k`, with that owner picked under one epoch before and after the call and once more by the `Get`. -/
theorem remote_get_from_owner {G : Guard (node g)} {c : Config (node g)} {p : Pick}
    (h₀ : σ₀.Fresh) (h : Run G σ₀ c (.ret t (.ok (.view (.ok v))) :: tr))
    (hget : .spawn t (.get k) ∈ tr) (hroute : (locOf tr t).route = some p)
    (hremote : p.self = false) : ReadFrom k v p.owner p.epoch t tr := by
  obtain ⟨c₁, cmd, c₂, hrun, hstep, -⟩ := Run.split (A := []) h
  obtain ⟨call, hcall, hend⟩ := hrun.of_ret (protocol g) hstep
  obtain rfl : call = .get k := Option.some.inj (hcall.symm.trans (hrun.callOf_spawn hget))
  rcases hend.2 with ⟨hlocal, -⟩ | ⟨-, p', hroute', hread⟩
  · rw [hlocal p hroute] at hremote
    cases hremote
  obtain rfl : p = p' := Option.some.inj (hroute.symm.trans hroute')
  cases hread with
  | peer q hsame hq hpeer => exact .peer ⟨p, q, hsame, hq, rfl, rfl, hpeer⟩
  | near q i₁ i₂ i₃ hsame hh =>
    obtain ⟨A, B, rfl, hpick, hbefore⟩ := exists_lookup hh
    obtain ⟨B', C, u, ttl, i', _, rfl, -, -, p', q', hsame', hq', rfl, he, hpeer⟩ :=
      Run.near_hit_called h₀ hrun
    -- the epoch belongs to one membership, so the owner is the same as well
    obtain ⟨j, hj⟩ := hpeer.route_mem
    have hfirst := List.mem_append_right A (List.mem_cons_of_mem
      (.act t ⟨.nearGet (Group.nearKey p.epoch k), i₂, some v⟩) (List.mem_append_right B'
        (List.mem_cons_of_mem (.act u ⟨.nearSet (Group.nearKey p.epoch k) v ttl, i', ()⟩)
          (mem_hist.1 hj))))
    have hsecond := List.mem_append_right A (List.mem_cons_of_mem
      (.act t ⟨.nearGet (Group.nearKey p.epoch k), i₂, some v⟩) (mem_hist.1 hbefore))
    obtain rfl : p' = p := (Run.memberships h₀ hrun).pick_unique hfirst hsecond he
    exact .near ⟨p', q', hsame', hq', rfl, rfl, hpeer⟩ hpick hsame.ok' hsame.owner hsame.epoch

/-- Two remote reads of a key; the second finds what the first got from the owner. -/
def twoGets : Trace Cfg.pairNear :=
  let i := Inp.answer [1]
  let k := ascii "k"
  [.act 1 ⟨.count .nearHits, i, ()⟩, .act 1 ⟨.pickOwner .nearHit k, i, pickOther 1⟩,
    .act 1 ⟨.nearGet (Group.nearKey 1 k), i, some ⟨[1]⟩⟩,
    .act 1 ⟨.pickOwner .route k, i, pickOther 1⟩, .act 1 ⟨.loadClosed, i, false⟩, .spawn 1 (.get k),
    .ret 0 (.ok (.view (.ok ⟨[1]⟩))), .act 0 ⟨.nearSet (Group.nearKey 1 k) ⟨[1]⟩ 100, i, ()⟩,
    .act 0 ⟨.until 100, i, 100⟩, .act 0 ⟨.now, i, 0⟩, .act 0 ⟨.count .peerHits, i, ()⟩,
    .act 0 ⟨.pickOwner .verify k, i, pickOther 1⟩, .act 0 ⟨.rpcEnd 0, i, .ok ⟨[1], false⟩⟩,
    .act 0 ⟨.rpcStart (ascii "b") (.get (ascii "g") k), i, 0⟩, .act 0 ⟨.count .nearMisses, i, ()⟩,
    .act 0 ⟨.nearGet (Group.nearKey 1 k), i, none⟩, .act 0 ⟨.pickOwner .route k, i, pickOther 1⟩,
    .act 0 ⟨.loadClosed, i, false⟩, .spawn 0 (.get k)]

/-- The second read has its value from the owner too. -/
theorem near_get_from_owner : ∃ c : Config (node Cfg.pairNear),
    Run Free State.guest c (.ret 1 (.ok (.view (.ok ⟨[1]⟩))) :: twoGets) ∧
      ReadFrom (ascii "k") ⟨[1]⟩ (ascii "b") 1 1 twoGets := by
  obtain ⟨c, hsteps⟩ : ∃ c, (Config.start (M := node Cfg.pairNear) State.guest).steps []
      (.spawn (.get (ascii "k")) :: List.replicate 12 (.run 0 (Inp.answer [1])) ++
        .spawn (.get (ascii "k")) :: List.replicate 6 (.run 1 (Inp.answer [1]))) =
      some (c, .ret 1 (.ok (.view (.ok ⟨[1]⟩))) :: twoGets) := ⟨_, rfl⟩
  have hrun := Run.steps .start hsteps
  have hspawn : .spawn 1 (.get (ascii "k")) ∈ twoGets := by simp [twoGets]
  exact ⟨c, hrun, remote_get_from_owner (p := pickOther 1) State.fresh_guest hrun hspawn rfl rfl⟩

/-! ## One near key, one epoch and one key -/

/-- The copies of different keys, and those of different epochs, do not get in each other's way. -/
structure NearApart (c : Config (node g)) (tr : Trace g) : Prop where
  /-- What `invalidateNearKey` deletes under one epoch leaves alone every copy of another key and
  every copy made under another epoch. -/
  delete : ∀ cmd t e k i b c',
    c.step cmd = some (.act t ⟨.nearDelete (Group.nearKey e k), i, b⟩, c') →
    ∀ e' k', e' ≠ e ∨ k' ≠ k →
      c'.state.near.view (Group.nearKey e' k') = c.state.near.view (Group.nearKey e' k')
  /-- What a lookup under one epoch finds was inserted for this key by a goroutine that had called
  its owner under this epoch. -/
  lookup : ∀ A B t e k i v,
    tr = A ++ .act t ⟨.nearGet (Group.nearKey e k), i, some v⟩ :: B →
    ∃ (B₁ B₂ : Trace g) (u : Nat) (ttl : Duration) (j : Inp) (owner : GoString),
      B = B₁ ++ .act u ⟨.nearSet (Group.nearKey e k) v ttl, j, ()⟩ :: B₂ ∧
      CalledOwner g k v owner e (hist B₂ u)

theorem near_view_of_delete {G : Guard (node g)} {c c' : Config (node g)} {cmd : Cmd (node g)}
    {b : Bool} (h₀ : σ₀.Fresh) (h : Run G σ₀ c tr)
    (hstep : c.step cmd = some (.act t ⟨.nearDelete nk, i, b⟩, c')) (hne : key ≠ nk) :
    c'.state.near.view key = c.state.near.view key := by
  obtain ⟨call, -, -, hx⟩ := h.of_act (protocol g) hstep
  obtain ⟨-, σ₁, hact, hσ⟩ := exec_eq_some.1 hx
  cases hact
  rw [hσ]
  exact (Cache.view_delete (Run.nearOk h₀ h).wf nk key).trans (if_neg hne)

/-- **Near keys are injective**, so in every run a deletion removes the copy of its own epoch and
key only, and a lookup finds what was inserted for its own epoch and key. -/
theorem near_keys_apart {G : Guard (node g)} (h₀ : σ₀.Fresh) {c : Config (node g)}
    (h : Run G σ₀ c tr) : Function.Injective2 Group.nearKey ∧ NearApart c tr := by
  refine ⟨fun e e' k k' heq => nearKey_inj heq, ?_, ?_⟩
  · intro cmd t e k i b c' hstep e' k' hne
    refine near_view_of_delete h₀ h hstep ?_
    intro heq
    obtain ⟨rfl, rfl⟩ := nearKey_inj heq
    exact hne.elim (fun he => he rfl) fun hk => hk rfl
  · rintro A B t e k i v rfl
    obtain ⟨B₁, B₂, u, ttl, j, owner, hB, -, -, hcalled⟩ := Run.near_hit_called h₀ h
    exact ⟨B₁, B₂, u, ttl, j, owner, hB, hcalled⟩

/-- The lookup of the second read finds a copy that was made for its epoch. -/
theorem second_get_same_epoch : ∃ c : Config (node Cfg.pairNear),
    Run Free State.guest c twoGets ∧ Function.Injective2 Group.nearKey ∧ NearApart c twoGets := by
  obtain ⟨c, hsteps⟩ : ∃ c, (Config.start (M := node Cfg.pairNear) State.guest).steps []
      (.spawn (.get (ascii "k")) :: List.replicate 12 (.run 0 (Inp.answer [1])) ++
        .spawn (.get (ascii "k")) :: List.replicate 5 (.run 1 (Inp.answer [1]))) =
      some (c, twoGets) := ⟨_, rfl⟩
  have hrun := Run.steps .start hsteps
  exact ⟨c, hrun, near_keys_apart State.fresh_guest hrun⟩

end Locache
