import Locache.Group.Getters

/-!
# One load for all reads

On a node that only serves reads, under one membership, and that evicts nothing, the Getter returns
the value of a key at most once. While a load is under way the key is not cached, and only the
leader of the singleflight call may load. What the Getter returned stays with the leader until it is
cached, and once it is cached the second lookup of every later leader finds it (`Once`).
-/

namespace Locache

open Conc

variable {g : Cfg} {tr : Trace g} {σ σ' σ₀ : State} {T₀ : Topology} {t u : Nat} {k key : GoString}
  {id : Nat} {o : Op} {i : Inp} {a : o.Ans} {call : Call} {b : Bytes}

/-! ## Reads only -/

/-- A step that may evict for capacity: a store, or a sweep of the main cache. -/
def Evicting : Label (node g) → Bool
  | .act _ ⟨.loadCommit _ _ _ _, _, _⟩ | .act _ ⟨.setSection _ _ _, _, _⟩ => true
  | .env (.cleanupMain _ _ _) => true
  | _ => false

/-- The step evicts nothing for capacity: what has no deadline stays, and what is stored is there.
-/
structure Roomy (σ : State) (ℓ : Label (node g)) (σ' : State) : Prop where
  kept : Evicting ℓ = true → ∀ k v, σ.main.view k = some (v, none) →
    (σ'.main.view k).isSome = true
  stored : ∀ t e k v, ℓ = .act t e → Stores k v e → (σ'.main.view k).isSome = true

/-- **The condition on a step.** Every operation that is started is a read, the membership does not
change, and nothing is evicted for capacity. -/
structure ReadStep (σ : State) (ℓ : Label (node g)) (σ' : State) : Prop where
  reads : ∀ t call, ℓ = .spawn t call → ∃ key, call.Reads key
  stable : Stable ℓ
  roomy : Roomy σ ℓ σ'

/-- Actions that no read performs. -/
def Op.disturbs : Op → Bool
  | casClosed | mainClose | nearClose | unregister | mainClear _ | nearClear _ | mainDelete _
  | setSection _ _ _ | deleteSection _ _ => true
  | _ => false

theorem reads_cases (hr : call.Reads key) :
    call = .get key ∨ ∃ src group, call = .serve src (.get group key) := by
  cases call with
  | get k => exact Or.inl (congrArg Call.get hr)
  | serve src req =>
    cases req with
    | get group k =>
      cases hr
      exact Or.inr ⟨src, group, rfl⟩
    | _ => cases hr
  | _ => cases hr

theorem disturbs_of_reads {h : History} (hr : call.Reads key) (hallow : Allowed g call h o) :
    o.disturbs = false := by
  rcases reads_cases hr with rfl | ⟨src, group, rfl⟩ <;>
    cases o with
    | casClosed | mainClose | nearClose | unregister => cases hallow
    | mainClear shard | nearClear shard => cases hallow
    | mainDelete key' => cases hallow
    | setSection s key' value => cases hallow.1
    | deleteSection s key' => cases hallow.1
    | _ => rfl

/-- What a read does to the main cache: it looks a key up, checks the epoch, or stores. -/
theorem main_of_read (hd : o.disturbs = false) (hx : Node.exec g o i σ = some (a, σ')) :
    σ'.main = σ.main ∨ (∃ key, σ'.main = (σ.main.get i.now key).2) ∨ (∃ e, o = .ownerEpoch e) ∨
      ∃ s key n b, o = .loadCommit s key n b := by
  have hframe := (exec_frame hx).main
  obtain ⟨-, σ₁, hact, rfl⟩ := exec_eq_some.1 hx
  cases o with
  | ownerEpoch e => exact Or.inr (Or.inr (Or.inl ⟨e, rfl⟩))
  | loadCommit s key n b => exact Or.inr (Or.inr (Or.inr ⟨s, key, n, b, rfl⟩))
  | mainGet key =>
    cases hact
    exact Or.inr (Or.inl ⟨key, rfl⟩)
  | loadBegin s key =>
    obtain rfl : (Group.loadBegin s key i.now σ).2 = σ₁ := congrArg Prod.snd (Option.some.inj hact)
    exact Or.inr (Or.inl ⟨key, main_loadBegin⟩)
  | _ => first | exact Or.inl (hframe rfl) | cases hd

/-- What a node that only serves reads keeps. -/
structure Undisturbed (T₀ : Topology) (tr : Trace g) (σ : State) : Prop where
  reads : ∀ t call, callOf tr t = some call → ∃ key, call.Reads key
  unmutated : ∀ k, mutations k tr = 0
  timeless : ∀ k x, σ.main.view k = some x → x.2 = none
  epoch : σ.ownerEpoch = 0 ∨ σ.ownerEpoch = T₀.epoch

/-- With one membership the check of the epoch never clears the cache. -/
theorem ownerEpoch_of_stable {e : Nat} (hepoch : σ.ownerEpoch = 0 ∨ σ.ownerEpoch = e)
    (hx : Node.exec g (.ownerEpoch e) i σ = some ((), σ')) :
    σ'.main = σ.main ∧ σ'.ownerEpoch = e := by
  obtain ⟨-, σ₁, hact, rfl⟩ := exec_eq_some.1 hx
  cases hact
  show (Group.checkOwnerEpoch e i.order σ).main = σ.main ∧
    (Group.checkOwnerEpoch e i.order σ).ownerEpoch = e
  unfold Group.checkOwnerEpoch
  split
  · exact ⟨rfl, rfl⟩
  · next h0 =>
    have he : σ.ownerEpoch = e := hepoch.resolve_left h0
    rw [if_neg (not_not.2 he)]
    exact ⟨rfl, he⟩

/-- Without a lifetime, what an action stores has no deadline. -/
theorem timeless_of_exec (hexp : g.expiration ≤ 0) (hm : σ.main.WF)
    (htime : ∀ k x, σ.main.view k = some x → x.2 = none) (hx : Node.exec g o i σ = some (a, σ')) :
    ∀ k x, σ'.main.view k = some x → x.2 = none := by
  intro k x hv
  obtain ⟨-, σ₁, hact, rfl⟩ := exec_eq_some.1 hx
  have hadd : ∀ {key : GoString} {v : ByteView},
      (Group.addOwnerValue g key v i σ.main).view k = some x → x.2 = none := by
    intro key v hv
    unfold Group.addOwnerValue at hv
    rw [if_neg (not_lt.2 hexp)] at hv
    rcases Cache.view_add hm key v _ _ _ hv with ⟨-, rfl⟩ | ⟨-, hold⟩
    · rfl
    · exact htime k x hold
  have hstored : ¬ Stores k x.1 ⟨o, i, a⟩ → x.2 = none := by
    intro hno
    rcases view_of_act hm hact hv with ⟨hs, -⟩ | ⟨hold, -⟩
    · exact absurd hs hno
    · exact htime k x hold
  cases o with
  | setSection s key value =>
    cases hact
    exact hadd hv
  | loadCommit s key n b =>
    obtain ⟨-, rfl⟩ := Prod.ext_iff.1 (Option.some.inj hact)
    rcases loadCommit_cases s key n b with ⟨-, hmain, -⟩ | ⟨-, hmain, -⟩
    · exact htime k x (Cache.view_get hm _ _ (hmain ▸ hv))
    · exact hadd (hmain ▸ hv)
  | _ => exact hstored fun hs => hs

/-- **Reads disturb nothing.** -/
theorem Run.undisturbed {G : Guard (node g)} (hG : ∀ tr σ ℓ σ', G tr σ ℓ σ' → ReadStep σ ℓ σ')
    (hexp : g.expiration ≤ 0) (h₀ : σ₀.Fresh) {c : Config (node g)} (h : Run G σ₀ c tr) :
    Undisturbed σ₀.topology tr c.state := by
  have hstable : ∀ {c tr}, Run G σ₀ c tr → ∀ ℓ ∈ tr, Stable ℓ := fun h =>
    h.forall_mem fun tr σ ℓ σ' hstep => (hG tr σ ℓ σ' hstep).stable
  refine (h.guarded (I := fun tr σ => MainOk g σ ∧ Memberships σ₀.topology tr σ ∧
    ∀ ℓ ∈ tr, Stable ℓ) fun h => ⟨Run.mainOk h₀ h, Run.memberships h₀ h, hstable h⟩).inv
    (P := protocol g) (I := Undisturbed σ₀.topology) ⟨?_, ?_, ?_, ?_, ?_⟩
  · refine ⟨?_, fun k => rfl, ?_, Or.inl h₀.ownerEpoch⟩
    · intro t call hcall
      cases hcall
    · intro k x hx
      rw [h₀.main_view] at hx
      cases hx
  · intro tr σ u call hI hg _ _
    refine ⟨?_, ?_, hI.timeless, hI.epoch⟩
    · intro t call' hcall
      by_cases htu : u = t
      · subst htu
        rw [callOf_spawn_self] at hcall
        cases hcall
        exact (hG _ _ _ _ hg.1).reads u _ rfl
      · rw [callOf_spawn_ne htu] at hcall
        exact hI.reads t call' hcall
    · intro k
      rw [mutations_cons, hI.unmutated]
      rfl
  · intro tr σ u call o i a σ' hI hg hcall hallow hx
    obtain ⟨key, hr⟩ := hI.reads u call hcall
    have hd := disturbs_of_reads hr hallow
    refine ⟨hI.reads, ?_, timeless_of_exec hexp hg.2.1.1.wf hI.timeless hx, ?_⟩
    · intro k
      rw [mutations_cons, hI.unmutated]
      cases o <;> first | rfl | cases hd
    · by_cases ho : o.onEpoch = true
      · cases o with
        | ownerEpoch e =>
          obtain rfl := epoch_of_stable hg.2.1.2.1 hg.2.1.2.2 hallow
          exact Or.inr (ownerEpoch_of_stable hI.epoch hx).2
        | _ => cases ho
      · rw [(exec_frame hx).epoch (Bool.eq_false_of_not_eq_true ho)]
        exact hI.epoch
  · intro tr σ u call r hI _ _ _
    refine ⟨hI.reads, ?_, hI.timeless, hI.epoch⟩
    intro k
    rw [mutations_cons, hI.unmutated]
    rfl
  · intro tr σ e σ' hI hg hx
    refine ⟨hI.reads, ?_, ?_, ?_⟩
    · intro k
      rw [mutations_cons, hI.unmutated]
      rfl
    · intro k x hv
      exact hI.timeless k x (view_of_env hg.2.1.1 hx hv)
    · rw [(env_frame hx).epoch]
      exact hI.epoch

/-! ## Loads under way -/

/-- A key has one leader. -/
theorem leader_unique {c c' : Nat} (hF : Flights tr σ) (h : Leads tr t k c) (h' : Leads tr u k c') :
    t = u := by
  have hc : some c = some c' := (hF.leads t k c h).symm.trans (hF.leads u k c' h')
  cases hc
  exact (hF.unique t u k k c (hF.entered t k c h.owns) (hF.entered u k c h'.owns)).1

theorem Stage.leads_of_start {st : Stage} {n : Nat} (h : st.start = some n) :
    ∃ c, st.leads = some c := by
  cases st <;> first | exact ⟨_, rfl⟩ | cases h

/-- Two goroutines that load one key are the same. -/
theorem loader_unique {s s' n n' : Nat} (hF : Flights tr σ) (h : (locOf tr t).held = some (k, s))
    (hst : (locOf tr t).stage.start = some n) (h' : (locOf tr u).held = some (k, s'))
    (hst' : (locOf tr u).stage.start = some n') : t = u := by
  obtain ⟨c, hc⟩ := Stage.leads_of_start hst
  obtain ⟨c', hc'⟩ := Stage.leads_of_start hst'
  exact leader_unique hF ⟨s, h, hc⟩ ⟨s', h', hc'⟩

/-- A goroutine that got a value from the Getter keeps it until it stores it, or until it finds that
it no longer owns the key. -/
theorem Move.loaded {e : Option Nat} {x x' : Option (GoString × Nat)} {st st' : Stage} {s c n : Nat}
    (hm : Move e o a x st x' st') (hheld : x = some (k, s)) (hst : st = .loaded c n b) :
    (x' = some (k, s) ∧ st' = .loaded c n b) ∨ o = .loadCommit s k n b ∨
      ∃ p, (⟨o, a⟩ : (o : Op) × o.Ans) = ⟨.pickOwner .load k, p⟩ ∧
        (p.ok && p.self && some p.epoch = e) = false := by
  cases hm with
  | stored | existing | missed =>
    cases hst
    cases hheld
    exact Or.inr (Or.inl rfl)
  | lost hp =>
    cases hst
    cases hheld
    exact Or.inr (Or.inr ⟨_, rfl, hp⟩)
  | stay => exact Or.inl ⟨hheld, hst⟩
  | _ => cases hst

/-! ## What the Getter brought -/

/-- The Getter call `id` of goroutine `t` for `k` returned `b`. -/
def Brought (tr : Trace g) (t : Nat) (k : GoString) (id : Nat) (b : Bytes) : Prop :=
  Started tr t k id ∧ Returned tr t id (.ok (.ok b))

/-- A Getter call that has brought a value did so before, or does so in this step. -/
theorem brought_act (hg : Getters tr σ) (hallow : Allowed g call (hist tr u) o)
    (hx : Node.exec g o i σ = some (a, σ')) (hb : Brought (.act u ⟨o, i, a⟩ :: tr) t k id b) :
    Brought tr t k id b ∨ t = u ∧ Waits tr u k id ∧
      (⟨o, a⟩ : (o : Op) × o.Ans) = ⟨.getterEnd id, .ok (.ok b)⟩ := by
  obtain ⟨hs, hr⟩ := hb
  rw [started_cons] at hs
  rw [returned_cons] at hr
  rcases hs with ⟨j, heq⟩ | hs
  · cases heq
    rcases hr with ⟨j, heq⟩ | hr
    · cases heq
    · -- the call has just begun, so it cannot have returned before
      obtain ⟨k', hk'⟩ := hg.started _ _ _ hr
      obtain ⟨-, σ₁, hact, -⟩ := exec_eq_some.1 hx
      cases hact
      exact absurd (hg.fresh _ _ _ hk') (Nat.lt_irrefl _)
  · rcases hr with ⟨j, heq⟩ | hr
    · cases heq
      obtain ⟨key, s, hheld, c, n, hst⟩ := hallow
      have hwait : Waits tr t key id := ⟨s, c, n, hheld, hst⟩
      obtain ⟨-, rfl⟩ := hg.unique _ _ _ _ _ hs (hg.waits t key id hwait).1
      exact Or.inr ⟨rfl, hwait, rfl⟩
    · exact Or.inl ⟨hs, hr⟩

/-- **One load for all.** -/
structure Once (k : GoString) (tr : Trace g) (σ : State) : Prop where
  /-- The key is not cached while it is being loaded. -/
  absent : ∀ t s n, (locOf tr t).held = some (k, s) → (locOf tr t).stage.start = some n →
    σ.main.view k = none
  /-- What the Getter brought is cached, or its goroutine is about to store it. -/
  kept : ∀ t id b, Brought tr t k id b → σ.main.view k = some (⟨b⟩, none) ∨
    ∃ s c n, (locOf tr t).held = some (k, s) ∧ (locOf tr t).stage = .loaded c n b
  single : ∀ t id b t' id' b', Brought tr t k id b → Brought tr t' k id' b' → id = id' ∧ b = b'

/-- What is known of every state of such a run. -/
structure Background (T₀ : Topology) (tr : Trace g) (σ : State) : Prop where
  main : MainOk g σ
  flights : Flights tr σ
  loads : Loads tr σ
  getters : Getters tr σ
  members : Memberships T₀ tr σ
  stable : ∀ ℓ ∈ tr, Stable ℓ
  undisturbed : Undisturbed T₀ tr σ
  checked : ∀ t k id, Started tr t k id → Checked g k (hist tr t)

namespace Background

/-- A read keeps what is cached. -/
theorem view_kept (h : Background T₀ tr σ) (hroom : Roomy σ (g := g) (.act u ⟨o, i, a⟩) σ')
    (hd : o.disturbs = false) (hallow : Allowed g call (hist tr u) o)
    (hx : Node.exec g o i σ = some (a, σ')) {v : ByteView} (hv : σ.main.view k = some (v, none)) :
    ∃ x, σ'.main.view k = some x := by
  rcases main_of_read hd hx with hmain | ⟨key, hmain⟩ | ⟨e, rfl⟩ | ⟨s, key, n, b, rfl⟩
  · exact ⟨_, hmain ▸ hv⟩
  · exact ⟨_, hmain ▸ Cache.view_get_of_timeless h.main.wf i.now key hv⟩
  · obtain rfl := epoch_of_stable h.members h.stable hallow
    rw [(ownerEpoch_of_stable h.undisturbed.epoch hx).1]
    exact ⟨_, hv⟩
  · exact Option.isSome_iff_exists.1 (hroom.kept rfl k v hv)

/-- A load that commits stores what it brought. -/
theorem commit_stores (h : Background T₀ tr σ) {s n : Nat} {ans : Commit}
    (hallow : Allowed g call (hist tr u) (.loadCommit s k n b))
    (hx : Node.exec g (.loadCommit s k n b) i σ = some (ans, σ')) : ans = .stored ⟨b⟩ := by
  obtain ⟨hheld, c, hst⟩ := hallow
  change (locOf tr u).held = _ at hheld
  change (locOf tr u).stage = _ at hst
  obtain ⟨w, ⟨⟨j, tr', htr⟩, -⟩, -, hn, hgen⟩ := h.loads.2 u k s n hheld (by rw [hst]; rfl)
  have hzero : mutations k w = 0 := by
    have hall := h.undisturbed.unmutated k
    rw [htr, mutations, List.countP_append] at hall
    exact (Nat.add_eq_zero_iff.1 hall).1
  rw [hzero, Nat.add_zero, Nat.mod_eq_of_lt hn] at hgen
  obtain ⟨-, σ₁, hact, -⟩ := exec_eq_some.1 hx
  have hans := (Prod.ext_iff.1 (Option.some.inj hact)).1
  simp only at hans
  rcases loadCommit_cases s k n b with ⟨hne, -, -⟩ | ⟨-, -, ha⟩
  · exact absurd hgen hne
  · exact hans.symm.trans ha

/-- Only the owner of a key loads it. -/
theorem self_of_started (h : Background T₀ tr σ) (hp : g.peers = true) (hs : Started tr t k id) :
    (T₀.pick k).self = true ∧ (locOf tr t).epoch = some T₀.epoch := by
  obtain ⟨i, p, hm, hself⟩ := h.checked t k id hs hp
  obtain ⟨e, he⟩ := epoch_of_mem hm
  rw [h.members.pick_of_stable h.stable (mem_hist.1 hm)] at hself
  obtain rfl := epoch_of_stable h.members h.stable he
  exact ⟨hself, he⟩

/-- A load that has brought a value still finds itself the owner. -/
theorem still_owner (h : Background T₀ tr σ) (hp : g.peers = true)
    (hok : (T₀.pick k).self = true → (T₀.pick k).ok = true) {s c n : Nat}
    (hheld : (locOf tr u).held = some (k, s)) (hst : (locOf tr u).stage = .loaded c n b) :
    ((T₀.pick k).ok && (T₀.pick k).self && some (T₀.pick k).epoch = (locOf tr u).epoch) = true := by
  obtain ⟨w, ⟨⟨j, tr', htr⟩, -⟩, hsince, -⟩ := h.loads.2 u k s n hheld (by rw [hst]; rfl)
  rw [hst] at hsince
  obtain ⟨id, i₁, -, hstart, -⟩ := hsince
  have hstarted : Started tr u k id := by
    rw [htr]
    exact ⟨i₁, List.mem_append_left _ hstart⟩
  obtain ⟨hself, he⟩ := h.self_of_started hp hstarted
  rw [he, T₀.pick_epoch, hok hself, hself]
  simp

/-- Only a load puts a key that is not cached into the cache. -/
theorem store_of_new (hB : Background T₀ tr σ) (hd : o.disturbs = false)
    (hx : Node.exec g o i σ = some (a, σ')) (hnone : σ.main.view k = none)
    {x : ByteView × Option Time} (hv : σ'.main.view k = some x) :
    ∃ s n b, o = .loadCommit s k n b := by
  obtain ⟨-, σ₁, hact, rfl⟩ := exec_eq_some.1 hx
  rcases view_of_act hB.main.wf hact hv with ⟨hs, -⟩ | ⟨hold, -⟩
  · rcases hs.cases with ⟨s, heq⟩ | ⟨s, n, b, heq⟩
    · cases heq
      cases hd
    · cases heq
      exact ⟨s, n, b, rfl⟩
  · rw [hnone] at hold
    cases hold

end Background

namespace Once

/-- Nothing was brought before if a Getter call for the key is under way. -/
theorem not_brought (hI : Once k tr σ) (hF : Flights tr σ) {id' : Nat} (hw : Waits tr u k id') :
    ¬Brought tr t k id b := by
  intro hb
  obtain ⟨s, c, n, hheld, hst⟩ := hw
  rcases hI.kept t id b hb with hv | ⟨s', c', n', hheld', hst'⟩
  · rw [hI.absent u s n hheld (by rw [hst]; rfl)] at hv
    cases hv
  · obtain rfl := loader_unique hF hheld (by rw [hst]; rfl) hheld' (by rw [hst']; rfl)
    rw [hst] at hst'
    cases hst'

section Act

variable (hI : Once k tr σ) (hB : Background T₀ tr σ) (hd : o.disturbs = false)
  (hallow : Allowed g call (hist tr u) o) (hx : Node.exec g o i σ = some (a, σ'))

include hI hB hd hallow hx

theorem absent_act (s n : Nat) (hheld : (locOf (.act u ⟨o, i, a⟩ :: tr) t).held = some (k, s))
    (hst : (locOf (.act u ⟨o, i, a⟩ :: tr) t).stage.start = some n) : σ'.main.view k = none := by
  by_contra hne
  obtain ⟨x, hv⟩ := Option.ne_none_iff_exists'.1 hne
  by_cases htu : u = t
  · subst htu
    rw [locOf_act_self] at hheld hst
    rcases (hallow.move a).start hst with ⟨key, s', heq, hkey, -⟩ | ⟨hsame, hst', hload⟩
    · -- the first section found nothing in the cache, and nothing there runs out
      cases heq
      cases hkey.symm.trans hheld
      have hlive : (σ.main.get i.now k).1 = none := by
        obtain ⟨-, σ₁, hact, -⟩ := exec_eq_some.1 hx
        have hans := (Prod.ext_iff.1 (Option.some.inj hact)).1
        unfold Group.loadBegin at hans
        dsimp only at hans
        split at hans
        · cases hans
        · next hnone => exact hnone
      have hnone : σ.main.view k = none := by
        by_contra hold
        obtain ⟨⟨v, d⟩, hold⟩ := Option.ne_none_iff_exists'.1 hold
        obtain rfl : d = none := hB.undisturbed.timeless k _ hold
        rw [Cache.get_fst hB.main.wf, Cache.live_eq_some.2 ⟨none, hold, fun h => h⟩] at hlive
        cases hlive
      obtain ⟨_, _, _, heq⟩ := hB.store_of_new hd hx hnone hv
      cases heq
    · have hheld' : (locOf tr u).held = some (k, s) := hsame.symm.trans hheld
      obtain ⟨s', n', b, rfl⟩ := hB.store_of_new hd hx (hI.absent u s n hheld' hst') hv
      cases hload
  · rw [locOf_act_ne htu] at hheld hst
    obtain ⟨s', n', b, rfl⟩ := hB.store_of_new hd hx (hI.absent t s n hheld hst) hv
    obtain ⟨hheld', c, hst'⟩ := hallow
    change (locOf tr u).stage = _ at hst'
    exact htu (loader_unique hB.flights hheld' (by rw [hst']; rfl) hheld hst)

/-- What was cached stays, as it was. -/
theorem view_act (hroom : Roomy σ (g := g) (.act u ⟨o, i, a⟩) σ')
    (hv : σ.main.view k = some (⟨b⟩, none)) : σ'.main.view k = some (⟨b⟩, none) := by
  obtain ⟨x, hx'⟩ := hB.view_kept hroom hd hallow hx hv
  obtain ⟨-, σ₁, hact, hσ⟩ := exec_eq_some.1 hx
  have hx₁ : σ₁.main.view k = some x := by rw [← hx', hσ]
  rcases view_of_act hB.main.wf hact hx₁ with ⟨hs, -⟩ | ⟨hold, -⟩
  · cases o with
    | loadCommit s key n b' =>
      cases a with
      | stored w =>
        obtain ⟨rfl, -⟩ := hs
        obtain ⟨hheld, c, hst⟩ := hallow
        change (locOf tr u).stage = _ at hst
        rw [hI.absent u s n hheld (by rw [hst]; rfl)] at hv
        cases hv
      | _ => cases hs
    | setSection s key value => cases hd
    | _ => cases hs
  · rw [hx', ← hold, hv]

theorem kept_act (hB' : Background T₀ (.act u ⟨o, i, a⟩ :: tr) σ')
    (hroom : Roomy σ (g := g) (.act u ⟨o, i, a⟩) σ') (hp : g.peers = true)
    (hok : (T₀.pick k).self = true → (T₀.pick k).ok = true)
    (hb : Brought (.act u ⟨o, i, a⟩ :: tr) t k id b) :
    σ'.main.view k = some (⟨b⟩, none) ∨ ∃ s c n,
      (locOf (.act u ⟨o, i, a⟩ :: tr) t).held = some (k, s) ∧
        (locOf (.act u ⟨o, i, a⟩ :: tr) t).stage = .loaded c n b := by
  rcases brought_act hB.getters hallow hx hb with hold | ⟨rfl, ⟨s, c, n, hheld, hst⟩, heq⟩
  · rcases hI.kept t id b hold with hv | ⟨s, c, n, hheld, hst⟩
    · exact Or.inl (hI.view_act hB hd hallow hx hroom hv)
    · by_cases htu : u = t
      · subst htu
        rw [locOf_act_self]
        rcases (hallow.move a).loaded hheld hst with hsame | rfl | ⟨p, heq, hfail⟩
        · exact Or.inr ⟨s, c, n, hsame⟩
        · have hans := hB.commit_stores hallow hx
          subst hans
          obtain ⟨x, hv⟩ := Option.isSome_iff_exists.1 (hroom.stored u _ k ⟨b⟩ rfl ⟨rfl, rfl⟩)
          have hnone := hI.absent u s n hheld (by rw [hst]; rfl)
          obtain ⟨-, σ₁, hact, rfl⟩ := exec_eq_some.1 hx
          rcases view_of_act hB.main.wf hact hv with ⟨⟨-, hval⟩, -⟩ | ⟨hold', -⟩
          · obtain ⟨v, d⟩ := x
            obtain rfl : d = none := hB'.undisturbed.timeless k _ hv
            cases hval
            exact Or.inl hv
          · rw [hnone] at hold'
            cases hold'
        · cases heq
          have hpick : p = T₀.pick k :=
            hB'.members.pick_of_stable hB'.stable (t := u) List.mem_cons_self
          subst hpick
          rw [show (loc (hist tr u)).epoch = (locOf tr u).epoch from rfl,
            hB.still_owner hp hok hheld hst] at hfail
          cases hfail
      · rw [locOf_act_ne htu]
        exact Or.inr ⟨s, c, n, hheld, hst⟩
  · cases heq
    refine Or.inr ⟨s, c, n, ?_, ?_⟩
    · rw [locOf_act_self]
      exact hheld
    · rw [locOf_act_self]
      simp only [Loc.next, hst]
      rfl

theorem act (hB' : Background T₀ (.act u ⟨o, i, a⟩ :: tr) σ')
    (hroom : Roomy σ (g := g) (.act u ⟨o, i, a⟩) σ') (hp : g.peers = true)
    (hok : (T₀.pick k).self = true → (T₀.pick k).ok = true) :
    Once k (.act u ⟨o, i, a⟩ :: tr) σ' := by
  refine ⟨?_, ?_, ?_⟩
  · exact fun t s n => hI.absent_act hB hd hallow hx s n
  · exact fun t id b hb => hI.kept_act hB hd hallow hx hB' hroom hp hok hb
  · intro t id b t' id' b' hb hb'
    rcases brought_act hB.getters hallow hx hb with hold | ⟨-, hw, heq⟩
    · rcases brought_act hB.getters hallow hx hb' with hold' | ⟨-, hw', -⟩
      · exact hI.single t id b t' id' b' hold hold'
      · exact absurd hold (hI.not_brought hB.flights hw')
    · rcases brought_act hB.getters hallow hx hb' with hold' | ⟨-, -, heq'⟩
      · exact absurd hold' (hI.not_brought hB.flights hw)
      · cases heq
        cases heq'
        exact ⟨rfl, rfl⟩

end Act

/-- A step that does not act and keeps what is cached. -/
theorem other (hI : Once k tr σ) {ℓ : Label (node g)} (hℓ : ∀ t e, ℓ ≠ .act t e)
    (hloc : ∀ t, locOf (ℓ :: tr) t = locOf tr t)
    (hback : ∀ x, σ'.main.view k = some x → σ.main.view k = some x)
    (hkeep : ∀ v, σ.main.view k = some (v, none) → σ'.main.view k = some (v, none)) :
    Once k (ℓ :: tr) σ' := by
  have hb : ∀ t id b, Brought (ℓ :: tr) t k id b → Brought tr t k id b := by
    intro t id b ⟨hs, hr⟩
    exact ⟨(started_cons_of_ne fun _ _ _ _ => hℓ _ _).1 hs,
      (returned_cons_of_ne fun _ _ _ _ => hℓ _ _).1 hr⟩
  refine ⟨?_, ?_, ?_⟩
  · intro t s n hheld hst
    rw [hloc] at hheld hst
    by_contra hne
    obtain ⟨x, hx⟩ := Option.ne_none_iff_exists'.1 hne
    have hold := hback x hx
    rw [hI.absent t s n hheld hst] at hold
    cases hold
  · intro t id b h
    rw [hloc]
    exact (hI.kept t id b (hb t id b h)).imp_left (hkeep _)
  · intro t id b t' id' b' h h'
    exact hI.single t id b t' id' b' (hb t id b h) (hb t' id' b' h')

end Once

section Runs

variable {G : Guard (node g)} (hG : ∀ tr σ ℓ σ', G tr σ ℓ σ' → ReadStep σ ℓ σ')
  (hexp : g.expiration ≤ 0) (h₀ : σ₀.Fresh)

include hG hexp h₀

theorem Run.background {c : Config (node g)} (h : Run G σ₀ c tr) :
    Background σ₀.topology tr c.state where
  main := Run.mainOk h₀ h
  flights := Run.flights h₀ h
  loads := Run.loads h₀ h
  getters := Run.getters h
  members := Run.memberships h₀ h
  stable := h.forall_mem fun tr σ ℓ σ' hstep => (hG tr σ ℓ σ' hstep).stable
  undisturbed := Run.undisturbed hG hexp h₀ h
  checked := by
    rintro t k id ⟨i, hm⟩
    exact Run.checked h hm

/-- **One load for all, over whole runs.** -/
theorem Run.once (hp : g.peers = true)
    (hok : (σ₀.topology.pick k).self = true → (σ₀.topology.pick k).ok = true)
    {c : Config (node g)} (h : Run G σ₀ c tr) : Once k tr c.state := by
  refine (h.guarded (I := Background σ₀.topology) fun h => Run.background hG hexp h₀ h).inv
    (P := protocol g) (I := Once k) ⟨?_, ?_, ?_, ?_, ?_⟩
  · refine ⟨?_, ?_, ?_⟩
    · intro t s n hheld
      cases hheld
    · rintro t id b ⟨⟨i, hm⟩, -⟩
      cases hm
    · rintro t id b t' id' b' ⟨⟨i, hm⟩, -⟩
      cases hm
  · intro tr σ t call hI _ _ _
    exact hI.other (fun t e heq => by cases heq) (fun t => locOf_spawn) (fun x hx => hx)
      fun v hv => hv
  · intro tr σ u call o i a σ' hI hg hcall hallow hx
    obtain ⟨hstep, hB, hB'⟩ := hg
    obtain ⟨key, hr⟩ := hB.undisturbed.reads u call hcall
    exact hI.act hB (disturbs_of_reads hr hallow) hallow hx hB' (hG _ _ _ _ hstep).roomy hp hok
  · intro tr σ t call r hI _ _ _
    exact hI.other (fun t e heq => by cases heq) (fun t => locOf_ret) (fun x hx => hx)
      fun v hv => hv
  · intro tr σ e σ' hI hg hx
    obtain ⟨hstep, hB, hB'⟩ := hg
    refine hI.other (fun t e heq => by cases heq) (fun t => locOf_env)
      (fun x hv => view_of_env hB.main hx hv) ?_
    intro v hv
    cases e with
    | membership T => exact (hG _ _ _ _ hstep).stable.elim
    | cleanupMain shard order now =>
      obtain ⟨x, hx'⟩ :=
        Option.isSome_iff_exists.1 ((hG _ _ _ _ hstep).roomy.kept rfl k v hv)
      have hold := view_of_env (e := .cleanupMain shard order now) hB.main hx hx'
      rw [hx', ← hold, hv]
    | cleanupNear shard order now =>
      simp only [Node.env, Option.ite_none_left_eq_some, Option.some.injEq] at hx
      obtain ⟨-, rfl⟩ := hx
      exact hv

end Runs

/-- At most one Getter call for a key is under way. -/
theorem waits_unique (hF : Flights tr σ) {id' : Nat} (h : Waits tr t k id) (h' : Waits tr u k id') :
    t = u ∧ id = id' := by
  obtain ⟨s, c, n, hheld, hst⟩ := h
  obtain ⟨s', c', n', hheld', hst'⟩ := h'
  obtain rfl := loader_unique hF hheld (by rw [hst]; rfl) hheld' (by rw [hst']; rfl)
  rw [hst] at hst'
  cases hst'
  exact ⟨rfl, rfl⟩

end Locache
