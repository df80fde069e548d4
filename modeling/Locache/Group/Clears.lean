import Locache.Group.Mutation

/-!
# Clearing the caches

`Clear` empties the main cache shard by shard. It takes no mutation state and counts up no
generation, so a load whose Getter call was running when `Clear` began does not notice it and stores
its bytes afterwards. As long as no such load comes to its second section after its key's shard has
been cleared, everything the main cache holds once `Clear` has returned was set, or fetched by a
Getter call that started, since `Clear` began.

An entry is traced back to the action that put it into the cache and from which on it has always
been there (`PutBy`); every entry has such an action (`Run.put_by`).
-/

namespace Locache

open Conc Prog

variable {g : Cfg} {tr A B C D : Trace g} {σ σ' σ₀ : State} {t u : Nat} {k key : GoString}
  {x : ByteView × Option Time} {o : Op} {i : Inp} {a : o.Ans} {ev : Ev groupSig Inp}

/-- The action `ev` of goroutine `t`, made after `B`, put the entry `x` of `k` into the main cache,
and in the steps `A` since then it has always been there. -/
structure PutBy (σ₀ : State) (k : GoString) (x : ByteView × Option Time) (A : Trace g) (t : Nat)
    (ev : Ev groupSig Inp) (B : Trace g) : Prop where
  stores : Stores k x.1 ev
  since : ∀ A₁ A₂, A = A₁ ++ A₂ →
    ((node g).replay σ₀ (A₂ ++ .act t ev :: B)).main.view k = some x

theorem PutBy.cons {ℓ : Label (node g)} (h : PutBy σ₀ k x A t ev B)
    (hx : ((node g).replay σ₀ (ℓ :: (A ++ .act t ev :: B))).main.view k = some x) :
    PutBy σ₀ k x (ℓ :: A) t ev B := by
  refine ⟨h.stores, ?_⟩
  intro A₁ A₂ heq
  cases A₁ with
  | nil =>
    cases heq
    exact hx
  | cons ℓ' A₁ =>
    cases heq
    exact h.since A₁ A₂ rfl

/-- **Every entry of the main cache was put there by an action**, and has been there since. -/
theorem Run.put_by {G : Guard (node g)} (h₀ : σ₀.Fresh) {c : Config (node g)}
    (h : Run G σ₀ c tr) : ∀ k x, c.state.main.view k = some x →
      ∃ A t ev B, tr = A ++ .act t ev :: B ∧ PutBy σ₀ k x A t ev B := by
  -- what was there before the step is still there
  have hstays : ∀ {tr : Trace g} {σ σ' : State} {ℓ : Label (node g)} {k : GoString}
      {x : ByteView × Option Time}, (node g).replay σ₀ (ℓ :: tr) = σ' →
      (∀ k x, σ.main.view k = some x →
        ∃ A t ev B, tr = A ++ .act t ev :: B ∧ PutBy σ₀ k x A t ev B) →
      σ'.main.view k = some x → σ.main.view k = some x →
      ∃ A t ev B, ℓ :: tr = A ++ .act t ev :: B ∧ PutBy σ₀ k x A t ev B := by
    intro tr σ σ' ℓ k x hreplay hI hx hold
    obtain ⟨A, t, ev, B, rfl, hput⟩ := hI k x hold
    exact ⟨ℓ :: A, t, ev, B, rfl, hput.cons (by rw [hreplay]; exact hx)⟩
  refine (h.guarded (I := fun tr σ => (node g).replay σ₀ tr = σ ∧ MainOk g σ)
    fun h => ⟨h.replay, Run.mainOk h₀ h⟩).inv (P := protocol g)
    (I := fun tr σ => ∀ k x, σ.main.view k = some x →
      ∃ A t ev B, tr = A ++ .act t ev :: B ∧ PutBy σ₀ k x A t ev B) ⟨?_, ?_, ?_, ?_, ?_⟩
  · intro k x hx
    rw [h₀.main_view] at hx
    cases hx
  · intro tr σ t call hI hG _ _ k x hx
    exact hstays hG.2.2.1 hI hx hx
  · intro tr σ t call o i a σ' hI hG _ _ hexec k x hx
    obtain ⟨-, ⟨-, hm⟩, hreplay, -⟩ := hG
    obtain ⟨-, σ₁, hact, rfl⟩ := exec_eq_some.1 hexec
    rcases view_of_act hm.wf hact hx with ⟨hs, -⟩ | ⟨hold, -⟩
    · refine ⟨[], t, _, tr, rfl, hs, ?_⟩
      intro A₁ A₂ heq
      obtain ⟨rfl, rfl⟩ := List.append_eq_nil_iff.1 heq.symm
      rw [List.nil_append, hreplay]
      exact hx
    · exact hstays hreplay hI hx hold
  · intro tr σ t call r hI hG _ _ k x hx
    exact hstays hG.2.2.1 hI hx hx
  · intro tr σ e σ' hI hG henv k x hx
    exact hstays hG.2.2.1 hI hx (view_of_env hG.2.1.2 henv hx)

/-! ## The shards of the main cache -/

theorem shape_addOwnerValue {v : ByteView} (main : Cache) :
    main.store.SameShape (Group.addOwnerValue g key v i main).store := by
  unfold Group.addOwnerValue Cache.addWithExpiration Cache.addFor Cache.add
  split
  · split
    · exact .refl _
    · split
      · exact .refl _
      · exact .modify _ _ _
  · split
    · exact .refl _
    · exact .modify _ _ _

theorem shape_get (now : Time) (main : Cache) :
    main.store.SameShape (main.get now key).2.store := by
  unfold Cache.get
  split
  · exact .refl _
  · exact .get _ _ _

theorem shape_delete (main : Cache) : main.store.SameShape (main.delete key).2.store := by
  unfold Cache.delete
  split
  · exact .refl _
  · exact .delete _ _

theorem shape_of_act {σ₁ : State} (h : Group.act g i σ o = some (a, σ₁)) :
    σ.main.store.SameShape σ₁.main.store := by
  cases o with
  | ownerEpoch e =>
    cases h
    unfold Group.checkOwnerEpoch Cache.clear
    split
    · exact .refl _
    · split
      · dsimp only
        split
        · exact .refl _
        · exact .clear _ _
      · exact .refl _
  | mainGet key => cases h; exact shape_get _ _
  | mainDelete key => cases h; exact shape_delete _
  | mainClear shard =>
    cases h
    change σ.main.store.SameShape (σ.main.clearShard shard i.order).store
    unfold Cache.clearShard
    split
    · exact .refl _
    · exact .modifyAt _ _ _
  | mainClose => cases h; exact .refl _
  | loadBegin s key =>
    obtain rfl : (Group.loadBegin s key i.now σ).2 = σ₁ := congrArg Prod.snd (Option.some.inj h)
    rw [main_loadBegin]
    exact shape_get _ _
  | loadCommit s key n b =>
    obtain rfl : (Group.loadCommit g s key n b i σ).2 = σ₁ := congrArg Prod.snd (Option.some.inj h)
    rcases loadCommit_cases s key n b with ⟨-, h, -⟩ | ⟨-, h, -⟩ <;> rw [h]
    · exact shape_get _ _
    · exact shape_addOwnerValue _
  | setSection s key value => cases h; exact shape_addOwnerValue _
  | deleteSection s key => cases h; exact shape_delete _
  | _ => rw [(act_frame h).main rfl]; exact .refl _

theorem shape_of_env {e : Event} (h : Node.env e σ = some σ') :
    σ.main.store.SameShape σ'.main.store := by
  rcases env_cases h with ⟨T, -, -, rfl⟩ | ⟨shard, order, now, -, -, rfl⟩ |
    ⟨shard, order, now, -, -, rfl⟩
  · exact .refl _
  · exact .modifyAt _ _ _
  · exact .refl _

/-- The main cache keeps its shards, and every key its shard. -/
theorem Run.shape {G : Guard (node g)} {c : Config (node g)} (h : Run G σ₀ c tr) :
    σ₀.main.store.SameShape c.state.main.store := by
  refine h.inv (P := protocol g) (I := fun _ σ => σ₀.main.store.SameShape σ.main.store)
    ⟨.refl _, fun hI _ _ _ => hI, ?_, fun hI _ _ _ => hI, ?_⟩
  · intro tr σ t call o i a σ' hI _ _ _ hx
    obtain ⟨-, σ₁, hact, rfl⟩ := exec_eq_some.1 hx
    have hs := shape_of_act hact
    exact hI.trans hs
  · intro tr σ e σ' hI _ hx
    exact hI.trans (shape_of_env hx)

/-- The shard of a key is one of those `Clear` goes through. -/
theorem Run.index_lt {G : Guard (node g)} (h₀ : σ₀.Fresh)
    (hshards : σ₀.main.store.shardCount = g.mainShards) {c : Config (node g)} (h : Run G σ₀ c tr)
    (k : GoString) : c.state.main.store.index k < g.mainShards := by
  rw [← hshards, ← (Run.shape h).count]
  exact (Run.mainOk h₀ h).wf.index_lt k

theorem view_mainClear {n : Nat} (hx : Node.exec g (.mainClear n) i σ = some ((), σ'))
    (hn : n = σ.main.store.index k) : σ'.main.view k = none := by
  obtain ⟨-, σ₁, hact, rfl⟩ := exec_eq_some.1 hx
  cases hact
  subst hn
  change (σ.main.clearShard (σ.main.store.index k) i.order).view k = none
  unfold Cache.clearShard Cache.view
  cases hcl : σ.main.closed with
  | true => simp [hcl]
  | false => simpa [hcl] using Store.view_clearShard_index σ.main.store i.order k

/-! ## What a call of `Clear` does -/

theorem clearMainFrom_clears (n m : Nat) (h : History) :
    (Group.clearMainFrom n m).Follows (fun _ _ => True)
      (fun h' _ => ∀ l, n ≤ l → l < n + m → ∃ j, (⟨.mainClear l, j, ()⟩ : Ev groupSig Inp) ∈ h')
      h := by
  induction m generalizing n h with
  | zero =>
    intro l hle hlt
    omega
  | succ m ih =>
    refine Follows.op_bind trivial fun i _ => ?_
    refine (ih (n + 1) _).mono (fun _ _ _ _ => trivial) ?_
    intro h' r hsuffix hrest l hle hlt
    rcases Nat.eq_or_lt_of_le hle with rfl | hle
    · exact ⟨i, hsuffix.subset List.mem_cons_self⟩
    · exact hrest l hle (by omega)

/-- `Clear` goes through all shards, unless it finds the group closed. -/
theorem clear_clears (h : History) : (Group.clear g).Follows (fun _ _ => True)
    (fun h' _ => (∃ i, (⟨.loadClosed, i, true⟩ : Ev groupSig Inp) ∈ h') ∨
      ∀ l, l < g.mainShards → ∃ j, (⟨.mainClear l, j, ()⟩ : Ev groupSig Inp) ∈ h') h := by
  refine Follows.op_bind trivial fun i closed => ?_
  split
  · next hclosed =>
    subst hclosed
    exact Or.inl ⟨i, List.mem_cons_self⟩
  refine Follows.bind (clearMainFrom_clears 0 g.mainShards _) ?_ ?_
  · intro h₁ _ _ hmain
    refine Follows.of_end fun h₂ _ hsuffix => Or.inr fun l hl => ?_
    obtain ⟨j, hj⟩ := hmain l (Nat.zero_le l) (by omega)
    exact ⟨j, hsuffix.subset hj⟩
  · intro h₁ e _ hmain
    exact Or.inr fun l hl => hmain l (Nat.zero_le l) (by omega)

/-- A `Clear` that has returned has cleared every shard since it began. -/
theorem Run.cleared {G : Guard (node g)} (hopen : σ₀.closed = false) {c : Config (node g)}
    (h : Run G σ₀ c tr) (hno : ∀ t, .spawn t .close ∉ tr) {r : Except Panic Res}
    (htr : tr = A ++ .spawn u .clear :: C) (hret : .ret u r ∈ A) {l : Nat} (hl : l < g.mainShards) :
    ∃ j, .act u ⟨.mainClear l, j, ()⟩ ∈ A := by
  have hspawn : .spawn u .clear ∈ tr := by simp [htr]
  have hends : ((node g).prog .clear).Ends (hist tr u) r := h.ends hspawn (by simp [htr, hret])
  have hfollows : ((node g).prog .clear).Follows (fun _ _ => True)
      (fun h' _ => (∃ i, (⟨.loadClosed, i, true⟩ : Ev groupSig Inp) ∈ h') ∨
        ∀ l, l < g.mainShards → ∃ j, (⟨.mainClear l, j, ()⟩ : Ev groupSig Inp) ∈ h') [] :=
    Follows.bind (clear_clears []) (fun _ _ _ hQ => hQ) fun _ _ _ hQ => hQ
  rcases hfollows.of_ends hends with ⟨i, hm⟩ | hall
  · -- nobody closed the group
    obtain ⟨X, Y, hXY⟩ := List.append_of_mem (mem_hist.1 hm)
    subst hXY
    obtain ⟨c₁, cmd, c₂, hrun, hstep, -⟩ := h.split
    obtain ⟨call, -, -, hx⟩ := hrun.of_act (protocol g) hstep
    obtain ⟨-, σ₁, hact, -⟩ := exec_eq_some.1 hx
    have hclosed : c₁.state.closed = true := congrArg Prod.fst (Option.some.inj hact)
    rw [(Run.stays_open hrun fun t ht => hno t (by simp [ht])).1, hopen] at hclosed
    cases hclosed
  · obtain ⟨j, hm⟩ := hall l hl
    refine ⟨j, ?_⟩
    -- it did nothing before it began
    have hnone : hist C u = [] := (Run.before_spawn (htr ▸ h)).1
    have hmem := mem_hist.1 hm
    rw [htr] at hmem
    rcases List.mem_append.1 hmem with hmem | hmem
    · exact hmem
    · rcases List.mem_cons.1 hmem with heq | hmem
      · cases heq
      · have := mem_hist.2 hmem
        rw [hnone] at this
        cases this

/-! ## After a `Clear` -/

/-- **The condition on a step.** A load that finds its generation unchanged although a `Clear` has
cleared the shard of its key fetched its bytes since that `Clear` began. -/
def ClearGuard : Guard (node g) := fun tr σ ℓ _ =>
  ∀ t s key n b i a, ℓ = .act t ⟨.loadCommit s key n b, i, a⟩ → (σ.states s).generation = n →
    ∀ A C u j, tr = A ++ .spawn u .clear :: C →
      .act u ⟨.mainClear (σ.main.store.index key), j, ()⟩ ∈ A → Fetched t key b A

/-- Whatever the main cache holds after a `Clear` has returned was put there since the `Clear`
began: by a `Set`, or by a load whose Getter call started since then. -/
def ClearedOf (σ₀ : State) (tr : Trace g) : Prop :=
  ∀ A C u r, tr = A ++ .spawn u .clear :: C → .ret u r ∈ A →
    ∀ k x, ((node g).replay σ₀ tr).main.view k = some x →
      (∃ B t ev D, tr = B ++ .act t ev :: D ∧ PutBy σ₀ k x B t ev D) ∧
      ∀ B t ev D, tr = B ++ .act t ev :: D → PutBy σ₀ k x B t ev D →
        ∃ W, D = W ++ .spawn u .clear :: C ∧
          ((∃ s i, ev = ⟨.setSection s k x.1.b, i, ()⟩) ∨ Fetched t k x.1.b W)

/-- An entry that has been there since `ev` was put there after its shard was cleared. -/
theorem put_after_clear {G : Guard (node g)} {c : Config (node g)} {n : Nat} {j : Inp}
    (h : Run G σ₀ c tr) (hn : n = σ₀.main.store.index k) {X Y : Trace g}
    (hclear : tr = X ++ .act u ⟨.mainClear n, j, ()⟩ :: Y) (hput : tr = B ++ .act t ev :: D)
    (hp : PutBy σ₀ k x B t ev D) : ∃ Z, D = Z ++ .act u ⟨.mainClear n, j, ()⟩ :: Y := by
  rcases List.append_eq_append_iff.1 (hclear.symm.trans hput) with ⟨as, hB, has⟩ | ⟨bs, -, hbs⟩
  · cases as with
    | nil =>
      cases has
      exact absurd hp.stores id
    | cons ℓ as =>
      -- the entry would have been there right after its shard was cleared
      rw [List.cons_append] at has
      obtain ⟨rfl, rfl⟩ := List.cons.inj has
      have hheld := hp.since X _ hB
      subst hclear
      obtain ⟨c₁, cmd, c₂, hrun, hstep, hguard⟩ := h.split
      obtain ⟨call, -, -, hx⟩ := hrun.of_act (protocol g) hstep
      have hrun' := Run.step cmd hrun hstep hguard
      have hgone := view_mainClear hx (hn.trans ((Run.shape hrun).index k).symm)
      rw [List.cons_append, hrun'.replay, hgone] at hheld
      cases hheld
  · cases bs with
    | nil =>
      cases hbs
      exact absurd hp.stores id
    | cons ℓ bs =>
      cases hbs
      exact ⟨bs, rfl⟩

/-- **After `Clear` has returned, the main cache holds nothing that a Getter call fetched which had
started before `Clear` began**, in every run in which no such load stores after its shard has been
cleared. -/
theorem cleared_of_older_loads (h₀ : σ₀.Fresh) (hopen : σ₀.closed = false)
    (hshards : σ₀.main.store.shardCount = g.mainShards) {c : Config (node g)}
    (h : Run ClearGuard σ₀ c tr) (hno : ∀ t, .spawn t .close ∉ tr) : ClearedOf σ₀ tr := by
  intro A C u r htr hret k x hx
  refine ⟨Run.put_by h₀ h k x (by rw [← h.replay]; exact hx), ?_⟩
  intro B t ev D hput hp
  have hlt : σ₀.main.store.index k < g.mainShards :=
    Run.index_lt h₀ hshards (Run.start (G := Free)) k
  obtain ⟨j, hm⟩ := Run.cleared hopen h hno htr hret hlt
  obtain ⟨X, Y, rfl⟩ := List.append_of_mem hm
  have htr' : tr = X ++ .act u ⟨.mainClear (σ₀.main.store.index k), j, ()⟩ ::
      (Y ++ .spawn u .clear :: C) := by simpa using htr
  obtain ⟨Z, rfl⟩ := put_after_clear h rfl htr' hput hp
  refine ⟨Z ++ .act u ⟨.mainClear (σ₀.main.store.index k), j, ()⟩ :: Y, by simp, ?_⟩
  obtain ⟨o, i, a⟩ := ev
  rcases hp.stores.cases with ⟨s, heq⟩ | ⟨s, n, b, heq⟩
  · exact Or.inl ⟨s, i, heq⟩
  · right
    cases heq
    subst hput
    obtain ⟨c₁, cmd, c₂, hrun, hstep, hguard⟩ := h.split
    obtain ⟨call, -, -, hexec⟩ := hrun.of_act (protocol g) hstep
    obtain ⟨hgen, hw⟩ := generation_of_stored hexec
    rw [hw]
    refine hguard t s k n b i _ rfl hgen _ C u j (by simp) ?_
    rw [(Run.shape hrun).index]
    simp

/-- No load comes to its second section after a `Clear` has begun. -/
def loadsFirst (tr : Trace g) (_ : State) : Label (node g) → Bool
  | .act _ ⟨.loadCommit _ _ _ _, _, _⟩ => tr.all fun
    | .spawn _ .clear => false
    | _ => true
  | _ => true

theorem clearGuard_of_loadsFirst (tr : Trace g) (σ : State) (ℓ : Label (node g)) (σ' : State)
    (h : loadsFirst tr σ ℓ = true) : ClearGuard tr σ ℓ σ' := by
  rintro t s key n b i a rfl - A C u j rfl -
  have hall := List.all_eq_true.1 h (.spawn u .clear) (by simp)
  cases hall

/-- A load, then a `Clear`, then a `Set`: the cache holds what was set. -/
theorem set_after_clear_held : ∃ c : Config (node Cfg.solo), ∃ tr,
    Run ClearGuard State.solo c tr ∧ .ret 1 (.ok .unit) ∈ tr ∧
    c.state.main.view (ascii "k") = some (⟨[2]⟩, none) ∧ ClearedOf State.solo tr := by
  obtain ⟨c, tr, hsteps, hret, hview, hno⟩ : ∃ c tr,
      (Config.start (M := node Cfg.solo) State.solo).stepsIf loadsFirst []
        (.spawn (.get (ascii "k")) :: List.replicate 11 (.run 0 (Inp.fetch [1])) ++
          .spawn .clear :: List.replicate 3 (.run 1 (Inp.fetch [])) ++
          .spawn (.set (ascii "k") [2]) :: List.replicate 4 (.run 2 (Inp.fetch []))) =
        some (c, tr) ∧ .ret 1 (.ok .unit) ∈ tr ∧
      c.state.main.view (ascii "k") = some (⟨[2]⟩, none) ∧ ∀ t, .spawn t .close ∉ tr :=
    ⟨_, _, rfl, by simp, rfl, by simp⟩
  have hrun : Run ClearGuard State.solo c tr := Run.stepsIf clearGuard_of_loadsFirst .start hsteps
  exact ⟨c, tr, hrun, hret, hview,
    cleared_of_older_loads State.fresh_solo rfl rfl hrun hno⟩

/-- A read has called its Getter. -/
def loadRunning : Trace Cfg.solo :=
  let i := Inp.fetch [0]
  let k := ascii "k"
  [.act 0 ⟨.getterStart k, i, 0⟩, .act 0 ⟨.count .sourceLoads, i, ()⟩,
    .act 0 ⟨.loadBegin 0 k, i, .generation 0⟩, .act 0 ⟨.doEnter k, i, .lead 0⟩,
    .act 0 ⟨.count .localMisses, i, ()⟩, .act 0 ⟨.mainGet k, i, none⟩,
    .act 0 ⟨.acquireKeyState k, i, 0⟩, .act 0 ⟨.loadClosed, i, false⟩,
    .act 0 ⟨.loadClosed, i, false⟩, .spawn 0 (.get k)]

/-- A `Clear` runs to its end, and the Getter returns. -/
def clearThenFetch : Trace Cfg.solo :=
  let i := Inp.fetch [0]
  [.act 0 ⟨.getterEnd 0, i, .ok (.ok [0])⟩, .ret 1 (.ok .unit), .act 1 ⟨.mainClear 0, i, ()⟩,
    .act 1 ⟨.loadClosed, i, false⟩]

/-- The load stores its bytes into the cache that has been cleared. -/
theorem load_outlives_clear : ∃ c : Config (node Cfg.solo), ∃ tr,
    Run Free State.solo c tr ∧ (∀ t, .spawn t .close ∉ tr) ∧
    c.state.main.view (ascii "k") = some (⟨[0]⟩, none) ∧ ¬ ClearedOf State.solo tr := by
  obtain ⟨c, hsteps, hview⟩ : ∃ c, (Config.start (M := node Cfg.solo) State.solo).steps []
      (.spawn (.get (ascii "k")) :: List.replicate 9 (.run 0 (Inp.fetch [0])) ++
        .spawn .clear :: List.replicate 3 (.run 1 (Inp.fetch [0])) ++
        List.replicate 2 (.run 0 (Inp.fetch [0]))) =
      some (c, .act 0 ⟨.loadCommit 0 (ascii "k") 0 [0], Inp.fetch [0], .stored ⟨[0]⟩⟩ ::
        (clearThenFetch ++ .spawn 1 .clear :: loadRunning)) ∧
      c.state.main.view (ascii "k") = some (⟨[0]⟩, none) := ⟨_, rfl, rfl⟩
  have hrun : Run Free State.solo c _ := Run.steps .start hsteps
  refine ⟨c, _, hrun, by simp [clearThenFetch, loadRunning], hview, fun hcleared => ?_⟩
  have hput : PutBy State.solo (ascii "k") (⟨[0]⟩, none) [] 0
      ⟨.loadCommit 0 (ascii "k") 0 [0], Inp.fetch [0], .stored ⟨[0]⟩⟩
      (clearThenFetch ++ .spawn 1 .clear :: loadRunning) := by
    refine ⟨⟨rfl, rfl⟩, ?_⟩
    intro A₁ A₂ heq
    obtain ⟨rfl, rfl⟩ := List.append_eq_nil_iff.1 heq.symm
    rw [List.nil_append, hrun.replay]
    exact hview
  obtain ⟨-, hall⟩ := hcleared (.act 0 _ :: clearThenFetch) loadRunning 1 (.ok .unit) rfl
    (by simp [clearThenFetch]) (ascii "k") (⟨[0]⟩, none) (by rw [hrun.replay]; exact hview)
  obtain ⟨W, hW, hor⟩ := hall [] 0 _ _ rfl hput
  obtain rfl : clearThenFetch = W := List.append_cancel_right hW
  rcases hor with ⟨s, i, heq⟩ | ⟨id, i, j, hstart, -⟩
  · cases heq
  · simp [clearThenFetch] at hstart

end Locache
