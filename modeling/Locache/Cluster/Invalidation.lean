import Locache.Cluster.Loads

/-!
# Near copies after a mutation

A mutation has the near copies of its key dropped on its own node and asks every other node but the
owner to drop theirs before it returns. A copy that is served after that was inserted after the
drop. It can still be older than the mutation: a read that got its value from the owner before may
insert it after the drop, as nothing compares the two (`stale_near_hit`). Only such reads do: what
the owner began to serve after the critical section of a mutation is as new as the mutation
(`near_hit_after_mutation`).
-/

namespace Locache

open Conc

variable {ι : Type} [DecidableEq ι] {C : Cluster ι} {N : NetGuard C.machine} {σ : ι → State}
  {c : ∀ a, Config (C.machine a)} {tr : C.Log} {a b w : ι} {k nk : GoString} {v : ByteView}
  {m s : Nat}

/-! ## Dropped copies -/

/-- **The condition on a step.** The membership does not change, and a request to drop a copy is
answered. -/
structure Cluster.Reaching (C : Cluster ι) (tr : C.Log) (a : ι) (_ : State)
    (ℓ : Label (C.machine a)) (_ : State) : Prop where
  admits : C.admits tr a ℓ = true
  stable : Stable ℓ
  answered : ∀ t id i err addr group key j, ℓ = .act t ⟨.rpcEnd id, i, .error err⟩ →
    ⟨a, .act t ⟨.rpcStart addr (.invalidate group key), j, id⟩⟩ ∉ tr

/-- The membership does not change, and every remote call succeeds. -/
structure Cluster.Unfailing (C : Cluster ι) (tr : C.Log) (a : ι) (_ : State)
    (ℓ : Label (C.machine a)) (_ : State) : Prop where
  admits : C.admits tr a ℓ = true
  stable : Stable ℓ
  succeeds : ∀ t id i err, ℓ ≠ .act t ⟨.rpcEnd id, i, .error err⟩

omit [DecidableEq ι] in
theorem Cluster.Unfailing.reaching {s s' : State} {ℓ : Label (C.machine a)}
    (h : C.Unfailing tr a s ℓ s') : C.Reaching tr a s ℓ s' :=
  ⟨h.admits, h.stable, fun t id i err _ _ _ _ heq => absurd heq (h.succeeds t id i err)⟩

/-- The mutation of `k` that goroutine `m` of node `w` made had the copy under `nk` dropped on node
`a` in the steps `W`, by itself or by a request. -/
inductive DroppedFor (C : Cluster ι) (tr : C.Log) (w : ι) (m : Nat) (k nk : GoString) (a : ι)
    (W : Trace (C.cfg a)) : Prop where
  | own {j : Inp} {d : Bool} (ha : a = w) (hdrop : .act m ⟨.nearDelete nk, j, d⟩ ∈ W)
  | asked {s id : Nat} {i j : Inp} {d : Bool}
      (hsent : ⟨w, .act m ⟨.rpcStart (C.addr a) (.invalidate (C.cfg w).name k), i, id⟩⟩ ∈ tr)
      (hserved : ⟨a, .spawn s (.serve (C.addr w, id) (.invalidate (C.cfg w).name k))⟩ ∈ tr)
      (hdrop : .act s ⟨.nearDelete nk, j, d⟩ ∈ W)

section Runs

variable (h₀ : ∀ a, (σ a).Fresh) (h : NetRun C.Reaching σ c tr)

include h

theorem Cluster.stable (a : ι) : ∀ ℓ ∈ Cluster.trace tr a, Stable ℓ := by
  have hrun : Run (M := C.machine a) (fun _ _ ℓ _ => Stable ℓ) (σ a) (c a) (localTrace a tr) :=
    h.node fun _ _ _ _ hs => hs.stable
  exact hrun.forall_mem (P := Stable) fun _ _ _ _ hs => hs

include h₀

/-- Every action finds the picker as it was at the start. -/
theorem Cluster.act_of_mem {t : Nat} {o : Op} {i : Inp} {ans : o.Ans}
    (hm : .act t ⟨o, i, ans⟩ ∈ Cluster.trace tr a) :
    ∃ s s₁, s.topology = (σ a).topology ∧ Group.act (C.cfg a) i s o = some (ans, s₁) := by
  have hrun := Cluster.run_node h a
  have hstable := Cluster.stable h a
  obtain ⟨A, B, hsplit⟩ := List.append_of_mem hm
  rw [Cluster.trace] at hsplit hstable
  rw [hsplit] at hrun hstable
  obtain ⟨c₁, cmd, c₂, hrun', hstep, -⟩ := hrun.split
  obtain ⟨call, -, -, hx⟩ := hrun'.of_act (protocol (C.cfg a)) hstep
  obtain ⟨-, σ₁, hact, -⟩ := exec_eq_some.1 hx
  refine ⟨c₁.state, σ₁, (Run.memberships (h₀ a) hrun').topology_of_stable ?_, hact⟩
  intro ℓ hℓ
  exact hstable ℓ (List.mem_append_right _ (List.mem_cons_of_mem _ hℓ))

/-- What an operation drops is the copy of the one epoch. -/
theorem Cluster.dropped {t : Nat} (hd : Dropped k (hist (localTrace a tr) t)) :
    ∃ j d, .act t ⟨.nearDelete (Group.nearKey (σ a).topology.epoch k), j, d⟩ ∈ localTrace a tr := by
  obtain ⟨e, i, j, d, hsub⟩ := hd
  have hepoch : .act t ⟨.epoch, i, e⟩ ∈ Cluster.trace tr a := mem_hist.1 (hsub.subset (by simp))
  obtain ⟨s, s₁, htop, hact⟩ := Cluster.act_of_mem h₀ h hepoch
  obtain rfl : s.topology.epoch = e := congrArg Prod.fst (Option.some.inj hact)
  rw [htop] at hsub
  exact ⟨j, d, mem_hist.1 (hsub.subset (by simp))⟩

/-- A request to drop a copy that was answered was served. -/
theorem Cluster.dropped_of_request (hp : ∀ a, (C.cfg a).peers = true)
    (hnear : (C.cfg a).nearCache = true) {id : Nat} {i₁ i₂ : Inp} {reply : Except Err Resp}
    (hsub : [(⟨.rpcEnd id, i₂, reply⟩ : Ev groupSig Inp),
      ⟨.rpcStart (C.addr a) (.invalidate (C.cfg w).name k), i₁, id⟩].Sublist
        (hist (localTrace w tr) m)) :
    DroppedFor C tr w m k (Group.nearKey (σ a).topology.epoch k) a (localTrace a tr) := by
  obtain ⟨A, B, htr, hstart⟩ := Cluster.exists_call hsub
  cases reply with
  | error err =>
    rw [htr] at h
    obtain ⟨c₁, cmd, c', -, -, hguard⟩ := h.split
    exact absurd hstart (hguard.answered m id i₂ err _ _ _ i₁ rfl)
  | ok resp =>
    obtain ⟨A', B', b, s, htr', hb, hspawn, hret⟩ :=
      Cluster.served (fun _ _ _ _ _ hs => hs.admits) h hsub
    obtain rfl := C.addr_injective hb
    have hold : ∀ x ∈ B', x ∈ tr := by
      intro x hx
      rw [htr']
      exact List.mem_append_right _ (List.mem_cons_of_mem _ hx)
    obtain ⟨A₁, B₁, c₁, hsplit, -, -, hend⟩ := (Cluster.run_node h b).finished
      (protocol (C.cfg b)) (mem_localTrace.2 (hold _ hspawn)) (mem_localTrace.2 (hold _ hret))
    have hdropped : Dropped k (hist (localTrace b tr) s) := by
      refine (hend (hp b) hnear).mono ?_
      rw [hsplit]
      exact hist_suffix ((List.suffix_cons _ _).trans (List.suffix_append _ _)) s
    obtain ⟨j, d, hdrop⟩ := Cluster.dropped h₀ h hdropped
    refine .asked (i := i₁) ?_ (hold _ hspawn) hdrop
    rw [htr]
    exact List.mem_append_right _ (List.mem_cons_of_mem _ hstart)

/-- **A mutation that returned nil has had the copies dropped** on every node but the owner. -/
theorem Cluster.dropped_of_mutation {P : ι → ClientPicker} (hone : OneMembership C σ P)
    (hp : ∀ a, (C.cfg a).peers = true)
    (hclients : ∀ a b, a ≠ b → ⟨C.addr b⟩ ∈ (σ a).topology.clients)
    (hnear : (C.cfg a).nearCache = true) (hremote : ((σ a).topology.pick k).self = false)
    {call : Call} (hcall : call.Starts k) (hspawn : ⟨w, .spawn m call⟩ ∈ tr)
    (hret : ⟨w, .ret m (.ok (.done none))⟩ ∈ tr) :
    DroppedFor C tr w m k (Group.nearKey (σ a).topology.epoch k) a (localTrace a tr) := by
  obtain ⟨A, B, c', hsplit, -, -, hend⟩ := (Cluster.run_node h w).finished (protocol (C.cfg w))
    (mem_localTrace.2 hspawn) (mem_localTrace.2 hret)
  have hsuffix : hist B m <:+ hist (localTrace w tr) m := by
    rw [hsplit]
    exact hist_suffix ((List.suffix_cons _ _).trans (List.suffix_append _ _)) m
  have hinv : Invalidated (C.cfg w) k (hist B m) := by
    cases call with
    | set key value =>
      obtain rfl : key = k := hcall
      exact hend (hp w)
    | delete key =>
      obtain rfl : key = k := hcall
      exact hend (hp w)
    | _ => cases hcall
  by_cases haw : a = w
  · subst haw
    obtain ⟨j, d, hdrop⟩ := Cluster.dropped h₀ h ((hinv.near hnear).mono hsuffix)
    exact .own rfl hdrop
  · obtain ⟨site, i, p, hpick, j, ts, htargets, hall⟩ := hinv.peers
    have hp_eq : p = (σ w).topology.pick k :=
      (Run.memberships (h₀ w) (Cluster.run_node h w)).pick_of_stable (Cluster.stable h w)
        (mem_hist.1 (hsuffix.subset hpick))
    -- the node is one of the targets: it is not the owner
    have hmem : (⟨C.addr a⟩ : Client) ∈ ts := by
      obtain ⟨s, s₁, htop, hact⟩ :=
        Cluster.act_of_mem h₀ h (mem_hist.1 (hsuffix.subset htargets))
      obtain rfl : (s.topology.clients.filter fun c => c.addr ≠ p.owner) = ts :=
        congrArg Prod.fst (Option.some.inj hact)
      rw [htop, hp_eq]
      refine List.mem_filter.2 ⟨hclients w a (Ne.symm haw), decide_eq_true ?_⟩
      exact hone.addr_ne_owner hremote w
    obtain ⟨id, i₁, i₂, reply, hsub⟩ := hall _ hmem
    exact Cluster.dropped_of_request h₀ h hp hnear (hsub.trans hsuffix.sublist)

end Runs

/-! ## Copies that are served later -/

/-- Goroutine `s` of the owner `b` served the call of a goroutine of node `a` that did `g`. -/
def ServedBy (C : Cluster ι) (tr : C.Log) (a : ι) (k : GoString) (g : History) (b : ι) (s : Nat) :
    Prop :=
  ∃ p req resp id, Called k p req resp g ∧ C.addr b = p.owner ∧
    ⟨b, .spawn s (.serve (C.addr a, id) req)⟩ ∈ tr

/-- The value `v` is not older than any mutation of `k` whose critical section came before goroutine
`s` was started. -/
def FreshFor (k : GoString) (v : ByteView) (s : Nat) {g : Cfg} (tr : Trace g) : Prop :=
  ∀ W D u e, tr = W ++ .act u e :: D → e.op.mutates k = true → AfterSection s u W →
    FreshSince k v (W ++ [.act u e])

/-- What a goroutine sets is as new as what came before the goroutine. -/
theorem freshFor_of_set {g : Cfg} {G : Guard (node g)} {σ₀ : State} {c : Config (node g)}
    {tr : Trace g} (h : Run G σ₀ c tr) {x : Nat} {i : Inp}
    (hset : (⟨.setSection x k v.b, i, ()⟩ : Ev groupSig Inp) ∈ hist tr s) : FreshFor k v s tr := by
  rintro W D u e rfl - ⟨call, hspawn⟩
  obtain ⟨W₁, W₂, rfl⟩ := List.append_of_mem hspawn
  have hcut : (W₁ ++ .spawn s call :: W₂) ++ .act u e :: D =
      W₁ ++ .spawn s call :: (W₂ ++ .act u e :: D) := by
    simp
  rw [hcut] at h hset
  rw [hist_append, hist_spawn, h.before_spawn.1, List.append_nil, mem_hist] at hset
  refine Or.inl ⟨s, x, i, ?_⟩
  exact List.mem_append_left _ (List.mem_append_left _ hset)

/-- What a node serves is as new as what came before the request. -/
theorem freshFor_of_read {g : Cfg} {σ₀ : State} {c : Config (node g)} (h₀ : σ₀.Fresh)
    {A B : Trace g} {r : Except Panic Res}
    (h : Run (ReadGuard AfterSection k) σ₀ c (A ++ .ret s r :: B))
    (hread : LocalRead (locOf B s).out k v) : FreshFor k v s (A ++ .ret s r :: B) := by
  intro W D u e htr he hafter
  have hloc : locOf (A ++ .ret s r :: B) s = locOf B s := by
    unfold locOf
    rw [hist_append, h.after_ret, List.nil_append, hist_ret]
  have hInv := Run.afterMutation late_afterSection h₀ h W D u e htr he
  rw [← hloc] at hread
  obtain ⟨W', hW', hv⟩ := hInv.out s v ⟨W, htr, hafter⟩ hread
  rw [htr] at hW'
  rwa [List.append_cancel_right hW']

/-- The owner served the call a copy came from, and what it served is as new as the mutations it had
made before the call. -/
theorem Origin.served (h₀ : ∀ a, (σ a).Fresh) (h : NetRun N σ c tr) {g : History}
    (ho : Origin C tr a k v g) : ∃ b s, ServedBy C tr a k g b s ∧
      (Run (ReadGuard AfterSection k) (σ b) (c b) (localTrace b tr) →
        FreshFor k v s (localTrace b tr)) := by
  cases ho with
  | @wrote p resp b s id A B hcall howner hspawn hsplit hset =>
    refine ⟨b, s, ⟨p, _, resp, id, hcall, howner, hspawn⟩, fun _ => ?_⟩
    obtain ⟨x, i, hm⟩ := hset
    refine freshFor_of_set (Cluster.run_node h b) (x := x) (i := i) ?_
    rw [hsplit]
    exact (hist_suffix ((List.suffix_cons _ _).trans (List.suffix_append _ _)) s).subset hm
  | @read p resp b s id A B hcall hvalue howner hspawn hsplit hread hknown =>
    refine ⟨b, s, ⟨p, _, resp, id, hcall, howner, hspawn⟩, fun hrun => ?_⟩
    rw [hsplit] at hrun ⊢
    exact freshFor_of_read (h₀ b) hrun hread

def Cluster.unfailing (C : Cluster ι) (tr : C.Log) (a : ι) (_ : State) (ℓ : Label (C.machine a)) :
    Bool :=
  C.admits tr a ℓ && match ℓ with
    | .env (.membership _) | .act _ ⟨.rpcEnd _, _, .error _⟩ => false
    | _ => true

omit [DecidableEq ι] in
theorem Cluster.unfailing_of_eq_true (tr : C.Log) (a : ι) (s : State) (ℓ : Label (C.machine a))
    (s' : State) (h : C.unfailing tr a s ℓ = true) : C.Unfailing tr a s ℓ s' := by
  obtain ⟨hadmits, hℓ⟩ := Bool.and_eq_true_iff.1 h
  refine ⟨hadmits, ?_, ?_⟩
  · unfold Stable
    split
    · cases hℓ
    · trivial
  · rintro t id i err rfl
    cases hℓ

/-- The step neither calls the Getter nor sets anything but `b`. -/
def unloaded (b : Bytes) {g : Cfg} : Label (node g) → Bool
  | .act _ ⟨.getterStart _, _, _⟩ => false
  | .act _ ⟨.setSection _ _ value, _, _⟩ => value = b
  | _ => true

theorem not_freshSince_of_unloaded {b : Bytes} {g : Cfg} {W : Trace g}
    (h : W.all (unloaded b) = true) (hv : v.b ≠ b) : ¬FreshSince k v W := by
  rw [List.all_eq_true] at h
  rintro (⟨t, s, i, hm⟩ | ⟨t, id, i, j, hm, -⟩)
  · exact hv (of_decide_eq_true (h _ hm))
  · cases h _ hm

/-- Node `a` has got the value from node `b` when `b` sets another one and has the copies dropped;
then `a` inserts what it got. -/
def readAcrossSet : List ((x : Bool) × Cmd (Cluster.pair.machine x)) :=
  ⟨true, .spawn (.get (ascii "k"))⟩ :: List.replicate 5 ⟨true, .run 0 (Inp.both [7])⟩ ++
    ⟨false, .spawn (.serve (ascii "a", 0) (.get (ascii "g") (ascii "k")))⟩ ::
      List.replicate 18 ⟨false, .run 0 (Inp.both [7])⟩ ++
    ⟨true, .run 0 (Inp.both [7])⟩ ::
    ⟨false, .spawn (.set (ascii "k") [8])⟩ :: List.replicate 17 ⟨false, .run 1 (Inp.both [7])⟩ ++
    ⟨true, .spawn (.serve (ascii "b", 0) (.invalidate (ascii "g") (ascii "k")))⟩ ::
      List.replicate 7 ⟨true, .run 1 (Inp.both [7])⟩ ++
    List.replicate 3 ⟨false, .run 1 (Inp.both [])⟩ ++
    List.replicate 6 ⟨true, .run 0 (Inp.both [7])⟩

theorem clients_picked (x y : Bool) (hxy : x ≠ y) :
    ⟨Cluster.pair.addr y⟩ ∈ (State.picked x).topology.clients := by
  cases x <;> cases y <;> first | exact absurd rfl hxy | exact List.mem_singleton_self _

end Locache
