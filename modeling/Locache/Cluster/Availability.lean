import Locache.Cluster.Completion
import Locache.Cluster.Linear
import Locache.Group.Healthy
import Locache.Picker.Clients

/-!
# Availability

While the membership stands, every member can be reached, no group is closed and the network loses
nothing, the loops of `Set`, `Delete` and `Get` never have to go round again and no call fails for
want of an owner. Every mutation returns nil, whatever else is going on, and a read that fails has
led or joined a load on the owner whose Getter call failed or whose key was mutated meanwhile
(`calls_succeed`).
-/

namespace Locache

open Conc

/-! ## Loads that fail -/

section Loads

variable {g : Cfg} {tr : Trace g} {k : GoString} {n : Nat}

/-- The load of `k` in the call `n` came to nothing: its Getter call failed, or the key was mutated
between its two critical sections. -/
def Spoiled (k : GoString) (tr : Trace g) (n : Nat) : Prop :=
  ∃ u, Entered tr u k n ∧
    ((∃ id i out, .act u ⟨.getterEnd id, i, out⟩ ∈ tr ∧ ∀ b, out ≠ .ok (.ok b)) ∨
      ∃ A B s m w, tr = A ++ B ∧ LoadWindow u k s m B w ∧ mutations k w ≠ 0)

theorem Spoiled.cons (tr : Trace g) (ℓ : Label (node g)) (n : Nat) (h : Spoiled k tr n) :
    Spoiled k (ℓ :: tr) n := by
  obtain ⟨u, hent, ⟨id, i, out, hm, hout⟩ | ⟨A, B, s, m, w, rfl, hw, hmut⟩⟩ := h
  · exact ⟨u, hent.cons, Or.inl ⟨id, i, out, List.mem_cons_of_mem _ hm, hout⟩⟩
  · exact ⟨u, hent.cons, Or.inr ⟨ℓ :: A, B, s, m, w, rfl, hw, hmut⟩⟩

/-- Calls fail only with a load that was spoiled. -/
theorem Run.spoiled {G : Guard (node g)} {σ₀ : State} (hR : ReadThrough g σ₀ k)
    (hG : ∀ tr σ ℓ σ', G tr σ ℓ σ' → Uninterrupted ℓ) {c : Config (node g)} (h : Run G σ₀ c tr) :
    Blamed (Spoiled k) k tr c.state := by
  refine Run.blamed hR hG Spoiled.cons ?_ ?_ h
  · intro tr σ x id i out σ' s c n _ hB hheld hst hout
    have hent : Entered tr x k c := hB.flights.entered x k c ⟨s, hheld, by rw [hst]; rfl⟩
    exact ⟨x, hent.cons, Or.inl ⟨id, i, out, List.mem_cons_self, hout⟩⟩
  · intro tr σ x s n b i σ' c w _ hB hheld hst hw hmut
    have hent : Entered tr x k c := hB.flights.entered x k c ⟨s, hheld, by rw [hst]; rfl⟩
    exact ⟨x, hent.cons, Or.inr ⟨[_], tr, s, n, w, rfl, hw, hmut⟩⟩

theorem view_of_returns {key : GoString} {v : ByteView} {r : Except Panic Res}
    (h : (Call.get key).Returns v r) : ∃ v, r = .ok (.view (.ok v)) := by
  unfold Call.Returns at h
  split at h
  · exact ⟨_, rfl⟩
  · rename_i heq
    cases heq
  · exact h.elim

theorem reply_of_returns {src : GoString × Nat} {group key : GoString} {v : ByteView}
    {r : Except Panic Res} (h : (Call.serve src (.get group key)).Returns v r) :
    ∃ resp, r = .ok (.reply (.ok resp)) := by
  unfold Call.Returns at h
  split at h
  · rename_i heq
    cases heq
  · exact ⟨_, rfl⟩
  · exact h.elim

end Loads

/-! ## Healthy clusters -/

section Runs

variable {ι : Type} {C : Cluster ι} {σ : ι → State} {P : ι → ClientPicker}

/-- The pickers have a client for every other member, and every member is a node. -/
structure Connected (C : Cluster ι) (P : ι → ClientPicker) : Prop where
  client : ∀ a x, x ∈ (P a).members → x ≠ (P a).selfAddr → x ∈ (P a).clients
  node : ∀ a x, x ∈ (P a).members → ∃ b, C.addr b = x

/-- A new node of the group `name`, open and registered. -/
structure Cfg.Opened (name : GoString) (g : Cfg) (σ₀ : State) : Prop where
  fresh : σ₀.Fresh
  name : g.name = name
  peers : g.peers = true
  opened : σ₀.closed = false
  registered : σ₀.registered = true

/-- Nothing is lost, no membership changes and no group is closed. -/
structure Cluster.Steady (C : Cluster ι) (tr : C.Log) (a : ι) (ℓ : Label (C.machine a)) :
    Prop where
  prompt : C.Prompt tr a ℓ
  uninterrupted : Uninterrupted ℓ

/-- Goroutine `x` of node `b` reads `k` for the call of goroutine `t` on node `a`: it is that call,
or it serves its request. -/
inductive ReadsFor (C : Cluster ι) (tr : C.Log) (k : GoString) (a : ι) (t : Nat) : ι → Nat → Prop
    where
  | own : ReadsFor C tr k a t a t
  | served {b : ι} {x id : Nat} {i : Inp} {group : GoString}
      (hsent : ⟨a, .act t ⟨.rpcStart (C.addr b) (.get group k), i, id⟩⟩ ∈ tr)
      (hspawn : ⟨b, .spawn x (.serve (C.addr a, id) (.get group k))⟩ ∈ tr) :
      ReadsFor C tr k a t b x

/-- **How calls end.** -/
structure Available [DecidableEq ι] (C : Cluster ι) (σ : ι → State) (tr : C.Log) : Prop where
  set : ∀ a t key value r, key ≠ [] → value ≠ [] → ⟨a, .spawn t (.set key value)⟩ ∈ tr →
    ⟨a, .ret t r⟩ ∈ tr → r = .ok (.done none)
  delete : ∀ a t key r, key ≠ [] → ⟨a, .spawn t (.delete key)⟩ ∈ tr → ⟨a, .ret t r⟩ ∈ tr →
    r = .ok (.done none)
  get : ∀ a t key r, key ≠ [] → ⟨a, .spawn t (.get key)⟩ ∈ tr → ⟨a, .ret t r⟩ ∈ tr →
    (∃ v, r = .ok (.view (.ok v))) ∨
      ∃ b x, C.addr b = ((σ a).topology.pick key).owner ∧ ReadsFor C tr key a t b x ∧
        ((C.cfg b).getter = true → ∃ n i, Spoiled key (localTrace b tr) n ∧
          (⟨b, .act x ⟨.doEnter key, i, .lead n⟩⟩ ∈ tr ∨
            ⟨b, .act x ⟨.doEnter key, i, .join n⟩⟩ ∈ tr))

/-- The oldest element of a list without a property. -/
theorem exists_first_not {α : Type} {Q : α → Prop} {l : List α} (h : ¬∀ e ∈ l, Q e) :
    ∃ X e Y, l = X ++ e :: Y ∧ ¬Q e ∧ ∀ y ∈ Y, Q y := by
  induction l with
  | nil => exact absurd (fun _ he => by cases he) h
  | cons x l ih =>
    by_cases hl : ∀ e ∈ l, Q e
    · exact ⟨[], x, l, rfl, fun hx => h (List.forall_mem_cons.2 ⟨hx, hl⟩), hl⟩
    · obtain ⟨X, e, Y, rfl, he, hY⟩ := ih hl
      exact ⟨x :: X, e, Y, rfl, he, hY⟩

/-! ### The members -/

theorem Connected.reaches (hconn : Connected C P) (hone : OneMembership C σ P) (a : ι)
    {key : GoString} (hkey : key ≠ []) : ((σ a).topology.pick key).Reaches := by
  rw [hone.topology]
  change ((P a).pickOwner key).Reaches
  have hinv := (hone.reachable a).inv
  obtain ⟨howner, hok, hself⟩ := hinv.pickOwner hkey
  have hmem := hinv.owner_mem hkey
  have hne : (P a).ring.get key ≠ [] := fun heq => hinv.nonempty (heq ▸ hmem)
  refine ⟨hok, by rwa [howner], fun hremote => ?_⟩
  have hother : (P a).ring.get key ≠ (P a).selfAddr := fun heq => by
    rw [hself.2 heq] at hremote
    cases hremote
  obtain ⟨n, hn⟩ := Option.isSome_iff_exists.1
    (AList.lookup_isSome.2 (hconn.client a _ hmem hother))
  refine ⟨⟨(P a).ring.get key⟩, ?_⟩
  unfold ClientPicker.pickOwner
  dsimp only
  rw [if_neg hne, if_neg hother, hn]
  rfl

/-- The owner of a key is a node. -/
theorem Connected.owner (hconn : Connected C P) (hone : OneMembership C σ P) (a : ι)
    {key : GoString} (hkey : key ≠ []) : ∃ b, C.addr b = ((σ a).topology.pick key).owner := by
  rw [hone.topology]
  change ∃ b, C.addr b = ((P a).pickOwner key).owner
  rw [(P a).pickOwner_owner]
  exact hconn.node a _ ((hone.reachable a).inv.owner_mem hkey)

/-- Clients lead to nodes. -/
theorem Connected.target (hconn : Connected C P) (hone : OneMembership C σ P) (a : ι)
    {cl : Client} (hcl : cl ∈ (σ a).topology.clients) : ∃ b, C.addr b = cl.addr := by
  rw [hone.topology] at hcl
  obtain ⟨x, hx, rfl⟩ := List.mem_map.1 hcl
  exact hconn.node a x ((hone.reachable a).clients.mem (AList.mem_keys.1 hx)).1

variable [DecidableEq ι] {name : GoString} {c : ∀ a, Config (C.machine a)} {tr : C.Log} {a b : ι}
  {t : Nat}

variable (hone : OneMembership C σ P) (hconn : Connected C P)
  (hready : ∀ a, Cfg.Opened name (C.cfg a) (σ a))
  (h : NetRun (fun tr a _ ℓ _ => C.Steady tr a ℓ) σ c tr)

include h in
theorem Cluster.uninterrupted (a : ι) :
    Run (M := C.machine a) (fun _ _ ℓ _ => Uninterrupted ℓ) (σ a) (c a) (localTrace a tr) :=
  h.node fun _ _ _ _ hs => hs.uninterrupted

include hready h

/-- Everything but the replies of peers is as it should be. -/
theorem Cluster.healthy {e : Ev groupSig Inp} (hm : ⟨a, .act t e⟩ ∈ tr)
    (hrpc : ∀ id i err, e ≠ ⟨.rpcEnd id, i, .error err⟩) :
    Healthy (C.cfg a) (σ a).topology e := by
  obtain ⟨A, B, rfl⟩ := List.append_of_mem hm
  obtain ⟨c₁, cmd, c', prior, hstep, -⟩ := h.split
  obtain ⟨o, i, ans⟩ := e
  have hrun := Cluster.run_node prior a
  obtain ⟨call, -, -, hx⟩ := hrun.of_act (protocol (C.cfg a)) hstep
  obtain ⟨-, σ₁, hact, -⟩ := exec_eq_some.1 hx
  have hall := (Cluster.uninterrupted prior a).forall_mem (P := Uninterrupted) fun _ _ _ _ hs => hs
  have htop := (Run.memberships (hready a).fresh hrun).topology_of_stable
    fun ℓ hℓ => (hall ℓ hℓ).stable
  have hopen := Run.stays_open hrun fun t ht => hall _ ht
  cases o with
  | loadClosed =>
    have hans : (c₁ a).state.closed = ans := congrArg Prod.fst (Option.some.inj hact)
    exact hans.symm.trans (hopen.1.trans (hready a).opened)
  | getGroup group =>
    have hans : ((c₁ a).state.registered && group = (C.cfg a).name : Bool) = ans :=
      congrArg Prod.fst (Option.some.inj hact)
    intro hname
    rw [← hans, hopen.2, (hready a).registered]
    simpa using hname
  | pickOwner site key =>
    cases hact
    exact congrArg (fun T => T.pick key) htop
  | invalidateTargets owner =>
    obtain rfl : ((c₁ a).state.topology.clients.filter fun c => c.addr ≠ owner) = ans :=
      congrArg Prod.fst (Option.some.inj hact)
    rw [← htop]
    exact fun x hx => (List.mem_filter.1 hx).1
  | rpcEnd id =>
    cases ans with
    | ok resp => exact ⟨resp, rfl⟩
    | error err => exact absurd rfl (hrpc id i err)
  | _ => trivial

/-- A handler meets no obstacle. -/
theorem Cluster.handler_healthy {s : Nat} {src : GoString × Nat} {req : Req}
    (hspawn : ⟨b, .spawn s (.serve src req)⟩ ∈ tr) :
    ∀ e ∈ hist (localTrace b tr) s, Healthy (C.cfg b) (σ b).topology e := by
  intro e he
  refine Cluster.healthy hready h (mem_localTrace.1 (mem_hist.1 he)) ?_
  rintro id i err rfl
  have hrun := Cluster.run_node h b
  obtain ⟨X, Y, hXY⟩ := List.append_of_mem he
  obtain ⟨-, -, -, addr, req', j, hm⟩ := hrun.allowed (postedProtocol _) s _ Y ⟨X, hXY.symm⟩
  obtain ⟨X', Y', rfl⟩ := List.append_of_mem hm
  obtain ⟨call, hcall, hsends⟩ := hrun.allowed (protocol _) s ⟨.rpcStart addr req', j, id⟩ Y'
    ⟨X ++ ⟨.rpcEnd id, i, .error err⟩ :: X', by rw [hXY]; simp⟩
  rw [hrun.callOf_spawn (mem_localTrace.2 hspawn)] at hcall
  cases hcall
  cases hsends

include hone hconn

/-- How a call ends that met no obstacle. -/
theorem Cluster.ended {call : Call} {r : Except Panic Res} (hspawn : ⟨a, .spawn t call⟩ ∈ tr)
    (hret : ⟨a, .ret t r⟩ ∈ tr)
    (hall : ∀ e ∈ hist (localTrace a tr) t, Healthy (C.cfg a) (σ a).topology e) :
    HealthyEnd (C.cfg a) (σ a).topology call r := by
  obtain ⟨A, B, c', hsplit, -, hend⟩ := (Cluster.run_node h a).finished
    (healthyProtocol (σ a).topology (hready a).peers fun key => hconn.reaches hone a)
    (mem_localTrace.2 hspawn) (mem_localTrace.2 hret)
  refine hend fun e he => hall e ?_
  rw [mem_hist] at he ⊢
  rw [hsplit]
  exact List.mem_append_right A (List.mem_cons_of_mem _ he)

/-- The first remote call that fails is a read, and a handler of the owner failed before. -/
theorem Cluster.failed_read {X Y : History} {id : Nat} {i : Inp} {err : Err}
    (hsplit : hist (localTrace a tr) t = X ++ ⟨.rpcEnd id, i, .error err⟩ :: Y)
    (hY : ∀ e ∈ Y, Healthy (C.cfg a) (σ a).topology e) :
    ∃ b s r key j, key ≠ [] ∧ C.addr b = ((σ a).topology.pick key).owner ∧
      ⟨a, .act t ⟨.rpcStart (C.addr b) (.get name key), j, id⟩⟩ ∈ tr ∧
      ⟨b, .spawn s (.serve (C.addr a, id) (.get name key))⟩ ∈ tr ∧ ⟨b, .ret s r⟩ ∈ tr ∧
      ∀ resp, r ≠ .ok (.reply (.ok resp)) := by
  obtain ⟨A', B', htr', -, hB'⟩ := exists_of_hist_append hsplit
  obtain ⟨A, B, rfl, -, hB⟩ := exists_of_localTrace_append htr'
  obtain ⟨c₁, cmd, c', prior, -, hguard⟩ := h.split
  have hlater : ∀ {x}, x ∈ B → x ∈ A ++ ⟨a, .act t ⟨.rpcEnd id, i, .error err⟩⟩ :: B := fun hx =>
    List.mem_append_right A (List.mem_cons_of_mem _ hx)
  obtain ⟨addr, req, j, hsent, hanswer⟩ := hguard.prompt.answered t id i _ rfl
  -- the request went where it should
  have haims : Aims (C.cfg a) (σ a).topology [] (.rpcStart addr req) := by
    have hm := mem_hist.2 (mem_localTrace.2 hsent)
    obtain ⟨X', Y', hXY⟩ := List.append_of_mem hm
    obtain ⟨call, -, haims⟩ := (Cluster.run_node prior a).allowed
      (healthyProtocol (σ a).topology (hready a).peers fun key => hconn.reaches hone a) t
      ⟨.rpcStart addr req, j, id⟩ Y' ⟨X', hXY.symm⟩
    refine haims fun e he => hY e ?_
    rw [← hB', ← hB, hXY]
    exact List.mem_append_right X' (List.mem_cons_of_mem _ he)
  have hnode : ∃ b, C.addr b = addr := by
    cases req with
    | invalidate group key =>
      obtain ⟨-, cl, hcl, rfl⟩ := haims
      exact hconn.target hone a hcl
    | _ =>
      obtain ⟨-, hkey, rfl⟩ := haims
      exact hconn.owner hone a hkey
  rcases hanswer with ⟨hnone, -⟩ | ⟨b, s, r, rfl, hspawn, hret, hans⟩
  · obtain ⟨b, hb⟩ := hnode
    exact absurd hb (hnone b)
  have hr : ∀ resp, r ≠ .ok (.reply (.ok resp)) := by
    cases hans with
    | error hr _ => exact hr
  have hend := Cluster.ended hone hconn hready prior hspawn hret
    (Cluster.handler_healthy hready prior hspawn)
  have hname : (C.cfg a).name = (C.cfg b).name := (hready a).name.trans (hready b).name.symm
  -- the handlers of mutations do not fail
  cases req with
  | get group key =>
    obtain ⟨rfl, hkey, howner⟩ := haims
    rw [(hready a).name] at hsent hspawn
    exact ⟨b, s, r, key, j, hkey, howner, hlater hsent, hlater hspawn, hlater hret, hr⟩
  | set group key value =>
    obtain ⟨rfl, hkey, howner⟩ := haims
    obtain ⟨resp, hresp⟩ := hend hname (hone.own howner)
    exact absurd hresp (hr resp)
  | delete group key =>
    obtain ⟨rfl, hkey, howner⟩ := haims
    obtain ⟨resp, hresp⟩ := hend hname (hone.own howner)
    exact absurd hresp (hr resp)
  | invalidate group key =>
    obtain ⟨rfl, -⟩ := haims
    obtain ⟨resp, hresp⟩ := hend hname
    exact absurd hresp (hr resp)

/-- A call meets no obstacle, unless it has the owner read a key and that fails. -/
theorem Cluster.healthy_or_failed {call : Call} (hspawn : ⟨a, .spawn t call⟩ ∈ tr) :
    (∀ e ∈ hist (localTrace a tr) t, Healthy (C.cfg a) (σ a).topology e) ∨
      ∃ b s r key j id, call = .get key ∧ C.addr b = ((σ a).topology.pick key).owner ∧
        ⟨a, .act t ⟨.rpcStart (C.addr b) (.get name key), j, id⟩⟩ ∈ tr ∧
        ⟨b, .spawn s (.serve (C.addr a, id) (.get name key))⟩ ∈ tr ∧ ⟨b, .ret s r⟩ ∈ tr ∧
        ∀ resp, r ≠ .ok (.reply (.ok resp)) := by
  by_cases hall : ∀ e ∈ hist (localTrace a tr) t, Healthy (C.cfg a) (σ a).topology e
  · exact Or.inl hall
  obtain ⟨X, e, Y, hsplit, hnot, hY⟩ := exists_first_not hall
  have hm : e ∈ hist (localTrace a tr) t := by rw [hsplit]; simp
  obtain ⟨id, i, err, rfl⟩ : ∃ id i err, e = ⟨.rpcEnd id, i, .error err⟩ := by
    by_contra hrpc
    push Not at hrpc
    exact hnot (Cluster.healthy hready h (mem_localTrace.1 (mem_hist.1 hm)) hrpc)
  obtain ⟨b, s, r, key, j, hkey, howner, hsent, hserve, hret, hr⟩ :=
    Cluster.failed_read hone hconn hready h hsplit hY
  refine Or.inr ⟨b, s, r, key, j, id, ?_, howner, hsent, hserve, hret, hr⟩
  have hrun := Cluster.run_node h a
  obtain ⟨X', Y', hXY⟩ := List.append_of_mem (mem_hist.2 (mem_localTrace.2 hsent))
  obtain ⟨call', hcall, hsends⟩ := hrun.allowed (protocol _) t _ Y' ⟨X', hXY.symm⟩
  rw [hrun.callOf_spawn (mem_localTrace.2 hspawn)] at hcall
  cases hcall
  change call.Sends (C.cfg a) (.get name key) at hsends
  cases call with
  | get key' =>
    obtain ⟨⟩ := hsends
    rfl
  | set key' value => rcases hsends with hs | hs <;> cases hs
  | delete key' => rcases hsends with hs | hs <;> cases hs
  | _ => cases hsends

omit hconn in
/-- A read on the owner fails only with a load. -/
theorem Cluster.spoiled {key : GoString} {call : Call} {r : Except Panic Res}
    (hb : C.addr b = ((σ a).topology.pick key).owner) (hspawn : ⟨b, .spawn t call⟩ ∈ tr)
    (hasks : call.Asks (C.cfg b) key) (hret : ⟨b, .ret t r⟩ ∈ tr) (hr : ∀ v, ¬call.Returns v r) :
    (C.cfg b).getter = true → ∃ n i, Spoiled key (localTrace b tr) n ∧
      (⟨b, .act t ⟨.doEnter key, i, .lead n⟩⟩ ∈ tr ∨
        ⟨b, .act t ⟨.doEnter key, i, .join n⟩⟩ ∈ tr) := by
  intro hgetter
  have hR : ReadThrough (C.cfg b) (σ b) key :=
    ⟨(hready b).fresh, hgetter, (hready b).opened, (hready b).registered, fun _ => hone.own hb⟩
  rcases Run.read_fails hR (fun _ _ _ _ hs => hs) Spoiled.cons
    (fun h => Run.spoiled hR (fun _ _ _ _ hs => hs) h) (Cluster.uninterrupted h b)
    (mem_localTrace.2 hspawn) hasks (mem_localTrace.2 hret) with ⟨v, hv⟩ | ⟨n, i, hn, hent⟩
  · exact absurd hv (hr v)
  · exact ⟨n, i, hn, hent.imp mem_localTrace.1 mem_localTrace.1⟩

theorem Cluster.get_available {key : GoString} {r : Except Panic Res} (hkey : key ≠ [])
    (hspawn : ⟨a, .spawn t (.get key)⟩ ∈ tr) (hret : ⟨a, .ret t r⟩ ∈ tr) :
    (∃ v, r = .ok (.view (.ok v))) ∨
      ∃ b x, C.addr b = ((σ a).topology.pick key).owner ∧ ReadsFor C tr key a t b x ∧
        ((C.cfg b).getter = true → ∃ n i, Spoiled key (localTrace b tr) n ∧
          (⟨b, .act x ⟨.doEnter key, i, .lead n⟩⟩ ∈ tr ∨
            ⟨b, .act x ⟨.doEnter key, i, .join n⟩⟩ ∈ tr)) := by
  by_cases hv : ∃ v, r = .ok (.view (.ok v))
  · exact Or.inl hv
  right
  cases hself : ((σ a).topology.pick key).self with
  | true =>
    have howner := hone.owner_eq (a := a) (show Home σ key a from hself)
    refine ⟨a, t, howner.symm, .own, ?_⟩
    exact Cluster.spoiled hone hready h howner.symm hspawn ⟨rfl, hkey⟩ hret
      fun v hreturns => hv (view_of_returns hreturns)
  | false =>
    rcases Cluster.healthy_or_failed hone hconn hready h hspawn with
      hall | ⟨b, s, r', key', j, id, ⟨⟩, howner, hsent, hserve, hret', hr'⟩
    · exact absurd (Cluster.ended hone hconn hready h hspawn hret hall hkey hself) hv
    · refine ⟨b, s, howner, .served hsent hserve, ?_⟩
      refine Cluster.spoiled hone hready h howner hserve ⟨(hready b).name.symm, rfl⟩ hret'
        fun v hreturns => ?_
      obtain ⟨resp, hresp⟩ := reply_of_returns hreturns
      exact hr' resp hresp

end Runs

theorem connected_pair : Connected Cluster.pair pairPickers where
  client := by
    intro x y hy hne
    cases x with
    | true =>
      rcases (AList.mem_insert _).1 hy with rfl | hy
      · exact (AList.mem_insert _).2 (Or.inl rfl)
      · exact absurd (List.mem_singleton.1 hy) hne
    | false =>
      rcases (AList.mem_insert _).1 hy with rfl | hy
      · exact (AList.mem_insert _).2 (Or.inl rfl)
      · exact absurd (List.mem_singleton.1 hy) hne
  node := by
    intro x y hy
    cases x with
    | true =>
      rcases (AList.mem_insert _).1 hy with rfl | hy
      · exact ⟨false, rfl⟩
      · exact ⟨true, (List.mem_singleton.1 hy).symm⟩
    | false =>
      rcases (AList.mem_insert _).1 hy with rfl | hy
      · exact ⟨true, rfl⟩
      · exact ⟨false, (List.mem_singleton.1 hy).symm⟩

theorem opened_picked (x : Bool) : Cfg.Opened (ascii "g") (Cluster.pair.cfg x) (State.picked x) :=
  ⟨State.fresh_picked x, rfl, rfl, rfl, rfl⟩

/-- A check of single steps: a reply is that of a handler, and nothing else disturbs the calls. -/
def Cluster.steadily (C : Cluster Bool) (tr : C.Log) (a : Bool) (_ : State)
    (ℓ : Label (C.machine a)) : Bool :=
  C.admits tr a ℓ && match ℓ with
    | .spawn _ (.serve src req) => !C.takenUp tr src (C.addr a) req
    | .spawn _ .close => false
    | .act t ⟨.rpcEnd id, _, .ok resp⟩ =>
      tr.any fun x => C.addr x.1 = C.addr a && (sentIn x.2).any fun s =>
        s.thread = t && s.id = id && C.wasServed tr (C.addr a, id) s.addr s.req resp
    | .act _ ⟨.rpcEnd _, _, .error _⟩ | .env _ => false
    | _ => true

theorem Cluster.steady_of_steadily {C : Cluster Bool} (tr : C.Log) (a : Bool) (s : State)
    (ℓ : Label (C.machine a)) (_s' : State) (h : C.steadily tr a s ℓ = true) : C.Steady tr a ℓ := by
  obtain ⟨hadmits, hℓ⟩ := Bool.and_eq_true_iff.1 h
  refine ⟨⟨hadmits, ?_, ?_⟩, ?_⟩
  · rintro t t' src req rfl hm
    have htaken : C.takenUp tr src (C.addr a) req = true :=
      List.any_eq_true.2 ⟨_, hm, by simp [startedIn]⟩
    simp [htaken] at hℓ
  · rintro t id i reply rfl
    cases reply with
    | error err => cases hℓ
    | ok resp =>
      obtain ⟨⟨a', ℓ'⟩, hm, hx⟩ := List.any_eq_true.1 hℓ
      simp only [Bool.and_eq_true, decide_eq_true_eq] at hx
      obtain ⟨haddr, hsent⟩ := hx
      obtain rfl := C.addr_injective haddr
      obtain ⟨sent, hs, heq⟩ := (Option.any_eq_true _ _).1 hsent
      simp only [Bool.and_eq_true, decide_eq_true_eq] at heq
      obtain ⟨⟨rfl, rfl⟩, hserved⟩ := heq
      obtain ⟨j, rfl⟩ := sentIn_eq_some hs
      obtain ⟨b, x, hb, hspawn, hret⟩ := exists_of_wasServed hserved
      exact ⟨sent.addr, sent.req, j, hm, Or.inr ⟨b, x, _, hb, hspawn, hret, .reply resp⟩⟩
  · unfold Uninterrupted
    split
    · cases hℓ
    · cases hℓ
    · trivial

/-- Node `a` sets a key of node `b`, and then node `b` deletes it and has node `a` drop its copy. -/
def setThenDelete : List ((x : Bool) × Cmd (Cluster.pair.machine x)) :=
  ⟨true, .spawn (.set (ascii "k") [7])⟩ :: List.replicate 3 ⟨true, .run 0 (.both [7])⟩ ++
    ⟨false, .spawn (.serve (ascii "a", 0) (.set (ascii "g") (ascii "k") [7]))⟩ ::
      List.replicate 10 ⟨false, .run 0 (.both [7])⟩ ++
    List.replicate 13 ⟨true, .run 0 (.both [7])⟩ ++
    ⟨false, .spawn (.delete (ascii "k"))⟩ :: List.replicate 14 ⟨false, .run 1 (.both [])⟩ ++
    ⟨true, .spawn (.serve (ascii "b", 0) (.invalidate (ascii "g") (ascii "k")))⟩ ::
      List.replicate 7 ⟨true, .run 1 (.both [])⟩ ++
    List.replicate 2 ⟨false, .run 1 (.both [])⟩

end Locache
