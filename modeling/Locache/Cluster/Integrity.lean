import Locache.Cluster.Staleness
import Locache.Group.Errors

/-!
# Every value has a source

What a `Get` returns anywhere in a cluster was handed to a `Set` of the same key somewhere, or a
Getter returned it for the same key somewhere, before the `Get` returned, and in the same group. No
cache, no near copy, no shared load, no handler and no retry mixes up keys, groups or values,
whatever the network and the memberships do (`get_has_source`).
-/

namespace Locache

open Conc Prog

/-! ## Requests reach the group they name -/

/-- The group of that name was found. -/
def Found (name : GoString) (h : History) : Prop :=
  ∃ i, (⟨.getGroup name, i, true⟩ : Ev groupSig Inp) ∈ h

/-- A handler looks up the group first. -/
def Looked (name : GoString) (h : History) (o : Op) : Prop := o = .getGroup name ∨ Found name h

theorem withGroup_found {name : GoString} {handler : GoProg (Except Err Resp)} :
    (Server.withGroup name handler).Follows (Looked name)
      (fun h r => (∃ resp, r = .ok (.ok resp)) → Found name h) [] := by
  refine Follows.op_bind (Or.inl rfl) ?_
  intro i found
  cases found with
  | false =>
    rintro ⟨resp, hr⟩
    cases hr
  | true =>
    have hfound : ∀ h : History, [(⟨.getGroup name, i, true⟩ : Ev groupSig Inp)] <:+ h →
        Found name h := fun h hs => ⟨i, hs.subset (List.mem_singleton_self _)⟩
    refine Follows.mono (J := fun _ _ => True) (F := fun h _ => Found name h)
      (Follows.of_end fun h r hs => hfound h hs) ?_ ?_
    · intro h o hs _
      exact Or.inr (hfound h hs)
    · intro h r _ hF _
      exact hF

theorem serve_found {g : Cfg} (src : GoString × Nat) (req : Req) :
    (Node.prog g (.serve src req)).Follows (Looked req.group)
      (fun h r => (∃ resp, r = .ok (.reply (.ok resp))) → Found req.group h) [] := by
  have hhandle : (Server.handle g req).Follows (Looked req.group)
      (fun h r => (∃ resp, r = .ok (.ok resp)) → Found req.group h) [] := by
    cases req <;> exact withGroup_found
  refine hhandle.bind ?_ ?_
  · rintro h r - hF ⟨resp, hr⟩
    cases hr
    exact hF ⟨resp, rfl⟩
  · rintro h e - - ⟨resp, hr⟩
    cases hr

/-- What the handlers do about the group. -/
def groupProtocol (g : Cfg) : Protocol (node g) where
  allows := fun call h o => ∀ src req, call = .serve src req → Looked req.group h o
  ends := fun call h r => ∀ src req, call = .serve src req →
    (∃ resp, r = .ok (.reply (.ok resp))) → Found req.group h
  follows := by
    intro call
    cases call with
    | serve src req =>
      refine (serve_found src req).mono ?_ ?_
      · rintro h o - hJ src' req' ⟨⟩
        exact hJ
      · rintro h r - hF src' req' ⟨⟩
        exact hF
    | _ =>
      refine Follows.mono (J := fun _ _ => True) (F := fun _ _ => True)
        (Follows.of_end fun _ _ _ => trivial) ?_ ?_
      · intro h o _ _ src req heq
        cases heq
      · intro h r _ _ src req heq
        cases heq

section Node

variable {g : Cfg} {G : Guard (node g)} {σ₀ : State} {c : Config (node g)} {tr : Trace g} {s : Nat}
  {src : GoString × Nat} {req : Req}

/-- Only the group's own name is found. -/
theorem Run.name_of_found (h : Run G σ₀ c tr) {name : GoString} (hf : Found name (hist tr s)) :
    name = g.name := by
  obtain ⟨i, hm⟩ := hf
  obtain ⟨A, B, rfl⟩ := List.append_of_mem (mem_hist.1 hm)
  obtain ⟨c₁, cmd, c₂, hrun, hstep, -⟩ := h.split
  obtain ⟨call, -, -, hx⟩ := hrun.of_act (protocol g) hstep
  obtain ⟨-, σ₁, hact, -⟩ := exec_eq_some.1 hx
  have hans : (c₁.state.registered && decide (name = g.name)) = true :=
    congrArg Prod.fst (Option.some.inj hact)
  simp only [Bool.and_eq_true, decide_eq_true_eq] at hans
  exact hans.2

/-- A handler that does anything else than looking up its group serves the node's own group. -/
theorem Run.name_of_act (h : Run G σ₀ c tr) (hspawn : .spawn s (.serve src req) ∈ tr)
    {e : Ev groupSig Inp} (he : .act s e ∈ tr) (hop : e.op ≠ .getGroup req.group) :
    req.group = g.name := by
  obtain ⟨X, Y, hsplit⟩ := List.append_of_mem (mem_hist.2 he)
  obtain ⟨call, hcall, hallow⟩ := h.allowed (groupProtocol g) s e Y ⟨X, hsplit.symm⟩
  obtain rfl : call = .serve src req := Option.some.inj (hcall.symm.trans (h.callOf_spawn hspawn))
  obtain ⟨i, hm⟩ := (hallow src req rfl).resolve_left hop
  refine Run.name_of_found (s := s) h ⟨i, ?_⟩
  rw [hsplit]
  exact List.mem_append_right _ (List.mem_cons_of_mem _ hm)

/-- A handler that succeeds serves the node's own group. -/
theorem Run.name_of_reply (h : Run G σ₀ c tr) (hspawn : .spawn s (.serve src req) ∈ tr)
    {resp : Resp} (hret : .ret s (.ok (.reply (.ok resp))) ∈ tr) : req.group = g.name := by
  obtain ⟨A, B, c', rfl, hrun, hend⟩ := h.finished (groupProtocol g) hspawn hret
  exact Run.name_of_found hrun (hend src req rfl ⟨resp, rfl⟩)

end Node

/-! ## Sources -/

section Cluster

variable {ι : Type} [DecidableEq ι] {C : Cluster ι} {N : NetGuard C.machine} {σ : ι → State}
  {c : ∀ a, Config (C.machine a)} {tr : C.Log} {a b : ι} {k : GoString} {v : ByteView}

/-- The bytes were handed to a `Set` of `k` in a group of that name, or its Getter returned them for
`k`. -/
inductive Sourced (C : Cluster ι) (tr : C.Log) (name k : GoString) (b : Bytes) : Prop where
  | set {w : ι} {u : Nat} (hname : (C.cfg w).name = name) (hset : ⟨w, .spawn u (.set k b)⟩ ∈ tr)
  | loaded {w : ι} {u id : Nat} {i j : Inp} (hname : (C.cfg w).name = name)
      (hstart : ⟨w, .act u ⟨.getterStart k, i, id⟩⟩ ∈ tr)
      (hend : ⟨w, .act u ⟨.getterEnd id, j, .ok (.ok b)⟩⟩ ∈ tr)

variable (hN : ∀ tr a s ℓ s', N tr a s ℓ s' → C.admits tr a ℓ = true) (h : NetRun N σ c tr)

include hN h

/-- A request to set a value comes from a `Set` of that value, in the group it names. -/
theorem sourced_of_request {s : Nat} {src : GoString × Nat} {group : GoString} {bytes : Bytes}
    (hspawn : ⟨b, .spawn s (.serve src (.set group k bytes))⟩ ∈ tr) :
    Sourced C tr group k bytes := by
  obtain ⟨w, u, i, -, hsent⟩ := Cluster.sent_of_spawn hN h hspawn
  obtain ⟨X, Y, hsplit⟩ := List.append_of_mem (mem_hist.2 (mem_localTrace.2 hsent))
  obtain ⟨call, hcall, hallow⟩ :=
    (Cluster.run_node h w).allowed (protocol (C.cfg w)) u _ Y ⟨X, hsplit.symm⟩
  have hmem := mem_localTrace.1 (mem_of_callOf hcall)
  cases call with
  | get key => cases hallow
  | set key value =>
    rcases hallow with heq | heq
    · cases heq
      exact .set rfl hmem
    · cases heq
  | delete key => rcases hallow with heq | heq <;> cases heq
  | clear => cases hallow
  | close => cases hallow
  | serve src req => cases hallow

/-- What a node stores it was given by a `Set`, or by its Getter. -/
theorem sourced_of_freshSince (hfresh : FreshSince k v (localTrace b tr)) :
    Sourced C tr (C.cfg b).name k v.b := by
  rcases hfresh with ⟨t, s, i, hset⟩ | ⟨t, id, i, j, hstart, hend⟩
  · obtain ⟨X, Y, hsplit⟩ := List.append_of_mem (mem_hist.2 hset)
    obtain ⟨call, hcall, hallow⟩ :=
      (Cluster.run_node h b).allowed (protocol (C.cfg b)) t _ Y ⟨X, hsplit.symm⟩
    have hspawn := mem_of_callOf hcall
    have hwrites : call.Writes k v.b := hallow.1
    cases call with
    | set key value =>
      obtain ⟨rfl, rfl⟩ := hwrites
      exact .set rfl (mem_localTrace.1 hspawn)
    | serve src req =>
      cases req with
      | set group key value =>
        obtain ⟨rfl, rfl⟩ := hwrites
        have hname := Run.name_of_act (Cluster.run_node h b) hspawn hset (by rintro ⟨⟩)
        have hsourced := sourced_of_request hN h (mem_localTrace.1 hspawn)
        change group = _ at hname
        rwa [hname] at hsourced
      | _ => cases hwrites
    | _ => cases hwrites
  · exact .loaded rfl (mem_localTrace.1 hstart) (mem_localTrace.1 hend)

/-- What was read from an owner, or written to it, has a source. -/
theorem Origin.sourced {g : History} (ho : Origin C tr a k v g) :
    Sourced C tr (C.cfg a).name k v.b := by
  cases ho with
  | wrote hcall howner hspawn hret hset => exact sourced_of_request hN h hspawn
  | @read p resp b s id A B hcall hvalue howner hspawn hret hread hknown =>
    have hsub : B ⊆ localTrace b tr := by
      rw [hret]
      intro ℓ hℓ
      exact List.mem_append_right _ (List.mem_cons_of_mem _ hℓ)
    have hreply : .ret s (.ok (.reply (.ok resp))) ∈ localTrace b tr := by
      rw [hret]
      exact List.mem_append_right _ List.mem_cons_self
    have hname : (C.cfg a).name = (C.cfg b).name :=
      Run.name_of_reply (Cluster.run_node h b) (mem_localTrace.2 hspawn) hreply
    rw [hname]
    exact sourced_of_freshSince hN h (hknown.mono hsub)

end Cluster

/-- **Every value has a source.** In every run of a cluster, under any network that delivers replies
only from handlers and requests only from callers, a value that a `Get` of `k` returned had been
handed to a `Set` of `k`, or had been returned by a Getter for `k`, in the group of the same name,
on some node, before the `Get` returned. -/
theorem get_has_source {ι : Type} [DecidableEq ι] {C : Cluster ι} {N : NetGuard C.machine}
    {σ : ι → State} (hN : ∀ tr a s ℓ s', N tr a s ℓ s' → C.admits tr a ℓ = true)
    (h₀ : ∀ a, (σ a).Fresh) {c : ∀ a, Config (C.machine a)} {A B : C.Log} {a : ι} {t : Nat}
    {k : GoString} {v : ByteView}
    (h : NetRun N σ c (A ++ ⟨a, .ret t (.ok (.view (.ok v)))⟩ :: B))
    (hget : ⟨a, .spawn t (.get k)⟩ ∈ B) : Sourced C B (C.cfg a).name k v.b := by
  obtain ⟨c₁, cmd, c', hrun, hstep, hguard⟩ := h.split
  have hnow := NetRun.step cmd hrun hstep hguard
  have hsourced : Sourced C (⟨a, .ret t (.ok (.view (.ok v)))⟩ :: B) (C.cfg a).name k v.b := by
    rcases get_origin hN h₀ hnow (List.mem_cons_of_mem _ hget) List.mem_cons_self with
      hfresh | ⟨g, horigin⟩
    · exact sourced_of_freshSince hN hnow hfresh
    · exact horigin.sourced hN hnow
  -- the return itself is no source
  cases hsourced with
  | set hname hset =>
    exact .set hname ((List.mem_cons.1 hset).resolve_left fun heq => by cases heq)
  | loaded hname hstart hend =>
    exact .loaded hname ((List.mem_cons.1 hstart).resolve_left fun heq => by cases heq)
      ((List.mem_cons.1 hend).resolve_left fun heq => by cases heq)

/-- Node `a` reads what the Getter of node `b` returned. -/
theorem remote_read_has_source :
    ∃ (c : ∀ x, Config (Cluster.pair.machine x)) (A B : Cluster.pair.Log),
    NetRun Cluster.pair.Network State.two c
      (A ++ ⟨true, .ret 0 (.ok (.view (.ok ⟨[7]⟩)))⟩ :: B) ∧
    Sourced Cluster.pair B (ascii "g") (ascii "k") [7] := by
  obtain ⟨c, B, hsteps, hlast⟩ : ∃ c B, netSteps (fun tr x _ ℓ => Cluster.pair.admits tr x ℓ)
      (fun x => .start (State.two x)) [] (readTwice.take 32) =
        some (c, ⟨true, .ret 0 (.ok (.view (.ok ⟨[7]⟩)))⟩ :: B) ∧
      B.getLast? = some ⟨true, .spawn 0 (.get (ascii "k"))⟩ := ⟨_, _, rfl, rfl⟩
  have hrun : NetRun Cluster.pair.Network State.two c
      ([] ++ ⟨true, .ret 0 (.ok (.view (.ok ⟨[7]⟩)))⟩ :: B) :=
    NetRun.steps (fun _ _ _ _ _ h => h) .start hsteps
  exact ⟨c, [], B, hrun,
    get_has_source (fun _ _ _ _ _ h => h) State.fresh_two hrun (List.mem_of_getLast? hlast)⟩

end Locache
