import Locache.Cluster.Invalidation
import Locache.Conc.Linear
import Locache.Group.Direct

/-!
# A shared key is a register

The nodes of a cluster without Getters and near caches share a map. While the membership stands, a
call on a key takes effect at one moment between its begin and its return: when the owner looks the
key up, or in the owner's critical section. So what the callers on all nodes see of a key can be
explained by one sequence of calls on one register that keeps their real-time order
(`key_linearizable`). The register may forget its value, as the owner may evict it; if the owner
loses no entry of the key, it does not.
-/

namespace Locache

open Conc

/-! ## The register -/

/-- What a call on a cached key may answer, and what is cached after it. A read that misses shows
that the value is gone; an `exact` register misses only when nothing is there. -/
inductive Register.Step (exact : Prop) : Option Bytes → KeyCall → KeyRes → Option Bytes → Prop where
  | hit (b : Bytes) : Step exact (some b) .get (.value b) (some b)
  | miss (s : Option Bytes) (h : exact → s = none) : Step exact s .get .miss none
  | set (s : Option Bytes) (value : Bytes) : Step exact s (.set value) .done (some value)
  | delete (s : Option Bytes) : Step exact s .delete .done none

/-- No step but a mutation loses an entry of `k`, and what is stored under `k` can be found. -/
structure Lossless {g : Cfg} (k : GoString) (σ : State) (ℓ : Label (node g)) (σ' : State) :
    Prop where
  kept : (∀ t e, ℓ = .act t e → e.op.mutates k = false) → ∀ v,
    σ.main.live σ.clock k = some v → σ'.main.live σ'.clock k = some v
  stored : ∀ t e v, ℓ = .act t e → Stores k v e → σ'.main.live σ'.clock k = some v

/-- The register `s` stands for what a node has cached under `k`. -/
structure Stands (exact : Prop) (k : GoString) (σ : State) (s : Option Bytes) : Prop where
  live : ∀ v, σ.main.live σ.clock k = some v → s = some v.b
  kept : exact → ∀ b, s = some b → σ.main.live σ.clock k = some ⟨b⟩

section Stands

variable {exact : Prop} {g : Cfg} {k : GoString} {σ σ' : State} {s : Option Bytes} {o : Op}
  {i : Inp} {a : o.Ans} {t : Nat}

/-- The three actions that do something for a call on `k`. -/
theorem effectOn_cases {c : KeyCall} {r : KeyRes} (h : effectOn k ⟨o, i, a⟩ = some (c, r)) :
    (∃ v, (⟨o, i, a⟩ : Ev groupSig Inp) = ⟨.mainGet k, i, some v⟩ ∧ c = .get ∧ r = .value v.b) ∨
    ((⟨o, i, a⟩ : Ev groupSig Inp) = ⟨.mainGet k, i, none⟩ ∧ c = .get ∧ r = .miss) ∨
    (∃ x value, (⟨o, i, a⟩ : Ev groupSig Inp) = ⟨.setSection x k value, i, ()⟩ ∧
      c = .set value ∧ r = .done) ∨
    ∃ x b, (⟨o, i, a⟩ : Ev groupSig Inp) = ⟨.deleteSection x k, i, b⟩ ∧
      c = .delete ∧ r = .done := by
  cases o with
  | mainGet key =>
    cases a with
    | some v =>
      simp only [effectOn, Option.ite_none_right_eq_some, Option.some.injEq, Prod.mk.injEq] at h
      obtain ⟨rfl, rfl, rfl⟩ := h
      exact Or.inl ⟨v, rfl, rfl, rfl⟩
    | none =>
      simp only [effectOn, Option.ite_none_right_eq_some, Option.some.injEq, Prod.mk.injEq] at h
      obtain ⟨rfl, rfl, rfl⟩ := h
      exact Or.inr (Or.inl ⟨rfl, rfl, rfl⟩)
  | setSection x key value =>
    simp only [effectOn, Option.ite_none_right_eq_some, Option.some.injEq, Prod.mk.injEq] at h
    obtain ⟨rfl, rfl, rfl⟩ := h
    exact Or.inr (Or.inr (Or.inl ⟨x, value, rfl, rfl, rfl⟩))
  | deleteSection x key =>
    simp only [effectOn, Option.ite_none_right_eq_some, Option.some.injEq, Prod.mk.injEq] at h
    obtain ⟨rfl, rfl, rfl⟩ := h
    exact Or.inr (Or.inr (Or.inr ⟨x, a, rfl, rfl, rfl⟩))
  | _ => cases h

/-- A lookup answers with what is live. -/
theorem live_of_mainGet {ans : Option ByteView} (hm : MainOk g σ)
    (hx : Node.exec g (.mainGet k) i σ = some (ans, σ')) :
    σ.main.live i.now k = ans ∧ ∀ v, σ'.main.live σ'.clock k = some v → ans = some v := by
  obtain ⟨hc, σ₁, hact, rfl⟩ := exec_eq_some.1 hx
  have hans : σ.main.live i.now k = ans := by
    rw [← Cache.get_fst hm.wf]
    exact congrArg Prod.fst (Option.some.inj hact)
  refine ⟨hans, fun v hv => ?_⟩
  rw [← hans]
  refine Cache.live_of_view (fun x hx => ?_) i.now_le_last hv
  rcases view_of_act hm.wf hact hx with ⟨hs, -⟩ | ⟨hx, -⟩
  · cases hs
  · exact hx

/-- **What the owner does for a call is a step of the register.** -/
theorem Stands.effect (hs : Stands exact k σ s) (hm : MainOk g σ)
    (hx : Node.exec g o i σ = some (a, σ'))
    (hkeep : exact → Lossless (g := g) k σ (.act t ⟨o, i, a⟩) σ') {c : KeyCall} {r : KeyRes}
    (heff : effectOn k ⟨o, i, a⟩ = some (c, r)) :
    ∃ s', Register.Step exact s c r s' ∧ Stands exact k σ' s' := by
  rcases effectOn_cases heff with ⟨v, heq, rfl, rfl⟩ | ⟨heq, rfl, rfl⟩ | ⟨x, value, heq, rfl, rfl⟩ |
    ⟨x, b, heq, rfl, rfl⟩ <;> cases heq
  · -- a hit finds the value of the register
    obtain ⟨hlive, hafter⟩ := live_of_mainGet hm hx
    have hclock := (exec_clock hx).1
    obtain rfl := hs.live v (Cache.live_mono hclock hlive)
    refine ⟨_, .hit v.b, fun w hw => ?_, fun hex b hb => ?_⟩
    · cases hafter w hw
      rfl
    · cases hb
      refine (hkeep hex).kept ?_ v (Cache.live_mono hclock hlive)
      rintro _ _ ⟨⟩
      rfl
  · -- after a miss nothing can be found
    obtain ⟨hlive, hafter⟩ := live_of_mainGet hm hx
    refine ⟨none, .miss s fun hex => ?_, fun w hw => ?_, fun _ b hb => by cases hb⟩
    · cases s with
      | none => rfl
      | some b =>
        have hfound := (hkeep hex).kept (by rintro _ _ ⟨⟩; rfl) _ (hs.kept hex b rfl)
        cases hafter _ hfound
    · cases hafter w hw
  · refine ⟨some value, .set s value, fun w hw => ?_, fun hex b hb => ?_⟩
    · rcases live_of_exec hm hx hw with hstore | ⟨-, hmut⟩
      · obtain ⟨-, rfl⟩ := hstore
        rfl
      · simp [Op.mutates] at hmut
    · cases hb
      exact (hkeep hex).stored _ _ _ rfl ⟨rfl, rfl⟩
  · refine ⟨none, .delete s, fun w hw => ?_, fun _ b hb => by cases hb⟩
    rcases live_of_exec hm hx hw with hstore | ⟨-, hmut⟩
    · cases hstore
    · simp [Op.mutates] at hmut

/-- What else a node does leaves the register alone. -/
theorem Stands.other (hs : Stands exact k σ s) (hm : MainOk g σ)
    (hx : Node.exec g o i σ = some (a, σ'))
    (hkeep : exact → Lossless (g := g) k σ (.act t ⟨o, i, a⟩) σ')
    (heff : effectOn k ⟨o, i, a⟩ = none) (hload : ∀ x key n b, o ≠ .loadCommit x key n b) :
    Stands exact k σ' s := by
  refine ⟨fun v hv => ?_, fun hex b hb => ?_⟩
  · rcases live_of_exec hm hx hv with hstore | ⟨hlive, -⟩
    · rcases hstore.cases with ⟨x, heq⟩ | ⟨x, n, b, heq⟩
      · rw [heq] at heff
        simp [effectOn] at heff
      · cases heq
        exact absurd rfl (hload _ _ _ _)
    · exact hs.live v hlive
  · refine (hkeep hex).kept ?_ _ (hs.kept hex b hb)
    rintro _ _ ⟨⟩
    cases o <;> first | rfl | simpa [Op.mutates, effectOn] using heff

theorem Stands.env {e : Event} (hs : Stands exact k σ s) (hm : MainOk g σ)
    (hx : Node.env e σ = some σ') (hkeep : exact → Lossless (g := g) k σ (.env e) σ') :
    Stands exact k σ' s := by
  refine ⟨fun v hv => hs.live v (live_of_env hm hx hv), fun hex b hb => ?_⟩
  refine (hkeep hex).kept ?_ _ (hs.kept hex b hb)
  rintro _ _ ⟨⟩

end Stands

/-! ## What the callers see -/

section History

variable {ι : Type} [DecidableEq ι] {C : Cluster ι} {k : GoString} {tr : C.Log} {a : ι} {t : Nat}
  {c : KeyCall} {r : KeyRes}

/-- What a caller sees of a step. -/
def seenIn (k : GoString) (tr : C.Log) : NetLabel C.machine → Option (Seen (ι × Nat) KeyCall KeyRes)
  | ⟨a, .spawn t call⟩ => (call.onKey k).map (.inv (a, t))
  | ⟨a, .ret t r⟩ => ((callOf (localTrace a tr) t).bind (Call.onKey k)).bind fun _ =>
    (answerOf r).map (.res (a, t))
  | _ => none

/-- The begins and returns of the calls on `k`, on all nodes, newest first. -/
def history (k : GoString) : C.Log → List (Seen (ι × Nat) KeyCall KeyRes)
  | [] => []
  | x :: tr => (seenIn k tr x).toList ++ history k tr

theorem mem_history_of_spawn {call : Call} (hm : ⟨a, .spawn t call⟩ ∈ tr)
    (hc : call.onKey k = some c) : .inv (a, t) c ∈ history k tr := by
  induction tr with
  | nil => cases hm
  | cons x tr ih =>
    rcases List.mem_cons.1 hm with rfl | hm
    · exact List.mem_append_left _ (by simp [seenIn, hc])
    · exact List.mem_append_right _ (ih hm)

theorem spawn_of_mem_history (hm : .inv (a, t) c ∈ history k tr) :
    ∃ call, ⟨a, .spawn t call⟩ ∈ tr ∧ call.onKey k = some c := by
  induction tr with
  | nil => cases hm
  | cons x tr ih =>
    rcases List.mem_append.1 hm with hm | hm
    · obtain ⟨b, ℓ⟩ := x
      cases ℓ with
      | spawn u call =>
        simp only [seenIn, Option.mem_toList, Option.map_eq_some_iff] at hm
        obtain ⟨c', hc, heq⟩ := hm
        cases heq
        exact ⟨call, List.mem_cons_self, hc⟩
      | ret u r =>
        simp only [seenIn, Option.mem_toList, Option.bind_eq_some_iff,
          Option.map_eq_some_iff, reduceCtorEq, and_false, exists_false] at hm
      | _ => simp [seenIn] at hm
    · obtain ⟨call, hm, hc⟩ := ih hm
      exact ⟨call, List.mem_cons_of_mem _ hm, hc⟩

end History

/-! ## Runs under one membership -/

section Runs

variable {ι : Type} [DecidableEq ι] {C : Cluster ι} {k : GoString} {exact : Prop}
  {σ : ι → State} {c : ∀ a, Config (C.machine a)} {tr : C.Log} {a b o : ι}

/-- **The condition on a step.** The membership does not change, a request is served once, and an
error of a remote call is a status error. Its code is `NotFound` or `FailedPrecondition` only if
that is what a handler returned; the transport itself fails with other codes. -/
structure Cluster.Orderly (C : Cluster ι) (tr : C.Log) (a : ι)
    (ℓ : Label (C.machine a)) : Prop where
  admits : C.admits tr a ℓ = true
  stable : Stable ℓ
  once : ∀ t t' src req req', ℓ = .spawn t (.serve src req) →
    ⟨a, .spawn t' (.serve src req')⟩ ∉ tr
  status : ∀ t id i err, ℓ = .act t ⟨.rpcEnd id, i, .error err⟩ → ∃ code msg, err = .status code msg
  relayed : ∀ t id i err, ℓ = .act t ⟨.rpcEnd id, i, .error err⟩ → err.Confusable →
    ∃ b s req j w, ⟨a, .act t ⟨.rpcStart (C.addr b) req, j, id⟩⟩ ∈ tr ∧
      ⟨b, .spawn s (.serve (C.addr a, id) req)⟩ ∈ tr ∧
      ⟨b, .ret s (.ok (.reply (.error w)))⟩ ∈ tr ∧ w.Travels err

/-- The same, and if `exact` no entry of `k` is lost. -/
def Cluster.Serving (C : Cluster ι) (k : GoString) (exact : Prop) : NetGuard C.machine :=
  fun tr a s ℓ s' => C.Orderly tr a ℓ ∧ (exact → Lossless k s ℓ s')

/-- The configuration of the nodes: peers, but neither a Getter nor a near cache. -/
structure Cfg.Plain (g : Cfg) : Prop where
  peers : g.peers = true
  near : g.nearCache = false
  getter : g.getter = false

/-- The node owns `k`. -/
abbrev Home (σ : ι → State) (k : GoString) (o : ι) : Prop := ((σ o).topology.pick k).self = true

omit [DecidableEq ι] in
/-- The node whose address every picker names is the owner. -/
theorem OneMembership.own {P : ι → ClientPicker} (h : OneMembership C σ P)
    (hb : C.addr b = ((σ a).topology.pick k).owner) : ((σ b).topology.pick k).Own := by
  rw [h.topology] at hb ⊢
  change C.addr b = ((P a).pickOwner k).owner at hb
  rw [(P a).pickOwner_owner, h.ring_get a b, ← h.self] at hb
  change ((P b).pickOwner k).Own
  refine ⟨((P b).pickOwner_ok k).2 ?_, ?_, ((P b).pickOwner_self k).2 hb.symm⟩
  · rw [← hb]
    exact (P b).selfAddr_ne
  · rw [(P b).pickOwner_owner, ← hb]
    exact (P b).selfAddr_ne

omit [DecidableEq ι] in
/-- Every picker names the address of the owner. -/
theorem OneMembership.owner_eq {P : ι → ClientPicker} (h : OneMembership C σ P)
    (ho : Home σ k o) : ((σ a).topology.pick k).owner = C.addr o := by
  have ho' : ((P o).pickOwner k).self = true := by
    have := ho
    unfold Home at this
    rwa [h.topology] at this
  rw [h.topology]
  change ((P a).pickOwner k).owner = C.addr o
  rw [(P a).pickOwner_owner, h.ring_get a o, ← h.self]
  exact ((P o).pickOwner_self k).1 ho'

section Served

omit [DecidableEq ι] in
theorem Cluster.serving_admits (tr : C.Log) (a : ι) (s : State) (ℓ : Label (C.machine a))
    (s' : State) (hs : C.Serving k exact tr a s ℓ s') : C.admits tr a ℓ = true := hs.1.admits

variable {P : ι → ClientPicker} (hone : OneMembership C σ P) (hplain : ∀ a, (C.cfg a).Plain)
  (h₀ : ∀ a, (σ a).Fresh) (h : NetRun (C.Serving k exact) σ c tr)

include h

theorem Cluster.serving_stable (a : ι) : ∀ ℓ ∈ Cluster.trace tr a, Stable ℓ := by
  have hrun : Run (M := C.machine a) (fun _ _ ℓ _ => Stable ℓ) (σ a) (c a) (localTrace a tr) :=
    h.node fun _ _ _ _ hs => hs.1.stable
  exact hrun.forall_mem (P := Stable) fun _ _ _ _ hs => hs

/-- A request is served by one goroutine. -/
theorem Cluster.served_once {t t' : Nat} {src : GoString × Nat} {req req' : Req}
    (hm : ⟨a, .spawn t (.serve src req)⟩ ∈ tr) (hm' : ⟨a, .spawn t' (.serve src req')⟩ ∈ tr) :
    t = t' := by
  induction h with
  | start => cases hm
  | @step c tr b ℓ c' cmd prior hstep hguard ih =>
    rcases List.mem_cons.1 hm with heq | hold <;> rcases List.mem_cons.1 hm' with heq' | hold'
    · cases heq
      cases heq'
      rfl
    · cases heq
      exact absurd hold' (hguard.1.once _ _ _ _ _ rfl)
    · cases heq'
      exact absurd hold (hguard.1.once _ _ _ _ _ rfl)
    · exact ih hold hold'

include h₀

theorem Cluster.topology_eq (a : ι) : (c a).state.topology = (σ a).topology :=
  (Run.memberships (h₀ a) (Cluster.run_node h a)).topology_of_stable (Cluster.serving_stable h a)

omit h₀

/-- What the nodes of a run have seen so far is what one membership gives. -/
def AllAgreed (σ : ι → State) (tr : C.Log) : Prop :=
  ∀ a t e, ⟨a, .act t e⟩ ∈ tr → Agreed (σ a).topology e

omit h in
theorem AllAgreed.hist (hagreed : AllAgreed σ tr) {t : Nat} :
    ∀ e ∈ hist (localTrace a tr) t, Agreed (σ a).topology e :=
  fun e he => hagreed a t e (mem_localTrace.1 (mem_hist.1 he))

include hplain

/-- Every action reaches the owner for the first time, or not at all. -/
theorem Cluster.direct (hagreed : AllAgreed σ tr) {t : Nat} {e : Ev groupSig Inp} {g : History}
    (hg : e :: g <:+ hist (localTrace a tr) t) : Direct (σ a).topology g e.op := by
  obtain ⟨call, -, hdirect⟩ := (Cluster.run_node h a).allowed
    (directProtocol (σ a).topology (hplain a).peers (hplain a).near (hplain a).getter) t e g hg
  exact hdirect fun e' he' => hagreed.hist e' (hg.subset (List.mem_cons_of_mem _ he'))

theorem Cluster.aimed (hagreed : AllAgreed σ tr) {t : Nat} {e : Ev groupSig Inp}
    (hm : ⟨a, .act t e⟩ ∈ tr) : e.op.Aimed (σ a).topology := by
  obtain ⟨X, Y, hXY⟩ := List.append_of_mem (mem_hist.2 (mem_localTrace.2 hm))
  exact (Cluster.direct hplain h hagreed ⟨X, hXY.symm⟩).aimed

/-- A goroutine reaches an owner once. -/
theorem Cluster.reaches_once (hagreed : AllAgreed σ tr) {t : Nat} {e e' : Ev groupSig Inp}
    (hm : ⟨a, .act t e⟩ ∈ tr) (hm' : ⟨a, .act t e'⟩ ∈ tr) (he : e.op.reaches = true)
    (he' : e'.op.reaches = true) : e = e' := by
  have hmem := mem_hist.2 (mem_localTrace.2 hm')
  obtain ⟨X, Y, hXY⟩ := List.append_of_mem (mem_hist.2 (mem_localTrace.2 hm))
  rw [hXY] at hmem
  rcases List.mem_append.1 hmem with hX | hY
  · -- the other one came later, when the owner had been reached
    obtain ⟨X₁, X₂, rfl⟩ := List.append_of_mem hX
    have hg : e' :: (X₂ ++ e :: Y) <:+ hist (localTrace a tr) t := ⟨X₁, by rw [hXY]; simp⟩
    have haway := (Cluster.direct hplain h hagreed hg).once he' e (by simp)
    rw [he] at haway
    cases haway
  · rcases List.mem_cons.1 hY with heq | hY
    · exact heq.symm
    · have haway := (Cluster.direct hplain h hagreed ⟨X, hXY.symm⟩).once he e' hY
      rw [he'] at haway
      cases haway

/-- A handler that returned did what its reply says. -/
theorem Cluster.handled (hagreed : AllAgreed σ tr) {s : Nat} {src : GoString × Nat} {req : Req}
    {reply : Except Err Resp} (hspawn : ⟨b, .spawn s (.serve src req)⟩ ∈ tr)
    (hret : ⟨b, .ret s (.ok (.reply reply))⟩ ∈ tr) :
    Handled (σ b).topology req (hist (localTrace b tr) s) reply := by
  obtain ⟨A, B, c', hsplit, -, hend⟩ := (Cluster.run_node h b).finished
    (directProtocol (σ b).topology (hplain b).peers (hplain b).near (hplain b).getter)
    (mem_localTrace.2 hspawn) (mem_localTrace.2 hret)
  have hhist : hist (localTrace b tr) s = hist B s := by
    have hrun := Cluster.run_node h b
    rw [hsplit] at hrun ⊢
    rw [hist_append, hrun.after_ret, List.nil_append, hist_ret]
  rw [← hhist] at hend
  exact hend hagreed.hist reply rfl

omit hplain [DecidableEq ι] h in
theorem aimed_onKey {T : Topology} {addr : GoString} {req : Req} {x : KeyCall}
    (ha : (Op.rpcStart addr req).Aimed T) (hx : req.onKey k = some x) :
    (T.pick k).self = false ∧ addr = (T.pick k).owner := by
  cases req with
  | invalidate group key => cases hx
  | _ =>
    simp only [Req.onKey, Option.ite_none_right_eq_some] at hx
    obtain ⟨rfl, -⟩ := hx
    exact ha

include hone

/-- A request goes to a node that takes itself for the owner. -/
theorem Cluster.own_of_request (hagreed : AllAgreed σ tr) {t id : Nat} {i : Inp} {req : Req}
    {key : GoString} {x : KeyCall} (hm : ⟨a, .act t ⟨.rpcStart (C.addr b) req, i, id⟩⟩ ∈ tr)
    (hx : req.onKey key = some x) : ((σ b).topology.pick key).Own :=
  hone.own (aimed_onKey (Cluster.aimed hplain h hagreed hm) hx).2

/-- An owner refuses no request. -/
theorem Cluster.accepted (hagreed : AllAgreed σ tr) {t id s : Nat} {j : Inp} {req : Req}
    {w err : Err}
    (hm : ⟨a, .act t ⟨.rpcStart (C.addr b) req, j, id⟩⟩ ∈ tr)
    (hspawn : ⟨b, .spawn s (.serve (C.addr a, id) req)⟩ ∈ tr)
    (hret : ⟨b, .ret s (.ok (.reply (.error w)))⟩ ∈ tr) (hw : w.Travels err) :
    err.code ≠ .failedPrecondition := by
  have hhandled := Cluster.handled hplain h hagreed hspawn hret
  have hcode := hhandled.accepted
    (fun key x hx => Cluster.own_of_request hone hplain h hagreed hm hx) w rfl
  cases hw with
  | status msg _ => exact hcode
  | plain code msg _ hplain => rcases hplain with rfl | rfl | rfl <;> exact fun hc => by cases hc

include h₀

/-- **Every answer is one of the membership.** -/
theorem Cluster.allAgreed : AllAgreed σ tr := by
  induction h with
  | start => exact fun _ _ _ hm => by cases hm
  | @step c tr b ℓ c' cmd prior hstep hguard ih =>
    intro a t e hm
    rcases List.mem_cons.1 hm with heq | hold
    · cases heq
      obtain ⟨o, i, ans⟩ := e
      obtain ⟨call, -, -, hx⟩ := (Cluster.run_node prior b).of_act (protocol (C.cfg b)) hstep
      obtain ⟨-, σ₁, hact, -⟩ := exec_eq_some.1 hx
      have htop := Cluster.topology_eq h₀ prior b
      cases o with
      | pickOwner site key =>
        cases hact
        exact congrArg (fun T => T.pick key) htop
      | invalidateTargets owner =>
        obtain rfl : ((c b).state.topology.clients.filter fun c => c.addr ≠ owner) = ans :=
          congrArg Prod.fst (Option.some.inj hact)
        exact fun x hx => of_decide_eq_true (List.mem_filter.1 hx).2
      | rpcEnd id =>
        cases ans with
        | ok resp => trivial
        | error err =>
          obtain ⟨code, msg, rfl⟩ := hguard.1.status t id i err rfl
          refine ⟨code, msg, rfl, ?_⟩
          rintro rfl
          obtain ⟨b', s, req, j, w, hsent, hspawn, hret, hw⟩ :=
            hguard.1.relayed t id i _ rfl (Or.inr rfl)
          exact Cluster.accepted hone hplain prior ih hsent hspawn hret hw rfl
      | _ => trivial
    · exact ih a t e hold

/-! ### Which call an action of the owner is for -/

/-- What goroutine `u` of node `o` does for a call on `k` is for the call in the last place: its own
one, or the one whose request it serves. -/
inductive Attributed (C : Cluster ι) (tr : C.Log) (k : GoString) (o : ι) (u : Nat) (x : KeyCall) :
    ι × Nat → Prop where
  | own {call : Call} (hspawn : ⟨o, .spawn u call⟩ ∈ tr) (hx : call.onKey k = some x) :
      Attributed C tr k o u x (o, u)
  | asked {a : ι} {t id : Nat} {req : Req} {i : Inp}
      (hspawn : ⟨o, .spawn u (.serve (C.addr a, id) req)⟩ ∈ tr) (hx : req.onKey k = some x)
      (hsent : ⟨a, .act t ⟨.rpcStart (C.addr o) req, i, id⟩⟩ ∈ tr) :
      Attributed C tr k o u x (a, t)

omit [DecidableEq ι] hone hplain h₀ h in
theorem Attributed.mono {tr' : C.Log} {u : Nat} {x : KeyCall} {id : ι × Nat}
    (ha : Attributed C tr k o u x id) (hs : tr ⊆ tr') : Attributed C tr' k o u x id := by
  cases ha with
  | own hspawn hx => exact .own (hs hspawn) hx
  | asked hspawn hx hsent => exact .asked (hs hspawn) hx (hs hsent)

omit hone hplain h₀ in
theorem Cluster.spawn_unique {t : Nat} {call call' : Call} (hm : ⟨a, .spawn t call⟩ ∈ tr)
    (hm' : ⟨a, .spawn t call'⟩ ∈ tr) : call = call' := by
  have hrun := Cluster.run_node h a
  exact Option.some.inj ((hrun.callOf_spawn (mem_localTrace.2 hm)).symm.trans
    (hrun.callOf_spawn (mem_localTrace.2 hm')))

omit hone hplain h₀ in
/-- The call has begun. -/
theorem Attributed.begun {u : Nat} {x : KeyCall} {id : ι × Nat} (ha : Attributed C tr k o u x id) :
    .inv id x ∈ history k tr := by
  cases ha with
  | own hspawn hx => exact mem_history_of_spawn hspawn hx
  | @asked a t n req i hspawn hx hsent =>
    obtain ⟨X, Y, hXY⟩ := List.append_of_mem (mem_hist.2 (mem_localTrace.2 hsent))
    obtain ⟨call, hcall, hsends⟩ :=
      (Cluster.run_node h a).allowed (protocol (C.cfg a)) t _ _ ⟨X, hXY.symm⟩
    refine mem_history_of_spawn (mem_localTrace.1 (mem_of_callOf hcall)) ?_
    change call.Sends (C.cfg a) req at hsends
    cases call with
    | get key =>
      obtain rfl := hsends
      exact hx
    | set key value =>
      rcases hsends with rfl | rfl
      · exact hx
      · cases hx
    | delete key =>
      rcases hsends with rfl | rfl
      · exact hx
      · cases hx
    | _ => cases hsends

/-- One goroutine of the owner acts for a call. -/
theorem Attributed.thread_unique (ho : Home σ k o) {u u' : Nat} {x x' : KeyCall} {id : ι × Nat}
    (ha : Attributed C tr k o u x id) (ha' : Attributed C tr k o u' x' id) : u = u' := by
  have hagreed := Cluster.allAgreed hone hplain h₀ h
  -- the owner sends no request to itself
  have hnot : ∀ {t n : Nat} {i : Inp} {req : Req} {y : KeyCall}, req.onKey k = some y →
      ⟨o, .act t ⟨.rpcStart (C.addr o) req, i, n⟩⟩ ∉ tr := by
    intro t n i req y hy hm
    have hself := (aimed_onKey (Cluster.aimed hplain h hagreed hm) hy).1
    rw [ho] at hself
    cases hself
  have hreach : ∀ {addr : GoString} {req : Req} {y : KeyCall}, req.onKey k = some y →
      (Op.rpcStart addr req).reaches = true := by
    intro addr req y hy
    cases req with
    | invalidate group key => cases hy
    | _ => rfl
  cases ha with
  | own hspawn hx =>
    cases ha' with
    | own hspawn' hx' => rfl
    | asked hspawn' hx' hsent' => exact absurd hsent' (hnot hx')
  | @asked a t n req i hspawn hx hsent =>
    cases ha' with
    | own hspawn' hx' => exact absurd hsent (hnot hx)
    | asked hspawn' hx' hsent' =>
      cases Cluster.reaches_once hplain h hagreed hsent hsent' (hreach hx) (hreach hx')
      exact Cluster.served_once h hspawn hspawn'

omit hone hplain h₀ in
/-- A goroutine that serves a request acts for the call that sent it. -/
theorem Attributed.id_unique {u t n : Nat} {x : KeyCall} {id : ι × Nat} {req : Req} {i : Inp}
    (ha : Attributed C tr k o u x id) (hspawn : ⟨o, .spawn u (.serve (C.addr a, n) req)⟩ ∈ tr)
    (hsent : ⟨a, .act t ⟨.rpcStart (C.addr o) req, i, n⟩⟩ ∈ tr) : id = (a, t) := by
  cases ha with
  | own hspawn' hx =>
    cases Cluster.spawn_unique h hspawn hspawn'
    cases hx
  | asked hspawn' hx hsent' =>
    have heq := Cluster.spawn_unique h hspawn hspawn'
    simp only [Call.serve.injEq, Prod.mk.injEq] at heq
    obtain ⟨⟨haddr, rfl⟩, rfl⟩ := heq
    obtain rfl := C.addr_injective haddr
    have hun := (Run.numbered (Cluster.run_node h a)).unique _ _ _ _ _ _ _ _ _
      (mem_localTrace.2 hsent) (mem_localTrace.2 hsent')
    rw [hun.1]

/-- What the owner does for a call on `k` is for some call. -/
theorem Cluster.attributed (ho : Home σ k o) {u : Nat} {call : Call} {e : Ev groupSig Inp}
    {x : KeyCall} {r : KeyRes} (hcall : callOf (localTrace o tr) u = some call)
    (hallow : Allowed (C.cfg o) call (hist (localTrace o tr) u) e.op)
    (heff : effectOn k e = some (x, r)) : ∃ id, Attributed C tr k o u x id := by
  have hagreed := Cluster.allAgreed hone hplain h₀ h
  have hspawn : ⟨o, .spawn u call⟩ ∈ tr := mem_localTrace.1 (mem_of_callOf hcall)
  have hserve : ∀ {src req}, call = .serve src req → req.onKey k = some x →
      ∃ id, Attributed C tr k o u x id := by
    rintro src req rfl hx
    obtain ⟨a, t, i, haddr, hsent⟩ := Cluster.sent_of_spawn Cluster.serving_admits h hspawn
    obtain ⟨addr, n⟩ := src
    obtain rfl : C.addr a = addr := haddr
    exact ⟨(a, t), .asked hspawn hx hsent⟩
  have hread : call.Reads k → x = .get → ∃ id, Attributed C tr k o u x id := by
    rintro hreads rfl
    cases call with
    | get key =>
      obtain rfl := hreads
      exact ⟨_, .own hspawn (by simp [Call.onKey])⟩
    | serve src req =>
      cases req with
      | get group key =>
        obtain rfl := hreads
        exact hserve rfl (by simp [Req.onKey])
      | _ => cases hreads
    | _ => cases hreads
  obtain ⟨op, i, ans⟩ := e
  rcases effectOn_cases heff with ⟨v, heq, rfl, -⟩ | ⟨heq, rfl, -⟩ | ⟨s, value, heq, rfl, -⟩ |
    ⟨s, d, heq, rfl, -⟩ <;> cases heq
  · exact hread hallow.1 rfl
  · exact hread hallow.1 rfl
  · have hwrites : call.Writes k value := hallow.1
    cases call with
    | set key v =>
      obtain ⟨rfl, rfl⟩ := hwrites
      exact ⟨_, .own hspawn (by simp [Call.onKey])⟩
    | serve src req =>
      cases req with
      | set group key v =>
        obtain ⟨rfl, rfl⟩ := hwrites
        exact hserve rfl (by simp [Req.onKey])
      | _ => cases hwrites
    | _ => cases hwrites
  · have hdeletes : call.Deletes k := hallow.1
    cases call with
    | delete key =>
      obtain rfl := hdeletes
      exact ⟨_, .own hspawn (by simp [Call.onKey])⟩
    | serve src req =>
      cases req with
      | delete group key =>
        obtain rfl := hdeletes
        exact hserve rfl (by simp [Req.onKey])
      | invalidate group key =>
        -- nobody asks the owner to drop its copy
        obtain rfl := hdeletes
        obtain ⟨a, t, j, -, hsent⟩ := Cluster.sent_of_spawn Cluster.serving_admits h hspawn
        exact absurd (hone.owner_eq ho).symm (Cluster.aimed hplain h hagreed hsent)
      | _ => cases hdeletes
    | _ => cases hdeletes

/-- What goroutine `t` of node `a` got from an owner, the owner has done for it. -/
theorem Cluster.requested {t : Nat} {x : KeyCall} {r : KeyRes}
    (hreq : Requested k x r (hist (localTrace a tr) t)) :
    ∃ o u e, Home σ k o ∧ ⟨o, .act u e⟩ ∈ tr ∧ effectOn k e = some (x, r) ∧
      ∀ id, Attributed C tr k o u x id → id = (a, t) := by
  have hagreed := Cluster.allAgreed hone hplain h₀ h
  obtain ⟨addr, req, n, i, j, reply, hx, hreply, hsub⟩ := hreq
  -- the reply is that of a handler, with the same meaning
  obtain ⟨o, u, i', reply', hsent, hspawn, hret, hreply'⟩ : ∃ o u i' reply',
      ⟨a, .act t ⟨.rpcStart (C.addr o) req, i', n⟩⟩ ∈ tr ∧
      ⟨o, .spawn u (.serve (C.addr a, n) req)⟩ ∈ tr ∧ ⟨o, .ret u (.ok (.reply reply'))⟩ ∈ tr ∧
      x.replyOf reply' = some r := by
    have hstart : ⟨a, .act t ⟨.rpcStart addr req, i, n⟩⟩ ∈ tr :=
      mem_localTrace.1 (mem_hist.1 (hsub.subset (by simp)))
    cases reply with
    | ok resp =>
      obtain ⟨A, B, o, u, htr, rfl, hspawn, hret⟩ := Cluster.served Cluster.serving_admits h hsub
      have hold : ∀ y ∈ B, y ∈ tr := fun y hy => by
        rw [htr]
        exact List.mem_append_right _ (List.mem_cons_of_mem _ hy)
      exact ⟨o, u, i, .ok resp, hstart, hold _ hspawn, hold _ hret, hreply⟩
    | error err =>
      obtain ⟨A, B, htr, -⟩ := Cluster.exists_call hsub
      have hold : ∀ y ∈ B, y ∈ tr := fun y hy => by
        rw [htr]
        exact List.mem_append_right _ (List.mem_cons_of_mem _ hy)
      cases x with
      | get =>
        simp only [KeyCall.replyOf, Option.ite_none_right_eq_some, Option.some.injEq] at hreply
        obtain ⟨hcode, rfl⟩ := hreply
        rw [htr] at h
        obtain ⟨c₁, cmd, c', -, -, hguard⟩ := h.split
        obtain ⟨o, u, req', i', w, hsent, hspawn, hret, hw⟩ :=
          hguard.1.relayed t n j err rfl (Or.inl hcode)
        rw [← htr] at h
        obtain ⟨-, -, rfl⟩ := (Run.numbered (Cluster.run_node h a)).unique _ _ _ _ _ _ _ _ _
          (mem_localTrace.2 (hold _ hsent)) (mem_localTrace.2 hstart)
        refine ⟨o, u, i', .error w, hold _ hsent, hold _ hspawn, hold _ hret, ?_⟩
        have hwcode : w.code = .notFound := by
          cases hw with
          | status msg _ => exact hcode
          | plain code msg _ hplain => rcases hplain with rfl | rfl | rfl <;> cases hcode
        simp [KeyCall.replyOf, hwcode]
      | _ => cases hreply
  have hown := Cluster.own_of_request hone hplain h hagreed hsent hx
  obtain ⟨e, he, heff⟩ :=
    (Cluster.handled hplain h hagreed hspawn hret).effected k x r hx hreply'
  refine ⟨o, u, e, hown.self, mem_localTrace.1 (mem_hist.1 he), heff, fun id ha => ?_⟩
  exact Attributed.id_unique h ha hspawn hsent

/-! ### The sequence of calls -/

/-- The sequence `L` explains what the callers saw: its calls are what the owner has done, and the
register stands for what the owner has cached. -/
structure Explained (C : Cluster ι) (σ : ι → State) (k : GoString) (exact : Prop)
    (c : ∀ a, Config (C.machine a)) (tr : C.Log) (L : List (Answered (ι × Nat) KeyCall KeyRes))
    (s : Option Bytes) : Prop where
  linear : Linearization (Register.Step exact) none (history k tr) L s
  sound : ∀ x ∈ L, ∃ o u e, Home σ k o ∧ ⟨o, .act u e⟩ ∈ tr ∧
    effectOn k e = some (x.call, x.res) ∧ Attributed C tr k o u x.call x.id
  complete : ∀ o u e x r, Home σ k o → ⟨o, .act u e⟩ ∈ tr → effectOn k e = some (x, r) →
    ∃ id, Attributed C tr k o u x id ∧ ⟨id, x, r⟩ ∈ L
  stands : ∀ o, Home σ k o → Stands exact k (c o).state s

omit hone hplain h₀ h in
/-- A step by which the owner does nothing for a call on `k`. -/
theorem Explained.step {L : List (Answered (ι × Nat) KeyCall KeyRes)} {s : Option Bytes}
    (hE : Explained C σ k exact c tr L s) {ℓ : Label (C.machine b)} {c' : Config (C.machine b)}
    (hlinear : Linearization (Register.Step exact) none (history k (⟨b, ℓ⟩ :: tr)) L s)
    (hℓ : Home σ k b → ∀ u e, ℓ = .act u e → effectOn k e = none)
    (hs : Home σ k b → Stands exact k c'.state s) :
    Explained C σ k exact (Function.update c b c') (⟨b, ℓ⟩ :: tr) L s where
  linear := hlinear
  sound := by
    intro x hx
    obtain ⟨o, u, e, ho, hm, heff, ha⟩ := hE.sound x hx
    exact ⟨o, u, e, ho, List.mem_cons_of_mem _ hm, heff, ha.mono (List.subset_cons_self _ _)⟩
  complete := by
    intro o u e x r ho hm heff
    rcases List.mem_cons.1 hm with heq | hold
    · cases heq
      rw [hℓ ho u e rfl] at heff
      cases heff
    · obtain ⟨id, ha, hL⟩ := hE.complete o u e x r ho hold heff
      exact ⟨id, ha.mono (List.subset_cons_self _ _), hL⟩
  stands := by
    intro o ho
    by_cases hob : o = b
    · subst hob
      rw [Function.update_self]
      exact hs ho
    · rw [Function.update_of_ne hob]
      exact hE.stands o ho

/-- The owner does something for a call on `k`. -/
theorem Explained.effect {L : List (Answered (ι × Nat) KeyCall KeyRes)} {s s' : Option Bytes}
    (hE : Explained C σ k exact c tr L s) (ho : Home σ k o) {u : Nat} {call : Call}
    {e : Ev groupSig Inp} {x : KeyCall} {r : KeyRes} {c' : Config (C.machine o)}
    (hrun : NetRun (C.Serving k exact) σ (Function.update c o c') (⟨o, .act u e⟩ :: tr))
    (hcall : callOf (localTrace o tr) u = some call)
    (hallow : Allowed (C.cfg o) call (hist (localTrace o tr) u) e.op)
    (heff : effectOn k e = some (x, r)) (hstep : Register.Step exact s x r s')
    (hs : Stands exact k c'.state s') :
    ∃ L', Explained C σ k exact (Function.update c o c') (⟨o, .act u e⟩ :: tr) L' s' := by
  obtain ⟨id, ha⟩ := Cluster.attributed hone hplain h₀ h ho hcall hallow heff
  have hreach : ∀ {e : Ev groupSig Inp} {y : KeyCall × KeyRes}, effectOn k e = some y →
      e.op.reaches = true := by
    rintro ⟨op, i, ans⟩ ⟨y, r'⟩ hy
    rcases effectOn_cases hy with ⟨v, heq, -⟩ | ⟨heq, -⟩ | ⟨x, value, heq, -⟩ | ⟨x, b, heq, -⟩ <;>
      cases heq <;> rfl
  -- the call has not taken effect before
  have hnew : ∀ y ∈ L, y.id ≠ id := by
    rintro y hy rfl
    obtain ⟨o', u', e', ho', hm, heff', ha'⟩ := hE.sound y hy
    obtain rfl := (hone.oneOwner k).unique o' o ho' ho
    obtain rfl := Attributed.thread_unique hone hplain h₀ h ho ha' ha
    have hagreed := Cluster.allAgreed hone hplain h₀ hrun
    have hdirect := Cluster.direct hplain hrun hagreed (a := o') (t := u') (e := e)
      (g := hist (localTrace o' tr) u') (by rw [localTrace_self, hist_act_self])
    have haway := hdirect.once (hreach heff) e' (mem_hist.2 (mem_localTrace.2 hm))
    rw [hreach heff'] at haway
    cases haway
  have hsub : tr ⊆ (⟨o, .act u e⟩ : NetLabel C.machine) :: tr := List.subset_cons_self _ _
  refine ⟨⟨id, x, r⟩ :: L, ?_, ?_, ?_, ?_⟩
  · exact hE.linear.effect (Attributed.begun h ha) hnew hstep
  · intro y hy
    rcases List.mem_cons.1 hy with rfl | hold
    · exact ⟨o, u, e, ho, List.mem_cons_self, heff, ha.mono hsub⟩
    · obtain ⟨o', u', e', ho', hm, heff', ha'⟩ := hE.sound y hold
      exact ⟨o', u', e', ho', hsub hm, heff', ha'.mono hsub⟩
  · intro o' u' e' x' r' ho' hm heff'
    rcases List.mem_cons.1 hm with heq | hold
    · cases heq
      cases heff.symm.trans heff'
      exact ⟨id, ha.mono hsub, List.mem_cons_self⟩
    · obtain ⟨id', ha', hL⟩ := hE.complete o' u' e' x' r' ho' hold heff'
      exact ⟨id', ha'.mono hsub, List.mem_cons_of_mem _ hL⟩
  · intro o' ho'
    obtain rfl := (hone.oneOwner k).unique o' o ho' ho
    rw [Function.update_self]
    exact hs

/-- When a call returns, it is in the sequence with its answer. -/
theorem Explained.answered {L : List (Answered (ι × Nat) KeyCall KeyRes)} {s : Option Bytes}
    (hE : Explained C σ k exact c tr L s) {t : Nat} {call : Call} {x : KeyCall} {r : KeyRes}
    (hcall : callOf (localTrace a tr) t = some call) (hx : call.onKey k = some x)
    (htook : Took (σ a).topology k x r (hist (localTrace a tr) t)) : ⟨(a, t), x, r⟩ ∈ L := by
  rcases htook with ⟨hself, e, he, heff⟩ | hreq
  · have hm := mem_localTrace.1 (mem_hist.1 he)
    obtain ⟨id, ha, hL⟩ := hE.complete a t e x r hself hm heff
    cases ha with
    | own => exact hL
    | asked hspawn =>
      cases Cluster.spawn_unique h hspawn (mem_localTrace.1 (mem_of_callOf hcall))
      cases hx
  · obtain ⟨o, u, e, ho, hm, heff, hid⟩ := Cluster.requested hone hplain h₀ h hreq
    obtain ⟨id, ha, hL⟩ := hE.complete o u e x r ho hm heff
    rw [← hid id ha]
    exact hL

/-- A call returns, or ends without an answer. -/
theorem Explained.ret {L : List (Answered (ι × Nat) KeyCall KeyRes)} {s : Option Bytes}
    (hE : Explained C σ k exact c tr L s) {cmd : Cmd (C.machine b)} {t : Nat}
    {r : Except Panic Res} {c' : Config (C.machine b)}
    (hstep : (c b).step cmd = some (.ret t r, c')) :
    Linearization (Register.Step exact) none (history k (⟨b, .ret t r⟩ :: tr)) L s := by
  obtain ⟨call, hcall, hend⟩ := (Cluster.run_node h b).of_ret
    (directProtocol (σ b).topology (hplain b).peers (hplain b).near (hplain b).getter) hstep
  cases hx : call.onKey k with
  | none => simpa [history, seenIn, hcall, hx] using hE.linear
  | some x =>
    cases hr : answerOf r with
    | none => simpa [history, seenIn, hcall, hr] using hE.linear
    | some y =>
      have hagreed := (Cluster.allAgreed hone hplain h₀ h).hist (a := b) (t := t)
      have hmem := hE.answered hone hplain h₀ h hcall hx ((hend hagreed).took hx hr)
      simpa [history, seenIn, hcall, hx, hr] using hE.linear.finish hmem

theorem Cluster.explained : ∃ L s, Explained C σ k exact c tr L s := by
  induction h with
  | start =>
    refine ⟨[], none, .start, (fun _ hx => by cases hx), (fun _ _ _ _ _ _ hm => by cases hm), ?_⟩
    refine fun o _ => ⟨fun v hv => ?_, fun _ b hb => by cases hb⟩
    obtain ⟨d, hview, -⟩ := Cache.live_eq_some.1 hv
    rw [Config.start, (h₀ o).main_view] at hview
    cases hview
  | @step c tr b ℓ c' cmd prior hstep hguard ih =>
    obtain ⟨L, s, hE⟩ := ih
    have hnode := Cluster.run_node prior b
    have hmain := Run.mainOk (h₀ b) hnode
    have hrun := prior.step cmd hstep hguard
    cases Config.steps_of_step hstep with
    | spawn call =>
      refine ⟨L, s, hE.step ?_ (fun _ _ _ heq => by cases heq) (hE.stands b)⟩
      cases hx : call.onKey k with
      | none => simpa [history, seenIn, hx] using hE.linear
      | some x =>
        have hbegin := hE.linear.begin (b, (c b).next) (fun x' hm => ?_) x
        · simpa [history, seenIn, hx] using hbegin
        · obtain ⟨call', hm, -⟩ := spawn_of_mem_history hm
          have hcall := hnode.callOf_spawn (mem_localTrace.2 hm)
          rw [(hnode.unused _ (Nat.le_refl _)).2.1] at hcall
          cases hcall
    | @act u op f i ans σ' ht hx =>
      obtain ⟨call, hcall, hallow, -⟩ := hnode.of_act (protocol (C.cfg b)) hstep
      have hlin : history k ((⟨b, .act u ⟨op, i, ans⟩⟩ : NetLabel C.machine) :: tr) =
          history k tr := rfl
      by_cases ho : Home σ k b
      · cases heff : effectOn k ⟨op, i, ans⟩ with
        | none =>
          refine ⟨L, s, hE.step (hlin ▸ hE.linear) (fun _ u' e heq => ?_) fun _ => ?_⟩
          · cases heq
            exact heff
          · refine (hE.stands b ho).other hmain hx hguard.2 heff ?_
            rintro y key n by' rfl
            exact (Cluster.aimed hplain hrun (Cluster.allAgreed hone hplain h₀ hrun)
              List.mem_cons_self).elim
        | some y =>
          obtain ⟨x, r⟩ := y
          obtain ⟨s', hreg, hs⟩ := (hE.stands b ho).effect hmain hx hguard.2 heff
          obtain ⟨L', hE'⟩ := hE.effect hone hplain h₀ prior ho hrun hcall hallow heff hreg hs
          exact ⟨L', s', hE'⟩
      · exact ⟨L, s, hE.step (hlin ▸ hE.linear) (fun ho' => absurd ho' ho) fun ho' => absurd ho' ho⟩
    | ret ht =>
      refine ⟨L, s, hE.step ?_ (fun _ _ _ heq => by cases heq) (hE.stands b)⟩
      exact hE.ret hone hplain h₀ prior hstep
    | raise ht =>
      refine ⟨L, s, hE.step ?_ (fun _ _ _ heq => by cases heq) (hE.stands b)⟩
      exact hE.ret hone hplain h₀ prior hstep
    | env hx =>
      refine ⟨L, s, hE.step hE.linear (fun _ _ _ heq => by cases heq) fun ho => ?_⟩
      exact (hE.stands b ho).env hmain hx hguard.2

end Served

/-- **The calls on a key are linearizable.** In a cluster whose nodes know the same members, have
neither a Getter nor a near cache and start empty, what the callers on all nodes see of `Get`, `Set`
and `Delete` on one key is explained by one sequence of these calls on one register, in which a call
that returned before another one began comes first. A miss shows that the register has lost its
value; if no entry of the key is lost, a miss shows that there was none. -/
theorem key_linearizable {P : ι → ClientPicker} (hone : OneMembership C σ P)
    (hplain : ∀ a, (C.cfg a).Plain) (h₀ : ∀ a, (σ a).Fresh)
    (h : NetRun (C.Serving k exact) σ c tr) :
    Linearizable (Register.Step exact) none (history k tr) := by
  obtain ⟨L, s, hE⟩ := Cluster.explained hone hplain h₀ h
  exact ⟨L, s, hE.linear⟩

end Runs

/-! ## Two nodes -/

/-- Two nodes that share a map. -/
def Cluster.plainPair : Cluster Bool where
  cfg := fun _ => { Cfg.pair with getter := false }
  addr := Cluster.pair.addr
  addr_injective := Cluster.pair.addr_injective

theorem oneMembership_plainPair : OneMembership Cluster.plainPair State.picked pairPickers :=
  ⟨oneMembership_pair.reachable, oneMembership_pair.self, oneMembership_pair.replicas,
    oneMembership_pair.hash, oneMembership_pair.members, oneMembership_pair.topology⟩

/-- The request a goroutine is started to serve. -/
def servesIn {g : Cfg} : Label (node g) → Option (GoString × Nat)
  | .spawn _ (.serve src _) => some src
  | _ => none

/-- The step loses no entry of `k`. -/
def losesNothing (k : GoString) (e : Ev groupSig Inp) (s s' : State) : Bool :=
  (e.op.mutates k || (s.main.live s.clock k).all fun v => s'.main.live s'.clock k = some v) &&
    match e with
    | ⟨.setSection _ key v, _, _⟩ => key ≠ k || s'.main.live s'.clock k = some ⟨v⟩
    | ⟨.loadCommit _ _ _ _, _, _⟩ => false
    | _ => true

/-- No membership change, no failing call, no request that is served twice and no lost entry. -/
def Cluster.serving {ι : Type} (C : Cluster ι) (k : GoString) (tr : C.Log) (a : ι) (s : State)
    (ℓ : Label (C.machine a)) : Bool :=
  C.admits tr a ℓ && match ℓ with
    | .spawn _ (.serve src _) =>
      tr.all fun x => !(C.addr x.1 = C.addr a) || servesIn x.2 ≠ some src
    | .act _ ⟨.rpcEnd _, _, .error _⟩ => false
    | .act _ e => (Node.exec (C.cfg a) e.op e.inp s).any fun r => losesNothing k e s r.2
    | .env _ => false
    | _ => true

theorem lossless_of_losesNothing {g : Cfg} {k : GoString} {e : Ev groupSig Inp} {s s' : State}
    (h : losesNothing k e s s' = true) (t : Nat) : Lossless (g := g) k s (.act t e) s' := by
  obtain ⟨hkept, hstored⟩ := Bool.and_eq_true_iff.1 h
  refine ⟨fun hmut v hv => ?_, ?_⟩
  · rw [hmut t e rfl, hv] at hkept
    simpa using hkept
  · rintro _ _ v ⟨⟩ hs
    obtain ⟨o, i, a⟩ := e
    rcases hs.cases with ⟨x, heq⟩ | ⟨x, n, b, heq⟩ <;> cases heq
    · simpa using hstored
    · cases hstored

theorem Cluster.serving_of_step {ι : Type} {C : Cluster ι} {k : GoString} {exact : Prop}
    (tr : C.Log) (a : ι) (c c' : Config (C.machine a)) (cmd : Cmd (C.machine a))
    (ℓ : Label (C.machine a)) (hstep : c.step cmd = some (ℓ, c'))
    (h : C.serving k tr a c.state ℓ = true) : C.Serving k exact tr a c.state ℓ c'.state := by
  obtain ⟨hadmits, hℓ⟩ := Bool.and_eq_true_iff.1 h
  cases Config.steps_of_step hstep with
  | spawn call =>
    refine ⟨⟨hadmits, trivial, ?_, (fun _ _ _ _ heq => by cases heq),
      fun _ _ _ _ heq => by cases heq⟩, fun _ => ⟨fun _ _ hv => hv, fun _ _ _ heq => by cases heq⟩⟩
    rintro t t' src req req' ⟨⟩ hm
    have hno := List.all_eq_true.1 hℓ _ hm
    simp [servesIn] at hno
  | @act t o f i ans s' ht hx =>
    refine ⟨⟨hadmits, trivial, (fun _ _ _ _ _ heq => by cases heq), ?_, ?_⟩, fun _ => ?_⟩
    · rintro t id i err ⟨⟩
      cases hℓ
    · rintro t id i err ⟨⟩
      cases hℓ
    · split at hℓ
      · next heq => cases heq
      · cases hℓ
      · next heq =>
        cases heq
        change ((Node.exec _ _ _ _).any _) = true at hℓ
        rw [show Node.exec (C.cfg a) o i c.state = some (ans, s') from hx] at hℓ
        exact lossless_of_losesNothing hℓ t
      · next heq => cases heq
      · next hne _ => exact absurd rfl (hne t ⟨o, i, ans⟩)
  | ret ht =>
    exact ⟨⟨hadmits, trivial, (fun _ _ _ _ _ heq => by cases heq),
      (fun _ _ _ _ heq => by cases heq), fun _ _ _ _ heq => by cases heq⟩,
      fun _ => ⟨fun _ _ hv => hv, fun _ _ _ heq => by cases heq⟩⟩
  | raise ht =>
    exact ⟨⟨hadmits, trivial, (fun _ _ _ _ _ heq => by cases heq),
      (fun _ _ _ _ heq => by cases heq), fun _ _ _ _ heq => by cases heq⟩,
      fun _ => ⟨fun _ _ hv => hv, fun _ _ _ heq => by cases heq⟩⟩
  | env hx => cases hℓ

/-- Node `a` sets the key on node `b`, which owns it, and reads it back. -/
def setReadBack : List ((x : Bool) × Cmd (Cluster.plainPair.machine x)) :=
  ⟨true, .spawn (.set (ascii "k") [7])⟩ :: List.replicate 3 ⟨true, .run 0 (Inp.both [7])⟩ ++
    ⟨false, .spawn (.serve (ascii "a", 0) (.set (ascii "g") (ascii "k") [7]))⟩ ::
      List.replicate 8 ⟨false, .run 0 (Inp.both [7])⟩ ++
    List.replicate 7 ⟨true, .run 0 (Inp.both [7])⟩ ++
    ⟨true, .spawn (.get (ascii "k"))⟩ :: List.replicate 3 ⟨true, .run 1 (Inp.both [7])⟩ ++
    ⟨false, .spawn (.serve (ascii "a", 1) (.get (ascii "g") (ascii "k")))⟩ ::
      List.replicate 9 ⟨false, .run 1 (Inp.both [7])⟩ ++
    List.replicate 4 ⟨true, .run 1 (Inp.both [7])⟩

theorem setReadBack_linearizable : ∃ (c : ∀ x, Config (Cluster.plainPair.machine x))
    (tr : Cluster.plainPair.Log),
    NetRun (Cluster.plainPair.Serving (ascii "k") True) State.picked c tr ∧
    history (ascii "k") tr = [.res (true, 1) (.value [7]), .inv (true, 1) .get,
      .res (true, 0) .done, .inv (true, 0) (.set [7])] ∧
    Linearizable (Register.Step True) none (history (ascii "k") tr) := by
  obtain ⟨c, tr, hsteps, hseen⟩ : ∃ c tr, netSteps (Cluster.plainPair.serving (ascii "k"))
      (fun x => .start (State.picked x)) [] setReadBack = some (c, tr) ∧
      history (ascii "k") tr = [.res (true, 1) (.value [7]), .inv (true, 1) .get,
        .res (true, 0) .done, .inv (true, 0) (.set [7])] := ⟨_, _, rfl, rfl⟩
  have hrun := NetRun.steps_of_step (N := Cluster.plainPair.Serving (ascii "k") True)
    Cluster.serving_of_step .start hsteps
  exact ⟨c, tr, hrun, hseen, key_linearizable oneMembership_plainPair (fun _ => ⟨rfl, rfl, rfl⟩)
    State.fresh_picked hrun⟩

end Locache
