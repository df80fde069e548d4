import Locache.Conc.Network
import Locache.Group.Near

/-!
# A cluster of nodes

The nodes of a cluster reach each other by remote calls. A request is served by the node at the
address it was sent to, in a goroutine of its own, at any time after it was sent, and a successful
reply is the reply of such a goroutine; a call may also fail at any time and for any reason
(`Cluster.admits`). Everything else a node does is up to the node.
-/

namespace Locache

open Conc

/-- The nodes of a cluster, each with its own address. -/
structure Cluster (ι : Type) where
  cfg : ι → Cfg
  addr : ι → GoString
  addr_injective : Function.Injective addr

/-- A request under way. -/
structure Sent where
  thread : Nat
  addr : GoString
  req : Req
  id : Nat

/-- The request that is sent in a step. -/
def sentIn {g : Cfg} : Label (node g) → Option Sent
  | .act t ⟨.rpcStart addr req, _, id⟩ => some ⟨t, addr, req, id⟩
  | _ => none

/-- The goroutine that is started to serve a request. -/
def startedIn {g : Cfg} (src : GoString × Nat) (req : Req) : Label (node g) → Option Nat
  | .spawn s (.serve src' req') => if src' = src ∧ req' = req then some s else none
  | _ => none

/-- The goroutine `s` ends with the reply `resp`. -/
def repliesIn {g : Cfg} (s : Nat) (resp : Resp) : Label (node g) → Bool
  | .ret s' (.ok (.reply (.ok resp'))) => s' = s && resp' = resp
  | _ => false

namespace Cluster

variable {ι : Type} {C : Cluster ι}

abbrev machine (C : Cluster ι) (a : ι) : Machine groupSig := node (C.cfg a)

/-- A trace of the cluster. -/
abbrev Log (C : Cluster ι) := List (NetLabel C.machine)

/-- The request was sent to node `b`. -/
def wasSent (C : Cluster ι) (tr : C.Log) (src : GoString × Nat) (b : ι) (req : Req) : Bool :=
  tr.any fun x => C.addr x.1 = src.1 && (sentIn x.2).any fun s =>
    s.addr = C.addr b && s.req = req && s.id = src.2

/-- The request was served at the address, with the reply `resp`. -/
def wasServed (C : Cluster ι) (tr : C.Log) (src : GoString × Nat) (addr : GoString) (req : Req)
    (resp : Resp) : Bool :=
  tr.any fun x => C.addr x.1 = addr && (startedIn src req x.2).any fun s =>
    tr.any fun y => C.addr y.1 = addr && repliesIn s resp y.2

/-- The steps the network admits. -/
def admits (C : Cluster ι) (tr : C.Log) (a : ι) : Label (C.machine a) → Bool
  | .spawn _ (.serve src req) => C.wasSent tr src a req
  | .act t ⟨.rpcEnd id, _, .ok resp⟩ =>
    tr.all fun x => (sentIn x.2).all fun s =>
      !(C.addr x.1 = C.addr a && s.thread = t && s.id = id) ||
        C.wasServed tr (C.addr a, id) s.addr s.req resp
  | _ => true

/-- The network as a condition on steps. -/
def Network (C : Cluster ι) : NetGuard C.machine := fun tr a _ ℓ _ => C.admits tr a ℓ = true

theorem sentIn_eq_some {g : Cfg} {ℓ : Label (node g)} {s : Sent} (h : sentIn ℓ = some s) :
    ∃ i, ℓ = .act s.thread ⟨.rpcStart s.addr s.req, i, s.id⟩ := by
  unfold sentIn at h
  split at h
  · cases h
    exact ⟨_, rfl⟩
  · cases h

theorem startedIn_eq_some {g : Cfg} {ℓ : Label (node g)} {src : GoString × Nat} {req : Req}
    {s : Nat} (h : startedIn src req ℓ = some s) : ℓ = .spawn s (.serve src req) := by
  unfold startedIn at h
  split at h
  · split at h
    · next heq =>
      obtain ⟨rfl, rfl⟩ := heq
      cases h
      rfl
    · cases h
  · cases h

theorem repliesIn_eq_true {g : Cfg} {ℓ : Label (node g)} {s : Nat} {resp : Resp}
    (h : repliesIn s resp ℓ = true) : ℓ = .ret s (.ok (.reply (.ok resp))) := by
  unfold repliesIn at h
  split at h
  · simp only [Bool.and_eq_true, decide_eq_true_eq] at h
    obtain ⟨rfl, rfl⟩ := h
    rfl
  · cases h

/-- A request that was sent was sent by a goroutine of the node it names. -/
theorem exists_of_wasSent {tr : C.Log} {src : GoString × Nat} {b : ι} {req : Req}
    (h : C.wasSent tr src b req = true) :
    ∃ a t i, C.addr a = src.1 ∧ ⟨a, .act t ⟨.rpcStart (C.addr b) req, i, src.2⟩⟩ ∈ tr := by
  obtain ⟨⟨a, ℓ⟩, hm, hx⟩ := List.any_eq_true.1 h
  simp only [Bool.and_eq_true, decide_eq_true_eq] at hx
  obtain ⟨haddr, hsent⟩ := hx
  obtain ⟨s, hs, heq⟩ := (Option.any_eq_true _ _).1 hsent
  simp only [Bool.and_eq_true, decide_eq_true_eq] at heq
  obtain ⟨⟨h₁, h₂⟩, h₃⟩ := heq
  obtain ⟨i, rfl⟩ := sentIn_eq_some hs
  exact ⟨a, s.thread, i, haddr, by rw [← h₁, ← h₂, ← h₃]; exact hm⟩

/-- A request that was served was served by a goroutine of the node it was sent to. -/
theorem exists_of_wasServed {tr : C.Log} {src : GoString × Nat} {addr : GoString} {req : Req}
    {resp : Resp} (h : C.wasServed tr src addr req resp = true) :
    ∃ b s, C.addr b = addr ∧ ⟨b, .spawn s (.serve src req)⟩ ∈ tr ∧
      ⟨b, .ret s (.ok (.reply (.ok resp)))⟩ ∈ tr := by
  obtain ⟨⟨b, ℓ⟩, hm, hx⟩ := List.any_eq_true.1 h
  simp only [Bool.and_eq_true, decide_eq_true_eq] at hx
  obtain ⟨haddr, hstarted⟩ := hx
  obtain ⟨s, hs, hany⟩ := (Option.any_eq_true _ _).1 hstarted
  obtain ⟨⟨b', ℓ'⟩, hm', hy⟩ := List.any_eq_true.1 hany
  simp only [Bool.and_eq_true, decide_eq_true_eq] at hy
  obtain rfl := startedIn_eq_some hs
  obtain rfl : b' = b := C.addr_injective (hy.1.trans haddr.symm)
  obtain rfl := repliesIn_eq_true hy.2
  exact ⟨b', s, haddr, hm, hm'⟩

section Runs

variable [DecidableEq ι] {N : NetGuard C.machine} {σ : ι → State} {c : ∀ a, Config (C.machine a)}
  {tr : C.Log} {a : ι}

/-- What a node does in a cluster is a run of the node. -/
theorem run_node (h : NetRun N σ c tr) (a : ι) : Run Free (σ a) (c a) (localTrace a tr) :=
  h.node fun _ _ _ _ _ => trivial

/-- Two actions of a goroutine, in the trace of the cluster. -/
theorem exists_call {t : Nat} {e₁ e₂ : Ev groupSig Inp}
    (hcall : [e₁, e₂].Sublist (hist (localTrace a tr) t)) :
    ∃ A B, tr = A ++ ⟨a, .act t e₁⟩ :: B ∧ ⟨a, .act t e₂⟩ ∈ B := by
  obtain ⟨r₁, r₂, hr, h₁, h₂⟩ := List.cons_sublist_iff.1 hcall
  obtain ⟨X, Y, rfl⟩ := List.append_of_mem h₁
  have hsplit : hist (localTrace a tr) t = X ++ e₁ :: (Y ++ r₂) := by
    rw [hr]
    simp
  obtain ⟨A', B', htr', -, hB'⟩ := exists_of_hist_append hsplit
  obtain ⟨A, B, rfl, -, hB⟩ := exists_of_localTrace_append htr'
  refine ⟨A, B, rfl, ?_⟩
  rw [← mem_localTrace, hB, ← mem_hist, hB']
  exact List.mem_append_right _ (h₂.subset (List.mem_singleton_self _))

variable (hN : ∀ tr a s ℓ s', N tr a s ℓ s' → C.admits tr a ℓ = true)

include hN

/-- **A successful call was served.** -/
theorem served (h : NetRun N σ c tr) {t id : Nat} {addr : GoString} {req : Req} {resp : Resp}
    {i j : Inp} (hcall : [(⟨.rpcEnd id, j, .ok resp⟩ : Ev groupSig Inp),
      ⟨.rpcStart addr req, i, id⟩].Sublist (hist (localTrace a tr) t)) :
    ∃ A B b s, tr = A ++ ⟨a, .act t ⟨.rpcEnd id, j, .ok resp⟩⟩ :: B ∧ C.addr b = addr ∧
      ⟨b, .spawn s (.serve (C.addr a, id) req)⟩ ∈ B ∧
      ⟨b, .ret s (.ok (.reply (.ok resp)))⟩ ∈ B := by
  obtain ⟨A, B, rfl, hstart⟩ := exists_call hcall
  obtain ⟨c₁, cmd, c', -, -, hguard⟩ := h.split
  have hadmit := List.all_eq_true.1 (hN _ _ _ _ _ hguard) _ hstart
  simp only [sentIn, Option.all_some, decide_true, Bool.and_self, Bool.not_true,
    Bool.false_or] at hadmit
  obtain ⟨b, s, haddr, hspawn, hret⟩ := exists_of_wasServed hadmit
  exact ⟨A, B, b, s, rfl, haddr, hspawn, hret⟩

/-- A call to the owner of a key that succeeded was served by the owner. -/
theorem owner_served (h₀ : ∀ a, (σ a).Fresh) (h : NetRun N σ c tr) {u : Nat} {k : GoString}
    {p : Pick} {req : Req} {resp : Resp}
    (hcall : Called k p req resp (hist (localTrace a tr) u)) :
    ∃ b s id, C.addr b = p.owner ∧ ⟨b, .spawn s (.serve (C.addr a, id) req)⟩ ∈ tr ∧
      ⟨b, .ret s (.ok (.reply (.ok resp)))⟩ ∈ tr := by
  obtain ⟨i, hroute⟩ := hcall.route_mem
  obtain ⟨cl, id, i₁, i₂, i₃, hpeer, hsub⟩ := hcall
  have haddr : cl.addr = p.owner :=
    (Run.memberships (h₀ a) (run_node h a)).peer_addr (mem_hist.1 hroute) hpeer
  have htwo : [(⟨.rpcEnd id, i₃, .ok resp⟩ : Ev groupSig Inp),
      ⟨.rpcStart cl.addr req, i₂, id⟩].Sublist (hist (localTrace a tr) u) :=
    .trans (by simp) hsub
  obtain ⟨A, B, b, s, rfl, hb, hspawn, hret⟩ := served hN h htwo
  refine ⟨b, s, id, hb.trans haddr, ?_, ?_⟩
  · exact List.mem_append_right _ (List.mem_cons_of_mem _ hspawn)
  · exact List.mem_append_right _ (List.mem_cons_of_mem _ hret)

/-- A request is served only after it was sent. -/
theorem sent_of_spawn (h : NetRun N σ c tr) {s : Nat} {src : GoString × Nat} {req : Req}
    (hs : ⟨a, .spawn s (.serve src req)⟩ ∈ tr) :
    ∃ b t i, C.addr b = src.1 ∧ ⟨b, .act t ⟨.rpcStart (C.addr a) req, i, src.2⟩⟩ ∈ tr := by
  obtain ⟨A, B, rfl⟩ := List.append_of_mem hs
  obtain ⟨c₁, cmd, c', -, -, hguard⟩ := h.split
  obtain ⟨b, t, i, haddr, hm⟩ := exists_of_wasSent (hN _ _ _ _ _ hguard)
  exact ⟨b, t, i, haddr, List.mem_append_right _ (List.mem_cons_of_mem _ hm)⟩

end Runs

/-! ## A small cluster

Two nodes with near caches; the node `b` owns every key. -/

def pair : Cluster Bool where
  cfg := fun _ => Cfg.pairNear
  addr := fun x => if x then ascii "a" else ascii "b"
  addr_injective := by intro x y; revert x y; decide

end Cluster

/-- What the picker of node `b` answers. -/
def Topology.home : Topology where
  epoch := 1
  pick := fun _ => ⟨ascii "b", .nil, true, 1, true⟩
  clients := [⟨ascii "a"⟩]
  pick_epoch := fun _ => rfl
  pick_addr := fun _ _ h => by cases h

def State.two : Bool → State
  | true => State.guest
  | false => .new (.newLRU 0) (.newLRU 0) .home 0

theorem State.fresh_two (x : Bool) : (State.two x).Fresh := by
  cases x with
  | true => exact State.fresh_guest
  | false => exact State.fresh_new 0 0 (by decide) 0

/-- An action at time zero; a Getter call returns `b`, and so does the owner. -/
def Inp.both (b : Bytes) : Inp := { Inp.fetch b with reply := .ok ⟨b, false⟩ }

end Locache
