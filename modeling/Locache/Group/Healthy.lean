import Locache.Group.Direct
import Locache.Group.Requests

/-!
# Calls in a healthy cluster

While the group is open, the picker keeps to one membership in which every other member has a
client, and every remote call is answered (`Healthy`), a mutation meets no obstacle: `Set` and
`Delete` return nil, a read of another node's key returns a value, and so do the handlers of the
owner. Every request goes to the owner of its key, and every invalidation to a member (`Aims`).
-/

namespace Locache

open Conc Prog

/-- An answer of a healthy cluster with the membership `T`. -/
def Healthy (g : Cfg) (T : Topology) : Ev groupSig Inp → Prop
  | ⟨.loadClosed, _, closed⟩ => closed = false
  | ⟨.getGroup name, _, found⟩ => name = g.name → found = true
  | ⟨.pickOwner _ key, _, p⟩ => p = T.pick key
  | ⟨.invalidateTargets _, _, cs⟩ => ∀ c ∈ cs, c ∈ T.clients
  | ⟨.rpcEnd _, _, reply⟩ => ∃ resp, reply = .ok resp
  | _ => True

/-- Where requests are sent. -/
def Aims (g : Cfg) (T : Topology) (_ : History) : Op → Prop
  | .rpcStart addr (.get group key) | .rpcStart addr (.set group key _)
  | .rpcStart addr (.delete group key) => group = g.name ∧ key ≠ [] ∧ addr = (T.pick key).owner
  | .rpcStart addr (.invalidate group _) => group = g.name ∧ ∃ c ∈ T.clients, c.addr = addr
  | _ => True

/-- The picker knows an owner and how to reach it. -/
structure Pick.Reaches (p : Pick) : Prop where
  ok : p.ok = true
  owner : p.owner ≠ []
  client : p.self = false → ∃ c, p.peer = .client (some c)

variable {g : Cfg} {T : Topology} {h : History} {key : GoString} {value : Bytes}

theorem Pick.Reaches.own {p : Pick} (hp : p.Reaches) (hself : p.self = true) : p.Own :=
  ⟨hp.ok, hp.owner, hself⟩

/-- A check for an owner that the picker passes. -/
theorem Pick.Reaches.found {p : Pick} (hp : p.Reaches) :
    (!p.ok || decide (p.owner = [])) = false := by
  simp [hp.ok, hp.owner]

/-- What a program without remote calls keeps to. -/
theorem Silent.aims {α : Type} {p : GoProg α} (hp : Silent p) :
    p.FollowsOn (Healthy g T) (Aims g T) (fun _ _ => True) h := by
  refine (hp h).mono (fun h' o _ ho _ => ?_) fun _ _ _ _ _ => trivial
  cases o with
  | rpcStart addr req => cases ho
  | _ => trivial

/-! ## On the node -/

theorem prepareLocalOwner_healthy (hown : (T.pick key).Own) :
    (Group.prepareLocalOwner g key).FollowsOn (Healthy g T) (Aims g T)
      (fun _ r => ∃ e, r = .ok (.ok e)) h := by
  unfold Group.prepareLocalOwner
  split
  · exact FollowsOn.ret ⟨0, rfl⟩
  · refine FollowsOn.op_bind trivial fun i p hp => ?_
    obtain rfl : p = T.pick key := hp
    simp only [hown.ok, hown.owner, hown.self, Bool.not_true, decide_false, Bool.or_false,
      Bool.false_eq_true, ↓reduceIte]
    exact FollowsOn.op_bind trivial fun _ _ _ => FollowsOn.ret ⟨_, rfl⟩

theorem invalidateNearKey_healthy :
    (Group.invalidateNearKey g key).FollowsOn (Healthy g T) (Aims g T)
      (fun _ r => r = .ok ()) h := by
  unfold Group.invalidateNearKey
  split
  · exact FollowsOn.ret rfl
  split
  · exact FollowsOn.op_bind trivial fun _ _ _ =>
      FollowsOn.op_bind trivial fun _ _ _ => FollowsOn.ret rfl
  · exact FollowsOn.ret rfl

theorem setLocal_healthy (hown : (T.pick key).Own) :
    (Group.setLocal g key value).FollowsOn (Healthy g T) (Aims g T)
      (fun _ r => r = .ok none) h := by
  refine FollowsOn.op_bind trivial fun i closed hclosed => ?_
  obtain rfl : closed = false := hclosed
  refine FollowsOn.bind (prepareLocalOwner_healthy hown) (fun h₁ r _ hr => ?_) fun h₁ e _ hr => ?_
  · obtain ⟨e, ⟨⟩⟩ := hr
    refine FollowsOn.op_bind trivial fun j s _ => FollowsOn.op_bind trivial fun l _ _ => ?_
    refine FollowsOn.bind invalidateNearKey_healthy (fun h₂ _ _ _ => ?_) fun h₂ e _ hr => ?_
    · exact FollowsOn.op_bind trivial fun _ _ _ => FollowsOn.ret rfl
    · cases hr
  · obtain ⟨e, hr⟩ := hr
    cases hr

theorem deleteLocal_healthy :
    (Group.deleteLocal g key).FollowsOn (Healthy g T) (Aims g T)
      (fun _ r => ∃ removed, r = .ok removed) h := by
  refine FollowsOn.op_bind trivial fun i s _ => FollowsOn.op_bind trivial fun j removed _ => ?_
  refine FollowsOn.bind invalidateNearKey_healthy (fun h₁ _ _ _ => ?_) fun h₁ e _ hr => ?_
  · exact FollowsOn.op_bind trivial fun _ _ _ => FollowsOn.ret ⟨removed, rfl⟩
  · cases hr

theorem deleteOwnerLocal_healthy (hown : (T.pick key).Own) :
    (Group.deleteOwnerLocal g key).FollowsOn (Healthy g T) (Aims g T)
      (fun _ r => ∃ removed, r = .ok (.ok removed)) h := by
  refine FollowsOn.op_bind trivial fun i closed hclosed => ?_
  obtain rfl : closed = false := hclosed
  refine FollowsOn.bind (prepareLocalOwner_healthy hown) (fun h₁ r _ hr => ?_) fun h₁ e _ hr => ?_
  · obtain ⟨e, ⟨⟩⟩ := hr
    refine FollowsOn.bind deleteLocal_healthy (fun h₂ removed _ _ => ?_) fun h₂ e _ hr => ?_
    · exact FollowsOn.ret ⟨removed, rfl⟩
    · obtain ⟨_, hr⟩ := hr
      cases hr
  · obtain ⟨e, hr⟩ := hr
    cases hr

theorem clear_silent : Silent (Group.clear g) := by
  have hmain : ∀ n i, Silent (Group.clearMainFrom i n) := by
    intro n
    induction n with
    | zero => exact fun _ => .ret _
    | succ n ih => exact fun i => Silent.op rfl fun _ => ih (i + 1)
  have hnear : ∀ n i, Silent (Group.clearNearFrom i n) := by
    intro n
    induction n with
    | zero => exact fun _ => .ret _
    | succ n ih => exact fun i => Silent.op rfl fun _ => ih (i + 1)
  refine Silent.op rfl fun closed => ?_
  split
  · exact .ret _
  refine Keeps.bind (hmain _ 0) fun _ => ?_
  split
  · exact hnear _ 0
  · exact .ret _

theorem close_silent : Silent (Group.close g) := by
  refine Silent.op rfl fun won => ?_
  split
  · exact .ret _
  refine Silent.op rfl fun _ => ?_
  split
  · exact Silent.op rfl fun _ => Silent.op rfl fun _ => .ret _
  · exact Silent.op rfl fun _ => .ret _

/-! ## What follows a mutation -/

theorem startInvalidates_healthy (cs : List Client) (hcs : ∀ c ∈ cs, c ∈ T.clients) :
    (Client.startInvalidates g.name key cs).FollowsOn (Healthy g T) (Aims g T)
      (fun _ r => ∃ calls, r = .ok calls) h := by
  induction cs generalizing h with
  | nil => exact FollowsOn.ret ⟨[], rfl⟩
  | cons c cs ih =>
    obtain ⟨hc, hcs⟩ := List.forall_mem_cons.1 hcs
    refine FollowsOn.op_bind ⟨rfl, c, hc, rfl⟩ fun i id _ => ?_
    refine FollowsOn.bind (ih hcs) (fun h₁ calls _ _ => FollowsOn.ret ⟨_, rfl⟩) fun h₁ e _ hr => ?_
    obtain ⟨_, hr⟩ := hr
    cases hr

theorem waitInvalidates_healthy (calls : List (Client × Nat)) :
    (Client.waitInvalidates calls).FollowsOn (Healthy g T) (Aims g T)
      (fun _ r => r = .ok []) h := by
  induction calls generalizing h with
  | nil => exact FollowsOn.ret rfl
  | cons x calls ih =>
    refine FollowsOn.op_bind trivial fun i reply hreply => ?_
    obtain ⟨resp, rfl⟩ := hreply
    refine FollowsOn.bind ih (fun h₁ errs _ hr => ?_) fun h₁ e _ hr => ?_
    · exact FollowsOn.ret hr
    · cases hr

theorem invalidatePeerCopies_healthy (owner : GoString) :
    (Group.invalidatePeerCopies g key owner).FollowsOn (Healthy g T) (Aims g T)
      (fun _ r => r = .ok ()) h := by
  unfold Group.invalidatePeerCopies
  split
  · exact FollowsOn.ret rfl
  refine FollowsOn.bind (Q := fun _ r => r = .ok []) ?_ (fun h₁ errs _ hr => ?_) fun h₁ e _ hr => ?_
  · refine FollowsOn.op_bind trivial fun i cs hcs => ?_
    refine FollowsOn.bind (startInvalidates_healthy cs hcs) (fun h₁ calls _ _ => ?_)
      fun h₁ e _ hr => ?_
    · exact waitInvalidates_healthy calls
    · obtain ⟨_, hr⟩ := hr
      cases hr
  · obtain rfl : errs = [] := Except.ok.inj hr
    exact FollowsOn.ret rfl
  · cases hr

theorem invalidateLocalCopies_healthy :
    (Group.invalidateLocalCopies g key).FollowsOn (Healthy g T) (Aims g T)
      (fun _ r => r = .ok ()) h := by
  unfold Group.invalidateLocalCopies
  split
  · refine FollowsOn.op_bind trivial fun i p _ => ?_
    split
    · exact FollowsOn.op_bind trivial fun _ _ _ => invalidateNearKey_healthy
    · exact invalidateNearKey_healthy
  · exact invalidateNearKey_healthy

theorem addNear_healthy {nearKey : GoString} {view : ByteView} :
    (Group.addNear g nearKey view).FollowsOn (Healthy g T) (Aims g T) (fun _ r => r = .ok ()) h :=
  FollowsOn.op_bind trivial fun _ _ _ => FollowsOn.op_bind trivial fun _ _ _ =>
    FollowsOn.op_bind trivial fun _ _ _ => FollowsOn.ret rfl

theorem finishSet_healthy (owner : GoString) (epoch : Nat) :
    (Group.finishSet g key value owner epoch).FollowsOn (Healthy g T) (Aims g T)
      (fun _ r => r = .ok none) h := by
  refine FollowsOn.op_bind trivial fun i _ _ => ?_
  refine FollowsOn.bind invalidateLocalCopies_healthy (fun h₁ _ _ _ => ?_) fun h₁ e _ hr => ?_
  · refine FollowsOn.bind (invalidatePeerCopies_healthy owner) (fun h₂ _ _ _ => ?_)
      fun h₂ e _ hr => ?_
    · split
      · refine FollowsOn.op_bind trivial fun j q _ => ?_
        split
        · refine FollowsOn.bind addNear_healthy (fun h₃ _ _ _ => ?_) fun h₃ e _ hr => ?_
          · exact FollowsOn.ret rfl
          · cases hr
        · exact FollowsOn.ret rfl
      · exact FollowsOn.ret rfl
    · cases hr
  · cases hr

theorem finishDelete_healthy (owner : GoString) :
    (Group.finishDelete g key owner).FollowsOn (Healthy g T) (Aims g T)
      (fun _ r => r = .ok none) h := by
  refine FollowsOn.op_bind trivial fun i _ _ => ?_
  refine FollowsOn.bind invalidateLocalCopies_healthy (fun h₁ _ _ _ => ?_) fun h₁ e _ hr => ?_
  · refine FollowsOn.bind (invalidatePeerCopies_healthy owner) (fun h₂ _ _ _ => ?_)
      fun h₂ e _ hr => ?_
    · exact FollowsOn.ret rfl
    · cases hr
  · cases hr

/-! ## Requests to the owner -/

theorem Client.call_healthy {cl : Client} {what : GoString} {req : Req}
    (haim : Aims g T h (.rpcStart cl.addr req)) :
    (Client.call (some cl) what req).FollowsOn (Healthy g T) (Aims g T)
      (fun _ r => ∃ resp, r = .ok (.ok resp)) h := by
  refine FollowsOn.op_bind haim fun i id _ => FollowsOn.op_bind trivial fun j reply hreply => ?_
  obtain ⟨resp, rfl⟩ := hreply
  exact FollowsOn.ret ⟨resp, rfl⟩

section Requester

variable (hkey : key ≠ []) (hreach : (T.pick key).Reaches)

include hreach

/-- The loop is left when the mutation was accepted. -/
theorem checkOwner_healthy {left : Nat} {finish retry : GoProg (Option Err)}
    (hfinish : ∀ {h}, finish.FollowsOn (Healthy g T) (Aims g T) (fun _ r => r = .ok none) h) :
    (Group.checkOwner key (T.pick key) left finish retry).FollowsOn (Healthy g T) (Aims g T)
      (fun _ r => r = .ok none) h := by
  refine FollowsOn.op_bind trivial fun i q hq => ?_
  obtain rfl : q = T.pick key := hq
  simp only [hreach.ok, decide_true, Bool.and_self, ↓reduceIte]
  exact hfinish

include hkey

theorem setAttempts_healthy (left : Nat) (owner : GoString) :
    (Group.setAttempts g key value (left + 1) owner).FollowsOn (Healthy g T) (Aims g T)
      (fun _ r => r = .ok none) h := by
  refine FollowsOn.op_bind trivial fun i p hp => ?_
  obtain rfl : p = T.pick key := hp
  simp only [hreach.found, Bool.false_eq_true, ↓reduceIte]
  split
  · next hself =>
    refine FollowsOn.bind (setLocal_healthy (hreach.own hself)) (fun h₁ x _ hr => ?_)
      fun h₁ e _ hr => ?_
    · obtain rfl : x = none := Except.ok.inj hr
      exact checkOwner_healthy hreach (finishSet_healthy _ _)
    · cases hr
  · next hself =>
    obtain ⟨cl, hcl⟩ := hreach.client (Bool.eq_false_of_not_eq_true hself)
    rw [hcl]
    refine FollowsOn.bind (Q := fun _ r => r = .ok none) ?_ (fun h₁ x _ hr => ?_)
      fun h₁ e _ hr => ?_
    · refine FollowsOn.bind (Client.call_healthy ⟨rfl, hkey, T.pick_addr key cl hcl⟩)
        (fun h₁ x _ hr => ?_) fun h₁ e _ hr => ?_
      · obtain ⟨resp, ⟨⟩⟩ := hr
        exact FollowsOn.ret rfl
      · obtain ⟨_, hr⟩ := hr
        cases hr
    · obtain rfl : x = none := Except.ok.inj hr
      exact checkOwner_healthy hreach (finishSet_healthy _ _)
    · cases hr

theorem deleteAttempts_healthy (left : Nat) (owner : GoString) :
    (Group.deleteAttempts g key (left + 1) owner).FollowsOn (Healthy g T) (Aims g T)
      (fun _ r => r = .ok none) h := by
  refine FollowsOn.op_bind trivial fun i p hp => ?_
  obtain rfl : p = T.pick key := hp
  simp only [hreach.found, Bool.false_eq_true, ↓reduceIte]
  split
  · refine FollowsOn.bind deleteLocal_healthy (fun h₁ x _ _ => ?_) fun h₁ e _ hr => ?_
    · exact checkOwner_healthy hreach (finishDelete_healthy _)
    · obtain ⟨_, hr⟩ := hr
      cases hr
  · next hself =>
    obtain ⟨cl, hcl⟩ := hreach.client (Bool.eq_false_of_not_eq_true hself)
    rw [hcl]
    refine FollowsOn.bind (Q := fun _ r => ∃ removed, r = .ok (.ok removed)) ?_
      (fun h₁ x _ hr => ?_) fun h₁ e _ hr => ?_
    · refine FollowsOn.bind (Client.call_healthy ⟨rfl, hkey, T.pick_addr key cl hcl⟩)
        (fun h₁ x _ hr => ?_) fun h₁ e _ hr => ?_
      · obtain ⟨resp, ⟨⟩⟩ := hr
        exact FollowsOn.ret ⟨_, rfl⟩
      · obtain ⟨_, hr⟩ := hr
        cases hr
    · obtain ⟨removed, ⟨⟩⟩ := hr
      exact checkOwner_healthy hreach (finishDelete_healthy _)
    · obtain ⟨_, hr⟩ := hr
      cases hr

omit hkey in
theorem getNear_healthy :
    (Group.getNear g key (T.pick key)).FollowsOn (Healthy g T) (Aims g T)
      (fun _ r => ∃ found, r = .ok found) h := by
  unfold Group.getNear
  split
  · exact FollowsOn.ret ⟨none, rfl⟩
  refine FollowsOn.op_bind trivial fun i found _ => ?_
  cases found with
  | none => exact FollowsOn.op_bind trivial fun _ _ _ => FollowsOn.ret ⟨none, rfl⟩
  | some view =>
    refine FollowsOn.op_bind trivial fun j q hq => ?_
    obtain rfl : q = T.pick key := hq
    simp only [hreach.ok, decide_true, Bool.and_self, ↓reduceIte]
    exact FollowsOn.op_bind trivial fun _ _ _ => FollowsOn.ret ⟨some view, rfl⟩

omit hkey in
/-- A read of the node's own key asks no peer. -/
theorem getAttempts_own (hself : (T.pick key).self = true) (left : Nat) :
    (Group.getAttempts g key left).FollowsOn (Healthy g T) (Aims g T) (fun _ _ => True) h := by
  induction left generalizing h with
  | zero => exact FollowsOn.ret trivial
  | succ left ih =>
    refine FollowsOn.op_bind trivial fun i p hp => ?_
    obtain rfl : p = T.pick key := hp
    simp only [hreach.found, hself, Bool.false_eq_true, ↓reduceIte]
    refine FollowsOn.bind getLocal_silent.aims (fun h₁ x _ _ => ?_) fun _ _ _ _ => trivial
    cases x with
    | ok view => exact FollowsOn.ret trivial
    | error err =>
      dsimp only
      split
      · exact ih
      · exact FollowsOn.ret trivial

/-- A read of a key that another node owns. -/
theorem getAttempts_healthy (hself : (T.pick key).self = false) (left : Nat) :
    (Group.getAttempts g key (left + 1)).FollowsOn (Healthy g T) (Aims g T)
      (fun _ r => Succeeded r) h := by
  refine FollowsOn.op_bind trivial fun i p hp => ?_
  obtain rfl : p = T.pick key := hp
  simp only [hreach.found, hself, Bool.false_eq_true, ↓reduceIte]
  obtain ⟨cl, hcl⟩ := hreach.client hself
  rw [hcl]
  refine FollowsOn.bind (getNear_healthy hreach) (fun h₁ found _ _ => ?_) fun h₁ e _ hr => ?_
  · cases found with
    | some view => exact FollowsOn.ret ⟨view, rfl⟩
    | none =>
      refine FollowsOn.bind (Q := fun _ r => ∃ bytes, r = .ok (.ok bytes)) ?_
        (fun h₁ x _ hr => ?_) fun h₁ e _ hr => ?_
      · refine FollowsOn.bind (Client.call_healthy ⟨rfl, hkey, T.pick_addr key cl hcl⟩)
          (fun h₁ x _ hr => ?_) fun h₁ e _ hr => ?_
        · obtain ⟨resp, ⟨⟩⟩ := hr
          exact FollowsOn.ret ⟨_, rfl⟩
        · obtain ⟨_, hr⟩ := hr
          cases hr
      · obtain ⟨bytes, ⟨⟩⟩ := hr
        refine FollowsOn.op_bind trivial fun j q hq => ?_
        obtain rfl : q = T.pick key := hq
        simp only [hreach.ok, hself, ne_eq, not_true_eq_false, decide_false, Bool.not_true,
          Bool.or_false, Bool.false_eq_true, ↓reduceIte]
        refine FollowsOn.op_bind trivial fun l _ _ => ?_
        split
        · refine FollowsOn.bind addNear_healthy (fun h₃ _ _ _ => ?_) fun h₃ e _ hr => ?_
          · exact FollowsOn.ret ⟨_, rfl⟩
          · cases hr
        · exact FollowsOn.ret ⟨_, rfl⟩
      · obtain ⟨_, hr⟩ := hr
        cases hr
  · obtain ⟨_, hr⟩ := hr
    cases hr

end Requester

/-! ## Whole calls -/

/-- How a call ends in a healthy cluster. -/
def HealthyEnd (g : Cfg) (T : Topology) : Call → Except Panic Res → Prop
  | .get key, r => key ≠ [] → (T.pick key).self = false → ∃ v, r = .ok (.view (.ok v))
  | .set key value, r => key ≠ [] → value ≠ [] → r = .ok (.done none)
  | .delete key, r => key ≠ [] → r = .ok (.done none)
  | .serve _ (.set group key _), r | .serve _ (.delete group key), r =>
    group = g.name → (T.pick key).Own → ∃ resp, r = .ok (.reply (.ok resp))
  | .serve _ (.invalidate group _), r => group = g.name → ∃ resp, r = .ok (.reply (.ok resp))
  | _, _ => True

section Calls

variable (hp : g.peers = true) (hreach : ∀ key, key ≠ [] → (T.pick key).Reaches)

include hp hreach

theorem get_healthy : (Group.get g key).FollowsOn (Healthy g T) (Aims g T)
    (fun _ r => key ≠ [] → (T.pick key).self = false → Succeeded r) h := by
  refine FollowsOn.op_bind trivial fun i closed hclosed => ?_
  obtain rfl : closed = false := hclosed
  simp only [Bool.false_eq_true, ↓reduceIte]
  split
  · next hkey => exact FollowsOn.ret fun hne => absurd hkey hne
  next hkey =>
  rw [hp]
  cases hself : (T.pick key).self with
  | true =>
    refine (getAttempts_own (hreach key hkey) hself 4).mono (fun _ _ _ hJ => hJ) ?_
    intro _ _ _ _ _ hremote
    cases hremote
  | false =>
    exact (getAttempts_healthy hkey (hreach key hkey) hself 3).mono (fun _ _ _ hJ => hJ)
      fun _ _ _ hr _ _ => hr

theorem set_healthy : (Group.set g key value).FollowsOn (Healthy g T) (Aims g T)
    (fun _ r => key ≠ [] → value ≠ [] → r = .ok none) h := by
  refine FollowsOn.op_bind trivial fun i closed hclosed => ?_
  obtain rfl : closed = false := hclosed
  simp only [Bool.false_eq_true, ↓reduceIte]
  split
  · next hkey => exact FollowsOn.ret fun hne => absurd hkey hne
  next hkey =>
  split
  · next hvalue => exact FollowsOn.ret fun _ hne => absurd hvalue hne
  rw [hp]
  exact (setAttempts_healthy hkey (hreach key hkey) 3 []).mono (fun _ _ _ hJ => hJ)
    fun _ _ _ hr _ _ => hr

theorem delete_healthy : (Group.delete g key).FollowsOn (Healthy g T) (Aims g T)
    (fun _ r => key ≠ [] → r = .ok none) h := by
  refine FollowsOn.op_bind trivial fun i closed hclosed => ?_
  obtain rfl : closed = false := hclosed
  simp only [Bool.false_eq_true, ↓reduceIte]
  split
  · next hkey => exact FollowsOn.ret fun hne => absurd hkey hne
  next hkey =>
  rw [hp]
  exact (deleteAttempts_healthy hkey (hreach key hkey) 3 []).mono (fun _ _ _ hJ => hJ)
    fun _ _ _ hr _ => hr

omit hp hreach in
theorem withGroup_healthy {group : GoString} {handler : GoProg (Except Err Resp)}
    (hh : ∀ {h}, handler.FollowsOn (Healthy g T) (Aims g T)
      (fun _ r => ∃ resp, r = .ok (.ok resp)) h) :
    (Server.withGroup group handler).FollowsOn (Healthy g T) (Aims g T)
      (fun _ r => group = g.name → ∃ resp, r = .ok (.ok resp)) h := by
  refine FollowsOn.op_bind trivial fun i found hfound => ?_
  cases found with
  | true => exact hh.mono (fun _ _ _ hJ => hJ) fun _ _ _ hr _ => hr
  | false => exact FollowsOn.ret fun hname => absurd (hfound hname) Bool.false_ne_true

omit hp hreach in
/-- What a handler replies is what its call returns. -/
theorem serve_healthy {src : GoString × Nat} {req : Req} {group : GoString}
    (hh : (Server.handle g req).FollowsOn (Healthy g T) (Aims g T)
      (fun _ r => group = g.name → ∃ resp, r = .ok (.ok resp)) h) :
    (Node.prog g (.serve src req)).FollowsOn (Healthy g T) (Aims g T)
      (fun _ r => group = g.name → ∃ resp, r = .ok (.reply (.ok resp))) h := by
  refine FollowsOn.bind hh (fun h₁ x _ hr => FollowsOn.ret fun hname => ?_)
    fun h₁ e _ hr hname => ?_
  · obtain ⟨resp, ⟨⟩⟩ := hr hname
    exact ⟨resp, rfl⟩
  · obtain ⟨resp, hr⟩ := hr hname
    cases hr

omit hp hreach in
theorem prog_serve_healthy (src : GoString × Nat) (req : Req) :
    (Node.prog g (.serve src req)).FollowsOn (Healthy g T) (Aims g T)
      (fun _ r => HealthyEnd g T (.serve src req) r) h := by
  -- a handler makes no request, so only its result is at stake
  have hsilent : Silent (Node.prog g (.serve src req)) :=
    Keeps.bind (handle_silent req) fun _ => .ret _
  cases req with
  | get group k => exact hsilent.aims
  | set group k v =>
    by_cases hown : (T.pick k).Own
    · refine (serve_healthy (withGroup_healthy ?_)).mono (fun _ _ _ hJ => hJ)
        fun _ _ _ hr hname _ => hr hname
      refine FollowsOn.bind (setLocal_healthy hown) (fun h₁ x _ hr => ?_) fun h₁ e _ hr => ?_
      · obtain rfl : x = none := Except.ok.inj hr
        exact FollowsOn.ret ⟨_, rfl⟩
      · cases hr
    · exact hsilent.aims.mono (fun _ _ _ hJ => hJ) fun _ _ _ _ _ ho => absurd ho hown
  | delete group k =>
    by_cases hown : (T.pick k).Own
    · refine (serve_healthy (withGroup_healthy ?_)).mono (fun _ _ _ hJ => hJ)
        fun _ _ _ hr hname _ => hr hname
      refine FollowsOn.bind (deleteOwnerLocal_healthy hown) (fun h₁ x _ hr => ?_)
        fun h₁ e _ hr => ?_
      · obtain ⟨removed, ⟨⟩⟩ := hr
        exact FollowsOn.ret ⟨_, rfl⟩
      · obtain ⟨_, hr⟩ := hr
        cases hr
    · exact hsilent.aims.mono (fun _ _ _ hJ => hJ) fun _ _ _ _ _ ho => absurd ho hown
  | invalidate group k =>
    refine serve_healthy (withGroup_healthy ?_)
    refine FollowsOn.bind deleteLocal_healthy (fun h₁ x _ _ => FollowsOn.ret ⟨_, rfl⟩)
      fun h₁ e _ hr => ?_
    obtain ⟨_, hr⟩ := hr
    cases hr

/-- **How every call ends in a healthy cluster**, and where it sends its requests. -/
theorem prog_healthy (call : Call) :
    (Node.prog g call).FollowsOn (Healthy g T) (Aims g T) (fun _ r => HealthyEnd g T call r) h := by
  -- without remote calls there is nothing to show
  have hsilent : ∀ {p : GoProg Res}, Silent p → HealthyEnd g T call = (fun _ => True) →
      p.FollowsOn (Healthy g T) (Aims g T) (fun _ r => HealthyEnd g T call r) h := by
    intro p hp hend
    rw [hend]
    exact hp.aims
  cases call with
  | get k =>
    refine FollowsOn.bind (get_healthy hp hreach) (fun h₁ x _ hr => FollowsOn.ret ?_)
      fun h₁ e _ hr => ?_
    · intro hkey hremote
      obtain ⟨v, ⟨⟩⟩ := hr hkey hremote
      exact ⟨v, rfl⟩
    · intro hkey hremote
      obtain ⟨v, hr⟩ := hr hkey hremote
      cases hr
  | set k v =>
    refine FollowsOn.bind (set_healthy hp hreach) (fun h₁ x _ hr => FollowsOn.ret ?_)
      fun h₁ e _ hr => ?_
    · intro hkey hvalue
      obtain rfl : x = none := Except.ok.inj (hr hkey hvalue)
      rfl
    · intro hkey hvalue
      cases hr hkey hvalue
  | delete k =>
    refine FollowsOn.bind (delete_healthy hp hreach) (fun h₁ x _ hr => FollowsOn.ret ?_)
      fun h₁ e _ hr => ?_
    · intro hkey
      obtain rfl : x = none := Except.ok.inj (hr hkey)
      rfl
    · intro hkey
      cases hr hkey
  | clear => exact hsilent (Keeps.bind clear_silent fun _ => .ret _) rfl
  | close => exact hsilent (Keeps.bind close_silent fun _ => .ret _) rfl
  | serve src req => exact prog_serve_healthy src req

end Calls

/-- What the programs of a node keep to in a healthy cluster. -/
def healthyProtocol (T : Topology) (hp : g.peers = true)
    (hreach : ∀ key, key ≠ [] → (T.pick key).Reaches) : Protocol (node g) where
  allows := fun _ h o => (∀ e ∈ h, Healthy g T e) → Aims g T h o
  ends := fun call h r => (∀ e ∈ h, Healthy g T e) → HealthyEnd g T call r
  follows := prog_healthy hp hreach

end Locache
