import Locache.Group.Errors
import Locache.Group.Outcomes

/-!
# Calls under one membership

A group without a Getter and without a near cache is a map that the nodes share. While the picker
keeps to one membership and no owner refuses a request, a call on a key reaches the owner's cache
once: in a lookup or a critical section on the node itself, or by one request to the owner
(`Direct`). What the call returns is what it got there, and what a node replies to a request is what
it did itself (`Took`).
-/

namespace Locache

open Conc Prog

/-! ## Calls on one key -/

inductive KeyCall where
  | get
  | set (value : Bytes)
  | delete
  deriving DecidableEq, Repr

inductive KeyRes where
  | value (b : Bytes)
  | miss
  | done
  deriving DecidableEq, Repr

/-- The calls of `Get`, `Set` and `Delete` on `key`. -/
def Call.onKey (key : GoString) : Call → Option KeyCall
  | .get k => if k = key then some .get else none
  | .set k value => if k = key then some (.set value) else none
  | .delete k => if k = key then some .delete else none
  | _ => none

/-- The requests to the owner of `key`. -/
def Req.onKey (key : GoString) : Req → Option KeyCall
  | .get _ k => if k = key then some .get else none
  | .set _ k value => if k = key then some (.set value) else none
  | .delete _ k => if k = key then some .delete else none
  | .invalidate _ _ => none

/-- What a caller learns. An error other than a miss does not tell whether the call took effect. -/
def answerOf : Except Panic Res → Option KeyRes
  | .ok (.view (.ok v)) => some (.value v.b)
  | .ok (.view (.error err)) => if err.is .cacheMiss then some .miss else none
  | .ok (.done none) => some .done
  | _ => none

/-- What a requester learns. -/
def KeyCall.replyOf : KeyCall → Except Err Resp → Option KeyRes
  | .get, .ok resp => some (.value resp.value)
  | .get, .error err => if err.code = .notFound then some .miss else none
  | _, .ok _ => some .done
  | _, .error _ => none

/-- What an action on the main cache does for a call on `key`. -/
def effectOn (key : GoString) : Ev groupSig Inp → Option (KeyCall × KeyRes)
  | ⟨.mainGet k, _, some v⟩ => if k = key then some (.get, .value v.b) else none
  | ⟨.mainGet k, _, none⟩ => if k = key then some (.get, .miss) else none
  | ⟨.setSection _ k value, _, _⟩ => if k = key then some (.set value, .done) else none
  | ⟨.deleteSection _ k, _, _⟩ => if k = key then some (.delete, .done) else none
  | _ => none

/-- The goroutine did on its node what the call asks for, with the result `r`. -/
def Effected (key : GoString) (c : KeyCall) (r : KeyRes) (h : History) : Prop :=
  ∃ e ∈ h, effectOn key e = some (c, r)

/-- The goroutine had the owner do it. -/
def Requested (key : GoString) (c : KeyCall) (r : KeyRes) (h : History) : Prop :=
  ∃ addr req id i j reply, req.onKey key = some c ∧ c.replyOf reply = some r ∧
    [(⟨.rpcEnd id, j, reply⟩ : Ev groupSig Inp), ⟨.rpcStart addr req, i, id⟩].Sublist h

section Mono

variable {key : GoString} {c : KeyCall} {r : KeyRes} {h h' : History}

theorem Effected.mono (he : Effected key c r h) (hs : h <:+ h') : Effected key c r h' := by
  obtain ⟨e, he, heq⟩ := he
  exact ⟨e, hs.subset he, heq⟩

theorem Requested.mono (hr : Requested key c r h) (hs : h <:+ h') : Requested key c r h' := by
  obtain ⟨addr, req, id, i, j, reply, h₁, h₂, hsub⟩ := hr
  exact ⟨addr, req, id, i, j, reply, h₁, h₂, hsub.trans hs.sublist⟩

end Mono

/-! ## One membership -/

/-- The error says that the node is not the owner. -/
def Err.disowns (err : Err) : Bool := err.is .notOwner || err.is .topologyChanged || err.is .noOwner

/-- An answer under the membership `T`: the picker names the owners of `T`, and an owner does not
refuse a request. -/
def Agreed (T : Topology) : Ev groupSig Inp → Prop
  | ⟨.pickOwner _ key, _, p⟩ => p = T.pick key
  | ⟨.invalidateTargets owner, _, cs⟩ => ∀ c ∈ cs, c.addr ≠ owner
  | ⟨.rpcEnd _, _, .error err⟩ => ∃ code msg, err = .status code msg ∧ code ≠ .failedPrecondition
  | _ => True

/-- The actions that reach the owner's cache, on the node itself or by a request. -/
def Op.reaches : Op → Bool
  | .mainGet _ | .setSection _ _ _ | .deleteSection _ _ | .rpcStart _ (.get _ _)
  | .rpcStart _ (.set _ _ _) | .rpcStart _ (.delete _ _) => true
  | _ => false

/-- Requests go to the owner of their key, requests to drop a copy go to the others, and nothing is
loaded. -/
def Op.Aimed (T : Topology) : Op → Prop
  | .loadCommit _ _ _ _ => False
  | .rpcStart addr (.get _ key) | .rpcStart addr (.set _ key _) | .rpcStart addr (.delete _ key) =>
    (T.pick key).self = false ∧ addr = (T.pick key).owner
  | .rpcStart addr (.invalidate _ key) => addr ≠ (T.pick key).owner
  | _ => True

/-- The owner's cache was not reached yet. -/
def Away (h : History) : Prop := ∀ e ∈ h, e.op.reaches = false

/-- The action reaches the owner's cache for the first time, or not at all. -/
structure Direct (T : Topology) (h : History) (o : Op) : Prop where
  once : o.reaches = true → Away h
  aimed : o.Aimed T

variable {g : Cfg} {T : Topology} {h : History} {key : GoString} {value : Bytes}

theorem Away.cons (ha : Away h) {o : Op} (ho : o.reaches = false) (i : Inp) (a : o.Ans) :
    Away (⟨o, i, a⟩ :: h) := List.forall_mem_cons.2 ⟨ho, ha⟩

/-- Most actions reach no cache and ask nothing of peers. -/
theorem direct_of_quiet {o : Op} (ho : o.reaches = false) (haim : o.Aimed T) : Direct T h o :=
  ⟨fun hr => absurd (ho.symm.trans hr) Bool.false_ne_true, haim⟩

/-! ## On the node -/

theorem invalidateNearKey_eq (hnear : g.nearCache = false) :
    Group.invalidateNearKey g key = Prog.ret () := by
  unfold Group.invalidateNearKey
  rw [hnear]
  rfl

theorem getNear_eq (hnear : g.nearCache = false) (p : Pick) :
    Group.getNear g key p = Prog.ret none := by
  unfold Group.getNear
  rw [hnear]
  rfl

section Local

variable (hp : g.peers = true)

include hp

theorem prepareLocalOwner_direct (ha : Away h) :
    (Group.prepareLocalOwner g key).FollowsOn (Agreed T) (Direct T) (fun h' r => Away h' ∧
      ((∃ e, r = .ok (.ok e)) ∨ ∃ err, r = .ok (.error err) ∧ err.is .cacheMiss = false ∧
        err.code = .unknown ∧ ¬(T.pick key).Own)) h := by
  unfold Group.prepareLocalOwner
  rw [hp]
  refine FollowsOn.op_bind (direct_of_quiet rfl trivial) fun i p hagreed => ?_
  obtain rfl : p = T.pick key := hagreed
  have ha₁ := ha.cons (o := .pickOwner .prepare key) rfl i (T.pick key)
  split
  · next hno =>
    refine FollowsOn.ret ⟨ha₁, Or.inr ⟨_, rfl, rfl, rfl, fun hown => ?_⟩⟩
    simp [hown.ok, hown.owner] at hno
  split
  · next hno =>
    refine FollowsOn.ret ⟨ha₁, Or.inr ⟨_, rfl, rfl, rfl, fun hown => ?_⟩⟩
    simp [hown.self] at hno
  · refine FollowsOn.op_bind (direct_of_quiet rfl trivial) fun j _ _ => ?_
    exact FollowsOn.ret ⟨ha₁.cons (o := .ownerEpoch _) rfl j (), Or.inl ⟨_, rfl⟩⟩

/-- What a local read found. -/
def LocalGot (T : Topology) (key : GoString) (h : History) : Except Err ByteView → Prop
  | .ok v => Effected key .get (.value v.b) h
  | .error err => (err.is .cacheMiss = true → Effected key .get .miss h) ∧
    ((T.pick key).Own → err.disowns = false) ∧ err.code = .unknown

theorem getLocal_direct (hget : g.getter = false) (ha : Away h) :
    (Group.getLocal g key).FollowsOn (Agreed T) (Direct T)
      (fun h' r => ∃ x, r = .ok x ∧ LocalGot T key h' x) h := by
  refine FollowsOn.op_bind (direct_of_quiet rfl trivial) fun i closed _ => ?_
  cases closed with
  | true => exact FollowsOn.ret ⟨_, rfl, (fun hm => by cases hm), fun _ => rfl, rfl⟩
  | false =>
    have ha₁ := ha.cons (o := .loadClosed) rfl i false
    change (Prog.bind (Group.prepareLocalOwner g key) _).FollowsOn _ _ _ _
    refine FollowsOn.bind (prepareLocalOwner_direct hp ha₁) (fun h₁ r _ hQ => ?_)
      fun h₁ e _ hQ => ?_
    · obtain ⟨ha₂, ⟨e, ⟨⟩⟩ | ⟨err, ⟨⟩, hmiss, hcode, hown⟩⟩ := hQ
      · refine FollowsOn.op_bind (direct_of_quiet rfl trivial) fun j s _ => ?_
        have ha₃ := ha₂.cons (o := .acquireKeyState key) rfl j s
        refine FollowsOn.recover_bind (Q := fun h' r => ∃ x, r = .ok x ∧ LocalGot T key h' x) ?_
          fun h₂ r hs hQ => ?_
        · refine FollowsOn.op_bind ⟨fun _ => ha₃, trivial⟩ fun l found _ => ?_
          cases found with
          | some v =>
            refine FollowsOn.op_bind (direct_of_quiet rfl trivial) fun m _ _ => ?_
            refine FollowsOn.ret ⟨_, rfl, ?_⟩
            exact ⟨⟨.mainGet key, l, some v⟩, by simp, by simp [effectOn]⟩
          | none =>
            refine FollowsOn.op_bind (direct_of_quiet rfl trivial) fun m _ _ => ?_
            rw [hget]
            refine FollowsOn.ret ⟨_, rfl, fun _ => ?_, fun _ => rfl, rfl⟩
            exact ⟨⟨.mainGet key, l, none⟩, by simp, by simp [effectOn]⟩
        · obtain ⟨x, rfl, hx⟩ := hQ
          refine FollowsOn.op_bind (direct_of_quiet rfl trivial) fun l _ _ => ?_
          refine FollowsOn.ret ⟨x, rfl, ?_⟩
          have hsuf := List.suffix_cons (⟨.releaseKeyState key s, l, ()⟩ : Ev groupSig Inp) h₂
          cases x with
          | ok v => exact Effected.mono hx hsuf
          | error err => exact ⟨fun hm => (hx.1 hm).mono hsuf, hx.2⟩
      · refine FollowsOn.ret ⟨_, rfl, fun hm => ?_, fun ho => absurd ho hown, hcode⟩
        rw [hmiss] at hm
        cases hm
    · obtain ⟨-, ⟨_, hr⟩ | ⟨_, hr, -⟩⟩ := hQ <;> cases hr

/-- What a local write did. -/
def LocalSet (T : Topology) (key : GoString) (value : Bytes) (h : History) : Option Err → Prop
  | none => Effected key (.set value) .done h
  | some err => ((T.pick key).Own → err.disowns = false) ∧ err.code = .unknown

theorem setLocal_direct (hnear : g.nearCache = false) (ha : Away h) :
    (Group.setLocal g key value).FollowsOn (Agreed T) (Direct T)
      (fun h' r => ∃ x, r = .ok x ∧ LocalSet T key value h' x) h := by
  refine FollowsOn.op_bind (direct_of_quiet rfl trivial) fun i closed _ => ?_
  cases closed with
  | true => exact FollowsOn.ret ⟨_, rfl, fun _ => rfl, rfl⟩
  | false =>
    have ha₁ := ha.cons (o := .loadClosed) rfl i false
    change (Prog.bind (Group.prepareLocalOwner g key) _).FollowsOn _ _ _ _
    refine FollowsOn.bind (prepareLocalOwner_direct hp ha₁) (fun h₁ r _ hQ => ?_)
      fun h₁ e _ hQ => ?_
    · obtain ⟨ha₂, ⟨e, ⟨⟩⟩ | ⟨err, ⟨⟩, -, hcode, hown⟩⟩ := hQ
      · refine FollowsOn.op_bind (direct_of_quiet rfl trivial) fun j s _ => ?_
        have ha₃ := ha₂.cons (o := .acquireKeyState key) rfl j s
        refine FollowsOn.op_bind ⟨fun _ => ha₃, trivial⟩ fun l _ _ => ?_
        simp only [invalidateNearKey_eq hnear]
        refine FollowsOn.op_bind (direct_of_quiet rfl trivial) fun m _ _ => ?_
        refine FollowsOn.ret ⟨_, rfl, ?_⟩
        exact ⟨⟨.setSection s key value, l, ()⟩, by simp, by simp [effectOn]⟩
      · rw [hp]
        exact FollowsOn.ret ⟨_, rfl, fun ho => absurd ho hown, hcode⟩
    · obtain ⟨-, ⟨_, hr⟩ | ⟨_, hr, -⟩⟩ := hQ <;> cases hr

omit hp in
theorem deleteLocal_direct (hnear : g.nearCache = false) (ha : Away h) :
    (Group.deleteLocal g key).FollowsOn (Agreed T) (Direct T)
      (fun h' r => ∃ b, r = .ok b ∧ Effected key .delete .done h') h := by
  refine FollowsOn.op_bind (direct_of_quiet rfl trivial) fun i s _ => ?_
  have ha₁ := ha.cons (o := .acquireKeyState key) rfl i s
  refine FollowsOn.op_bind ⟨fun _ => ha₁, trivial⟩ fun j b _ => ?_
  simp only [invalidateNearKey_eq hnear]
  refine FollowsOn.op_bind (direct_of_quiet rfl trivial) fun l _ _ => ?_
  refine FollowsOn.ret ⟨b, rfl, ?_⟩
  exact ⟨⟨.deleteSection s key, j, b⟩, by simp, by simp [effectOn]⟩

/-- What a deletion on the owner did. -/
def OwnerDeleted (T : Topology) (key : GoString) (h : History) : Except Err Bool → Prop
  | .ok _ => Effected key .delete .done h
  | .error err => ((T.pick key).Own → err.disowns = false) ∧ err.code = .unknown

theorem deleteOwnerLocal_direct (hnear : g.nearCache = false) (ha : Away h) :
    (Group.deleteOwnerLocal g key).FollowsOn (Agreed T) (Direct T)
      (fun h' r => ∃ x, r = .ok x ∧ OwnerDeleted T key h' x) h := by
  refine FollowsOn.op_bind (direct_of_quiet rfl trivial) fun i closed _ => ?_
  cases closed with
  | true => exact FollowsOn.ret ⟨_, rfl, fun _ => rfl, rfl⟩
  | false =>
    have ha₁ := ha.cons (o := .loadClosed) rfl i false
    change (Prog.bind (Group.prepareLocalOwner g key) _).FollowsOn _ _ _ _
    refine FollowsOn.bind (prepareLocalOwner_direct hp ha₁) (fun h₁ r _ hQ => ?_)
      fun h₁ e _ hQ => ?_
    · obtain ⟨ha₂, ⟨e, ⟨⟩⟩ | ⟨err, ⟨⟩, -, hcode, hown⟩⟩ := hQ
      · refine FollowsOn.bind (deleteLocal_direct hnear ha₂) (fun h₂ b _ hQ => ?_)
          fun h₂ e _ hQ => ?_
        · obtain ⟨_, -, he⟩ := hQ
          exact FollowsOn.ret ⟨_, rfl, he⟩
        · obtain ⟨_, hr, -⟩ := hQ
          cases hr
      · rw [hp]
        exact FollowsOn.ret ⟨_, rfl, fun ho => absurd ho hown, hcode⟩
    · obtain ⟨-, ⟨_, hr⟩ | ⟨_, hr, -⟩⟩ := hQ <;> cases hr

end Local

/-! ## Requests to the owner -/

/-- The call took effect, on the node itself if that is the owner, or at the owner. -/
def Took (T : Topology) (key : GoString) (c : KeyCall) (r : KeyRes) (h : History) : Prop :=
  (T.pick key).self = true ∧ Effected key c r h ∨ Requested key c r h

theorem Took.mono {c : KeyCall} {r : KeyRes} {h' : History} (ht : Took T key c r h)
    (hs : h <:+ h') : Took T key c r h' :=
  ht.imp (fun he => ⟨he.1, he.2.mono hs⟩) fun hr => hr.mono hs

/-- What a request to the owner brought: a response, or an error that does not refuse it. -/
def Replied (what : GoString) (cl : Client) (req : Req) (h : History) : Except Err Resp → Prop
  | .ok resp => ∃ id i j,
    [(⟨.rpcEnd id, j, .ok resp⟩ : Ev groupSig Inp), ⟨.rpcStart cl.addr req, i, id⟩].Sublist h
  | .error err => ∃ code msg id i j, code ≠ .failedPrecondition ∧
    err = .wrap (what ++ cl.addr ++ ascii ": ") (Client.classifyRPCError (.status code msg)) [] ∧
    [(⟨.rpcEnd id, j, .error (.status code msg)⟩ : Ev groupSig Inp),
      ⟨.rpcStart cl.addr req, i, id⟩].Sublist h

/-- A response tells the result of the call. -/
theorem Replied.took {what : GoString} {cl : Client} {req : Req} {c : KeyCall} {r : KeyRes}
    {resp : Resp} (hr : Replied what cl req h (.ok resp)) (hc : req.onKey key = some c)
    (hx : c.replyOf (.ok resp) = some r) : Took T key c r h := by
  obtain ⟨id, i, j, hsub⟩ := hr
  exact Or.inr ⟨_, _, _, _, _, _, hc, hx, hsub⟩

/-- Such an error does not have the requester try again. -/
theorem Replied.not_refused {what : GoString} {cl : Client} {req : Req} {err : Err}
    (hr : Replied what cl req h (.error err)) :
    (err.is .notOwner || err.is .topologyChanged) = false := by
  obtain ⟨code, msg, id, i, j, hcode, rfl, hsub⟩ := hr
  cases code with
  | failedPrecondition => exact absurd rfl hcode
  | _ => rfl

/-- It is a miss only if the owner missed. -/
theorem Replied.missed {what : GoString} {cl : Client} {req : Req} {err : Err}
    (hr : Replied what cl req h (.error err)) (hm : err.is .cacheMiss = true)
    (hc : req.onKey key = some .get) : Took T key .get .miss h := by
  obtain ⟨code, msg, id, i, j, hcode, rfl, hsub⟩ := hr
  cases code with
  | notFound => exact Or.inr ⟨_, _, _, _, _, _, hc, rfl, hsub⟩
  | _ => cases hm

theorem Client.call_direct {cl : Client} {what : GoString} {req : Req} (ha : Away h)
    (haim : (Op.rpcStart cl.addr req).Aimed T) :
    (Client.call (some cl) what req).FollowsOn (Agreed T) (Direct T)
      (fun h' r => ∃ x, r = .ok x ∧ Replied what cl req h' x) h := by
  refine FollowsOn.op_bind ⟨fun _ => ha, haim⟩ fun i id _ => ?_
  refine FollowsOn.op_bind (direct_of_quiet rfl trivial) fun j reply hreply => ?_
  cases reply with
  | ok resp => exact FollowsOn.ret ⟨_, rfl, id, i, j, by simp⟩
  | error err =>
    obtain ⟨code, msg, rfl, hcode⟩ := hreply
    exact FollowsOn.ret ⟨_, rfl, code, msg, id, i, j, hcode, rfl, by simp⟩

theorem Client.get_direct {cl : Client} (ha : Away h)
    (haim : (T.pick key).self = false ∧ cl.addr = (T.pick key).owner) :
    (Client.get (some cl) g.name key).FollowsOn (Agreed T) (Direct T) (fun h' r =>
      ∃ x, r = .ok (x.map Resp.value) ∧
        Replied (ascii "grpc get from ") cl (.get g.name key) h' x) h := by
  refine FollowsOn.bind (Client.call_direct ha haim) (fun h₁ x _ hQ => ?_) fun h₁ e _ hQ => ?_
  · obtain ⟨_, ⟨⟩, hx⟩ := hQ
    exact FollowsOn.ret ⟨_, rfl, hx⟩
  · obtain ⟨_, hr, -⟩ := hQ
    cases hr

theorem Client.set_direct {cl : Client} (ha : Away h)
    (haim : (T.pick key).self = false ∧ cl.addr = (T.pick key).owner) :
    (Client.set (some cl) g.name key value).FollowsOn (Agreed T) (Direct T) (fun h' r =>
      (r = .ok none ∧ Took T key (.set value) .done h') ∨ ∃ err, r = .ok (some err) ∧
        Replied (ascii "grpc set on ") cl (.set g.name key value) h' (.error err)) h := by
  refine FollowsOn.bind (Client.call_direct ha haim) (fun h₁ x _ hQ => ?_) fun h₁ e _ hQ => ?_
  · obtain ⟨_, ⟨⟩, hx⟩ := hQ
    cases x with
    | ok resp => exact FollowsOn.ret (Or.inl ⟨rfl, hx.took (by simp [Req.onKey]) rfl⟩)
    | error err => exact FollowsOn.ret (Or.inr ⟨err, rfl, hx⟩)
  · obtain ⟨_, hr, -⟩ := hQ
    cases hr

theorem Client.delete_direct {cl : Client} (ha : Away h)
    (haim : (T.pick key).self = false ∧ cl.addr = (T.pick key).owner) :
    (Client.delete (some cl) g.name key).FollowsOn (Agreed T) (Direct T) (fun h' r =>
      ∃ x, r = .ok (x.map Resp.removed) ∧
        Replied (ascii "grpc delete on ") cl (.delete g.name key) h' x) h := by
  refine FollowsOn.bind (Client.call_direct ha haim) (fun h₁ x _ hQ => ?_) fun h₁ e _ hQ => ?_
  · obtain ⟨_, ⟨⟩, hx⟩ := hQ
    exact FollowsOn.ret ⟨_, rfl, hx⟩
  · obtain ⟨_, hr, -⟩ := hQ
    cases hr

/-- What a read returned. -/
def Got (T : Topology) (key : GoString) (h : History) : Except Err ByteView → Prop
  | .ok v => Took T key .get (.value v.b) h
  | .error err => err.is .cacheMiss = true → Took T key .get .miss h

section Requester

variable (hp : g.peers = true) (hnear : g.nearCache = false)

theorem aimed_of_pick {cl : Client} (hself : ¬(T.pick key).self = true)
    (hpeer : (T.pick key).peer = .client (some cl)) :
    (T.pick key).self = false ∧ cl.addr = (T.pick key).owner :=
  ⟨Bool.eq_false_of_not_eq_true hself, T.pick_addr key cl hpeer⟩

theorem own_of_pick (hok : ¬(!(T.pick key).ok || decide ((T.pick key).owner = [])) = true)
    (hself : (T.pick key).self = true) : (T.pick key).Own := by
  simp only [Bool.or_eq_true, Bool.not_eq_true', decide_eq_true_eq, not_or,
    Bool.not_eq_false] at hok
  exact ⟨hok.1, hok.2, hself⟩

/-- The picker names the same owner again. -/
theorem same_pick {p : Pick} (hok : ¬(!p.ok || decide (p.owner = [])) = true) :
    (!p.ok || decide (p.owner ≠ p.owner) || decide (p.epoch ≠ p.epoch)) = false := by
  simp only [Bool.or_eq_true, Bool.not_eq_true', decide_eq_true_eq, not_or,
    Bool.not_eq_false] at hok
  simp [hok.1]

/-- An error that does not say that the node is not the owner ends the loop. -/
theorem not_retried {err : Err} (h : err.disowns = false) :
    (err.is .topologyChanged || err.is .notOwner) = false := by
  unfold Err.disowns at h
  simp only [Bool.or_eq_false_iff] at h ⊢
  exact ⟨h.1.2, h.1.1⟩

include hp hnear

theorem getAttempts_direct (hget : g.getter = false) (ha : Away h) (left : Nat) :
    (Group.getAttempts g key (left + 1)).FollowsOn (Agreed T) (Direct T)
      (fun h' r => ∀ x, r = .ok x → Got T key h' x) h := by
  refine FollowsOn.op_bind (direct_of_quiet rfl trivial) fun i p hagreed => ?_
  obtain rfl : p = T.pick key := hagreed
  have ha₁ := ha.cons (o := .pickOwner .route key) rfl i (T.pick key)
  split
  · refine FollowsOn.ret ?_
    rintro _ ⟨⟩ hm
    cases hm
  next hok =>
  split
  · next hself =>
    refine FollowsOn.bind (getLocal_direct hp hget ha₁) (fun h₁ x _ hQ => ?_) fun h₁ e _ hQ => ?_
    · obtain ⟨_, ⟨⟩, hx⟩ := hQ
      cases x with
      | ok v =>
        refine FollowsOn.ret ?_
        rintro _ ⟨⟩
        exact Or.inl ⟨hself, hx⟩
      | error err =>
        simp only [not_retried (hx.2.1 (own_of_pick hok hself)), Bool.false_eq_true, ↓reduceIte]
        refine FollowsOn.ret ?_
        rintro _ ⟨⟩ hm
        exact Or.inl ⟨hself, hx.1 hm⟩
    · obtain ⟨_, hr, -⟩ := hQ
      cases hr
  · next hself =>
    cases hpeer : (T.pick key).peer with
    | nil =>
      refine FollowsOn.ret ?_
      rintro _ ⟨⟩ hm
      cases hm
    | client c =>
      rw [getNear_eq hnear]
      cases c with
      | none =>
        intro _ x hx
        cases hx
      | some cl =>
        change (Prog.bind (Client.get (some cl) g.name key) _).FollowsOn _ _ _ _
        refine FollowsOn.bind (Client.get_direct ha₁ (aimed_of_pick hself hpeer))
          (fun h₁ x _ hQ => ?_) fun h₁ e _ hQ => ?_
        · obtain ⟨y, hy, hreplied⟩ := hQ
          cases hy
          cases y with
          | error err =>
            refine FollowsOn.op_bind (direct_of_quiet rfl trivial) fun j _ _ => ?_
            simp only [hreplied.not_refused, Bool.false_eq_true, ↓reduceIte]
            refine FollowsOn.ret ?_
            rintro _ ⟨⟩ hm
            exact (hreplied.missed hm (by simp [Req.onKey])).mono (List.suffix_cons _ _)
          | ok resp =>
            refine FollowsOn.op_bind (direct_of_quiet rfl trivial) fun j q hq => ?_
            obtain rfl : q = T.pick key := hq
            simp only [same_pick hok, Bool.eq_false_of_not_eq_true hself, hnear, Bool.or_self,
              Bool.false_eq_true, ↓reduceIte]
            refine FollowsOn.op_bind (direct_of_quiet rfl trivial) fun l _ _ => FollowsOn.ret ?_
            rintro _ ⟨⟩
            refine (hreplied.took (by simp [Req.onKey]) rfl).mono ?_
            exact (List.suffix_cons _ _).trans (List.suffix_cons _ _)
        · obtain ⟨_, hr, -⟩ := hQ
          cases hr

/-! ### What follows a mutation -/

omit hp hnear in
theorem startInvalidates_direct (cs : List Client) (hcs : ∀ c ∈ cs, c.addr ≠ (T.pick key).owner) :
    (Client.startInvalidates g.name key cs).FollowsOn (Agreed T) (Direct T)
      (fun _ _ => True) h := by
  induction cs generalizing h with
  | nil => exact FollowsOn.ret trivial
  | cons c cs ih =>
    obtain ⟨hc, hcs⟩ := List.forall_mem_cons.1 hcs
    refine FollowsOn.op_bind (direct_of_quiet rfl hc) fun i id _ => ?_
    exact FollowsOn.bind (ih hcs) (fun h₁ calls _ _ => FollowsOn.ret trivial) fun _ _ _ _ => trivial

omit hp hnear in
theorem waitInvalidates_direct (calls : List (Client × Nat)) :
    (Client.waitInvalidates calls).FollowsOn (Agreed T) (Direct T) (fun _ _ => True) h := by
  induction calls generalizing h with
  | nil => exact FollowsOn.ret trivial
  | cons x calls ih =>
    refine FollowsOn.op_bind (direct_of_quiet rfl trivial) fun i reply _ => ?_
    refine FollowsOn.bind ih (fun h₁ errs _ _ => ?_) fun _ _ _ _ => trivial
    cases reply <;> exact FollowsOn.ret trivial

theorem invalidateLocalCopies_direct :
    (Group.invalidateLocalCopies g key).FollowsOn (Agreed T) (Direct T) (fun _ _ => True) h := by
  unfold Group.invalidateLocalCopies
  rw [hp, invalidateNearKey_eq hnear]
  refine FollowsOn.op_bind (direct_of_quiet rfl trivial) fun i p _ => ?_
  split
  · exact FollowsOn.op_bind (direct_of_quiet rfl trivial) fun _ _ _ => FollowsOn.ret trivial
  · exact FollowsOn.ret trivial

omit hnear in
theorem invalidatePeerCopies_direct :
    (Group.invalidatePeerCopies g key (T.pick key).owner).FollowsOn (Agreed T) (Direct T)
      (fun _ _ => True) h := by
  unfold Group.invalidatePeerCopies
  rw [hp]
  refine FollowsOn.bind (Q := fun _ _ => True) ?_ (fun h₁ errs _ _ => ?_) fun _ _ _ _ => trivial
  · refine FollowsOn.op_bind (direct_of_quiet rfl trivial) fun i cs hcs => ?_
    refine FollowsOn.bind (startInvalidates_direct cs hcs) (fun h₁ calls _ _ => ?_)
      fun _ _ _ _ => trivial
    exact waitInvalidates_direct calls
  · split
    · exact FollowsOn.op_bind (direct_of_quiet rfl trivial) fun _ _ _ => FollowsOn.ret trivial
    · exact FollowsOn.ret trivial

theorem finishSet_direct (epoch : Nat) :
    (Group.finishSet g key value (T.pick key).owner epoch).FollowsOn (Agreed T) (Direct T)
      (fun _ _ => True) h := by
  refine FollowsOn.op_bind (direct_of_quiet rfl trivial) fun i _ _ => ?_
  refine FollowsOn.bind (invalidateLocalCopies_direct hp hnear) (fun h₁ _ _ _ => ?_)
    fun _ _ _ _ => trivial
  refine FollowsOn.bind (invalidatePeerCopies_direct hp) (fun h₂ _ _ _ => ?_)
    fun _ _ _ _ => trivial
  rw [hnear, Bool.and_false]
  exact FollowsOn.ret trivial

theorem finishDelete_direct :
    (Group.finishDelete g key (T.pick key).owner).FollowsOn (Agreed T) (Direct T)
      (fun _ _ => True) h := by
  refine FollowsOn.op_bind (direct_of_quiet rfl trivial) fun i _ _ => ?_
  refine FollowsOn.bind (invalidateLocalCopies_direct hp hnear) (fun h₁ _ _ _ => ?_)
    fun _ _ _ _ => trivial
  refine FollowsOn.bind (invalidatePeerCopies_direct hp) (fun h₂ _ _ _ => ?_)
    fun _ _ _ _ => trivial
  exact FollowsOn.ret trivial

omit hp hnear in
/-- Once a mutation has taken effect the loop is left. -/
theorem checkOwner_direct {c : KeyCall} {left : Nat} {finish retry : GoProg (Option Err)}
    (hok : ¬(!(T.pick key).ok || decide ((T.pick key).owner = [])) = true)
    (ht : Took T key c .done h)
    (hfinish : ∀ {h}, finish.FollowsOn (Agreed T) (Direct T) (fun _ _ => True) h) :
    (Group.checkOwner key (T.pick key) left finish retry).FollowsOn (Agreed T) (Direct T)
      (fun h' r => r = .ok none → Took T key c .done h') h := by
  refine FollowsOn.op_bind (direct_of_quiet rfl trivial) fun i q hq => ?_
  obtain rfl : q = T.pick key := hq
  have hsame := same_pick hok
  simp only [Bool.or_eq_false_iff, Bool.not_eq_false', decide_eq_false_iff_not, not_not] at hsame
  simp only [hsame.1.1, decide_true, Bool.and_self, ↓reduceIte]
  refine hfinish.mono (fun _ _ _ hJ => hJ) fun h' r hs _ _ => ht.mono ?_
  exact (List.suffix_cons _ _).trans hs

theorem setAttempts_direct (ha : Away h) (left : Nat) (owner : GoString) :
    (Group.setAttempts g key value (left + 1) owner).FollowsOn (Agreed T) (Direct T)
      (fun h' r => r = .ok none → Took T key (.set value) .done h') h := by
  refine FollowsOn.op_bind (direct_of_quiet rfl trivial) fun i p hagreed => ?_
  obtain rfl : p = T.pick key := hagreed
  have ha₁ := ha.cons (o := .pickOwner .route key) rfl i (T.pick key)
  split
  · exact FollowsOn.ret fun hr => by cases hr
  next hok =>
  split
  · next hself =>
    refine FollowsOn.bind (setLocal_direct hp hnear ha₁) (fun h₁ x _ hQ => ?_) fun h₁ e _ hQ => ?_
    · obtain ⟨_, ⟨⟩, hx⟩ := hQ
      cases x with
      | none => exact checkOwner_direct hok (Or.inl ⟨hself, hx⟩) (finishSet_direct hp hnear _)
      | some err =>
        simp only [not_retried (hx.1 (own_of_pick hok hself)), Bool.false_eq_true, ↓reduceIte]
        exact FollowsOn.ret fun hr => by cases hr
    · obtain ⟨_, hr, -⟩ := hQ
      cases hr
  · next hself =>
    cases hpeer : (T.pick key).peer with
    | nil => exact FollowsOn.ret fun hr => by cases hr
    | client c =>
      cases c with
      | none =>
        intro _ hx
        cases hx
      | some cl =>
        refine FollowsOn.bind (Client.set_direct ha₁ (aimed_of_pick hself hpeer))
          (fun h₁ x _ hQ => ?_) fun h₁ e _ hQ => ?_
        · rcases hQ with ⟨⟨⟩, ht⟩ | ⟨err, ⟨⟩, hreplied⟩
          · exact checkOwner_direct hok ht (finishSet_direct hp hnear _)
          · simp only [hreplied.not_refused, Bool.false_eq_true, ↓reduceIte]
            exact FollowsOn.ret fun hr => by cases hr
        · rcases hQ with ⟨hr, -⟩ | ⟨_, hr, -⟩ <;> cases hr

theorem deleteAttempts_direct (ha : Away h) (left : Nat) (owner : GoString) :
    (Group.deleteAttempts g key (left + 1) owner).FollowsOn (Agreed T) (Direct T)
      (fun h' r => r = .ok none → Took T key .delete .done h') h := by
  refine FollowsOn.op_bind (direct_of_quiet rfl trivial) fun i p hagreed => ?_
  obtain rfl : p = T.pick key := hagreed
  have ha₁ := ha.cons (o := .pickOwner .route key) rfl i (T.pick key)
  split
  · exact FollowsOn.ret fun hr => by cases hr
  next hok =>
  split
  · next hself =>
    refine FollowsOn.bind (deleteLocal_direct hnear ha₁) (fun h₁ x _ hQ => ?_) fun h₁ e _ hQ => ?_
    · obtain ⟨_, -, ht⟩ := hQ
      exact checkOwner_direct hok (Or.inl ⟨hself, ht⟩) (finishDelete_direct hp hnear)
    · obtain ⟨_, hr, -⟩ := hQ
      cases hr
  · next hself =>
    cases hpeer : (T.pick key).peer with
    | nil => exact FollowsOn.ret fun hr => by cases hr
    | client c =>
      cases c with
      | none =>
        intro _ hx
        cases hx
      | some cl =>
        refine FollowsOn.bind (Client.delete_direct ha₁ (aimed_of_pick hself hpeer))
          (fun h₁ x _ hQ => ?_) fun h₁ e _ hQ => ?_
        · obtain ⟨y, hy, hreplied⟩ := hQ
          cases hy
          cases y with
          | ok resp =>
            exact checkOwner_direct hok (hreplied.took (by simp [Req.onKey]) rfl)
              (finishDelete_direct hp hnear)
          | error err =>
            simp only [Except.map, hreplied.not_refused, Bool.false_eq_true,
              ↓reduceIte]
            exact FollowsOn.ret fun hr => by cases hr
        · obtain ⟨_, hr, -⟩ := hQ
          cases hr

end Requester

/-! ## Whole calls -/

/-- A reply tells what the node did, and an owner does not refuse. -/
structure Handled (T : Topology) (req : Req) (h : History) (reply : Except Err Resp) : Prop where
  effected : ∀ key c x, req.onKey key = some c → c.replyOf reply = some x → Effected key c x h
  accepted : (∀ key c, req.onKey key = some c → (T.pick key).Own) →
    ∀ err, reply = .error err → err.code ≠ .failedPrecondition

/-- What is known when a call has ended; a call that was answered took effect. -/
def DirectEnd (T : Topology) : Call → History → Except Panic Res → Prop
  | .serve _ req, h, r => ∀ reply, r = .ok (.reply reply) → Handled T req h reply
  | call, h, r => ∀ key c x, call.onKey key = some c → answerOf r = some x → Took T key c x h

theorem DirectEnd.took {call : Call} {r : Except Panic Res} {c : KeyCall} {x : KeyRes}
    (hend : DirectEnd T call h r) (hc : call.onKey key = some c) (hx : answerOf r = some x) :
    Took T key c x h := by
  cases call with
  | serve src req => cases hc
  | _ => exact hend key c x hc hx

/-- The code of a handler's error tells what the group's error said. -/
theorem code_mapGroupError {err : Err} (hcode : err.code = .unknown) :
    ((Server.mapGroupError err).code = .failedPrecondition → err.disowns = true) ∧
      ((Server.mapGroupError err).code = .notFound → err.is .cacheMiss = true) := by
  unfold Server.mapGroupError
  split
  · next hd => exact ⟨fun _ => hd, fun hn => by cases hn⟩
  · split
    · next hm => exact ⟨(fun hn => by cases hn), fun _ => hm⟩
    · split
      · exact ⟨(fun hn => by cases hn), fun hn => by cases hn⟩
      · rw [hcode]
        exact ⟨(fun hn => by cases hn), fun hn => by cases hn⟩

/-- A request is about one key. -/
theorem Req.onKey_unique {req : Req} {key' : GoString} {c c' : KeyCall}
    (h : req.onKey key = some c) (h' : req.onKey key' = some c') : key' = key ∧ c' = c := by
  cases req <;>
    simp only [onKey, Option.ite_none_right_eq_some, Option.some.injEq, reduceCtorEq] at h h'
  all_goals exact ⟨h'.1.symm.trans h.1, h'.2.symm.trans h.2⟩

theorem Handled.of_ok {req : Req} {c : KeyCall} {resp : Resp} (hc : req.onKey key = some c)
    (he : ∀ x, c.replyOf (.ok resp) = some x → Effected key c x h) :
    Handled T req h (.ok resp) := by
  refine ⟨fun key' c' x hc' hx => ?_, fun _ _ hr => by cases hr⟩
  obtain ⟨rfl, rfl⟩ := Req.onKey_unique hc hc'
  exact he x hx

theorem Handled.of_error {req : Req} {c : KeyCall} {err : Err} (hc : req.onKey key = some c)
    (hown : (T.pick key).Own → err.disowns = false) (hcode : err.code = .unknown)
    (hmiss : c = .get → err.is .cacheMiss = true → Effected key .get .miss h) :
    Handled T req h (.error (Server.mapGroupError err)) := by
  obtain ⟨hrefused, hnotFound⟩ := code_mapGroupError hcode
  refine ⟨fun key' c' x hc' hx => ?_, ?_⟩
  · obtain ⟨rfl, rfl⟩ := Req.onKey_unique hc hc'
    cases c' with
    | get =>
      simp only [KeyCall.replyOf, Option.ite_none_right_eq_some, Option.some.injEq] at hx
      obtain ⟨hn, rfl⟩ := hx
      exact hmiss rfl (hnotFound hn)
    | _ => cases hx
  · rintro hk _ ⟨⟩ hn
    have hd := hown (hk key c hc)
    rw [hrefused hn] at hd
    cases hd

section Node

variable (hp : g.peers = true) (hnear : g.nearCache = false)

include hp hnear

theorem get_direct (hget : g.getter = false) : (Group.get g key).FollowsOn (Agreed T) (Direct T)
    (fun h' r => ∀ x, r = .ok x → Got T key h' x) [] := by
  refine FollowsOn.op_bind (direct_of_quiet rfl trivial) fun i closed _ => ?_
  have ha : Away [⟨.loadClosed, i, closed⟩] := by simp [Away, Op.reaches]
  split
  · refine FollowsOn.ret ?_
    rintro _ ⟨⟩ hm
    cases hm
  split
  · refine FollowsOn.ret ?_
    rintro _ ⟨⟩ hm
    cases hm
  rw [hp]
  exact getAttempts_direct hp hnear hget ha 3

theorem set_direct : (Group.set g key value).FollowsOn (Agreed T) (Direct T)
    (fun h' r => r = .ok none → Took T key (.set value) .done h') [] := by
  refine FollowsOn.op_bind (direct_of_quiet rfl trivial) fun i closed _ => ?_
  have ha : Away [⟨.loadClosed, i, closed⟩] := by simp [Away, Op.reaches]
  split
  · exact FollowsOn.ret fun hr => by cases hr
  split
  · exact FollowsOn.ret fun hr => by cases hr
  split
  · exact FollowsOn.ret fun hr => by cases hr
  rw [hp]
  exact setAttempts_direct hp hnear ha 3 []

theorem delete_direct : (Group.delete g key).FollowsOn (Agreed T) (Direct T)
    (fun h' r => r = .ok none → Took T key .delete .done h') [] := by
  refine FollowsOn.op_bind (direct_of_quiet rfl trivial) fun i closed _ => ?_
  have ha : Away [⟨.loadClosed, i, closed⟩] := by simp [Away, Op.reaches]
  split
  · exact FollowsOn.ret fun hr => by cases hr
  split
  · exact FollowsOn.ret fun hr => by cases hr
  rw [hp]
  exact deleteAttempts_direct hp hnear ha 3 []

omit hp hnear in
theorem withGroup_direct {group : GoString} {req : Req} {handler : GoProg (Except Err Resp)}
    (hh : ∀ {h}, Away h → handler.FollowsOn (Agreed T) (Direct T)
      (fun h' r => ∀ reply, r = .ok reply → Handled T req h' reply) h) :
    (Server.withGroup group handler).FollowsOn (Agreed T) (Direct T)
      (fun h' r => ∀ reply, r = .ok reply → Handled T req h' reply) [] := by
  refine FollowsOn.op_bind (direct_of_quiet rfl trivial) fun i found _ => ?_
  cases found with
  | true => exact hh (by simp [Away, Op.reaches])
  | false =>
    refine FollowsOn.ret ?_
    rintro _ ⟨⟩
    refine ⟨fun key c x hc hx => ?_, ?_⟩
    · cases c <;> cases hx
    · rintro - _ ⟨⟩
      exact fun hcode => by cases hcode

theorem handle_direct (hget : g.getter = false) (req : Req) :
    (Server.handle g req).FollowsOn (Agreed T) (Direct T)
      (fun h' r => ∀ reply, r = .ok reply → Handled T req h' reply) [] := by
  cases req with
  | get group k =>
    refine withGroup_direct fun ha => ?_
    refine FollowsOn.bind (getLocal_direct hp hget ha) (fun h₁ x _ hQ => ?_) fun h₁ e _ hQ => ?_
    · obtain ⟨_, ⟨⟩, hx⟩ := hQ
      have hkey : (Req.get group k).onKey k = some .get := by simp [Req.onKey]
      cases x <;> refine FollowsOn.ret ?_ <;> rintro _ ⟨⟩
      · exact Handled.of_error hkey hx.2.1 hx.2.2 fun _ => hx.1
      · refine Handled.of_ok hkey ?_
        rintro _ ⟨⟩
        exact hx
    · obtain ⟨_, hr, -⟩ := hQ
      cases hr
  | set group k v =>
    refine withGroup_direct fun ha => ?_
    refine FollowsOn.bind (setLocal_direct hp hnear ha) (fun h₁ x _ hQ => ?_) fun h₁ e _ hQ => ?_
    · obtain ⟨_, ⟨⟩, hx⟩ := hQ
      have hkey : (Req.set group k v).onKey k = some (.set v) := by simp [Req.onKey]
      cases x <;> refine FollowsOn.ret ?_ <;> rintro _ ⟨⟩
      · refine Handled.of_ok hkey ?_
        rintro _ ⟨⟩
        exact hx
      · exact Handled.of_error hkey hx.1 hx.2 fun hc => by cases hc
    · obtain ⟨_, hr, -⟩ := hQ
      cases hr
  | delete group k =>
    refine withGroup_direct fun ha => ?_
    refine FollowsOn.bind (deleteOwnerLocal_direct hp hnear ha) (fun h₁ x _ hQ => ?_)
      fun h₁ e _ hQ => ?_
    · obtain ⟨_, ⟨⟩, hx⟩ := hQ
      have hkey : (Req.delete group k).onKey k = some .delete := by simp [Req.onKey]
      cases x <;> refine FollowsOn.ret ?_ <;> rintro _ ⟨⟩
      · exact Handled.of_error hkey hx.1 hx.2 fun hc => by cases hc
      · refine Handled.of_ok hkey ?_
        rintro _ ⟨⟩
        exact hx
    · obtain ⟨_, hr, -⟩ := hQ
      cases hr
  | invalidate group k =>
    refine withGroup_direct fun ha => ?_
    refine FollowsOn.bind (deleteLocal_direct hnear ha) (fun h₁ x _ hQ => ?_) fun h₁ e _ hQ => ?_
    · refine FollowsOn.ret ?_
      rintro _ ⟨⟩
      exact ⟨(fun key c x hc => by cases hc), fun _ _ hr => by cases hr⟩
    · obtain ⟨_, hr, -⟩ := hQ
      cases hr

omit hp hnear in
theorem clearMainFrom_direct (i n : Nat) :
    (Group.clearMainFrom i n).FollowsOn (Agreed T) (Direct T) (fun _ _ => True) h := by
  induction n generalizing i h with
  | zero => exact FollowsOn.ret trivial
  | succ n ih => exact FollowsOn.op_bind (direct_of_quiet rfl trivial) fun _ _ _ => ih (i + 1)

omit hp in
theorem clear_direct :
    (Group.clear g).FollowsOn (Agreed T) (Direct T) (fun _ _ => True) h := by
  refine FollowsOn.op_bind (direct_of_quiet rfl trivial) fun i closed _ => ?_
  split
  · exact FollowsOn.ret trivial
  · rw [hnear]
    refine FollowsOn.bind (clearMainFrom_direct 0 _) (fun _ _ _ _ => ?_) fun _ _ _ _ => trivial
    exact FollowsOn.ret trivial

omit hp in
theorem close_direct :
    (Group.close g).FollowsOn (Agreed T) (Direct T) (fun _ _ => True) h := by
  refine FollowsOn.op_bind (direct_of_quiet rfl trivial) fun i won _ => ?_
  split
  · exact FollowsOn.ret trivial
  · rw [hnear]
    refine FollowsOn.op_bind (direct_of_quiet rfl trivial) fun _ _ _ => ?_
    exact FollowsOn.op_bind (direct_of_quiet rfl trivial) fun _ _ _ => FollowsOn.ret trivial

/-- **The program of every call reaches the owner once.** -/
theorem prog_direct (hget : g.getter = false) (call : Call) :
    (Node.prog g call).FollowsOn (Agreed T) (Direct T) (DirectEnd T call) [] := by
  cases call with
  | get k =>
    refine FollowsOn.bind (get_direct hp hnear hget) (fun h₁ x _ hQ => FollowsOn.ret ?_)
      fun h₁ e _ hQ => ?_
    · intro key c x' hc hx'
      obtain ⟨rfl, rfl⟩ : k = key ∧ KeyCall.get = c := by simpa [Call.onKey] using hc
      have hgot := hQ x rfl
      cases x with
      | ok v =>
        cases hx'
        exact hgot
      | error err =>
        simp only [answerOf, Option.ite_none_right_eq_some, Option.some.injEq] at hx'
        obtain ⟨hm, rfl⟩ := hx'
        exact hgot hm
    · intro key c x' _ hx'
      cases hx'
  | set k v =>
    refine FollowsOn.bind (set_direct hp hnear) (fun h₁ x _ hQ => FollowsOn.ret ?_)
      fun h₁ e _ hQ => ?_
    · intro key c x' hc hx'
      obtain ⟨rfl, rfl⟩ : k = key ∧ KeyCall.set v = c := by simpa [Call.onKey] using hc
      cases x with
      | none =>
        cases hx'
        exact hQ rfl
      | some err => cases hx'
    · intro key c x' _ hx'
      cases hx'
  | delete k =>
    refine FollowsOn.bind (delete_direct hp hnear) (fun h₁ x _ hQ => FollowsOn.ret ?_)
      fun h₁ e _ hQ => ?_
    · intro key c x' hc hx'
      obtain ⟨rfl, rfl⟩ : k = key ∧ KeyCall.delete = c := by simpa [Call.onKey] using hc
      cases x with
      | none =>
        cases hx'
        exact hQ rfl
      | some err => cases hx'
    · intro key c x' _ hx'
      cases hx'
  | clear =>
    refine FollowsOn.bind (clear_direct hnear) (fun h₁ x _ _ => FollowsOn.ret ?_)
      fun h₁ e _ _ => ?_
    · exact fun key c x' hc => by cases hc
    · exact fun key c x' hc => by cases hc
  | close =>
    refine FollowsOn.bind (close_direct hnear) (fun h₁ x _ _ => FollowsOn.ret ?_)
      fun h₁ e _ _ => ?_
    · exact fun key c x' hc => by cases hc
    · exact fun key c x' hc => by cases hc
  | serve src req =>
    refine FollowsOn.bind (handle_direct hp hnear hget req) (fun h₁ x _ hQ => FollowsOn.ret ?_)
      fun h₁ e _ _ => ?_
    · rintro reply ⟨⟩
      exact hQ _ rfl
    · intro reply hr
      cases hr

end Node

/-- What every program of such a node keeps to under the membership `T`. -/
def directProtocol (T : Topology) (hp : g.peers = true) (hnear : g.nearCache = false)
    (hget : g.getter = false) : Protocol (node g) where
  allows := fun _ h o => (∀ e ∈ h, Agreed T e) → Direct T h o
  ends := fun call h r => (∀ e ∈ h, Agreed T e) → DirectEnd T call h r
  follows := prog_direct hp hnear hget

/-! ## The numbers of remote calls -/

/-- A remote call takes the next number, and nothing else counts. -/
theorem nextRpc_of_exec {o : Op} {i : Inp} {a : o.Ans} {σ σ' : State}
    (h : Node.exec g o i σ = some (a, σ')) :
    (∃ addr req, (⟨o, i, a⟩ : Ev groupSig Inp) = ⟨.rpcStart addr req, i, σ.nextRpc⟩ ∧
      σ'.nextRpc = σ.nextRpc + 1) ∨
    (∀ addr req, o ≠ .rpcStart addr req) ∧ σ'.nextRpc = σ.nextRpc := by
  obtain ⟨-, σ₁, hact, rfl⟩ := exec_eq_some.1 h
  cases o with
  | rpcStart addr req =>
    cases hact
    exact Or.inl ⟨addr, req, rfl, rfl⟩
  | doEnter key =>
    obtain rfl : (Group.doEnter key σ).2 = σ₁ := congrArg Prod.snd (Option.some.inj hact)
    unfold Group.doEnter
    split <;> exact Or.inr ⟨(fun _ _ ho => by cases ho), rfl⟩
  | acquireKeyState key =>
    obtain rfl : (Group.acquireKeyState key σ).2 = σ₁ := congrArg Prod.snd (Option.some.inj hact)
    unfold Group.acquireKeyState
    split <;> exact Or.inr ⟨(fun _ _ ho => by cases ho), rfl⟩
  | ownerEpoch e =>
    cases hact
    unfold Group.checkOwnerEpoch
    split
    · exact Or.inr ⟨(fun _ _ ho => by cases ho), rfl⟩
    · split <;> exact Or.inr ⟨(fun _ _ ho => by cases ho), rfl⟩
  | loadBegin s key =>
    obtain rfl : (Group.loadBegin s key i.now σ).2 = σ₁ := congrArg Prod.snd (Option.some.inj hact)
    unfold Group.loadBegin
    dsimp only
    split <;> exact Or.inr ⟨(fun _ _ ho => by cases ho), rfl⟩
  | loadCommit s key n b =>
    obtain rfl : (Group.loadCommit g s key n b i σ).2 = σ₁ :=
      congrArg Prod.snd (Option.some.inj hact)
    unfold Group.loadCommit
    split
    · dsimp only
      split <;> exact Or.inr ⟨(fun _ _ ho => by cases ho), rfl⟩
    · exact Or.inr ⟨(fun _ _ ho => by cases ho), rfl⟩
  | doWait c =>
    simp only [Group.act, Option.map_eq_some_iff, Prod.mk.injEq] at hact
    obtain ⟨_, -, -, rfl⟩ := hact
    exact Or.inr ⟨(fun _ _ ho => by cases ho), rfl⟩
  | _ =>
    cases hact
    exact Or.inr ⟨(fun _ _ ho => by cases ho), rfl⟩

/-- The numbers of the remote calls of a node are all different. -/
structure Numbered (tr : Trace g) (σ : State) : Prop where
  below : ∀ t addr req i id, .act t ⟨.rpcStart addr req, i, id⟩ ∈ tr → id < σ.nextRpc
  unique : ∀ t t' addr addr' req req' i i' id, .act t ⟨.rpcStart addr req, i, id⟩ ∈ tr →
    .act t' ⟨.rpcStart addr' req', i', id⟩ ∈ tr → t = t' ∧ addr = addr' ∧ req = req'

/-- A step that sends nothing keeps the numbers. -/
theorem Numbered.frame {tr : Trace g} {σ σ' : State} (h : Numbered tr σ) {ℓ : Label (node g)}
    (hℓ : ∀ t addr req i id, ℓ ≠ .act t ⟨.rpcStart addr req, i, id⟩)
    (hn : σ'.nextRpc = σ.nextRpc) : Numbered (ℓ :: tr) σ' := by
  have hold : ∀ {t addr req i id}, .act t ⟨.rpcStart addr req, i, id⟩ ∈ ℓ :: tr →
      .act t ⟨.rpcStart addr req, i, id⟩ ∈ tr := fun hm =>
    (List.mem_cons.1 hm).resolve_left fun heq => hℓ _ _ _ _ _ heq.symm
  refine ⟨fun t addr req i id hm => ?_, fun t t' addr addr' req req' i i' id hm hm' => ?_⟩
  · rw [hn]
    exact h.below t addr req i id (hold hm)
  · exact h.unique t t' addr addr' req req' i i' id (hold hm) (hold hm')

theorem Run.numbered {G : Guard (node g)} {σ₀ : State} {c : Config (node g)} {tr : Trace g}
    (h : Run G σ₀ c tr) : Numbered tr c.state := by
  refine h.inv (P := protocol g) ⟨?_, ?_, ?_, ?_, ?_⟩
  · constructor <;> intros <;> contradiction
  · exact fun hI _ _ _ => hI.frame (fun _ _ _ _ _ heq => by cases heq) rfl
  · intro tr σ t call o i a σ' hI _ _ _ hx
    rcases nextRpc_of_exec hx with ⟨addr, req, heq, hn⟩ | ⟨ho, hn⟩
    · cases heq
      have hlt : ∀ {u addr' req' j}, .act u ⟨.rpcStart addr' req', j, σ.nextRpc⟩ ∈ tr → False :=
        fun hm => Nat.lt_irrefl _ (hI.below _ _ _ _ _ hm)
      refine ⟨fun u addr' req' j id hm => ?_, ?_⟩
      · rw [hn]
        rcases List.mem_cons.1 hm with heq | hm
        · cases heq
          exact Nat.lt_succ_self _
        · exact Nat.lt_succ_of_lt (hI.below u addr' req' j id hm)
      · intro u u' addr₁ addr₂ req₁ req₂ j j' id hm hm'
        rcases List.mem_cons.1 hm with heq | hm <;> rcases List.mem_cons.1 hm' with heq' | hm'
        · cases heq
          cases heq'
          exact ⟨rfl, rfl, rfl⟩
        · cases heq
          exact (hlt hm').elim
        · cases heq'
          exact (hlt hm).elim
        · exact hI.unique u u' addr₁ addr₂ req₁ req₂ j j' id hm hm'
    · refine hI.frame ?_ hn
      rintro _ addr req _ _ ⟨⟩
      exact ho addr req rfl
  · exact fun hI _ _ _ => hI.frame (fun _ _ _ _ _ heq => by cases heq) rfl
  · intro tr σ e σ' hI _ hx
    refine hI.frame (fun _ _ _ _ _ heq => by cases heq) ?_
    rcases env_cases hx with ⟨T, -, -, rfl⟩ | ⟨shard, order, now, -, -, rfl⟩ |
      ⟨shard, order, now, -, -, rfl⟩ <;> rfl

end Locache
