import Locache.Group.Mutation

/-!
# The owner's gate

With peers, a Getter call and an insertion into the main cache belong to an operation whose own
check found that the node owns the key, and a request whose check finds another owner is refused
without any effect. `Gate` says so of one action after the actions of its goroutine, and every
program of a node keeps to it (`gate`); `only_owner_loads_and_stores` says it of whole runs.
-/

namespace Locache

open Conc Prog

/-- The key and the answer of the last `PickOwner` in `prepareLocalOwner`. -/
def prepared : History → Option (GoString × Pick)
  | [] => none
  | ⟨.pickOwner .prepare key, _, p⟩ :: _ => some (key, p)
  | _ :: h => prepared h

/-- The last check named this node as the owner of `key`. -/
def Owned (key : GoString) (h : History) : Prop :=
  ∃ p, prepared h = some (key, p) ∧ p.self = true

namespace Op

/-- The key that only its owner may load or store by this action. -/
def owned? : Op → Option GoString
  | .getterStart key | .loadCommit _ key _ _ | .setSection _ key _ => some key
  | _ => none

def prepares : Op → Bool
  | .pickOwner .prepare _ => true
  | _ => false

/-- An action that only looks at the node. -/
def looks : Op → Bool
  | .getGroup _ | .loadClosed | .pickOwner _ _ => true
  | _ => false

/-- An action that `getLocal` and `setLocal` of `key` may perform after their check. -/
def Inside (key : GoString) (o : Op) : Prop := o.prepares = false ∧ ∀ k, o.owned? = some k → k = key

end Op

/-- A request that is for the owner: a Get, a Set or a Delete that is no invalidation. -/
def Call.forOwner : Call → Bool
  | .serve _ (.get _ _) | .serve _ (.set _ _ _) | .serve _ (.delete _ _) => true
  | _ => false

/-- The check of a request found that the node does not own the key. -/
def Refused (call : Call) (h : History) : Prop :=
  call.forOwner = true ∧ ∃ key p, prepared h = some (key, p) ∧ p.self = false

/-- What a goroutine that runs `call` and did `h` may do next. -/
structure Gate (call : Call) (h : History) (o : Op) : Prop where
  owned : ∀ key, o.owned? = some key → Owned key h
  open_ : ¬Refused call h
  first : call.forOwner = true → o.prepares = true → ∀ e ∈ h, e.op.looks = true

/-- The error is sent as `FailedPrecondition`. -/
def Err.Refuses (err : Err) : Prop :=
  Server.mapGroupError err = .status .failedPrecondition err.text

/-- How a call ends whose check failed. -/
def Refusal (call : Call) (h : History) (r : Except Panic Res) : Prop :=
  Refused call h → ∃ text, r = .ok (.reply (.error (.status .failedPrecondition text)))

variable {g : Cfg} {call : Call} {h : History} {key : GoString}

theorem prepared_cons {o : Op} (ho : o.prepares = false) (i : Inp) (a : o.Ans) :
    prepared (⟨o, i, a⟩ :: h) = prepared h := by
  cases o with
  | pickOwner site key =>
    cases site with
    | prepare => cases ho
    | _ => rfl
  | _ => rfl

theorem Owned.not_refused (ho : Owned key h) : ¬Refused call h := by
  rintro ⟨-, k, p, hp, hself⟩
  obtain ⟨q, hq, htrue⟩ := ho
  rw [hp] at hq
  cases hq
  rw [hself] at htrue
  cases htrue

theorem not_refused_of_local (hc : call.forOwner = false) : ¬Refused call h := by
  rintro ⟨hf, -⟩
  rw [hc] at hf
  cases hf

/-- What follows a check that succeeded. -/
theorem Follows.inside {α : Type} {p : GoProg α} {Q : History → Except Panic α → Prop}
    (hp : p.Follows (fun _ o => Op.Inside key o) Q h) (ho : Owned key h) :
    p.Follows (Gate call) (fun h' r => Q h' r ∧ Owned key h') h := by
  induction p generalizing h with
  | ret a => exact ⟨hp, ho⟩
  | raise e => exact ⟨hp, ho⟩
  | act o k ih =>
    obtain ⟨⟨hprep, hkey⟩, hrest⟩ := hp
    refine ⟨⟨?_, ho.not_refused, ?_⟩, ?_⟩
    · intro k hk
      rw [hkey k hk]
      exact ho
    · intro _ hp
      rw [hprep] at hp
      cases hp
    · intro i a
      apply ih a (hrest i a)
      obtain ⟨p, hp, hself⟩ := ho
      exact ⟨p, (prepared_cons hprep i a).trans hp, hself⟩

/-! ## The owner's side -/

namespace Op.Inside

theorem free {o : Op} (hp : o.prepares = false) (ho : o.owned? = none) : Op.Inside key o := by
  refine ⟨hp, ?_⟩
  intro k hk
  rw [ho] at hk
  cases hk

theorem own {o : Op} (hp : o.prepares = false) (ho : o.owned? = some key) : Op.Inside key o := by
  refine ⟨hp, ?_⟩
  intro k hk
  rw [ho] at hk
  exact (Option.some.inj hk).symm

end Op.Inside

/-- A part of an operation after its check. -/
abbrev Within (key : GoString) {α : Type} (p : GoProg α) : Prop :=
  p.Keeps fun (_ : History) o => Op.Inside key o

theorem Within.free {o : Op} {β : Type} {f : o.Ans → GoProg β} (hp : o.prepares = false)
    (ho : o.owned? = none) (hf : ∀ a, Within key (f a)) : Within key ((perform o).bind f) :=
  .op_bind (fun _ => .free hp ho) hf

theorem Within.own {o : Op} {β : Type} {f : o.Ans → GoProg β} (hp : o.prepares = false)
    (ho : o.owned? = some key) (hf : ∀ a, Within key (f a)) : Within key ((perform o).bind f) :=
  .op_bind (fun _ => .own hp ho) hf

theorem Within.rethrow {α : Type} (r : Except Panic α) : Within key (rethrow r : GoProg α) :=
  Keeps.rethrow (S := groupSig) r

theorem invalidateNearKey_within : Within key (Group.invalidateNearKey g key) := by
  unfold Group.invalidateNearKey
  split
  · exact .ret ()
  · split
    · exact Within.free rfl rfl fun e => Within.free rfl rfl fun _ => .ret ()
    · exact .ret ()

theorem stillOwner_within (epoch : Nat) : Within key (Group.stillOwner g key epoch) := by
  unfold Group.stillOwner
  split
  · exact .ret true
  · exact Within.free rfl rfl fun p => .ret _

theorem load_within (epoch state : Nat) : Within key (Group.load g key epoch state) := by
  unfold Group.load
  refine Within.free rfl rfl fun begin_ => ?_
  cases begin_ with
  | hit view => exact .ret _
  | generation start =>
    refine Within.free rfl rfl fun _ => Within.own rfl rfl fun id => ?_
    refine Within.free rfl rfl fun out => ?_
    refine .bind (Within.rethrow out) fun loaded => ?_
    cases loaded with
    | error err => exact Within.free rfl rfl fun _ => .ret _
    | ok bytes =>
      refine .bind (stillOwner_within epoch) fun still => ?_
      split
      · exact .ret _
      · refine Within.own rfl rfl fun commit => ?_
        cases commit <;> exact .ret _

theorem doFlight_within {fn : GoProg (Except Err ByteView)} (hfn : Within key fn) :
    Within key (doFlight key fn) := by
  unfold doFlight
  refine Within.free rfl rfl fun entry => ?_
  cases entry with
  | join c => exact Within.free rfl rfl fun r => Within.rethrow r
  | lead c =>
    refine .bind hfn.recover fun r => ?_
    exact Within.free rfl rfl fun _ => Within.free rfl rfl fun _ => Within.rethrow r

theorem getHeld_within (epoch state : Nat) : Within key (Group.getHeld g key epoch state) := by
  unfold Group.getHeld
  refine Within.free rfl rfl fun found => ?_
  cases found with
  | some view => exact Within.free rfl rfl fun _ => .ret _
  | none =>
    refine Within.free rfl rfl fun _ => ?_
    split
    · exact .ret _
    · refine .bind (doFlight_within (load_within epoch state)) fun r => ?_
      cases r <;> exact .ret _

theorem deleteLocal_within : Within key (Group.deleteLocal g key) := by
  unfold Group.deleteLocal
  refine Within.free rfl rfl fun s => Within.free rfl rfl fun removed => ?_
  refine .bind invalidateNearKey_within fun _ => ?_
  exact Within.free rfl rfl fun _ => .ret _

/-- Where a request may make its check. -/
structure Ready (call : Call) (h : History) : Prop where
  unchecked : call.forOwner = true → prepared h = none
  looks : call.forOwner = true → ∀ e ∈ h, e.op.looks = true

theorem Ready.of_local (hc : call.forOwner = false) : Ready call h := by
  refine ⟨?_, ?_⟩
  · intro hf
    rw [hc] at hf
    cases hf
  · intro hf
    rw [hc] at hf
    cases hf

theorem Ready.not_refused (hr : Ready call h) : ¬Refused call h := by
  rintro ⟨hf, k, p, hp, -⟩
  rw [hr.unchecked hf] at hp
  cases hp

theorem Ready.cons (hr : Ready call h) {o : Op} (hprep : o.prepares = false)
    (hlooks : o.looks = true) (i : Inp) (a : o.Ans) : Ready call (⟨o, i, a⟩ :: h) := by
  refine ⟨?_, ?_⟩
  · intro hf
    rw [prepared_cons hprep]
    exact hr.unchecked hf
  · intro hf
    exact List.forall_mem_cons.2 ⟨hlooks, hr.looks hf⟩

/-- An action that needs no check, where none has failed. -/
theorem Gate.free {o : Op} (hr : ¬Refused call h) (hprep : o.prepares = false)
    (ho : o.owned? = none) : Gate call h o := by
  refine ⟨?_, hr, ?_⟩
  · intro k hk
    rw [ho] at hk
    cases hk
  · intro _ hp
    rw [hprep] at hp
    cases hp

theorem refuses_noOwner : Err.Refuses (.sentinel .noOwner) := rfl

theorem refuses_notOwner (post : GoString) :
    Err.Refuses (.wrap [] (.sentinel .notOwner) post) := rfl

/-- The check either finds this node as the owner or fails with an error that refuses. -/
theorem prepareLocalOwner_gate (hp : g.peers = true) (hr : Ready call h) :
    (Group.prepareLocalOwner g key).Follows (Gate call) (fun h' r =>
      (∃ e, r = .ok (.ok e) ∧ Owned key h') ∨ ∃ err, r = .ok (.error err) ∧ err.Refuses) h := by
  unfold Group.prepareLocalOwner
  rw [hp]
  have hpick : Gate call h (.pickOwner .prepare key) := by
    refine ⟨?_, hr.not_refused, fun hf _ => hr.looks hf⟩
    intro k hk
    cases hk
  refine Follows.op_bind hpick ?_
  intro i p
  split
  · exact Or.inr ⟨_, rfl, refuses_noOwner⟩
  · split
    · exact Or.inr ⟨_, rfl, refuses_notOwner _⟩
    · next hself =>
      have hself : p.self = true := by simpa using hself
      have howned : Owned key (⟨.pickOwner .prepare key, i, p⟩ :: h) := ⟨p, rfl, hself⟩
      refine Follows.op_bind (Gate.free howned.not_refused rfl rfl) ?_
      intro j a
      exact Or.inl ⟨_, rfl, ⟨p, rfl, hself⟩⟩

/-- How a local operation ends whose check failed. -/
def LocalRefusal {α : Type} (call : Call) (fails : α → Err → Prop) (h : History)
    (r : Except Panic α) : Prop :=
  Refused call h → ∃ a err, r = .ok a ∧ fails a err ∧ err.Refuses

/-- The shape of a local operation: the closed flag, the check, and then the operation itself. -/
theorem checked_gate {α : Type} {fails : α → Err → Prop} {closed : α}
    {rest : Except Err Nat → GoProg α} (hp : g.peers = true) (hr : Ready call h)
    (hok : ∀ e, Within key (rest (.ok e)))
    (herr : ∀ err, ∃ a, rest (.error err) = ret a ∧ fails a err) :
    ((perform .loadClosed).bind fun isClosed : Bool =>
      if isClosed then ret closed else (Group.prepareLocalOwner g key).bind rest).Follows
        (Gate call) (LocalRefusal call fails) h := by
  refine Follows.op_bind (Gate.free hr.not_refused rfl rfl) ?_
  intro i isClosed
  have hr' : Ready call (⟨.loadClosed, i, isClosed⟩ :: h) :=
    Ready.cons (o := .loadClosed) hr rfl rfl i isClosed
  split
  · exact fun href => absurd href hr'.not_refused
  · refine (prepareLocalOwner_gate hp hr').bind ?_ ?_
    · intro h' out _ hout
      rcases hout with ⟨e, heq, ho⟩ | ⟨err, heq, hrefuses⟩
      · cases heq
        refine (Follows.inside (hok e h') ho).mono (fun _ _ _ hJ => hJ) ?_
        intro h'' r _ hend href
        exact absurd href hend.2.not_refused
      · cases heq
        obtain ⟨a, hrest, hfails⟩ := herr err
        rw [hrest]
        exact fun _ => ⟨a, err, rfl, hfails, hrefuses⟩
    · intro h' e _ hout
      rcases hout with ⟨_, heq, -⟩ | ⟨_, heq, -⟩
      · cases heq
      · cases heq

theorem getLocal_gate (hp : g.peers = true) (hr : Ready call h) :
    (Group.getLocal g key).Follows (Gate call)
      (LocalRefusal call fun a err => a = .error err) h := by
  refine checked_gate hp hr ?_ fun err => ⟨_, rfl, rfl⟩
  intro e
  refine Within.free rfl rfl fun s => ?_
  refine .bind (getHeld_within e s).recover fun r => ?_
  exact Within.free rfl rfl fun _ => Within.rethrow r

theorem setLocal_gate (hp : g.peers = true) (hr : Ready call h) (value : Bytes) :
    (Group.setLocal g key value).Follows (Gate call)
      (LocalRefusal call fun a err => a = some err) h := by
  refine checked_gate hp hr ?_ ?_
  · intro e
    refine Within.free rfl rfl fun s => Within.own rfl rfl fun _ => ?_
    refine .bind invalidateNearKey_within fun _ => ?_
    exact Within.free rfl rfl fun _ => .ret _
  · intro err
    rw [hp]
    exact ⟨_, rfl, rfl⟩

theorem deleteOwnerLocal_gate (hp : g.peers = true) (hr : Ready call h) :
    (Group.deleteOwnerLocal g key).Follows (Gate call)
      (LocalRefusal call fun a err => a = .error err) h := by
  refine checked_gate hp hr ?_ ?_
  · intro e
    exact .bind deleteLocal_within fun _ => .ret _
  · intro err
    rw [hp]
    exact ⟨_, rfl, rfl⟩

/-! ## The requester's side -/

section Requester

variable {value : Bytes} {left : Nat} {owner : GoString} {epoch : Nat} {c : Option Client}
  (hc : call.forOwner = false)

/-- An action that `Steady` allows anywhere needs no check. -/
theorem Steady.owned_none {o : Op} (hs : Steady g call o) : o.owned? = none := by
  have hallow := hs.allowed []
  cases o with
  | getterStart key =>
    obtain ⟨-, s, hheld, -⟩ := hallow
    cases hheld
  | loadCommit s key n b => cases hallow.1
  | setSection s key value => cases hallow.2.1
  | _ => rfl

include hc

theorem gate_of_local {o : Op} (ho : o.owned? = none) (h : History) : Gate call h o := by
  refine ⟨?_, not_refused_of_local hc, ?_⟩
  · intro k hk
    rw [ho] at hk
    cases hk
  · intro hf
    rw [hc] at hf
    cases hf

theorem keeps_op {o : Op} {β : Type} {f : o.Ans → GoProg β} (ho : o.owned? = none)
    (hf : ∀ a, (f a).Keeps (Gate call)) : ((perform o).bind f).Keeps (Gate call) :=
  .op_bind (gate_of_local hc ho) hf

theorem keeps_of_steady {α : Type} {p : GoProg α}
    {Q : History → History → Except Panic α → Prop}
    (hp : ∀ h, p.Follows (fun _ o => Steady g call o) (Q h) h) : p.Keeps (Gate call) := by
  intro h
  exact (hp h).mono (fun h' _ _ hs => gate_of_local hc hs.owned_none h') fun _ _ _ _ => trivial

theorem getLocal_keeps (hp : g.peers = true) : (Group.getLocal g key).Keeps (Gate call) := by
  intro h
  exact (getLocal_gate hp (.of_local hc)).mono (fun _ _ _ hJ => hJ) fun _ _ _ _ => trivial

theorem setLocal_keeps (hp : g.peers = true) : (Group.setLocal g key value).Keeps (Gate call) := by
  intro h
  exact (setLocal_gate hp (.of_local hc) value).mono (fun _ _ _ hJ => hJ) fun _ _ _ _ => trivial

theorem invalidateNearKey_keeps : (Group.invalidateNearKey g key).Keeps (Gate call) := by
  unfold Group.invalidateNearKey
  split
  · exact .ret ()
  · split
    · exact keeps_op hc rfl fun _ => keeps_op hc rfl fun _ => .ret ()
    · exact .ret ()

theorem deleteLocal_keeps : (Group.deleteLocal g key).Keeps (Gate call) := by
  unfold Group.deleteLocal
  refine keeps_op hc rfl fun s => keeps_op hc rfl fun removed => ?_
  refine .bind (invalidateNearKey_keeps hc) fun _ => ?_
  exact keeps_op hc rfl fun _ => .ret _

theorem clientCall_keeps {what : GoString} {req : Req} (hs : call.Sends g req) :
    (Client.call c what req).Keeps (Gate call) :=
  keeps_of_steady hc fun _ => Client.call_steady hs

theorem addNear_keeps {nearKey : GoString} {v : ByteView} :
    (Group.addNear g nearKey v).Keeps (Gate call) := by
  unfold Group.addNear
  exact keeps_op hc rfl fun now => keeps_op hc rfl fun ttl => keeps_op hc rfl fun _ => .ret ()

theorem getNear_keeps {p : Pick} : (Group.getNear g key p).Keeps (Gate call) := by
  unfold Group.getNear
  split
  · exact .ret none
  · refine keeps_op hc rfl fun found => ?_
    cases found with
    | none => exact keeps_op hc rfl fun _ => .ret none
    | some view =>
      refine keeps_op hc rfl fun q => ?_
      split
      · exact keeps_op hc rfl fun _ => .ret _
      · exact keeps_op hc rfl fun _ => keeps_op hc rfl fun _ => .ret _

theorem getAttempts_keeps (hp : g.peers = true) (hs : call.Sends g (.get g.name key)) :
    (Group.getAttempts g key left).Keeps (Gate call) := by
  induction left with
  | zero => exact .ret _
  | succ left ih =>
    unfold Group.getAttempts
    refine keeps_op hc rfl fun p => ?_
    split
    · exact .ret _
    · split
      · refine .bind (getLocal_keeps hc hp) fun r => ?_
        cases r with
        | ok view => exact .ret _
        | error err =>
          dsimp only
          split
          · exact ih
          · exact .ret _
      · cases p.peer with
        | nil => exact .ret _
        | client c =>
          refine .bind (getNear_keeps hc) fun found => ?_
          cases found with
          | some view => exact .ret _
          | none =>
            refine .bind (.bind (clientCall_keeps hc hs) fun _ => .ret _) fun r => ?_
            cases r with
            | error err =>
              refine keeps_op hc rfl fun _ => ?_
              refine retry_keeps (gate_of_local hc rfl) fun waited => ?_
              cases waited with
              | some waitErr => exact .ret _
              | none => exact ih
            | ok bytes =>
              refine keeps_op hc rfl fun q => ?_
              split
              · exact ih
              · refine keeps_op hc rfl fun _ => ?_
                split
                · exact .bind (addNear_keeps hc) fun _ => .ret _
                · exact .ret _

theorem get_keeps (hp : g.peers = true) (hs : call.Sends g (.get g.name key)) :
    (Group.get g key).Keeps (Gate call) := by
  unfold Group.get
  refine keeps_op hc rfl fun closed => ?_
  split
  · exact .ret _
  · split
    · exact .ret _
    · split
      · exact getLocal_keeps hc hp
      · exact getAttempts_keeps hc hp hs

theorem finishSet_keeps (hst : call.Starts key) (hsend : call.Sends g (.invalidate g.name key)) :
    (Group.finishSet g key value owner epoch).Keeps (Gate call) := by
  unfold Group.finishSet
  refine keeps_op hc rfl fun _ => ?_
  refine .bind (keeps_of_steady hc fun _ => invalidateLocalCopies_steady hst) fun _ => ?_
  refine .bind (keeps_of_steady hc fun _ => invalidatePeerCopies_steady owner hsend) fun _ => ?_
  split
  · refine keeps_op hc rfl fun q => ?_
    split
    · exact .bind (addNear_keeps hc) fun _ => .ret _
    · exact .ret _
  · exact .ret _

theorem finishDelete_keeps (hst : call.Starts key) (hsend : call.Sends g (.invalidate g.name key)) :
    (Group.finishDelete g key owner).Keeps (Gate call) := by
  unfold Group.finishDelete
  refine keeps_op hc rfl fun _ => ?_
  refine .bind (keeps_of_steady hc fun _ => invalidateLocalCopies_steady hst) fun _ => ?_
  refine .bind (keeps_of_steady hc fun _ => invalidatePeerCopies_steady owner hsend) fun _ => ?_
  exact .ret _

theorem setAttempts_keeps (hp : g.peers = true) (hst : call.Starts key)
    (hset : call.Sends g (.set g.name key value))
    (hsend : call.Sends g (.invalidate g.name key)) :
    (Group.setAttempts g key value left owner).Keeps (Gate call) := by
  induction left generalizing owner with
  | zero => exact finishSet_keeps hc hst hsend
  | succ left ih =>
    unfold Group.setAttempts
    refine keeps_op hc rfl fun p => ?_
    split
    · exact .ret _
    · split
      · refine .bind (setLocal_keeps hc hp) fun r => ?_
        cases r with
        | none => exact checkOwner_keeps (gate_of_local hc rfl) (finishSet_keeps hc hst hsend) ih
        | some err =>
          dsimp only
          split
          · exact ih
          · exact .ret _
      · cases p.peer with
        | nil => exact .ret _
        | client c =>
          have hcall : (Client.set c g.name key value).Keeps (Gate call) := by
            refine .bind (clientCall_keeps hc hset) fun resp => ?_
            cases resp <;> exact .ret _
          refine .bind hcall fun r => ?_
          cases r with
          | none => exact checkOwner_keeps (gate_of_local hc rfl) (finishSet_keeps hc hst hsend) ih
          | some err =>
            refine retry_keeps (gate_of_local hc rfl) fun waited => ?_
            cases waited with
            | some waitErr => exact .ret _
            | none => exact ih

theorem set_keeps (hp : g.peers = true) (hst : call.Starts key)
    (hset : call.Sends g (.set g.name key value))
    (hsend : call.Sends g (.invalidate g.name key)) :
    (Group.set g key value).Keeps (Gate call) := by
  unfold Group.set
  refine keeps_op hc rfl fun closed => ?_
  split
  · exact .ret _
  · split
    · exact .ret _
    · split
      · exact .ret _
      · rw [hp]
        exact setAttempts_keeps hc hp hst hset hsend

theorem deleteAttempts_keeps (hst : call.Starts key)
    (hdel : call.Sends g (.delete g.name key))
    (hsend : call.Sends g (.invalidate g.name key)) :
    (Group.deleteAttempts g key left owner).Keeps (Gate call) := by
  induction left generalizing owner with
  | zero => exact finishDelete_keeps hc hst hsend
  | succ left ih =>
    unfold Group.deleteAttempts
    refine keeps_op hc rfl fun p => ?_
    split
    · exact .ret _
    · split
      · refine .bind (deleteLocal_keeps hc) fun _ => ?_
        exact checkOwner_keeps (gate_of_local hc rfl) (finishDelete_keeps hc hst hsend) ih
      · cases p.peer with
        | nil => exact .ret _
        | client c =>
          refine .bind (.bind (clientCall_keeps hc hdel) fun _ => .ret _) fun r => ?_
          cases r with
          | ok removed =>
            exact checkOwner_keeps (gate_of_local hc rfl) (finishDelete_keeps hc hst hsend) ih
          | error err =>
            refine retry_keeps (gate_of_local hc rfl) fun waited => ?_
            cases waited with
            | some waitErr => exact .ret _
            | none => exact ih

theorem delete_keeps (hp : g.peers = true) (hst : call.Starts key)
    (hdel : call.Sends g (.delete g.name key))
    (hsend : call.Sends g (.invalidate g.name key)) :
    (Group.delete g key).Keeps (Gate call) := by
  unfold Group.delete
  refine keeps_op hc rfl fun closed => ?_
  split
  · exact .ret _
  · split
    · exact .ret _
    · rw [hp]
      exact deleteAttempts_keeps hc hst hdel hsend

end Requester

/-! ## The handlers and the protocol -/

/-- A handler for the owner: a group that exists, and a local operation whose error is mapped. -/
theorem handler_gate {α : Type} {group : GoString} {fails : α → Err → Prop} {p : GoProg α}
    {reply : α → GoProg (Except Err Resp)}
    (hp : ∀ h, Ready call h → p.Follows (Gate call) (LocalRefusal call fails) h)
    (hreply : ∀ a, ∃ r, reply a = ret r ∧
      ∀ err, fails a err → r = .error (Server.mapGroupError err)) (hr : Ready call h) :
    (Server.withGroup group (p.bind reply)).Follows (Gate call) (fun h' r => Refused call h' →
      ∃ text, r = .ok (.error (.status .failedPrecondition text))) h := by
  unfold Server.withGroup
  refine Follows.op_bind (Gate.free hr.not_refused rfl rfl) ?_
  intro i found
  have hr' : Ready call (⟨.getGroup group, i, found⟩ :: h) :=
    Ready.cons (o := .getGroup group) hr rfl rfl i found
  split
  · refine (hp _ hr').bind ?_ ?_
    · intro h' a _ hend
      obtain ⟨r, hret, hfail⟩ := hreply a
      rw [hret]
      intro href
      obtain ⟨a', err, heq, hfails, hrefuses⟩ := hend href
      cases heq
      exact ⟨err.text, by rw [hfail err hfails, hrefuses]⟩
    · intro h' e _ hend href
      obtain ⟨_, _, heq, -⟩ := hend href
      cases heq
  · exact fun href => absurd href hr'.not_refused

/-- The handlers keep to the gate and refuse a request whose check fails. -/
theorem handle_gate (hp : g.peers = true) (src : GoString × Nat) (req : Req) :
    (Server.handle g req).Follows (Gate (.serve src req)) (fun h' r => Refused (.serve src req) h' →
      ∃ text, r = .ok (.error (.status .failedPrecondition text))) [] := by
  have hr : Ready (.serve src req) [] := ⟨fun _ => rfl, fun _ e he => by cases he⟩
  cases req with
  | get group key =>
    refine handler_gate (fun h hr => getLocal_gate hp hr) ?_ hr
    intro a
    cases a with
    | ok view => exact ⟨_, rfl, fun err herr => by cases herr⟩
    | error err => exact ⟨_, rfl, fun _ herr => by cases herr; rfl⟩
  | set group key value =>
    refine handler_gate (fun h hr => setLocal_gate hp hr value) ?_ hr
    intro a
    cases a with
    | none => exact ⟨_, rfl, fun err herr => by cases herr⟩
    | some err => exact ⟨_, rfl, fun _ herr => by cases herr; rfl⟩
  | delete group key =>
    change (Server.withGroup group (Prog.bind (Group.deleteOwnerLocal g key) _)).Follows _ _ _
    refine handler_gate (fun h hr => deleteOwnerLocal_gate hp hr) ?_ hr
    intro a
    cases a with
    | ok removed => exact ⟨_, rfl, fun err herr => by cases herr⟩
    | error err => exact ⟨_, rfl, fun _ herr => by cases herr; rfl⟩
  | invalidate group key =>
    have hc : Call.forOwner (.serve src (.invalidate group key)) = false := rfl
    have hkeeps : (Server.handle g (.invalidate group key)).Keeps
        (Gate (.serve src (.invalidate group key))) := by
      refine keeps_op hc rfl fun found => ?_
      split
      · exact .bind (deleteLocal_keeps hc) fun _ => .ret _
      · exact .ret _
    refine (hkeeps []).mono (fun _ _ _ hJ => hJ) ?_
    intro h' r _ _ href
    exact absurd href (not_refused_of_local hc)

theorem result_gate {α : Type} {p : GoProg α} {f : α → Res} (hc : call.forOwner = false)
    (hp : p.Keeps (Gate call)) :
    (p.bind fun a => ret (f a)).Follows (Gate call) (Refusal call) [] := by
  have hkeeps : (p.bind fun a => ret (f a)).Keeps (Gate call) := .bind hp fun _ => .ret _
  refine (hkeeps []).mono (fun _ _ _ hJ => hJ) ?_
  intro h' r _ _ href
  exact absurd href (not_refused_of_local hc)

theorem prog_gate (hp : g.peers = true) (call : Call) :
    (Node.prog g call).Follows (Gate call) (Refusal call) [] := by
  cases call with
  | get key => exact result_gate rfl (get_keeps rfl hp rfl)
  | set key value => exact result_gate rfl (set_keeps rfl hp rfl (Or.inl rfl) (Or.inr rfl))
  | delete key => exact result_gate rfl (delete_keeps rfl hp rfl (Or.inl rfl) (Or.inr rfl))
  | clear => exact result_gate rfl (keeps_of_steady rfl fun _ => clear_steady)
  | close => exact result_gate rfl (keeps_of_steady rfl fun _ => close_steady)
  | serve src req =>
    refine (handle_gate hp src req).bind ?_ ?_
    · intro h' r _ hend href
      obtain ⟨text, heq⟩ := hend href
      cases heq
      exact ⟨text, rfl⟩
    · intro h' e _ hend href
      obtain ⟨text, heq⟩ := hend href
      cases heq

/-- **The gate every call of a node with peers keeps to.** -/
@[reducible] def gate (hp : g.peers = true) : Protocol (node g) where
  allows := Gate
  ends := Refusal
  follows := prog_gate hp

/-! ## Runs -/

section Runs

variable {σ₀ : State} {c : Config (node g)} {tr : Trace g} {t : Nat}

/-- The goroutine is inside a `getLocal` or `setLocal` of `key` whose own check named this node: it
has the mutation state that the operation acquired after the check and releases at its end. -/
def InsideOwned (key : GoString) (h : History) : Prop :=
  ∃ h₁ h₂ i s p, h = h₁ ++ ⟨.acquireKeyState key, i, s⟩ :: h₂ ∧
    (∀ e ∈ h₁, e.op.prepares = false ∧ ∀ k s, e.op ≠ .releaseKeyState k s) ∧
    prepared h₂ = some (key, p) ∧ p.self = true

/-- The mutation state a goroutine has was acquired after its last check. -/
theorem prepared_before_held {s : Nat} (hall : ∀ e h', e :: h' <:+ h → Allowed g call h' e.op)
    (hheld : (loc h).held = some (key, s)) :
    ∃ h₁ h₂ i, h = h₁ ++ ⟨.acquireKeyState key, i, s⟩ :: h₂ ∧
      ∀ e ∈ h₁, e.op.prepares = false ∧ ∀ k s, e.op ≠ .releaseKeyState k s := by
  induction h with
  | nil => cases hheld
  | cons e h ih =>
    obtain ⟨o, i, a⟩ := e
    have hrec : (loc h).held = some (key, s) → o.prepares = false →
        (∀ k s, o ≠ .releaseKeyState k s) → ∃ h₁ h₂ j,
          (⟨o, i, a⟩ :: h : History) = h₁ ++ ⟨.acquireKeyState key, j, s⟩ :: h₂ ∧
          ∀ e ∈ h₁, e.op.prepares = false ∧ ∀ k s, e.op ≠ .releaseKeyState k s := by
      intro hheld hprep hrel
      obtain ⟨h₁, h₂, j, heq, hbetween⟩ :=
        ih (fun e h' hs => hall e h' (hs.trans (List.suffix_cons ..))) hheld
      refine ⟨⟨o, i, a⟩ :: h₁, h₂, j, by rw [heq]; rfl, ?_⟩
      exact List.forall_mem_cons.2 ⟨⟨hprep, hrel⟩, hbetween⟩
    cases o with
    | acquireKeyState k =>
      cases hheld
      exact ⟨[], h, i, rfl, fun e he => by cases he⟩
    | releaseKeyState k s' => cases hheld
    | pickOwner site k =>
      cases site with
      | prepare =>
        -- the check is made only where no state is held
        have hidle : (loc h).Idle := hall _ _ (List.suffix_refl _)
        have hheld : (loc h).held = some (key, s) := hheld
        rw [hidle.1] at hheld
        cases hheld
      | _ => exact hrec hheld rfl fun _ _ heq => by cases heq
    | _ => exact hrec hheld rfl fun _ _ heq => by cases heq

/-- What is known of the check still holds where the mutation state was acquired. -/
theorem prepared_append {h₁ h₂ : History} (hno : ∀ e ∈ h₁, e.op.prepares = false) :
    prepared (h₁ ++ h₂) = prepared h₂ := by
  induction h₁ with
  | nil => rfl
  | cons e h₁ ih =>
    obtain ⟨o, i, a⟩ := e
    obtain ⟨ho, hrest⟩ := List.forall_mem_cons.1 hno
    rw [List.cons_append, prepared_cons ho, ih hrest]

theorem Run.insideOwned (hp : g.peers = true) {c' : Config (node g)} {cmd : Cmd (node g)}
    (h : Run Free σ₀ c tr) {o : Op} {i : Inp} {a : o.Ans}
    (hstep : c.step cmd = some (.act t ⟨o, i, a⟩, c')) (ho : o.owned? = some key) :
    InsideOwned key (hist tr t) := by
  obtain ⟨call, hcall, hgate, -⟩ := h.of_act (gate hp) hstep
  obtain ⟨call', hcall', hallow, -⟩ := h.of_act (protocol g) hstep
  have hheld : ∃ s, (loc (hist tr t)).held = some (key, s) := by
    cases o with
    | getterStart k =>
      cases ho
      obtain ⟨-, s, hheld, -⟩ := hallow
      exact ⟨s, hheld⟩
    | loadCommit s k n b =>
      cases ho
      exact ⟨s, hallow.1⟩
    | setSection s k value =>
      cases ho
      exact ⟨s, hallow.2.1⟩
    | _ => cases ho
  obtain ⟨s, hheld⟩ := hheld
  have hall : ∀ e h', e :: h' <:+ hist tr t → Allowed g call' h' e.op := by
    intro e h' hs
    obtain ⟨call'', hcall'', hallow'⟩ := h.allowed (protocol g) t e h' hs
    rw [hcall'] at hcall''
    cases hcall''
    exact hallow'
  obtain ⟨h₁, h₂, j, heq, hbetween⟩ := prepared_before_held hall hheld
  obtain ⟨p, hprep, hself⟩ := hgate.owned key ho
  refine ⟨h₁, h₂, j, s, p, heq, hbetween, ?_, hself⟩
  rw [heq, prepared_append fun e he => (hbetween e he).1] at hprep
  rwa [prepared_cons rfl] at hprep

theorem Run.gate_of_suffix (hp : g.peers = true) (h : Run Free σ₀ c tr)
    (hcall : callOf tr t = some call) {e : Ev groupSig Inp} {h' : History}
    (hs : e :: h' <:+ hist tr t) : Gate call h' e.op := by
  obtain ⟨call', hcall', hgate⟩ := h.allowed (gate hp) t e h' hs
  rw [hcall] at hcall'
  cases hcall'
  exact hgate

/-- A check that fails is the last thing a request does, and before it the request only looks. -/
theorem Run.hist_of_refused (hp : g.peers = true) (h : Run Free σ₀ c tr)
    (hcall : callOf tr t = some call) (howner : call.forOwner = true) {i : Inp} {p : Pick}
    (hpick : .act t ⟨.pickOwner .prepare key, i, p⟩ ∈ tr) (hself : p.self = false) :
    Refused call (hist tr t) ∧ ∀ e ∈ hist tr t, e.op.looks = true := by
  obtain ⟨X, Y, hXY⟩ := List.append_of_mem (mem_hist.2 hpick)
  have href : Refused call (⟨.pickOwner .prepare key, i, p⟩ :: Y) := ⟨howner, key, p, rfl, hself⟩
  rcases List.eq_nil_or_concat X with rfl | ⟨X, e, rfl⟩
  · rw [List.nil_append] at hXY
    have hs : ⟨.pickOwner .prepare key, i, p⟩ :: Y <:+ hist tr t := by rw [hXY]
    have hgate := Run.gate_of_suffix hp h hcall hs
    rw [hXY]
    exact ⟨href, List.forall_mem_cons.2 ⟨rfl, hgate.first howner rfl⟩⟩
  · have hs : e :: ⟨.pickOwner .prepare key, i, p⟩ :: Y <:+ hist tr t := by
      refine ⟨X, ?_⟩
      rw [hXY, List.concat_eq_append, List.append_assoc]
      rfl
    exact absurd href (Run.gate_of_suffix hp h hcall hs).open_

/-- The reply of a handler that refuses a request. -/
def refusal (text : GoString) : Res := .reply (.error (.status .failedPrecondition text))

theorem Run.refused_ends (hp : g.peers = true) (h : Run Free σ₀ c tr)
    (hspawn : .spawn t call ∈ tr) (href : Refused call (hist tr t)) :
    ∃ text, c.threads t = some (.ret (refusal text)) ∨ .ret t (.ok (refusal text)) ∈ tr := by
  rcases h.running_or_ended hspawn with ⟨p, hthread⟩ | ⟨r, hret⟩
  · obtain ⟨call', hcall, hleads⟩ := h.thread hthread
    rw [h.callOf_spawn hspawn] at hcall
    cases hcall
    have hfollows := ((gate hp).follows call).of_leads hleads
    cases p with
    | ret a =>
      obtain ⟨text, heq⟩ := hfollows href
      cases heq
      exact ⟨text, Or.inl hthread⟩
    | raise e =>
      obtain ⟨text, heq⟩ := hfollows href
      cases heq
    | act o k => exact absurd href hfollows.1.open_
  · obtain ⟨A, B, c', htr, hrun, hend⟩ := h.finished (gate hp) hspawn hret
    subst htr
    have hhist : hist (A ++ .ret t r :: B) t = hist B t := by
      rw [hist_append, h.after_ret, List.nil_append, hist_ret]
    obtain ⟨text, heq⟩ := hend (hhist ▸ href)
    rw [heq] at hret ⊢
    exact ⟨text, Or.inr (List.mem_append_right A List.mem_cons_self)⟩

/-- The caches, the owner epoch and the mutation states are as before. -/
structure Untouched (σ σ' : State) : Prop where
  main : σ'.main = σ.main
  near : σ'.near = σ.near
  ownerEpoch : σ'.ownerEpoch = σ.ownerEpoch
  keyStates : σ'.keyStates = σ.keyStates
  states : σ'.states = σ.states

theorem untouched_of_looks {σ σ' : State} {o : Op} {i : Inp} {a : o.Ans} (ho : o.looks = true)
    (h : Node.exec g o i σ = some (a, σ')) : Untouched σ σ' := by
  have hframe := exec_frame h
  cases o with
  | getGroup name =>
    exact ⟨hframe.main rfl, hframe.near rfl, hframe.epoch rfl, (hframe.states rfl).1,
      (hframe.states rfl).2.1⟩
  | loadClosed =>
    exact ⟨hframe.main rfl, hframe.near rfl, hframe.epoch rfl, (hframe.states rfl).1,
      (hframe.states rfl).2.1⟩
  | pickOwner site key =>
    exact ⟨hframe.main rfl, hframe.near rfl, hframe.epoch rfl, (hframe.states rfl).1,
      (hframe.states rfl).2.1⟩
  | _ => cases ho

/-- What a run shows of who loads and stores, and of requests that are refused. -/
structure OwnerOnly (c : Config (node g)) (tr : Trace g) : Prop where
  /-- A Getter call is made inside a `getLocal` whose check named this node. -/
  getter : ∀ cmd t k i id c', c.step cmd = some (.act t ⟨.getterStart k, i, id⟩, c') →
    InsideOwned k (hist tr t)
  /-- A step adds an entry to the main cache only as an action that stores it. -/
  inserted : ∀ cmd ℓ c' k x, c.step cmd = some (ℓ, c') → c'.state.main.view k = some x →
    c.state.main.view k ≠ some x → ∃ t e, ℓ = .act t e ∧ Stores k x.1 e
  /-- An action that stores is made inside a `getLocal` or `setLocal` whose check named this
  node. -/
  stored : ∀ cmd t e c' k v, c.step cmd = some (.act t e, c') → Stores k v e →
    InsideOwned k (hist tr t)
  /-- A request for the owner whose check names another node has the reply `FailedPrecondition`. It
  did nothing but look: it called no Getter, sent no request, and no step of it changed the caches,
  the owner epoch or the mutation states. -/
  refused : ∀ t call k i p, .spawn t call ∈ tr → call.forOwner = true →
    .act t ⟨.pickOwner .prepare k, i, p⟩ ∈ tr → p.self = false →
    (∃ text, c.threads t = some (.ret (refusal text)) ∨ .ret t (.ok (refusal text)) ∈ tr) ∧
    (∀ k' j id, .act t ⟨.getterStart k', j, id⟩ ∉ tr) ∧
    (∀ addr req j id, .act t ⟨.rpcStart addr req, j, id⟩ ∉ tr) ∧
    ∀ e c₁ cmd c₂, .act t e ∈ tr → Config.step (M := node g) c₁ cmd = some (.act t e, c₂) →
      Untouched c₁.state c₂.state

/-- **Only the owner loads and stores.** With peers, in every interleaving of calls and membership
changes, a Getter call and an insertion into the main cache happen inside a `getLocal` or `setLocal`
whose own check named this node, and a request for the owner whose check names another node is
refused and has no effect. -/
theorem only_owner_loads_and_stores (hp : g.peers = true) (h₀ : σ₀.Fresh) (h : Run Free σ₀ c tr) :
    OwnerOnly c tr := by
  refine ⟨?_, ?_, ?_, ?_⟩
  · intro cmd t k i id c' hstep
    exact Run.insideOwned hp h hstep rfl
  · intro cmd ℓ c' k x hstep hx hnew
    exact view_of_step (Run.mainOk h₀ h) hstep hx hnew
  · intro cmd t e c' k v hstep hstores
    obtain ⟨o, i, a⟩ := e
    apply Run.insideOwned hp h hstep
    rcases hstores.cases with ⟨s, heq⟩ | ⟨s, n, b, heq⟩ <;>
      · cases heq
        rfl
  · intro t call k i p hspawn howner hpick hself
    obtain ⟨href, hlooks⟩ := Run.hist_of_refused hp h (h.callOf_spawn hspawn) howner hpick hself
    refine ⟨Run.refused_ends hp h hspawn href, ?_, ?_, ?_⟩
    · intro k' j id hmem
      cases hlooks _ (mem_hist.2 hmem)
    · intro addr req j id hmem
      cases hlooks _ (mem_hist.2 hmem)
    · intro e c₁ cmd c₂ hmem hstep
      have hlook := hlooks e (mem_hist.2 hmem)
      cases Config.steps_of_step hstep with
      | act _ hexec => exact untouched_of_looks hlook hexec

end Runs

/-- A Get that a peer sends. -/
def peerGet : Call := .serve (ascii "b", 0) (.get Cfg.pair.name (ascii "k"))

/-- A peer asks a node for a key it does not own and is refused. The node then becomes the owner,
and its own Get comes to call the Getter. -/
theorem refused_then_loaded : ∃ c : Config (node Cfg.pair), ∃ tr,
    Run Free State.guest c tr ∧ OwnerOnly c tr ∧
    .spawn 0 peerGet ∈ tr ∧
    .act 0 ⟨.pickOwner .prepare (ascii "k"), Inp.fetch [7], pickOther 1⟩ ∈ tr ∧
    ∃ c', c.step (.run 1 (Inp.fetch [7])) =
      some (.act 1 ⟨.getterStart (ascii "k"), Inp.fetch [7], 0⟩, c') := by
  obtain ⟨c, tr, hsteps, hspawn, hpick, hgetter⟩ : ∃ c tr,
      (Config.start (M := node Cfg.pair) State.guest).steps []
        (.spawn peerGet :: List.replicate 4 (.run 0 (Inp.fetch [7])) ++
          .env (.membership (.mine 2)) :: .spawn (.get (ascii "k")) ::
          List.replicate 11 (.run 1 (Inp.fetch [7]))) = some (c, tr) ∧
      tr.reverse[0]? = some (.spawn 0 peerGet) ∧
      tr.reverse[3]? =
        some (.act 0 ⟨.pickOwner .prepare (ascii "k"), Inp.fetch [7], pickOther 1⟩) ∧
      ∃ c', c.step (.run 1 (Inp.fetch [7])) =
        some (.act 1 ⟨.getterStart (ascii "k"), Inp.fetch [7], 0⟩, c') :=
    ⟨_, _, rfl, rfl, rfl, _, rfl⟩
  have hrun := Run.steps .start hsteps
  exact ⟨c, tr, hrun, only_owner_loads_and_stores rfl State.fresh_guest hrun,
    List.mem_reverse.1 (List.mem_of_getElem? hspawn),
    List.mem_reverse.1 (List.mem_of_getElem? hpick), hgetter⟩

end Locache
