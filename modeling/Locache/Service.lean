import Locache.Conc.Machine
import Locache.Picker.Watch

/-!
# A server and its registration

`Start` listens, registers the node in etcd under a lease and serves; the etcd client renews the
lease until the context of the registration is cancelled. `Stop` cancels the context of the server,
closes the registration, which revokes the lease, and stops the gRPC server. The registration is
closed when `Serve` returns, too, so `Start` and `Stop` meet in `Close`.

A request to etcd may take effect although the caller gets an error for it (`Outcome.lost`). It
takes effect, if it does, before its call returns.
-/

namespace Locache.Service

open Conc

/-- What a `Server` was made with. -/
structure Cfg where
  listenAddr : GoString
  advertiseAddr : GoString
  svcName : GoString
  leaseTTL : Int
  /-- The etcd client is not nil. -/
  etcdCli : Bool

/-- A `sync.Once`: a second caller of `Do` waits until the first one has returned. -/
inductive Once where
  | fresh
  | running
  | done
  deriving DecidableEq, Repr

/-! ## Actions -/

/-- A registration goes by the number of the context that its call of `Register` derived. -/
inductive Op where
  | listen
  | closeListener (lis : Nat)
  | withCancel
  | grant (reg : Nat) (ttl : Int)
  | put (reg : Nat) (key value : GoString) (lease : Nat)
  | keepAlive (reg lease : Nat)
  | newRegistration (reg lease : Nat)
  | cancelReg (reg : Nat)
  | setRegistration (reg lis : Nat)
  | serve (lis : Nat)
  | serveEnd (lis : Nat)
  | ctxErr
  | closeEnter (reg : Nat)
  | awaitDone (reg : Nat)
  | revoke (reg : Nat)
  | closeLeave (reg : Nat)
  | stopEnter
  | cancel
  | registration
  | gracefulStop
  | closeEtcd
  | stopLeave

@[reducible] def Op.Ans : Op → Type
  | .listen | .grant _ _ => Except Err Nat
  | .withCancel => Nat
  | .put _ _ _ _ | .keepAlive _ _ | .serveEnd _ | .awaitDone _ | .revoke _ => Option Err
  | .serve _ | .ctxErr | .closeEnter _ | .stopEnter => Bool
  | .registration => Option Nat
  | _ => Unit

/-- No function of the server panics. -/
@[reducible] def serviceSig : Sig := ⟨Op, Op.Ans, Empty⟩

abbrev ServerProg := Prog serviceSig

/-- Perform one action. -/
abbrev perform (o : Op) : ServerProg o.Ans := Prog.op (S := serviceSig) o

/-! ## Programs -/

/-- `registry.DefaultConfig.LeaseTTL`. -/
def defaultLeaseTTL : Int := 10

/-- `registry.Register`. Where it fails, the lease it was granted is left to expire. -/
def register (cli : Bool) (svcName addr : GoString) (ttl : Int) :
    ServerProg (Except Err Nat) :=
  if !cli then return .error (.other (ascii "nil etcd client"))
  else do
    let reg : Nat ← perform .withCancel
    match (← perform (.grant reg (if ttl ≤ 0 then defaultLeaseTTL else ttl)) : Except Err Nat) with
    | .error err => do
      perform (.cancelReg reg)
      return .error (.wrap (ascii "grant etcd lease: ") err [])
    | .ok lease =>
      match (← perform (.put reg (serviceKey svcName addr) addr lease) : Option Err) with
      | some err => do
        perform (.cancelReg reg)
        return .error (.wrap (ascii "register service in etcd: ") err [])
      | none =>
        match (← perform (.keepAlive reg lease) : Option Err) with
        | some err => do
          perform (.cancelReg reg)
          return .error (.wrap (ascii "keep etcd lease alive: ") err [])
        | none => do
          perform (.newRegistration reg lease)
          return .ok reg

/-- `Registration.Close`. The error is the first of the two there may be; only the caller that runs
the function of `once` gets it. -/
def closeRegistration (reg : Nat) : ServerProg (Option Err) := do
  if (← perform (.closeEnter reg) : Bool) then
    perform (.cancelReg reg)
    let waited : Option Err ← perform (.awaitDone reg)
    let revoked : Option Err ← perform (.revoke reg)
    perform (.closeLeave reg)
    return waited.or revoked
  else return none

/-- What `Start` makes of what `Serve` returned. A server that was stopped before it served returns
`ErrServerStopped`, one that is stopped while it serves returns nil. -/
def serve (lis : Nat) : ServerProg (Option Err) := do
  if (← perform (.serve lis) : Bool) then return none
  else
    match (← perform (.serveEnd lis) : Option Err) with
    | none => return none
    | some err => do
      if (← perform .ctxErr : Bool) then return none
      else return some err

/-- `Server.Start`, with the deferred `Close` after the result is known. -/
def start (g : Cfg) : ServerProg (Option Err) := do
  match (← perform .listen : Except Err Nat) with
  | .error err =>
    return some (.wrap (ascii "listen on " ++ g.listenAddr ++ ascii ": ") err [])
  | .ok lis =>
    match ← register g.etcdCli g.svcName g.advertiseAddr g.leaseTTL with
    | .error err => do
      perform (.closeListener lis)
      return some (.wrap (ascii "register locache service: ") err [])
    | .ok reg => do
      perform (.setRegistration reg lis)
      let err ← serve lis
      let _ ← closeRegistration reg
      return err

/-- The function of `stopOnce`, from where the registration is known. -/
def shutDown (g : Cfg) : ServerProg Unit := do
  perform .gracefulStop
  if g.etcdCli then perform .closeEtcd
  perform .stopLeave

/-- `Server.Stop`. -/
def stop (g : Cfg) : ServerProg Unit := do
  if (← perform .stopEnter : Bool) then
    perform .cancel
    match (← perform .registration : Option Nat) with
    | some reg => do
      let _ ← closeRegistration reg
      shutDown g
    | none => shutDown g
  else return ()

/-! ## States -/

/-- A lease in etcd; the server may grant more time than it was asked for. -/
structure Lease where
  ttl : Duration
  deadline : Time
  revoked : Bool

def Lease.live (now : Time) (L : Lease) : Bool := !L.revoked && now < L.deadline

/-- What belongs to one call of `Register`. -/
structure Reg where
  /-- The context that the call derived was cancelled. -/
  cancelled : Bool
  /-- The lease that the etcd client renews. -/
  renews : Option Nat
  leaseID : Option Nat
  /-- The goroutine that reads the keepalive channel has closed `done`. -/
  done : Bool
  once : Once

structure State where
  cancelled : Bool
  registration : Option Nat
  stopOnce : Once
  /-- The gRPC server was stopped. -/
  stopped : Bool
  etcdOpen : Bool
  regs : Nat → Reg
  nextReg : Nat
  nextListener : Nat
  /-- The leases in etcd. -/
  leases : Nat → Option Lease
  nextLease : Nat
  /-- The keys in etcd, with their values and leases. -/
  kvs : GoString → Option (GoString × Nat)
  clock : Time

/-- A server that has done nothing yet. -/
def State.new : State where
  cancelled := false
  registration := none
  stopOnce := .fresh
  stopped := false
  etcdOpen := true
  regs := fun _ => ⟨false, none, none, false, .fresh⟩
  nextReg := 0
  nextListener := 0
  leases := fun _ => none
  nextLease := 0
  kvs := fun _ => none
  clock := 0

/-- How a call goes: it succeeds, it fails after it has taken effect, or it fails without. -/
inductive Outcome where
  | success
  | lost
  | refused
  deriving DecidableEq, Repr

/-- What the world puts into an action. -/
structure Inp where
  now : Time
  outcome : Outcome
  err : Err
  /-- The seconds that etcd adds to a lease. -/
  extra : Nat
  /-- The context of `Close` ends first. -/
  timeout : Bool

namespace State

variable (σ : State)

/-- The context of the registration is done; it is derived from the server's. -/
def ctxDone (reg : Nat) : Bool := σ.cancelled || (σ.regs reg).cancelled

def setReg (reg : Nat) (r : Reg) : State := { σ with regs := Function.update σ.regs reg r }

/-- A call with this context may succeed. -/
def reaches (reg : Nat) : Bool := !σ.ctxDone reg && σ.etcdOpen

/-- The key is in etcd, under a lease that is live. -/
def Registered (key : GoString) (lease : Nat) (now : Time) : Prop :=
  ∃ value L, σ.kvs key = some (value, lease) ∧ σ.leases lease = some L ∧ L.live now = true

def grant (reg : Nat) (ttl : Int) (i : Inp) : Except Err Nat × State :=
  let time : Duration := (ttl + i.extra) * 10 ^ 9
  let σ' := { σ with
    leases := Function.update σ.leases σ.nextLease (some ⟨time, i.now + time, false⟩)
    nextLease := σ.nextLease + 1 }
  match i.outcome with
  | .success => if σ.reaches reg then (.ok σ.nextLease, σ') else (.error i.err, σ)
  | .lost => (.error i.err, σ')
  | .refused => (.error i.err, σ)

/-- A key can be put under a lease that is live only. -/
def put (reg : Nat) (key value : GoString) (lease : Nat) (i : Inp) : Option Err × State :=
  if (σ.leases lease).any (Lease.live i.now) then
    let σ' := { σ with kvs := Function.update σ.kvs key (some (value, lease)) }
    match i.outcome with
    | .success => if σ.reaches reg then (none, σ') else (some i.err, σ)
    | .lost => (some i.err, σ')
    | .refused => (some i.err, σ)
  else (some i.err, σ)

/-- A context that is done does not make `KeepAlive` fail. -/
def keepAlive (reg lease : Nat) (i : Inp) : Option Err × State :=
  if σ.etcdOpen ∧ i.outcome = .success then
    (none, σ.setReg reg { σ.regs reg with renews := some lease })
  else (some i.err, σ)

/-- The lease is gone, and the keys under it are deleted. -/
def dropLease (lease : Nat) (L : Lease) : State :=
  { σ with
    leases := Function.update σ.leases lease (some { L with revoked := true })
    kvs := fun key => (σ.kvs key).filter fun kv => kv.2 ≠ lease }

def revoke (reg : Nat) (i : Inp) : Option Err × State :=
  match (σ.regs reg).leaseID with
  | none => (some i.err, σ)
  | some lease =>
    match σ.leases lease with
    | none => (some i.err, σ)
    | some L =>
      if L.live i.now then
        match i.outcome with
        | .success => if σ.etcdOpen then (none, σ.dropLease lease L) else (some i.err, σ)
        | .lost => (some i.err, σ.dropLease lease L)
        | .refused => (some i.err, σ)
      else (some i.err, σ)

end State

/-- The first section of `Do`. -/
def Once.enter : Once → Option (Bool × Once)
  | .fresh => some (true, .running)
  | .running => none
  | .done => some (false, .done)

/-- What an action does; waiting is not enabled. -/
def act (i : Inp) (σ : State) : (o : Op) → Option (o.Ans × State)
  | .listen =>
    if i.outcome = .success then
      some (.ok σ.nextListener, { σ with nextListener := σ.nextListener + 1 })
    else some (.error i.err, σ)
  | .closeListener _ => some ((), σ)
  | .withCancel => some (σ.nextReg, { σ with nextReg := σ.nextReg + 1 })
  | .grant reg ttl => some (σ.grant reg ttl i)
  | .put reg key value lease => some (σ.put reg key value lease i)
  | .keepAlive reg lease => some (σ.keepAlive reg lease i)
  | .newRegistration reg lease =>
    some ((), σ.setReg reg { σ.regs reg with leaseID := some lease })
  | .cancelReg reg => some ((), σ.setReg reg { σ.regs reg with cancelled := true })
  | .setRegistration reg _ => some ((), { σ with registration := some reg })
  | .serve _ => some (σ.stopped, σ)
  | .serveEnd _ =>
    if σ.stopped then some (none, σ)
    else if i.outcome = .success then none
    else some (some i.err, σ)
  | .ctxErr => some (σ.cancelled, σ)
  | .closeEnter reg =>
    (σ.regs reg).once.enter.map fun r => (r.1, σ.setReg reg { σ.regs reg with once := r.2 })
  | .awaitDone reg =>
    if i.timeout then some (some .deadlineExceeded, σ)
    else if (σ.regs reg).done then some (none, σ)
    else none
  | .revoke reg => some (σ.revoke reg i)
  | .closeLeave reg => some ((), σ.setReg reg { σ.regs reg with once := .done })
  | .stopEnter => σ.stopOnce.enter.map fun r => (r.1, { σ with stopOnce := r.2 })
  | .cancel => some ((), { σ with cancelled := true })
  | .registration => some (σ.registration, σ)
  | .gracefulStop => some ((), { σ with stopped := true })
  | .closeEtcd => some ((), { σ with etcdOpen := false })
  | .stopLeave => some ((), { σ with stopOnce := .done })

/-- An action, at a clock reading that is not in the past. -/
def exec (o : Op) (i : Inp) (σ : State) : Option (o.Ans × State) :=
  if i.now < σ.clock then none
  else (act i σ o).map fun r => (r.1, { r.2 with clock := i.now })

/-- What goes on beside the calls: the etcd client renews a lease or closes a keepalive channel, and
the goroutine that reads the channel returns. -/
inductive Event where
  | renew (reg : Nat) (now : Time)
  | channelClosed (reg : Nat)
  | readerDone (reg : Nat)

/-- A renewal gives the lease its whole time again. -/
def renew (reg : Nat) (now : Time) (σ : State) : Option State :=
  match (σ.regs reg).renews with
  | none => none
  | some lease =>
    match σ.leases lease with
    | none => none
    | some L =>
      if σ.reaches reg ∧ L.live now ∧ σ.clock ≤ now then
        some { σ with
          leases := Function.update σ.leases lease (some { L with deadline := now + L.ttl })
          clock := now }
      else none

def env (e : Event) (σ : State) : Option State :=
  match e with
  | .renew reg now => renew reg now σ
  | .channelClosed reg => some (σ.setReg reg { σ.regs reg with renews := none })
  | .readerDone reg =>
    if (σ.regs reg).leaseID.isSome ∧ (σ.regs reg).done = false ∧
        (σ.ctxDone reg ∨ (σ.regs reg).renews = none) then
      some (σ.setReg reg { σ.regs reg with done := true })
    else none

inductive Call where
  | start
  | stop
  deriving DecidableEq

inductive Res where
  | started (err : Option Err)
  | stopped

def prog (g : Cfg) : Call → ServerProg Res
  | .start => do
    let err ← start g
    return .started err
  | .stop => do
    stop g
    return .stopped

/-- Any number of calls of `Start` and `Stop`. -/
@[reducible] def server (g : Cfg) : Machine serviceSig where
  State := State
  Inp := Inp
  Env := Event
  Call := Call
  Res := Res
  exec := exec
  env := env
  prog := prog g

abbrev Trace (g : Cfg) := List (Label (server g))

abbrev History := List (Ev serviceSig Inp)

end Locache.Service
