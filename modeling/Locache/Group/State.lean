import Locache.Conc.Machine
import Locache.Group.Program

/-!
# The state of a node and its runs

A node holds the caches of its group, the reference-counted mutation states, the singleflight map
and the membership its picker knows. `exec` gives every action its meaning. What the runtime decides
(clock readings, the order of a range over a map, the outcome of the Getter and of a remote call) is
an input of the action, so a statement about all runs is about all of these.

Clock readings never decrease: an action reads the clock at `Inp.now` at the earliest and at
`Inp.last` at the latest.
-/

namespace Locache

open Conc

/-- A `keyMutationState`; `generation` is a `uint64`. -/
structure MutationState where
  generation : Nat
  refs : Int
  deriving DecidableEq, Repr

/-- The generation after one more mutation. -/
def MutationState.bump (s : MutationState) : MutationState :=
  { s with generation := (s.generation + 1) % 2 ^ 64 }

/-- What the picker answers while the membership stays as it is. -/
structure Topology where
  epoch : Nat
  pick : GoString → Pick
  /-- The clients of the peers, in the order a range over the map visits them. -/
  clients : List Client
  /-- `PickOwner` and `Epoch` read the same epoch. -/
  pick_epoch : ∀ key, (pick key).epoch = epoch
  /-- The client `PickOwner` returns is the owner's. -/
  pick_addr : ∀ key c, (pick key).peer = .client (some c) → c.addr = (pick key).owner

structure State where
  main : Cache
  near : Cache
  closed : Bool
  registered : Bool
  ownerEpoch : Nat
  keyStates : GoString → Option Nat
  states : Nat → MutationState
  nextState : Nat
  flights : GoString → Option Nat
  calls : Nat → Option FlightResult
  nextCall : Nat
  topology : Topology
  /-- The epochs of this and of the earlier memberships. -/
  epochs : List Nat
  nextGetter : Nat
  nextRpc : Nat
  stats : Counter → Nat
  clock : Time

/-- What the runtime and the world put into an action. The later clock readings of one action are
given by how long after the one before they are taken. -/
structure Inp where
  now : Time
  lag₁ : Nat
  lag₂ : Nat
  lag₃ : Nat
  order : List GoString
  getter : Except Panic (Except Err Bytes)
  reply : Except Err Resp
  wait : Option Err

namespace Inp

def now₁ (i : Inp) : Time := i.now + i.lag₁

def now₂ (i : Inp) : Time := i.now₁ + i.lag₂

def last (i : Inp) : Time := i.now₂ + i.lag₃

end Inp

namespace Group

/-- `addOwnerValue`: the readings are the one the deadline is computed from, the one
`AddWithExpiration` takes, and those of the store. -/
def addOwnerValue (g : Cfg) (key : GoString) (view : ByteView) (i : Inp) (main : Cache) : Cache :=
  if 0 < g.expiration then
    main.addWithExpiration key view (i.now + g.expiration) i.now₁ i.now₂ i.last i.order
  else main.add key view i.now i.last i.order

/-- What a joining or leading call of `Do` finds, and the state after it. -/
def doEnter (key : GoString) (σ : State) : Enter × State :=
  match σ.flights key with
  | some c => (.join c, σ)
  | none =>
    (.lead σ.nextCall,
      { σ with
        flights := Function.update σ.flights key (some σ.nextCall)
        nextCall := σ.nextCall + 1 })

def acquireKeyState (key : GoString) (σ : State) : Nat × State :=
  match σ.keyStates key with
  | some s =>
    (s, { σ with
      states := Function.update σ.states s { σ.states s with refs := (σ.states s).refs + 1 } })
  | none =>
    (σ.nextState, { σ with
      keyStates := Function.update σ.keyStates key (some σ.nextState)
      states := Function.update σ.states σ.nextState ⟨0, 1⟩
      nextState := σ.nextState + 1 })

def releaseKeyState (key : GoString) (s : Nat) (σ : State) : State :=
  let st : MutationState := { σ.states s with refs := (σ.states s).refs - 1 }
  { σ with
    states := Function.update σ.states s st
    keyStates :=
      if st.refs = 0 ∧ σ.keyStates key = some s then Function.update σ.keyStates key none
      else σ.keyStates }

/-- The section of `prepareLocalOwner` under `ownerEpochMu`. -/
def checkOwnerEpoch (epoch : Nat) (order : List GoString) (σ : State) : State :=
  if σ.ownerEpoch = 0 then { σ with ownerEpoch := epoch }
  else if σ.ownerEpoch ≠ epoch then { σ with main := σ.main.clear order, ownerEpoch := epoch }
  else σ

/-- The loader's first section under `state.mu`. -/
def loadBegin (s : Nat) (key : GoString) (now : Time) (σ : State) : Begin × State :=
  let r := σ.main.get now key
  let σ' := { σ with main := r.2 }
  match r.1 with
  | some view => (.hit view, σ')
  | none => (.generation (σ.states s).generation, σ')

/-- The loader's second section under `state.mu`. -/
def loadCommit (g : Cfg) (s : Nat) (key : GoString) (start : Nat) (bytes : Bytes) (i : Inp)
    (σ : State) : Commit × State :=
  if (σ.states s).generation ≠ start then
    let r := σ.main.get i.now key
    let σ' := { σ with main := r.2 }
    match r.1 with
    | some view => (.existing view, σ')
    | none => (.miss, σ')
  else (.stored ⟨bytes⟩, { σ with main := addOwnerValue g key ⟨bytes⟩ i σ.main })

def setSection (g : Cfg) (s : Nat) (key : GoString) (value : Bytes) (i : Inp) (σ : State) : State :=
  { σ with
    states := Function.update σ.states s (σ.states s).bump
    main := addOwnerValue g key ⟨value⟩ i σ.main }

def deleteSection (s : Nat) (key : GoString) (σ : State) : Bool × State :=
  ((σ.main.delete key).1,
    { σ with
      states := Function.update σ.states s (σ.states s).bump
      main := (σ.main.delete key).2 })

/-- What an action does. Waiting for a call that is not done is not enabled. -/
def act (g : Cfg) (i : Inp) (σ : State) : (o : Op) → Option (o.Ans × State)
  | .loadClosed => some (σ.closed, σ)
  | .casClosed => some (!σ.closed, { σ with closed := true })
  | .getGroup name => some (σ.registered && name = g.name, σ)
  | .unregister => some ((), { σ with registered := false })
  | .count c => some ((), { σ with stats := Function.update σ.stats c (σ.stats c + 1) })
  | .pickOwner _ key => some (σ.topology.pick key, σ)
  | .epoch => some (σ.topology.epoch, σ)
  | .invalidateTargets owner => some (σ.topology.clients.filter fun c => c.addr ≠ owner, σ)
  | .waitTopology _ => some (i.wait, σ)
  | .ownerEpoch e => some ((), checkOwnerEpoch e i.order σ)
  | .acquireKeyState key => some (acquireKeyState key σ)
  | .releaseKeyState key s => some ((), releaseKeyState key s σ)
  | .mainGet key => some ((σ.main.get i.now key).1, { σ with main := (σ.main.get i.now key).2 })
  | .mainDelete key => some ((σ.main.delete key).1, { σ with main := (σ.main.delete key).2 })
  | .mainClear shard => some ((), { σ with main := σ.main.clearShard shard i.order })
  | .mainClose => some ((), { σ with main := σ.main.close })
  | .nearGet key => some ((σ.near.get i.now key).1, { σ with near := (σ.near.get i.now key).2 })
  | .nearDelete key => some ((σ.near.delete key).1, { σ with near := (σ.near.delete key).2 })
  | .nearClear shard => some ((), { σ with near := σ.near.clearShard shard i.order })
  | .nearClose => some ((), { σ with near := σ.near.close })
  | .now => some (i.now, σ)
  | .until deadline => some (Cache.ttl deadline i.now, σ)
  | .nearSet key view ttl =>
    some ((), { σ with near := σ.near.addFor key view ttl i.now i.last i.order })
  | .doEnter key => some (doEnter key σ)
  | .doWait c => (σ.calls c).map fun r => (r, σ)
  | .doRemove key c =>
    some ((), { σ with
      flights := if σ.flights key = some c then Function.update σ.flights key none else σ.flights })
  | .doDone c r => some ((), { σ with calls := Function.update σ.calls c (some r) })
  | .loadBegin s key => some (loadBegin s key i.now σ)
  | .getterStart _ => some (σ.nextGetter, { σ with nextGetter := σ.nextGetter + 1 })
  | .getterEnd _ => some (i.getter, σ)
  | .loadCommit s key start bytes => some (loadCommit g s key start bytes i σ)
  | .setSection s key value => some ((), setSection g s key value i σ)
  | .deleteSection s key => some (deleteSection s key σ)
  | .rpcStart _ _ => some (σ.nextRpc, { σ with nextRpc := σ.nextRpc + 1 })
  | .rpcEnd _ => some (i.reply, σ)

end Group

/-- What a node does on its own account: its picker learns of another membership, which has an epoch
of its own, or a cleanup tick sweeps one shard of a cache. -/
inductive Event where
  | membership (T : Topology)
  | cleanupMain (shard : Nat) (order : List GoString) (now : Time)
  | cleanupNear (shard : Nat) (order : List GoString) (now : Time)

/-- What may be started on a node; a request carries the node and the number of the remote call it
belongs to. -/
inductive Call where
  | get (key : GoString)
  | set (key : GoString) (value : Bytes)
  | delete (key : GoString)
  | clear
  | close
  | serve (src : GoString × Nat) (req : Req)

inductive Res where
  | view (r : Except Err ByteView)
  | done (r : Option Err)
  | reply (r : Except Err Resp)
  | unit
  deriving DecidableEq

namespace Node

/-- An action, at a clock reading that is not in the past. -/
def exec (g : Cfg) (o : Op) (i : Inp) (σ : State) : Option (o.Ans × State) :=
  if i.now < σ.clock then none
  else (Group.act g i σ o).map fun r => (r.1, { r.2 with clock := i.last })

def env (e : Event) (σ : State) : Option State :=
  match e with
  | .membership T =>
    if 0 < T.epoch ∧ T.epoch ∉ σ.epochs then
      some { σ with topology := T, epochs := T.epoch :: σ.epochs }
    else none
  | .cleanupMain shard order now =>
    if now < σ.clock then none
    else some { σ with main := σ.main.cleanupShard shard order now, clock := now }
  | .cleanupNear shard order now =>
    if now < σ.clock then none
    else some { σ with near := σ.near.cleanupShard shard order now, clock := now }

/-- The program a call runs. -/
def prog (g : Cfg) : Call → GoProg Res
  | .get key => do return .view (← Group.get g key)
  | .set key value => do return .done (← Group.set g key value)
  | .delete key => do return .done (← Group.delete g key)
  | .clear => do
    Group.clear g
    return .unit
  | .close => do
    Group.close g
    return .unit
  | .serve _ req => do return .reply (← Server.handle g req)

end Node

/-- A node as a machine. -/
@[reducible] def node (g : Cfg) : Machine groupSig where
  State := State
  Inp := Inp
  Env := Event
  Call := Call
  Res := Res
  exec := Node.exec g
  env := Node.env
  prog := Node.prog g

/-- A group that has just been constructed: its caches are empty and open. -/
structure State.Fresh (σ : State) : Prop where
  main_wf : σ.main.WF
  main_view : ∀ k, σ.main.view k = none
  near_wf : σ.near.WF
  near_view : ∀ k, σ.near.view k = none
  ownerEpoch : σ.ownerEpoch = 0
  keyStates : ∀ k, σ.keyStates k = none
  flights : ∀ k, σ.flights k = none
  calls : ∀ c, σ.calls c = none
  epoch : 0 < σ.topology.epoch
  epochs : σ.epochs = [σ.topology.epoch]

/-- What `NewGroup` builds from its caches and its picker. -/
def State.new (main near : Cache) (T : Topology) (clock : Time) : State where
  main := main
  near := near
  closed := false
  registered := true
  ownerEpoch := 0
  keyStates := fun _ => none
  states := fun _ => ⟨0, 0⟩
  nextState := 0
  flights := fun _ => none
  calls := fun _ => none
  nextCall := 0
  topology := T
  epochs := [T.epoch]
  nextGetter := 0
  nextRpc := 0
  stats := fun _ => 0
  clock := clock

theorem State.fresh_new (maxMain maxNear : Int) {T : Topology} (hT : 0 < T.epoch) (clock : Time) :
    (State.new (Cache.newLRU maxMain) (Cache.newLRU maxNear) T clock).Fresh where
  main_wf := Cache.wf_newLRU maxMain
  main_view := Cache.view_newLRU maxMain
  near_wf := Cache.wf_newLRU maxNear
  near_view := Cache.view_newLRU maxNear
  ownerEpoch := rfl
  keyStates := fun _ => rfl
  flights := fun _ => rfl
  calls := fun _ => rfl
  epoch := hT
  epochs := rfl

/-! ## Small groups

A read-through group on a single node, and one that shares the keys with a peer, for runs that are
written out. -/

/-- A picker that knows its own node only. -/
def Topology.solo : Topology where
  epoch := 1
  pick := fun _ => ⟨ascii "a", .nil, true, 1, true⟩
  clients := []
  pick_epoch := fun _ => rfl
  pick_addr := fun _ _ h => by cases h

def Cfg.solo : Cfg where
  name := ascii "g"
  getter := true
  peers := false
  nearCache := false
  nearTTL := 0
  expiration := 0
  mainShards := 1
  nearShards := 1
  quote := id

def State.solo : State := .new (.newLRU 0) (.newLRU 0) .solo 0

theorem State.fresh_solo : State.solo.Fresh := State.fresh_new 0 0 (by decide) 0

/-- The node `a` owns every key. -/
def pickSelf (n : Nat) : Pick := ⟨ascii "a", .nil, true, n, true⟩

/-- The node `b` owns every key. -/
def pickOther (n : Nat) : Pick := ⟨ascii "b", .client (some ⟨ascii "b"⟩), false, n, true⟩

def Topology.mine (n : Nat) : Topology where
  epoch := n
  pick := fun _ => pickSelf n
  clients := [⟨ascii "b"⟩]
  pick_epoch := fun _ => rfl
  pick_addr := fun _ _ h => by cases h

def Topology.theirs (n : Nat) : Topology where
  epoch := n
  pick := fun _ => pickOther n
  clients := [⟨ascii "b"⟩]
  pick_epoch := fun _ => rfl
  pick_addr := fun _ _ h => by cases h; rfl

/-- A group with peers. -/
def Cfg.pair : Cfg := { Cfg.solo with peers := true }

/-- The node `a` of the pair, when it owns every key. -/
def State.pair : State := .new (.newLRU 0) (.newLRU 0) (.mine 1) 0

theorem State.fresh_pair : State.pair.Fresh := State.fresh_new 0 0 (by decide) 0

/-- The same with a near cache. -/
def Cfg.pairNear : Cfg := { Cfg.pair with nearCache := true, nearTTL := 100 }

/-- The node `a` of the pair, when the other node owns every key. -/
def State.guest : State := .new (.newLRU 0) (.newLRU 0) (.theirs 1) 0

theorem State.fresh_guest : State.guest.Fresh := State.fresh_new 0 0 (by decide) 0

/-- An action at time zero; a Getter call returns `b`. -/
def Inp.fetch (b : Bytes) : Inp where
  now := 0
  lag₁ := 0
  lag₂ := 0
  lag₃ := 0
  order := []
  getter := .ok (.ok b)
  reply := .ok ⟨[], false⟩
  wait := none

/-- An action at time zero; a Getter call returns the error `e`. -/
def Inp.failing (e : Err) : Inp := { Inp.fetch [] with getter := .ok (.error e) }

/-- An action at time zero; the owner answers with `b`. -/
def Inp.answer (b : Bytes) : Inp := { Inp.fetch [] with reply := .ok ⟨b, false⟩ }

end Locache
