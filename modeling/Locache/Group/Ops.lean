import Locache.Cache
import Locache.Conc.Prog

/-!
# The atomic actions of a group

A group's operations are programs over the actions listed here. Each action is one step of the
source that no other goroutine can cut in two: a section under a mutex, one call into a cache, one
atomic read, the start or the return of a Getter call or of a remote call, or a clock reading.
-/

namespace Locache

/-- A gRPC client of a peer. Its connection and timeout decide only how a call may fail. -/
structure Client where
  addr : GoString
  deriving DecidableEq, Repr

/-- A value of the `Peer` interface: the nil interface, or a `*Client`, which may be a nil pointer.
A nil pointer in the interface is not equal to the nil interface. -/
inductive Peer where
  | nil
  | client (c : Option Client)
  deriving DecidableEq, Repr

/-- The answer of `PickOwner`. -/
structure Pick where
  owner : GoString
  peer : Peer
  self : Bool
  epoch : Nat
  ok : Bool
  deriving DecidableEq, Repr

/-- A request to a peer. An invalidation is a Delete that carries the invalidation metadata. -/
inductive Req where
  | get (group key : GoString)
  | set (group key : GoString) (value : Bytes)
  | delete (group key : GoString)
  | invalidate (group key : GoString)
  deriving DecidableEq, Repr

/-- The value of a response: bytes for Get and Set, a flag for Delete. -/
structure Resp where
  value : Bytes
  removed : Bool
  deriving DecidableEq, Repr

/-- What a goroutine panics with. -/
inductive Panic where
  | nilDeref
  | getter (value : GoString)
  deriving DecidableEq, Repr

/-- How a singleflight call ended: a panic, or the value and error of its function. -/
abbrev FlightResult := Except Panic (Except Err ByteView)

/-- What the first section of `Do` finds. -/
inductive Enter where
  | join (call : Nat)
  | lead (call : Nat)
  deriving DecidableEq, Repr

/-- What the loader's first section under `state.mu` finds. -/
inductive Begin where
  | hit (view : ByteView)
  | generation (start : Nat)
  deriving DecidableEq, Repr

/-- What the loader's second section under `state.mu` does. -/
inductive Commit where
  | stored (view : ByteView)
  | existing (view : ByteView)
  | miss
  deriving DecidableEq, Repr

/-- The counters of `groupStats`, less the duration of the source loads. -/
inductive Counter where
  | localHits
  | localMisses
  | nearHits
  | nearMisses
  | peerHits
  | peerMisses
  | sourceLoads
  | sourceErrors
  | sets
  | deletes
  | invalidationFailures
  deriving DecidableEq, Repr

/-- Where `PickOwner` is called from: at the start of an attempt, after a near-cache hit, after the
owner answered, before the writer's near copy is refreshed, in `invalidateLocalCopies`, in
`prepareLocalOwner` and in the loader. The answer does not depend on it. -/
inductive Site where
  | route
  | nearHit
  | verify
  | refresh
  | copies
  | prepare
  | load
  deriving DecidableEq, Repr

inductive Op where
  | loadClosed
  | casClosed
  | getGroup (name : GoString)
  | unregister
  | count (c : Counter)
  | pickOwner (site : Site) (key : GoString)
  | epoch
  | invalidateTargets (exceptOwner : GoString)
  | waitTopology (epoch : Nat)
  | ownerEpoch (epoch : Nat)
  | acquireKeyState (key : GoString)
  | releaseKeyState (key : GoString) (state : Nat)
  | mainGet (key : GoString)
  | mainDelete (key : GoString)
  | mainClear (shard : Nat)
  | mainClose
  | nearGet (nearKey : GoString)
  | nearDelete (nearKey : GoString)
  | nearClear (shard : Nat)
  | nearClose
  | now
  | until (deadline : Time)
  | nearSet (nearKey : GoString) (view : ByteView) (ttl : Duration)
  | doEnter (key : GoString)
  | doWait (call : Nat)
  | doRemove (key : GoString) (call : Nat)
  | doDone (call : Nat) (result : FlightResult)
  | loadBegin (state : Nat) (key : GoString)
  | getterStart (key : GoString)
  | getterEnd (id : Nat)
  | loadCommit (state : Nat) (key : GoString) (start : Nat) (bytes : Bytes)
  | setSection (state : Nat) (key : GoString) (value : Bytes)
  | deleteSection (state : Nat) (key : GoString)
  | rpcStart (addr : GoString) (req : Req)
  | rpcEnd (id : Nat)

@[reducible] def Op.Ans : Op → Type
  | .loadClosed | .casClosed | .getGroup _ => Bool
  | .pickOwner _ _ => Pick
  | .epoch => Nat
  | .invalidateTargets _ => List Client
  | .waitTopology _ => Option Err
  | .acquireKeyState _ => Nat
  | .mainGet _ | .nearGet _ => Option ByteView
  | .mainDelete _ | .nearDelete _ | .deleteSection _ _ => Bool
  | .now => Time
  | .until _ => Duration
  | .doEnter _ => Enter
  | .doWait _ => FlightResult
  | .loadBegin _ _ => Begin
  | .getterStart _ => Nat
  | .getterEnd _ => Except Panic (Except Err Bytes)
  | .loadCommit _ _ _ _ => Commit
  | .rpcStart _ _ => Nat
  | .rpcEnd _ => Except Err Resp
  | _ => Unit

/-- The signature of the group's programs. -/
@[reducible] def groupSig : Conc.Sig := ⟨Op, Op.Ans, Panic⟩

abbrev GoProg := Conc.Prog groupSig

/-- Perform one action. -/
abbrev perform (o : Op) : GoProg o.Ans := Conc.Prog.op (S := groupSig) o

end Locache
