import Locache.Group.State

/-!
# What a goroutine knows

`loc h` is what the actions `h` of one goroutine tell about where it stands: the membership it last
routed by, the epoch its last ownership check observed, the mutation state it holds, how far it is
in a singleflight call, and where the value of its current local read came from. `Allowed` says what
it may do there, and `Finished` what is known when a call ends. Every program of a node keeps to
this protocol (`protocol`); the invariants of the shared state are proved from it alone and never
look into a program. `Move` lists once how each allowed action moves its goroutine
(`Allowed.move`).
-/

namespace Locache

open Conc Prog

abbrev History := List (Ev groupSig Inp)

/-- How far a goroutine is in a singleflight call. -/
inductive Stage where
  | outside
  | joined (call : Nat)
  | leading (call : Nat)
  | begun (call start : Nat)
  | loading (call start id : Nat)
  | loaded (call start : Nat) (bytes : Bytes)
  | decided (call : Nat) (result : FlightResult)
  | removed (call : Nat) (result : FlightResult)

/-- Where the value of a local read came from. -/
inductive Out where
  | cached (key : GoString) (view : ByteView)
  | joined (key : GoString) (call : Nat) (result : FlightResult)
  | led (key : GoString) (call : Nat) (result : FlightResult)

structure Loc where
  /-- The last answer an attempt was routed by. -/
  route : Option Pick
  /-- The epoch the last `prepareLocalOwner` observed. -/
  epoch : Option Nat
  /-- The key and the mutation state held for it. -/
  held : Option (GoString × Nat)
  stage : Stage
  out : Option Out

namespace Loc

/-- Before the first action. -/
def fresh : Loc := ⟨none, none, none, .outside, none⟩

def nextRoute : (o : Op) → o.Ans → Option Pick → Option Pick
  | .pickOwner .route _, p, _ => some p
  | _, _, r => r

def nextEpoch : (o : Op) → o.Ans → Option Nat → Option Nat
  | .pickOwner .prepare _, p, _ => some p.epoch
  | _, _, e => e

def nextHeld : (o : Op) → o.Ans → Option (GoString × Nat) → Option (GoString × Nat)
  | .acquireKeyState key, s, _ => some (key, s)
  | .releaseKeyState _ _, _, _ => none
  | _, _, x => x

def nextStage (epoch : Option Nat) : (o : Op) → o.Ans → Stage → Stage
  | .doEnter _, .join c, _ => .joined c
  | .doEnter _, .lead c, _ => .leading c
  | .doWait _, _, _ => .outside
  | .loadBegin _ _, .hit v, .leading c => .decided c (.ok (.ok v))
  | .loadBegin _ _, .generation n, .leading c => .begun c n
  | .getterStart _, id, .begun c n => .loading c n id
  | .getterEnd _, .error p, .loading c _ _ => .decided c (.error p)
  | .getterEnd _, .ok (.error e), .loading c _ _ => .decided c (.ok (.error e))
  | .getterEnd _, .ok (.ok b), .loading c n _ => .loaded c n b
  | .pickOwner .load _, p, .loaded c n b =>
    if p.ok && p.self && some p.epoch = epoch then .loaded c n b
    else .decided c (.ok (.error (.sentinel .topologyChanged)))
  | .loadCommit _ _ _ _, .stored v, .loaded c _ _ => .decided c (.ok (.ok v))
  | .loadCommit _ _ _ _, .existing v, .loaded c _ _ => .decided c (.ok (.ok v))
  | .loadCommit _ _ _ _, .miss, .loaded c _ _ =>
    .decided c (.ok (.error (.sentinel .cacheMiss)))
  | .doRemove _ _, _, .decided c r => .removed c r
  | .doDone _ _, _, _ => .outside
  | _, _, st => st

def nextOut (held : Option (GoString × Nat)) : (o : Op) → o.Ans → Option Out → Option Out
  | .pickOwner .prepare _, _, _ => none
  | .acquireKeyState _, _, _ => none
  | .mainGet key, some v, _ => some (.cached key v)
  | .doWait c, r, out => (held.map fun x => .joined x.1 c r).or out
  | .doDone c r, _, out => (held.map fun x => .led x.1 c r).or out
  | _, _, out => out

/-- After one more action. -/
def next (l : Loc) (o : Op) (a : o.Ans) : Loc where
  route := nextRoute o a l.route
  epoch := nextEpoch o a l.epoch
  held := nextHeld o a l.held
  stage := nextStage l.epoch o a l.stage
  out := nextOut l.held o a l.out

end Loc

def loc : History → Loc
  | [] => .fresh
  | e :: h => (loc h).next e.op e.ans

@[simp] theorem loc_nil : loc [] = .fresh := rfl

@[simp] theorem loc_cons (o : Op) (i : Inp) (a : o.Ans) (h : History) :
    loc (⟨o, i, a⟩ :: h) = (loc h).next o a := rfl

/-- Neither holding a mutation state nor in a singleflight call. -/
def Loc.Idle (l : Loc) : Prop := l.held = none ∧ l.stage = .outside

/-! ## What a call is for -/

namespace Call

def Reads : Call → GoString → Prop
  | .get k, key | .serve _ (.get _ k), key => k = key
  | _, _ => False

def Writes : Call → GoString → Bytes → Prop
  | .set k v, key, value | .serve _ (.set _ k v), key, value => k = key ∧ v = value
  | _, _, _ => False

def Deletes : Call → GoString → Prop
  | .delete k, key | .serve _ (.delete _ k), key | .serve _ (.invalidate _ k), key => k = key
  | _, _ => False

/-- A mutation started on this node, not one it serves. -/
def Starts : Call → GoString → Prop
  | .set k _, key | .delete k, key => k = key
  | _, _ => False

/-- The requests a call makes of peers. -/
def Sends (g : Cfg) : Call → Req → Prop
  | .get k, req => req = .get g.name k
  | .set k v, req => req = .set g.name k v ∨ req = .invalidate g.name k
  | .delete k, req => req = .delete g.name k ∨ req = .invalidate g.name k
  | _, _ => False

end Call

/-! ## Remote reads and near copies -/

/-- The answer `p` names a remote owner and `q` names the same owner under the same epoch. -/
structure SameOwner (p q : Pick) : Prop where
  ok : p.ok = true
  remote : p.self = false
  ok' : q.ok = true
  owner : q.owner = p.owner
  epoch : q.epoch = p.epoch

/-- A remote call that succeeded, made after the owner had been picked as in `p`. -/
def Called (key : GoString) (p : Pick) (req : Req) (resp : Resp) (h : History) : Prop :=
  ∃ c id i₁ i₂ i₃, p.peer = .client (some c) ∧
    [⟨.rpcEnd id, i₃, .ok resp⟩, ⟨.rpcStart c.addr req, i₂, id⟩,
      ⟨.pickOwner .route key, i₁, p⟩].Sublist h

/-- The bytes of `v` were read from the owner of `key`, or written to it, by a call made after the
owner was picked as in `p` and before it was picked again as in `q`. -/
inductive PeerCall (g : Cfg) (key : GoString) (p q : Pick) (v : ByteView) : History → Prop where
  | get {resp : Resp} {i : Inp} {h : History} (hcall : Called key p (.get g.name key) resp h)
      (hv : resp.value = v.b) : PeerCall g key p q v (⟨.pickOwner .verify key, i, q⟩ :: h)
  | set {resp : Resp} {i : Inp} {h : History} (hcall : Called key p (.set g.name key v.b) resp h) :
      PeerCall g key p q v (⟨.pickOwner .refresh key, i, q⟩ :: h)
  | later {e : Ev groupSig Inp} {h : History} (prior : PeerCall g key p q v h) :
      PeerCall g key p q v (e :: h)

/-- Answers no picker gives: epoch zero, or two answers for one key under one epoch. -/
def Odd (h : History) : Prop :=
  ∃ site key i q, (⟨.pickOwner site key, i, q⟩ : Ev groupSig Inp) ∈ h ∧
    (q.epoch = 0 ∨ ∃ site' i' p, (⟨.pickOwner site' key, i', p⟩ : Ev groupSig Inp) ∈ h ∧
      p.epoch = q.epoch ∧ p ≠ q)

/-- What a goroutine that did `h` may insert into the near cache. -/
def NearCopy (g : Cfg) (h : History) (nearKey : GoString) (v : ByteView) : Prop :=
  ∃ key p q, nearKey = Group.nearKey p.epoch key ∧ SameOwner p q ∧ q.self = false ∧
    PeerCall g key p q v h

/-- A remote read, routed by `p`, that found `v` in the near cache or got it from the owner. -/
inductive RemoteRead (g : Cfg) (key : GoString) (p : Pick) (v : ByteView) (h : History) : Prop where
  | near (q : Pick) (i₁ i₂ i₃ : Inp) (hs : SameOwner p q)
      (hh : [⟨.pickOwner .nearHit key, i₃, q⟩, ⟨.nearGet (Group.nearKey p.epoch key), i₂, some v⟩,
        ⟨.pickOwner .route key, i₁, p⟩].Sublist h)
  | peer (q : Pick) (hs : SameOwner p q) (hq : q.self = false) (hcall : PeerCall g key p q v h)

/-- Where the value `v` of a local read of `key` came from. -/
def LocalRead (out : Option Out) (key : GoString) (v : ByteView) : Prop :=
  out = some (.cached key v) ∨
    ∃ c, out = some (.joined key c (.ok (.ok v))) ∨ out = some (.led key c (.ok (.ok v)))

/-! ## The protocol -/

/-- The node was named as the owner of the key when the operation checked. -/
def Checked (g : Cfg) (key : GoString) (h : History) : Prop :=
  g.peers = true → ∃ i p, (⟨.pickOwner .prepare key, i, p⟩ : Ev groupSig Inp) ∈ h ∧ p.self = true

/-- What a goroutine that runs `call` and did `h` may do next. -/
def Allowed (g : Cfg) (call : Call) (h : History) : Op → Prop
  | .casClosed | .mainClose | .nearClose | .unregister => call = .close
  | .mainClear _ | .nearClear _ => call = .clear
  | .mainDelete key => call.Starts key
  | .pickOwner .prepare _ => (loc h).Idle
  | .pickOwner .load key => ∃ s, (loc h).held = some (key, s)
  | .ownerEpoch e => (loc h).epoch = some e
  | .acquireKeyState _ => (loc h).Idle
  | .releaseKeyState key s => (loc h).held = some (key, s) ∧ (loc h).stage = .outside
  | .setSection s key value =>
    call.Writes key value ∧ (loc h).held = some (key, s) ∧ (loc h).stage = .outside
  | .deleteSection s key =>
    call.Deletes key ∧ (loc h).held = some (key, s) ∧ (loc h).stage = .outside
  | .mainGet key => call.Reads key ∧ ∃ s, (loc h).held = some (key, s) ∧ (loc h).stage = .outside
  | .doEnter key => call.Reads key ∧ ∃ s, (loc h).held = some (key, s) ∧ (loc h).stage = .outside
  | .doWait c => ∃ key s, (loc h).held = some (key, s) ∧ (loc h).stage = .joined c
  | .loadBegin s key => (loc h).held = some (key, s) ∧ ∃ c, (loc h).stage = .leading c
  | .getterStart key =>
    Checked g key h ∧ ∃ s, (loc h).held = some (key, s) ∧ ∃ c n, (loc h).stage = .begun c n
  | .getterEnd id => ∃ key s, (loc h).held = some (key, s) ∧ ∃ c n, (loc h).stage = .loading c n id
  | .loadCommit s key n b => (loc h).held = some (key, s) ∧ ∃ c, (loc h).stage = .loaded c n b
  | .doRemove key c => ∃ s, (loc h).held = some (key, s) ∧ ∃ r, (loc h).stage = .decided c r
  | .doDone c r => ∃ key s, (loc h).held = some (key, s) ∧ (loc h).stage = .removed c r
  | .rpcStart _ req => call.Sends g req
  | .nearSet nearKey v ttl =>
    (∃ now i j, [⟨.until (now + g.nearTTL), j, ttl⟩, ⟨.now, i, now⟩] <+: h) ∧
      (NearCopy g h nearKey v ∨ Odd h)
  | _ => True

/-- The near copy of `key` under the current epoch was removed. -/
def Dropped (key : GoString) (h : History) : Prop :=
  ∃ e i j a, [(⟨.nearDelete (Group.nearKey e key), j, a⟩ : Ev groupSig Inp),
    ⟨.epoch, i, e⟩].Sublist h

/-- The peers other than the owner were asked to drop their copies, and all of them have answered or
failed. -/
def Asked (g : Cfg) (key owner : GoString) (h : History) : Prop :=
  ∃ j ts, (⟨.invalidateTargets owner, j, ts⟩ : Ev groupSig Inp) ∈ h ∧
    ∀ c ∈ ts, ∃ id i₁ i₂ reply, [(⟨.rpcEnd id, i₂, reply⟩ : Ev groupSig Inp),
      ⟨.rpcStart c.addr (.invalidate g.name key), i₁, id⟩].Sublist h

/-- The near copies a mutation removed: its own node's, and those of the peers it asked. -/
structure Invalidated (g : Cfg) (key : GoString) (h : History) : Prop where
  near : g.nearCache = true → Dropped key h
  peers : ∃ site i p, (⟨.pickOwner site key, i, p⟩ : Ev groupSig Inp) ∈ h ∧ Asked g key p.owner h

/-- What is known when a call has ended. -/
def Finished (g : Cfg) (call : Call) (h : History) (r : Except Panic Res) : Prop :=
  (loc h).Idle ∧
    match call, r with
    | .get key, .ok (.view (.ok v)) =>
      (∀ p, (loc h).route = some p → p.self = true) ∧ LocalRead (loc h).out key v ∨
        g.peers = true ∧ ∃ p, (loc h).route = some p ∧ RemoteRead g key p v h
    | .set key _, .ok (.done none) | .delete key, .ok (.done none) =>
      g.peers = true → Invalidated g key h
    | .serve _ (.get _ key), .ok (.reply (.ok resp)) => LocalRead (loc h).out key ⟨resp.value⟩
    | .serve _ (.set _ key value), .ok (.reply (.ok _)) =>
      ∃ s i, (⟨.setSection s key value, i, ()⟩ : Ev groupSig Inp) ∈ h
    | .serve _ (.invalidate _ key), .ok (.reply (.ok _)) =>
      g.peers = true → g.nearCache = true → Dropped key h
    | _, _ => True

/-! ## What an action does to its goroutine -/

/-- The actions that change what a goroutine holds or its stage whenever they are made. -/
def Op.moves : Op → Bool
  | .acquireKeyState _ | .releaseKeyState _ _ | .doEnter _ | .doWait _ | .loadBegin _ _
  | .getterStart _ | .getterEnd _ | .loadCommit _ _ _ _ | .doRemove _ _ | .doDone _ _ => true
  | _ => false

/-- **What an action does to the place of its goroutine**, from what it holds and the stage it is at
to what it holds and the stage it is at afterwards. -/
inductive Move (epoch : Option Nat) : (o : Op) → o.Ans → Option (GoString × Nat) → Stage →
    Option (GoString × Nat) → Stage → Prop where
  | acquire {key : GoString} {s : Nat} :
      Move epoch (.acquireKeyState key) s none .outside (some (key, s)) .outside
  | release {key : GoString} {s : Nat} :
      Move epoch (.releaseKeyState key s) () (some (key, s)) .outside none .outside
  | join {key : GoString} {s c : Nat} :
      Move epoch (.doEnter key) (.join c) (some (key, s)) .outside (some (key, s)) (.joined c)
  | lead {key : GoString} {s c : Nat} :
      Move epoch (.doEnter key) (.lead c) (some (key, s)) .outside (some (key, s)) (.leading c)
  | wait {x : GoString × Nat} {c : Nat} {r : FlightResult} :
      Move epoch (.doWait c) r (some x) (.joined c) (some x) .outside
  | hit {key : GoString} {s c : Nat} {v : ByteView} :
      Move epoch (.loadBegin s key) (.hit v) (some (key, s)) (.leading c) (some (key, s))
        (.decided c (.ok (.ok v)))
  | begin {key : GoString} {s c n : Nat} :
      Move epoch (.loadBegin s key) (.generation n) (some (key, s)) (.leading c) (some (key, s))
        (.begun c n)
  | call {key : GoString} {s c n id : Nat} :
      Move epoch (.getterStart key) id (some (key, s)) (.begun c n) (some (key, s))
        (.loading c n id)
  | panicked {x : GoString × Nat} {c n id : Nat} {p : Panic} :
      Move epoch (.getterEnd id) (.error p) (some x) (.loading c n id) (some x)
        (.decided c (.error p))
  | failed {x : GoString × Nat} {c n id : Nat} {err : Err} :
      Move epoch (.getterEnd id) (.ok (.error err)) (some x) (.loading c n id) (some x)
        (.decided c (.ok (.error err)))
  | fetched {x : GoString × Nat} {c n id : Nat} {b : Bytes} :
      Move epoch (.getterEnd id) (.ok (.ok b)) (some x) (.loading c n id) (some x) (.loaded c n b)
  | lost {key : GoString} {s c n : Nat} {b : Bytes} {p : Pick}
      (hp : (p.ok && p.self && some p.epoch = epoch) = false) :
      Move epoch (.pickOwner .load key) p (some (key, s)) (.loaded c n b) (some (key, s))
        (.decided c (.ok (.error (.sentinel .topologyChanged))))
  | stored {key : GoString} {s c n : Nat} {b : Bytes} {v : ByteView} :
      Move epoch (.loadCommit s key n b) (.stored v) (some (key, s)) (.loaded c n b)
        (some (key, s)) (.decided c (.ok (.ok v)))
  | existing {key : GoString} {s c n : Nat} {b : Bytes} {v : ByteView} :
      Move epoch (.loadCommit s key n b) (.existing v) (some (key, s)) (.loaded c n b)
        (some (key, s)) (.decided c (.ok (.ok v)))
  | missed {key : GoString} {s c n : Nat} {b : Bytes} :
      Move epoch (.loadCommit s key n b) .miss (some (key, s)) (.loaded c n b) (some (key, s))
        (.decided c (.ok (.error (.sentinel .cacheMiss))))
  | remove {key : GoString} {s c : Nat} {r : FlightResult} :
      Move epoch (.doRemove key c) () (some (key, s)) (.decided c r) (some (key, s)) (.removed c r)
  | done {x : GoString × Nat} {c : Nat} {r : FlightResult} :
      Move epoch (.doDone c r) () (some x) (.removed c r) (some x) .outside
  | stay {o : Op} {a : o.Ans} {x : Option (GoString × Nat)} {st : Stage} (ho : o.moves = false) :
      Move epoch o a x st x st

/-- What a goroutine may do moves it in one of these ways. -/
theorem Allowed.move {g : Cfg} {call : Call} {h : History} {o : Op} (hallow : Allowed g call h o)
    (a : o.Ans) : Move (loc h).epoch o a (loc h).held (loc h).stage ((loc h).next o a).held
      ((loc h).next o a).stage := by
  cases o with
  | acquireKeyState key =>
    obtain ⟨hheld, hst⟩ := hallow
    simp only [Loc.next, hheld, hst]
    exact .acquire
  | releaseKeyState key s =>
    obtain ⟨hheld, hst⟩ := hallow
    simp only [Loc.next, hheld, hst]
    exact .release
  | doEnter key =>
    obtain ⟨-, s, hheld, hst⟩ := hallow
    cases a with
    | join c =>
      simp only [Loc.next, hheld, hst]
      exact .join
    | lead c =>
      simp only [Loc.next, hheld, hst]
      exact .lead
  | doWait c =>
    obtain ⟨key, s, hheld, hst⟩ := hallow
    simp only [Loc.next, hheld, hst]
    exact .wait
  | loadBegin s key =>
    obtain ⟨hheld, c, hst⟩ := hallow
    cases a with
    | hit v =>
      simp only [Loc.next, hheld, hst]
      exact .hit
    | generation n =>
      simp only [Loc.next, hheld, hst]
      exact .begin
  | getterStart key =>
    obtain ⟨-, s, hheld, c, n, hst⟩ := hallow
    simp only [Loc.next, hheld, hst]
    exact .call
  | getterEnd id =>
    obtain ⟨key, s, hheld, c, n, hst⟩ := hallow
    match a with
    | .error p =>
      simp only [Loc.next, hheld, hst]
      exact .panicked
    | .ok (.error err) =>
      simp only [Loc.next, hheld, hst]
      exact .failed
    | .ok (.ok b) =>
      simp only [Loc.next, hheld, hst]
      exact .fetched
  | loadCommit s key n b =>
    obtain ⟨hheld, c, hst⟩ := hallow
    cases a with
    | stored v =>
      simp only [Loc.next, hheld, hst]
      exact .stored
    | existing v =>
      simp only [Loc.next, hheld, hst]
      exact .existing
    | miss =>
      simp only [Loc.next, hheld, hst]
      exact .missed
  | doRemove key c =>
    obtain ⟨s, hheld, r, hst⟩ := hallow
    simp only [Loc.next, hheld, hst]
    exact .remove
  | doDone c r =>
    obtain ⟨key, s, hheld, hst⟩ := hallow
    simp only [Loc.next, hheld, hst]
    exact .done
  | pickOwner site key =>
    cases site with
    | load =>
      obtain ⟨s, hheld⟩ := hallow
      cases hst : (loc h).stage with
      | loaded c n b =>
        simp only [Loc.next, hheld, hst, Loc.nextStage]
        split
        · exact .stay rfl
        · next hp => exact .lost (Bool.eq_false_of_not_eq_true hp)
      | _ =>
        simp only [Loc.next, hst]
        exact .stay rfl
    | _ => exact .stay rfl
  | _ => exact .stay rfl

end Locache
