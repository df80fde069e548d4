import Locache.Group.Ops

/-!
# The operations of a group

Every function of the group, of its singleflight loader and of the gRPC handlers, as a program over
the atomic actions. The retry loops recurse on the number of attempts that are left, a deferred call
is what runs after `recover`, and a method call on a nil client panics.
-/

namespace Locache

open Conc Prog

/-- What a group is constructed with. Fields that hold a component say only whether it is there; the
caches themselves are part of the state. -/
structure Cfg where
  name : GoString
  getter : Bool
  peers : Bool
  nearCache : Bool
  nearTTL : Duration
  expiration : Duration
  /-- The number of shards `Clear` goes through, of the main cache and of the near cache. -/
  mainShards : Nat
  nearShards : Nat
  /-- What the `%q` verb prints, which only the texts of errors depend on. -/
  quote : GoString → GoString

/-! ## The client of a peer -/

namespace Client

/-- `classifyRPCError` of a non-nil error. -/
def classifyRPCError (err : Err) : Err :=
  match err.code with
  | .failedPrecondition => .wrap [] (.sentinel .topologyChanged) (ascii ": " ++ err.text)
  | .notFound => .wrap [] (.sentinel .cacheMiss) (ascii ": " ++ err.text)
  | _ => err

/-- One remote call of a client; `what` begins the text of its error. The receiver is read first, so
a nil client panics. -/
def call (c : Option Client) (what : GoString) (req : Req) : GoProg (Except Err Resp) :=
  match c with
  | none => raise .nilDeref
  | some c => do
    let id : Nat ← perform (.rpcStart c.addr req)
    let reply : Except Err Resp ← perform (.rpcEnd id)
    match reply with
    | .ok resp => return .ok resp
    | .error err => return .error (.wrap (what ++ c.addr ++ ascii ": ") (classifyRPCError err) [])

def get (c : Option Client) (group key : GoString) : GoProg (Except Err Bytes) := do
  let r ← call c (ascii "grpc get from ") (.get group key)
  return r.map Resp.value

def set (c : Option Client) (group key : GoString) (value : Bytes) : GoProg (Option Err) := do
  match ← call c (ascii "grpc set on ") (.set group key value) with
  | .ok _ => return none
  | .error err => return some err

def delete (c : Option Client) (group key : GoString) : GoProg (Except Err Bool) := do
  let r ← call c (ascii "grpc delete on ") (.delete group key)
  return r.map Resp.removed

/-- The requests `Invalidate` sends before it waits for any of them. -/
def startInvalidates (group key : GoString) : List Client → GoProg (List (Client × Nat))
  | [] => return []
  | c :: cs => do
    let id : Nat ← perform (.rpcStart c.addr (.invalidate group key))
    let rest ← startInvalidates group key cs
    return (c, id) :: rest

/-- The errors of the invalidations that failed. -/
def waitInvalidates : List (Client × Nat) → GoProg (List Err)
  | [] => return []
  | (c, id) :: rest => do
    let reply : Except Err Resp ← perform (.rpcEnd id)
    let errs ← waitInvalidates rest
    match reply with
    | .ok _ => return errs
    | .error err =>
      return .wrap (ascii "invalidate " ++ c.addr ++ ascii ": ")
        (.wrap (ascii "grpc invalidate on " ++ c.addr ++ ascii ": ") (classifyRPCError err) []) []
          :: errs

end Client

/-- `Invalidate` of the picker: all requests are under way before the first reply is waited for. Its
error is nil exactly when the list of errors is empty. -/
def PeerPicker.invalidate (group key exceptOwner : GoString) : GoProg (List Err) := do
  let targets : List Client ← perform (.invalidateTargets exceptOwner)
  let calls ← Client.startInvalidates group key targets
  Client.waitInvalidates calls

/-! ## Singleflight -/

/-- `singleflight.Group.Do`. A panic of `fn` is recorded in the call, and raised again after the
waiters have been woken. -/
def doFlight (key : GoString) (fn : GoProg (Except Err ByteView)) :
    GoProg (Except Err ByteView) := do
  match (← perform (.doEnter key) : Enter) with
  | .join c => do
    let r : FlightResult ← perform (.doWait c)
    rethrow r
  | .lead c => do
    let r ← fn.recover
    perform (.doRemove key c)
    perform (.doDone c r)
    rethrow r

namespace Group

/-- `strconv.FormatUint(epoch, 10) + ":" + key`. -/
def nearKey (epoch : Nat) (key : GoString) : GoString := formatUint epoch ++ ascii ":" ++ key

def count (c : Counter) : GoProg Unit := perform (.count c)

section

variable (g : Cfg)

/-! ## The owner's side -/

def prepareLocalOwner (key : GoString) : GoProg (Except Err Nat) :=
  if !g.peers then return .ok 0
  else do
    let p : Pick ← perform (.pickOwner .prepare key)
    if !p.ok || p.owner = [] then return .error (.sentinel .noOwner)
    else if !p.self then
      return .error (.wrap [] (.sentinel .notOwner) (ascii ": owner=" ++ p.owner))
    else do
      perform (.ownerEpoch p.epoch)
      return .ok p.epoch

def invalidateNearKey (key : GoString) : GoProg Unit :=
  if !g.nearCache then return ()
  else if g.peers then do
    let epoch : Nat ← perform .epoch
    let _ : Bool ← perform (.nearDelete (nearKey epoch key))
    return ()
  else return ()

/-- The check of the loader that the node still owns the key under the same epoch. -/
def stillOwner (key : GoString) (epoch : Nat) : GoProg Bool :=
  if !g.peers then return true
  else do
    let p : Pick ← perform (.pickOwner .load key)
    return p.ok && p.self && p.epoch = epoch

/-- The function `getLocal` hands to singleflight. -/
def load (key : GoString) (epoch state : Nat) : GoProg (Except Err ByteView) := do
  match (← perform (.loadBegin state key) : Begin) with
  | .hit view => return .ok view
  | .generation startGeneration => do
    count .sourceLoads
    let id : Nat ← perform (.getterStart key)
    let out : Except Panic (Except Err Bytes) ← perform (.getterEnd id)
    match ← rethrow out with
    | .error loadErr => do
      count .sourceErrors
      return .error loadErr
    | .ok bytes => do
      if !(← stillOwner g key epoch) then return .error (.sentinel .topologyChanged)
      else
        match (← perform (.loadCommit state key startGeneration bytes) : Commit) with
        | .stored view => return .ok view
        | .existing view => return .ok view
        | .miss => return .error (.sentinel .cacheMiss)

/-- What `getLocal` makes of the error of a load. -/
def loadError (key : GoString) (err : Err) : Err :=
  if err.is .cacheMiss || err.is .topologyChanged || err.is .notOwner then err
  else .wrap (ascii "load " ++ g.quote key ++ ascii " from source: ") err []

/-- The part of `getLocal` during which the key's mutation state is held. -/
def getHeld (key : GoString) (epoch state : Nat) : GoProg (Except Err ByteView) := do
  match (← perform (.mainGet key) : Option ByteView) with
  | some view => do
    count .localHits
    return .ok view
  | none => do
    count .localMisses
    if !g.getter then return .error (.sentinel .cacheMiss)
    else
      match ← doFlight key (load g key epoch state) with
      | .ok view => return .ok view
      | .error err => return .error (loadError g key err)

def getLocal (key : GoString) : GoProg (Except Err ByteView) := do
  if (← perform .loadClosed : Bool) then return .error (.sentinel .groupClosed)
  else
    match ← prepareLocalOwner g key with
    | .error err => return .error err
    | .ok epoch => do
      let state : Nat ← perform (.acquireKeyState key)
      let r ← (getHeld g key epoch state).recover
      perform (.releaseKeyState key state)
      rethrow r

def setLocal (key : GoString) (value : Bytes) : GoProg (Option Err) := do
  if (← perform .loadClosed : Bool) then return some (.sentinel .groupClosed)
  else
    match ← prepareLocalOwner g key, g.peers with
    | .error err, true => return some err
    | _, _ => do
      let state : Nat ← perform (.acquireKeyState key)
      perform (.setSection state key value)
      invalidateNearKey g key
      perform (.releaseKeyState key state)
      return none

def deleteLocal (key : GoString) : GoProg Bool := do
  let state : Nat ← perform (.acquireKeyState key)
  let removed : Bool ← perform (.deleteSection state key)
  invalidateNearKey g key
  perform (.releaseKeyState key state)
  return removed

def deleteOwnerLocal (key : GoString) : GoProg (Except Err Bool) := do
  if (← perform .loadClosed : Bool) then return .error (.sentinel .groupClosed)
  else
    match ← prepareLocalOwner g key, g.peers with
    | .error err, true => return .error err
    | _, _ => do
      let removed ← deleteLocal g key
      return .ok removed

/-! ## The requester's side -/

def invalidateLocalCopies (key : GoString) : GoProg Unit := do
  if g.peers then
    let p : Pick ← perform (.pickOwner .copies key)
    if p.ok && p.owner ≠ [] && !p.self then
      let _ : Bool ← perform (.mainDelete key)
  invalidateNearKey g key

def invalidatePeerCopies (key owner : GoString) : GoProg Unit :=
  if !g.peers then return ()
  else do
    let errs ← PeerPicker.invalidate g.name key owner
    if errs ≠ [] then count .invalidationFailures
    else return ()

/-- `nearCache.AddWithExpiration(nearKey, view, time.Now().Add(nearTTL))`. -/
def addNear (nearKey : GoString) (view : ByteView) : GoProg Unit := do
  let now : Time ← perform .now
  let ttl : Duration ← perform (.until (now + g.nearTTL))
  perform (.nearSet nearKey view ttl)

/-- The near-cache lookup of a remote read: a hit counts only if the owner and the epoch are still
the ones the lookup was made for. -/
def getNear (key : GoString) (p : Pick) : GoProg (Option ByteView) :=
  if !g.nearCache then return none
  else do
    match (← perform (.nearGet (nearKey p.epoch key)) : Option ByteView) with
    | some view => do
      let q : Pick ← perform (.pickOwner .nearHit key)
      if q.ok && q.owner = p.owner && q.epoch = p.epoch then
        count .nearHits
        return some view
      else
        let _ : Bool ← perform (.nearDelete (nearKey p.epoch key))
        count .nearMisses
        return none
    | none => do
      count .nearMisses
      return none

/-- The attempts of `Get` that are left. -/
def getAttempts (key : GoString) : Nat → GoProg (Except Err ByteView)
  | 0 => return .error (.sentinel .topologyChanged)
  | left + 1 => do
    let p : Pick ← perform (.pickOwner .route key)
    if !p.ok || p.owner = [] then return .error (.sentinel .noOwner)
    else if p.self then
      match ← getLocal g key with
      | .ok view => return .ok view
      | .error err =>
        if err.is .topologyChanged || err.is .notOwner then getAttempts key left
        else return .error err
    else
      match p.peer with
      | .nil =>
        return .error (.wrap [] (.sentinel .peerUnavailable) (ascii ": owner=" ++ p.owner))
      | .client c => do
        match ← getNear g key p with
        | some view => return .ok view
        | none =>
          match ← Client.get c g.name key with
          | .error err => do
            count .peerMisses
            if err.is .notOwner || err.is .topologyChanged then
              if left = 0 then return .error (.sentinel .topologyChanged)
              else
                match (← perform (.waitTopology p.epoch) : Option Err) with
                | some waitErr => return .error waitErr
                | none => getAttempts key left
            else
              return .error (.wrap
                (ascii "get " ++ g.quote key ++ ascii " from owner " ++ p.owner ++ ascii ": ")
                err [])
          | .ok bytes => do
            let q : Pick ← perform (.pickOwner .verify key)
            if !q.ok || q.owner ≠ p.owner || q.epoch ≠ p.epoch || q.self then getAttempts key left
            else do
              count .peerHits
              if g.nearCache then addNear g (nearKey p.epoch key) ⟨bytes⟩
              return .ok ⟨bytes⟩

def get (key : GoString) : GoProg (Except Err ByteView) := do
  if (← perform .loadClosed : Bool) then return .error (.sentinel .groupClosed)
  else if key = [] then return .error (.sentinel .keyRequired)
  else if !g.peers then getLocal g key
  else getAttempts g key 4

/-- The end of an attempt of `Set` or `Delete` whose mutation was accepted: leave the loop if the
owner and the epoch are still the ones it was routed by, or else go round again. -/
def checkOwner (key : GoString) (p : Pick) (left : Nat) (finish retry : GoProg (Option Err)) :
    GoProg (Option Err) := do
  let q : Pick ← perform (.pickOwner .verify key)
  if q.ok && q.owner = p.owner && q.epoch = p.epoch then finish
  else if left = 0 then return some (.sentinel .topologyChanged)
  else retry

/-- What `Set` does after its loop. -/
def finishSet (key : GoString) (value : Bytes) (owner : GoString) (stableEpoch : Nat) :
    GoProg (Option Err) := do
  count .sets
  invalidateLocalCopies g key
  invalidatePeerCopies g key owner
  if g.peers && g.nearCache && owner ≠ [] then
    let q : Pick ← perform (.pickOwner .refresh key)
    if q.ok && q.owner = owner && q.epoch = stableEpoch && !q.self then
      addNear g (nearKey stableEpoch key) ⟨value⟩
  return none

/-- The attempts of `Set` that are left; `owner` is the variable the loop assigns. When no attempt
is left the loop falls through to what follows it. -/
def setAttempts (key : GoString) (value : Bytes) : Nat → GoString → GoProg (Option Err)
  | 0, owner => finishSet g key value owner 0
  | left + 1, _ => do
    let p : Pick ← perform (.pickOwner .route key)
    if !p.ok || p.owner = [] then return some (.sentinel .noOwner)
    else
      if p.self then
        match ← setLocal g key value with
        | some err =>
          if err.is .topologyChanged || err.is .notOwner then setAttempts key value left p.owner
          else return some err
        | none =>
          checkOwner key p left (finishSet g key value p.owner p.epoch)
            (setAttempts key value left p.owner)
      else
        match p.peer with
        | .nil =>
          return some (.wrap [] (.sentinel .peerUnavailable) (ascii ": owner=" ++ p.owner))
        | .client c => do
          match ← Client.set c g.name key value with
          | some err =>
            if err.is .notOwner || err.is .topologyChanged then
              if left = 0 then return some (.sentinel .topologyChanged)
              else
                match (← perform (.waitTopology p.epoch) : Option Err) with
                | some waitErr => return some waitErr
                | none => setAttempts key value left p.owner
            else
              return some (.wrap (ascii "set " ++ g.quote key ++ ascii " on owner " ++ p.owner ++
                ascii ": ") err [])
          | none =>
            checkOwner key p left (finishSet g key value p.owner p.epoch)
              (setAttempts key value left p.owner)

def set (key : GoString) (value : Bytes) : GoProg (Option Err) := do
  if (← perform .loadClosed : Bool) then return some (.sentinel .groupClosed)
  else if key = [] then return some (.sentinel .keyRequired)
  else if value = [] then return some (.sentinel .valueRequired)
  else if !g.peers then
    match ← setLocal g key value with
    | some err => return some err
    | none => finishSet g key value [] 0
  else setAttempts g key value 4 []

/-- What `Delete` does after its loop. -/
def finishDelete (key owner : GoString) : GoProg (Option Err) := do
  count .deletes
  invalidateLocalCopies g key
  invalidatePeerCopies g key owner
  return none

/-- The attempts of `Delete` that are left. -/
def deleteAttempts (key : GoString) : Nat → GoString → GoProg (Option Err)
  | 0, owner => finishDelete g key owner
  | left + 1, _ => do
    let p : Pick ← perform (.pickOwner .route key)
    if !p.ok || p.owner = [] then return some (.sentinel .noOwner)
    else
      if p.self then
        let _ ← deleteLocal g key
        checkOwner key p left (finishDelete g key p.owner) (deleteAttempts key left p.owner)
      else
        match p.peer with
        | .nil =>
          return some (.wrap [] (.sentinel .peerUnavailable) (ascii ": owner=" ++ p.owner))
        | .client c => do
          match ← Client.delete c g.name key with
          | .error err =>
            if err.is .notOwner || err.is .topologyChanged then
              if left = 0 then return some (.sentinel .topologyChanged)
              else
                match (← perform (.waitTopology p.epoch) : Option Err) with
                | some waitErr => return some waitErr
                | none => deleteAttempts key left p.owner
            else
              return some (.wrap (ascii "delete " ++ g.quote key ++ ascii " on owner " ++ p.owner ++
                ascii ": ") err [])
          | .ok _ =>
            checkOwner key p left (finishDelete g key p.owner) (deleteAttempts key left p.owner)

def delete (key : GoString) : GoProg (Option Err) := do
  if (← perform .loadClosed : Bool) then return some (.sentinel .groupClosed)
  else if key = [] then return some (.sentinel .keyRequired)
  else if !g.peers then
    let _ ← deleteLocal g key
    finishDelete g key []
  else deleteAttempts g key 4 []

/-- Clear the shards from `i` on, `n` of them. -/
def clearMainFrom (i : Nat) : Nat → GoProg Unit
  | 0 => return ()
  | n + 1 => do
    perform (.mainClear i)
    clearMainFrom (i + 1) n

def clearNearFrom (i : Nat) : Nat → GoProg Unit
  | 0 => return ()
  | n + 1 => do
    perform (.nearClear i)
    clearNearFrom (i + 1) n

def clear : GoProg Unit := do
  if (← perform .loadClosed : Bool) then return ()
  else
    clearMainFrom 0 g.mainShards
    if g.nearCache then clearNearFrom 0 g.nearShards

def close : GoProg Unit := do
  if !(← perform .casClosed : Bool) then return ()
  else
    perform .mainClose
    if g.nearCache then perform .nearClose
    perform .unregister

end

end Group

/-! ## The handlers of the server -/

namespace Server

/-- `mapGroupError` of a non-nil error. -/
def mapGroupError (err : Err) : Err :=
  if err.is .notOwner || err.is .topologyChanged || err.is .noOwner then
    .status .failedPrecondition err.text
  else if err.is .cacheMiss then .status .notFound err.text
  else if err.is .groupClosed then .status .unavailable err.text
  else err

/-- The group a request names, or the handler's error. -/
def withGroup (name : GoString) (handler : GoProg (Except Err Resp)) :
    GoProg (Except Err Resp) := do
  if (← perform (.getGroup name) : Bool) then handler
  else return .error (.other (ascii "group " ++ name ++ ascii " not found"))

section

variable (g : Cfg)

def get (group key : GoString) : GoProg (Except Err Resp) := withGroup group do
  match ← Group.getLocal g key with
  | .ok view => return .ok ⟨view.byteSlice, false⟩
  | .error err => return .error (mapGroupError err)

def set (group key : GoString) (value : Bytes) : GoProg (Except Err Resp) := withGroup group do
  match ← Group.setLocal g key value with
  | none => return .ok ⟨value, false⟩
  | some err => return .error (mapGroupError err)

/-- An invalidation is local only; any other Delete is for the owner. -/
def delete (invalidation : Bool) (group key : GoString) : GoProg (Except Err Resp) :=
  withGroup group do
    if invalidation then
      let removed ← Group.deleteLocal g key
      return .ok ⟨[], removed⟩
    else
      match ← Group.deleteOwnerLocal g key with
      | .ok removed => return .ok ⟨[], removed⟩
      | .error err => return .error (mapGroupError err)

/-- The handler a request is dispatched to. -/
def handle : Req → GoProg (Except Err Resp)
  | .get group key => get g group key
  | .set group key value => set g group key value
  | .delete group key => delete g false group key
  | .invalidate group key => delete g true group key

end

end Server

end Locache
