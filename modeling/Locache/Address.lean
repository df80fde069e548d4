import Locache.Net
import Locache.Picker.Watch

/-!
# The address of a node

A server registers the address that `normalizeAddress` makes of its own, and the picker of the node
is built from that address. The addresses that `normalizeAddress` returns are those it leaves alone
(`Normal`), so the picker takes the registered address for the node itself and the ring holds the
node once (`normalizeAddress_idempotent`).
-/

namespace Locache

open Conc Net

/-- The IPv4 address that `GetLocalIP` looks for at an interface. -/
def routable : Addr → Option Bytes
  | .ipNet ip => if isLoopback ip then none else to4 ip
  | .other => none

/-- `interfaceAddrs` is what `net.InterfaceAddrs` returns. -/
def getLocalIP (interfaceAddrs : Except Err (List Addr)) : Except Err GoString := do
  let addrs ← interfaceAddrs
  match addrs.findSome? routable with
  | some ip => .ok (dotted ip)
  | none => .error (.other (ascii "no routable IPv4 address found"))

/-- The hosts that a listener takes for all interfaces. -/
def Wildcard (host : GoString) : Prop :=
  host = [] ∨ host = ascii "0.0.0.0" ∨ host = ascii "::" ∨ host = ascii "[::]"

instance (host : GoString) : Decidable (Wildcard host) := inferInstanceAs (Decidable (_ ∨ _))

/-- `quote` is the verb `%q`. -/
def normalizeAddress (quote : GoString → GoString) (interfaceAddrs : Except Err (List Addr))
    (addr : GoString) : Except Err GoString := do
  let (host, port) ← (splitHostPort addr).mapError fun err =>
    .wrap (ascii "invalid address " ++ quote addr ++ ascii ": ") err []
  if port = [] then
    .error (.other (ascii "missing port in address " ++ quote addr))
  else
    let host ← if Wildcard host then getLocalIP interfaceAddrs else .ok host
    .ok (joinHostPort (trim host (ascii "[]")) port)

/-! ## Normal addresses -/

/-- An address with a port and a host that is not a wildcard. -/
inductive Normal : GoString → Prop where
  | mk {host port : GoString} (hhost : Plain host) (hwild : ¬ Wildcard host) (hport : Plain port)
      (hcolon : colon ∉ port) (hne : port ≠ []) : Normal (joinHostPort host port)

variable {quote : GoString → GoString} {interfaceAddrs : Except Err (List Addr)}
  {addr host ip : GoString}

theorem trim_brackets (h : Plain host) : trim host (ascii "[]") = host := by
  apply trim_eq_self
  intro b hb hcut
  rcases List.mem_cons.1 hcut with rfl | hcut
  · exact h.1 hb
  · cases List.mem_singleton.1 hcut
    exact h.2 hb

/-- What `GetLocalIP` returns is the text of an IPv4 address. -/
theorem exists_dotted_of_getLocalIP (h : getLocalIP interfaceAddrs = .ok ip) :
    ∃ ip4, ip4 ≠ [] ∧ ip = dotted ip4 := by
  cases interfaceAddrs with
  | error err => cases h
  | ok addrs =>
    dsimp only [getLocalIP, bind, Except.bind] at h
    split at h
    · next ip4 hfound =>
      cases h
      obtain ⟨a, -, ha⟩ := List.exists_of_findSome?_eq_some hfound
      refine ⟨ip4, ?_, rfl⟩
      cases a with
      | ipNet raw =>
        dsimp only [routable] at ha
        split at ha
        · cases ha
        · exact to4_ne_nil ha
      | other => cases ha
    · cases h

theorem getLocalIP_plain (h : getLocalIP interfaceAddrs = .ok ip) : Plain ip ∧ colon ∉ ip := by
  obtain ⟨ip4, -, rfl⟩ := exists_dotted_of_getLocalIP h
  refine ⟨⟨?_, ?_⟩, ?_⟩
  · exact fun hb => absurd (mem_dotted hb).2 (by decide)
  · exact fun hb => absurd (mem_dotted hb).2 (by decide)
  · exact fun hb => absurd (mem_dotted hb).2 (by decide)

theorem getLocalIP_not_wildcard (h : getLocalIP interfaceAddrs = .ok ip)
    (hip : ip ≠ ascii "0.0.0.0") : ¬ Wildcard ip := by
  have hcolon := (getLocalIP_plain h).2
  obtain ⟨ip4, hne, rfl⟩ := exists_dotted_of_getLocalIP h
  rintro (hnil | hzero | hv6 | hv6)
  · exact dotted_ne_nil hne hnil
  · exact hip hzero
  · exact hcolon (hv6 ▸ by decide)
  · exact hcolon (hv6 ▸ by decide)

/-- What `normalizeAddress` has done when it returns an address. -/
theorem normalizeAddress_eq_ok {r : GoString}
    (h : normalizeAddress quote interfaceAddrs addr = .ok r) :
    ∃ raw host port, splitHostPort addr = .ok (raw, port) ∧ port ≠ [] ∧
      (Wildcard raw ∧ getLocalIP interfaceAddrs = .ok host ∨ ¬ Wildcard raw ∧ host = raw) ∧
      r = joinHostPort (trim host (ascii "[]")) port := by
  unfold normalizeAddress at h
  cases hsplit : splitHostPort addr with
  | error err =>
    rw [hsplit] at h
    cases h
  | ok hostport =>
    obtain ⟨raw, port⟩ := hostport
    rw [hsplit] at h
    change (if port = [] then _ else _) = _ at h
    split at h
    · cases h
    next hne =>
    by_cases hwild : Wildcard raw
    · rw [if_pos hwild] at h
      cases hlocal : getLocalIP interfaceAddrs with
      | error err =>
        rw [hlocal] at h
        cases h
      | ok ip =>
        rw [hlocal] at h
        cases h
        exact ⟨raw, ip, port, rfl, hne, Or.inl ⟨hwild, rfl⟩, rfl⟩
    · rw [if_neg hwild] at h
      cases h
      exact ⟨raw, raw, port, rfl, hne, Or.inr ⟨hwild, rfl⟩, rfl⟩

/-- **A result of `normalizeAddress` is normal.** -/
theorem normal_of_normalizeAddress {r : GoString}
    (hip : getLocalIP interfaceAddrs ≠ .ok (ascii "0.0.0.0"))
    (h : normalizeAddress quote interfaceAddrs addr = .ok r) : Normal r := by
  obtain ⟨raw, host, port, hsplit, hne, hhost, rfl⟩ := normalizeAddress_eq_ok h
  obtain ⟨hraw, hport, hcolon, -⟩ := splitHostPort_sound hsplit
  rcases hhost with ⟨-, hlocal⟩ | ⟨hwild, rfl⟩
  · have hplain := (getLocalIP_plain hlocal).1
    rw [trim_brackets hplain]
    refine .mk hplain (getLocalIP_not_wildcard hlocal ?_) hport hcolon hne
    rintro rfl
    exact hip hlocal
  · rw [trim_brackets hraw]
    exact .mk hraw hwild hport hcolon hne

/-- **A normal address stays as it is**, whatever the interfaces are. -/
theorem Normal.normalizeAddress (h : Normal addr) :
    normalizeAddress quote interfaceAddrs addr = .ok addr := by
  cases h with
  | mk hhost hwild hport hcolon hne =>
    unfold Locache.normalizeAddress
    rw [splitHostPort_complete hhost hport hcolon joined_joinHostPort]
    change (if _ = [] then _ else _) = _
    rw [if_neg hne, if_neg hwild]
    change Except.ok _ = _
    rw [trim_brackets hhost]

/-- An address has a port. -/
theorem normalizeAddress_ne_nil {r : GoString}
    (h : normalizeAddress quote interfaceAddrs addr = .ok r) : r ≠ [] := by
  obtain ⟨_, host, port, -, -, -, rfl⟩ := normalizeAddress_eq_ok h
  exact joinHostPort_ne_nil

/-! ## The server and the picker of a node -/

def defaultSvcName : GoString := ascii "locache"

structure Server where
  listenAddr : GoString
  advertiseAddr : GoString
  svcName : GoString

namespace Server

/-- `NewServer`. `advertise` is the option `AdvertiseAddr`, `etcdCli` what `clientv3.New` returns,
and `creds` what `loadTLSCredentials` returns if TLS is on. -/
def new (quote : GoString → GoString) (interfaceAddrs : Except Err (List Addr))
    (etcdCli : Except Err Unit) (creds : Option (Except Err Unit))
    (addr svcName advertise : GoString) : Except Err Server := do
  let advertiseSource := if advertise ≠ [] then advertise else addr
  let advertiseAddr ← normalizeAddress quote interfaceAddrs advertiseSource
  etcdCli.mapError fun err => .wrap (ascii "create etcd client: ") err []
  (creds.getD (.ok ())).mapError fun err => .wrap (ascii "load TLS credentials: ") err []
  .ok ⟨addr, advertiseAddr, if svcName = [] then defaultSvcName else svcName⟩

/-- `Address`. -/
def address (s : Server) : GoString := s.advertiseAddr

/-- What `Start` registers. -/
def registration (s : Server) : Change GoString GoString := register s.svcName s.advertiseAddr

end Server

/-- `NewClientPicker`. `etcdCli` is what `clientv3.New` returns, and `snapshot` what the `Get` of
`refreshSnapshot` does. -/
def newClientPicker (quote : GoString → GoString) (interfaceAddrs : Except Err (List Addr))
    (etcdCli : Except Err Unit) (snapshot : Except Err (List (GoString × GoString)))
    (newClient : GoString → Bool) (order₁ order₂ : List GoString)
    (config : ConsistentHash.Config) (replicas : Nat) (hreplicas : 0 < replicas)
    (svcName addr : GoString) : Except Err ClientPicker :=
  match h : normalizeAddress quote interfaceAddrs addr with
  | .error err => .error err
  | .ok selfAddr => do
    etcdCli.mapError fun err => .wrap (ascii "create etcd client: ") err []
    let kvs ← snapshot.mapError fun err => .wrap (ascii "fetch service snapshot: ") err []
    .ok ((ClientPicker.new selfAddr (normalizeAddress_ne_nil h) config replicas
      hreplicas).refreshSnapshot newClient order₁ order₂ svcName kvs)

/-- A picker that knows its node by one name only, the one the server registers: the registration
and its end change nothing, and neither does a snapshot that has it. -/
structure OneName (s : Server) (p : ClientPicker) : Prop where
  self : p.selfAddr = s.address
  node : s.address ∈ p.ring.nodes
  put : ∀ newClient, p.handle newClient s.svcName s.registration = p
  delete : ∀ newClient prev,
    p.handle newClient s.svcName (.delete (serviceKey s.svcName s.advertiseAddr) prev) = p
  snapshot : ∀ kvs₁ kvs₂ a,
    a ∈ desired p.selfAddr s.svcName
        (kvs₁ ++ (serviceKey s.svcName s.advertiseAddr, s.advertiseAddr) :: kvs₂) ↔
      a ∈ desired p.selfAddr s.svcName (kvs₁ ++ kvs₂)

variable {s : Server} {p q : ClientPicker}

theorem ClientPicker.Reachable.oneName (hp : p.Reachable) (hself : p.selfAddr = s.address) :
    OneName s p := by
  have hadv : p.selfAddr = s.advertiseAddr := hself
  have hne : s.advertiseAddr ≠ [] := hadv ▸ p.selfAddr_ne
  have hmem : s.advertiseAddr ∈ p.members := hadv ▸ hp.inv.self
  refine ⟨hself, (hp.inv.nodes _).2 hmem, ?_, ?_, ?_⟩
  · intro newClient
    dsimp only [Server.registration, register, ClientPicker.handle]
    unfold ClientPicker.addMember
    rw [if_neg hne, if_neg hne, if_pos hmem]
  · intro newClient prev
    dsimp only [ClientPicker.handle]
    unfold ClientPicker.removeMember
    rw [parseAddrFromKey_serviceKey, if_neg hne, if_pos (Or.inr hadv.symm)]
  · intro kvs₁ kvs₂ a
    rw [mem_desired, mem_desired]
    constructor
    · rintro (ha | ⟨kv, hkv, ha, hane⟩)
      · exact Or.inl ha
      · rw [List.mem_append, List.mem_cons] at hkv
        rcases hkv with hkv | rfl | hkv
        · exact Or.inr ⟨kv, List.mem_append_left _ hkv, ha, hane⟩
        · rw [if_neg hne] at ha
          exact Or.inl (ha.trans hself.symm)
        · exact Or.inr ⟨kv, List.mem_append_right _ hkv, ha, hane⟩
    · rintro (ha | ⟨kv, hkv, ha, hane⟩)
      · exact Or.inl ha
      · refine Or.inr ⟨kv, ?_, ha, hane⟩
        rw [List.mem_append] at hkv ⊢
        exact hkv.imp_right (List.mem_cons_of_mem _)

/-- The server advertises a result of `normalizeAddress`. -/
theorem Server.normal {etcdCli : Except Err Unit} {creds : Option (Except Err Unit)}
    {svcName advertise : GoString} (hip : getLocalIP interfaceAddrs ≠ .ok (ascii "0.0.0.0"))
    (h : Server.new quote interfaceAddrs etcdCli creds addr svcName advertise = .ok s) :
    Normal s.address := by
  unfold Server.new at h
  dsimp only [bind, Except.bind] at h
  split at h
  · cases h
  next advertiseAddr hnorm =>
  split at h
  · cases h
  split at h
  · cases h
  cases h
  exact normal_of_normalizeAddress hip hnorm

/-- A picker that is built from a normal address takes it for its own. -/
theorem newClientPicker_of_normal {etcdCli : Except Err Unit}
    {snapshot : Except Err (List (GoString × GoString))} {newClient : GoString → Bool}
    {order₁ order₂ : List GoString} {config : ConsistentHash.Config} {replicas : Nat}
    {hreplicas : 0 < replicas} {svcName : GoString} (haddr : Normal addr)
    (h : newClientPicker quote interfaceAddrs etcdCli snapshot newClient order₁ order₂ config
      replicas hreplicas svcName addr = .ok p) : p.Reachable ∧ p.selfAddr = addr := by
  unfold newClientPicker at h
  split at h
  · cases h
  next selfAddr hnorm =>
  rw [haddr.normalizeAddress] at hnorm
  cases hnorm
  dsimp only [bind, Except.bind] at h
  split at h
  · cases h
  split at h
  · cases h
  cases h
  constructor
  · exact ⟨_, _, config, replicas, hreplicas, .single ClientPicker.step_refreshSnapshot⟩
  · exact ClientPicker.step_refreshSnapshot.fixed.1

theorem ClientPicker.selfAddr_of_steps (h : Relation.ReflTransGen ClientPicker.Step p q) :
    q.selfAddr = p.selfAddr := by
  induction h with
  | refl => rfl
  | tail _ hs ih => exact hs.fixed.1.trans ih

theorem ClientPicker.Reachable.steps (hp : p.Reachable)
    (h : Relation.ReflTransGen ClientPicker.Step p q) : q.Reachable := by
  obtain ⟨self, hself, config, replicas, hreplicas, hsteps⟩ := hp
  exact ⟨self, hself, config, replicas, hreplicas, hsteps.trans h⟩

/-- **`normalizeAddress` is idempotent**: unless the local address is the wildcard `0.0.0.0`, it
accepts what it returns and leaves it alone, whatever the interfaces are by then. So the picker that
is built from the address of a server knows the node by the name that the server registers, and
whatever happens to it later, by that name only. -/
theorem normalizeAddress_idempotent (quote : GoString → GoString)
    (interfaceAddrs : Except Err (List Addr))
    (hip : getLocalIP interfaceAddrs ≠ .ok (ascii "0.0.0.0")) :
    (∀ addr r, normalizeAddress quote interfaceAddrs addr = .ok r →
      ∀ interfaceAddrs', normalizeAddress quote interfaceAddrs' r = .ok r) ∧
    ∀ etcdCli creds addr svcName advertise s,
      Server.new quote interfaceAddrs etcdCli creds addr svcName advertise = .ok s →
      ∀ interfaceAddrs' etcdCli' snapshot newClient order₁ order₂ config replicas hreplicas p,
        newClientPicker quote interfaceAddrs' etcdCli' snapshot newClient order₁ order₂ config
          replicas hreplicas s.svcName s.address = .ok p →
        ∀ q, Relation.ReflTransGen ClientPicker.Step p q → OneName s q := by
  constructor
  · intro addr r h interfaceAddrs'
    exact (normal_of_normalizeAddress hip h).normalizeAddress
  · intro etcdCli creds addr svcName advertise s hs interfaceAddrs' etcdCli' snapshot newClient
      order₁ order₂ config replicas hreplicas p hp q hq
    obtain ⟨hreach, hself⟩ := newClientPicker_of_normal (Server.normal hip hs) hp
    exact (hreach.steps hq).oneName ((ClientPicker.selfAddr_of_steps hq).trans hself)

/-- A node with a loopback interface and another one. -/
def lan : Except Err (List Addr) := .ok [.ipNet [127, 0, 0, 1], .ipNet [192, 168, 1, 5]]

/-- A server that listens on all interfaces, and a picker that is built from its address when the
interfaces can no longer be read. -/
theorem wildcard_listener_one_name :
    normalizeAddress id lan (ascii ":8001") = .ok (ascii "192.168.1.5:8001") ∧
    normalizeAddress id (.error .canceled) (ascii "192.168.1.5:8001") =
      .ok (ascii "192.168.1.5:8001") ∧
    ∃ s p, Server.new id lan (.ok ()) none (ascii ":8001") [] [] = .ok s ∧
      newClientPicker id (.error .canceled) (.ok ()) (.ok []) (fun _ => true) [] [] .default 1
        Nat.one_pos s.svcName s.address = .ok p ∧
      p.selfAddr = ascii "192.168.1.5:8001" ∧ OneName s p := by
  have hip : getLocalIP lan ≠ .ok (ascii "0.0.0.0") := by
    intro h
    exact absurd (Except.ok.inj h) (by decide)
  have hnorm : normalizeAddress id lan (ascii ":8001") = .ok (ascii "192.168.1.5:8001") := rfl
  obtain ⟨hidem, hname⟩ := normalizeAddress_idempotent id lan hip
  have hs : Server.new id lan (.ok ()) none (ascii ":8001") [] [] =
      .ok ⟨ascii ":8001", ascii "192.168.1.5:8001", defaultSvcName⟩ := rfl
  obtain ⟨p, hp⟩ : ∃ p, newClientPicker id (.error .canceled) (.ok ()) (.ok []) (fun _ => true) []
      [] .default 1 Nat.one_pos defaultSvcName (ascii "192.168.1.5:8001") = .ok p := ⟨_, rfl⟩
  have hone := hname _ _ _ _ _ _ hs _ _ _ _ _ _ _ _ _ p hp p .refl
  exact ⟨hnorm, hidem _ _ hnorm _, _, p, hs, hp, hone.self, hone⟩

end Locache
