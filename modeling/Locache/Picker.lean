import Locache.ConsistentHash
import Locache.Group.State
import Mathlib.Logic.Relation

/-!
# The picker

A `ClientPicker` keeps the members it knows of, a ring of them and a client for each other member.
Members come and go one by one, as the watch reports them, or all at once, when a snapshot is taken.
The ring is always the ring of the members (`Inv`), so pickers that know the same members name the
same owner (`pickers_agree`).
-/

namespace Locache

open ConsistentHash

structure ClientPicker where
  selfAddr : GoString
  /-- `consistenthash.DefaultConfig`, which every new ring starts from. -/
  defaultConfig : Config
  hashReplicas : Nat
  ring : Map
  members : GoSet
  /-- The clients; the number of a client tells it from others of the same address. -/
  clients : AList fun _ : GoString => Nat
  nextClient : Nat
  /-- The clients that were closed, newest first. -/
  closed : List Nat
  closeOnce : Bool
  epoch : Nat
  /-- An address has a port. -/
  selfAddr_ne : selfAddr ≠ []
  /-- Only positive numbers are taken from the options. -/
  replicas_pos : 0 < hashReplicas

namespace ClientPicker

/-- `NewClientPicker`, up to its first snapshot. -/
def new (selfAddr : GoString) (hself : selfAddr ≠ []) (defaultConfig : Config) (hashReplicas : Nat)
    (hreplicas : 0 < hashReplicas) : ClientPicker where
  selfAddr := selfAddr
  defaultConfig := defaultConfig
  hashReplicas := hashReplicas
  ring := ((Map.new defaultConfig hashReplicas).add [selfAddr]).2
  members := AList.singleton selfAddr ()
  clients := ∅
  nextClient := 0
  closed := []
  closeOnce := false
  epoch := 1
  selfAddr_ne := hself
  replicas_pos := hreplicas

/-- `p.epoch.Add(1)`. -/
def nextEpoch (p : ClientPicker) : Nat := (p.epoch + 1) % 2 ^ 64

/-- `newClient` says for which addresses `NewClient` succeeds. -/
def addMember (newClient : GoString → Bool) (addr : GoString) (p : ClientPicker) : ClientPicker :=
  if addr = [] then p
  else if addr ∈ p.members then p
  else
    let q := { p with members := p.members.insert addr (), ring := (p.ring.add [addr]).2 }
    let q :=
      if addr ≠ p.selfAddr ∧ newClient addr then
        { q with clients := q.clients.insert addr q.nextClient, nextClient := q.nextClient + 1 }
      else q
    { q with epoch := p.nextEpoch }

def removeMember (addr : GoString) (p : ClientPicker) : ClientPicker :=
  if addr = [] ∨ addr = p.selfAddr then p
  else if addr ∉ p.members then p
  else
    { p with
      members := p.members.erase addr
      ring := (p.ring.remove addr).2
      clients := p.clients.erase addr
      closed := (p.clients.lookup addr).toList ++ p.closed
      epoch := p.nextEpoch }

def sameMembers (a b : GoSet) : Bool :=
  if a.keys.length ≠ b.keys.length then false else a.keys.all fun k => k ∈ b

/-- The clients of a snapshot: those there are, and new ones where `NewClient` succeeds. -/
def clientsFor (newClient : GoString → Bool) (p : ClientPicker) : List GoString →
    (AList fun _ : GoString => Nat) × Nat → (AList fun _ : GoString => Nat) × Nat
  | [], r => r
  | addr :: addrs, r =>
    if addr = p.selfAddr then p.clientsFor newClient addrs r
    else
      match p.clients.lookup addr with
      | some c => p.clientsFor newClient addrs (r.1.insert addr c, r.2)
      | none =>
        if newClient addr then p.clientsFor newClient addrs (r.1.insert addr r.2, r.2 + 1)
        else p.clientsFor newClient addrs r

/-- The two ranges go over `desired` and over the clients. -/
def replaceMembership (newClient : GoString → Bool) (order₁ order₂ : List GoString)
    (desired : GoSet) (p : ClientPicker) : ClientPicker :=
  if sameMembers p.members desired then p
  else
    let members := Sorting.slice (fun a b : GoString => a < b) (rangeKeys order₁ desired)
    let r := p.clientsFor newClient members (∅, p.nextClient)
    let dropped := (rangeKeys order₂ p.clients).filter fun addr => addr ∉ r.1
    { p with
      members := desired
      ring := ((Map.new p.defaultConfig p.hashReplicas).add members).2
      clients := r.1
      nextClient := r.2
      closed := (dropped.filterMap p.clients.lookup).reverse ++ p.closed
      epoch := p.nextEpoch }

/-- What `Close` does to the clients. -/
def close (order : List GoString) (p : ClientPicker) : ClientPicker :=
  if p.closeOnce then p
  else
    { p with
      clients := ∅
      closed := ((rangeKeys order p.clients).filterMap p.clients.lookup).reverse ++ p.closed
      closeOnce := true }

/-- A member without a client gets a nil `*Client`, which is not the nil `Peer`. -/
def pickOwner (key : GoString) (p : ClientPicker) : Pick :=
  let owner := p.ring.get key
  if owner = [] then ⟨[], .nil, false, p.epoch, false⟩
  else if owner = p.selfAddr then ⟨owner, .nil, true, p.epoch, true⟩
  else ⟨owner, .client ((p.clients.lookup owner).map fun _ => ⟨owner⟩), false, p.epoch, true⟩

theorem pickOwner_epoch (p : ClientPicker) (key : GoString) :
    (p.pickOwner key).epoch = p.epoch := by
  unfold pickOwner
  dsimp only
  split
  · rfl
  · split <;> rfl

theorem pickOwner_addr (p : ClientPicker) (key : GoString) (c : Client)
    (h : (p.pickOwner key).peer = .client (some c)) : c.addr = (p.pickOwner key).owner := by
  unfold pickOwner at h ⊢
  dsimp only at h ⊢
  split at h
  · cases h
  · next hne =>
    split at h
    · cases h
    · next hself =>
      simp only [hne, hself, ↓reduceIte]
      obtain ⟨_, -, hc⟩ := Option.map_eq_some_iff.1 (Peer.client.inj h)
      rw [← hc]

theorem pickOwner_owner (p : ClientPicker) (key : GoString) :
    (p.pickOwner key).owner = p.ring.get key := by
  unfold pickOwner
  dsimp only
  split
  · next h => exact h.symm
  · split <;> rfl

theorem pickOwner_ok (p : ClientPicker) (key : GoString) :
    (p.pickOwner key).ok = true ↔ p.ring.get key ≠ [] := by
  unfold pickOwner
  dsimp only
  split
  · next h => exact iff_of_false (fun hf => by cases hf) (not_not.2 h)
  · next h => split <;> exact iff_of_true rfl h

theorem pickOwner_self (p : ClientPicker) (key : GoString) :
    (p.pickOwner key).self = true ↔ p.ring.get key = p.selfAddr := by
  unfold pickOwner
  dsimp only
  split
  · next h =>
    rw [h]
    exact iff_of_false (fun hf => by cases hf) p.selfAddr_ne.symm
  · split
    · next h => exact iff_of_true rfl h
    · next h => exact iff_of_false (fun hf => by cases hf) h

/-- What a group sees of the picker. -/
def topology (p : ClientPicker) : Topology where
  epoch := p.epoch
  pick := fun key => p.pickOwner key
  clients := p.clients.keys.map Client.mk
  pick_epoch := p.pickOwner_epoch
  pick_addr := p.pickOwner_addr

/-! ## Runs of a picker -/

/-- What may happen to a picker. A snapshot holds the node itself, and no empty address. -/
inductive Step (p : ClientPicker) : ClientPicker → Prop where
  | addMember (newClient : GoString → Bool) (addr : GoString) : Step p (p.addMember newClient addr)
  | removeMember (addr : GoString) : Step p (p.removeMember addr)
  | replaceMembership (newClient : GoString → Bool) (order₁ order₂ : List GoString)
      (desired : GoSet) (hself : p.selfAddr ∈ desired) (hne : [] ∉ desired) :
      Step p (p.replaceMembership newClient order₁ order₂ desired)
  | close (order : List GoString) : Step p (p.close order)

/-- The picker has come about by any number of steps since its construction. -/
def Reachable (p : ClientPicker) : Prop :=
  ∃ self hself config replicas hreplicas,
    Relation.ReflTransGen Step (new self hself config replicas hreplicas) p

/-- The ring is the ring of the members. -/
structure Inv (p : ClientPicker) : Prop where
  ring : p.ring.WF
  config : p.ring.config = ⟨p.hashReplicas, p.defaultConfig.hashFunc⟩
  nodes : ∀ a, a ∈ p.ring.nodes ↔ a ∈ p.members
  self : p.selfAddr ∈ p.members
  nonempty : [] ∉ p.members

variable {p q : ClientPicker} {addr key : GoString}

theorem config_new {c : Config} {n : Nat} (hn : 0 < n) :
    (Map.new c n).config = ⟨n, c.hashFunc⟩ := by
  have h : (0 : Int) < n := by omega
  unfold Map.new
  rw [if_pos h]
  rfl

theorem inv_new {self : GoString} {hself : self ≠ []} {config : Config} {replicas : Nat}
    {hreplicas : 0 < replicas} : (new self hself config replicas hreplicas).Inv := by
  have hwf := Map.wf_new config replicas
  have hmem : ∀ a, a ∈ (new self hself config replicas hreplicas).members ↔ a = self := by
    intro a
    exact List.mem_singleton
  refine ⟨hwf.add _, ?_, ?_, ?_, ?_⟩
  · exact (Map.config_add hwf).trans (config_new hreplicas)
  · intro a
    rw [hmem]
    refine (Map.mem_add hwf).trans ?_
    constructor
    · rintro (ha | ⟨-, ha⟩)
      · cases ha
      · exact List.mem_singleton.1 ha
    · rintro rfl
      exact Or.inr ⟨hself, List.mem_singleton_self _⟩
  · exact (hmem self).2 rfl
  · rw [hmem]
    exact Ne.symm hself

/-- What the invariant is about is left alone by what happens to the clients. -/
theorem Inv.congr (h : p.Inv) (h₁ : q.ring = p.ring) (h₂ : q.hashReplicas = p.hashReplicas)
    (h₃ : q.defaultConfig = p.defaultConfig) (h₄ : q.members = p.members)
    (h₅ : q.selfAddr = p.selfAddr) : q.Inv := by
  refine ⟨?_, ?_, ?_, ?_, ?_⟩
  · rw [h₁]
    exact h.ring
  · rw [h₁, h₂, h₃]
    exact h.config
  · rw [h₁, h₄]
    exact h.nodes
  · rw [h₄, h₅]
    exact h.self
  · rw [h₄]
    exact h.nonempty

theorem Inv.addMember (h : p.Inv) (newClient : GoString → Bool) (addr : GoString) :
    (p.addMember newClient addr).Inv := by
  unfold ClientPicker.addMember
  split
  · exact h
  · next hne =>
    split
    · exact h
    · have hadd : ({ p with
          members := p.members.insert addr ()
          ring := (p.ring.add [addr]).2 } : ClientPicker).Inv := by
        refine ⟨h.ring.add _, ?_, ?_, ?_, ?_⟩
        · exact (Map.config_add h.ring).trans h.config
        · intro a
          rw [Map.mem_add h.ring, AList.mem_insert, h.nodes, List.mem_singleton]
          constructor
          · rintro (ha | ⟨-, ha⟩)
            · exact Or.inr ha
            · exact Or.inl ha
          · rintro (rfl | ha)
            · exact Or.inr ⟨hne, rfl⟩
            · exact Or.inl ha
        · exact AList.mem_insert _ |>.2 (Or.inr h.self)
        · intro hmem
          rcases (AList.mem_insert _).1 hmem with heq | hmem
          · exact hne heq.symm
          · exact h.nonempty hmem
      dsimp only
      split <;> exact hadd.congr rfl rfl rfl rfl rfl

theorem Inv.removeMember (h : p.Inv) (addr : GoString) : (p.removeMember addr).Inv := by
  unfold ClientPicker.removeMember
  split
  · exact h
  · next hne =>
    rw [not_or] at hne
    split
    · exact h
    · refine ⟨h.ring.remove _, Map.config_remove.trans h.config, ?_, ?_, ?_⟩
      · intro a
        rw [Map.mem_remove hne.1, AList.mem_erase, h.nodes, and_comm]
      · exact AList.mem_erase.2 ⟨Ne.symm hne.2, h.self⟩
      · intro hmem
        exact h.nonempty (AList.mem_erase.1 hmem).2

theorem Inv.replaceMembership (h : p.Inv) (newClient : GoString → Bool)
    (order₁ order₂ : List GoString) {desired : GoSet} (hself : p.selfAddr ∈ desired)
    (hne : [] ∉ desired) : (p.replaceMembership newClient order₁ order₂ desired).Inv := by
  unfold ClientPicker.replaceMembership
  split
  · exact h
  · have hwf := Map.wf_new p.defaultConfig p.hashReplicas
    refine ⟨hwf.add _, ?_, ?_, hself, hne⟩
    · exact (Map.config_add hwf).trans (config_new p.replicas_pos)
    · intro a
      rw [Map.mem_add hwf, (Sorting.slice_perm _ _).mem_iff, mem_rangeKeys]
      constructor
      · rintro (ha | ⟨-, ha⟩)
        · cases ha
        · exact ha
      · intro ha
        refine Or.inr ⟨?_, ha⟩
        rintro rfl
        exact hne ha

theorem Inv.step (h : p.Inv) (hs : Step p q) : q.Inv := by
  cases hs with
  | addMember newClient addr => exact h.addMember newClient addr
  | removeMember addr => exact h.removeMember addr
  | replaceMembership newClient order₁ order₂ desired hself hne =>
    exact h.replaceMembership newClient order₁ order₂ hself hne
  | close order =>
    unfold ClientPicker.close
    split
    · exact h
    · exact h.congr rfl rfl rfl rfl rfl

/-- **The ring is the ring of the members** in every run of a picker. -/
theorem Reachable.inv (h : p.Reachable) : p.Inv := by
  obtain ⟨self, hself, config, replicas, hreplicas, hsteps⟩ := h
  induction hsteps with
  | refl => exact inv_new
  | tail _ hs ih => exact ih.step hs

/-! ## What pickers answer -/

theorem Inv.owner_mem (h : p.Inv) (hkey : key ≠ []) : p.ring.get key ∈ p.members := by
  have hr : 0 < p.ring.config.replicas := by
    rw [h.config]
    exact p.replicas_pos
  exact (h.nodes _).1 (Map.get_mem h.ring hr hkey ((h.nodes _).2 h.self))

theorem Inv.pickOwner (h : p.Inv) (hkey : key ≠ []) : (p.pickOwner key).owner = p.ring.get key ∧
    (p.pickOwner key).ok = true ∧
    ((p.pickOwner key).self = true ↔ p.ring.get key = p.selfAddr) := by
  have hne : p.ring.get key ≠ [] := by
    intro heq
    have hmem := h.owner_mem hkey
    rw [heq] at hmem
    exact h.nonempty hmem
  exact ⟨p.pickOwner_owner key, (p.pickOwner_ok key).2 hne, p.pickOwner_self key⟩

end ClientPicker

/-- **Pickers that know the same members agree.** In a family of pickers whose members are exactly
the nodes of the family, every key has one owner, and the picker of the owner alone says that it is
its own node. -/
theorem pickers_agree {ι : Type} [Nonempty ι] (family : ι → ClientPicker)
    (hreach : ∀ i, (family i).Reachable)
    (hself : Function.Injective fun i => (family i).selfAddr)
    (hreplicas : ∀ i j, (family i).hashReplicas = (family j).hashReplicas)
    (hhash : ∀ i j, (family i).defaultConfig.hashFunc = (family j).defaultConfig.hashFunc)
    (M : Set GoString) (hmembers : ∀ i a, a ∈ (family i).members ↔ a ∈ M)
    (hM : ∀ a, a ∈ M ↔ ∃ i, (family i).selfAddr = a) (key : GoString) (hkey : key ≠ []) :
    ∃ owner ∈ M, (∀ i, ((family i).pickOwner key).owner = owner ∧
      ((family i).pickOwner key).ok = true) ∧ ∃! i, ((family i).pickOwner key).self = true := by
  have hinv := fun i => (hreach i).inv
  obtain ⟨i₀⟩ := ‹Nonempty ι›
  have hget : ∀ i, (family i).ring.get key = (family i₀).ring.get key := by
    intro i
    apply Map.get_eq (hinv i).ring (hinv i₀).ring
    · rw [(hinv i).config, (hinv i₀).config, hreplicas i i₀, hhash i i₀]
    · intro a
      rw [(hinv i).nodes, (hinv i₀).nodes, hmembers, hmembers]
  have howner : (family i₀).ring.get key ∈ M := (hmembers i₀ _).1 ((hinv i₀).owner_mem hkey)
  refine ⟨_, howner, ?_, ?_⟩
  · intro i
    obtain ⟨h₁, h₂, -⟩ := (hinv i).pickOwner hkey
    exact ⟨h₁.trans (hget i), h₂⟩
  · obtain ⟨j, hj⟩ := (hM _).1 howner
    refine ⟨j, ?_, ?_⟩
    · exact ((hinv j).pickOwner hkey).2.2.2 ((hget j).trans hj.symm)
    · intro i hi
      apply hself
      show (family i).selfAddr = (family j).selfAddr
      rw [hj, ← hget i]
      exact (((hinv i).pickOwner hkey).2.2.1 hi).symm

theorem addr_ne_nil : ascii "a:1" ≠ [] := by decide

/-- Two nodes: one was told of the other by its watch, the other one took a snapshot. -/
def twoPickers : Bool → ClientPicker
  | true =>
    (ClientPicker.new (ascii "a:1") (by decide) .default 100 (by decide)).addMember
      (fun _ => true) (ascii "b:1")
  | false =>
    (ClientPicker.new (ascii "b:1") (by decide) .default 100 (by decide)).replaceMembership
      (fun _ => false) [] [] ((AList.singleton (ascii "a:1") ()).insert (ascii "b:1") ())

/-- They agree on the owner of a key. -/
theorem twoPickers_agree : ∃ owner, (owner = ascii "a:1" ∨ owner = ascii "b:1") ∧
    (∀ i, ((twoPickers i).pickOwner (ascii "k")).owner = owner) ∧
    ∃! i, ((twoPickers i).pickOwner (ascii "k")).self = true := by
  have hreach : ∀ i, (twoPickers i).Reachable := by
    intro i
    cases i with
    | true =>
      exact ⟨ascii "a:1", by decide, .default, 100, by decide,
        .single (.addMember (fun _ => true) (ascii "b:1"))⟩
    | false =>
      exact ⟨ascii "b:1", by decide, .default, 100, by decide,
        .single (.replaceMembership _ _ _ _ (by decide) (by decide))⟩
  have hself : ∀ i, (twoPickers i).selfAddr = if i then ascii "a:1" else ascii "b:1" := by
    intro i
    cases i <;> rfl
  have hmem : ∀ i a, a ∈ (twoPickers i).members ↔ a = ascii "a:1" ∨ a = ascii "b:1" := by
    intro i a
    rw [or_comm]
    cases i <;> exact (AList.mem_insert _).trans (or_congr Iff.rfl List.mem_singleton)
  obtain ⟨owner, howner, hpick, huniq⟩ := pickers_agree twoPickers hreach (by
      intro i j hij
      simp only [hself] at hij
      revert hij
      cases i <;> cases j <;> decide)
    (by intro i j; cases i <;> cases j <;> rfl) (by intro i j; cases i <;> cases j <;> rfl)
    { a | a = ascii "a:1" ∨ a = ascii "b:1" } hmem (by
      intro a
      constructor
      · rintro (rfl | rfl)
        · exact ⟨true, rfl⟩
        · exact ⟨false, rfl⟩
      · rintro ⟨i, rfl⟩
        rw [hself]
        cases i with
        | true => exact Or.inl rfl
        | false => exact Or.inr rfl)
    (ascii "k") (by decide)
  exact ⟨owner, howner, fun i => (hpick i).1, huniq⟩

end Locache
