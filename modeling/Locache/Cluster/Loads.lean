import Locache.Cluster.Staleness
import Locache.Group.Once
import Locache.Picker

/-!
# One load for a cluster

Pickers that know the same members name the same owner of a key, so the Getter calls for the key are
all made on one node. While the cluster only serves reads and evicts nothing, one of them at a time
is under way and one of them at most brings a value, which every successful read then returns
(`one_load_for_all`).
-/

namespace Locache

open Conc

variable {ι : Type} {C : Cluster ι} {σ : ι → State} {c : ∀ a, Config (C.machine a)} {tr : C.Log}
  {a b : ι} {k : GoString} {v : ByteView}

/-! ## One membership -/

/-- The pickers `P` of the nodes know the same members. -/
structure OneMembership (C : Cluster ι) (σ : ι → State) (P : ι → ClientPicker) : Prop where
  reachable : ∀ a, (P a).Reachable
  self : ∀ a, (P a).selfAddr = C.addr a
  replicas : ∀ a b, (P a).hashReplicas = (P b).hashReplicas
  hash : ∀ a b, (P a).defaultConfig.hashFunc = (P b).defaultConfig.hashFunc
  members : ∀ a b x, x ∈ (P a).members ↔ x ∈ (P b).members
  topology : ∀ a, (σ a).topology = (P a).topology

/-- One node at most takes itself for the owner of `k`, and it finds itself in the ring. -/
structure OneOwner (C : Cluster ι) (σ : ι → State) (k : GoString) : Prop where
  ok : ∀ a, ((σ a).topology.pick k).self = true → ((σ a).topology.pick k).ok = true
  unique : ∀ a b, ((σ a).topology.pick k).self = true → ((σ b).topology.pick k).self = true →
    a = b

/-- They find the same owner. -/
theorem OneMembership.ring_get {P : ι → ClientPicker} (h : OneMembership C σ P) (a b : ι)
    (k : GoString) : (P a).ring.get k = (P b).ring.get k := by
  have hinv := fun a => (h.reachable a).inv
  apply ConsistentHash.Map.get_eq (hinv a).ring (hinv b).ring
  · rw [(hinv a).config, (hinv b).config, h.replicas a b, h.hash a b]
  · intro x
    rw [(hinv a).nodes, (hinv b).nodes, h.members a b]

/-- No node takes another one that is not the owner for the owner. -/
theorem OneMembership.addr_ne_owner {P : ι → ClientPicker} (h : OneMembership C σ P)
    (hremote : ((σ a).topology.pick k).self = false) (w : ι) :
    C.addr a ≠ ((σ w).topology.pick k).owner := by
  rw [h.topology] at hremote ⊢
  change C.addr a ≠ ((P w).pickOwner k).owner
  rw [(P w).pickOwner_owner, h.ring_get w a, ← h.self]
  intro heq
  have hself := ((P a).pickOwner_self k).2 heq.symm
  change ((P a).pickOwner k).self = false at hremote
  rw [hself] at hremote
  cases hremote

theorem OneMembership.oneOwner {P : ι → ClientPicker} (h : OneMembership C σ P) (k : GoString) :
    OneOwner C σ k := by
  refine ⟨?_, ?_⟩
  · intro a ha
    rw [h.topology] at ha ⊢
    refine ((P a).pickOwner_ok k).2 ?_
    rw [((P a).pickOwner_self k).1 ha]
    exact (P a).selfAddr_ne
  · intro a b ha hb
    rw [h.topology] at ha hb
    apply C.addr_injective
    rw [← h.self, ← h.self, ← ((P a).pickOwner_self k).1 ha, ← ((P b).pickOwner_self k).1 hb]
    exact h.ring_get a b k

/-! ## Reads on every node -/

/-- Every operation that is started on a node is a read, the memberships do not change, and no node
evicts anything for capacity. -/
def Cluster.Reading (C : Cluster ι) : NetGuard C.machine := fun tr a s ℓ s' =>
  C.admits tr a ℓ = true ∧ ReadStep s ℓ s'

variable [DecidableEq ι]

/-- What node `a` has done. -/
abbrev Cluster.trace (tr : C.Log) (a : ι) : Trace (C.cfg a) := localTrace a tr

/-- The Getter call `id` of goroutine `t` has not returned. -/
def Running {g : Cfg} (tr : Trace g) (t : Nat) (k : GoString) (id : Nat) : Prop :=
  Started tr t k id ∧ ∀ r, ¬Returned tr t id r

/-- **The loads of `k` in a cluster.** -/
structure LoadedOnce (C : Cluster ι) (tr : C.Log) (k : GoString) : Prop where
  /-- At most one Getter call is running. -/
  running : ∀ a t id a' t' id', Running (Cluster.trace tr a) t k id →
    Running (Cluster.trace tr a') t' k id' → a = a' ∧ t = t' ∧ id = id'
  /-- At most one Getter call has brought a value. -/
  brought : ∀ a t id b a' t' id' b', Brought (Cluster.trace tr a) t k id b →
    Brought (Cluster.trace tr a') t' k id' b' → a = a' ∧ t = t' ∧ id = id' ∧ b = b'
  /-- Every successful read returns what a Getter call has brought. -/
  values : ∀ a t v, ⟨a, .spawn t (.get k)⟩ ∈ tr → ⟨a, .ret t (.ok (.view (.ok v)))⟩ ∈ tr →
    ∃ a' t' id, Brought (Cluster.trace tr a') t' k id v.b

/-- On a node that only serves reads, what was set or loaded was loaded. -/
theorem brought_of_freshSince {g : Cfg} {T₀ : Topology} {tr : Trace g} {s : State}
    (h : Undisturbed T₀ tr s) {W : Trace g} (hW : W ⊆ tr) (hf : FreshSince k v W) :
    ∃ t id, Brought tr t k id v.b := by
  rcases hf with ⟨t, s, i, hm⟩ | ⟨t, id, i, j, hstart, hend⟩
  · have hzero := List.countP_eq_zero.1 (h.unmutated k) _ (hW hm)
    exact absurd (decide_eq_true rfl) hzero
  · exact ⟨t, id, ⟨i, hW hstart⟩, ⟨j, hW hend⟩⟩

section Runs

variable (hp : ∀ a, (C.cfg a).peers = true) (hexp : ∀ a, (C.cfg a).expiration ≤ 0)
  (h₀ : ∀ a, (σ a).Fresh)

include hexp h₀

theorem Cluster.background (h : NetRun C.Reading σ c tr) (a : ι) :
    Background (σ a).topology (Cluster.trace tr a) (c a).state :=
  Run.background (G := fun _ s ℓ s' => ReadStep s ℓ s') (fun _ _ _ _ hs => hs) (hexp a) (h₀ a)
    (h.node fun _ _ _ _ hs => hs.2)

/-- What a read returned, on any node, a Getter call has brought. -/
theorem Cluster.brought_of_get (h : NetRun C.Reading σ c tr) {t : Nat}
    (hget : ⟨a, .spawn t (.get k)⟩ ∈ tr) (hret : ⟨a, .ret t (.ok (.view (.ok v)))⟩ ∈ tr) :
    ∃ b u id, Brought (Cluster.trace tr b) u k id v.b := by
  have hund := fun b => (Cluster.background hexp h₀ h b).undisturbed
  have hrest : ∀ {b ℓ} {A B : Trace (C.cfg b)}, localTrace b tr = A ++ ℓ :: B →
      B ⊆ Cluster.trace tr b := by
    intro b ℓ A B hsplit x hx
    rw [Cluster.trace, hsplit]
    exact List.mem_append_right A (List.mem_cons_of_mem _ hx)
  rcases get_origin (fun _ _ _ _ _ hs => hs.1) h₀ h hget hret with hf | ⟨g, horigin⟩
  · exact ⟨a, brought_of_freshSince (hund a) (List.Subset.refl _) hf⟩
  · cases horigin with
    | @wrote p resp b s id A B hcall howner hspawn hsplit hset =>
      obtain ⟨x, i, hm⟩ := hset
      exact ⟨b, brought_of_freshSince (hund b) (hrest hsplit) (Or.inl ⟨s, x, i, mem_hist.1 hm⟩)⟩
    | @read p resp b s id A B hcall hvalue howner hspawn hsplit hread hknown =>
      exact ⟨b, brought_of_freshSince (hund b) (hrest hsplit) hknown⟩

include hp

/-- The Getter calls for a key are all made on one node. -/
theorem Cluster.loader_eq (hone : OneOwner C σ k) (h : NetRun C.Reading σ c tr) {t u id id' : Nat}
    (ha : Started (Cluster.trace tr a) t k id) (hb : Started (Cluster.trace tr b) u k id') :
    a = b :=
  hone.unique a b ((Cluster.background hexp h₀ h a).self_of_started (hp a) ha).1
    ((Cluster.background hexp h₀ h b).self_of_started (hp b) hb).1

theorem Cluster.loadedOnce (hone : OneOwner C σ k) (h : NetRun C.Reading σ c tr) :
    LoadedOnce C tr k := by
  have hback := Cluster.background hexp h₀ h
  refine ⟨?_, ?_, ?_⟩
  · rintro a t id a' t' id' ⟨hs, hr⟩ ⟨hs', hr'⟩
    obtain rfl := Cluster.loader_eq hp hexp h₀ hone h hs hs'
    have hwaits : ∀ {u id}, Started (Cluster.trace tr a) u k id →
        (∀ r, ¬Returned (Cluster.trace tr a) u id r) → Waits (Cluster.trace tr a) u k id := by
      intro u id hs hr
      rcases (hback a).getters.running u k id hs with ⟨r, hret⟩ | hw
      · exact absurd hret (hr r)
      · exact hw
    exact ⟨rfl, waits_unique (hback a).flights (hwaits hs hr) (hwaits hs' hr')⟩
  · intro a t id b a' t' id' b' hb hb'
    obtain rfl := Cluster.loader_eq hp hexp h₀ hone h hb.1 hb'.1
    have honce : Once k (Cluster.trace tr a) (c a).state :=
      Run.once (G := fun _ s ℓ s' => ReadStep s ℓ s') (fun _ _ _ _ hs => hs) (hexp a) (h₀ a) (hp a)
        (hone.ok a) (h.node fun _ _ _ _ hs => hs.2)
    obtain ⟨rfl, rfl⟩ := honce.single t id b t' id' b' hb hb'
    exact ⟨rfl, ((hback a).getters.unique t t' k k id hb.1 hb'.1).1, rfl, rfl⟩
  · intro a t v hget hret
    exact Cluster.brought_of_get hexp h₀ h hget hret

end Runs

/-- **One load for all reads.** In a cluster whose nodes know the same members, with values that do
not expire, that starts empty, only serves reads and evicts nothing, at most one Getter call for a
key is running at any time and at most one ever brings a value, which every successful read of the
key returns. -/
theorem one_load_for_all {P : ι → ClientPicker} (hone : OneMembership C σ P)
    (hp : ∀ a, (C.cfg a).peers = true) (hexp : ∀ a, (C.cfg a).expiration ≤ 0)
    (h₀ : ∀ a, (σ a).Fresh) (h : NetRun C.Reading σ c tr) (k : GoString) : LoadedOnce C tr k :=
  Cluster.loadedOnce hp hexp h₀ (hone.oneOwner k) h

/-! ## Two nodes that know each other -/

/-- Each of the two nodes was told of the other. -/
def pairPickers : Bool → ClientPicker
  | true => (ClientPicker.new (ascii "a") (by decide) .default 1 (by decide)).addMember
      (fun _ => true) (ascii "b")
  | false => (ClientPicker.new (ascii "b") (by decide) .default 1 (by decide)).addMember
      (fun _ => true) (ascii "a")

/-- What they answer for one key. -/
def pairAnswer : Bool → Pick
  | true => ⟨ascii "b", .client (some ⟨ascii "b"⟩), false, 2, true⟩
  | false => ⟨ascii "b", .nil, true, 2, true⟩

theorem pickOwner_pairPickers (x : Bool) :
    (pairPickers x).pickOwner (ascii "k") = pairAnswer x := by
  cases x <;> decide +kernel

/-- The topology of a picker, with the answer for one key at hand. -/
def ClientPicker.topologyWith (p : ClientPicker) (key : GoString) (ans : Pick)
    (h : p.pickOwner key = ans) : Topology where
  epoch := p.epoch
  pick := fun key' => if key' = key then ans else p.pickOwner key'
  clients := p.clients.keys.map Client.mk
  pick_epoch := by
    intro key'
    split
    · rw [← h, p.pickOwner_epoch]
    · exact p.pickOwner_epoch key'
  pick_addr := by
    intro key' cl hcl
    by_cases heq : key' = key
    · rw [if_pos heq, ← h] at hcl ⊢
      exact p.pickOwner_addr key cl hcl
    · rw [if_neg heq] at hcl ⊢
      exact p.pickOwner_addr key' cl hcl

theorem ClientPicker.topologyWith_eq {p : ClientPicker} {key : GoString} {ans : Pick}
    (h : p.pickOwner key = ans) : p.topologyWith key ans h = p.topology := by
  subst h
  have hpick : (fun key' => if key' = key then p.pickOwner key else p.pickOwner key') =
      fun key' => p.pickOwner key' := by
    funext key'
    split
    · next heq => rw [heq]
    · rfl
  simp only [topologyWith, topology, hpick]

def State.picked (x : Bool) : State :=
  .new (.newLRU 0) (.newLRU 0)
    ((pairPickers x).topologyWith (ascii "k") (pairAnswer x) (pickOwner_pairPickers x)) 0

theorem State.fresh_picked (x : Bool) : (State.picked x).Fresh := by
  refine State.fresh_new 0 0 ?_ 0
  cases x <;> decide +kernel

theorem oneMembership_pair : OneMembership Cluster.pair State.picked pairPickers where
  reachable := by
    intro x
    cases x with
    | true =>
      exact ⟨ascii "a", by decide, .default, 1, by decide,
        .single (.addMember (fun _ => true) (ascii "b"))⟩
    | false =>
      exact ⟨ascii "b", by decide, .default, 1, by decide,
        .single (.addMember (fun _ => true) (ascii "a"))⟩
  self := by
    intro x
    cases x <;> rfl
  replicas := by
    intro x y
    cases x <;> cases y <;> rfl
  hash := by
    intro x y
    cases x <;> cases y <;> rfl
  members := by
    have hmem : ∀ x y, y ∈ (pairPickers x).members ↔ y = ascii "a" ∨ y = ascii "b" := by
      intro x y
      cases x with
      | true =>
        rw [or_comm]
        exact (AList.mem_insert _).trans (or_congr Iff.rfl List.mem_singleton)
      | false => exact (AList.mem_insert _).trans (or_congr Iff.rfl List.mem_singleton)
    intro x x' y
    rw [hmem, hmem]
  topology := fun x => ClientPicker.topologyWith_eq (pickOwner_pairPickers x)

/-- A step of a read that stores nothing. -/
def readsOnly {g : Cfg} : Label (node g) → Bool
  | .spawn _ (.get _) | .spawn _ (.serve _ (.get _ _)) | .ret _ _ => true
  | .act _ ⟨.loadCommit _ _ _ _, _, _⟩ | .act _ ⟨.setSection _ _ _, _, _⟩ => false
  | .act _ _ => true
  | _ => false

theorem readStep_of_readsOnly {g : Cfg} {s s' : State} {ℓ : Label (node g)}
    (h : readsOnly ℓ = true) : ReadStep s ℓ s' := by
  refine ⟨?_, ?_, ?_, ?_⟩
  · rintro t call rfl
    cases call with
    | get key => exact ⟨key, rfl⟩
    | serve src req =>
      cases req with
      | get group key => exact ⟨key, rfl⟩
      | _ => cases h
    | _ => cases h
  · cases ℓ with
    | env e => cases h
    | _ => trivial
  · intro hevict
    cases ℓ with
    | act t e =>
      obtain ⟨o, i, a⟩ := e
      cases o with
      | loadCommit s key n b => cases h
      | setSection s key value => cases h
      | _ => cases hevict
    | env e => cases h
    | _ => cases hevict
  · rintro t ⟨o, i, a⟩ k v rfl hs
    cases o with
    | setSection s key value => cases h
    | loadCommit s key n b => cases h
    | _ => cases hs

def Cluster.readsOnly (C : Cluster ι) (tr : C.Log) (a : ι) (_ : State) (ℓ : Label (C.machine a)) :
    Bool :=
  C.admits tr a ℓ && Locache.readsOnly ℓ

omit [DecidableEq ι] in
theorem Cluster.reading_of_readsOnly (tr : C.Log) (a : ι) (s : State) (ℓ : Label (C.machine a))
    (s' : State) (h : C.readsOnly tr a s ℓ = true) : C.Reading tr a s ℓ s' := by
  obtain ⟨hadmits, hreads⟩ := Bool.and_eq_true_iff.1 h
  exact ⟨hadmits, readStep_of_readsOnly hreads⟩

/-- A read on node `a` and a second one after it: node `b` loads the value, once. -/
theorem readTwice_loaded_once : ∃ (c : ∀ x, Config (Cluster.pair.machine x))
    (tr : Cluster.pair.Log), NetRun Cluster.pair.Reading State.picked c tr ∧
    ⟨true, .ret 0 (.ok (.view (.ok ⟨[7]⟩)))⟩ ∈ tr ∧
    LoadedOnce Cluster.pair tr (ascii "k") := by
  obtain ⟨c₁, tr₁, ℓ, c₂, c, tr, hsteps₁, hstep, hℓ, hbefore, hafter, hsteps₂, hret⟩ :
      ∃ c₁ tr₁ ℓ c₂ c tr, netSteps Cluster.pair.readsOnly (fun x => .start (State.picked x)) []
        (readTwice.take 20) = some (c₁, tr₁) ∧
      (c₁ false).step (.run 0 (Inp.both [7])) = some (ℓ, c₂) ∧
      (∃ n, ℓ = .act 0 ⟨.loadCommit 0 (ascii "k") n [7], Inp.both [7], .stored ⟨[7]⟩⟩) ∧
      (c₁ false).state.main = .newLRU 0 ∧ (c₂.state.main.view (ascii "k")).isSome = true ∧
      netSteps Cluster.pair.readsOnly (Function.update c₁ false c₂) (⟨false, ℓ⟩ :: tr₁)
        (readTwice.drop 21) = some (c, tr) ∧
      tr.reverse[31]? = some ⟨true, .ret 0 (.ok (.view (.ok ⟨[7]⟩)))⟩ :=
    ⟨_, _, _, _, _, _, rfl, rfl, ⟨_, rfl⟩, rfl, rfl, rfl, rfl⟩
  obtain ⟨n, rfl⟩ := hℓ
  have hstored : ReadStep (c₁ false).state
      (.act 0 ⟨.loadCommit 0 (ascii "k") n [7], Inp.both [7], .stored ⟨[7]⟩⟩ :
        Label (Cluster.pair.machine false)) c₂.state := by
    refine ⟨?_, trivial, ?_, ?_⟩
    · intro t call heq
      cases heq
    · intro _ k v hv
      rw [hbefore, Cache.view_newLRU] at hv
      cases hv
    · rintro t e k v heq hs
      cases heq
      obtain ⟨rfl, -⟩ := hs
      exact hafter
  have hrun := NetRun.steps Cluster.reading_of_readsOnly
    ((NetRun.steps Cluster.reading_of_readsOnly .start hsteps₁).step _ hstep ⟨rfl, hstored⟩) hsteps₂
  refine ⟨c, tr, hrun, List.mem_reverse.1 (List.mem_of_getElem? hret), ?_⟩
  exact one_load_for_all oneMembership_pair (fun _ => rfl) (fun _ => le_refl 0)
    State.fresh_picked hrun (ascii "k")

end Locache
