import Locache.Cluster.Loads
import Locache.ConsistentHash.Owner
import Locache.Picker.Watch

/-!
# Routing while registrations change

Every node of a cluster learns of the others by its own watch, so at any moment the nodes may know
different members. Two nodes that route a key to different owners do so because one of the two
owners is unknown to one of the two nodes, and two nodes that both take themselves for the owner do
not know each other: nothing else the pickers went through matters. When the registrations have
settled and the watches have caught up, all nodes name one owner (`routing_settles`).
-/

namespace Locache

open Conc

/-! ## Rings with different nodes -/

namespace ConsistentHash.Map

variable {m m' : Map} {key : GoString}

/-- Rings whose owners of a key are nodes of both of them name the same one. -/
theorem WF.get_eq_of_shared (hm : m.WF) (hm' : m'.WF) (hconfig : m'.config = m.config)
    (hreplicas : 0 < m.config.replicas) (hnil : [] ∉ m.nodes) (hkey : key ≠ [])
    (h : m.get key ∈ m'.nodes) (h' : m'.get key ∈ m.nodes) : m.get key = m'.get key := by
  -- both owners stay when all but the shared nodes are left out
  have hnew := wf_new m.config 0
  obtain ⟨s, hs, hsconfig, hsnodes⟩ : ∃ s : Map, s.WF ∧ s.config = m.config ∧
      ∀ a, a ∈ s.nodes ↔ a ∈ m.nodes ∧ a ∈ m'.nodes := by
    refine ⟨((Map.new m.config 0).add (m.nodes.keys.filter fun a => a ∈ m'.nodes)).2,
      hnew.add _, config_add hnew, fun a => ?_⟩
    rw [mem_add hnew, List.mem_filter, AList.mem_keys, decide_eq_true_eq]
    constructor
    · rintro (ha | ⟨-, ha⟩)
      · cases ha
      · exact ha
    · intro ha
      exact Or.inr ⟨fun heq => hnil (heq ▸ ha.1), ha⟩
  have hmem : m.get key ∈ m.nodes := get_mem hm hreplicas hkey h'
  have hmem' : m'.get key ∈ m'.nodes := get_mem hm' (hconfig ▸ hreplicas) hkey h
  calc m.get key = s.get key :=
        (hm.get_of_subset hs hsconfig (fun a ha => ((hsnodes a).1 ha).1) hkey
          ((hsnodes _).2 ⟨hmem, h⟩)).symm
    _ = m'.get key :=
        hm'.get_of_subset hs (hsconfig.trans hconfig.symm) (fun a ha => ((hsnodes a).1 ha).2) hkey
          ((hsnodes _).2 ⟨h', hmem'⟩)

end ConsistentHash.Map

/-- Pickers with one configuration that know each other's owner of a key name the same one. -/
theorem ClientPicker.Reachable.owner_eq {p q : ClientPicker} (hp : p.Reachable) (hq : q.Reachable)
    (hreplicas : p.hashReplicas = q.hashReplicas)
    (hhash : p.defaultConfig.hashFunc = q.defaultConfig.hashFunc) {key : GoString} (hkey : key ≠ [])
    (h : (p.pickOwner key).owner ∈ q.members) (h' : (q.pickOwner key).owner ∈ p.members) :
    (p.pickOwner key).owner = (q.pickOwner key).owner := by
  rw [p.pickOwner_owner] at h ⊢
  rw [q.pickOwner_owner] at h' ⊢
  have hpi := hp.inv
  have hqi := hq.inv
  refine hpi.ring.get_eq_of_shared hqi.ring ?_ ?_ ?_ hkey ((hqi.nodes _).2 h) ((hpi.nodes _).2 h')
  · rw [hpi.config, hqi.config, hreplicas, hhash]
  · rw [hpi.config]
    exact p.replicas_pos
  · rw [hpi.nodes]
    exact hpi.nonempty

/-! ## Watches that catch up -/

namespace Watcher

variable {svcName : GoString} {E : Registry svcName} {w w' w₀ : Watcher}

/-- The loop is not inside a response. -/
def AtRest (w : Watcher) : Prop := ∀ next events header, w.phase ≠ .applying next events header

/-- The loop ends only when the context is cancelled. -/
theorem cancelled_of_done (hstart : Started E w₀) (hrun : Relation.ReflTransGen (Step E) w₀ w) :
    w.phase = .done → w.cancelled = true := by
  induction hrun with
  | refl =>
    cases hstart with
    | mk => exact fun h => by cases h
  | tail _ hs ih =>
    cases hs with
    | exit hphase hctx => exact fun _ => hctx
    | cancel => exact fun _ => rfl
    | close order => exact ih
    | _ => exact fun h => by cases h

/-- The events of a response are all applied. -/
theorem events_applied (p : ClientPicker) (rev next header : Nat) (cancelled : Bool)
    (events : List (Change GoString GoString)) : ∃ q : ClientPicker,
    Relation.ReflTransGen (Step E) ⟨p, rev, .applying next events header, cancelled⟩
      ⟨q, rev, .applying next [] header, cancelled⟩ := by
  induction events generalizing p with
  | nil => exact ⟨p, .refl⟩
  | cons e events ih =>
    obtain ⟨q, hq⟩ := ih (p.handle (fun _ => true) svcName e)
    exact ⟨q, .head (.event rfl fun _ => true) hq⟩

/-- A response with everything up to revision `R`. -/
theorem catches_up_watching (p : ClientPicker) (rev R : Nat) (cancelled : Bool) :
    ∃ q rev', rev ≤ rev' ∧ R < rev' ∧ Relation.ReflTransGen (Step E)
      ⟨p, rev, .watching rev, cancelled⟩ ⟨q, rev', .watching rev', cancelled⟩ := by
  have hresponse : Step E ⟨p, rev, .watching rev, cancelled⟩
      ⟨p, rev, .applying (if rev ≤ R then R + 1 else rev) (E.log.since rev R) R, cancelled⟩ :=
    .response (w := ⟨p, rev, .watching rev, cancelled⟩) rfl R
  obtain ⟨q, hevents⟩ := events_applied (E := E) p rev (if rev ≤ R then R + 1 else rev) R cancelled
    (E.log.since rev R)
  have hfinish : Step E ⟨q, rev, .applying (if rev ≤ R then R + 1 else rev) [] R, cancelled⟩
      ⟨q, if rev ≤ R then R + 1 else rev, .watching (if rev ≤ R then R + 1 else rev), cancelled⟩ :=
    .finish (w := ⟨q, rev, .applying (if rev ≤ R then R + 1 else rev) [] R, cancelled⟩) rfl
  refine ⟨q, if rev ≤ R then R + 1 else rev, ?_, ?_, .head hresponse (hevents.tail hfinish)⟩
  · split <;> omega
  · split <;> omega

/-- Wherever it is, a loop whose context is not cancelled can go on and catch up. -/
theorem catches_up (hstart : Started E w₀) (hrun : Relation.ReflTransGen (Step E) w₀ w)
    (hctx : w.cancelled = false) (R : Nat) : ∃ w', Relation.ReflTransGen (Step E) w w' ∧
      w'.phase = .watching w'.rev ∧ w.rev ≤ w'.rev ∧ R < w'.rev := by
  have hdone := cancelled_of_done hstart hrun
  have htracks := (tracks hstart hrun).2
  obtain ⟨p, rev, phase, cancelled⟩ := w
  obtain rfl : cancelled = false := hctx
  have hhead : ∃ w', Relation.ReflTransGen (Step E) ⟨p, rev, .head, false⟩ w' ∧
      w'.phase = .watching w'.rev ∧ rev ≤ w'.rev ∧ R < w'.rev := by
    obtain ⟨q, rev', hle, hlt, hsteps⟩ := catches_up_watching (E := E) p rev R false
    exact ⟨_, .head (.watch rfl rfl) hsteps, rfl, hle, hlt⟩
  cases phase with
  | head => exact hhead
  | watching next =>
    obtain rfl : next = rev := htracks.1
    obtain ⟨q, rev', hle, hlt, hsteps⟩ := catches_up_watching (E := E) p next R false
    exact ⟨_, hsteps, rfl, hle, hlt⟩
  | applying next events header =>
    -- the response that is being handled first
    obtain ⟨q, hevents⟩ := events_applied (E := E) p rev next header false events
    have hfinish : Step E ⟨q, rev, .applying next [] header, false⟩
        ⟨q, if rev ≤ header then header + 1 else rev, .watching next, false⟩ :=
      .finish (w := ⟨q, rev, .applying next [] header, false⟩) rfl
    obtain rfl : next = if rev ≤ header then header + 1 else rev := htracks.1
    obtain ⟨q', rev', hle, hlt, hsteps⟩ := catches_up_watching (E := E) q
      (if rev ≤ header then header + 1 else rev) R false
    refine ⟨_, (hevents.tail hfinish).trans hsteps, rfl, ?_, hlt⟩
    have : rev ≤ if rev ≤ header then header + 1 else rev := by split <;> omega
    exact this.trans hle
  | interrupted =>
    obtain ⟨w', hsteps, hrest⟩ := hhead
    exact ⟨w', .head (.refreshFailed rfl) hsteps, hrest⟩
  | done => cases hdone rfl

/-- What a picker is given at its construction stays, for the whole loop. -/
theorem fixed (hrun : Relation.ReflTransGen (Step E) w w') :
    w'.picker.selfAddr = w.picker.selfAddr ∧ w'.picker.hashReplicas = w.picker.hashReplicas ∧
      w'.picker.defaultConfig = w.picker.defaultConfig := by
  have htrans : ∀ {p q r : ClientPicker}, ClientPicker.Step q r →
      q.selfAddr = p.selfAddr ∧ q.hashReplicas = p.hashReplicas ∧
        q.defaultConfig = p.defaultConfig →
      r.selfAddr = p.selfAddr ∧ r.hashReplicas = p.hashReplicas ∧
        r.defaultConfig = p.defaultConfig :=
    fun hs h => ⟨hs.fixed.1.trans h.1, hs.fixed.2.1.trans h.2.1, hs.fixed.2.2.trans h.2.2⟩
  induction hrun with
  | refl => exact ⟨rfl, rfl, rfl⟩
  | tail _ hs ih =>
    cases hs with
    | event hphase newClient => exact htrans (ClientPicker.step_handle _ newClient _) ih
    | refreshed => exact htrans ClientPicker.step_refreshSnapshot ih
    | close order => exact htrans (.close order) ih
    | _ => exact ih

end Watcher

/-- A log with nothing after revision `R` leads to the same keys from there on. -/
theorem live_of_settled {log : ChangeLog GoString GoString} {R : Nat}
    (h : ∀ r, R < r → log r = []) {rev : Nat} (hrev : R ≤ rev) : log.live rev = log.live R := by
  induction rev, hrev using Nat.le_induction with
  | base => rfl
  | succ rev hle ih =>
    rw [← ih]
    show (log (rev + 1)).foldl Change.apply (log.live rev) = log.live rev
    rw [h (rev + 1) (by omega)]
    rfl

/-! ## Nodes and their watches -/

section Fleet

variable {ι : Type} {svcName : GoString}

/-- The nodes of a cluster follow the registry, each with a loop of its own. -/
structure Fleet (E : Registry svcName) (C : Cluster ι) (w : ι → Watcher) : Prop where
  reached : ∀ a, ∃ w₀, Watcher.Started E w₀ ∧ Relation.ReflTransGen (Watcher.Step E) w₀ (w a)
  self : ∀ a, (w a).picker.selfAddr = C.addr a
  replicas : ∀ a b, (w a).picker.hashReplicas = (w b).picker.hashReplicas
  hash : ∀ a b, (w a).picker.defaultConfig.hashFunc = (w b).picker.defaultConfig.hashFunc

/-- **How the nodes route keys.** -/
structure Routing (E : Registry svcName) (C : Cluster ι) (σ : ι → State) (w : ι → Watcher) :
    Prop where
  /-- Nodes disagree only over an owner that one of them does not know. -/
  confined : ∀ a b key, key ≠ [] →
    ((w a).picker.pickOwner key).owner ≠ ((w b).picker.pickOwner key).owner →
    ((w a).picker.pickOwner key).owner ∉ (w b).picker.members ∨
      ((w b).picker.pickOwner key).owner ∉ (w a).picker.members
  /-- Two nodes that both take themselves for the owner do not know each other. -/
  exclusive : ∀ a b key, a ≠ b → ((w a).picker.pickOwner key).self = true →
    ((w b).picker.pickOwner key).self = true →
    C.addr a ∉ (w b).picker.members ∨ C.addr b ∉ (w a).picker.members
  /-- Nodes that have seen all of a registry that has settled agree, on a registered owner. -/
  settled : ∀ R, (∀ r, R < r → E.log r = []) → (∀ a, (w a).AtRest) → (∀ a, R < (w a).rev) →
    (∀ a, E.registered R (C.addr a) = true) →
    OneMembership C σ (fun a => (w a).picker) ∧ ∀ a key, key ≠ [] →
      E.registered R ((w a).picker.pickOwner key).owner = true ∧
        ∀ b, ((w b).picker.pickOwner key).owner = ((w a).picker.pickOwner key).owner
  /-- Until its picker is closed, every node can catch up. -/
  catchesUp : ∀ a R, (w a).cancelled = false →
    ∃ w', Relation.ReflTransGen (Watcher.Step E) (w a) w' ∧ w'.AtRest ∧ (w a).rev ≤ w'.rev ∧
      R < w'.rev

variable {E : Registry svcName} {C : Cluster ι} {w : ι → Watcher} {σ : ι → State}

theorem Fleet.reachable (h : Fleet E C w) (a : ι) : (w a).picker.Reachable := by
  obtain ⟨w₀, hstart, hrun⟩ := h.reached a
  exact Watcher.reachable hstart hrun

/-- The members of a node that has seen everything. -/
theorem Fleet.mem_iff (h : Fleet E C w) {R : Nat} (hlog : ∀ r, R < r → E.log r = []) {a : ι}
    (hrest : (w a).AtRest) (hrev : R < (w a).rev) (hself : E.registered R (C.addr a) = true)
    (x : GoString) : x ∈ (w a).picker.members ↔ E.registered R x = true := by
  obtain ⟨w₀, hstart, hrun⟩ := h.reached a
  have hagrees := (Watcher.tracks hstart hrun).2.agrees hrest x
  rw [live_of_settled hlog (show R ≤ (w a).rev - 1 by omega), h.self a] at hagrees
  rw [hagrees]
  constructor
  · rintro (rfl | hx)
    · exact hself
    · exact hx
  · exact Or.inr

theorem Fleet.oneMembership (h : Fleet E C w) (hσ : ∀ a, (σ a).topology = (w a).picker.topology)
    (hmem : ∀ a b x, x ∈ (w a).picker.members ↔ x ∈ (w b).picker.members) :
    OneMembership C σ fun a => (w a).picker :=
  ⟨h.reachable, h.self, h.replicas, h.hash, hmem, hσ⟩

/-- **Routing settles.** However the watches of the nodes have fared, nodes disagree only over
members that one of them does not know; and once the registrations have settled and the watches have
caught up, as they can, every key has one owner, which all nodes name. -/
theorem routing_settles (h : Fleet E C w) (hσ : ∀ a, (σ a).topology = (w a).picker.topology) :
    Routing E C σ w := by
  have heq : ∀ {a b key}, key ≠ [] →
      ((w a).picker.pickOwner key).owner ∈ (w b).picker.members →
      ((w b).picker.pickOwner key).owner ∈ (w a).picker.members →
      ((w a).picker.pickOwner key).owner = ((w b).picker.pickOwner key).owner :=
    fun {a b key} hkey ha hb => (h.reachable a).owner_eq (h.reachable b) (h.replicas a b)
      (h.hash a b) hkey ha hb
  have hown : ∀ {a key}, ((w a).picker.pickOwner key).self = true →
      ((w a).picker.pickOwner key).owner = C.addr a := by
    intro a key hself
    rw [(w a).picker.pickOwner_owner, ← h.self a]
    exact ((w a).picker.pickOwner_self key).1 hself
  refine ⟨?_, ?_, ?_, ?_⟩
  · intro a b key hkey hne
    by_contra hknown
    push Not at hknown
    exact hne (heq hkey hknown.1 hknown.2)
  · intro a b key hab ha hb
    by_contra hknown
    push Not at hknown
    -- a key with an owner is not empty
    have hkey : key ≠ [] := by
      rintro rfl
      have haddr := (hown ha).symm.trans ((w a).picker.pickOwner_owner [])
      rw [← h.self a] at haddr
      exact (w a).picker.selfAddr_ne haddr
    refine hab (C.addr_injective ?_)
    rw [← hown ha, ← hown hb]
    refine heq hkey ?_ ?_
    · rw [hown ha]
      exact hknown.1
    · rw [hown hb]
      exact hknown.2
  · intro R hlog hrest hrev hself
    have hmem := fun a => h.mem_iff hlog (hrest a) (hrev a) (hself a)
    have hone := h.oneMembership hσ fun a b x => (hmem a x).trans (hmem b x).symm
    refine ⟨hone, fun a key hkey => ⟨?_, fun b => ?_⟩⟩
    · rw [← hmem a, (w a).picker.pickOwner_owner]
      exact (h.reachable a).inv.owner_mem hkey
    · rw [(w a).picker.pickOwner_owner, (w b).picker.pickOwner_owner]
      exact hone.ring_get b a key
  · intro a R hctx
    obtain ⟨w₀, hstart, hrun⟩ := h.reached a
    obtain ⟨w', hsteps, hphase, hle, hlt⟩ := Watcher.catches_up hstart hrun hctx R
    refine ⟨w', hsteps, fun next events header hp => ?_, hle, hlt⟩
    rw [hphase] at hp
    cases hp

end Fleet

/-! ## Two nodes that come up one after the other -/

/-- Node `a` registers at revision 2 and node `b` at revision 3. -/
def Registry.pair : Registry (ascii "locache") where
  log
    | 2 => [Locache.register (ascii "locache") (ascii "a")]
    | 3 => [Locache.register (ascii "locache") (ascii "b")]
    | _ => []
  register := by
    intro rev key value h
    split at h
    · cases List.mem_singleton.1 h
      exact ⟨by decide, rfl⟩
    · cases List.mem_singleton.1 h
      exact ⟨by decide, rfl⟩
    · cases h
  prevKv := by
    intro rev key value h
    split at h
    · cases List.mem_singleton.1 h
    · cases List.mem_singleton.1 h
    · cases h

theorem addr_pair_ne (x : Bool) : Cluster.pair.addr x ≠ [] := by cases x <;> decide

/-- Both pickers are created before any node has registered, and then follow the registry. -/
theorem pair_routing_settles : ∃ (w : Bool → Watcher) (σ : Bool → State),
    Fleet .pair Cluster.pair w ∧ Routing .pair Cluster.pair σ w ∧
    OneMembership Cluster.pair σ fun x => (w x).picker := by
  have hsnapshot : Registry.pair.Snapshot 1 [] := by
    intro key value
    simp [ChangeLog.live, Registry.pair]
  have hstart : ∀ x, Watcher.Started .pair _ := fun x =>
    .mk (Cluster.pair.addr x) (addr_pair_ne x) .default 1 Nat.one_pos (fun _ => true) [] [] 1 []
      hsnapshot
  choose w hsteps hphase _ hlt using fun x =>
    Watcher.catches_up (hstart x) .refl rfl 3
  have hrest : ∀ x, (w x).AtRest := by
    intro x next events header hp
    rw [hphase] at hp
    cases hp
  have hfixed := fun x => Watcher.fixed (hsteps x)
  have hfleet : Fleet .pair Cluster.pair w := by
    refine ⟨fun x => ⟨_, hstart x, hsteps x⟩, fun x => ?_, fun x y => ?_, fun x y => ?_⟩
    · exact (hfixed x).1.trans ClientPicker.step_refreshSnapshot.fixed.1
    · exact ((hfixed x).2.1.trans ClientPicker.step_refreshSnapshot.fixed.2.1).trans
        ((hfixed y).2.1.trans ClientPicker.step_refreshSnapshot.fixed.2.1).symm
    · rw [(hfixed x).2.2, (hfixed y).2.2, ClientPicker.step_refreshSnapshot.fixed.2.2,
        ClientPicker.step_refreshSnapshot.fixed.2.2]
      rfl
  let σ : Bool → State := fun x => .new (.newLRU 0) (.newLRU 0) (w x).picker.topology 0
  have hrouting := routing_settles (σ := σ) hfleet fun _ => rfl
  refine ⟨w, σ, hfleet, hrouting, (hrouting.settled 3 ?_ hrest hlt ?_).1⟩
  · intro r hr
    obtain ⟨r, rfl⟩ : ∃ n, r = n + 4 := ⟨r - 4, by omega⟩
    rfl
  · intro x
    cases x <;> decide

end Locache
