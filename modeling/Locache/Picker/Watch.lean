import Locache.Conc.ChangeLog
import Locache.Picker.Epochs

/-!
# The watch of a picker

Nodes register under a prefix of etcd, and a picker follows the keys there: it takes a snapshot,
applies the events that a watch delivers, and takes another snapshot when the watch is interrupted.
`Watcher` is the state of that loop. After every response and every snapshot the members are the
node itself and the nodes that were registered at the revision before the one the loop would resume
from (`watch_tracks_registrations`).
-/

namespace Locache

open Conc

/-! ## The registry -/

def servicePrefix (svcName : GoString) : GoString := ascii "/services/" ++ svcName ++ ascii "/"

def serviceKey (svcName addr : GoString) : GoString := servicePrefix svcName ++ addr

def parseAddrFromKey (key svcName : GoString) : GoString :=
  let pre := servicePrefix svcName
  if key.length ≤ pre.length ∨ key.take pre.length ≠ pre then [] else key.drop pre.length

/-- What `Register` does to etcd. -/
def register (svcName addr : GoString) : Change GoString GoString :=
  .put (serviceKey svcName addr) addr

/-- The keys of a service in etcd: only `Register` puts them, and what a deletion tells about the
previous value is what was put. -/
structure Registry (svcName : GoString) where
  log : ChangeLog GoString GoString
  register : ∀ rev key value, .put key value ∈ log rev → value ≠ [] ∧ key = serviceKey svcName value
  prevKv : ∀ rev key value, .delete key (some value) ∈ log rev → ∃ rev', .put key value ∈ log rev'

variable {svcName addr key : GoString} {p : ClientPicker}

theorem serviceKey_inj {addr' : GoString} :
    serviceKey svcName addr = serviceKey svcName addr' ↔ addr = addr' :=
  List.append_right_inj _

theorem parseAddrFromKey_serviceKey :
    parseAddrFromKey (serviceKey svcName addr) svcName = addr := by
  unfold parseAddrFromKey serviceKey
  cases addr with
  | nil => simp
  | cons b addr => simp

theorem serviceKey_of_parse (h : parseAddrFromKey key svcName ≠ []) :
    key = serviceKey svcName (parseAddrFromKey key svcName) := by
  unfold parseAddrFromKey at h ⊢
  dsimp only at h ⊢
  split at h
  · exact absurd rfl h
  · next hpre =>
    rw [if_neg hpre]
    rw [not_or, not_not] at hpre
    nth_rewrite 1 [← List.take_append_drop (servicePrefix svcName).length key]
    rw [hpre.2]
    rfl

namespace Registry

variable (E : Registry svcName)

/-- The node `addr` is registered at revision `rev`. -/
def registered (rev : Nat) (addr : GoString) : Bool :=
  (E.log.live rev (serviceKey svcName addr)).isSome

/-- What a `Get` of the prefix returns at revision `rev`, in some order. -/
def Snapshot (rev : Nat) (kvs : List (GoString × GoString)) : Prop :=
  ∀ key value, (key, value) ∈ kvs ↔ E.log.live rev key = some value

end Registry

/-! ## The loop -/

/-- The members in a snapshot. -/
def desired (selfAddr svcName : GoString) (kvs : List (GoString × GoString)) : GoSet :=
  kvs.foldl (fun desired kv =>
    let addr := if kv.2 = [] then parseAddrFromKey kv.1 svcName else kv.2
    if addr ≠ [] then desired.insert addr () else desired) (AList.singleton selfAddr ())

namespace ClientPicker

/-- What `refreshSnapshot` does with the keys it got. -/
def refreshSnapshot (newClient : GoString → Bool) (order₁ order₂ : List GoString)
    (svcName : GoString) (kvs : List (GoString × GoString)) (p : ClientPicker) : ClientPicker :=
  p.replaceMembership newClient order₁ order₂ (desired p.selfAddr svcName kvs)

/-- What the loop does with an event. -/
def handle (newClient : GoString → Bool) (svcName : GoString) (p : ClientPicker) :
    Change GoString GoString → ClientPicker
  | .put key value =>
    p.addMember newClient (if value = [] then parseAddrFromKey key svcName else value)
  | .delete key prev =>
    let addr := parseAddrFromKey key svcName
    p.removeMember (if addr = [] then prev.getD addr else addr)

end ClientPicker

/-- Where `watchServiceChanges` is. -/
inductive Phase where
  /-- Before the check of the context. -/
  | head
  /-- The watch has delivered everything before revision `next`. -/
  | watching (next : Nat)
  /-- Inside a response, with these events to go. -/
  | applying (next : Nat) (events : List (Change GoString GoString)) (header : Nat)
  /-- The watch has ended, with an error or without. -/
  | interrupted
  | done

structure Watcher where
  picker : ClientPicker
  rev : Nat
  phase : Phase
  /-- The context of the picker is cancelled. -/
  cancelled : Bool

namespace Watcher

variable (E : Registry svcName)

/-- `NewClientPicker` took its snapshot and started the loop. -/
inductive Started : Watcher → Prop where
  | mk (selfAddr : GoString) (hself : selfAddr ≠ []) (config : ConsistentHash.Config)
      (replicas : Nat) (hreplicas : 0 < replicas) (newClient : GoString → Bool)
      (order₁ order₂ : List GoString) (header : Nat) (kvs : List (GoString × GoString))
      (hkvs : E.Snapshot header kvs) :
      Started ⟨(ClientPicker.new selfAddr hself config replicas hreplicas).refreshSnapshot newClient
        order₁ order₂ svcName kvs, header + 1, .head, false⟩

/-- What happens next. A watch delivers the events up to the revision in the header of a response,
and none of them twice; `Close` cancels the context and takes the clients. -/
inductive Step : Watcher → Watcher → Prop where
  | watch {w : Watcher} (hphase : w.phase = .head) (hctx : w.cancelled = false) :
      Step w { w with phase := .watching w.rev }
  | exit {w : Watcher} (hphase : w.phase = .head ∨ w.phase = .interrupted)
      (hctx : w.cancelled = true) : Step w { w with phase := .done }
  | response {w : Watcher} {next : Nat} (hphase : w.phase = .watching next) (header : Nat) :
      Step w { w with
        phase := .applying (if next ≤ header then header + 1 else next) (E.log.since next header)
          header }
  | event {w : Watcher} {next header : Nat} {e : Change GoString GoString}
      {events : List (Change GoString GoString)}
      (hphase : w.phase = .applying next (e :: events) header) (newClient : GoString → Bool) :
      Step w { w with
        picker := w.picker.handle newClient svcName e
        phase := .applying next events header }
  | finish {w : Watcher} {next header : Nat} (hphase : w.phase = .applying next [] header) :
      Step w { w with
        rev := if header ≥ w.rev then header + 1 else w.rev
        phase := .watching next }
  | interrupt {w : Watcher} {next : Nat} (hphase : w.phase = .watching next) :
      Step w { w with phase := .interrupted }
  | refreshFailed {w : Watcher} (hphase : w.phase = .interrupted) : Step w { w with phase := .head }
  | refreshed {w : Watcher} (hphase : w.phase = .interrupted) (newClient : GoString → Bool)
      (order₁ order₂ : List GoString) (header : Nat) (kvs : List (GoString × GoString))
      (hkvs : E.Snapshot header kvs) :
      Step w { w with
        picker := w.picker.refreshSnapshot newClient order₁ order₂ svcName kvs
        rev := header + 1
        phase := .head }
  | cancel {w : Watcher} : Step w { w with cancelled := true }
  | close {w : Watcher} (order : List GoString) : Step w { w with picker := w.picker.close order }

end Watcher

/-! ## The members after a step of the picker -/

namespace ClientPicker

theorem mem_addMember {newClient : GoString → Bool} {a : GoString} (hne : addr ≠ []) :
    a ∈ (p.addMember newClient addr).members ↔ a = addr ∨ a ∈ p.members := by
  unfold addMember
  rw [if_neg hne]
  split
  · next hmem =>
    constructor
    · exact Or.inr
    · rintro (rfl | ha)
      · exact hmem
      · exact ha
  · dsimp only
    split <;> exact AList.mem_insert _

theorem mem_removeMember {a : GoString} (hne : addr ≠ []) :
    a ∈ (p.removeMember addr).members ↔ a ∈ p.members ∧ (a = p.selfAddr ∨ a ≠ addr) := by
  unfold removeMember
  split
  · next hself =>
    have hself : addr = p.selfAddr := hself.resolve_left hne
    subst hself
    exact ⟨fun ha => ⟨ha, em _⟩, And.left⟩
  · next hself =>
    rw [not_or] at hself
    split
    · next hmem =>
      constructor
      · intro ha
        refine ⟨ha, Or.inr ?_⟩
        rintro rfl
        exact hmem ha
      · exact And.left
    · show a ∈ p.members.erase addr ↔ _
      rw [AList.mem_erase]
      constructor
      · intro ha
        exact ⟨ha.2, Or.inr ha.1⟩
      · rintro ⟨ha, rfl | hne'⟩
        · exact ⟨fun heq => hself.2 heq.symm, ha⟩
        · exact ⟨hne', ha⟩

theorem mem_replaceMembership {newClient : GoString → Bool} {order₁ order₂ : List GoString}
    {desired : GoSet} {a : GoString} :
    a ∈ (p.replaceMembership newClient order₁ order₂ desired).members ↔ a ∈ desired := by
  unfold replaceMembership
  split
  · next hsame => exact sameMembers_iff.1 hsame a
  · exact Iff.rfl

theorem close_members {order : List GoString} : (p.close order).members = p.members := by
  unfold close
  split <;> rfl

end ClientPicker

/-- An address of a snapshot, from the value or from the key. -/
theorem mem_desired {selfAddr : GoString} {kvs : List (GoString × GoString)} {a : GoString} :
    a ∈ desired selfAddr svcName kvs ↔ a = selfAddr ∨ ∃ kv ∈ kvs,
      a = (if kv.2 = [] then parseAddrFromKey kv.1 svcName else kv.2) ∧ a ≠ [] := by
  unfold desired
  have hsingle : a ∈ (AList.singleton selfAddr () : GoSet) ↔ a = selfAddr := List.mem_singleton
  rw [← hsingle]
  generalize (AList.singleton selfAddr () : GoSet) = d
  induction kvs generalizing d with
  | nil => simp
  | cons kv kvs ih =>
    rw [List.foldl_cons, List.exists_mem_cons_iff, ← or_assoc]
    refine (ih _).trans ?_
    apply or_congr_left
    dsimp only
    generalize (if kv.2 = [] then parseAddrFromKey kv.1 svcName else kv.2) = addr
    split
    · next hne =>
      rw [AList.mem_insert, or_comm]
      apply or_congr_right
      constructor
      · rintro rfl
        exact ⟨rfl, hne⟩
      · exact And.left
    · next hnil =>
      constructor
      · exact Or.inl
      · rintro (ha | ⟨rfl, hne⟩)
        · exact ha
        · exact absurd hne hnil

/-! ## Picker and registry -/

/-- The members are the node itself and the registered nodes. -/
def Agrees (svcName : GoString) (p : ClientPicker) (live : GoString → Option GoString) : Prop :=
  ∀ a, a ∈ p.members ↔ a = p.selfAddr ∨ (live (serviceKey svcName a)).isSome

namespace ClientPicker

variable {newClient : GoString → Bool} {order₁ order₂ : List GoString}
  {kvs : List (GoString × GoString)}

theorem step_handle (p : ClientPicker) (newClient : GoString → Bool)
    (e : Change GoString GoString) : Step p (p.handle newClient svcName e) := by
  cases e with
  | put key value => exact .addMember _ _
  | delete key prev => exact .removeMember _

theorem step_refreshSnapshot :
    Step p (p.refreshSnapshot newClient order₁ order₂ svcName kvs) := by
  apply Step.replaceMembership
  · exact mem_desired.2 (Or.inl rfl)
  · intro hmem
    rcases mem_desired.1 hmem with hself | ⟨_, _, _, hne⟩
    · exact p.selfAddr_ne hself.symm
    · exact hne rfl

end ClientPicker

namespace Registry

variable {E : Registry svcName} {rev : Nat}

/-- A live key is the key of the address that is its value. -/
theorem value_of_live {changes : List (Change GoString GoString)}
    (hchanges : ∀ e ∈ changes, ∃ r, e ∈ E.log r) {key value : GoString}
    (h : changes.foldl Change.apply (E.log.live rev) key = some value) :
    value ≠ [] ∧ key = serviceKey svcName value := by
  rcases ChangeLog.foldl_apply_of_put h with h | h
  · obtain ⟨r, hr⟩ := ChangeLog.put_of_live h
    exact E.register r key value hr
  · obtain ⟨r, hr⟩ := hchanges _ h
    exact E.register r key value hr

end Registry

/-- **One event** does to the members what it does to the registered nodes. -/
theorem Agrees.handle {E : Registry svcName} {live : GoString → Option GoString}
    (hlive : ∀ key value, live key = some value → value ≠ [] ∧ key = serviceKey svcName value)
    (h : Agrees svcName p live) {e : Change GoString GoString} {rev : Nat} (he : e ∈ E.log rev)
    (newClient : GoString → Bool) :
    Agrees svcName (p.handle newClient svcName e) (e.apply live) := by
  intro a
  rw [(p.step_handle newClient e).fixed.1]
  cases e with
  | put key value =>
    obtain ⟨hne, rfl⟩ := E.register rev key value he
    dsimp only [ClientPicker.handle, Change.apply]
    rw [if_neg hne, ClientPicker.mem_addMember hne, h a]
    by_cases ha : a = value
    · subst ha
      simp
    · rw [Function.update_of_ne (fun heq => ha (serviceKey_inj.1 heq))]
      tauto
  | delete key prev =>
    dsimp only [ClientPicker.handle, Change.apply]
    by_cases hparse : parseAddrFromKey key svcName = []
    · -- Such a key was never put, so the event tells no address and nothing was live under it.
      have hput : ∀ value, key ≠ serviceKey svcName value ∨ value = [] := by
        intro value
        by_cases hkey : key = serviceKey svcName value
        · rw [hkey, parseAddrFromKey_serviceKey] at hparse
          exact Or.inr hparse
        · exact Or.inl hkey
      have hprev : prev = none := by
        cases prev with
        | none => rfl
        | some value =>
          obtain ⟨r, hr⟩ := E.prevKv rev key value he
          obtain ⟨hne, hkey⟩ := E.register r key value hr
          rcases hput value with hkey' | hnil
          · exact absurd hkey hkey'
          · exact absurd hnil hne
      have hnone : live key = none := by
        cases hk : live key with
        | none => rfl
        | some value =>
          obtain ⟨hne, hkey⟩ := hlive key value hk
          rcases hput value with hkey' | hnil
          · exact absurd hkey hkey'
          · exact absurd hnil hne
      have hupdate : Function.update live key none = live :=
        Function.update_eq_self_iff.2 hnone.symm
      rw [hprev, hparse, if_pos rfl, hupdate]
      unfold ClientPicker.removeMember
      rw [Option.getD_none, if_pos (Or.inl rfl)]
      exact h a
    · have hkey := serviceKey_of_parse hparse
      rw [if_neg hparse, ClientPicker.mem_removeMember hparse, h a]
      by_cases ha : a = parseAddrFromKey key svcName
      · rw [← ha] at hkey
        subst hkey
        simp only [← ha, ne_eq, not_true_eq_false, or_false, Function.update_self,
          Option.isSome_none, Bool.false_eq_true, and_iff_right_iff_imp]
        exact Or.inl
      · rw [Function.update_of_ne]
        · tauto
        · intro heq
          rw [hkey, serviceKey_inj] at heq
          exact ha heq

/-- **A snapshot** makes the members the registered nodes. -/
theorem Agrees.refreshSnapshot {E : Registry svcName} {rev : Nat}
    {kvs : List (GoString × GoString)} (hkvs : E.Snapshot rev kvs) (p : ClientPicker)
    (newClient : GoString → Bool) (order₁ order₂ : List GoString) :
    Agrees svcName (p.refreshSnapshot newClient order₁ order₂ svcName kvs) (E.log.live rev) := by
  have hvalue : ∀ key value, (key, value) ∈ kvs → value ≠ [] ∧ key = serviceKey svcName value := by
    intro key value hmem
    obtain ⟨r, hr⟩ := ChangeLog.put_of_live ((hkvs key value).1 hmem)
    exact E.register r key value hr
  intro a
  rw [ClientPicker.step_refreshSnapshot.fixed.1]
  unfold ClientPicker.refreshSnapshot
  rw [ClientPicker.mem_replaceMembership, mem_desired]
  apply or_congr_right
  rw [Option.isSome_iff_exists]
  constructor
  · rintro ⟨⟨key, value⟩, hmem, heq, hne⟩
    obtain ⟨hvne, rfl⟩ := hvalue key value hmem
    rw [if_neg hvne] at heq
    subst heq
    exact ⟨a, (hkvs _ _).1 hmem⟩
  · rintro ⟨value, hlive⟩
    have hmem := (hkvs _ _).2 hlive
    obtain ⟨hvne, hkey⟩ := hvalue _ _ hmem
    obtain rfl := serviceKey_inj.1 hkey
    exact ⟨_, hmem, (if_neg hvne).symm, hvne⟩

/-! ## The loop keeps track -/

namespace Watcher

/-- Where the loop is between two responses, the members are those of revision `rev - 1`; inside a
response, those that the events so far lead to. The watch will go on from `rev`. -/
def Tracks (E : Registry svcName) (w : Watcher) : Prop :=
  match w.phase with
  | .watching next => next = w.rev ∧ Agrees svcName w.picker (E.log.live (w.rev - 1))
  | .applying next events header =>
    next = (if w.rev ≤ header then header + 1 else w.rev) ∧
      ∃ earlier, E.log.since w.rev header = earlier ++ events ∧
        Agrees svcName w.picker (earlier.foldl Change.apply (E.log.live (w.rev - 1)))
  | _ => Agrees svcName w.picker (E.log.live (w.rev - 1))

variable {E : Registry svcName} {w w' : Watcher}

theorem Started.tracks (h : Started E w) : 0 < w.rev ∧ w.Tracks E := by
  cases h with
  | mk selfAddr hself config replicas hreplicas newClient order₁ order₂ header kvs hkvs =>
    exact ⟨Nat.succ_pos _, Agrees.refreshSnapshot hkvs _ newClient order₁ order₂⟩

theorem Started.reachable (h : Started E w) : w.picker.Reachable := by
  cases h with
  | mk selfAddr hself config replicas hreplicas newClient order₁ order₂ header kvs hkvs =>
    exact ⟨_, hself, config, replicas, hreplicas, .single ClientPicker.step_refreshSnapshot⟩

theorem Step.reachable (h : w.picker.Reachable) (hs : Step E w w') : w'.picker.Reachable := by
  have htail : ∀ q, ClientPicker.Step w.picker q → q.Reachable := by
    intro q hq
    obtain ⟨self, hself, config, replicas, hreplicas, hsteps⟩ := h
    exact ⟨self, hself, config, replicas, hreplicas, hsteps.tail hq⟩
  cases hs with
  | event hphase newClient => exact htail _ (w.picker.step_handle newClient _)
  | refreshed hphase newClient order₁ order₂ header kvs hkvs =>
    exact htail _ ClientPicker.step_refreshSnapshot
  | close order => exact htail _ (.close order)
  | watch => exact h
  | exit => exact h
  | response => exact h
  | finish => exact h
  | interrupt => exact h
  | refreshFailed => exact h
  | cancel => exact h

/-- What the loop keeps track of is the members. -/
theorem Tracks.picker (h : w.Tracks E) {p : ClientPicker}
    (hp : ∀ live, Agrees svcName w.picker live → Agrees svcName p live) :
    Tracks E { w with picker := p } := by
  unfold Tracks at h ⊢
  cases hphase : w.phase with
  | watching next =>
    rw [hphase] at h
    exact ⟨h.1, hp _ h.2⟩
  | applying next events header =>
    rw [hphase] at h
    obtain ⟨hnext, earlier, hsince, hagrees⟩ := h
    exact ⟨hnext, earlier, hsince, hp _ hagrees⟩
  | _ =>
    rw [hphase] at h
    exact hp _ h

/-- **One step of the loop** keeps track. -/
theorem Step.tracks (hpos : 0 < w.rev) (h : w.Tracks E) (hs : Step E w w') :
    0 < w'.rev ∧ w'.Tracks E := by
  cases hs with
  | watch hphase hctx =>
    rw [Tracks, hphase] at h
    exact ⟨hpos, rfl, h⟩
  | exit hphase hctx =>
    rcases hphase with hphase | hphase
    · rw [Tracks, hphase] at h
      exact ⟨hpos, h⟩
    · rw [Tracks, hphase] at h
      exact ⟨hpos, h⟩
  | response hphase header =>
    rw [Tracks, hphase] at h
    obtain ⟨rfl, hagrees⟩ := h
    exact ⟨hpos, rfl, [], rfl, hagrees⟩
  | @event next header e events hphase newClient =>
    rw [Tracks, hphase] at h
    obtain ⟨hnext, earlier, hsince, hagrees⟩ := h
    have hlog : ∀ e' ∈ earlier ++ e :: events, ∃ r, e' ∈ E.log r := by
      intro e' he'
      rw [← hsince] at he'
      exact ChangeLog.mem_since he'
    obtain ⟨r, hr⟩ := hlog e (List.mem_append_right _ List.mem_cons_self)
    refine ⟨hpos, hnext, earlier ++ [e], ?_, ?_⟩
    · rw [hsince, List.append_assoc, List.singleton_append]
    · rw [List.foldl_append]
      apply Agrees.handle _ hagrees hr newClient
      intro key value hlive
      apply Registry.value_of_live _ hlive
      intro e' he'
      exact hlog e' (List.mem_append_left _ he')
  | @finish next header hphase =>
    rw [Tracks, hphase] at h
    obtain ⟨hnext, earlier, hsince, hagrees⟩ := h
    refine ⟨?_, hnext, ?_⟩
    · show 0 < if w.rev ≤ header then header + 1 else w.rev
      split
      · exact Nat.succ_pos _
      · exact hpos
    · rw [List.append_nil] at hsince
      rw [← hsince, ChangeLog.live_since hpos] at hagrees
      exact hagrees
  | interrupt hphase =>
    rw [Tracks, hphase] at h
    exact ⟨hpos, h.2⟩
  | refreshFailed hphase =>
    rw [Tracks, hphase] at h
    exact ⟨hpos, h⟩
  | refreshed hphase newClient order₁ order₂ header kvs hkvs =>
    exact ⟨Nat.succ_pos _, Agrees.refreshSnapshot hkvs _ newClient order₁ order₂⟩
  | cancel => exact ⟨hpos, h⟩
  | close order =>
    refine ⟨hpos, h.picker fun live hagrees a => ?_⟩
    rw [ClientPicker.close_members, (ClientPicker.Step.close order).fixed.1]
    exact hagrees a

/-- The picker of a loop is a picker like any other. -/
theorem reachable {w₀ : Watcher} (hstart : Started E w₀)
    (hrun : Relation.ReflTransGen (Step E) w₀ w) : w.picker.Reachable := by
  induction hrun with
  | refl => exact hstart.reachable
  | tail _ hs ih => exact hs.reachable ih

theorem tracks {w₀ : Watcher} (hstart : Started E w₀)
    (hrun : Relation.ReflTransGen (Step E) w₀ w) : 0 < w.rev ∧ w.Tracks E := by
  induction hrun with
  | refl => exact hstart.tracks
  | tail _ hs ih => exact hs.tracks ih.1 ih.2

theorem Tracks.agrees (h : w.Tracks E)
    (hrest : ∀ next events header, w.phase ≠ .applying next events header) :
    Agrees svcName w.picker (E.log.live (w.rev - 1)) := by
  unfold Tracks at h
  split at h
  · exact h.2
  · next next events header hphase => exact absurd hphase (hrest next events header)
  · exact h

end Watcher

/-- **The watch keeps track of the registry.** Whatever happens to the watch and to the snapshots,
whenever the loop is not inside a response the members are the node itself and the nodes that are
registered at the revision before the one it resumes from; a snapshot of that revision would change
nothing. -/
theorem watch_tracks_registrations {E : Registry svcName} {w₀ w : Watcher}
    (hstart : Watcher.Started E w₀) (hrun : Relation.ReflTransGen (Watcher.Step E) w₀ w)
    (hrest : ∀ next events header, w.phase ≠ .applying next events header) :
    (∀ a, a ∈ w.picker.members ↔
      a = w.picker.selfAddr ∨ E.registered (w.rev - 1) a = true) ∧
    ∀ newClient order₁ order₂ kvs, E.Snapshot (w.rev - 1) kvs →
      w.picker.refreshSnapshot newClient order₁ order₂ svcName kvs = w.picker := by
  have hagrees := (Watcher.tracks hstart hrun).2.agrees hrest
  refine ⟨hagrees, ?_⟩
  intro newClient order₁ order₂ kvs hkvs
  have hfresh := Agrees.refreshSnapshot hkvs w.picker newClient order₁ order₂
  rw [Agrees, ClientPicker.step_refreshSnapshot.fixed.1] at hfresh
  have hsame : ClientPicker.sameMembers w.picker.members
      (desired w.picker.selfAddr svcName kvs) = true := by
    rw [ClientPicker.sameMembers_iff]
    intro a
    rw [hagrees a, ← hfresh a]
    exact ClientPicker.mem_replaceMembership
  unfold ClientPicker.refreshSnapshot ClientPicker.replaceMembership
  rw [if_pos hsame]

/-- A node registers at revision 2 and leaves at revision 3, when another one comes. -/
def Registry.handover : Registry (ascii "locache") where
  log
    | 2 => [.put (serviceKey (ascii "locache") (ascii "b:1")) (ascii "b:1")]
    | 3 => [.delete (serviceKey (ascii "locache") (ascii "b:1")) none,
        .put (serviceKey (ascii "locache") (ascii "c:1")) (ascii "c:1")]
    | _ => []
  register := by
    intro rev key value h
    split at h
    · cases List.mem_singleton.1 h
      exact ⟨by decide, rfl⟩
    · rcases List.mem_cons.1 h with heq | h
      · cases heq
      · cases List.mem_singleton.1 h
        exact ⟨by decide, rfl⟩
    · cases h
  prevKv := by
    intro rev key value h
    split at h
    · cases List.mem_singleton.1 h
    · rcases List.mem_cons.1 h with heq | h
      · cases heq
      · cases List.mem_singleton.1 h
    · cases h

/-- A loop that starts before both of them and is told of everything in one response. -/
theorem handover_run (p : ClientPicker) : ∃ q : ClientPicker, q.selfAddr = p.selfAddr ∧
    Relation.ReflTransGen (Watcher.Step .handover) ⟨p, 2, .head, false⟩
      ⟨q, 4, .watching 4, false⟩ := by
  have hwatch : Watcher.Step .handover ⟨p, 2, .head, false⟩ ⟨p, 2, .watching 2, false⟩ :=
    .watch rfl rfl
  have hresponse : Watcher.Step .handover ⟨p, 2, .watching 2, false⟩
      ⟨p, 2, .applying 4 (Registry.handover.log.since 2 3) 3, false⟩ :=
    .response (w := ⟨p, 2, .watching 2, false⟩) rfl 3
  obtain ⟨q, hself, hevents⟩ : ∃ q : ClientPicker, q.selfAddr = p.selfAddr ∧
      Relation.ReflTransGen (Watcher.Step .handover)
        ⟨p, 2, .applying 4 (Registry.handover.log.since 2 3) 3, false⟩
        ⟨q, 2, .applying 4 [] 3, false⟩ := by
    clear hwatch hresponse
    generalize Registry.handover.log.since 2 3 = events
    induction events generalizing p with
    | nil => exact ⟨p, rfl, .refl⟩
    | cons e events ih =>
      obtain ⟨q, hself, hq⟩ := ih (p.handle (fun _ => true) (ascii "locache") e)
      exact ⟨q, hself.trans (p.step_handle _ e).fixed.1, .head (.event rfl fun _ => true) hq⟩
  have hfinish : Watcher.Step .handover ⟨q, 2, .applying 4 [] 3, false⟩
      ⟨q, 4, .watching 4, false⟩ := .finish (w := ⟨q, 2, .applying 4 [] 3, false⟩) rfl
  exact ⟨q, hself, .head hwatch (.head hresponse (hevents.tail hfinish))⟩

/-- A store with one key holds that key and its value. -/
theorem mem_singleton_iff_live {key value k v : GoString} :
    (k, v) ∈ [(key, value)] ↔ Function.update (fun _ => none) key (some value) k = some v := by
  rw [List.mem_singleton, Prod.mk.injEq]
  by_cases hk : k = key
  · subst hk
    rw [Function.update_self, Option.some_inj]
    exact ⟨fun h => h.2.symm, fun h => ⟨rfl, h.symm⟩⟩
  · rw [Function.update_of_ne hk]
    constructor
    · exact fun h => absurd h.1 hk
    · rintro ⟨⟩

theorem handover_snapshot : Registry.handover.Snapshot 3
    [(serviceKey (ascii "locache") (ascii "c:1"), ascii "c:1")] := by
  intro key value
  have hlive : Registry.handover.log.live 3 = Function.update (Function.update (Function.update
      (fun _ => none) (serviceKey (ascii "locache") (ascii "b:1")) (some (ascii "b:1")))
      (serviceKey (ascii "locache") (ascii "b:1")) none)
      (serviceKey (ascii "locache") (ascii "c:1")) (some (ascii "c:1")) := rfl
  have hnone : Function.update (fun _ => none) (serviceKey (ascii "locache") (ascii "b:1")) none =
      (fun _ => none : GoString → Option GoString) := Function.update_eq_self_iff.2 rfl
  rw [hlive, Function.update_idem, hnone]
  exact mem_singleton_iff_live

/-- It knows the node that came last, and no longer the one that left; a snapshot tells it nothing
new. -/
theorem handover_tracked : ∃ w₀ w : Watcher, Watcher.Started .handover w₀ ∧
    Relation.ReflTransGen (Watcher.Step .handover) w₀ w ∧
    ascii "b:1" ∉ w.picker.members ∧ ascii "c:1" ∈ w.picker.members ∧
    w.picker.refreshSnapshot (fun _ => true) [] [] (ascii "locache")
      [(serviceKey (ascii "locache") (ascii "c:1"), ascii "c:1")] = w.picker := by
  have hsnapshot : Registry.handover.Snapshot 1 [] := by
    intro key value
    simp [ChangeLog.live, Registry.handover]
  have hstart : Watcher.Started .handover _ := .mk (ascii "a:1") (by decide) .default 1 (by decide)
    (fun _ => true) [] [] 1 [] hsnapshot
  obtain ⟨q, hself, hrun⟩ := handover_run _
  obtain ⟨hmem, hfresh⟩ := watch_tracks_registrations hstart hrun (fun _ _ _ h => by cases h)
  change ∀ a, a ∈ q.members ↔ a = q.selfAddr ∨ Registry.handover.registered 3 a = true at hmem
  refine ⟨_, _, hstart, hrun, ?_, ?_, hfresh _ _ _ _ handover_snapshot⟩
  · rw [hmem, hself]
    decide
  · rw [hmem]
    exact Or.inr (by decide)

end Locache
