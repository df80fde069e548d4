import Locache.Picker.Watch

/-!
# Several services in one etcd

The key of a registration is the name of the service and the address of the node with a slash
between them, and a picker follows the keys that begin with the name of its service and a slash. A
name or an address may have slashes of its own, so the keys of one service can be among those of
another: they are not iff their names and addresses are `Apart`. A picker whose service is apart
from all others knows the nodes of its own service and no others (`services_apart_iff`); otherwise
it may take the node of another service for one of its own, and keep it when the node is gone
(`foreign_node_stays`).
-/

namespace Locache

open Conc

/-- The key is one that the picker of the service follows. -/
def Under (svcName key : GoString) : Prop := servicePrefix svcName <+: key

instance (svcName : GoString) : DecidablePred (Under svcName) :=
  fun key => inferInstanceAs (Decidable (_ <+: key))

/-- The picker of `svcName` does not follow the key of the node `addr` of the service `other`: the
other name does not go on from `svcName` with a slash, and if `svcName` goes on from the other name
in this way, the address does not go on as `svcName` does. -/
structure Apart (svcName other addr : GoString) : Prop where
  name : ¬ svcName ++ ascii "/" <+: other
  addr : ∀ rest, svcName = other ++ ascii "/" ++ rest → ¬ rest ++ ascii "/" <+: addr

/-! ## Histories -/

/-- What happens to a registration. The deletion of its key may tell the value there was. -/
inductive Registration where
  | register (svcName addr : GoString)
  | expire (svcName addr : GoString) (prevKv : Bool)

namespace Registration

def svcName : Registration → GoString
  | .register svcName _ => svcName
  | .expire svcName _ _ => svcName

def addr : Registration → GoString
  | .register _ addr => addr
  | .expire _ addr _ => addr

def change : Registration → Change GoString GoString
  | .register svcName addr => Locache.register svcName addr
  | .expire svcName addr prevKv =>
    .delete (serviceKey svcName addr) (if prevKv then some addr else none)

end Registration

/-- The registrations of all services and the ends of their leases, by revision. -/
structure Etcd where
  log : Nat → List Registration
  register : ∀ rev svcName addr, .register svcName addr ∈ log rev → addr ≠ []
  expire : ∀ rev svcName addr prevKv, .expire svcName addr prevKv ∈ log rev →
    ∃ rev', .register svcName addr ∈ log rev'

namespace Etcd

def changes (E : Etcd) : ChangeLog GoString GoString :=
  fun rev => (E.log rev).map Registration.change

/-- What a watch of the prefix delivers. -/
def view (E : Etcd) (svcName : GoString) : ChangeLog GoString GoString :=
  E.changes.restrict (Under svcName)

/-- What a `Get` of the prefix returns at revision `rev`, in some order. -/
def Get (E : Etcd) (svcName : GoString) (rev : Nat) (kvs : List (GoString × GoString)) : Prop :=
  ∀ key value, (key, value) ∈ kvs ↔ Under svcName key ∧ E.changes.live rev key = some value

/-- The changes that the nodes of one service make. -/
def own (E : Etcd) (svcName : GoString) : ChangeLog GoString GoString :=
  fun rev => ((E.log rev).filter fun e => e.svcName = svcName).map Registration.change

/-- The node `addr` is registered under the service at revision `rev`. -/
def registered (E : Etcd) (svcName : GoString) (rev : Nat) (addr : GoString) : Bool :=
  ((E.own svcName).live rev (serviceKey svcName addr)).isSome

/-- The other services are apart from this one. -/
def Apart (E : Etcd) (svcName : GoString) : Prop :=
  ∀ rev, ∀ e ∈ E.log rev, e.svcName ≠ svcName → Locache.Apart svcName e.svcName e.addr

end Etcd

/-! ## Keys -/

variable {svcName other addr : GoString}

theorem Registration.change_key (e : Registration) :
    e.change.key = serviceKey e.svcName e.addr := by
  cases e <;> rfl

theorem under_serviceKey : Under svcName (serviceKey svcName addr) := List.prefix_append _ _

/-- The name before the slash ends inside the other name, or inside the address after it. -/
theorem under_iff (hne : other ≠ svcName) :
    Under svcName (serviceKey other addr) ↔ svcName ++ ascii "/" <+: other ∨
      ∃ rest, svcName = other ++ ascii "/" ++ rest ∧ rest ++ ascii "/" <+: addr := by
  have hslash : ascii "/" = [47] := rfl
  unfold Under serviceKey servicePrefix
  rw [List.append_assoc, List.append_assoc, List.append_assoc, List.prefix_append_right_inj, hslash,
    List.singleton_append]
  constructor
  · intro h
    rcases List.prefix_or_prefix_of_prefix h (List.prefix_append other _) with hle | ⟨rest, hrest⟩
    · exact Or.inl hle
    rw [← hrest, List.prefix_append_right_inj] at h
    -- the rest is empty, or a slash alone, or a slash and the end of the name
    cases rest with
    | nil =>
      rw [List.append_nil] at hrest
      exact Or.inl (hrest ▸ List.prefix_refl _)
    | cons slash rest =>
      obtain ⟨rfl, hprefix⟩ := List.cons_prefix_cons.1 h
      rcases List.eq_nil_or_concat rest with rfl | ⟨rest, last, rfl⟩
      · exact absurd (List.append_inj_left' hrest rfl) hne
      · have hsplit : (other ++ 47 :: rest) ++ [last] = svcName ++ [47] := by
          rw [← hrest]
          simp
        obtain ⟨hname, hlast⟩ := List.append_inj' hsplit rfl
        cases hlast
        rw [List.concat_eq_append] at hprefix
        refine Or.inr ⟨rest, ?_, hprefix⟩
        rw [← hname, List.append_assoc, List.singleton_append]
  · rintro (h | ⟨rest, rfl, h⟩)
    · exact h.trans (List.prefix_append _ _)
    · rw [List.append_assoc, List.append_assoc, List.prefix_append_right_inj,
        List.singleton_append, List.cons_prefix_cons]
      exact ⟨rfl, h⟩

theorem not_under_iff (hne : other ≠ svcName) :
    ¬ Under svcName (serviceKey other addr) ↔ Apart svcName other addr := by
  rw [under_iff hne, not_or, not_exists]
  constructor
  · rintro ⟨hname, haddr⟩
    exact ⟨hname, fun rest hrest h => haddr rest ⟨hrest, h⟩⟩
  · rintro ⟨hname, haddr⟩
    exact ⟨hname, fun rest h => haddr rest h.1 h.2⟩

/-! ## What a picker is told -/

namespace Etcd

variable {E : Etcd}

theorem view_eq (E : Etcd) (svcName : GoString) (rev : Nat) : E.view svcName rev =
    ((E.log rev).filter fun e => Under svcName (serviceKey e.svcName e.addr)).map
      Registration.change := by
  unfold view changes ChangeLog.restrict
  rw [List.filter_map]
  congr 1
  apply List.filter_congr
  intro e _
  rw [Function.comp_apply, e.change_key]

/-- **A picker is told the changes of its own service and no others** iff the other services are
apart from it. -/
theorem view_eq_own_iff : E.view svcName = E.own svcName ↔ E.Apart svcName := by
  constructor
  · intro h rev e he hother
    rw [← not_under_iff hother]
    intro hunder
    -- both are parts of the same list, and the first has `e` besides what the second has
    have hlen := congrArg List.length (congrFun h rev)
    rw [view_eq, own, List.length_map, List.length_map, ← List.countP_eq_length_filter,
      ← List.countP_eq_length_filter] at hlen
    obtain ⟨pre, post, hlog⟩ := List.append_of_mem he
    have hle : ∀ l : List Registration, l.countP (fun e => decide (e.svcName = svcName)) ≤
        l.countP (fun e => decide (Under svcName (serviceKey e.svcName e.addr))) := by
      intro l
      apply List.countP_mono_left
      intro e _ hown
      rw [decide_eq_true_eq] at hown ⊢
      exact hown ▸ under_serviceKey
    rw [hlog, List.countP_append, List.countP_append,
      List.countP_cons_of_pos (by simpa using hunder),
      List.countP_cons_of_neg (by simpa using hother)] at hlen
    have hpre := hle pre
    have hpost := hle post
    omega
  · intro h
    funext rev
    rw [view_eq, own]
    congr 1
    apply List.filter_congr
    intro e he
    rw [decide_eq_decide]
    constructor
    · intro hunder
      by_contra hother
      exact (not_under_iff hother).2 (h rev e he hother) hunder
    · rintro rfl
      exact under_serviceKey

/-- What a picker of a service that is apart from the others follows. -/
def registry (E : Etcd) (h : E.Apart svcName) : Registry svcName where
  log := E.view svcName
  register := by
    intro rev key value hput
    rw [view_eq_own_iff.2 h] at hput
    obtain ⟨e, he, heq⟩ := List.mem_map.1 hput
    obtain ⟨he, hname⟩ := List.mem_filter.1 he
    rw [decide_eq_true_eq] at hname
    cases e with
    | register name addr =>
      cases heq
      exact ⟨E.register rev name value he, congrArg (serviceKey · value) hname⟩
    | expire name addr prevKv => cases heq
  prevKv := by
    intro rev key value hdelete
    rw [view_eq_own_iff.2 h] at hdelete ⊢
    obtain ⟨e, he, heq⟩ := List.mem_map.1 hdelete
    obtain ⟨he, hname⟩ := List.mem_filter.1 he
    rw [decide_eq_true_eq] at hname
    cases e with
    | register name addr => cases heq
    | expire name addr prevKv =>
      cases prevKv with
      | false => cases heq
      | true =>
        cases heq
        obtain ⟨rev', hput⟩ := E.expire rev name value true he
        refine ⟨rev', List.mem_map.2 ⟨_, List.mem_filter.2 ⟨hput, ?_⟩, rfl⟩⟩
        rwa [decide_eq_true_eq]

/-- A `Get` returns what is live among the changes that a watch delivers. -/
theorem snapshot_iff (h : E.Apart svcName) (rev : Nat) (kvs : List (GoString × GoString)) :
    (E.registry h).Snapshot rev kvs ↔ E.Get svcName rev kvs := by
  have hlive : ∀ key value, (E.view svcName).live rev key = some value ↔
      Under svcName key ∧ E.changes.live rev key = some value := by
    intro key value
    unfold view
    rw [ChangeLog.live_restrict]
    split
    · next hunder => exact (and_iff_right hunder).symm
    · next hunder =>
      constructor
      · rintro ⟨⟩
      · exact fun hlive => absurd hlive.1 hunder
  constructor
  · exact fun hkvs key value => (hkvs key value).trans (hlive key value)
  · exact fun hkvs key value => (hkvs key value).trans (hlive key value).symm

end Etcd

/-- **The keys of a service** give its addresses back, and are apart from those of another service
iff their names and addresses are. The picker of a service that is apart from all others, for any
history of their registrations and for any run of its loop, has the node itself and the registered
nodes of its own service as members. -/
theorem services_apart_iff (hne : other ≠ svcName) :
    (∀ addr, parseAddrFromKey (serviceKey svcName addr) svcName = addr) ∧
    (∀ addr, ¬ Under svcName (serviceKey other addr) ↔ Apart svcName other addr) ∧
    ∀ E : Etcd, (E.view svcName = E.own svcName ↔ E.Apart svcName) ∧
      ∀ h : E.Apart svcName,
        (∀ rev kvs, (E.registry h).Snapshot rev kvs ↔ E.Get svcName rev kvs) ∧
        ∀ w₀ w, Watcher.Started (E.registry h) w₀ →
          Relation.ReflTransGen (Watcher.Step (E.registry h)) w₀ w →
          (∀ next events header, w.phase ≠ .applying next events header) →
          ∀ a, a ∈ w.picker.members ↔
            a = w.picker.selfAddr ∨ E.registered svcName (w.rev - 1) a = true := by
  refine ⟨fun addr => parseAddrFromKey_serviceKey, fun addr => not_under_iff hne, fun E => ?_⟩
  refine ⟨Etcd.view_eq_own_iff, fun h => ⟨Etcd.snapshot_iff h, ?_⟩⟩
  intro w₀ w hstart hrun hrest a
  rw [(Watcher.tracks hstart hrun).2.agrees hrest a, Etcd.registered, ← Etcd.view_eq_own_iff.2 h]
  rfl

/-- Nodes of two services register one after the other. -/
def Etcd.neighbours : Etcd where
  log
    | 1 => [.register (ascii "other") (ascii "x:1")]
    | 2 => [.register (ascii "locache") (ascii "b:1")]
    | _ => []
  register := by
    intro rev svcName addr h
    split at h
    · cases List.mem_singleton.1 h
      decide
    · cases List.mem_singleton.1 h
      decide
    · cases h
  expire := by
    intro rev svcName addr prevKv h
    split at h
    · cases List.mem_singleton.1 h
    · cases List.mem_singleton.1 h
    · cases h

theorem other_apart : Apart (ascii "locache") (ascii "other") (ascii "x:1") := by
  refine ⟨by decide, fun rest hrest => ?_⟩
  have hprefix : ascii "other" ++ ascii "/" <+: ascii "locache" := ⟨rest, hrest.symm⟩
  exact absurd hprefix (by decide)

theorem neighbours_apart : Etcd.neighbours.Apart (ascii "locache") := by
  intro rev e he hother
  unfold Etcd.neighbours at he
  dsimp only at he
  split at he
  · cases List.mem_singleton.1 he
    exact other_apart
  · cases List.mem_singleton.1 he
    exact absurd rfl hother
  · cases he

/-- A picker that starts when both are registered knows the node of its own service only. -/
theorem neighbour_unknown : ∃ w, Watcher.Started (Etcd.neighbours.registry neighbours_apart) w ∧
    ¬ Under (ascii "locache") (serviceKey (ascii "other") (ascii "x:1")) ∧
    ascii "b:1" ∈ w.picker.members ∧ ascii "x:1" ∉ w.picker.members := by
  obtain ⟨-, hunder, hhist⟩ := services_apart_iff
    (show ascii "other" ≠ ascii "locache" by decide)
  obtain ⟨-, hrun⟩ := hhist .neighbours
  obtain ⟨-, hmem⟩ := hrun neighbours_apart
  have hkvs : (Etcd.neighbours.registry neighbours_apart).Snapshot 2
      [(serviceKey (ascii "locache") (ascii "b:1"), ascii "b:1")] :=
    fun key value => mem_singleton_iff_live
  have hstart := Watcher.Started.mk (ascii "a:1") addr_ne_nil .default 1 Nat.one_pos (fun _ => true)
    [] [] 2 _ hkvs
  have hat := hmem _ _ hstart .refl (fun _ _ _ h => by cases h)
  refine ⟨_, hstart, (hunder _).2 other_apart, ?_, ?_⟩
  · exact (hat _).2 (Or.inr (by decide))
  · intro hx
    rcases (hat _).1 hx with hself | hreg
    · have hnew := hself.trans ClientPicker.step_refreshSnapshot.fixed.1
      exact absurd hnew (by decide)
    · exact absurd hreg (by decide)

/-- A node registers under a name with a slash, and leaves. -/
def Etcd.crossing : Etcd where
  log
    | 1 => [.register (ascii "a/b") (ascii "x:1")]
    | 2 => [.expire (ascii "a/b") (ascii "x:1") true]
    | _ => []
  register := by
    intro rev svcName addr h
    split at h
    · cases List.mem_singleton.1 h
      decide
    · cases List.mem_singleton.1 h
    · cases h
  expire := by
    intro rev svcName addr prevKv h
    split at h
    · cases List.mem_singleton.1 h
    · cases List.mem_singleton.1 h
      exact ⟨1, List.mem_singleton_self _⟩
    · cases h

/-- **The picker of `a` takes the node of `a/b` for one of its own**, from a snapshot and from the
event of its registration, and keeps it when the registration has ended: the address it finds in the
key is another. -/
theorem foreign_node_stays :
    Under (ascii "a") (serviceKey (ascii "a/b") (ascii "x:1")) ∧
    (∀ rev, Etcd.crossing.own (ascii "a") rev = []) ∧
    Etcd.crossing.Get (ascii "a") 1 [(serviceKey (ascii "a/b") (ascii "x:1"), ascii "x:1")] ∧
    ascii "x:1" ∈ desired (ascii "a:1") (ascii "a")
      [(serviceKey (ascii "a/b") (ascii "x:1"), ascii "x:1")] ∧
    ascii "x:1" ∈ (((Etcd.crossing.view (ascii "a")).since 1 2).foldl
      (fun p e => p.handle (fun _ => true) (ascii "a") e) ClientPicker.alone).members := by
  have hunder : Under (ascii "a") (serviceKey (ascii "a/b") (ascii "x:1")) := by decide
  refine ⟨hunder, ?_, ?_, by decide, ?_⟩
  · intro rev
    unfold Etcd.own Etcd.crossing
    dsimp only
    split <;> rfl
  · intro key value
    have hlive : Etcd.crossing.changes.live 1 = Function.update (fun _ => none)
        (serviceKey (ascii "a/b") (ascii "x:1")) (some (ascii "x:1")) := rfl
    rw [mem_singleton_iff_live, hlive]
    constructor
    · intro h
      refine ⟨?_, h⟩
      by_cases hkey : key = serviceKey (ascii "a/b") (ascii "x:1")
      · exact hkey ▸ hunder
      · rw [Function.update_of_ne hkey] at h
        cases h
    · exact And.right
  · have hsince : (Etcd.crossing.view (ascii "a")).since 1 2 =
        [.put (serviceKey (ascii "a/b") (ascii "x:1")) (ascii "x:1"),
          .delete (serviceKey (ascii "a/b") (ascii "x:1")) (some (ascii "x:1"))] := rfl
    have hparse : parseAddrFromKey (serviceKey (ascii "a/b") (ascii "x:1")) (ascii "a") =
        ascii "b/x:1" := by decide
    rw [hsince, List.foldl_cons, List.foldl_cons, List.foldl_nil]
    dsimp only [ClientPicker.handle]
    rw [hparse, if_neg (by decide), if_neg (by decide), ClientPicker.mem_removeMember (by decide),
      ClientPicker.mem_addMember (by decide)]
    exact ⟨Or.inl rfl, Or.inr (by decide)⟩

end Locache
