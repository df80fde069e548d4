import Locache.Picker.Clients

/-!
# The epoch of a picker

The epoch is the version stamp of the membership: it goes up by one when the set of members changes
and stays otherwise. It is a `uint64`, so it says how many changes there were modulo `2 ^ 64`
(`Path.epoch`). Two picks with the same epoch have the same answer as long as fewer than `2 ^ 64`
changes lie between them (`epoch_stamps_members`), and no longer than that (`epoch_wraps`).
-/

namespace Locache.ClientPicker

open ConsistentHash

/-- The same set of members, in whatever order. -/
def SameMembers (p q : ClientPicker) : Prop := ∀ a, a ∈ p.members ↔ a ∈ q.members

/-- `q` comes from `p` by steps of which `n` change the set of members. -/
inductive Path (p : ClientPicker) : Nat → ClientPicker → Prop where
  | refl : Path p 0 p
  | keep {n : Nat} {q r : ClientPicker} : Path p n q → Step q r → SameMembers q r → Path p n r
  | change {n : Nat} {q r : ClientPicker} :
      Path p n q → Step q r → ¬SameMembers q r → Path p (n + 1) r

variable {p q r : ClientPicker} {n m : Nat}

theorem SameMembers.refl : SameMembers p p := fun _ => Iff.rfl

theorem SameMembers.trans (h : SameMembers p q) (h' : SameMembers q r) : SameMembers p r :=
  fun a => (h a).trans (h' a)

theorem sameMembers_iff {a b : GoSet} : sameMembers a b = true ↔ ∀ x, x ∈ a ↔ x ∈ b := by
  unfold sameMembers
  constructor
  · intro h
    split at h
    · cases h
    · next hlen =>
      rw [ne_eq, not_not] at hlen
      have hsub : a.keys ⊆ b.keys := by
        intro x hx
        exact AList.mem_keys.1 (of_decide_eq_true (List.all_eq_true.1 h x hx))
      have hperm : a.keys.Perm b.keys :=
        (List.subperm_of_subset a.keys_nodup hsub).perm_of_length_le (Nat.le_of_eq hlen.symm)
      intro x
      exact hperm.mem_iff
  · intro h
    have hperm : a.keys.Perm b.keys :=
      (List.perm_ext_iff_of_nodup a.keys_nodup b.keys_nodup).2 h
    rw [if_neg (not_not.2 hperm.length_eq), List.all_eq_true]
    intro x hx
    exact decide_eq_true ((h x).1 hx)

/-! ## One step -/

/-- **The epoch counts the changes**: a step that changes the members adds one to it, and no other
step touches it. -/
theorem Step.epoch (hs : Step p q) : SameMembers p q ∧ q.epoch = p.epoch ∨
    ¬SameMembers p q ∧ q.epoch = p.nextEpoch := by
  cases hs with
  | addMember newClient addr =>
    unfold ClientPicker.addMember
    split
    · exact Or.inl ⟨.refl, rfl⟩
    · split
      · exact Or.inl ⟨.refl, rfl⟩
      · next hnew =>
        refine Or.inr ⟨?_, rfl⟩
        intro hsame
        apply hnew
        rw [hsame addr]
        dsimp only
        split <;> exact (AList.mem_insert _).2 (Or.inl rfl)
  | removeMember addr =>
    unfold ClientPicker.removeMember
    split
    · exact Or.inl ⟨.refl, rfl⟩
    · split
      · exact Or.inl ⟨.refl, rfl⟩
      · next hmem =>
        refine Or.inr ⟨?_, rfl⟩
        intro hsame
        have herase := (hsame addr).1 (not_not.1 hmem)
        exact (AList.mem_erase.1 herase).1 rfl
  | replaceMembership newClient order₁ order₂ desired hself hne =>
    unfold ClientPicker.replaceMembership
    split
    · exact Or.inl ⟨.refl, rfl⟩
    · next hdiff =>
      refine Or.inr ⟨?_, rfl⟩
      intro hsame
      exact hdiff (sameMembers_iff.2 hsame)
  | close order =>
    unfold ClientPicker.close
    split <;> exact Or.inl ⟨.refl, rfl⟩

/-- What a picker is given at its construction stays. -/
theorem Step.fixed (hs : Step p q) : q.selfAddr = p.selfAddr ∧ q.hashReplicas = p.hashReplicas ∧
    q.defaultConfig = p.defaultConfig := by
  cases hs with
  | addMember newClient addr =>
    unfold ClientPicker.addMember
    split
    · exact ⟨rfl, rfl, rfl⟩
    · split
      · exact ⟨rfl, rfl, rfl⟩
      · dsimp only
        split <;> exact ⟨rfl, rfl, rfl⟩
  | removeMember addr =>
    unfold ClientPicker.removeMember
    split
    · exact ⟨rfl, rfl, rfl⟩
    · split <;> exact ⟨rfl, rfl, rfl⟩
  | replaceMembership newClient order₁ order₂ desired hself hne =>
    unfold ClientPicker.replaceMembership
    split <;> exact ⟨rfl, rfl, rfl⟩
  | close order =>
    unfold ClientPicker.close
    split <;> exact ⟨rfl, rfl, rfl⟩

/-! ## Whole runs -/

namespace Path

theorem trans (h : Path p n q) (h' : Path q m r) : Path p (n + m) r := by
  induction h' with
  | refl => exact h
  | keep _ hs hsame ih => exact ih.keep hs hsame
  | change _ hs hdiff ih => exact ih.change hs hdiff

theorem fixed (h : Path p n q) : q.selfAddr = p.selfAddr ∧ q.hashReplicas = p.hashReplicas ∧
    q.defaultConfig = p.defaultConfig := by
  induction h with
  | refl => exact ⟨rfl, rfl, rfl⟩
  | keep _ hs _ ih =>
    obtain ⟨h₁, h₂, h₃⟩ := hs.fixed
    exact ⟨h₁.trans ih.1, h₂.trans ih.2.1, h₃.trans ih.2.2⟩
  | change _ hs _ ih =>
    obtain ⟨h₁, h₂, h₃⟩ := hs.fixed
    exact ⟨h₁.trans ih.1, h₂.trans ih.2.1, h₃.trans ih.2.2⟩

theorem inv (h : Path p n q) (hp : p.Inv) : q.Inv := by
  induction h with
  | refl => exact hp
  | keep _ hs _ ih => exact ih.step hs
  | change _ hs _ ih => exact ih.step hs

theorem sameMembers (h : Path p 0 q) : SameMembers p q := by
  generalize hn : 0 = n at h
  induction h with
  | refl => exact .refl
  | keep _ _ hsame ih => exact (ih hn).trans hsame
  | change => cases hn

/-- **The epoch after `n` changes.** -/
theorem epoch (h : Path p n q) (hp : p.epoch < 2 ^ 64) : q.epoch = (p.epoch + n) % 2 ^ 64 := by
  induction h with
  | refl => exact (Nat.mod_eq_of_lt hp).symm
  | keep _ hs hsame ih =>
    rcases hs.epoch with ⟨-, he⟩ | ⟨hdiff, -⟩
    · exact he.trans ih
    · exact absurd hsame hdiff
  | change _ hs hdiff ih =>
    rcases hs.epoch with ⟨hsame, -⟩ | ⟨-, he⟩
    · exact absurd hsame hdiff
    · rw [he, nextEpoch, ih]
      omega

end Path

theorem Reachable.epoch_lt (h : p.Reachable) : p.epoch < 2 ^ 64 := by
  obtain ⟨self, hself, config, replicas, hreplicas, hsteps⟩ := h
  induction hsteps with
  | refl => exact Nat.one_lt_two_pow (by decide)
  | tail _ hs ih =>
    rcases hs.epoch with ⟨-, he⟩ | ⟨-, he⟩
    · rw [he]
      exact ih
    · rw [he]
      exact Nat.mod_lt _ (by decide)

/-- What a picker answers depends on its members alone. -/
theorem Path.pickOwner (h : Path p n q) (hp : p.Inv) (hsame : SameMembers p q) (key : GoString) :
    (q.pickOwner key).owner = (p.pickOwner key).owner ∧
      (q.pickOwner key).self = (p.pickOwner key).self := by
  obtain ⟨hself, hreplicas, hconfig⟩ := h.fixed
  have hq := h.inv hp
  have hget : q.ring.get key = p.ring.get key := by
    apply Map.get_eq hq.ring hp.ring
    · rw [hq.config, hp.config, hreplicas, hconfig]
    · intro a
      rw [hq.nodes, hp.nodes, hsame a]
  unfold ClientPicker.pickOwner
  rw [hget, hself]
  dsimp only
  split
  · exact ⟨rfl, rfl⟩
  · split <;> exact ⟨rfl, rfl⟩

/-- **What holds of a picker in every run.** The ring is the ring of the members, and the node
itself is one of them. A client belongs to another member and is open; a client that is no longer in
the map was closed once. The epoch goes up by one, modulo `2 ^ 64`, when the set of members changes,
and only then; so two picks with the same epoch and fewer than `2 ^ 64` changes between them name
the same owner. -/
theorem epoch_stamps_members (hp : p.Reachable) :
    (∀ a, a ∈ p.ring.nodes ↔ a ∈ p.members) ∧ p.selfAddr ∈ p.members ∧
    (∀ a ∈ p.clients, a ∈ p.members ∧ a ≠ p.selfAddr) ∧
    (∀ a c, p.clients.lookup a = some c → c ∉ p.closed) ∧
    (∀ c < p.nextClient, (∀ a, p.clients.lookup a ≠ some c) → p.closed.count c = 1) ∧
    (∀ q, Step p q → (SameMembers p q → q.epoch = p.epoch) ∧
      (¬SameMembers p q → q.epoch = (p.epoch + 1) % 2 ^ 64)) ∧
    ∀ n q key, Path p n q → n < 2 ^ 64 → (q.pickOwner key).epoch = (p.pickOwner key).epoch →
      (q.pickOwner key).owner = (p.pickOwner key).owner ∧
      (q.pickOwner key).self = (p.pickOwner key).self := by
  have hinv := hp.inv
  have hclients := hp.clients
  refine ⟨hinv.nodes, hinv.self, fun a ha => hclients.mem ha, hclients.unclosed, ?_, ?_, ?_⟩
  · intro c hc hleft
    rcases hclients.left c hc with ⟨a, ha⟩ | hclosed
    · exact absurd ha (hleft a)
    · exact List.count_eq_one_of_mem hclients.once hclosed
  · intro q hs
    rcases hs.epoch with ⟨hsame, he⟩ | ⟨hdiff, he⟩
    · exact ⟨fun _ => he, fun hdiff => absurd hsame hdiff⟩
    · exact ⟨fun hsame => absurd hsame hdiff, fun _ => he⟩
  · intro n q key hpath hn hepoch
    rw [pickOwner_epoch, pickOwner_epoch, hpath.epoch hp.epoch_lt] at hepoch
    have hlt := hp.epoch_lt
    -- Fewer than a full turn of changes that leave the epoch where it is are none.
    obtain rfl : n = 0 := by omega
    exact hpath.pickOwner hinv hpath.sameMembers key

/-- A member that came and went, and is removed once more. -/
theorem cameAndWent_stamped :
    let p := ((new (ascii "a:1") (by decide) .default 1 (by decide)).addMember
      (fun _ => true) (ascii "b:1")).removeMember (ascii "b:1")
    p.closed.count 0 = 1 ∧ (p.removeMember (ascii "b:1")).epoch = p.epoch ∧
      ((p.removeMember (ascii "b:1")).pickOwner (ascii "x")).owner =
        (p.pickOwner (ascii "x")).owner := by
  intro p
  have hp : p.Reachable := ⟨ascii "a:1", by decide, .default, 1, by decide,
    (Relation.ReflTransGen.single (.addMember (fun _ => true) (ascii "b:1"))).tail
      (.removeMember (ascii "b:1"))⟩
  have hmem : ascii "b:1" ∉ p.members := fun h => (AList.mem_erase.1 h).1 rfl
  have hsame : p.removeMember (ascii "b:1") = p := by
    unfold removeMember
    rw [if_neg (by decide), if_pos hmem]
  have hstep : Step p (p.removeMember (ascii "b:1")) := .removeMember _
  have hmembers : SameMembers p (p.removeMember (ascii "b:1")) := by
    rw [hsame]
    exact .refl
  obtain ⟨-, -, -, -, hclosed, hepoch, hpick⟩ := epoch_stamps_members hp
  have he := (hepoch _ hstep).1 hmembers
  refine ⟨hclosed 0 (by decide) ?_, he, ?_⟩
  · intro a ha
    exact absurd (mem_of_lookup ha) (AList.notMem_empty a)
  · refine (hpick 0 _ (ascii "x") (Path.refl.keep hstep hmembers) (by decide) ?_).1
    rw [pickOwner_epoch, pickOwner_epoch, he]

/-! ## A full turn of the epoch -/

/-- A member joins and leaves `n` times. -/
theorem exists_path (hp : p.Inv) (addr : GoString) (hne : addr ≠ []) (hnew : addr ∉ p.members)
    (n : Nat) : ∃ q, Path p (2 * n) q ∧ SameMembers p q := by
  induction n with
  | zero => exact ⟨p, .refl, .refl⟩
  | succ n ih =>
    obtain ⟨q, hpath, hsame⟩ := ih
    have hself : addr ≠ q.selfAddr := by
      rintro rfl
      exact hnew ((hsame _).2 (hpath.inv hp).self)
    have hnewq : addr ∉ q.members := fun h => hnew ((hsame addr).2 h)
    have hadd : (q.addMember (fun _ => true) addr).members = q.members.insert addr () ∧
        (q.addMember (fun _ => true) addr).selfAddr = q.selfAddr := by
      unfold addMember
      rw [if_neg hne, if_neg hnewq]
      dsimp only
      split <;> exact ⟨rfl, rfl⟩
    have hmem : addr ∈ (q.addMember (fun _ => true) addr).members := by
      rw [hadd.1]
      exact (AList.mem_insert _).2 (Or.inl rfl)
    have hremove : ((q.addMember (fun _ => true) addr).removeMember addr).members =
        (q.members.insert addr ()).erase addr := by
      unfold removeMember
      rw [if_neg, if_neg (not_not.2 hmem), hadd.1]
      rw [hadd.2, not_or]
      exact ⟨hne, hself⟩
    refine ⟨_, (hpath.change (.addMember (fun _ => true) addr) ?_).change (.removeMember addr) ?_,
      hsame.trans ?_⟩
    · intro h
      exact hnewq ((h addr).2 hmem)
    · intro h
      have herase := (h addr).1 hmem
      rw [hremove] at herase
      exact (AList.mem_erase.1 herase).1 rfl
    · intro a
      rw [hremove, AList.mem_erase, AList.mem_insert]
      constructor
      · intro ha
        refine ⟨?_, Or.inr ha⟩
        rintro rfl
        exact hnewq ha
      · rintro ⟨hne', ha | ha⟩
        · exact absurd ha hne'
        · exact ha

/-- A node on its own. -/
def alone : ClientPicker := new (ascii "a:1") addr_ne_nil .default 1 Nat.one_pos

/-- It takes a snapshot with two more members, and one of them leaves. -/
def joined : ClientPicker :=
  (alone.replaceMembership (fun _ => true) [] []
    (((AList.singleton (ascii "c:1") ()).insert (ascii "b:1") ()).insert (ascii "a:1") ())
    ).removeMember (ascii "c:1")

theorem path_joined : Path alone 2 joined := by
  refine (Path.refl.change (.replaceMembership _ _ _ _ (by decide) (by decide)) ?_).change
    (.removeMember (ascii "c:1")) ?_
  · intro h
    exact absurd ((h (ascii "c:1")).2 (by decide)) (by decide)
  · intro h
    exact absurd ((h (ascii "c:1")).1 (by decide)) (by decide)

/-- **The epoch comes round.** After `2 ^ 64` changes a picker answers with the epoch of the first
pick and names another owner. -/
theorem epoch_wraps : ∃ q, alone.Reachable ∧ Path alone (2 ^ 64) q ∧
    (q.pickOwner (ascii "x")).epoch = (alone.pickOwner (ascii "x")).epoch ∧
    (alone.pickOwner (ascii "x")).owner = ascii "a:1" ∧
    (q.pickOwner (ascii "x")).owner = ascii "b:1" ∧
    (q.pickOwner (ascii "x")).self ≠ (alone.pickOwner (ascii "x")).self := by
  have halone : alone.Reachable := ⟨_, _, _, _, _, .refl⟩
  have hjoined : joined.Inv := path_joined.inv halone.inv
  obtain ⟨q, hpath, hsame⟩ := exists_path hjoined (ascii "c:1") (by decide) (by decide) (2 ^ 63 - 1)
  have hpick : joined.pickOwner (ascii "x") =
      ⟨ascii "b:1", .client (some ⟨ascii "b:1"⟩), false, 3, true⟩ := by decide +kernel
  have hturn : Path alone (2 ^ 64) q := path_joined.trans hpath
  obtain ⟨howner, hself⟩ := hpath.pickOwner hjoined hsame (ascii "x")
  refine ⟨q, halone, hturn, ?_, by decide +kernel, ?_, ?_⟩
  · rw [pickOwner_epoch, pickOwner_epoch, hturn.epoch halone.epoch_lt]
    rfl
  · rw [howner, hpick]
  · rw [hself, hpick]
    decide +kernel

end Locache.ClientPicker
