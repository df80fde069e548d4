import Locache.Picker

/-!
# The clients of a picker

A picker has at most one client for each other member, takes over the clients of the members that
stay when a snapshot replaces the membership, and closes a client when its member goes. `Clients`
says how the map, the clients made so far and the calls of `Close` belong together; every step keeps
it (`Clients.step`).
-/

namespace Locache.ClientPicker

/-- A client in the map belongs to another member and is open; a client that was made is in the map
or was closed, once. -/
structure Clients (p : ClientPicker) : Prop where
  member : ∀ a c, p.clients.lookup a = some c → a ∈ p.members ∧ a ≠ p.selfAddr
  made : ∀ a c, p.clients.lookup a = some c → c < p.nextClient
  distinct : ∀ a b c, p.clients.lookup a = some c → p.clients.lookup b = some c → a = b
  unclosed : ∀ a c, p.clients.lookup a = some c → c ∉ p.closed
  once : p.closed.Nodup
  closed : ∀ c ∈ p.closed, c < p.nextClient
  left : ∀ c < p.nextClient, (∃ a, p.clients.lookup a = some c) ∨ c ∈ p.closed

variable {p q : ClientPicker} {addr : GoString}

theorem clients_new {self : GoString} {hself : self ≠ []} {config : ConsistentHash.Config}
    {replicas : Nat} {hreplicas : 0 < replicas} :
    (new self hself config replicas hreplicas).Clients := by
  refine ⟨?_, ?_, ?_, ?_, List.nodup_nil, ?_, ?_⟩
  · intro a c h
    cases h
  · intro a c h
    cases h
  · intro a b c h
    cases h
  · intro a c h
    cases h
  · intro c h
    cases h
  · intro c h
    exact absurd h (Nat.not_lt_zero c)

theorem mem_of_lookup {V : Type} {m : AList fun _ : GoString => V} {a : GoString} {v : V}
    (h : m.lookup a = some v) : a ∈ m := by
  rw [← AList.lookup_isSome, h]
  rfl

theorem lookup_of_not_mem {V : Type} {m : AList fun _ : GoString => V} {a : GoString}
    (h : a ∉ m) : m.lookup a = none := by
  rw [← AList.lookup_isSome] at h
  exact Option.not_isSome_iff_eq_none.1 h

theorem Clients.mem (h : p.Clients) {a : GoString} (ha : a ∈ p.clients) :
    a ∈ p.members ∧ a ≠ p.selfAddr := by
  obtain ⟨c, hc⟩ := Option.isSome_iff_exists.1 (AList.lookup_isSome.2 ha)
  exact h.member a c hc

/-! ## A map that takes over clients -/

/-- The clients of `m` are clients of `p`, under the same address, or new ones, each under an
address of its own; `next` is the number that the next one will have. -/
structure Taken (p : ClientPicker) (m : AList fun _ : GoString => Nat) (next : Nat) : Prop where
  keep : ∀ a c c', p.clients.lookup a = some c → m.lookup a = some c' → c' = c
  fresh : ∀ a c, m.lookup a = some c → a ∉ p.clients → p.nextClient ≤ c ∧ c < next
  distinct : ∀ a b c, p.nextClient ≤ c → m.lookup a = some c → m.lookup b = some c → a = b
  le : p.nextClient ≤ next
  made : ∀ c, p.nextClient ≤ c → c < next → ∃ a, m.lookup a = some c

namespace Taken

variable {m : AList fun _ : GoString => Nat} {next : Nat} (h : p.Clients)

include h

theorem of_subset (hm : ∀ a c, m.lookup a = some c → p.clients.lookup a = some c) :
    Taken p m p.nextClient := by
  refine ⟨?_, ?_, ?_, Nat.le_refl _, ?_⟩
  · intro a c c' hc hc'
    rw [hm a c' hc'] at hc
    exact Option.some.inj hc
  · intro a c hc hnot
    exact absurd (mem_of_lookup (hm a c hc)) hnot
  · intro a b c hle ha
    exact absurd (h.made a c (hm a c ha)) (Nat.not_lt.2 hle)
  · intro c hle hlt
    exact absurd hlt (Nat.not_lt.2 hle)

/-- A client of `p` is taken over. -/
theorem insert_old (ht : Taken p m next) (hnew : addr ∉ m) {c : Nat}
    (hc : p.clients.lookup addr = some c) : Taken p (m.insert addr c) next := by
  have hlt := h.made addr c hc
  have hlookup : ∀ a c', (m.insert addr c).lookup a = some c' →
      a = addr ∧ c' = c ∨ m.lookup a = some c' := by
    intro a c' hc'
    by_cases ha : a = addr
    · subst ha
      rw [AList.lookup_insert] at hc'
      exact Or.inl ⟨rfl, (Option.some.inj hc').symm⟩
    · rw [AList.lookup_insert_ne ha] at hc'
      exact Or.inr hc'
  refine ⟨?_, ?_, ?_, ht.le, ?_⟩
  · intro a c₁ c₂ h₁ h₂
    rcases hlookup a c₂ h₂ with ⟨rfl, rfl⟩ | h₂
    · rw [hc] at h₁
      exact Option.some.inj h₁
    · exact ht.keep a c₁ c₂ h₁ h₂
  · intro a c' hc' hnot
    rcases hlookup a c' hc' with ⟨rfl, -⟩ | hc'
    · exact absurd (mem_of_lookup hc) hnot
    · exact ht.fresh a c' hc' hnot
  · intro a b c' hle ha hb
    rcases hlookup a c' ha with ⟨-, rfl⟩ | ha
    · exact absurd hlt (Nat.not_lt.2 hle)
    · rcases hlookup b c' hb with ⟨-, rfl⟩ | hb
      · exact absurd hlt (Nat.not_lt.2 hle)
      · exact ht.distinct a b c' hle ha hb
  · intro c' hle hlt'
    obtain ⟨a, ha⟩ := ht.made c' hle hlt'
    refine ⟨a, ?_⟩
    rw [AList.lookup_insert_ne, ha]
    rintro rfl
    exact hnew (mem_of_lookup ha)

/-- A client is made. -/
theorem insert_new (ht : Taken p m next) (hnew : addr ∉ m) (hnone : addr ∉ p.clients) :
    Taken p (m.insert addr next) (next + 1) := by
  have hlookup : ∀ a c, (m.insert addr next).lookup a = some c →
      a = addr ∧ c = next ∨ m.lookup a = some c ∧ c < next := by
    intro a c hc
    by_cases ha : a = addr
    · subst ha
      rw [AList.lookup_insert] at hc
      exact Or.inl ⟨rfl, (Option.some.inj hc).symm⟩
    · rw [AList.lookup_insert_ne ha] at hc
      refine Or.inr ⟨hc, ?_⟩
      by_cases hold : a ∈ p.clients
      · obtain ⟨c', hc'⟩ := Option.isSome_iff_exists.1 (AList.lookup_isSome.2 hold)
        rw [ht.keep a c' c hc' hc]
        exact Nat.lt_of_lt_of_le (h.made a c' hc') ht.le
      · exact (ht.fresh a c hc hold).2
  refine ⟨?_, ?_, ?_, Nat.le_succ_of_le ht.le, ?_⟩
  · intro a c c' hc hc'
    rcases hlookup a c' hc' with ⟨rfl, -⟩ | ⟨hc', -⟩
    · exact absurd (mem_of_lookup hc) hnone
    · exact ht.keep a c c' hc hc'
  · intro a c hc hnot
    rcases hlookup a c hc with ⟨-, rfl⟩ | ⟨hc, hlt⟩
    · exact ⟨ht.le, Nat.lt_succ_self _⟩
    · exact ⟨(ht.fresh a c hc hnot).1, Nat.lt_succ_of_lt hlt⟩
  · intro a b c hle ha hb
    rcases hlookup a c ha with ⟨rfl, rfl⟩ | ⟨ha, hlt⟩
    · rcases hlookup b c hb with ⟨rfl, -⟩ | ⟨-, hlt⟩
      · rfl
      · exact absurd hlt (Nat.lt_irrefl _)
    · rcases hlookup b c hb with ⟨-, rfl⟩ | ⟨hb, -⟩
      · exact absurd hlt (Nat.lt_irrefl _)
      · exact ht.distinct a b c hle ha hb
  · intro c hle hlt
    rcases Nat.lt_succ_iff_lt_or_eq.1 hlt with hlt | rfl
    · obtain ⟨a, ha⟩ := ht.made c hle hlt
      refine ⟨a, ?_⟩
      rw [AList.lookup_insert_ne, ha]
      rintro rfl
      exact hnew (mem_of_lookup ha)
    · exact ⟨addr, AList.lookup_insert ..⟩

/-- The loop of a snapshot goes over addresses that are not in its map yet. -/
theorem clientsFor {newClient : GoString → Bool} {addrs : List GoString} (hnodup : addrs.Nodup)
    (ht : Taken p m next) (hnew : ∀ a ∈ addrs, a ∉ m) :
    Taken p (p.clientsFor newClient addrs (m, next)).1
      (p.clientsFor newClient addrs (m, next)).2 := by
  induction addrs generalizing m next with
  | nil => exact ht
  | cons a addrs ih =>
    obtain ⟨ha, hnodup⟩ := List.nodup_cons.1 hnodup
    obtain ⟨hnewa, hnew⟩ := List.forall_mem_cons.1 hnew
    have hinsert : ∀ c, ∀ b ∈ addrs, b ∉ m.insert a c := by
      intro c b hb hmem
      rcases (AList.mem_insert _).1 hmem with rfl | hmem
      · exact ha hb
      · exact hnew b hb hmem
    unfold ClientPicker.clientsFor
    split
    · exact ih hnodup ht hnew
    · split
      · next c hc => exact ih hnodup (ht.insert_old h hnewa hc) (hinsert c)
      · next hc =>
        have hnone : a ∉ p.clients := by
          rw [← AList.lookup_isSome, hc]
          simp
        split
        · exact ih hnodup (ht.insert_new h hnewa hnone) (hinsert next)
        · exact ih hnodup ht hnew

end Taken

theorem mem_clientsFor {newClient : GoString → Bool} {addrs : List GoString}
    {r : (AList fun _ : GoString => Nat) × Nat} {a : GoString}
    (h : a ∈ (p.clientsFor newClient addrs r).1) : a ∈ r.1 ∨ a ∈ addrs ∧ a ≠ p.selfAddr := by
  induction addrs generalizing r with
  | nil => exact Or.inl h
  | cons b addrs ih =>
    have hcons : a ∈ addrs ∧ a ≠ p.selfAddr → a ∈ b :: addrs ∧ a ≠ p.selfAddr := by
      intro ha
      exact ⟨List.mem_cons_of_mem _ ha.1, ha.2⟩
    unfold ClientPicker.clientsFor at h
    split at h
    · exact (ih h).imp_right hcons
    · next hb =>
      have hinsert : ∀ c, a ∈ r.1.insert b c ∨ a ∈ addrs ∧ a ≠ p.selfAddr →
          a ∈ r.1 ∨ a ∈ b :: addrs ∧ a ≠ p.selfAddr := by
        rintro c (ha | ha)
        · rcases (AList.mem_insert _).1 ha with rfl | ha
          · exact Or.inr ⟨List.mem_cons_self, hb⟩
          · exact Or.inl ha
        · exact Or.inr (hcons ha)
      split at h
      · exact hinsert _ (ih h)
      · split at h
        · exact hinsert _ (ih h)
        · exact (ih h).imp_right hcons

/-- How the clients of `q` come from those of `p`: the clients of the addresses `gone` are closed,
the others are kept. -/
structure Turnover (p q : ClientPicker) (gone : List GoString) : Prop where
  taken : Taken p q.clients q.nextClient
  nodup : gone.Nodup
  dropped : ∀ a, a ∈ gone ↔ a ∈ p.clients ∧ a ∉ q.clients
  closed : q.closed = (gone.filterMap p.clients.lookup).reverse ++ p.closed
  member : ∀ a ∈ q.clients, a ∈ q.members ∧ a ≠ q.selfAddr

namespace Turnover

variable {gone : List GoString} (h : p.Clients) (t : Turnover p q gone)

include t

/-- A client is one there was, under the same address, or a new one. -/
theorem old_or_new {a : GoString} {c : Nat} (hc : q.clients.lookup a = some c) :
    p.clients.lookup a = some c ∨ p.nextClient ≤ c ∧ c < q.nextClient := by
  cases hold : p.clients.lookup a with
  | some c' =>
    rw [t.taken.keep a c' c hold hc]
    exact Or.inl rfl
  | none =>
    right
    apply t.taken.fresh a c hc
    rw [← AList.lookup_isSome, hold]
    simp

/-- The clients that are closed now. -/
theorem mem_gone {c : Nat} : c ∈ gone.filterMap p.clients.lookup ↔
    ∃ a, a ∉ q.clients ∧ p.clients.lookup a = some c := by
  rw [List.mem_filterMap]
  constructor
  · rintro ⟨a, ha, hc⟩
    exact ⟨a, ((t.dropped a).1 ha).2, hc⟩
  · rintro ⟨a, ha, hc⟩
    exact ⟨a, (t.dropped a).2 ⟨mem_of_lookup hc, ha⟩, hc⟩

include h

variable (gone)

theorem clients : q.Clients := by
  have hle := t.taken.le
  refine ⟨?_, ?_, ?_, ?_, ?_, ?_, ?_⟩
  · intro a c hc
    exact t.member a (mem_of_lookup hc)
  · intro a c hc
    rcases t.old_or_new hc with hold | hnew
    · exact Nat.lt_of_lt_of_le (h.made a c hold) hle
    · exact hnew.2
  · intro a b c ha hb
    rcases t.old_or_new ha with hold | hnew
    · rcases t.old_or_new hb with hold' | hnew'
      · exact h.distinct a b c hold hold'
      · exact t.taken.distinct a b c hnew'.1 ha hb
    · exact t.taken.distinct a b c hnew.1 ha hb
  · intro a c hc hclosed
    rw [t.closed, List.mem_append, List.mem_reverse, t.mem_gone] at hclosed
    rcases t.old_or_new hc with hold | hnew
    · rcases hclosed with ⟨b, hb, hbc⟩ | hclosed
      · rw [h.distinct b a c hbc hold] at hb
        exact hb (mem_of_lookup hc)
      · exact h.unclosed a c hold hclosed
    · rcases hclosed with ⟨b, -, hbc⟩ | hclosed
      · exact absurd (h.made b c hbc) (Nat.not_lt.2 hnew.1)
      · exact absurd (h.closed c hclosed) (Nat.not_lt.2 hnew.1)
  · rw [t.closed]
    apply List.Nodup.append
    · rw [List.nodup_reverse]
      apply t.nodup.filterMap
      intro a b c ha hb
      exact h.distinct a b c ha hb
    · exact h.once
    · intro c hc hclosed
      obtain ⟨a, -, ha⟩ := t.mem_gone.1 (List.mem_reverse.1 hc)
      exact h.unclosed a c ha hclosed
  · intro c hclosed
    rw [t.closed, List.mem_append, List.mem_reverse, t.mem_gone] at hclosed
    rcases hclosed with ⟨a, -, ha⟩ | hclosed
    · exact Nat.lt_of_lt_of_le (h.made a c ha) hle
    · exact Nat.lt_of_lt_of_le (h.closed c hclosed) hle
  · intro c hlt
    rw [t.closed, List.mem_append, List.mem_reverse, t.mem_gone]
    rcases Nat.lt_or_ge c p.nextClient with hold | hnew
    · rcases h.left c hold with ⟨a, ha⟩ | hclosed
      · cases hc : q.clients.lookup a with
        | some c' =>
          rw [t.taken.keep a c c' ha hc] at hc
          exact Or.inl ⟨a, hc⟩
        | none =>
          refine Or.inr (Or.inl ⟨a, ?_, ha⟩)
          rw [← AList.lookup_isSome, hc]
          simp
      · exact Or.inr (Or.inr hclosed)
    · exact Or.inl (t.taken.made c hnew hlt)

end Turnover

/-! ## The steps -/

theorem Clients.addMember (h : p.Clients) (newClient : GoString → Bool) (addr : GoString) :
    (p.addMember newClient addr).Clients := by
  unfold ClientPicker.addMember
  split
  · exact h
  · split
    · exact h
    · next hne hnew =>
      have hnone : addr ∉ p.clients := fun ha => hnew (h.mem ha).1
      have hrefl : Taken p p.clients p.nextClient := .of_subset h fun _ _ hc => hc
      have hmember : ∀ a ∈ p.clients, a ∈ p.members.insert addr () ∧ a ≠ p.selfAddr := by
        intro a ha
        exact ⟨(AList.mem_insert _).2 (Or.inr (h.mem ha).1), (h.mem ha).2⟩
      dsimp only
      split
      · next hclient =>
        apply Turnover.clients [] h
        refine ⟨hrefl.insert_new h hnone hnone, List.nodup_nil, ?_, rfl, ?_⟩
        · intro a
          simp only [List.not_mem_nil, AList.mem_insert, false_iff, not_and, not_not]
          exact Or.inr
        · intro a ha
          rcases (AList.mem_insert _).1 ha with rfl | ha
          · exact ⟨(AList.mem_insert _).2 (Or.inl rfl), hclient.1⟩
          · exact hmember a ha
      · apply Turnover.clients [] h
        refine ⟨hrefl, List.nodup_nil, ?_, rfl, hmember⟩
        simp

theorem Clients.removeMember (h : p.Clients) (addr : GoString) :
    (p.removeMember addr).Clients := by
  unfold ClientPicker.removeMember
  split
  · exact h
  · split
    · exact h
    · have hsub : ∀ a c, (p.clients.erase addr).lookup a = some c →
          p.clients.lookup a = some c := by
        intro a c hc
        have hne : a ≠ addr := (AList.mem_erase.1 (mem_of_lookup hc)).1
        rwa [AList.lookup_erase_ne hne] at hc
      apply Turnover.clients ([addr].filter fun a => a ∈ p.clients) h
      refine ⟨.of_subset h hsub, (List.nodup_singleton addr).filter _, ?_, ?_, ?_⟩
      · intro a
        simp only [List.mem_filter, List.mem_singleton, decide_eq_true_eq, AList.mem_erase]
        tauto
      · by_cases ha : addr ∈ p.clients
        · obtain ⟨c, hc⟩ := Option.isSome_iff_exists.1 (AList.lookup_isSome.2 ha)
          simp [ha, hc]
        · simp [ha, lookup_of_not_mem ha]
      · intro a ha
        obtain ⟨hne, ha⟩ := AList.mem_erase.1 ha
        exact ⟨AList.mem_erase.2 ⟨hne, (h.mem ha).1⟩, (h.mem ha).2⟩

theorem Clients.replaceMembership (h : p.Clients) (newClient : GoString → Bool)
    (order₁ order₂ : List GoString) (desired : GoSet) :
    (p.replaceMembership newClient order₁ order₂ desired).Clients := by
  unfold ClientPicker.replaceMembership
  split
  · exact h
  · have hperm := Sorting.slice_perm (fun a b : GoString => a < b) (rangeKeys order₁ desired)
    refine Turnover.clients _ h ⟨?_, (nodup_rangeKeys order₂ p.clients).filter _, ?_, rfl, ?_⟩
    · apply Taken.clientsFor h (hperm.nodup_iff.2 (nodup_rangeKeys _ _))
      · exact .of_subset h fun a c hc => by cases hc
      · intro a _ ha
        exact AList.notMem_empty a ha
    · intro a
      rw [List.mem_filter, mem_rangeKeys, decide_eq_true_eq]
    · intro a ha
      rcases mem_clientsFor ha with ha | ⟨ha, hself⟩
      · exact absurd ha (AList.notMem_empty a)
      · exact ⟨mem_rangeKeys.1 (hperm.mem_iff.1 ha), hself⟩

theorem Clients.close (h : p.Clients) (order : List GoString) : (p.close order).Clients := by
  unfold ClientPicker.close
  split
  · exact h
  · apply Turnover.clients (rangeKeys order p.clients) h
    refine ⟨.of_subset h fun a c hc => ?_, nodup_rangeKeys _ _, ?_, rfl, ?_⟩
    · cases hc
    · intro a
      rw [mem_rangeKeys]
      exact ⟨fun ha => ⟨ha, AList.notMem_empty a⟩, And.left⟩
    · intro a ha
      exact absurd ha (AList.notMem_empty a)

theorem Clients.step (h : p.Clients) (hs : Step p q) : q.Clients := by
  cases hs with
  | addMember newClient addr => exact h.addMember newClient addr
  | removeMember addr => exact h.removeMember addr
  | replaceMembership newClient order₁ order₂ desired _ _ =>
    exact h.replaceMembership newClient order₁ order₂ desired
  | close order => exact h.close order

/-- **No client is lost, and none is closed twice**, in every run of a picker. -/
theorem Reachable.clients (h : p.Reachable) : p.Clients := by
  obtain ⟨self, hself, config, replicas, hreplicas, hsteps⟩ := h
  induction hsteps with
  | refl => exact clients_new
  | tail _ hs ih => exact ih.step hs

end Locache.ClientPicker
