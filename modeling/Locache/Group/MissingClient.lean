import Locache.Group.Attempts
import Locache.Picker

/-!
# Owners without a client

A member for which no client could be created, or any other member after `Close`, has no entry in
the picker's map of clients. `PickOwner` then puts a nil `*Client` into the `Peer` it returns. That
is not the nil interface, so the operations of the group do not notice it and call a method on it.
-/

namespace Locache

open Conc Prog

variable {g : Cfg} {p : ClientPicker} {key : GoString} {value : Bytes} {h : History}

/-- The owner of the key is another member, and the picker has no client for it. -/
structure ClientPicker.Missing (p : ClientPicker) (key : GoString) : Prop where
  member : p.ring.get key ∈ p.members
  remote : p.ring.get key ≠ p.selfAddr
  missing : p.ring.get key ∉ p.clients

/-- Every answer of `PickOwner` was given by the picker as it is in `p`. -/
def Sees (p : ClientPicker) (h : History) : Prop :=
  ∀ site key i q, (⟨.pickOwner site key, i, q⟩ : Ev groupSig Inp) ∈ h → q = p.pickOwner key

/-- The group was never seen closed. -/
def SeesOpen (h : History) : Prop :=
  ∀ i closed, (⟨.loadClosed, i, closed⟩ : Ev groupSig Inp) ∈ h → closed = false

section Pick

variable (hp : p.Reachable) (hm : p.Missing key)

include hp hm

theorem ClientPicker.Missing.owner_ne : p.ring.get key ≠ [] := by
  intro heq
  apply hp.inv.nonempty
  rw [← heq]
  exact hm.member

theorem ClientPicker.Missing.key_ne : key ≠ [] := by
  rintro rfl
  exact hm.owner_ne hp rfl

/-- The answer for such a key: an owner, and a client that is a nil pointer. -/
theorem ClientPicker.Missing.pickOwner :
    p.pickOwner key = ⟨p.ring.get key, .client none, false, p.epoch, true⟩ := by
  unfold ClientPicker.pickOwner
  dsimp only
  rw [if_neg (hm.owner_ne hp), if_neg hm.remote, AList.lookup_eq_none.2 hm.missing]
  rfl

end Pick

/-- What is to be shown of the paths that see the picker as it is in `p` and the group open. -/
def Ending {α : Type} (p : ClientPicker) (Q : History → Except Panic α → Prop) (h : History)
    (r : Except Panic α) : Prop := Sees p h → SeesOpen h → Q h r

/-- The rule for the check of `closed`. -/
theorem Follows.open_bind {α : Type} {f : Bool → GoProg α} {Q : History → Except Panic α → Prop}
    (hf : ∀ i, (f false).Follows (fun _ _ => True) (Ending p Q) (⟨.loadClosed, i, false⟩ :: h)) :
    ((perform .loadClosed).bind f).Follows (fun _ _ => True) (Ending p Q) h := by
  refine Follows.op_bind trivial fun i closed => ?_
  cases closed with
  | false => exact hf i
  | true =>
    apply Follows.of_end
    intro h' r hs _ hopen
    cases hopen i true (hs.subset (List.mem_cons_self ..))

/-- The rule for a call of `PickOwner`. -/
theorem Follows.pick_bind {α : Type} {site : Site} {f : Pick → GoProg α}
    {Q : History → Except Panic α → Prop}
    (hf : ∀ i, (f (p.pickOwner key)).Follows (fun _ _ => True) (Ending p Q)
      (⟨.pickOwner site key, i, p.pickOwner key⟩ :: h)) :
    ((perform (.pickOwner site key)).bind f).Follows (fun _ _ => True) (Ending p Q) h := by
  refine Follows.op_bind trivial fun i q => ?_
  by_cases hq : q = p.pickOwner key
  · subst hq
    exact hf i
  · apply Follows.of_end
    intro h' r hs hsees _
    exact absurd (hsees site key i q (hs.subset (List.mem_cons_self ..))) hq

/-- What the near-cache lookup of a remote read returns it has found. -/
theorem getNear_found (q : Pick) : (Group.getNear g key q).Follows (fun _ _ => True) (fun h' r =>
    ∃ x, r = .ok x ∧ ∀ v, x = some v → ∃ i,
      (⟨.nearGet (Group.nearKey q.epoch key), i, some v⟩ : Ev groupSig Inp) ∈ h') h := by
  unfold Group.getNear
  split
  · exact ⟨none, rfl, fun v hv => by cases hv⟩
  · refine Follows.op_bind trivial fun i x => ?_
    cases x with
    | none =>
      refine Follows.op_bind trivial fun _ _ => ?_
      exact ⟨none, rfl, fun v hv => by cases hv⟩
    | some v =>
      refine Follows.op_bind trivial fun _ q' => ?_
      split
      · refine Follows.op_bind trivial fun _ _ => ?_
        refine ⟨some v, rfl, ?_⟩
        intro w hw
        cases hw
        exact ⟨i, by simp⟩
      · refine Follows.op_bind trivial fun _ _ => ?_
        refine Follows.op_bind trivial fun _ _ => ?_
        exact ⟨none, rfl, fun v hv => by cases hv⟩

section Operations

variable (hp : p.Reachable) (hm : p.Missing key) (hpeers : g.peers = true)

include hp hm hpeers

theorem set_missing (hvalue : value ≠ []) : (Group.set g key value).Follows (fun _ _ => True)
    (Ending p fun _ r => r = .error .nilDeref) h := by
  apply Follows.open_bind
  intro i
  rw [if_neg (by simp), if_neg (hm.key_ne hp), if_neg hvalue, hpeers]
  apply Follows.pick_bind
  intro j
  rw [hm.pickOwner hp, if_neg (by simpa using hm.owner_ne hp)]
  exact fun _ _ => rfl

theorem delete_missing : (Group.delete g key).Follows (fun _ _ => True)
    (Ending p fun _ r => r = .error .nilDeref) h := by
  apply Follows.open_bind
  intro i
  rw [if_neg (by simp), if_neg (hm.key_ne hp), hpeers]
  apply Follows.pick_bind
  intro j
  rw [hm.pickOwner hp, if_neg (by simpa using hm.owner_ne hp)]
  exact fun _ _ => rfl

/-- A read may still find a near copy; if it does not, it panics. -/
theorem get_missing : (Group.get g key).Follows (fun _ _ => True) (Ending p fun h r =>
    r = .error .nilDeref ∨ ∃ i v, r = .ok (.ok v) ∧
      (⟨.nearGet (Group.nearKey p.epoch key), i, some v⟩ : Ev groupSig Inp) ∈ h) h := by
  apply Follows.open_bind
  intro i
  rw [if_neg (by simp), if_neg (hm.key_ne hp), hpeers]
  apply Follows.pick_bind
  intro j
  rw [hm.pickOwner hp, if_neg (by simpa using hm.owner_ne hp)]
  refine Follows.bind (getNear_found _) ?_ ?_
  · intro h' x _ hfound
    obtain ⟨y, hy, hfound⟩ := hfound
    cases hy
    cases x with
    | none => exact fun _ _ => Or.inl rfl
    | some v =>
      obtain ⟨k, hk⟩ := hfound v rfl
      exact fun _ _ => Or.inr ⟨k, v, rfl, hk⟩
  · intro h' e _ hfound
    obtain ⟨y, hy, -⟩ := hfound
    cases hy

end Operations

/-- **A missing client is never noticed.** Whatever the caches hold, on every path of `Set` and
`Delete` a method of a nil client is called; on every path of `Get` as well, unless a near copy is
found. No path returns an error. -/
theorem missing_client_panics (hp : p.Reachable) (hm : p.Missing key) (hpeers : g.peers = true)
    (h : History) (hsees : Sees p h) (hopen : SeesOpen h) :
    (∀ r, (Group.get g key).Ends h r → r = .error .nilDeref ∨ ∃ i v, r = .ok (.ok v) ∧
      (⟨.nearGet (Group.nearKey p.epoch key), i, some v⟩ : Ev groupSig Inp) ∈ h) ∧
    (∀ value r, value ≠ [] → (Group.set g key value).Ends h r → r = .error .nilDeref) ∧
    ∀ r, (Group.delete g key).Ends h r → r = .error .nilDeref := by
  refine ⟨?_, ?_, ?_⟩
  · intro r hends
    exact (get_missing hp hm hpeers).of_ends hends hsees hopen
  · intro value r hvalue hends
    exact (set_missing hp hm hpeers hvalue).of_ends hends hsees hopen
  · intro r hends
    exact (delete_missing hp hm hpeers).of_ends hends hsees hopen

/-- A picker that was told of another node and could not create a client for it. -/
def lonelyPicker : ClientPicker :=
  (ClientPicker.new (ascii "a:1") addr_ne_nil .default 1 Nat.one_pos).addMember
    (fun _ => false) (ascii "b:1")

theorem lonelyPicker_reachable : lonelyPicker.Reachable :=
  ⟨ascii "a:1", by decide, .default, 1, by decide,
    .single (.addMember (fun _ => false) (ascii "b:1"))⟩

theorem lonelyPicker_missing : lonelyPicker.Missing (ascii "x") := by
  have howner : lonelyPicker.ring.get (ascii "x") = ascii "b:1" := by decide +kernel
  refine ⟨?_, ?_, ?_⟩
  · rw [howner]
    decide
  · rw [howner]
    decide
  · rw [howner]
    decide

theorem pickOwner_lonely :
    lonelyPicker.pickOwner (ascii "x") = ⟨ascii "b:1", .client none, false, 2, true⟩ := by
  decide +kernel

/-- What an operation does before it calls the missing client. -/
def lonelyPath : History :=
  [⟨.pickOwner .route (ascii "x"), Inp.fetch [], ⟨ascii "b:1", .client none, false, 2, true⟩⟩,
    ⟨.loadClosed, Inp.fetch [], false⟩]

theorem sees_lonelyPath : Sees lonelyPicker lonelyPath ∧ SeesOpen lonelyPath := by
  refine ⟨?_, ?_⟩
  · intro site key i q hm
    simp only [lonelyPath, List.mem_cons, List.not_mem_nil, or_false] at hm
    rcases hm with heq | heq
    · cases heq
      exact pickOwner_lonely.symm
    · cases heq
  · intro i closed hm
    simp only [lonelyPath, List.mem_cons, List.not_mem_nil, or_false] at hm
    rcases hm with heq | heq
    · cases heq
    · cases heq
      rfl

/-- How an operation ends that sees the lonely picker. -/
theorem ends_lonely {α : Type} {prog : GoProg α} {r : Except Panic α}
    (h : prog.answer (Inp.fetch [])
      (scripted fun _ _ => ⟨ascii "b:1", .client none, false, 2, true⟩) [] = (lonelyPath, r)) :
    prog.Ends lonelyPath r := by
  have hends := ends_answer (Inp.fetch [])
    (scripted fun _ _ => ⟨ascii "b:1", .client none, false, 2, true⟩) prog
  rw [h] at hends
  exact hends

/-- A `Set` that sees this picker panics. -/
theorem lonely_set_panics :
    (Group.set Cfg.pair (ascii "x") [1]).Ends lonelyPath (.error .nilDeref) ∧
    ∀ r, (Group.set Cfg.pair (ascii "x") [1]).Ends lonelyPath r → r = .error .nilDeref := by
  obtain ⟨-, hset, -⟩ := missing_client_panics (g := Cfg.pair) lonelyPicker_reachable
    lonelyPicker_missing rfl lonelyPath sees_lonelyPath.1 sees_lonelyPath.2
  exact ⟨ends_lonely rfl, fun r hr => hset [1] r (by decide) hr⟩

/-- A `Get` that sees this picker does not return `ErrPeerUnavailable`: it calls a method on a nil
client. -/
theorem lonely_get_panics : ∃ h r, (Group.get Cfg.pair (ascii "x")).Ends h r ∧
    Sees lonelyPicker h ∧ SeesOpen h ∧ r = .error .nilDeref ∧
    ¬ ∃ err, r = .ok (.error err) ∧ err.is .peerUnavailable = true := by
  refine ⟨lonelyPath, .error .nilDeref, ends_lonely rfl, sees_lonelyPath.1, sees_lonelyPath.2,
    rfl, ?_⟩
  rintro ⟨err, heq, -⟩
  cases heq

end Locache
