import Locache.Group.Attempts

/-!
# The attempts of a deletion

`Delete` runs the same loop as `Set`. It never asks the node whether it is the owner, so an attempt
on this node cannot fail, and each of the other ways to go round again is closed in the fourth
attempt: the loop is left through its `break` or through a `return`, never through its end. So nil
means that some attempt was settled, and what follows the loop happens in that case only. Without a
settled attempt there is an error, unless the picker hands out a nil `*Client`: it passes for a
peer, and its method panics.

As for `Set`, the statements are about every path of the program.
-/

namespace Locache

open Conc Prog

variable {g : Cfg} {key : GoString} {n : Nat} {h : History}

/-! ## What a path of `Delete` shows -/

/-- An action that makes a deletion known: the counter, or the invalidation of the copies the peers
have. -/
def Op.announces : Op → Bool
  | .count .deletes | .invalidateTargets _ | .rpcStart _ (.invalidate _ _) => true
  | _ => false

def Announced (h : History) : Prop := ∃ e ∈ h, Op.announces e.op = true

/-- The actions `mid` carry out the deletion on the owner that `p` names: in the critical section of
this node, or in a call of the owner's client that returned without an error. -/
inductive DeletesOn (g : Cfg) (key : GoString) (p : Pick) (mid : History) : Prop where
  | self (hself : p.self = true) (s : Nat) (i : Inp) (removed : Bool)
      (hmem : ⟨.deleteSection s key, i, removed⟩ ∈ mid)
  | peer (hself : p.self = false) (c : Client) (hpeer : p.peer = .client (some c)) (id : Nat)
      (i j : Inp) (resp : Resp)
      (hmid : mid = [⟨.rpcEnd id, j, .ok resp⟩, ⟨.rpcStart c.addr (.delete g.name key), i, id⟩])

/-- In some attempt the deletion was carried out on the owner `PickOwner` had named, and the next
answer of `PickOwner` was the same owner and epoch. -/
def SettledDelete (g : Cfg) (key : GoString) (h : History) : Prop :=
  ∃ later mid earlier i j p q,
    h = later ++ ⟨.pickOwner .verify key, j, q⟩ :: (mid ++ ⟨.pickOwner .route key, i, p⟩ ::
      earlier) ∧
    (∀ e ∈ mid, ∀ site k, e.op ≠ .pickOwner site k) ∧ DeletesOn g key p mid ∧
    p.ok = true ∧ q.ok = true ∧ q.owner = p.owner ∧ q.epoch = p.epoch

/-- The owner picked for an attempt is another node, and its client a nil `*Client`. -/
def Pick.IsNilPeer (p : Pick) : Prop :=
  p.ok = true ∧ p.owner ≠ [] ∧ p.self = false ∧ p.peer = .client none

/-- An attempt was routed to a nil client. -/
def NilPeer : History → Prop
  | [] => False
  | ⟨.pickOwner .route _, _, p⟩ :: h => p.IsNilPeer ∨ NilPeer h
  | _ :: h => NilPeer h

/-- What is expected of a call of `Delete` that did `h` and ended with `r`. -/
structure DeleteSound (g : Cfg) (key : GoString) (h : History) (r : Except Panic (Option Err)) :
    Prop where
  settled : r = .ok none → SettledDelete g key h
  attempts : attempts h ≤ 4
  failed : ¬ SettledDelete g key h → ∃ err, r = .ok (some err)
  announced : Announced h → r = .ok none

/-- How a call of `Delete` ends. -/
inductive DeleteDone (g : Cfg) (key : GoString) (h : History) (r : Except Panic (Option Err)) :
    Prop where
  | sound (hs : DeleteSound g key h r) (hnil : ¬ NilPeer h)
  | panicked (hr : r = .error .nilDeref) (hs : ¬ SettledDelete g key h) (hnil : NilPeer h)

/-- In the `n`th attempt, with nothing settled or made known so far. -/
structure Deleting (g : Cfg) (key : GoString) (n : Nat) (h : History) : Prop where
  attempts : attempts h = n
  silent : ¬ Announced h
  unsettled : ¬ SettledDelete g key h
  client : ¬ NilPeer h

/-- An action that neither picks an owner nor makes a deletion known. -/
def Op.isQuiet : Op → Bool
  | .pickOwner _ _ => false
  | o => !o.announces

def Quiet (_ : History) (o : Op) : Prop := o.isQuiet = true

theorem Op.isCalm_of_isQuiet {o : Op} (ho : o.isQuiet = true) : o.isCalm = true := by
  cases o with
  | pickOwner site key => cases ho
  | _ => rfl

theorem Op.announces_of_isQuiet {o : Op} (ho : o.isQuiet = true) : o.announces = false := by
  cases o with
  | pickOwner site key => rfl
  | _ => simpa [isQuiet] using ho

/-- The actions of a part of an attempt. -/
theorem Follows.quiet {α : Type} {p : GoProg α} {Q : History → Except Panic α → Prop}
    (hp : p.Follows Quiet Q h) : p.Follows (fun _ _ => True)
      (fun h' r => Q h' r ∧ ∃ mid, h' = mid ++ h ∧ ∀ e ∈ mid, Op.isQuiet e.op = true) h :=
  (Follows.added (P := fun o : Op => o.isQuiet = true) hp).mono (fun _ _ _ _ => trivial)
    fun _ _ _ hQ => hQ

section Frame

variable {e : Ev groupSig Inp}

theorem announced_cons : Announced (e :: h) ↔ Op.announces e.op = true ∨ Announced h := by
  simp [Announced]

/-- Only the second look at the owner settles a deletion. -/
theorem settledDelete_cons (he : ∀ k, e.op ≠ .pickOwner .verify k) :
    SettledDelete g key (e :: h) ↔ SettledDelete g key h := by
  constructor
  · rintro ⟨later, mid, earlier, i, j, p, q, heq, hrest⟩
    cases later with
    | nil =>
      cases heq
      exact absurd rfl (he key)
    | cons e' later =>
      cases heq
      exact ⟨later, mid, earlier, i, j, p, q, rfl, hrest⟩
  · rintro ⟨later, mid, earlier, i, j, p, q, rfl, hrest⟩
    exact ⟨e :: later, mid, earlier, i, j, p, q, rfl, hrest⟩

theorem nilPeer_cons (he : ∀ k, e.op ≠ .pickOwner .route k) : NilPeer (e :: h) ↔ NilPeer h := by
  obtain ⟨o, i, a⟩ := e
  cases o with
  | pickOwner site k =>
    cases site with
    | route => exact absurd rfl (he k)
    | _ => rfl
  | _ => rfl

/-- The owner an attempt was routed by, before the next one is picked. -/
theorem route_append {mid earlier : History} {i : Inp} {p : Pick}
    (hmid : ∀ e ∈ mid, ∀ site k, e.op ≠ .pickOwner site k) :
    (loc (mid ++ ⟨.pickOwner .route key, i, p⟩ :: earlier)).route = some p := by
  induction mid with
  | nil => rfl
  | cons e mid ih =>
    obtain ⟨he, hrest⟩ := List.forall_mem_cons.1 hmid
    obtain ⟨o, j, a⟩ := e
    cases o with
    | pickOwner site k => exact absurd rfl (he site k)
    | _ => exact ih hrest

end Frame

theorem Deleting.quiet {e : Ev groupSig Inp} (hd : Deleting g key n h)
    (he : Op.isQuiet e.op = true) : Deleting g key n (e :: h) := by
  have hpick : ∀ site k, e.op ≠ .pickOwner site k := by
    intro site k hop
    rw [hop] at he
    cases he
  have hsame : SameAttempt (.delete []) h (e :: h) := .calm (Op.isCalm_of_isQuiet he) e.inp e.ans
  refine ⟨hsame.attempts.trans hd.attempts, ?_, ?_, ?_⟩
  · rw [announced_cons, Op.announces_of_isQuiet he]
    simpa using hd.silent
  · rw [settledDelete_cons (hpick .verify)]
    exact hd.unsettled
  · rw [nilPeer_cons (hpick .route)]
    exact hd.client

theorem Deleting.append {mid : History} (hd : Deleting g key n h)
    (hmid : ∀ e ∈ mid, Op.isQuiet e.op = true) : Deleting g key n (mid ++ h) := by
  induction mid with
  | nil => exact hd
  | cons e mid ih =>
    obtain ⟨he, hmid⟩ := List.forall_mem_cons.1 hmid
    exact (ih hmid).quiet he

/-- The next attempt, unless it is routed to a nil client. -/
theorem Deleting.route {i : Inp} {p : Pick} (hd : Deleting g key n h) (hp : ¬ p.IsNilPeer) :
    Deleting g key (n + 1) (⟨.pickOwner .route key, i, p⟩ :: h) := by
  refine ⟨congrArg (· + 1) hd.attempts, ?_, ?_, ?_⟩
  · rw [announced_cons]
    simpa [Op.announces] using hd.silent
  · rw [settledDelete_cons (by simp)]
    exact hd.unsettled
  · rintro (hnil | hnil)
    · exact hp hnil
    · exact hd.client hnil

theorem Deleting.failed {err : Err} (hd : Deleting g key n h) (hn : n ≤ 4) :
    DeleteDone g key h (.ok (some err)) := by
  refine .sound ⟨fun hr => ?_, hd.attempts ▸ hn, fun _ => ⟨err, rfl⟩, fun ha => ?_⟩ hd.client
  · cases hr
  · exact absurd ha hd.silent

/-! ## The parts of an attempt -/

theorem deleteLocal_deletes {p : Pick} (hself : p.self = true) :
    (Group.deleteLocal g key).Follows Quiet
      (fun h' r => Returns h' r ∧ ∀ mid, h' = mid ++ h → DeletesOn g key p mid) h := by
  refine Follows.op_bind rfl fun i s => Follows.op_bind rfl fun j removed => ?_
  have hnear : (Group.invalidateNearKey g key).Follows Quiet Returns
      (⟨.deleteSection s key, j, removed⟩ :: ⟨.acquireKeyState key, i, s⟩ :: h) :=
    invalidateNearKey_follows (fun _ => rfl) fun _ _ => rfl
  refine Follows.bind hnear ?_ ?_
  · rintro h' _ ⟨later, rfl⟩ -
    refine Follows.op_bind rfl fun k _ => ⟨⟨removed, rfl⟩, fun mid hmid => ?_⟩
    have hmid : mid = ⟨.releaseKeyState key s, k, ()⟩ :: (later ++
        [⟨.deleteSection s key, j, removed⟩, ⟨.acquireKeyState key, i, s⟩]) := by
      rw [← List.append_left_inj h, ← hmid]
      simp
    exact .self hself s j removed (by simp [hmid])
  · rintro h' e _ ⟨a, ha⟩
    cases ha

theorem Client.delete_deletes {p : Pick} {c : Client} (hself : p.self = false)
    (hpeer : p.peer = .client (some c)) :
    (Client.delete (some c) g.name key).Follows Quiet
      (fun h' r => Returns h' r ∧
        ∀ removed, r = .ok (.ok removed) → ∀ mid, h' = mid ++ h → DeletesOn g key p mid) h := by
  refine Follows.op_bind rfl fun i id => Follows.op_bind rfl fun j reply => ?_
  cases reply with
  | error err =>
    refine ⟨⟨_, rfl⟩, ?_⟩
    intro removed hr
    cases hr
  | ok resp =>
    refine ⟨⟨_, rfl⟩, ?_⟩
    intro removed _ mid hmid
    refine .peer hself c hpeer id i j resp ?_
    exact (List.append_cancel_right hmid).symm

/-- What follows the loop always returns nil. -/
theorem finishDelete_aftermath (owner : GoString) :
    (Group.finishDelete g key owner).Follows Aftermath (fun _ r => r = .ok none) h := by
  refine Follows.op_bind rfl fun i _ => ?_
  refine Follows.bind invalidateLocalCopies_aftermath ?_ ?_
  · intro h₁ _ _ _
    refine Follows.bind (invalidatePeerCopies_aftermath owner) ?_ ?_
    · intro h₂ _ _ _
      rfl
    · rintro h₂ e _ ⟨a, ha⟩
      cases ha
  · rintro h₁ e _ ⟨a, ha⟩
    cases ha

theorem finishDelete_done (owner : GoString) (hs : SettledDelete g key h) (hn : attempts h ≤ 4)
    (hnil : ¬ NilPeer h) :
    (Group.finishDelete g key owner).Follows (fun _ _ => True) (DeleteDone g key) h := by
  have haft : (Group.finishDelete g key owner).Follows Aftermath (fun _ r => r = .ok none) h :=
    finishDelete_aftermath owner
  have hcalm := Follows.calm_of_aftermath haft
  refine (hcalm.keep (fun h' => SettledDelete g key h' ∧ attempts h' ≤ 4 ∧ ¬ NilPeer h')
    ⟨hs, hn, hnil⟩ ?_).mono (fun _ _ _ _ => trivial) ?_
  · rintro h' o i a ho ⟨hs', hn', hnil'⟩
    have hpick : ∀ k, o ≠ .pickOwner .verify k ∧ o ≠ .pickOwner .route k := by
      rintro k
      constructor <;> rintro rfl <;> cases ho
    rw [settledDelete_cons fun k => (hpick k).1, nilPeer_cons fun k => (hpick k).2]
    have hsame : SameAttempt (.delete []) h' (⟨o, i, a⟩ :: h') := .calm ho i a
    exact ⟨hs', hsame.attempts.trans_le hn', hnil'⟩
  · rintro h' r _ ⟨rfl, hs', hn', hnil'⟩
    exact .sound ⟨fun _ => hs', hn', fun hs => absurd hs' hs, fun _ => rfl⟩ hnil'

/-! ## The loop -/

theorem checkOwner_deleteDone {p : Pick} {i : Inp} {mid earlier : History} {left : Nat}
    {retry : GoProg (Option Err)}
    (hd : Deleting g key n (mid ++ ⟨.pickOwner .route key, i, p⟩ :: earlier)) (hn : n ≤ 4)
    (hok : p.ok = true) (hquiet : ∀ e ∈ mid, Op.isQuiet e.op = true)
    (hmid : DeletesOn g key p mid)
    (hretry : ∀ h', left ≠ 0 → Deleting g key n h' →
      retry.Follows (fun _ _ => True) (DeleteDone g key) h') :
    (Group.checkOwner key p left (Group.finishDelete g key p.owner) retry).Follows
      (fun _ _ => True) (DeleteDone g key)
      (mid ++ ⟨.pickOwner .route key, i, p⟩ :: earlier) := by
  refine Follows.op_bind trivial fun j q => ?_
  have hpick : ∀ e ∈ mid, ∀ site k, e.op ≠ .pickOwner site k := by
    intro e he site k hop
    have hq := hquiet e he
    rw [hop] at hq
    cases hq
  have hnil : ¬ NilPeer (⟨.pickOwner .verify key, j, q⟩ ::
      (mid ++ ⟨.pickOwner .route key, i, p⟩ :: earlier)) := by
    rw [nilPeer_cons (by simp)]
    exact hd.client
  split
  · next hq =>
    simp only [Bool.and_eq_true, decide_eq_true_eq] at hq
    refine finishDelete_done p.owner ?_ (hd.attempts.trans_le hn) hnil
    exact ⟨[], mid, earlier, i, j, p, q, rfl, hpick, hmid, hok, hq.1.1, hq.1.2, hq.2⟩
  next hq =>
  have hd' : Deleting g key n (⟨.pickOwner .verify key, j, q⟩ ::
      (mid ++ ⟨.pickOwner .route key, i, p⟩ :: earlier)) := by
    refine ⟨hd.attempts, ?_, ?_, hnil⟩
    · rw [announced_cons]
      simpa [Op.announces] using hd.silent
    · rintro ⟨later, mid', earlier', i', j', p', q', heq, hpick', hrest⟩
      cases later with
      | nil =>
        -- the attempt that was looked at again is this one
        obtain ⟨hev, hh⟩ := List.cons.inj heq
        cases hev
        have hroute : some p = some p' :=
          (route_append hpick).symm.trans ((congrArg (fun h => (loc h).route) hh).trans
            (route_append hpick'))
        cases hroute
        simp [hrest] at hq
      | cons e later =>
        exact hd.unsettled ⟨later, mid', earlier', i', j', p', q', (List.cons.inj heq).2, hpick',
          hrest⟩
  split
  · exact hd'.failed hn
  · next hleft => exact hretry _ hleft hd'

theorem deleteAttempts_done (left : Nat) (owner : GoString) (hleft : left ≠ 0) (hn : left ≤ 4)
    (hd : Deleting g key (4 - left) h) :
    (Group.deleteAttempts g key left owner).Follows (fun _ _ => True) (DeleteDone g key) h := by
  induction left generalizing h owner with
  | zero => exact absurd rfl hleft
  | succ left ih =>
    refine Follows.op_bind trivial fun i p => ?_
    have hn' : 4 - left ≤ 4 := Nat.sub_le 4 left
    have hd₁ : ¬ p.IsNilPeer → Deleting g key (4 - left) (⟨.pickOwner .route key, i, p⟩ :: h) := by
      intro hp
      have hd₁ := hd.route (i := i) hp
      rwa [show 4 - (left + 1) + 1 = 4 - left by omega] at hd₁
    have hnext : ∀ h', left ≠ 0 → Deleting g key (4 - left) h' →
        (Group.deleteAttempts g key left p.owner).Follows (fun _ _ => True)
          (DeleteDone g key) h' := by
      intro h' hne hd'
      exact ih p.owner hne (by omega) hd'
    split
    · next hno =>
      refine (hd₁ ?_).failed hn'
      rintro ⟨hok, howner, -⟩
      simp [hok, howner] at hno
    next hpick =>
    simp only [Bool.or_eq_true, Bool.not_eq_eq_eq_not, Bool.not_true, decide_eq_true_eq, not_or,
      Bool.not_eq_false] at hpick
    obtain ⟨hok, howner⟩ := hpick
    split
    · next hself =>
      have hd₁ := hd₁ fun hnil => absurd hself (by simp [hnil.2.2.1])
      refine Follows.bind (Follows.quiet (deleteLocal_deletes hself)) ?_ ?_
      · rintro _ removed _ ⟨⟨-, hdel⟩, mid, rfl, hquiet⟩
        exact checkOwner_deleteDone (hd₁.append hquiet) hn' hok hquiet (hdel mid rfl) hnext
      · rintro _ e _ ⟨⟨⟨a, ha⟩, -⟩, -⟩
        cases ha
    next hself =>
    have hself : p.self = false := by simpa using hself
    split
    · next hpeer =>
      refine (hd₁ ?_).failed hn'
      rintro ⟨-, -, -, hnil⟩
      cases hpeer.symm.trans hnil
    next c hpeer =>
    cases c with
    | none =>
      refine .panicked rfl ?_ (Or.inl ⟨hok, howner, hself, hpeer⟩)
      rw [settledDelete_cons (by simp)]
      exact hd.unsettled
    | some c =>
      have hd₁ := hd₁ (by rintro ⟨-, -, -, hnil⟩; cases hpeer.symm.trans hnil)
      refine Follows.bind (Follows.quiet (Client.delete_deletes hself hpeer)) ?_ ?_
      · rintro _ res _ ⟨⟨-, hdel⟩, mid, rfl, hquiet⟩
        have hd₂ := hd₁.append hquiet
        cases res with
        | ok removed =>
          exact checkOwner_deleteDone hd₂ hn' hok hquiet (hdel removed rfl mid rfl) hnext
        | error err =>
          change (if _ then _ else _ : GoProg (Option Err)).Follows _ _ _
          split
          · split
            · exact hd₂.failed hn'
            · next hne =>
              refine Follows.op_bind trivial fun j w => ?_
              have hd₃ := hd₂.quiet (e := ⟨.waitTopology p.epoch, j, w⟩) rfl
              cases w with
              | some waitErr => exact hd₃.failed hn'
              | none => exact hnext _ hne hd₃
          · exact hd₂.failed hn'
      · rintro _ e _ ⟨⟨⟨a, ha⟩, -⟩, -⟩
        cases ha

theorem delete_done (hp : g.peers = true) :
    (Group.delete g key).Follows (fun _ _ => True) (DeleteDone g key) [] := by
  refine Follows.op_bind trivial fun i closed => ?_
  have hd : Deleting g key 0 [⟨.loadClosed, i, closed⟩] := by
    have hnil : Deleting g key 0 [] := by
      refine ⟨rfl, by simp [Announced], ?_, id⟩
      rintro ⟨later, mid, earlier, i, j, p, q, heq, -⟩
      cases later <;> cases heq
    exact hnil.quiet rfl
  split
  · exact hd.failed (Nat.zero_le 4)
  split
  · exact hd.failed (Nat.zero_le 4)
  rw [hp]
  exact deleteAttempts_done 4 [] (by decide) (Nat.le_refl 4) hd

/-- **`Delete` returns nil only for a settled deletion, and an error without one, unless an attempt
is routed to a nil client.** On every path of `Delete` with peers, that is for all answers of the
picker, of the peers and of the wait: nil means that in some attempt the deletion was carried out on
the owner picked for it and the same owner and epoch were picked next; there are at most four
attempts; without such an attempt the call returns an error; and the counter and the peers' copies
are touched only on a path that returns nil. This fails exactly if an attempt was routed to a nil
client, whose method panics. -/
theorem delete_sound_iff (hp : g.peers = true) (key : GoString) (h : History)
    (r : Except Panic (Option Err)) (he : (Group.delete g key).Ends h r) :
    DeleteSound g key h r ↔ ¬ NilPeer h := by
  cases (delete_done hp).of_ends he with
  | sound hs hnil => exact ⟨fun _ => hnil, fun _ => hs⟩
  | panicked hr hs hnil =>
    constructor
    · intro hsound
      obtain ⟨err, herr⟩ := hsound.failed hs
      cases hr.symm.trans herr
    · exact fun h => absurd hnil h

/-- With a membership that stays, a deletion is settled in its first attempt. -/
theorem delete_sound_stable : ∃ h, (Group.delete Cfg.pair (ascii "k")).Ends h (.ok none) ∧
    DeleteSound Cfg.pair (ascii "k") h (.ok none) := by
  have hends := ends_answer (Inp.fetch []) (scripted fun _ _ => pickSelf 1)
    (Group.delete Cfg.pair (ascii "k"))
  refine ⟨_, hends, (delete_sound_iff rfl _ _ _ hends).2 ?_⟩
  rintro (⟨-, -, hself, -⟩ | hnil)
  · cases hself
  · exact hnil

/-- The picker knows the owner but has no client for it. -/
def pickMissing : Pick := ⟨ascii "b", .client none, false, 1, true⟩

/-- The first attempt is routed to a nil client: `Delete` panics, and nothing is deleted. -/
theorem delete_nil_client : ∃ h, (Group.delete Cfg.pair (ascii "k")).Ends h (.error .nilDeref) ∧
    attempts h = 1 ∧ ¬ SettledDelete Cfg.pair (ascii "k") h := by
  have hends := ends_answer (Inp.fetch []) (scripted fun _ _ => pickMissing)
    (Group.delete Cfg.pair (ascii "k"))
  refine ⟨_, hends, rfl, ?_⟩
  cases (delete_done rfl).of_ends hends with
  | sound hs hnil => exact absurd (Or.inl ⟨rfl, by decide, rfl, rfl⟩) hnil
  | panicked hr hs hnil => exact hs

end Locache
