import Locache.Group.Local

/-!
# The attempts of a write

`Set` routes its write by the owner it picks, and picks again once the write is accepted; only when
both answers agree is the write settled. The loop gives up after four attempts. When the node itself
is picked in the fourth one and its own ownership check then names another node, the loop ends
without an error and `Set` goes on as if the write had been accepted.

The statements here are about every path of the program, so about every sequence of answers of
`PickOwner` and every outcome of the peers.
-/

namespace Locache

open Conc Prog

variable {g : Cfg} {call : Call} {h h' : History} {key : GoString} {value : Bytes} {n : Nat}

/-- The owner has carried out the mutation of `call` since the last attempt was routed: in a
critical section on this node, or in a remote call that returned without an error. -/
def Carried (call : Call) : History → Prop
  | [] => False
  | ⟨.pickOwner .route _, _, _⟩ :: _ => False
  | ⟨.setSection _ key value, _, _⟩ :: h => call = .set key value ∨ Carried call h
  | ⟨.deleteSection _ key, _, _⟩ :: h => call = .delete key ∨ Carried call h
  | ⟨.rpcEnd _, _, .ok _⟩ :: ⟨.rpcStart _ (.set _ key value), _, _⟩ :: h =>
    call = .set key value ∨ Carried call h
  | ⟨.rpcEnd _, _, .ok _⟩ :: ⟨.rpcStart _ (.delete _ key), _, _⟩ :: h =>
    call = .delete key ∨ Carried call h
  | _ :: h => Carried call h

/-- In some attempt the owner carried out the mutation, and `PickOwner` then answered with the owner
and the epoch the attempt had been routed by. -/
def Settled (call : Call) : History → Prop
  | [] => False
  | ⟨.pickOwner .verify _, _, q⟩ :: h =>
    (Carried call h ∧ ∃ p, (loc h).route = some p ∧ q.ok = true ∧ q.owner = p.owner ∧
      q.epoch = p.epoch) ∨ Settled call h
  | _ :: h => Settled call h

/-- The number of attempts that were routed. -/
def attempts : History → Nat
  | [] => 0
  | ⟨.pickOwner .route _, _, _⟩ :: h => attempts h + 1
  | _ :: h => attempts h

/-- In the fourth attempt `PickOwner`, called by `prepareLocalOwner`, named another node. -/
def Disowned : History → Prop
  | [] => False
  | ⟨.pickOwner .prepare _, _, q⟩ :: h =>
    (attempts h = 4 ∧ q.ok = true ∧ q.owner ≠ [] ∧ q.self = false) ∨ Disowned h
  | _ :: h => Disowned h

/-- An action that none of these looks at. -/
def Op.isCalm : Op → Bool
  | .pickOwner .route _ | .pickOwner .verify _ | .pickOwner .prepare _ => false
  | _ => true

def Calm (_ : History) (o : Op) : Prop := o.isCalm = true

/-- `h'` goes on from `h` within one attempt. -/
structure SameAttempt (call : Call) (h h' : History) : Prop where
  route : (loc h').route = (loc h).route
  settled : Settled call h' ↔ Settled call h
  attempts : attempts h' = attempts h
  disowned : Disowned h' ↔ Disowned h

theorem SameAttempt.refl : SameAttempt call h h := ⟨rfl, Iff.rfl, rfl, Iff.rfl⟩

theorem SameAttempt.trans {h₁ h₂ h₃ : History} (h₁₂ : SameAttempt call h₁ h₂)
    (h₂₃ : SameAttempt call h₂ h₃) : SameAttempt call h₁ h₃ where
  route := h₂₃.route.trans h₁₂.route
  settled := h₂₃.settled.trans h₁₂.settled
  attempts := h₂₃.attempts.trans h₁₂.attempts
  disowned := h₂₃.disowned.trans h₁₂.disowned

theorem SameAttempt.calm {o : Op} (ho : o.isCalm = true) (i : Inp) (a : o.Ans) :
    SameAttempt call h (⟨o, i, a⟩ :: h) := by
  cases o with
  | pickOwner site key => cases site <;> first | exact ⟨rfl, Iff.rfl, rfl, Iff.rfl⟩ | cases ho
  | _ => exact ⟨rfl, Iff.rfl, rfl, Iff.rfl⟩

theorem Carried.calm {o : Op} (hc : Carried call h) (ho : o.isCalm = true) (i : Inp) (a : o.Ans) :
    Carried call (⟨o, i, a⟩ :: h) := by
  cases o with
  | pickOwner site key => cases site <;> first | exact hc | cases ho
  | setSection s key value => exact Or.inr hc
  | deleteSection s key => exact Or.inr hc
  | rpcEnd id =>
    cases a with
    | error err => exact hc
    | ok resp =>
      cases h with
      | nil => exact hc
      | cons e h =>
        obtain ⟨o, j, b⟩ := e
        cases o with
        | rpcStart addr req => cases req <;> first | exact hc | exact Or.inr hc
        | _ => exact hc
  | _ => exact hc

/-- A part of a program that performs calm actions only stays within the attempt. -/
theorem Follows.calm {α : Type} {p : GoProg α} {Q : History → Except Panic α → Prop} (call : Call)
    (hp : p.Follows Calm Q h) :
    p.Follows (fun _ _ => True) (fun h' r => Q h' r ∧ SameAttempt call h h') h := by
  refine (hp.keep (SameAttempt call h) .refl ?_).mono (fun _ _ _ _ => trivial) fun _ _ _ hQ => hQ
  intro h' o i a ho hs
  exact hs.trans (.calm ho i a)

theorem Follows.carried {α : Type} {p : GoProg α} {Q : History → Except Panic α → Prop}
    (hc : Carried call h) (hp : p.Follows Calm Q h) :
    p.Follows (fun _ _ => True)
      (fun h' r => Q h' r ∧ SameAttempt call h h' ∧ Carried call h') h := by
  refine (hp.keep (fun h' => SameAttempt call h h' ∧ Carried call h') ⟨.refl, hc⟩ ?_).mono
    (fun _ _ _ _ => trivial) fun _ _ _ hQ => hQ
  intro h' o i a ho hs
  exact ⟨hs.1.trans (.calm ho i a), hs.2.calm ho i a⟩

/-! ## What follows the loop -/

section Aftermath

/-- The actions with which a mutation that was accepted makes itself known and refreshes the node's
own copies. -/
def Op.isAftermath : Op → Bool
  | .count _ | .pickOwner .copies _ | .pickOwner .refresh _ | .mainDelete _ | .epoch
  | .nearDelete _ | .invalidateTargets _ | .rpcStart _ (.invalidate _ _) | .rpcEnd _ | .now
  | .until _ | .nearSet _ _ _ => true
  | _ => false

def Aftermath (_ : History) (o : Op) : Prop := o.isAftermath = true

theorem Follows.calm_of_aftermath {α : Type} {p : GoProg α} {Q : History → Except Panic α → Prop}
    (hp : p.Follows Aftermath Q h) : p.Follows Calm Q h := by
  refine hp.mono (fun _ o _ ho => ?_) fun _ _ _ hQ => hQ
  cases o with
  | pickOwner site key => cases site <;> first | rfl | cases ho
  | _ => rfl

/-- The part of a program ends without a panic. -/
def Returns {α : Type} (_ : History) (r : Except Panic α) : Prop := ∃ a, r = .ok a

theorem invalidateNearKey_follows {J : History → Op → Prop} (hepoch : ∀ h, J h .epoch)
    (hdelete : ∀ h nearKey, J h (.nearDelete nearKey)) :
    (Group.invalidateNearKey g key).Follows J Returns h := by
  unfold Group.invalidateNearKey
  split
  · exact ⟨(), rfl⟩
  · split
    · exact ⟨hepoch _, fun _ _ => ⟨hdelete _ _, fun _ _ => ⟨(), rfl⟩⟩⟩
    · exact ⟨(), rfl⟩

theorem invalidateNearKey_aftermath :
    (Group.invalidateNearKey g key).Follows Aftermath Returns h :=
  invalidateNearKey_follows (fun _ => rfl) fun _ _ => rfl

theorem invalidateLocalCopies_aftermath :
    (Group.invalidateLocalCopies g key).Follows Aftermath Returns h := by
  unfold Group.invalidateLocalCopies
  split
  · refine Follows.op_bind rfl fun i p => ?_
    dsimp only
    split
    · exact ⟨rfl, fun _ _ => invalidateNearKey_aftermath⟩
    · exact invalidateNearKey_aftermath
  · exact invalidateNearKey_aftermath

theorem startInvalidates_aftermath (cs : List Client) :
    (Client.startInvalidates g.name key cs).Follows Aftermath Returns h := by
  induction cs generalizing h with
  | nil => exact ⟨[], rfl⟩
  | cons c cs ih =>
    refine Follows.op_bind rfl fun i id => ?_
    refine Follows.bind ih ?_ ?_
    · intro h' rest _ _
      exact ⟨_, rfl⟩
    · rintro h' e _ ⟨a, ha⟩
      cases ha

theorem waitInvalidates_aftermath (calls : List (Client × Nat)) :
    (Client.waitInvalidates calls).Follows Aftermath Returns h := by
  induction calls generalizing h with
  | nil => exact ⟨[], rfl⟩
  | cons c calls ih =>
    refine Follows.op_bind rfl fun i reply => ?_
    refine Follows.bind ih ?_ ?_
    · intro h' errs _ _
      cases reply <;> exact ⟨_, rfl⟩
    · rintro h' e _ ⟨a, ha⟩
      cases ha

theorem invalidatePeerCopies_aftermath (owner : GoString) :
    (Group.invalidatePeerCopies g key owner).Follows Aftermath Returns h := by
  unfold Group.invalidatePeerCopies
  split
  · exact ⟨(), rfl⟩
  · have hinvalidate : (PeerPicker.invalidate g.name key owner).Follows
        Aftermath Returns h := by
      refine Follows.op_bind rfl fun i targets => ?_
      refine Follows.bind (startInvalidates_aftermath targets) ?_ ?_
      · intro h' calls _ _
        exact waitInvalidates_aftermath calls
      · rintro h' e _ ⟨a, ha⟩
        cases ha
    refine Follows.bind hinvalidate ?_ ?_
    · intro h' errs _ _
      split
      · exact ⟨rfl, fun _ _ => ⟨(), rfl⟩⟩
      · exact ⟨(), rfl⟩
    · rintro h' e _ ⟨a, ha⟩
      cases ha

/-- What follows the loop of `Set` always returns nil. -/
theorem finishSet_aftermath (owner : GoString) (epoch : Nat) :
    (Group.finishSet g key value owner epoch).Follows Aftermath
      (fun _ r => r = .ok none) h := by
  refine Follows.op_bind rfl fun i _ => ?_
  refine Follows.bind invalidateLocalCopies_aftermath ?_ ?_
  · intro h₁ _ _ _
    refine Follows.bind (invalidatePeerCopies_aftermath owner) ?_ ?_
    · intro h₂ _ _ _
      dsimp only
      split
      · refine Follows.op_bind rfl fun j q => ?_
        split
        · exact ⟨rfl, fun _ _ => ⟨rfl, fun _ _ => ⟨rfl, fun _ _ => rfl⟩⟩⟩
        · rfl
      · rfl
    · rintro h₂ e _ ⟨a, ha⟩
      cases ha
  · rintro h₁ e _ ⟨a, ha⟩
    cases ha

end Aftermath

/-! ## The loop -/

/-- The errors `Set` answers with another attempt. -/
def Err.retries (err : Err) : Bool := err.is .topologyChanged || err.is .notOwner

/-- `h'` goes on from `h` to where the node finds that it is not the owner. -/
structure LosesKey (call : Call) (h h' : History) : Prop where
  settled : Settled call h' ↔ Settled call h
  disowned : Disowned h' ↔ attempts h = 4 ∨ Disowned h
  attempts : attempts h' = attempts h

/-- How a part of an attempt on this node can end: as it should; with an error that ends the call;
or with one that asks for another attempt. -/
inductive LocalStep {α : Type} (call : Call) (h h' : History) (ok : α → Prop)
    (failed : α → Err → Prop) : Except Panic α → Prop where
  | done (a : α) (ha : ok a) (hs : SameAttempt call h h') : LocalStep call h h' ok failed (.ok a)
  | refused (a : α) (err : Err) (ha : failed a err) (hr : err.retries = false)
      (hs : SameAttempt call h h') : LocalStep call h h' ok failed (.ok a)
  | again (a : α) (err : Err) (ha : failed a err) (hr : err.retries = true)
      (hl : LosesKey call h h') : LocalStep call h h' ok failed (.ok a)

theorem prepareLocalOwner_attempt (call : Call) (hp : g.peers = true) :
    (Group.prepareLocalOwner g key).Follows (fun _ _ => True)
    (fun h' => LocalStep call h h' (fun r => ∃ e, r = .ok e) fun r err => r = .error err) h := by
  unfold Group.prepareLocalOwner
  rw [hp]
  refine Follows.op_bind trivial fun i p => ?_
  -- the answer counts against the fourth attempt only if it names another node
  have hsame : (p.ok = true → p.owner ≠ [] → p.self = true) →
      SameAttempt call h (⟨.pickOwner .prepare key, i, p⟩ :: h) := by
    intro hself
    refine ⟨rfl, Iff.rfl, rfl, ?_⟩
    constructor
    · rintro (⟨-, h₁, h₂, h₃⟩ | hd)
      · rw [hself h₁ h₂] at h₃
        cases h₃
      · exact hd
    · exact Or.inr
  split
  · next hno =>
    refine .refused _ _ rfl rfl (hsame fun h₁ h₂ => ?_)
    simp [h₁, h₂] at hno
  next hok =>
  simp only [Bool.or_eq_true, Bool.not_eq_eq_eq_not, Bool.not_true, decide_eq_true_eq, not_or,
    Bool.not_eq_false] at hok
  split
  · next hself =>
    have hself : p.self = false := by simpa using hself
    refine .again _ _ rfl rfl ⟨Iff.rfl, ?_, rfl⟩
    constructor
    · rintro (⟨h₁, -⟩ | hd)
      · exact Or.inl h₁
      · exact Or.inr hd
    · rintro (h₁ | hd)
      · exact Or.inl ⟨h₁, hok.1, hok.2, hself⟩
      · exact Or.inr hd
  · next hself =>
    have hself : p.self = true := by simpa using hself
    refine ⟨trivial, fun j _ => .done _ ⟨_, rfl⟩ ((hsame fun _ _ => hself).trans ?_)⟩
    exact .calm (o := .ownerEpoch p.epoch) rfl j ()

theorem setLocal_attempt (hp : g.peers = true) : (Group.setLocal g key value).Follows
    (fun _ _ => True)
    (fun h' r => LocalStep (.set key value) h h' (fun r => r = none) (fun r err => r = some err) r ∧
      (r = .ok none → Carried (.set key value) h')) h := by
  refine Follows.op_bind trivial fun i closed => ?_
  have hs₀ : SameAttempt (.set key value) h (⟨.loadClosed, i, closed⟩ :: h) :=
    .calm (o := .loadClosed) rfl i closed
  split
  · exact ⟨.refused _ _ rfl rfl hs₀, fun hr => by cases hr⟩
  refine Follows.bind (prepareLocalOwner_attempt (.set key value) hp) ?_ ?_
  · intro h₁ r _ hstep
    rw [hp]
    cases hstep with
    | refused _ err ha hr hs =>
      cases ha
      exact ⟨.refused _ _ rfl hr (hs₀.trans hs), fun hr => by cases hr⟩
    | again _ err ha hr hl =>
      cases ha
      refine ⟨.again _ _ rfl hr ?_, fun hr => by cases hr⟩
      exact ⟨hl.settled.trans hs₀.settled, by rw [hl.disowned, hs₀.disowned, hs₀.attempts],
        hl.attempts.trans hs₀.attempts⟩
    | done _ ha hs =>
      obtain ⟨e, rfl⟩ := ha
      refine Follows.op_bind trivial fun j state => ?_
      refine Follows.op_bind trivial fun k _ => ?_
      have hs₂ : SameAttempt (.set key value) h₁ (⟨.setSection state key value, k, ()⟩ ::
          ⟨.acquireKeyState key, j, state⟩ :: h₁) :=
        (SameAttempt.calm (o := .acquireKeyState key) rfl j state).trans
          (.calm (o := .setSection state key value) rfl k ())
      have hcarried : Carried (.set key value) (⟨.setSection state key value, k, ()⟩ ::
          ⟨.acquireKeyState key, j, state⟩ :: h₁) := Or.inl rfl
      refine Follows.bind (Follows.carried hcarried
        (Follows.calm_of_aftermath invalidateNearKey_aftermath)) ?_ ?_
      · intro h₂ _ _ hQ
        obtain ⟨-, hs₃, hc₃⟩ := hQ
        refine Follows.op_bind trivial fun l _ => ⟨.done _ rfl ?_, fun _ => ?_⟩
        · exact hs₀.trans (hs.trans (hs₂.trans (hs₃.trans
            (.calm (o := .releaseKeyState key state) rfl l ()))))
        · exact hc₃.calm (o := .releaseKeyState key state) rfl l ()
      · rintro h₂ e _ ⟨⟨a, ha⟩, -⟩
        cases ha
  · intro h₁ e _ hstep
    cases hstep

/-- The remote write of an attempt. -/
theorem Client.set_attempt (c : Option Client) : (Client.set c g.name key value).Follows
    (fun _ _ => True)
    (fun h' r => SameAttempt (.set key value) h h' ∧
      (r = .ok none → Carried (.set key value) h')) h := by
  cases c with
  | none => exact ⟨.refl, fun hr => by cases hr⟩
  | some c =>
    refine Follows.op_bind trivial fun i id => ?_
    refine Follows.op_bind trivial fun j reply => ?_
    have hs : SameAttempt (.set key value) h
        (⟨.rpcEnd id, j, reply⟩ :: ⟨.rpcStart c.addr (.set g.name key value), i, id⟩ :: h) :=
      (SameAttempt.calm (o := .rpcStart c.addr (.set g.name key value)) rfl i id).trans
        (.calm (o := .rpcEnd id) rfl j reply)
    cases reply with
    | ok resp => exact ⟨hs, fun _ => Or.inl rfl⟩
    | error err => exact ⟨hs, fun hr => by cases hr⟩

/-- The path returns nil only if the write is settled, exactly if the fourth attempt was not lost.
-/
def SetDone (key : GoString) (value : Bytes) (h : History) (r : Except Panic (Option Err)) : Prop :=
  (r = .ok none → Settled (.set key value) h) ↔ ¬ Disowned h

/-- In the `n`th attempt, with nothing settled so far. -/
structure Trying (call : Call) (n : Nat) (h : History) : Prop where
  unsettled : ¬ Settled call h
  owned : ¬ Disowned h
  attempts : attempts h = n

theorem Trying.mono (ht : Trying call n h) (hs : SameAttempt call h h') : Trying call n h' where
  unsettled := fun h => ht.unsettled (hs.settled.1 h)
  owned := fun h => ht.owned (hs.disowned.1 h)
  attempts := hs.attempts.trans ht.attempts

/-- A call that ends with an error is as it should be unless the fourth attempt was lost. -/
theorem Trying.failed {r : Except Panic (Option Err)} (ht : Trying (.set key value) n h)
    (hr : r ≠ .ok none) : SetDone key value h r :=
  ⟨fun _ => ht.owned, fun _ h => absurd h hr⟩

theorem finishSet_done (owner : GoString) (epoch : Nat)
    (hd : Settled (.set key value) h ↔ ¬ Disowned h) :
    (Group.finishSet g key value owner epoch).Follows (fun _ _ => True) (SetDone key value) h := by
  refine (Follows.calm (.set key value)
    (Follows.calm_of_aftermath (finishSet_aftermath owner epoch))).mono (fun _ _ _ h => h) ?_
  rintro h' r _ ⟨rfl, hs⟩
  rw [SetDone, hs.settled, hs.disowned, hd]
  simp

theorem checkOwner_done {p : Pick} {left : Nat} {retry : GoProg (Option Err)}
    (ht : Trying (.set key value) n h) (hc : Carried (.set key value) h)
    (hroute : (loc h).route = some p)
    (hretry : ∀ h', left ≠ 0 → Trying (.set key value) n h' →
      retry.Follows (fun _ _ => True) (SetDone key value) h') :
    (Group.checkOwner key p left (Group.finishSet g key value p.owner p.epoch) retry).Follows
      (fun _ _ => True) (SetDone key value) h := by
  refine Follows.op_bind trivial fun i q => ?_
  split
  · next hq =>
    simp only [Bool.and_eq_true, decide_eq_true_eq] at hq
    apply finishSet_done
    constructor
    · exact fun _ => ht.owned
    · exact fun _ => Or.inl ⟨hc, p, hroute, hq.1.1, hq.1.2, hq.2⟩
  next hq =>
  have ht' : Trying (.set key value) n (⟨.pickOwner .verify key, i, q⟩ :: h) := by
    refine ⟨?_, ht.owned, ht.attempts⟩
    rintro (⟨-, p', hp', h₁, h₂, h₃⟩ | hs)
    · cases hroute.symm.trans hp'
      simp [h₁, h₂, h₃] at hq
    · exact ht.unsettled hs
  split
  · exact ht'.failed (by simp)
  · next hleft => exact hretry _ hleft ht'

/-- Where an attempt begins: after the last one only if it was lost. -/
theorem setAttempts_done (hp : g.peers = true) (left : Nat) (owner : GoString) (hleft : left ≤ 4)
    (hlost : left = 0 → ¬ Settled (.set key value) h ∧ Disowned h)
    (ht : left ≠ 0 → Trying (.set key value) (4 - left) h) :
    (Group.setAttempts g key value left owner).Follows (fun _ _ => True) (SetDone key value) h := by
  induction left generalizing h owner with
  | zero =>
    obtain ⟨h₁, h₂⟩ := hlost rfl
    exact finishSet_done owner 0 ⟨fun h => absurd h h₁, fun h => absurd h₂ h⟩
  | succ left ih =>
    have ht := ht (Nat.succ_ne_zero left)
    refine Follows.op_bind trivial fun i p => ?_
    -- the number of this attempt
    have ht₁ : Trying (.set key value) (4 - left) (⟨.pickOwner .route key, i, p⟩ :: h) := by
      refine ⟨ht.unsettled, ht.owned, ?_⟩
      show attempts h + 1 = 4 - left
      have := ht.attempts
      omega
    have hroute : (loc (⟨.pickOwner .route key, i, p⟩ :: h)).route = some p := rfl
    have hnext : ∀ h', left ≠ 0 → Trying (.set key value) (4 - left) h' →
        (Group.setAttempts g key value left p.owner).Follows (fun _ _ => True)
          (SetDone key value) h' := by
      intro h' hne ht'
      exact ih p.owner (by omega) (fun h0 => absurd h0 hne) fun _ => ht'
    split
    · exact ht₁.failed (by simp)
    split
    · refine Follows.bind (setLocal_attempt hp) ?_ ?_
      · rintro h₁ r _ ⟨hstep, hc⟩
        cases hstep with
        | done _ ha hs =>
          cases ha
          exact checkOwner_done (ht₁.mono hs) (hc rfl) (hs.route.trans hroute) hnext
        | refused _ err ha hr hs =>
          cases ha
          change (if _ then _ else _ : GoProg (Option Err)).Follows _ _ _
          rw [if_neg (by simpa [Err.retries] using hr)]
          exact (ht₁.mono hs).failed (by simp)
        | again _ err ha hr hl =>
          cases ha
          change (if _ then _ else _ : GoProg (Option Err)).Follows _ _ _
          rw [if_pos (by simpa [Err.retries] using hr)]
          have hunsettled : ¬ Settled (.set key value) h₁ := fun h => ht₁.unsettled (hl.settled.1 h)
          have hnumber := ht₁.attempts
          refine ih p.owner (by omega)
            (fun h0 => ⟨hunsettled, hl.disowned.2 (Or.inl ?_)⟩) fun hne => ?_
          · rw [hnumber, h0]
          · refine ⟨hunsettled, fun hd => ?_, hl.attempts.trans hnumber⟩
            rcases hl.disowned.1 hd with h4 | hd
            · omega
            · exact ht₁.owned hd
      · rintro h₁ e _ ⟨hstep, -⟩
        cases hstep
    split
    · exact ht₁.failed (by simp)
    next c _ =>
    refine Follows.bind (Client.set_attempt c) ?_ ?_
    · rintro h₁ r _ ⟨hs, hc⟩
      have ht₂ := ht₁.mono hs
      cases r with
      | none => exact checkOwner_done ht₂ (hc rfl) (hs.route.trans hroute) hnext
      | some err =>
        change (if _ then _ else _ : GoProg (Option Err)).Follows _ _ _
        split
        · split
          · exact ht₂.failed (by simp)
          · next hne =>
            refine Follows.op_bind trivial fun j w => ?_
            have hs₃ : SameAttempt (.set key value) h₁ (⟨.waitTopology p.epoch, j, w⟩ :: h₁) :=
              .calm (o := .waitTopology p.epoch) rfl j w
            cases w with
            | some waitErr => exact (ht₂.mono hs₃).failed (by simp)
            | none => exact hnext _ hne (ht₂.mono hs₃)
        · exact ht₂.failed (by simp)
    · rintro h₁ e _ ⟨hs, -⟩
      exact (ht₁.mono hs).failed (by simp)

theorem set_done (hp : g.peers = true) :
    (Group.set g key value).Follows (fun _ _ => True) (SetDone key value) [] := by
  refine Follows.op_bind trivial fun i closed => ?_
  have ht : Trying (.set key value) 0 [⟨.loadClosed, i, closed⟩] := ⟨fun h => h, fun h => h, rfl⟩
  split
  · exact ht.failed (by simp)
  split
  · exact ht.failed (by simp)
  split
  · exact ht.failed (by simp)
  rw [hp]
  exact setAttempts_done hp 4 [] (Nat.le_refl 4) (fun h => by cases h) fun _ => ht

/-- The answers of an environment that is asked for owners at the `n`th action of a call. -/
def scripted (pick : Nat → Site → Pick) (h : History) : (o : Op) → o.Ans
  | .pickOwner site _ => pick h.length site
  | .loadClosed | .casClosed => false
  | .getGroup _ => true
  | .epoch => h.length
  | .invalidateTargets _ => []
  | .waitTopology _ => none
  | .acquireKeyState _ | .getterStart _ | .rpcStart _ _ => 0
  | .mainGet _ | .nearGet _ => none
  | .mainDelete _ | .nearDelete _ | .deleteSection _ _ => false
  | .now => 0
  | .until _ => 0
  | .doEnter _ => .lead 0
  | .doWait _ => .ok (.error (.sentinel .cacheMiss))
  | .loadBegin _ _ => .generation 0
  | .getterEnd _ => .ok (.ok [])
  | .loadCommit _ _ _ _ => .miss
  | .rpcEnd _ => .ok ⟨[], false⟩
  | .unregister | .count _ | .ownerEpoch _ | .releaseKeyState _ _ | .mainClear _ | .mainClose
  | .nearClear _ | .nearClose | .nearSet _ _ _ | .doRemove _ _ | .doDone _ _
  | .setSection _ _ _ => ()

end Locache
