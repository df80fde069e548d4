import Locache.Service

/-!
# What `Start` and `Stop` do in which order

What a goroutine has done before each of its actions, for every path of the two programs
(`protocol`): a lease is renewed by the registration it was granted for, a registration is closed by
cancelling its context, waiting and revoking, and whoever has published or found a registration
closes it before going on.
-/

namespace Locache.Service

open Conc Prog

/-- The goroutine has performed the action. -/
def Did (o : Op) (h : History) : Prop := ∃ i a, (⟨o, i, a⟩ : Ev serviceSig Inp) ∈ h

/-- The goroutine was told that the lease is granted. -/
def Granted (reg lease : Nat) (h : History) : Prop :=
  ∃ ttl i, (⟨.grant reg ttl, i, .ok lease⟩ : Ev serviceSig Inp) ∈ h

/-- The goroutine has revoked the lease of the registration, or found the registration closed. -/
def Closed (reg : Nat) (h : History) : Prop :=
  Did (.revoke reg) h ∨ ∃ i, (⟨.closeEnter reg, i, false⟩ : Ev serviceSig Inp) ∈ h

/-- The registrations that the goroutine has published or found. -/
def owed : History → List Nat
  | [] => []
  | ⟨.setRegistration reg _, _, _⟩ :: h => reg :: owed h
  | ⟨.registration, _, found⟩ :: h => found.toList ++ owed h
  | _ :: h => owed h

/-- What a goroutine has done before an action. -/
def Allows (g : Cfg) (h : History) : Op → Prop
  | .keepAlive reg lease | .newRegistration reg lease => Granted reg lease h
  | .setRegistration reg _ => ∃ lease, Did (.newRegistration reg lease) h
  | .closeEnter reg => reg ∈ owed h
  | .awaitDone reg => Did (.cancelReg reg) h
  | .revoke reg => ∃ i j k a rest, h = ⟨.awaitDone reg, i, a⟩ :: ⟨.cancelReg reg, j, ()⟩ ::
      ⟨.closeEnter reg, k, true⟩ :: rest
  | .closeLeave reg => Did (.cancelReg reg) h ∧ Did (.revoke reg) h
  | .gracefulStop => Did .cancel h ∧ ∀ reg ∈ owed h, Closed reg h
  | .stopLeave => Did .cancel h ∧ Did .gracefulStop h ∧ (g.etcdCli = true → Did .closeEtcd h)
  | _ => True

/-- What a goroutine has done when its call returns. -/
def Finished (call : Call) (h : History) (r : Except Empty Res) : Prop :=
  match call with
  | .start => (∃ err, r = .ok (.started err)) ∧ ∀ reg ∈ owed h, Closed reg h
  | .stop => r = .ok .stopped ∧
      (Did .stopLeave h ∨ ∃ i, (⟨.stopEnter, i, false⟩ : Ev serviceSig Inp) ∈ h)

section

variable {g : Cfg} {h h' : History} {o : Op} {reg lis : Nat}

theorem Did.mono (hd : Did o h) (hs : h <:+ h') : Did o h' := by
  obtain ⟨i, a, hm⟩ := hd
  exact ⟨i, a, hs.subset hm⟩

theorem did_cons (o : Op) {i : Inp} {a : o.Ans} : Did o (⟨o, i, a⟩ :: h) :=
  ⟨i, a, List.mem_cons_self⟩

theorem Granted.mono {lease : Nat} (hg : Granted reg lease h) (hs : h <:+ h') :
    Granted reg lease h' := by
  obtain ⟨ttl, i, hm⟩ := hg
  exact ⟨ttl, i, hs.subset hm⟩

theorem owed_mono (hs : h <:+ h') : owed h ⊆ owed h' := by
  obtain ⟨l, rfl⟩ := hs
  induction l with
  | nil => exact List.Subset.refl _
  | cons e l ih =>
    intro reg hm
    have hrest := ih hm
    show reg ∈ owed (e :: (l ++ h))
    unfold owed
    split
    · next heq => cases heq
    · next heq =>
      cases heq
      exact List.mem_cons_of_mem _ hrest
    · next heq =>
      cases heq
      exact List.mem_append_right _ hrest
    · next heq =>
      cases heq
      exact hrest

/-- What was published is owed. -/
theorem mem_owed_of_set {i : Inp} {u : Unit}
    (hm : (⟨.setRegistration reg lis, i, u⟩ : Ev serviceSig Inp) ∈ h) : reg ∈ owed h := by
  obtain ⟨A, B, rfl⟩ := List.append_of_mem hm
  exact owed_mono (List.suffix_append A _) List.mem_cons_self

/-- What was found is owed. -/
theorem mem_owed_of_found {i : Inp}
    (hm : (⟨.registration, i, some reg⟩ : Ev serviceSig Inp) ∈ h) : reg ∈ owed h := by
  obtain ⟨A, B, rfl⟩ := List.append_of_mem hm
  exact owed_mono (List.suffix_append A _) List.mem_cons_self

/-- A registration that was made has a lease, and nothing is owed for it yet. -/
theorem register_follows (cli : Bool) (svcName addr : GoString) (ttl : Int) :
    (register cli svcName addr ttl).Follows (Allows g) (fun h' r => owed h' = owed h ∧
      ∃ out, r = .ok out ∧ ∀ reg, out = .ok reg → ∃ lease, Did (.newRegistration reg lease) h')
      h := by
  cases cli with
  | false => exact ⟨rfl, _, rfl, fun reg heq => by cases heq⟩
  | true =>
    refine ⟨trivial, ?_⟩
    intro i₁ reg
    refine ⟨trivial, ?_⟩
    intro i₂ granted
    cases granted with
    | error err => exact ⟨trivial, fun i a => ⟨rfl, _, rfl, fun reg heq => by cases heq⟩⟩
    | ok lease =>
      have hgranted : Granted reg lease (⟨.grant reg (if ttl ≤ 0 then defaultLeaseTTL else ttl), i₂,
          .ok lease⟩ :: ⟨.withCancel, i₁, reg⟩ :: h) := ⟨_, i₂, List.mem_cons_self⟩
      refine ⟨trivial, ?_⟩
      intro i₃ put
      cases put with
      | some err => exact ⟨trivial, fun i a => ⟨rfl, _, rfl, fun reg heq => by cases heq⟩⟩
      | none =>
        refine ⟨hgranted.mono (List.suffix_cons _ _), ?_⟩
        intro i₄ kept
        cases kept with
        | some err => exact ⟨trivial, fun i a => ⟨rfl, _, rfl, fun reg heq => by cases heq⟩⟩
        | none =>
          refine ⟨hgranted.mono ⟨[_, _], rfl⟩, ?_⟩
          intro i₅ u
          refine ⟨rfl, _, rfl, ?_⟩
          rintro _ ⟨⟩
          exact ⟨lease, did_cons (.newRegistration reg lease)⟩

/-- Whoever calls `Close` goes on when the registration is closed. -/
theorem closeRegistration_follows (hown : reg ∈ owed h) :
    (closeRegistration reg).Follows (Allows g) (fun h' r => owed h' = owed h ∧
      (∃ err, r = .ok err) ∧ Closed reg h') h := by
  refine ⟨hown, ?_⟩
  intro i₁ first
  cases first with
  | false => exact ⟨rfl, ⟨_, rfl⟩, Or.inr ⟨i₁, List.mem_cons_self⟩⟩
  | true =>
    refine ⟨trivial, ?_⟩
    intro i₂ u
    refine ⟨did_cons (.cancelReg reg), ?_⟩
    intro i₃ waited
    refine ⟨⟨i₃, i₂, i₁, waited, h, rfl⟩, ?_⟩
    intro i₄ revoked
    refine ⟨⟨?_, did_cons (.revoke reg)⟩, ?_⟩
    · exact (did_cons (.cancelReg reg)).mono ⟨[_, _], rfl⟩
    intro i₅ u'
    exact ⟨rfl, ⟨_, rfl⟩, Or.inl ((did_cons (.revoke reg)).mono (List.suffix_cons _ _))⟩

theorem serve_follows : (serve lis).Follows (Allows g)
    (fun h' r => owed h' = owed h ∧ ∃ err, r = .ok err) h := by
  refine ⟨trivial, ?_⟩
  intro i₁ stopped
  cases stopped with
  | true => exact ⟨rfl, _, rfl⟩
  | false =>
    refine ⟨trivial, ?_⟩
    intro i₂ err
    cases err with
    | none => exact ⟨rfl, _, rfl⟩
    | some err =>
      refine ⟨trivial, ?_⟩
      intro i₃ cancelled
      cases cancelled <;> exact ⟨rfl, _, rfl⟩

theorem start_follows : (prog g .start).Follows (Allows g) (Finished .start) [] := by
  change ((start g).bind _).Follows _ _ _
  refine Follows.bind (Q := fun h r => (∃ err, r = .ok err) ∧ ∀ reg ∈ owed h, Closed reg h) ?_ ?_ ?_
  · refine ⟨trivial, ?_⟩
    intro i₁ listened
    cases listened with
    | error err => exact ⟨⟨_, rfl⟩, fun reg hm => by cases hm⟩
    | ok lis =>
      refine (register_follows _ _ _ _).bind ?_ ?_
      · rintro h out - ⟨howed, _, ⟨⟩, hmade⟩
        cases out with
        | error err =>
          refine ⟨trivial, fun i a => ⟨⟨_, rfl⟩, ?_⟩⟩
          intro reg hm
          change reg ∈ owed h at hm
          rw [howed] at hm
          cases hm
        | ok reg =>
          refine ⟨(hmade reg rfl), ?_⟩
          intro i₂ u
          refine serve_follows.bind ?_ ?_
          · rintro h' err - ⟨howed', -⟩
            have hown : owed h' = [reg] := howed'.trans (congrArg (reg :: ·) howed)
            refine (closeRegistration_follows (hown ▸ List.mem_singleton_self reg)).bind ?_ ?_
            · rintro h₁ _ - ⟨howed₁, -, hclosed⟩
              refine ⟨⟨_, rfl⟩, ?_⟩
              intro reg' hm
              rw [howed₁, hown, List.mem_singleton] at hm
              rw [hm]
              exact hclosed
            · intro _ e
              cases e
          · intro _ e
            cases e
      · intro _ e
        cases e
  · rintro h err - ⟨-, hclosed⟩
    exact ⟨⟨err, rfl⟩, hclosed⟩
  · intro _ e
    cases e

/-- The end of `Stop`, once the registration it found is closed. -/
theorem shutDown_follows (hcancel : Did .cancel h) (hclosed : ∀ reg ∈ owed h, Closed reg h) :
    (shutDown g).Follows (Allows g) (fun h' r => r = .ok () ∧ Did .stopLeave h') h := by
  refine ⟨⟨hcancel, hclosed⟩, ?_⟩
  intro i₁ u₁
  have hcancel₁ : Did .cancel (⟨.gracefulStop, i₁, u₁⟩ :: h) := hcancel.mono (List.suffix_cons _ _)
  by_cases hcli : g.etcdCli = true
  · rw [if_pos hcli]
    refine ⟨trivial, ?_⟩
    intro i₂ u₂
    refine ⟨⟨hcancel₁.mono (List.suffix_cons _ _), ?_, fun _ => did_cons .closeEtcd⟩, ?_⟩
    · exact (did_cons .gracefulStop).mono (List.suffix_cons _ _)
    · exact fun i₃ u₃ => ⟨rfl, did_cons .stopLeave⟩
  · rw [if_neg hcli]
    refine ⟨⟨hcancel₁, did_cons .gracefulStop, fun hyes => absurd hyes hcli⟩, ?_⟩
    exact fun i₃ u₃ => ⟨rfl, did_cons .stopLeave⟩

theorem stop_follows : (prog g .stop).Follows (Allows g) (Finished .stop) [] := by
  refine ⟨trivial, ?_⟩
  intro i₁ first
  cases first with
  | false => exact ⟨rfl, Or.inr ⟨i₁, List.mem_cons_self⟩⟩
  | true =>
    change (Prog.bind _ _).Follows _ _ _
    refine Follows.bind (Q := fun h r => r = .ok () ∧ Did .stopLeave h) ?_ ?_ ?_
    · refine ⟨trivial, ?_⟩
      intro i₂ u
      refine ⟨trivial, ?_⟩
      intro i₃ found
      have hcancel : Did .cancel [(⟨.registration, i₃, found⟩ : Ev serviceSig Inp),
          ⟨.cancel, i₂, u⟩, ⟨.stopEnter, i₁, true⟩] :=
        (did_cons .cancel).mono (List.suffix_cons _ _)
      cases found with
      | none =>
        refine shutDown_follows hcancel ?_
        intro reg hm
        cases hm
      | some reg =>
        refine (closeRegistration_follows List.mem_cons_self).bind ?_ ?_
        · rintro h _ hs ⟨howed, -, hclosed⟩
          refine shutDown_follows (hcancel.mono hs) ?_
          intro reg' hm
          rw [howed] at hm
          obtain rfl := List.mem_singleton.1 hm
          exact hclosed
        · intro _ e
          cases e
    · rintro h u - ⟨-, hleft⟩
      exact ⟨rfl, Or.inl hleft⟩
    · intro _ e
      cases e

end

/-- What `Start` and `Stop` do. -/
def protocol (g : Cfg) : Protocol (server g) where
  allows := fun _ => Allows g
  ends := Finished
  follows := by
    intro call
    cases call with
    | start => exact start_follows
    | stop => exact stop_follows

end Locache.Service
