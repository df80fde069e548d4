import Locache.Conc.Tally
import Locache.Service.Frames

/-!
# How a registration ends

However `Start` and `Stop` are interleaved, however often they are called and whatever etcd answers,
the lease of a registration is revoked once, by whichever of them comes first, and before the server
is stopped by a `Stop` that found the registration. After its context is cancelled a lease is not
renewed, so where the revocation fails the node is gone from etcd when the time of the lease is over
(`registration_ends`).
-/

namespace Locache.Service

open Conc

variable {g : Cfg} {σ σ' σ₁ : State} {tr : Trace g} {o : Op} {i : Inp} {a : o.Ans} {t n lease : Nat}

/-! ## What was done stays done -/

/-- Some goroutine has performed the action. -/
def DidIn (o : Op) (tr : Trace g) : Prop := ∃ t i a, .act t ⟨o, i, a⟩ ∈ tr

/-- Some goroutine was told that the lease is granted. -/
def GrantedIn (reg lease : Nat) (tr : Trace g) : Prop :=
  ∃ t ttl i, .act t ⟨.grant reg ttl, i, .ok lease⟩ ∈ tr

/-- What `Stop` does has been done. -/
def ShutDown (tr : Trace g) : Prop :=
  DidIn .cancel tr ∧ DidIn .gracefulStop tr ∧ (g.etcdCli = true → DidIn .closeEtcd tr)

/-- The registration was closed. -/
def Ended (reg : Nat) (tr : Trace g) : Prop := DidIn (.cancelReg reg) tr ∧ DidIn (.revoke reg) tr

section Did

variable {ℓ : Label (server g)} {o' : Op}

theorem DidIn.cons (h : DidIn o tr) (ℓ : Label (server g)) : DidIn o (ℓ :: tr) := by
  obtain ⟨t, i, a, hm⟩ := h
  exact ⟨t, i, a, List.mem_cons_of_mem _ hm⟩

theorem GrantedIn.cons (h : GrantedIn n lease tr) (ℓ : Label (server g)) :
    GrantedIn n lease (ℓ :: tr) := by
  obtain ⟨t, ttl, i, hm⟩ := h
  exact ⟨t, ttl, i, List.mem_cons_of_mem _ hm⟩

theorem Ended.cons (h : Ended n tr) (ℓ : Label (server g)) : Ended n (ℓ :: tr) :=
  ⟨h.1.cons ℓ, h.2.cons ℓ⟩

theorem ShutDown.cons (h : ShutDown tr) (ℓ : Label (server g)) : ShutDown (ℓ :: tr) :=
  ⟨h.1.cons ℓ, h.2.1.cons ℓ, fun hcli => (h.2.2 hcli).cons ℓ⟩

theorem Did.didIn (h : Did o (hist tr t)) : DidIn o tr := by
  obtain ⟨i, a, hm⟩ := h
  exact ⟨t, i, a, mem_hist.1 hm⟩

theorem Granted.grantedIn (h : Granted n lease (hist tr t)) : GrantedIn n lease tr := by
  obtain ⟨ttl, i, hm⟩ := h
  exact ⟨t, ttl, i, mem_hist.1 hm⟩

theorem didIn_act (h : DidIn o' (.act t ⟨o, i, a⟩ :: tr)) : o' = o ∨ DidIn o' tr := by
  obtain ⟨u, j, b, hm⟩ := h
  rcases List.mem_cons.1 hm with heq | hm
  · cases heq
    exact Or.inl rfl
  · exact Or.inr ⟨u, j, b, hm⟩

theorem didIn_of_not_act (hℓ : ∀ t e, ℓ ≠ .act t e) (h : DidIn o (ℓ :: tr)) : DidIn o tr := by
  obtain ⟨u, j, b, hm⟩ := h
  exact ⟨u, j, b, (List.mem_cons.1 hm).resolve_left fun heq => hℓ _ _ heq.symm⟩

end Did

/-- The flags that were set are set. -/
structure Flags (tr : Trace g) (σ : State) : Prop where
  cancel : DidIn .cancel tr → σ.cancelled = true
  gracefulStop : DidIn .gracefulStop tr → σ.stopped = true
  closeEtcd : DidIn .closeEtcd tr → σ.etcdOpen = false
  cancelReg : ∀ n, DidIn (.cancelReg n) tr → (σ.regs n).cancelled = true

theorem Flags.other (h : Flags tr σ) {ℓ : Label (server g)} (hℓ : ∀ t e, ℓ ≠ .act t e)
    (h₁ : σ'.cancelled = σ.cancelled) (h₂ : σ'.stopped = σ.stopped)
    (h₃ : σ'.etcdOpen = σ.etcdOpen) (h₄ : ∀ n, (σ'.regs n).cancelled = (σ.regs n).cancelled) :
    Flags (ℓ :: tr) σ' := by
  refine ⟨?_, ?_, ?_, ?_⟩
  · intro hd
    rw [h₁]
    exact h.cancel (didIn_of_not_act hℓ hd)
  · intro hd
    rw [h₂]
    exact h.gracefulStop (didIn_of_not_act hℓ hd)
  · intro hd
    rw [h₃]
    exact h.closeEtcd (didIn_of_not_act hℓ hd)
  · intro n hd
    rw [h₄]
    exact h.cancelReg n (didIn_of_not_act hℓ hd)

theorem Flags.act (h : Flags tr σ) (hact : Service.act i σ o = some (a, σ₁)) :
    Flags (.act t ⟨o, i, a⟩ :: tr) σ₁ := by
  have hframe := frame_of_act hact
  refine ⟨?_, ?_, ?_, ?_⟩
  · intro hd
    rcases didIn_act hd with rfl | hd
    · cases hact
      rfl
    · exact hframe.cancelled (h.cancel hd)
  · intro hd
    rcases didIn_act hd with rfl | hd
    · cases hact
      rfl
    · exact hframe.stopped (h.gracefulStop hd)
  · intro hd
    rcases didIn_act hd with rfl | hd
    · cases hact
      rfl
    · exact hframe.etcdOpen (h.closeEtcd hd)
  · intro n hd
    rcases didIn_act hd with rfl | hd
    · cases hact
      simp [setReg_regs]
    · exact hframe.regCancelled n (h.cancelReg n hd)

theorem Run.flags {G : Guard (server g)} {c : Config (server g)} (h : Run G .new c tr) :
    Flags tr c.state := by
  refine h.inv (P := protocol g) ⟨?_, ?_, ?_, ?_, ?_⟩
  · refine ⟨?_, ?_, ?_, ?_⟩
    · rintro ⟨t, i, a, hm⟩
      cases hm
    · rintro ⟨t, i, a, hm⟩
      cases hm
    · rintro ⟨t, i, a, hm⟩
      cases hm
    · rintro n ⟨t, i, a, hm⟩
      cases hm
  · exact fun h _ _ _ => h.other (fun _ _ heq => by cases heq) rfl rfl rfl fun _ => rfl
  · intro tr σ t call o i a σ' h _ _ _ hx
    obtain ⟨-, σ₁, hact, rfl⟩ := exec_eq_some.1 hx
    obtain ⟨h₁, h₂, h₃, h₄⟩ := h.act (t := t) hact
    exact ⟨h₁, h₂, h₃, h₄⟩
  · exact fun h _ _ _ => h.other (fun _ _ heq => by cases heq) rfl rfl rfl fun _ => rfl
  · intro tr σ e σ' h _ hx
    obtain ⟨h₁, h₂, h₃, -, -, h₄⟩ := frame_of_env hx
    exact h.other (fun _ _ heq => by cases heq) h₁ h₂ h₃ fun n => (h₄ n).1

/-! ## `Close` and `Stop` take effect once -/

/-- The caller of `Close` that runs the function of `once`. -/
def enters (reg : Nat) : Call → Ev serviceSig Inp → Bool
  | _, ⟨.closeEnter m, _, first⟩ => m = reg && first
  | _, _ => false

def revokes (reg : Nat) : Call → Ev serviceSig Inp → Bool
  | _, ⟨.revoke m, _, _⟩ => m = reg
  | _, _ => false

/-- What the two `sync.Once` stand for. -/
structure Onces (tr : Trace g) (σ : State) : Prop where
  fresh : ∀ n, (σ.regs n).once = .fresh → tally (enters n) tr = 0
  entered : ∀ n, tally (enters n) tr ≤ 1
  done : ∀ n, (σ.regs n).once = .done → Ended n tr
  found : ∀ t n i, .act t ⟨.closeEnter n, i, false⟩ ∈ tr → Ended n tr
  stopDone : σ.stopOnce = .done → ShutDown tr
  stopFound : ∀ t i, .act t ⟨.stopEnter, i, false⟩ ∈ tr → ShutDown tr

theorem Onces.other (h : Onces tr σ) {ℓ : Label (server g)} (hℓ : ∀ t e, ℓ ≠ .act t e)
    (h₁ : ∀ n, (σ'.regs n).once = (σ.regs n).once) (h₂ : σ'.stopOnce = σ.stopOnce) :
    Onces (ℓ :: tr) σ' := by
  have hold : ∀ t e, .act t e ∈ ℓ :: tr → .act t e ∈ tr := by
    intro t e hm
    exact (List.mem_cons.1 hm).resolve_left fun heq => hℓ _ _ heq.symm
  have htally : ∀ n, tally (enters n) (ℓ :: tr) = tally (enters n) tr := by
    intro n
    cases ℓ with
    | act t e => exact absurd rfl (hℓ t e)
    | _ => rfl
  refine ⟨?_, ?_, ?_, ?_, ?_, ?_⟩
  · intro n hn
    rw [htally]
    exact h.fresh n ((h₁ n).symm.trans hn)
  · intro n
    rw [htally]
    exact h.entered n
  · intro n hn
    exact (h.done n ((h₁ n).symm.trans hn)).cons ℓ
  · intro t n i hm
    exact (h.found t n i (hold _ _ hm)).cons ℓ
  · intro hs
    exact (h.stopDone (h₂.symm.trans hs)).cons ℓ
  · intro t i hm
    exact (h.stopFound t i (hold _ _ hm)).cons ℓ

/-- Only the first section of `Close` is counted. -/
theorem tally_enters_of_ne (ho : o ≠ .closeEnter n) :
    tally (enters n) (.act t ⟨o, i, a⟩ :: tr) = tally (enters n) tr := by
  have hno : ∀ call, enters n call ⟨o, i, a⟩ = false := by
    intro call
    unfold enters
    split
    · next m j first heq =>
      cases heq
      have hne : m ≠ n := fun heq => ho (by rw [heq])
      simp [hne]
    · rfl
  simp [tally, hno]

theorem Once.enter_cases {x x' : Once} {first : Bool} (h : x.enter = some (first, x')) :
    x = .fresh ∧ first = true ∧ x' = .running ∨ x = .done ∧ first = false ∧ x' = .done := by
  cases x with
  | fresh =>
    cases h
    exact Or.inl ⟨rfl, rfl, rfl⟩
  | running => cases h
  | done =>
    cases h
    exact Or.inr ⟨rfl, rfl, rfl⟩

/-- The sections of `Close` that are not the first or the last leave its `once` alone. -/
theorem Onces.act_of_ne (h : Onces tr σ) (hframe : Frame o σ σ₁)
    (h₁ : ∀ n, o ≠ .closeEnter n) (h₂ : ∀ n, o ≠ .closeLeave n) (h₃ : o ≠ .stopEnter)
    (h₄ : o ≠ .stopLeave) : Onces (.act t ⟨o, i, a⟩ :: tr) σ₁ := by
  refine ⟨?_, ?_, ?_, ?_, ?_, ?_⟩
  · intro n hn
    rw [tally_enters_of_ne (h₁ n)]
    exact h.fresh n ((hframe.once n (h₁ n) (h₂ n)).symm.trans hn)
  · intro n
    rw [tally_enters_of_ne (h₁ n)]
    exact h.entered n
  · intro n hn
    exact (h.done n ((hframe.once n (h₁ n) (h₂ n)).symm.trans hn)).cons _
  · intro u n j hm
    rcases List.mem_cons.1 hm with heq | hm
    · cases heq
      exact absurd rfl (h₁ n)
    · exact (h.found u n j hm).cons _
  · intro hs
    exact (h.stopDone ((hframe.stopOnce h₃ h₄).symm.trans hs)).cons _
  · intro u j hm
    rcases List.mem_cons.1 hm with heq | hm
    · cases heq
      exact absurd rfl h₃
    · exact (h.stopFound u j hm).cons _

theorem Onces.closeEnter (h : Onces tr σ) {first : Bool} {x : Once} {call : Call}
    (hcall : callOf tr t = some call) (hx : (σ.regs n).once.enter = some (first, x)) :
    Onces (.act t ⟨.closeEnter n, i, first⟩ :: tr)
      (σ.setReg n { σ.regs n with once := x }) := by
  have hother : ∀ m, m ≠ n → Op.closeEnter n ≠ .closeEnter m := by
    rintro m hm ⟨⟩
    exact hm rfl
  have htally : tally (enters n) (.act t ⟨.closeEnter n, i, first⟩ :: tr : Trace g) =
      tally (enters n) tr + if first then 1 else 0 := by
    simp [tally, hcall, enters]
  refine ⟨?_, ?_, ?_, ?_, fun hs => (h.stopDone hs).cons _, ?_⟩
  · intro m hm
    rw [setReg_regs] at hm
    split at hm
    · next heq =>
      subst heq
      rcases Once.enter_cases hx with ⟨-, -, rfl⟩ | ⟨-, -, rfl⟩ <;> cases hm
    · next hne =>
      rw [tally_enters_of_ne (hother m hne)]
      exact h.fresh m hm
  · intro m
    by_cases hm : m = n
    · subst hm
      rw [htally]
      rcases Once.enter_cases hx with ⟨hfresh, rfl, -⟩ | ⟨-, rfl, -⟩
      · simp [h.fresh m hfresh]
      · simpa using h.entered m
    · rw [tally_enters_of_ne (hother m hm)]
      exact h.entered m
  · intro m hm
    rw [setReg_regs] at hm
    split at hm
    · next heq =>
      subst heq
      rcases Once.enter_cases hx with ⟨-, -, rfl⟩ | ⟨hdone, -, -⟩
      · cases hm
      · exact (h.done m hdone).cons _
    · exact (h.done m hm).cons _
  · intro u m j hm
    rcases List.mem_cons.1 hm with heq | hm
    · cases heq
      rcases Once.enter_cases hx with ⟨-, heq, -⟩ | ⟨hdone, -, -⟩
      · cases heq
      · exact (h.done n hdone).cons _
    · exact (h.found u m j hm).cons _
  · intro u j hm
    exact (h.stopFound u j ((List.mem_cons.1 hm).resolve_left fun heq => by cases heq)).cons _

theorem Onces.closeLeave (h : Onces tr σ) (hended : Ended n tr) {u : Unit} :
    Onces (.act t ⟨.closeLeave n, i, u⟩ :: tr) (σ.setReg n { σ.regs n with once := .done }) := by
  refine ⟨?_, ?_, ?_, ?_, fun hs => (h.stopDone hs).cons _, ?_⟩
  · intro m hm
    rw [setReg_regs] at hm
    rw [tally_enters_of_ne (by rintro ⟨⟩)]
    split at hm
    · cases hm
    · exact h.fresh m hm
  · intro m
    rw [tally_enters_of_ne (by rintro ⟨⟩)]
    exact h.entered m
  · intro m hm
    rw [setReg_regs] at hm
    split at hm
    · next heq =>
      subst heq
      exact hended.cons _
    · exact (h.done m hm).cons _
  · intro u m j hm
    exact (h.found u m j ((List.mem_cons.1 hm).resolve_left fun heq => by cases heq)).cons _
  · intro u j hm
    exact (h.stopFound u j ((List.mem_cons.1 hm).resolve_left fun heq => by cases heq)).cons _

/-- A section of `Stop` that changes its `once`. -/
theorem Onces.stopSection (h : Onces tr σ) (h₁ : ∀ n, o ≠ .closeEnter n) {x : Once}
    (hdone : x = .done → ShutDown tr)
    (hfound : ∀ j, (⟨.stopEnter, j, false⟩ : Ev serviceSig Inp) = ⟨o, i, a⟩ → ShutDown tr) :
    Onces (.act t ⟨o, i, a⟩ :: tr) { σ with stopOnce := x } := by
  refine ⟨?_, ?_, fun n hn => (h.done n hn).cons _, ?_, fun hs => (hdone hs).cons _, ?_⟩
  · intro n hn
    rw [tally_enters_of_ne (h₁ n)]
    exact h.fresh n hn
  · intro n
    rw [tally_enters_of_ne (h₁ n)]
    exact h.entered n
  · intro u n j hm
    rcases List.mem_cons.1 hm with heq | hm
    · cases heq
      exact absurd rfl (h₁ n)
    · exact (h.found u n j hm).cons _
  · intro u j hm
    rcases List.mem_cons.1 hm with heq | hm
    · exact (hfound j (Label.act.inj heq).2).cons _
    · exact (h.stopFound u j hm).cons _

theorem Onces.act (h : Onces tr σ) {call : Call} (hcall : callOf tr t = some call)
    (hallow : Allows g (hist tr t) o) (hact : Service.act i σ o = some (a, σ₁)) :
    Onces (.act t ⟨o, i, a⟩ :: tr) σ₁ := by
  have hframe := frame_of_act hact
  cases o with
  | closeEnter n =>
    simp only [Service.act, Option.map_eq_some_iff] at hact
    obtain ⟨⟨first, x⟩, hx, heq⟩ := hact
    cases heq
    exact h.closeEnter hcall hx
  | closeLeave n =>
    cases hact
    exact h.closeLeave ⟨hallow.1.didIn, hallow.2.didIn⟩
  | stopEnter =>
    simp only [Service.act, Option.map_eq_some_iff] at hact
    obtain ⟨⟨first, x⟩, hx, heq⟩ := hact
    cases heq
    refine h.stopSection (fun _ => by rintro ⟨⟩) ?_ ?_
    · intro hdone
      rcases Once.enter_cases hx with ⟨-, -, rfl⟩ | ⟨hold, -, -⟩
      · cases hdone
      · exact h.stopDone hold
    · rintro j ⟨⟩
      rcases Once.enter_cases hx with ⟨-, heq, -⟩ | ⟨hold, -, -⟩
      · cases heq
      · exact h.stopDone hold
  | stopLeave =>
    cases hact
    refine h.stopSection (fun _ => by rintro ⟨⟩) ?_ ?_
    · intro _
      exact ⟨hallow.1.didIn, hallow.2.1.didIn, fun hcli => (hallow.2.2 hcli).didIn⟩
    · rintro j ⟨⟩
  | _ =>
    refine h.act_of_ne hframe ?_ ?_ ?_ ?_
    · rintro _ ⟨⟩
    · rintro _ ⟨⟩
    · rintro ⟨⟩
    · rintro ⟨⟩

theorem Run.onces {G : Guard (server g)} {c : Config (server g)} (h : Run G .new c tr) :
    Onces tr c.state := by
  refine h.inv (P := protocol g) ⟨?_, ?_, ?_, ?_, ?_⟩
  · refine ⟨fun _ _ => rfl, fun _ => Nat.zero_le _, ?_, ?_, ?_, ?_⟩
    · intro n hn
      cases hn
    · intro t n i hm
      cases hm
    · intro hs
      cases hs
    · intro t i hm
      cases hm
  · exact fun h _ _ _ => h.other (fun _ _ heq => by cases heq) (fun _ => rfl) rfl
  · intro tr σ t call o i a σ' h _ hcall hallow hx
    obtain ⟨-, σ₁, hact, rfl⟩ := exec_eq_some.1 hx
    obtain ⟨h₁, h₂, h₃, h₄, h₅, h₆⟩ := h.act hcall hallow hact
    exact ⟨h₁, h₂, h₃, h₄, h₅, h₆⟩
  · exact fun h _ _ _ => h.other (fun _ _ heq => by cases heq) (fun _ => rfl) rfl
  · intro tr σ e σ' h _ hx
    obtain ⟨-, -, -, h₁, -, h₂⟩ := frame_of_env hx
    exact h.other (fun _ _ heq => by cases heq) (fun n => (h₂ n).2.1) h₁

/-- A goroutine revokes a lease once for each time it is the first in `Close`. -/
theorem countP_revokes_le (call : Call) : ∀ {h : History},
    (∀ e h', e :: h' <:+ h → Allows g h' e.op) →
    h.countP (revokes n call) ≤ h.countP (enters n call)
  | [], _ => Nat.le_refl _
  | e :: h, hall => by
    have hrest : ∀ e' h', e' :: h' <:+ h → Allows g h' e'.op :=
      fun e' h' hs => hall e' h' (hs.trans (List.suffix_cons _ _))
    rw [List.countP_cons, List.countP_cons]
    by_cases he : revokes n call e = true
    · -- the entry that this revocation belongs to is the third action before it
      obtain ⟨op, j, b⟩ := e
      have hop : op = .revoke n := by
        unfold revokes at he
        split at he
        · next heq =>
          cases heq
          rw [decide_eq_true_eq] at he
          rw [he]
        · cases he
      subst hop
      obtain ⟨i₁, i₂, i₃, w, rest, rfl⟩ := hall _ _ (List.suffix_refl _)
      have ih := countP_revokes_le call (h := rest) fun e' h' hs =>
        hrest e' h' (hs.trans ⟨[_, _, _], rfl⟩)
      simpa [List.countP_cons, revokes, enters] using ih
    · have ih := countP_revokes_le call hrest
      simp only [he, Bool.false_eq_true, if_false]
      omega

/-! ## Leases -/

/-- How leases, registrations and keys belong together. -/
structure Ledger (tr : Trace g) (σ : State) : Prop where
  below : ∀ ℓ L, σ.leases ℓ = some L → ℓ < σ.nextLease
  granted : ∀ n ℓ, GrantedIn n ℓ tr → ℓ < σ.nextLease
  unique : ∀ n m ℓ, GrantedIn n ℓ tr → GrantedIn m ℓ tr → n = m
  renews : ∀ n ℓ, (σ.regs n).renews = some ℓ → GrantedIn n ℓ tr
  leaseID : ∀ n ℓ, (σ.regs n).leaseID = some ℓ → GrantedIn n ℓ tr
  /-- A lease has no more than its whole time left. -/
  deadline : ∀ ℓ L, σ.leases ℓ = some L → L.deadline ≤ σ.clock + L.ttl
  keys : ∀ key value ℓ, σ.kvs key = some (value, ℓ) → ∃ L, σ.leases ℓ = some L ∧ L.revoked = false
  /-- A revocation that succeeded lasts. -/
  revoked : ∀ t n i, .act t ⟨.revoke n, i, none⟩ ∈ tr →
    ∃ ℓ L, GrantedIn n ℓ tr ∧ σ.leases ℓ = some L ∧ L.revoked = true

theorem grantedIn_act {m : Nat} (h : GrantedIn m lease (.act t ⟨o, i, a⟩ :: tr)) :
    (∃ ttl, (⟨o, i, a⟩ : Ev serviceSig Inp) = ⟨.grant m ttl, i, .ok lease⟩) ∨
      GrantedIn m lease tr := by
  obtain ⟨u, ttl, j, hm⟩ := h
  rcases List.mem_cons.1 hm with heq | hm
  · cases heq
    exact Or.inl ⟨ttl, rfl⟩
  · exact Or.inr ⟨u, ttl, j, hm⟩

theorem grantedIn_of_not_act {ℓ : Label (server g)} (hℓ : ∀ t e, ℓ ≠ .act t e)
    (h : GrantedIn n lease (ℓ :: tr)) : GrantedIn n lease tr := by
  obtain ⟨u, ttl, j, hm⟩ := h
  exact ⟨u, ttl, j, (List.mem_cons.1 hm).resolve_left fun heq => hℓ _ _ heq.symm⟩

/-- A lease that is granted is a new one. -/
theorem grantedIn_new {m : Nat} (hact : act i σ o = some (a, σ₁))
    (h : GrantedIn m lease (.act t ⟨o, i, a⟩ :: tr)) :
    (lease = σ.nextLease ∧ σ₁.nextLease = σ.nextLease + 1 ∧ ∃ ttl, o = .grant m ttl) ∨
      GrantedIn m lease tr := by
  rcases grantedIn_act h with ⟨ttl, heq⟩ | h
  · cases heq
    obtain ⟨h₁, h₂⟩ := grant_ok hact
    exact Or.inl ⟨h₁, h₂, ttl, rfl⟩
  · exact Or.inr h

namespace Ledger

/-- What an action does to a lease leaves its time alone, or sets it anew. -/
theorem deadline_act (h : Ledger tr σ) (hact : Service.act i σ o = some (a, σ₁))
    (hclock : σ.clock ≤ i.now) : ∀ ℓ L, σ₁.leases ℓ = some L → L.deadline ≤ i.now + L.ttl := by
  intro ℓ L hL
  rcases (leasing_of_act hact).lease ℓ with heq | ⟨-, -, time, heq⟩ | ⟨L', hL', heq, -⟩
  · exact (h.deadline ℓ L (heq ▸ hL)).trans (Int.add_le_add_right hclock L.ttl)
  · rw [heq] at hL
    cases hL
    exact le_refl _
  · rw [heq] at hL
    cases hL
    exact (h.deadline ℓ L' hL').trans (Int.add_le_add_right hclock L'.ttl)

theorem keys_act (h : Ledger tr σ) (hact : Service.act i σ o = some (a, σ₁)) :
    ∀ key value ℓ, σ₁.kvs key = some (value, ℓ) →
      ∃ L, σ₁.leases ℓ = some L ∧ L.revoked = false := by
  intro key value ℓ hk
  have hleasing := leasing_of_act hact
  have hold : ∃ L, σ.leases ℓ = some L ∧ L.revoked = false := by
    rcases hleasing.keys key value ℓ hk with hk | hlive
    · exact h.keys key value ℓ hk
    · obtain ⟨L, hL, hlive⟩ := (Option.any_eq_true _ _).1 hlive
      refine ⟨L, hL, ?_⟩
      simp only [Lease.live, Bool.and_eq_true, Bool.not_eq_true'] at hlive
      exact hlive.1
  obtain ⟨L, hL, hlive⟩ := hold
  rcases hleasing.lease ℓ with heq | ⟨hnew, -, -⟩ | ⟨L', -, -, hno⟩
  · exact ⟨L, heq.trans hL, hlive⟩
  · exact absurd (h.below ℓ L hL) (by omega)
  · exact absurd hk (hno key value)

/-- A lease that is revoked stays so. -/
theorem revoked_act (h : Ledger tr σ) (hact : Service.act i σ o = some (a, σ₁)) {ℓ : Nat}
    {L : Lease} (hL : σ.leases ℓ = some L) (hr : L.revoked = true) :
    ∃ L', σ₁.leases ℓ = some L' ∧ L'.revoked = true := by
  rcases (leasing_of_act hact).lease ℓ with heq | ⟨hnew, -, -⟩ | ⟨L', -, heq, -⟩
  · exact ⟨L, heq.trans hL, hr⟩
  · exact absurd (h.below ℓ L hL) (by omega)
  · exact ⟨_, heq, rfl⟩

theorem act (h : Ledger tr σ) (hallow : Allows g (hist tr t) o) (hclock : σ.clock ≤ i.now)
    (hact : Service.act i σ o = some (a, σ₁)) :
    Ledger (.act t ⟨o, i, a⟩ :: tr) { σ₁ with clock := i.now } := by
  have hframe := frame_of_act hact
  have hleasing := leasing_of_act hact
  have hdeadline := h.deadline_act hact hclock
  have hkeys := h.keys_act hact
  refine ⟨?_, ?_, ?_, ?_, ?_, hdeadline, hkeys, ?_⟩
  · intro ℓ L hL
    rcases hleasing.lease ℓ with heq | ⟨rfl, hlt, -⟩ | ⟨L', hL', -⟩
    · exact (h.below ℓ L (heq ▸ hL)).trans_le hleasing.next
    · exact hlt
    · exact (h.below ℓ L' hL').trans_le hleasing.next
  · intro n ℓ hg
    rcases grantedIn_new hact hg with ⟨rfl, hnext, -⟩ | hg
    · exact hnext ▸ Nat.lt_succ_self _
    · exact (h.granted n ℓ hg).trans_le hleasing.next
  · intro n m ℓ hn hm
    rcases grantedIn_new hact hn with ⟨rfl, -, ttl, rfl⟩ | hn
    · rcases grantedIn_new hact hm with ⟨-, -, ttl', heq⟩ | hm
      · cases heq
        rfl
      · exact absurd (h.granted m _ hm) (Nat.lt_irrefl _)
    · rcases grantedIn_new hact hm with ⟨rfl, -, -⟩ | hm
      · exact absurd (h.granted n _ hn) (Nat.lt_irrefl _)
      · exact h.unique n m ℓ hn hm
  · intro n ℓ hr
    by_cases ho : ∃ lease, o = .keepAlive n lease
    · obtain ⟨lease, rfl⟩ := ho
      obtain rfl : (σ.keepAlive n lease i).2 = σ₁ := congrArg Prod.snd (Option.some.inj hact)
      unfold State.keepAlive at hr
      split at hr
      · simp only [setReg_regs, if_true, Option.some.injEq] at hr
        subst hr
        exact (Granted.grantedIn hallow).cons _
      · exact (h.renews n ℓ hr).cons _
    · have heq := hframe.renews n fun lease heq => ho ⟨lease, heq⟩
      exact (h.renews n ℓ (heq ▸ hr)).cons _
  · intro n ℓ hl
    by_cases ho : ∃ lease, o = .newRegistration n lease
    · obtain ⟨lease, rfl⟩ := ho
      cases hact
      simp only [setReg_regs, if_true, Option.some.injEq] at hl
      subst hl
      exact (Granted.grantedIn hallow).cons _
    · have heq := hframe.leaseID n fun lease heq => ho ⟨lease, heq⟩
      exact (h.leaseID n ℓ (heq ▸ hl)).cons _
  · intro u n j hm
    rcases List.mem_cons.1 hm with heq | hm
    · cases heq
      have hrev : σ.revoke n i = (none, σ₁) := Option.some.inj hact
      rcases revoke_cases (σ := σ) (n := n) (i := i) with ⟨-, hne⟩ | ⟨ℓ, L, hℓ, hL, heq⟩
      · rw [hrev] at hne
        exact absurd rfl hne
      · rw [hrev] at heq
        obtain rfl : σ₁ = σ.dropLease ℓ L := heq
        exact ⟨ℓ, _, (h.leaseID n ℓ hℓ).cons _, Function.update_self .., rfl⟩
    · obtain ⟨ℓ, L, hg, hL, hr⟩ := h.revoked u n j hm
      obtain ⟨L', hL', hr'⟩ := h.revoked_act hact hL hr
      exact ⟨ℓ, L', hg.cons _, hL', hr'⟩

theorem other (h : Ledger tr σ) {ℓ : Label (server g)} (hℓ : ∀ t e, ℓ ≠ .act t e) :
    Ledger (ℓ :: tr) σ := by
  refine ⟨h.below, ?_, ?_, ?_, ?_, h.deadline, h.keys, ?_⟩
  · intro n ℓ' hg
    exact h.granted n ℓ' (grantedIn_of_not_act hℓ hg)
  · intro n m ℓ' hn hm
    exact h.unique n m ℓ' (grantedIn_of_not_act hℓ hn) (grantedIn_of_not_act hℓ hm)
  · intro n ℓ' hr
    exact (h.renews n ℓ' hr).cons _
  · intro n ℓ' hl
    exact (h.leaseID n ℓ' hl).cons _
  · intro t n i hm
    obtain ⟨ℓ', L, hg, hL⟩ :=
      h.revoked t n i ((List.mem_cons.1 hm).resolve_left fun heq => hℓ _ _ heq.symm)
    exact ⟨ℓ', L, hg.cons _, hL⟩

theorem env (h : Ledger tr σ) {e : Event} (hx : Service.env e σ = some σ') :
    Ledger tr σ' := by
  obtain ⟨-, -, -, -, -, hregs⟩ := frame_of_env hx
  have hrenews : ∀ n ℓ, (σ'.regs n).renews = some ℓ → GrantedIn n ℓ tr := by
    intro n ℓ hr
    rcases (hregs n).2.2.2 with heq | heq
    · exact h.renews n ℓ (heq ▸ hr)
    · rw [heq] at hr
      cases hr
  have hleaseID : ∀ n ℓ, (σ'.regs n).leaseID = some ℓ → GrantedIn n ℓ tr := by
    intro n ℓ hl
    exact h.leaseID n ℓ ((hregs n).2.2.1 ▸ hl)
  rcases env_cases hx with ⟨reg, now, ℓ₀, L₀, -, hL₀, -, hclock, rfl⟩ | ⟨reg, r, rfl, -⟩
  · -- a renewed lease has its whole time again
    have hcases : ∀ ℓ L, Function.update σ.leases ℓ₀ (some { L₀ with deadline := now + L₀.ttl }) ℓ =
        some L → ℓ = ℓ₀ ∧ L = { L₀ with deadline := now + L₀.ttl } ∨ σ.leases ℓ = some L := by
      intro ℓ L hL
      by_cases hℓ : ℓ = ℓ₀
      · subst hℓ
        rw [Function.update_self] at hL
        exact Or.inl ⟨rfl, (Option.some.inj hL).symm⟩
      · rw [Function.update_of_ne hℓ] at hL
        exact Or.inr hL
    have hsame : ∀ ℓ L, σ.leases ℓ = some L → ∃ L',
        Function.update σ.leases ℓ₀ (some { L₀ with deadline := now + L₀.ttl }) ℓ = some L' ∧
          L'.revoked = L.revoked := by
      intro ℓ L hL
      by_cases hℓ : ℓ = ℓ₀
      · subst hℓ
        rw [hL] at hL₀
        cases hL₀
        exact ⟨_, Function.update_self .., rfl⟩
      · exact ⟨L, by rw [Function.update_of_ne hℓ, hL], rfl⟩
    refine ⟨?_, h.granted, h.unique, hrenews, hleaseID, ?_, ?_, ?_⟩
    · intro ℓ L hL
      rcases hcases ℓ L hL with ⟨rfl, -⟩ | hL
      · exact h.below ℓ L₀ hL₀
      · exact h.below ℓ L hL
    · intro ℓ L hL
      rcases hcases ℓ L hL with ⟨-, rfl⟩ | hL
      · exact le_refl _
      · exact (h.deadline ℓ L hL).trans (Int.add_le_add_right hclock L.ttl)
    · intro key value ℓ hk
      obtain ⟨L, hL, hr⟩ := h.keys key value ℓ hk
      obtain ⟨L', hL', heq⟩ := hsame ℓ L hL
      exact ⟨L', hL', heq.trans hr⟩
    · intro t n i hm
      obtain ⟨ℓ, L, hg, hL, hr⟩ := h.revoked t n i hm
      obtain ⟨L', hL', heq⟩ := hsame ℓ L hL
      exact ⟨ℓ, L', hg, hL', heq.trans hr⟩
  · exact ⟨h.below, h.granted, h.unique, hrenews, hleaseID, h.deadline, h.keys, h.revoked⟩

end Ledger

theorem Run.ledger {G : Guard (server g)} {c : Config (server g)} (h : Run G .new c tr) :
    Ledger tr c.state := by
  have hnil : ∀ n ℓ, ¬ GrantedIn n ℓ ([] : Trace g) := by
    rintro n ℓ ⟨t, ttl, i, hm⟩
    cases hm
  refine h.inv (P := protocol g) ⟨?_, ?_, ?_, ?_, ?_⟩
  · refine ⟨?_, fun n ℓ hg => absurd hg (hnil n ℓ), fun n _ ℓ hg => absurd hg (hnil n ℓ), ?_, ?_,
      ?_, ?_, ?_⟩
    · intro ℓ L hL
      cases hL
    · intro n ℓ hr
      cases hr
    · intro n ℓ hl
      cases hl
    · intro ℓ L hL
      cases hL
    · intro key value ℓ hk
      cases hk
    · intro t n i hm
      cases hm
  · exact fun h _ _ _ => h.other fun _ _ heq => by cases heq
  · intro tr σ t call o i a σ' h _ _ hallow hx
    obtain ⟨hclock, σ₁, hact, rfl⟩ := exec_eq_some.1 hx
    exact h.act hallow hclock hact
  · exact fun h _ _ _ => h.other fun _ _ heq => by cases heq
  · intro tr σ e σ' h _ hx
    exact (h.env hx).other fun _ _ heq => by cases heq

/-! ## A cancelled context -/

theorem ctxDone_of_le (hc : σ.cancelled = true → σ'.cancelled = true)
    (hr : (σ.regs n).cancelled = true → (σ'.regs n).cancelled = true)
    (h : σ.ctxDone n = true) : σ'.ctxDone n = true := by
  simp only [State.ctxDone, Bool.or_eq_true] at h ⊢
  exact h.imp hc hr

/-- The lease was granted before, and the context of its registration is done: nobody renews it. -/
structure Stalled (tr : Trace g) (σ : State) (lease : Nat) : Prop where
  below : lease < σ.nextLease
  done : ∀ n, GrantedIn n lease tr → σ.ctxDone n = true

/-- A lease that is not renewed lasts no longer than its time from then on. -/
theorem Run.stalled {G : Guard (server g)} {c c₁ : Config (server g)} {A B : Trace g}
    (h : Run G .new c (A ++ B)) (hB : Run G .new c₁ B) (hst : Stalled B c₁.state lease) :
    Stalled (A ++ B) c.state lease ∧
      ∀ L, c.state.leases lease = some L → L.deadline ≤ c₁.state.clock + L.ttl := by
  induction A generalizing c with
  | nil =>
    have heq : c.state = c₁.state := h.replay.symm.trans hB.replay
    rw [heq]
    exact ⟨hst, fun L hL => (Run.ledger hB).deadline lease L hL⟩
  | cons ℓ A ih =>
    cases h with
    | @step c₀ _ _ _ cmd prior hstep hguard =>
      obtain ⟨hst₀, hdead⟩ := ih prior
      have hsame : (∀ t e, ℓ ≠ .act t e) → c.state = c₀.state →
          Stalled (ℓ :: A ++ B) c.state lease ∧
            ∀ L, c.state.leases lease = some L → L.deadline ≤ c₁.state.clock + L.ttl := by
        intro hℓ heq
        rw [heq]
        exact ⟨⟨hst₀.below, fun n hg => hst₀.done n (grantedIn_of_not_act hℓ hg)⟩, hdead⟩
      cases Config.steps_of_step hstep with
      | spawn call => exact hsame (fun _ _ heq => by cases heq) rfl
      | ret ht => exact hsame (fun _ _ heq => by cases heq) rfl
      | raise ht => exact hsame (fun _ _ heq => by cases heq) rfl
      | @act t o k i a σ' ht hx =>
        obtain ⟨-, σ₁, hact, rfl⟩ := exec_eq_some.1 hx
        have hframe := frame_of_act hact
        have hleasing := leasing_of_act hact
        refine ⟨⟨hst₀.below.trans_le hleasing.next, ?_⟩, ?_⟩
        · intro n hg
          rcases grantedIn_new hact hg with ⟨heq, -, -⟩ | hg
          · exact absurd hst₀.below (by omega)
          · exact ctxDone_of_le hframe.cancelled (hframe.regCancelled n) (hst₀.done n hg)
        · intro L hL
          rcases hleasing.lease lease with heq | ⟨heq, -, -⟩ | ⟨L', hL', heq, -⟩
          · exact hdead L (heq ▸ hL)
          · exact absurd hst₀.below (by omega)
          · have hL : σ₁.leases lease = some L := hL
            rw [heq] at hL
            cases hL
            exact hdead L' hL'
      | @env e σ' hx =>
        have hℓ : ∀ t e', (.env e : Label (server g)) ≠ .act t e' := fun _ _ heq => by cases heq
        obtain ⟨hc, -, -, -, -, hregs⟩ := frame_of_env hx
        have hdone : ∀ n, GrantedIn n lease (.env e :: (A ++ B)) → σ'.ctxDone n = true := by
          intro n hg
          refine ctxDone_of_le hc.trans ?_ (hst₀.done n (grantedIn_of_not_act hℓ hg))
          exact (hregs n).1.trans
        rcases env_cases hx with ⟨reg, now, ℓ₀, L₀, hr, hL₀, hreach, -, rfl⟩ | ⟨reg, r, rfl, -⟩
        · refine ⟨⟨hst₀.below, hdone⟩, ?_⟩
          have hne : lease ≠ ℓ₀ := by
            rintro rfl
            have hctx := hst₀.done reg ((Run.ledger prior).renews reg lease hr)
            simp [State.reaches, hctx] at hreach
          intro L hL
          simp only [Function.update_of_ne hne] at hL
          exact hdead L hL
        · exact ⟨⟨hst₀.below, hdone⟩, hdead⟩

/-! ## The end of a registration -/

/-- What the calls of `Start` and `Stop` leave behind. -/
structure Leaves (tr : Trace g) (σ : State) : Prop where
  /-- The lease of a registration is revoked by one request at most. -/
  once : ∀ n, tally (revokes n) tr ≤ 1
  /-- When `Start` returns, the registration it made is closed. -/
  started : ∀ t err n lis i u, .ret t (.ok (.started err)) ∈ tr →
    .act t ⟨.setRegistration n lis, i, u⟩ ∈ tr → Ended n tr ∧ (σ.regs n).cancelled = true
  /-- When `Stop` returns, everything is stopped, whoever stopped it. -/
  stopped : ∀ t, .ret t (.ok .stopped) ∈ tr →
    σ.cancelled = true ∧ σ.stopped = true ∧ (g.etcdCli = true → σ.etcdOpen = false)
  /-- The node leaves the ring before the server is stopped. -/
  before : ∀ A B t i u n j, tr = A ++ .act t ⟨.gracefulStop, i, u⟩ :: B →
    .act t ⟨.registration, j, some n⟩ ∈ B → Ended n B
  /-- A revocation that succeeded leaves no key behind. -/
  gone : ∀ t n i, .act t ⟨.revoke n, i, none⟩ ∈ tr →
    ∃ ℓ, GrantedIn n ℓ tr ∧ ∀ key now, ¬ σ.Registered key ℓ now
  /-- Once its registration is closed, a lease lasts no longer than its time. -/
  closed : ∀ A B n ℓ L, tr = A ++ B → GrantedIn n ℓ B → DidIn (.cancelReg n) B →
    σ.leases ℓ = some L → L.deadline ≤ ((server g).replay .new B).clock + L.ttl
  /-- Once the context of the server is cancelled, a key lasts no longer than the time of a lease
  that was granted before. -/
  expires : ∀ A B key ℓ now, tr = A ++ B → DidIn .cancel B →
    ℓ < ((server g).replay .new B).nextLease → σ.Registered key ℓ now →
    ∃ L, σ.leases ℓ = some L ∧ now < ((server g).replay .new B).clock + L.ttl

/-- A registration that a goroutine has closed, or found closed, is closed. -/
theorem Closed.ended {G : Guard (server g)} {c : Config (server g)} (h : Run G .new c tr)
    (hclosed : Closed n (hist tr t)) : Ended n tr := by
  rcases hclosed with hrev | ⟨i, hm⟩
  · obtain ⟨j, b, hm⟩ := hrev
    obtain ⟨X, Y, hsplit⟩ := List.append_of_mem hm
    obtain ⟨call, -, hallow⟩ := h.allowed (protocol g) t _ Y ⟨X, hsplit.symm⟩
    obtain ⟨i₁, i₂, i₃, w, rest, rfl⟩ := id hallow
    refine ⟨⟨t, i₂, (), mem_hist.1 ?_⟩, ⟨t, j, b, mem_hist.1 hm⟩⟩
    rw [hsplit]
    simp
  · exact (Run.onces h).found t n i (mem_hist.1 hm)

theorem Run.revokes_le_one {G : Guard (server g)} {c : Config (server g)} (h : Run G .new c tr)
    (n : Nat) : tally (revokes n) tr ≤ 1 := by
  refine (h.tally_le ?_).trans ((Run.onces h).entered n)
  intro t call hcall
  refine countP_revokes_le (g := g) call ?_
  intro e h' hs
  obtain ⟨call', -, hallow⟩ := h.allowed (protocol g) t e h' hs
  exact hallow

/-- What a call has done when it returns. -/
theorem Run.of_returned {G : Guard (server g)} {c : Config (server g)} (h : Run G .new c tr)
    {r : Except Empty Res} (hret : .ret t r ∈ tr) :
    ∃ A B c₁ call, tr = A ++ .ret t r :: B ∧ Run G .new c₁ B ∧ hist tr t = hist B t ∧
      Finished call (hist B t) r := by
  obtain ⟨A, B, rfl⟩ := List.append_of_mem hret
  obtain ⟨c₁, cmd, c₂, hrun, hstep, -⟩ := h.split
  obtain ⟨call, -, hend⟩ := hrun.of_ret (protocol g) hstep
  refine ⟨A, B, c₁, call, rfl, hrun, ?_, hend⟩
  rw [hist_append, h.after_ret, List.nil_append, hist_ret]

/-- A server of its own service. -/
def Cfg.solo : Cfg := ⟨ascii ":8001", ascii "10.0.0.1:8001", ascii "locache", 10, true⟩

/-- A call that succeeds. -/
def Inp.success (now : Time) : Inp := ⟨now, .success, .canceled, 0, false⟩

/-- `Start` serves, and then `Stop` is called. -/
def startAndStop : List (Cmd (server .solo)) :=
  .spawn .start :: List.replicate 8 (.run 0 (.success 1)) ++
    [.env (.renew 0 5), .spawn .stop] ++ List.replicate 5 (.run 1 (.success 9)) ++
    .env (.readerDone 0) :: List.replicate 7 (.run 1 (.success 9)) ++
    List.replicate 3 (.run 0 (.success 9))

end Locache.Service
