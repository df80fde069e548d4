import Locache.Group.Attempts
import Locache.Group.Membership

/-!
# The epoch of the main cache

`prepareLocalOwner` reads the epoch with `PickOwner` and takes `ownerEpochMu` only then; under the
lock it compares the epoch it read with the recorded one for inequality. Two calls may take the lock
in the opposite order of their reads: the later one then sets the recorded epoch back and clears
what was stored under the newer one. As long as no call comes after one that read a newer epoch, the
recorded epoch only grows, and the main cache is cleared once for each epoch at most
(`epochs_kept_iff`, which also says that every overtaken call breaks this).
-/

namespace Locache

open Conc Prog

variable {g : Cfg} {tr : Trace g} {σ σ' σ₀ : State} {t e : Nat} {key : GoString} {value : Bytes}
  {h : History}

/-- The section of `prepareLocalOwner` with the epoch `e` clears the main cache. -/
def Group.clearsAt (e : Nat) (σ : State) : Bool := σ.ownerEpoch ≠ 0 && σ.ownerEpoch ≠ e

theorem Group.checkOwnerEpoch_eq (e : Nat) (order : List GoString) (σ : State) :
    Group.checkOwnerEpoch e order σ =
      { σ with
        main := if Group.clearsAt e σ then σ.main.clear order else σ.main
        ownerEpoch := e } := by
  unfold Group.checkOwnerEpoch Group.clearsAt
  by_cases h0 : σ.ownerEpoch = 0
  · simp [h0]
  · by_cases he : σ.ownerEpoch = e
    · subst he
      simp
    · simp [h0, he]

/-- The number of times `prepareLocalOwner` cleared the main cache for the epoch `e` in a run from
`σ₀`. -/
def clears (σ₀ : State) (e : Nat) : Trace g → Nat
  | [] => 0
  | .act _ ⟨.ownerEpoch e', _, _⟩ :: tr =>
    clears σ₀ e tr + if e' = e ∧ Group.clearsAt e ((node g).replay σ₀ tr) = true then 1 else 0
  | _ :: tr => clears σ₀ e tr

/-- A call that observed an epoch after `e` has already been in the section. -/
def Overtaken (tr : Trace g) (e : Nat) : Prop :=
  ∃ t i e', .act t ⟨.ownerEpoch e', i, ()⟩ ∈ tr ∧ e < e'

/-- Nobody was in the section after a call that observed a newer epoch. -/
def InTurn (tr : Trace g) : Prop :=
  ∀ A B t e i, tr = A ++ .act t ⟨.ownerEpoch e, i, ()⟩ :: B → ¬ Overtaken B e

/-- The picker's epochs only grow. -/
def Growing : Guard (node g) := fun _ σ ℓ _ =>
  ∀ T, ℓ = .env (.membership T) → σ.topology.epoch < T.epoch

/-- What is expected of the epoch of the main cache in a run from `σ₀`. -/
structure EpochsKept (σ₀ : State) (tr : Trace g) : Prop where
  grows : ∀ A B C, tr = A ++ (B ++ C) →
    ((node g).replay σ₀ C).ownerEpoch ≤ ((node g).replay σ₀ (B ++ C)).ownerEpoch
  once : ∀ e, clears σ₀ e tr ≤ 1
  /-- What a write stored is wiped only for an epoch after the one the write observed. -/
  stored : ∀ A B C t u s key value i j e e',
    tr = A ++ .act u ⟨.ownerEpoch e', j, ()⟩ ::
      (B ++ .act t ⟨.setSection s key value, i, ()⟩ :: C) →
    (locOf C t).epoch = some e →
    Group.clearsAt e' ((node g).replay σ₀
      (B ++ .act t ⟨.setSection s key value, i, ()⟩ :: C)) = true → e < e'

/-! ## The recorded epoch -/

/-- The epoch of the last section. -/
def lastEpoch : Trace g → Nat
  | [] => 0
  | .act _ ⟨.ownerEpoch e, _, _⟩ :: _ => e
  | _ :: tr => lastEpoch tr

theorem ownerEpoch_eq_last {G : Guard (node g)} (h0 : σ₀.ownerEpoch = 0) {c : Config (node g)}
    (h : Run G σ₀ c tr) : c.state.ownerEpoch = lastEpoch tr := by
  refine h.inv (P := protocol g) (I := fun tr σ => σ.ownerEpoch = lastEpoch tr)
    ⟨h0, fun hI _ _ _ => hI, ?_, fun hI _ _ _ => hI, ?_⟩
  · intro tr σ t call o i a σ' hI _ _ _ hx
    cases o with
    | ownerEpoch e =>
      obtain ⟨-, σ₁, hact, rfl⟩ := exec_eq_some.1 hx
      cases hact
      rw [Group.checkOwnerEpoch_eq]
      rfl
    | _ => exact ((exec_frame hx).epoch rfl).trans hI
  · intro tr σ ev σ' hI _ hx
    exact (env_frame hx).epoch.trans hI

/-- The recorded epoch is that of a section. -/
theorem lastEpoch_mem (tr : Trace g) :
    lastEpoch tr = 0 ∨ ∃ t i, .act t ⟨.ownerEpoch (lastEpoch tr), i, ()⟩ ∈ tr := by
  induction tr with
  | nil => exact Or.inl rfl
  | cons ℓ tr ih =>
    have hold : lastEpoch (ℓ :: tr) = lastEpoch tr → lastEpoch (ℓ :: tr) = 0 ∨
        ∃ t i, .act t ⟨.ownerEpoch (lastEpoch (ℓ :: tr)), i, ()⟩ ∈ ℓ :: tr := by
      intro heq
      rw [heq]
      exact ih.imp_right fun ⟨t, i, hm⟩ => ⟨t, i, List.mem_cons_of_mem _ hm⟩
    cases ℓ with
    | act t ev =>
      obtain ⟨o, i, a⟩ := ev
      cases o with
      | ownerEpoch e => exact Or.inr ⟨t, i, List.mem_cons_self⟩
      | _ => exact hold rfl
    | _ => exact hold rfl

theorem lastEpoch_le (hturn : ¬ Overtaken tr e) : lastEpoch tr ≤ e := by
  rcases lastEpoch_mem tr with h0 | ⟨t, i, hm⟩
  · rw [h0]
    exact Nat.zero_le e
  · by_contra hlt
    exact hturn ⟨t, i, lastEpoch tr, hm, Nat.lt_of_not_le hlt⟩

theorem InTurn.suffix {A : Trace g} (h : InTurn (A ++ tr)) : InTurn tr := by
  rintro A' B t e i rfl
  exact h (A ++ A') B t e i (List.append_assoc A A' _).symm

/-- In turn, the recorded epoch only grows. -/
theorem lastEpoch_mono {A : Trace g} (h : InTurn (A ++ tr)) :
    lastEpoch tr ≤ lastEpoch (A ++ tr) := by
  induction A with
  | nil => exact Nat.le_refl _
  | cons ℓ A ih =>
    have hprev := ih (h.suffix (A := [ℓ]))
    cases ℓ with
    | act t ev =>
      obtain ⟨o, i, a⟩ := ev
      cases o with
      | ownerEpoch e => exact hprev.trans (lastEpoch_le (h [] (A ++ tr) t e i rfl))
      | _ => exact hprev
    | _ => exact hprev

/-- In turn, the recorded epoch is the newest. -/
theorem le_lastEpoch {i : Inp} (h : InTurn tr) (hm : .act t ⟨.ownerEpoch e, i, ()⟩ ∈ tr) :
    e ≤ lastEpoch tr := by
  obtain ⟨A, B, rfl⟩ := List.append_of_mem hm
  exact lastEpoch_mono h

/-- `InTurn`, read off the recorded epochs. -/
def orderly : Trace g → Bool
  | [] => true
  | .act _ ⟨.ownerEpoch e, _, _⟩ :: tr => decide (lastEpoch tr ≤ e) && orderly tr
  | _ :: tr => orderly tr

theorem inTurn_of_orderly (h : orderly tr = true) : InTurn tr := by
  induction tr with
  | nil =>
    rintro A B t e i htr
    cases A <;> cases htr
  | cons ℓ tr ih =>
    have hrest : orderly tr = true := by
      cases ℓ with
      | act t ev =>
        obtain ⟨o, i, a⟩ := ev
        cases o with
        | ownerEpoch e => exact (Bool.and_eq_true _ _ ▸ h).2
        | _ => exact h
      | _ => exact h
    rintro A B t e i htr
    cases A with
    | cons ℓ' A =>
      cases htr
      exact ih hrest A B t e i rfl
    | nil =>
      cases htr
      have hle : lastEpoch tr ≤ e := of_decide_eq_true (Bool.and_eq_true _ _ ▸ h).1
      rintro ⟨u, j, e', hm, hlt⟩
      exact absurd ((le_lastEpoch (ih hrest) hm).trans hle) (Nat.not_le.2 hlt)

theorem replay_ownerEpoch {G : Guard (node g)} (h0 : σ₀.ownerEpoch = 0) {A : Trace g}
    {c : Config (node g)} (h : Run G σ₀ c (A ++ tr)) :
    ((node g).replay σ₀ tr).ownerEpoch = lastEpoch tr := by
  obtain ⟨c', h'⟩ := h.suffix
  rw [h'.replay]
  exact ownerEpoch_eq_last h0 h'

/-- A call that is not overtaken clears for an epoch newer than the recorded one. -/
theorem lastEpoch_lt_of_clears {G : Guard (node g)} (h0 : σ₀.ownerEpoch = 0) {A : Trace g}
    {c : Config (node g)} (h : Run G σ₀ c (A ++ tr)) (hturn : ¬ Overtaken tr e)
    (hclears : Group.clearsAt e ((node g).replay σ₀ tr) = true) : lastEpoch tr < e := by
  simp only [Group.clearsAt, replay_ownerEpoch h0 h, ne_eq, decide_not, Bool.and_eq_true,
    Bool.not_eq_eq_eq_not, Bool.not_true, decide_eq_false_iff_not] at hclears
  exact Nat.lt_of_le_of_ne (lastEpoch_le hturn) hclears.2

/-- In turn, the main cache is cleared once for each epoch, and the epoch is recorded then. -/
theorem clears_le {G : Guard (node g)} (h0 : σ₀.ownerEpoch = 0) {c : Config (node g)}
    (h : Run G σ₀ c tr) (hturn : InTurn tr) (e : Nat) :
    clears σ₀ e tr ≤ 1 ∧ (clears σ₀ e tr = 1 → e ≤ lastEpoch tr) := by
  induction h with
  | start => exact ⟨Nat.zero_le 1, fun h => by cases h⟩
  | @step c₁ c₂ tr ℓ cmd prior hstep hguard ih =>
    have hrun : Run G σ₀ c₂ ([ℓ] ++ tr) := .step cmd prior hstep hguard
    obtain ⟨hle, hone⟩ := ih (hturn.suffix (A := [ℓ]))
    cases ℓ with
    | act t ev =>
      obtain ⟨o, i, a⟩ := ev
      cases o with
      | ownerEpoch e' =>
        have hnot : ¬ Overtaken tr e' := hturn [] tr t e' i rfl
        unfold clears
        split
        · next hc =>
          obtain ⟨rfl, hclears⟩ := hc
          have hlt := lastEpoch_lt_of_clears h0 hrun hnot hclears
          have hzero : clears σ₀ e' tr ≠ 1 := fun h1 => absurd (hone h1) (Nat.not_le.2 hlt)
          exact ⟨by omega, fun _ => Nat.le_refl e'⟩
        · exact ⟨hle, fun h1 => (hone h1).trans (lastEpoch_le hnot)⟩
      | _ => exact ⟨hle, hone⟩
    | _ => exact ⟨hle, hone⟩

/-! ## The section of a write -/

/-- The epoch the last check observed has been recorded. -/
def Noted (h : History) : Prop :=
  ∀ e, (loc h).epoch = some e → ∃ i, (⟨.ownerEpoch e, i, ()⟩ : Ev groupSig Inp) ∈ h

/-- A write stores only after the section of its check. -/
def StoresNoted (h : History) (o : Op) : Prop := ∀ s k v, o = .setSection s k v → Noted h

theorem prepareLocalOwner_noted (hp : g.peers = true) :
    (Group.prepareLocalOwner g key).Follows StoresNoted
      (fun h' r => ∀ e, r = .ok (.ok e) → Noted h') h := by
  unfold Group.prepareLocalOwner
  rw [hp]
  refine Follows.op_bind (fun _ _ _ ho => by cases ho) fun i p => ?_
  split
  · exact fun e hr => by cases hr
  split
  · exact fun e hr => by cases hr
  refine Follows.op_bind (fun _ _ _ ho => by cases ho) fun j _ => ?_
  rintro e - e' he'
  cases he'
  exact ⟨j, List.mem_cons_self⟩

theorem setLocal_noted (hp : g.peers = true) : (Group.setLocal g key value).Keeps StoresNoted := by
  intro h
  refine Follows.op_bind (fun _ _ _ ho => by cases ho) fun i closed => ?_
  split
  · trivial
  refine Follows.bind (prepareLocalOwner_noted hp) ?_ fun _ _ _ _ => trivial
  intro h₁ r _ hr
  rw [hp]
  cases r with
  | error err => trivial
  | ok epoch =>
    have hnoted := hr epoch rfl
    refine Follows.op_bind (fun _ _ _ ho => by cases ho) fun j s => ?_
    refine Follows.op_bind ?_ fun k _ => ?_
    · intro s' k' v' _ e he
      obtain ⟨l, hm⟩ := hnoted e he
      exact ⟨l, List.mem_cons_of_mem _ hm⟩
    refine Follows.bind (invalidateNearKey_follows (fun _ _ _ _ ho => by cases ho)
      fun _ _ _ _ _ ho => by cases ho) ?_ fun _ _ _ _ => trivial
    intro h₂ _ _ _
    exact Follows.op_bind (fun _ _ _ ho => by cases ho) fun _ _ => trivial

theorem Follows.noted_of_aftermath {α : Type} {p : GoProg α} {Q : History → Except Panic α → Prop}
    (hp : p.Follows Aftermath Q h) : p.Follows StoresNoted (fun _ _ => True) h := by
  refine hp.mono (fun _ o _ ho => ?_) fun _ _ _ _ => trivial
  rintro s k v rfl
  cases ho

theorem Client.set_noted (c : Option Client) :
    (Client.set c g.name key value).Keeps StoresNoted := by
  intro h
  cases c with
  | none => trivial
  | some c =>
    refine Follows.op_bind (fun _ _ _ ho => by cases ho) fun i id => ?_
    refine Follows.op_bind (fun _ _ _ ho => by cases ho) fun j reply => ?_
    cases reply <;> trivial

theorem setAttempts_noted (hp : g.peers = true) (left : Nat) (owner : GoString) :
    (Group.setAttempts g key value left owner).Keeps StoresNoted := by
  have hfinish : ∀ owner epoch, (Group.finishSet g key value owner epoch).Keeps StoresNoted :=
    fun owner epoch _ => Follows.noted_of_aftermath (finishSet_aftermath owner epoch)
  induction left generalizing owner with
  | zero => exact hfinish owner 0
  | succ left ih =>
    refine Keeps.op_bind (fun _ _ _ _ ho => by cases ho) fun p => ?_
    split
    · exact .ret _
    split
    · refine Keeps.bind (setLocal_noted hp) fun r => ?_
      cases r with
      | none => exact checkOwner_keeps (fun _ _ _ _ ho => by cases ho) (hfinish _ _) (ih _)
      | some err =>
        change (if _ then _ else _ : GoProg (Option Err)).Keeps _
        split
        · exact ih _
        · exact .ret _
    split
    · exact .ret _
    next c _ =>
    refine Keeps.bind (Client.set_noted c) fun r => ?_
    cases r with
    | none => exact checkOwner_keeps (fun _ _ _ _ ho => by cases ho) (hfinish _ _) (ih _)
    | some err =>
      refine retry_keeps (fun _ _ _ _ ho => by cases ho) fun waited => ?_
      cases waited with
      | some waitErr => exact .ret _
      | none => exact ih _

theorem set_noted (hp : g.peers = true) : (Group.set g key value).Keeps StoresNoted := by
  refine Keeps.op_bind (fun _ _ _ _ ho => by cases ho) fun closed => ?_
  split
  · exact .ret _
  split
  · exact .ret _
  split
  · exact .ret _
  rw [hp]
  exact setAttempts_noted hp 4 []

theorem server_set_noted (hp : g.peers = true) (group : GoString) :
    (Server.set g group key value).Keeps StoresNoted := by
  refine Keeps.op_bind (fun _ _ _ _ ho => by cases ho) fun registered => ?_
  split
  · refine Keeps.bind (setLocal_noted hp) fun r => ?_
    cases r <;> exact .ret _
  · exact .ret _

/-- `StoresNoted`, of the calls that write. -/
def WritesNoted (call : Call) (h : History) (o : Op) : Prop :=
  ∀ s k v, o = .setSection s k v → call.Writes k v → Noted h

/-- What a write of this node has done when it stores. -/
def notedProtocol (hp : g.peers = true) : Protocol (node g) where
  allows := WritesNoted
  ends := fun _ _ _ => True
  follows := fun call => by
    have hwrites : ∀ {p : GoProg Res}, p.Keeps StoresNoted →
        p.Follows (WritesNoted call) (fun _ _ => True) [] :=
      fun hp => (hp []).mono (fun _ _ _ hJ s k v ho _ => hJ s k v ho) fun _ _ _ _ => trivial
    cases call with
    | set key value => exact hwrites (.bind (set_noted hp) fun _ => .ret _)
    | serve src req =>
      cases req with
      | set group key value => exact hwrites (.bind (server_set_noted hp group) fun _ => .ret _)
      | _ =>
        exact (Follows.of_end fun _ _ _ => trivial).mono
          (fun _ _ _ _ _ _ _ _ hw => hw.elim) fun _ _ _ _ => trivial
    | _ =>
      exact (Follows.of_end fun _ _ _ => trivial).mono
        (fun _ _ _ _ _ _ _ _ hw => hw.elim) fun _ _ _ _ => trivial

/-- A write that observed an epoch stores after the section of its check. -/
theorem noted_of_store (hp : g.peers = true) {G : Guard (node g)} {c : Config (node g)}
    {A C : Trace g} {s : Nat} {i : Inp} (h : Run G σ₀ c tr)
    (htr : tr = A ++ .act t ⟨.setSection s key value, i, ()⟩ :: C)
    (he : (locOf C t).epoch = some e) : ∃ j, .act t ⟨.ownerEpoch e, j, ()⟩ ∈ C := by
  subst htr
  obtain ⟨c₁, cmd, c₂, hrun, hstep, -⟩ := h.split
  obtain ⟨call, hcall, hallow, -⟩ := hrun.of_act (protocol g) hstep
  obtain ⟨call', hcall', hnoted, -⟩ := hrun.of_act (notedProtocol hp) hstep
  cases hcall.symm.trans hcall'
  obtain ⟨j, hm⟩ := hnoted s key value rfl hallow.1 e he
  exact ⟨j, mem_hist.1 hm⟩

/-! ## The recorded epoch over whole runs -/

theorem InTurn.kept (hp : g.peers = true) {G : Guard (node g)} (h0 : σ₀.ownerEpoch = 0)
    {c : Config (node g)} (h : Run G σ₀ c tr) (hturn : InTurn tr) : EpochsKept σ₀ tr where
  grows := by
    rintro A B C rfl
    rw [replay_ownerEpoch h0 h, replay_ownerEpoch (A := A ++ B) h0 (by simpa using h)]
    exact lastEpoch_mono hturn.suffix
  once := fun e => (clears_le h0 h hturn e).1
  stored := by
    rintro A B C t u s key value i j e e' rfl he hclears
    have hrun : Run G σ₀ c ((A ++ [.act u ⟨.ownerEpoch e', j, ()⟩]) ++
        (B ++ .act t ⟨.setSection s key value, i, ()⟩ :: C)) := by
      simpa using h
    obtain ⟨k, hm⟩ := noted_of_store hp hrun (List.append_assoc _ B _).symm he
    have hle : e ≤ lastEpoch (B ++ .act t ⟨.setSection s key value, i, ()⟩ :: C) := by
      refine le_lastEpoch (t := t) (i := k) ?_ (by simp [hm])
      exact (hturn.suffix (A := A)).suffix (A := [_])
    exact hle.trans_lt (lastEpoch_lt_of_clears h0 hrun (hturn A _ u e' j rfl) hclears)

/-- **The recorded epoch never decreases, and the main cache is cleared once for each epoch at most,
exactly in the runs in which no section comes after one of a newer epoch.** In such a run no clear
wipes what a write of the same or a newer epoch stored. -/
theorem epochs_kept_iff (hp : g.peers = true) (h₀ : σ₀.Fresh) {c : Config (node g)}
    (h : Run Growing σ₀ c tr) : EpochsKept σ₀ tr ↔ InTurn tr := by
  refine ⟨?_, InTurn.kept hp h₀.ownerEpoch h⟩
  rintro hkept A B t e i rfl ⟨u, j, e', hm, hlt⟩
  obtain ⟨X, Y, rfl⟩ := List.append_of_mem hm
  -- between the two sections the recorded epoch falls from `e'` to `e`
  have hle := hkept.grows A (.act t ⟨.ownerEpoch e, i, ()⟩ :: X)
    (.act u ⟨.ownerEpoch e', j, ()⟩ :: Y) rfl
  rw [List.cons_append, replay_ownerEpoch (A := A) h₀.ownerEpoch h,
    replay_ownerEpoch (A := A ++ .act t ⟨.ownerEpoch e, i, ()⟩ :: X) h₀.ownerEpoch
      (by simpa using h)] at hle
  exact absurd hle (Nat.not_le.2 hlt)

/-- A step at which no epoch shrinks. -/
def growingStep (_ : Trace g) (σ : State) : Label (node g) → Bool
  | .env (.membership T) => σ.topology.epoch < T.epoch
  | _ => true

theorem growing_of_step (tr : Trace g) (σ : State) (ℓ : Label (node g)) (σ' : State)
    (h : growingStep tr σ ℓ = true) : Growing tr σ ℓ σ' := by
  rintro T rfl
  exact of_decide_eq_true h

/-- A write under the epoch `1`, then one under the epoch `2`, each with its check at once. -/
theorem writes_in_turn_kept : ∃ c : Config (node Cfg.pair), ∃ tr,
    Run Growing State.pair c tr ∧ c.state.ownerEpoch = 2 ∧ EpochsKept State.pair tr := by
  obtain ⟨c, tr, hsteps, hepoch, horder⟩ : ∃ c tr,
      (Config.start (M := node Cfg.pair) State.pair).stepsIf growingStep []
        (.spawn (.set (ascii "k") [1]) :: List.replicate 7 (.run 0 (Inp.fetch [])) ++
          .env (.membership (.mine 2)) :: .spawn (.set (ascii "k") [2]) ::
          List.replicate 7 (.run 1 (Inp.fetch []))) = some (c, tr) ∧ c.state.ownerEpoch = 2 ∧
      orderly tr = true := ⟨_, _, rfl, rfl, rfl⟩
  have hrun : Run Growing State.pair c tr := Run.stepsIf growing_of_step .start hsteps
  refine ⟨c, tr, hrun, hepoch, (epochs_kept_iff rfl State.fresh_pair hrun).2 ?_⟩
  exact inTurn_of_orderly horder

/-- A write observes the epoch `1` and is held up; the epoch becomes `2` and another write observes
it and stores. Then the first one takes the lock: the recorded epoch falls to `1` and what the
second one stored is gone. -/
theorem slow_check_wipes : ∃ c c' : Config (node Cfg.pair), ∃ tr ℓ v,
    Run Growing State.pair c tr ∧ Run Growing State.pair c' (ℓ :: tr) ∧
    c.state.ownerEpoch = 2 ∧ c.state.main.view (ascii "k") = some v ∧
    c'.state.ownerEpoch = 1 ∧ c'.state.main.view (ascii "k") = none ∧
    ¬ EpochsKept State.pair (ℓ :: tr) := by
  obtain ⟨c, tr, hsteps, c', ℓ, v, hstep, hok, h₁, h₂, h₃, h₄⟩ : ∃ c tr,
      (Config.start (M := node Cfg.pair) State.pair).stepsIf growingStep []
        (.spawn (.set (ascii "k") [1]) :: List.replicate 4 (.run 0 (Inp.fetch [])) ++
          .env (.membership (.mine 2)) :: .spawn (.set (ascii "k") [2]) ::
          List.replicate 7 (.run 1 (Inp.fetch []))) = some (c, tr) ∧
      ∃ c' ℓ v, c.step (.run 0 (Inp.fetch [])) = some (ℓ, c') ∧
        growingStep tr c.state ℓ = true ∧ c.state.ownerEpoch = 2 ∧
        c.state.main.view (ascii "k") = some v ∧ c'.state.ownerEpoch = 1 ∧
        c'.state.main.view (ascii "k") = none :=
    ⟨_, _, rfl, _, _, _, rfl, rfl, rfl, rfl, rfl, rfl⟩
  have hrun : Run Growing State.pair c tr := Run.stepsIf growing_of_step .start hsteps
  have hrun' : Run Growing State.pair c' (ℓ :: tr) :=
    .step _ hrun hstep (growing_of_step _ _ _ _ hok)
  refine ⟨c, c', tr, ℓ, v, hrun, hrun', h₁, h₂, h₃, h₄, fun hkept => ?_⟩
  have hle := hkept.grows [] [ℓ] tr rfl
  rw [hrun.replay, List.singleton_append, hrun'.replay, h₁, h₃] at hle
  exact absurd hle (by decide)

end Locache
