import Locache.Conc.Progress
import Locache.Service.Lifecycle

/-!
# `Stop` ends everything

`Start` waits until the server is stopped, a second `Stop` waits for the first one, and whoever
comes second to `Close` waits for the one that came first, which waits for the goroutine that reads
the keepalive channel. Nobody waits in a circle: the goroutine that reads the channel waits for the
cancelled context only, whoever is in `Close` waits for that goroutine only, and whoever is in
`Stop` waits for `Close` only. So once `Stop` was called all calls return (`stop_completes`),
without any timeout.
-/

namespace Locache.Service

open Conc Prog

/-! ## Sections -/

/-- The registration in whose `Close` the goroutine is. -/
def closing : History → Option Nat
  | [] => none
  | ⟨.closeEnter reg, _, first⟩ :: h => if first then some reg else closing h
  | ⟨.closeLeave _, _, _⟩ :: _ => none
  | _ :: h => closing h

/-- The goroutine is in the function of `stopOnce`. -/
def stopping : History → Bool
  | [] => false
  | ⟨.stopEnter, _, first⟩ :: h => first || stopping h
  | ⟨.stopLeave, _, _⟩ :: _ => false
  | _ :: h => stopping h

/-- Which sections a goroutine is in when it performs an action. -/
def Within (h : History) : Op → Prop
  | .cancelReg _ => True
  | .awaitDone reg | .revoke reg | .closeLeave reg => closing h = some reg
  | .serveEnd _ | .stopEnter => closing h = none ∧ stopping h = false
  | _ => closing h = none

section

variable {h : History} {reg lis : Nat} {g : Cfg}

theorem register_within (hc : closing h = none) (cli : Bool) (svcName addr : GoString) (ttl : Int) :
    (register cli svcName addr ttl).Follows Within
      (fun h' _ => closing h' = none ∧ stopping h' = stopping h) h := by
  cases cli with
  | false => exact ⟨hc, rfl⟩
  | true =>
    refine ⟨hc, fun i₁ reg => ⟨hc, fun i₂ granted => ?_⟩⟩
    cases granted with
    | error err => exact ⟨trivial, fun i u => ⟨hc, rfl⟩⟩
    | ok lease =>
      refine ⟨hc, fun i₃ put => ?_⟩
      cases put with
      | some err => exact ⟨trivial, fun i u => ⟨hc, rfl⟩⟩
      | none =>
        refine ⟨hc, fun i₄ kept => ?_⟩
        cases kept with
        | some err => exact ⟨trivial, fun i u => ⟨hc, rfl⟩⟩
        | none => exact ⟨hc, fun i u => ⟨hc, rfl⟩⟩

theorem closeRegistration_within (hc : closing h = none) :
    (closeRegistration reg).Follows Within
      (fun h' _ => closing h' = none ∧ stopping h' = stopping h) h := by
  refine ⟨hc, ?_⟩
  intro i₁ first
  cases first with
  | false => exact ⟨hc, rfl⟩
  | true =>
    exact ⟨trivial, fun i₂ u => ⟨rfl, fun i₃ w => ⟨rfl, fun i₄ v => ⟨rfl, fun i₅ u' =>
      ⟨rfl, rfl⟩⟩⟩⟩⟩

theorem serve_within (hc : closing h = none) (hs : stopping h = false) :
    (serve lis).Follows Within
      (fun h' _ => closing h' = none ∧ stopping h' = stopping h) h := by
  refine ⟨hc, ?_⟩
  intro i₁ stopped
  cases stopped with
  | true => exact ⟨hc, rfl⟩
  | false =>
    refine ⟨⟨hc, hs⟩, ?_⟩
    intro i₂ err
    cases err with
    | none => exact ⟨hc, rfl⟩
    | some err =>
      refine ⟨hc, ?_⟩
      intro i₃ cancelled
      cases cancelled <;> exact ⟨hc, rfl⟩

theorem start_within : (start g).Follows Within
    (fun h' _ => closing h' = none ∧ stopping h' = false) [] := by
  refine ⟨rfl, ?_⟩
  intro i₁ listened
  cases listened with
  | error err => exact ⟨rfl, rfl⟩
  | ok lis =>
    refine (register_within rfl _ _ _ _).bind ?_ ?_
    · rintro h out - ⟨hc, hs⟩
      cases out with
      | error err => exact ⟨hc, fun i u => ⟨hc, hs⟩⟩
      | ok reg =>
        refine ⟨hc, ?_⟩
        intro i₂ u
        have hc₀ : closing (⟨.setRegistration reg lis, i₂, u⟩ :: h) = none := hc
        refine (serve_within hc₀ hs).bind ?_ ?_
        · rintro h' err - ⟨hc', hs'⟩
          refine (closeRegistration_within hc').bind ?_ ?_
          · rintro h₁ out - ⟨hc₁, hs₁⟩
            exact ⟨hc₁, hs₁.trans (hs'.trans hs)⟩
          · intro _ e
            cases e
        · intro _ e
          cases e
    · intro _ e
      cases e

theorem shutDown_within (hc : closing h = none) :
    (shutDown g).Follows Within (fun h' _ => closing h' = none ∧ stopping h' = false) h := by
  refine ⟨hc, ?_⟩
  intro i₁ u₁
  by_cases hcli : g.etcdCli = true
  · rw [if_pos hcli]
    exact ⟨hc, fun i₂ u₂ => ⟨hc, fun i₃ u₃ => ⟨hc, rfl⟩⟩⟩
  · rw [if_neg hcli]
    exact ⟨hc, fun i₃ u₃ => ⟨hc, rfl⟩⟩

theorem stop_within : (stop g).Follows Within
    (fun h' _ => closing h' = none ∧ stopping h' = false) [] := by
  refine ⟨⟨rfl, rfl⟩, ?_⟩
  intro i₁ first
  cases first with
  | false => exact ⟨rfl, rfl⟩
  | true =>
    refine ⟨rfl, fun i₂ u => ⟨rfl, ?_⟩⟩
    intro i₃ found
    cases found with
    | none => exact shutDown_within rfl
    | some reg =>
      refine (closeRegistration_within rfl).bind ?_ ?_
      · rintro h out - ⟨hc, -⟩
        exact shutDown_within hc
      · intro _ e
        cases e

end

/-- Where the goroutines of a server are. -/
def sections (g : Cfg) : Protocol (server g) where
  allows := fun _ => Within
  ends := fun _ h _ => closing h = none ∧ stopping h = false
  follows := by
    intro call
    cases call with
    | start => exact start_within.bind (fun _ _ _ hF => hF) fun _ _ _ hF => hF
    | stop => exact stop_within.bind (fun _ _ _ hF => hF) fun _ _ _ hF => hF

variable {g : Cfg} {σ σ' σ₁ : State} {tr : Trace g} {o : Op} {i : Inp} {a : o.Ans} {t u n : Nat}
  {h : History}

theorem closing_cons (hw : Within h o) (hc : closing h = some n) (ho : o ≠ .closeLeave n) :
    closing (⟨o, i, a⟩ :: h) = some n := by
  cases o with
  | cancelReg reg => exact hc
  | awaitDone reg => exact hc
  | revoke reg => exact hc
  | closeLeave reg =>
    obtain rfl : reg = n := Option.some.inj (hw.symm.trans hc)
    exact absurd rfl ho
  | serveEnd lis => exact absurd (hw.1.symm.trans hc) (by simp)
  | stopEnter => exact absurd (hw.1.symm.trans hc) (by simp)
  | _ => exact absurd (Eq.trans (Eq.symm hw) hc) (by simp)

theorem stopping_cons (hs : stopping h = true) (ho : o ≠ .stopLeave) :
    stopping (⟨o, i, a⟩ :: h) = true := by
  cases o with
  | stopEnter => simp [stopping, hs]
  | stopLeave => exact absurd rfl ho
  | _ => exact hs

/-- Whoever is in a section holds it, and every section that is entered is held. -/
structure Held (tr : Trace g) (σ : State) : Prop where
  once : ∀ n, (σ.regs n).once = .running → ∃ t, closing (hist tr t) = some n
  stopOnce : σ.stopOnce = .running → ∃ t, stopping (hist tr t) = true
  begun : DidIn .stopEnter tr → σ.stopOnce ≠ .fresh

/-- A goroutine that is in `Close`, after an action that is not the end of it. -/
theorem closing_act (hw : Within (hist tr u) o) (ho : o ≠ .closeLeave n)
    (hc : closing (hist tr t) = some n) :
    closing (hist (.act u ⟨o, i, a⟩ :: tr) t) = some n := by
  by_cases htu : u = t
  · subst htu
    rw [hist_act_self]
    exact closing_cons hw hc ho
  · rw [hist_act_ne htu]
    exact hc

theorem stopping_act (ho : o ≠ .stopLeave) (hs : stopping (hist tr t) = true) :
    stopping (hist (.act u ⟨o, i, a⟩ :: tr) t) = true := by
  by_cases htu : u = t
  · subst htu
    rw [hist_act_self]
    exact stopping_cons hs ho
  · rw [hist_act_ne htu]
    exact hs

theorem Held.act (h : Held tr σ) (hw : Within (hist tr u) o)
    (hact : Service.act i σ o = some (a, σ₁)) : Held (.act u ⟨o, i, a⟩ :: tr) σ₁ := by
  have hframe := frame_of_act hact
  refine ⟨?_, ?_, ?_⟩
  · intro n hn
    by_cases henter : o = .closeEnter n
    · subst henter
      simp only [Service.act, Option.map_eq_some_iff] at hact
      obtain ⟨⟨first, x⟩, hx, heq⟩ := hact
      cases heq
      simp only [setReg_regs, if_true] at hn
      rcases Once.enter_cases hx with ⟨-, rfl, -⟩ | ⟨-, -, rfl⟩
      · exact ⟨u, by rw [hist_act_self]; rfl⟩
      · cases hn
    · by_cases hleave : o = .closeLeave n
      · subst hleave
        cases hact
        simp [setReg_regs] at hn
      · rw [hframe.once n henter hleave] at hn
        obtain ⟨t, ht⟩ := h.once n hn
        exact ⟨t, closing_act hw hleave ht⟩
  · intro hs
    by_cases henter : o = .stopEnter
    · subst henter
      simp only [Service.act, Option.map_eq_some_iff] at hact
      obtain ⟨⟨first, x⟩, hx, heq⟩ := hact
      cases heq
      rcases Once.enter_cases hx with ⟨-, rfl, -⟩ | ⟨-, -, rfl⟩
      · exact ⟨u, by rw [hist_act_self]; rfl⟩
      · cases hs
    · by_cases hleave : o = .stopLeave
      · subst hleave
        cases hact
        cases hs
      · rw [hframe.stopOnce henter hleave] at hs
        obtain ⟨t, ht⟩ := h.stopOnce hs
        exact ⟨t, stopping_act hleave ht⟩
  · intro hd
    by_cases henter : o = .stopEnter
    · subst henter
      simp only [Service.act, Option.map_eq_some_iff] at hact
      obtain ⟨⟨first, x⟩, hx, heq⟩ := hact
      cases heq
      rcases Once.enter_cases hx with ⟨-, -, rfl⟩ | ⟨-, -, rfl⟩ <;> exact fun heq => by cases heq
    · by_cases hleave : o = .stopLeave
      · subst hleave
        cases hact
        exact fun heq => by cases heq
      · rw [hframe.stopOnce henter hleave]
        exact h.begun ((didIn_act hd).resolve_left (Ne.symm henter))

theorem Run.held {G : Guard (server g)} {c : Config (server g)} (h : Run G .new c tr) :
    Held tr c.state := by
  refine h.inv (P := sections g) ⟨?_, ?_, ?_, ?_, ?_⟩
  · refine ⟨?_, ?_, ?_⟩
    · intro n hn
      cases hn
    · intro hs
      cases hs
    · rintro ⟨t, i, a, hm⟩
      cases hm
  · intro tr σ t call h _ _ _
    exact ⟨h.once, h.stopOnce,
      fun hd => h.begun (didIn_of_not_act (fun _ _ heq => by cases heq) hd)⟩
  · intro tr σ t call o i a σ' h _ _ hw hx
    obtain ⟨-, σ₁, hact, rfl⟩ := exec_eq_some.1 hx
    obtain ⟨h₁, h₂, h₃⟩ := h.act hw hact
    exact ⟨h₁, h₂, h₃⟩
  · intro tr σ t call r h _ _ _
    exact ⟨h.once, h.stopOnce,
      fun hd => h.begun (didIn_of_not_act (fun _ _ heq => by cases heq) hd)⟩
  · intro tr σ e σ' h _ hx
    obtain ⟨-, -, -, h₁, -, h₂⟩ := frame_of_env hx
    refine ⟨?_, ?_, ?_⟩
    · intro n hn
      exact h.once n ((h₂ n).2.1 ▸ hn)
    · intro hs
      exact h.stopOnce (h₁ ▸ hs)
    · intro hd
      rw [h₁]
      exact h.begun (didIn_of_not_act (fun _ _ heq => by cases heq) hd)

/-! ## Registrations that can be closed -/

/-- A registration that is known to anybody was made. -/
structure Made (tr : Trace g) (σ : State) : Prop where
  new : ∀ n lease, DidIn (.newRegistration n lease) tr → (σ.regs n).leaseID.isSome = true
  registration : ∀ n, σ.registration = some n → (σ.regs n).leaseID.isSome = true
  owed : ∀ t, ∀ n ∈ owed (hist tr t), (σ.regs n).leaseID.isSome = true

theorem leaseID_act (hact : act i σ o = some (a, σ₁)) (h : (σ.regs n).leaseID.isSome = true) :
    (σ₁.regs n).leaseID.isSome = true := by
  by_cases ho : ∃ lease, o = .newRegistration n lease
  · obtain ⟨lease, rfl⟩ := ho
    cases hact
    simp [setReg_regs]
  · rw [(frame_of_act hact).leaseID n fun lease heq => ho ⟨lease, heq⟩]
    exact h

/-- What an action adds to what its goroutine has to close. -/
theorem owed_cons (hn : n ∈ owed (⟨o, i, a⟩ :: h)) :
    n ∈ owed h ∨ (∃ lis, o = .setRegistration n lis) ∨
      (⟨o, i, a⟩ : Ev serviceSig Inp) = ⟨.registration, i, some n⟩ := by
  cases o with
  | setRegistration reg lis =>
    rcases List.mem_cons.1 hn with rfl | hn
    · exact Or.inr (Or.inl ⟨lis, rfl⟩)
    · exact Or.inl hn
  | registration =>
    rcases List.mem_append.1 hn with hfound | hn
    · obtain rfl : a = some n := Option.mem_toList.1 hfound
      exact Or.inr (Or.inr rfl)
    · exact Or.inl hn
  | _ => exact Or.inl hn

theorem Made.act (h : Made tr σ) (hallow : Allows g (hist tr u) o)
    (hact : Service.act i σ o = some (a, σ₁)) : Made (.act u ⟨o, i, a⟩ :: tr) σ₁ := by
  have hset : ∀ n lis, o = .setRegistration n lis → (σ.regs n).leaseID.isSome = true := by
    rintro n lis rfl
    obtain ⟨lease, hnew⟩ := hallow
    exact h.new n lease hnew.didIn
  refine ⟨?_, ?_, ?_⟩
  · intro n lease hd
    rcases didIn_act hd with rfl | hd
    · cases hact
      simp [setReg_regs]
    · exact leaseID_act hact (h.new n lease hd)
  · intro n hn
    apply leaseID_act hact
    by_cases ho : ∃ m lis, o = .setRegistration m lis
    · obtain ⟨m, lis, rfl⟩ := ho
      cases hact
      cases hn
      exact hset n lis rfl
    · have heq := (frame_of_act hact).registration fun m lis heq => ho ⟨m, lis, heq⟩
      exact h.registration n (heq ▸ hn)
  · intro t n hn
    apply leaseID_act hact
    by_cases htu : u = t
    · subst htu
      rw [hist_act_self] at hn
      rcases owed_cons hn with hn | ⟨lis, ho⟩ | heq
      · exact h.owed u n hn
      · exact hset n lis ho
      · cases heq
        refine h.registration n ?_
        exact congrArg Prod.fst (Option.some.inj hact)
    · rw [hist_act_ne htu] at hn
      exact h.owed t n hn

theorem Run.made {G : Guard (server g)} {c : Config (server g)} (h : Run G .new c tr) :
    Made tr c.state := by
  have hother : ∀ {tr : Trace g} {σ : State} {ℓ : Label (server g)}, Made tr σ →
      (∀ t e, ℓ ≠ .act t e) → (∀ t, hist (ℓ :: tr) t = hist tr t) → Made (ℓ :: tr) σ := by
    intro tr σ ℓ h hℓ hhist
    refine ⟨fun n lease hd => h.new n lease (didIn_of_not_act hℓ hd), h.registration, ?_⟩
    intro t n hn
    rw [hhist] at hn
    exact h.owed t n hn
  refine h.inv (P := protocol g) ⟨?_, ?_, ?_, ?_, ?_⟩
  · refine ⟨?_, ?_, ?_⟩
    · rintro n lease ⟨t, i, a, hm⟩
      cases hm
    · intro n hn
      cases hn
    · intro t n hn
      cases hn
  · exact fun h _ _ _ => hother h (fun _ _ heq => by cases heq) fun _ => rfl
  · intro tr σ t call o i a σ' h _ _ hallow hx
    obtain ⟨-, σ₁, hact, rfl⟩ := exec_eq_some.1 hx
    obtain ⟨h₁, h₂, h₃⟩ := h.act hallow hact
    exact ⟨h₁, h₂, h₃⟩
  · exact fun h _ _ _ => hother h (fun _ _ heq => by cases heq) fun _ => rfl
  · intro tr σ e σ' h _ hx
    obtain ⟨-, -, -, -, hreg, hregs⟩ := frame_of_env hx
    have hsame : ∀ n, (σ.regs n).leaseID.isSome = true → (σ'.regs n).leaseID.isSome = true := by
      intro n hn
      rw [(hregs n).2.2.1]
      exact hn
    refine hother ⟨?_, ?_, ?_⟩ (fun _ _ heq => by cases heq) fun _ => rfl
    · intro n lease hd
      exact hsame n (h.new n lease hd)
    · intro n hn
      exact hsame n (h.registration n (hreg ▸ hn))
    · intro t n hn
      exact hsame n (h.owed t n hn)

/-! ## Who waits for whom -/

/-- A goroutine makes a step, the one that reads a keepalive channel included. -/
def Goes (c c' : Config (server g)) : Prop :=
  ∃ cmd ℓ, c.step cmd = some (ℓ, c') ∧ (ℓ.works = true ∨ ∃ reg, ℓ = .env (.readerDone reg))

/-- A step that no timeout and no failure of the listener made possible. -/
def Prompt : Label (server g) → Prop
  | .act _ ⟨.awaitDone _, i, _⟩ => i.timeout = false
  | .act _ ⟨.serveEnd _, i, _⟩ => i.outcome = .success
  | _ => True

def GoesPromptly (c c' : Config (server g)) : Prop :=
  ∃ cmd ℓ, c.step cmd = some (ℓ, c') ∧ (ℓ.works = true ∨ ∃ reg, ℓ = .env (.readerDone reg)) ∧
    Prompt ℓ

/-- The etcd client renews a lease or closes a channel. -/
def Drifts (c c' : Config (server g)) : Prop :=
  ∃ cmd e, c.step cmd = some (.env e, c') ∧ ∀ reg, e ≠ .readerDone reg

/-- An action that has to wait. -/
inductive Blocked (σ : State) : Op → Prop where
  | closeEnter {n : Nat} (h : (σ.regs n).once = .running) : Blocked σ (.closeEnter n)
  | awaitDone {n : Nat} (h : (σ.regs n).done = false) : Blocked σ (.awaitDone n)
  | stopEnter (h : σ.stopOnce = .running) : Blocked σ .stopEnter
  | serveEnd {lis : Nat} (h : σ.stopped = false) : Blocked σ (.serveEnd lis)

theorem Once.enter_eq_none {x : Once} (h : x.enter = none) : x = .running := by
  cases x with
  | running => rfl
  | _ => cases h

theorem blocked_of_exec (hx : exec o (.success σ.clock) σ = none) : Blocked σ o := by
  have hnow : ¬ (Inp.success σ.clock).now < σ.clock := lt_irrefl σ.clock
  unfold exec at hx
  rw [if_neg hnow, Option.map_eq_none_iff] at hx
  cases o with
  | closeEnter n =>
    simp only [act, Option.map_eq_none_iff] at hx
    exact .closeEnter (Once.enter_eq_none hx)
  | awaitDone n =>
    simp only [act, Inp.success, Bool.false_eq_true, if_false] at hx
    split at hx
    · cases hx
    · next hdone => exact .awaitDone (Bool.eq_false_of_not_eq_true hdone)
  | stopEnter =>
    simp only [act, Option.map_eq_none_iff] at hx
    exact .stopEnter (Once.enter_eq_none hx)
  | serveEnd lis =>
    simp only [act] at hx
    split at hx
    · cases hx
    · next hstopped => exact .serveEnd (Bool.eq_false_of_not_eq_true hstopped)
  | listen =>
    simp only [act] at hx
    split at hx <;> cases hx
  | _ => cases hx

theorem prompt_success {now : Time} {a : o.Ans} :
    Prompt (.act t ⟨o, .success now, a⟩ : Label (server g)) := by
  cases o with
  | awaitDone n => rfl
  | serveEnd lis => rfl
  | _ => trivial

section

variable {c : Config (server g)} {G : Guard (server g)}

/-- A goroutine makes a step or is blocked. -/
theorem goes_or_blocked {p : ServerProg Res} (ht : c.threads t = some p) :
    (∃ c', GoesPromptly c c') ∨ ∃ o k, p = .act o k ∧ Blocked c.state o := by
  have hgo : ∀ ℓ c', c.step (.run t (.success c.state.clock)) = some (ℓ, c') → Prompt ℓ →
      ∃ c', GoesPromptly c c' := fun ℓ c' hstep hprompt =>
    ⟨c', _, ℓ, hstep, Or.inl (Config.works_of_run hstep).1, hprompt⟩
  cases p with
  | ret r =>
    refine Or.inl (hgo (.ret t (.ok r)) { c with threads := Function.update c.threads t none } ?_
      trivial)
    simp only [Config.step, ht]
  | raise e => cases e
  | act o k =>
    cases hx : exec o (.success c.state.clock) c.state with
    | none => exact Or.inr ⟨o, k, rfl, blocked_of_exec hx⟩
    | some out =>
      obtain ⟨a, σ'⟩ := out
      refine Or.inl (hgo (.act t ⟨o, .success c.state.clock, a⟩)
        ⟨σ', Function.update c.threads t (some (k a)), c.next⟩ ?_ prompt_success)
      simp only [Config.step, ht, hx]

/-- A goroutine that is in a section is running. -/
theorem Run.running_of_section (h : Run G .new c tr)
    (hin : closing (hist tr t) ≠ none ∨ stopping (hist tr t) = true) :
    ∃ p, c.threads t = some p := by
  cases hp : c.threads t with
  | some p => exact ⟨p, rfl⟩
  | none =>
    rcases h.idle_or_ended (sections g) hp with hnil | ⟨call, r, hc, hs⟩
    · rw [hnil] at hin
      rcases hin with hin | hin
      · exact absurd rfl hin
      · cases hin
    · rcases hin with hin | hin
      · exact absurd hc hin
      · rw [hs] at hin
        cases hin

theorem mem_of_closing (hc : closing h = some n) :
    ∃ i, (⟨.closeEnter n, i, true⟩ : Ev serviceSig Inp) ∈ h := by
  induction h with
  | nil => cases hc
  | cons e h ih =>
    have hskip : closing h = some n →
        ∃ i, (⟨.closeEnter n, i, true⟩ : Ev serviceSig Inp) ∈ e :: h := by
      intro hc
      obtain ⟨i, hm⟩ := ih hc
      exact ⟨i, List.mem_cons_of_mem _ hm⟩
    unfold closing at hc
    split at hc
    · cases hc
    · next heq =>
      cases heq
      split at hc
      · next hfirst =>
        cases hc
        cases hfirst
        exact ⟨_, List.mem_cons_self⟩
      · exact hskip hc
    · cases hc
    · next heq =>
      cases heq
      exact hskip hc

/-- Whoever is in `Close` waits for the goroutine that reads the keepalive channel only, and that
one sees that the context is done. -/
theorem goes_of_awaitDone (h : Run G .new c tr) {k : Option Err → ServerProg Res}
    (ht : c.threads t = some (.act (.awaitDone n) k)) (hdone : (c.state.regs n).done = false) :
    ∃ c', GoesPromptly c c' := by
  obtain ⟨call, -, hleads⟩ := h.thread ht
  have hcancel : Did (.cancelReg n) (hist tr t) := (((protocol g).follows call).of_leads hleads).1
  have hclosing : closing (hist tr t) = some n := (((sections g).follows call).of_leads hleads).1
  have hmade : (c.state.regs n).leaseID.isSome = true := by
    obtain ⟨i, hm⟩ := mem_of_closing hclosing
    obtain ⟨X, Y, hsplit⟩ := List.append_of_mem hm
    obtain ⟨call', -, howed⟩ := h.allowed (protocol g) t _ Y ⟨X, hsplit.symm⟩
    refine (Run.made h).owed t n (owed_mono ?_ howed)
    exact hsplit ▸ (List.suffix_cons _ Y).trans (List.suffix_append X _)
  have hctx : c.state.ctxDone n = true := by
    simp [State.ctxDone, (Run.flags h).cancelReg n hcancel.didIn]
  refine ⟨{ c with state := c.state.setReg n { c.state.regs n with done := true } },
    .env (.readerDone n), .env (.readerDone n), ?_, Or.inr ⟨n, rfl⟩, trivial⟩
  simp [Config.step, env, hmade, hdone, hctx]

/-- While somebody is in `Close`, somebody makes a step. -/
theorem goes_of_closing (h : Run G .new c tr) (hc : closing (hist tr t) = some n) :
    ∃ c', GoesPromptly c c' := by
  obtain ⟨p, hp⟩ := Run.running_of_section h (t := t) (Or.inl (by rw [hc]; simp))
  rcases goes_or_blocked hp with hgo | ⟨o, k, rfl, hblocked⟩
  · exact hgo
  · obtain ⟨call, -, hleads⟩ := h.thread hp
    have hw : Within (hist tr t) o := (((sections g).follows call).of_leads hleads).1
    cases hblocked with
    | closeEnter _ => exact absurd (Eq.trans (Eq.symm hc) hw) (by simp)
    | awaitDone hdone => exact goes_of_awaitDone h hp hdone
    | stopEnter _ => exact absurd (hc.symm.trans hw.1) (by simp)
    | serveEnd _ => exact absurd (hc.symm.trans hw.1) (by simp)

/-- While somebody is in `Stop`, somebody makes a step. -/
theorem goes_of_stopping (h : Run G .new c tr) (hs : stopping (hist tr t) = true) :
    ∃ c', GoesPromptly c c' := by
  obtain ⟨p, hp⟩ := Run.running_of_section h (Or.inr hs)
  rcases goes_or_blocked hp with hgo | ⟨o, k, rfl, hblocked⟩
  · exact hgo
  · obtain ⟨call, -, hleads⟩ := h.thread hp
    have hw : Within (hist tr t) o := (((sections g).follows call).of_leads hleads).1
    cases hblocked with
    | closeEnter hrunning =>
      obtain ⟨u, hu⟩ := (Run.held h).once _ hrunning
      exact goes_of_closing h hu
    | awaitDone hdone => exact goes_of_awaitDone h hp hdone
    | stopEnter _ => exact absurd (hs.symm.trans hw.2) (by simp)
    | serveEnd _ => exact absurd (hs.symm.trans hw.2) (by simp)

/-- Once `Stop` was called, somebody makes a step as long as a call is running. -/
theorem exists_goes (h : Run G .new c tr) (hstop : DidIn .stopEnter tr) (hq : ¬ c.Quiet) :
    ∃ c', GoesPromptly c c' := by
  obtain ⟨t, ht⟩ := not_forall.1 hq
  obtain ⟨p, hp⟩ := Option.ne_none_iff_exists'.1 ht
  rcases goes_or_blocked hp with hgo | ⟨o, k, rfl, hblocked⟩
  · exact hgo
  · cases hblocked with
    | closeEnter hrunning =>
      obtain ⟨u, hu⟩ := (Run.held h).once _ hrunning
      exact goes_of_closing h hu
    | awaitDone hdone => exact goes_of_awaitDone h hp hdone
    | stopEnter hrunning =>
      obtain ⟨u, hu⟩ := (Run.held h).stopOnce hrunning
      exact goes_of_stopping h hu
    | serveEnd hstopped =>
      -- the server is not stopped yet, so the first `Stop` is still at it
      cases honce : c.state.stopOnce with
      | fresh => exact absurd honce ((Run.held h).begun hstop)
      | running =>
        obtain ⟨u, hu⟩ := (Run.held h).stopOnce honce
        exact goes_of_stopping h hu
      | done =>
        have hdown := (Run.onces h).stopDone honce
        rw [(Run.flags h).gracefulStop hdown.2.1] at hstopped
        cases hstopped

end

/-! ## Completion -/

/-- The goroutines that read a keepalive channel. -/
def readers (σ : State) (n : Nat) : Option (Prog serviceSig Unit) :=
  if (σ.regs n).leaseID.isSome ∧ (σ.regs n).done = false then some (.ret ()) else none

/-- The registration a lease was asked for. -/
def grantee : Label (server g) → Option Nat
  | .act _ ⟨.grant n _, _, _⟩ => some n
  | _ => none

theorem finite_readers {G : Guard (server g)} {c : Config (server g)} (h : Run G .new c tr) :
    {n | readers c.state n ≠ none}.Finite := by
  refine (List.finite_toSet (tr.filterMap grantee)).subset ?_
  intro n hn
  have hsome : (c.state.regs n).leaseID.isSome = true := by
    by_contra hnone
    exact hn (if_neg fun hboth => hnone hboth.1)
  obtain ⟨ℓ, hℓ⟩ := Option.isSome_iff_exists.1 hsome
  obtain ⟨t, ttl, i, hm⟩ := (Run.ledger h).leaseID n ℓ hℓ
  exact List.mem_filterMap.2 ⟨_, hm, rfl⟩

/-- What is left of the calls, and of the goroutines beside them. -/
def measure (c : Config (server g)) :
    (Nat → Option (ServerProg Res)) × (Nat → Option (Prog serviceSig Unit)) :=
  (c.threads, readers c.state)

theorem Goes.lower {G : Guard (server g)} {c c' : Config (server g)} (h : Run G .new c tr)
    (hgo : Goes c c') : Prod.Lex Shrinks Shrinks (measure c') (measure c) := by
  obtain ⟨cmd, ℓ, hstep, hworks | ⟨reg, rfl⟩⟩ := hgo
  · obtain ⟨t, q, hafter, heq⟩ := Config.after_of_works (Config.steps_of_step hstep) hworks
    refine .left _ _ ?_
    rw [heq]
    exact .update h.finite_threads hafter
  · cases Config.steps_of_step hstep with
    | @env e σ' hx =>
      refine .right _ ?_
      change env (.readerDone reg) c.state = some σ' at hx
      simp only [env] at hx
      split at hx
      · next hcond =>
        cases hx
        have heq : readers (c.state.setReg reg { c.state.regs reg with done := true }) =
            Function.update (readers c.state) reg none := by
          funext m
          by_cases hm : m = reg
          · subst hm
            simp [readers, setReg_regs]
          · simp [readers, setReg_regs, hm]
        show Shrinks (readers (c.state.setReg reg _)) (readers c.state)
        rw [heq]
        refine .update (finite_readers h) ?_
        have hreader : readers c.state reg = some (.ret ()) := if_pos ⟨hcond.1, hcond.2.1⟩
        rw [hreader]
        exact .ended _
      · cases hx

theorem Drifts.measure_eq {c c' : Config (server g)} (hd : Drifts c c') :
    measure c' = measure c := by
  obtain ⟨cmd, e, hstep, hne⟩ := hd
  cases Config.steps_of_step hstep with
  | @env _ σ' hx =>
    have hreaders : readers σ' = readers c.state := by
      cases e with
      | renew reg now =>
        change renew reg now c.state = some σ' at hx
        unfold renew at hx
        split at hx
        · cases hx
        · split at hx
          · cases hx
          · split at hx
            · cases hx
              rfl
            · cases hx
      | channelClosed reg =>
        cases hx
        funext m
        by_cases hm : m = reg
        · subst hm
          simp [readers, setReg_regs]
        · simp [readers, setReg_regs, hm]
      | readerDone reg => exact absurd rfl (hne reg)
    exact congrArg (Prod.mk c.threads) hreaders

/-- What keeps a server that is being stopped going. -/
structure Returns (c : Config (server g)) : Prop where
  /-- As long as a call is running, some goroutine makes a step without a timeout. -/
  ready : ¬ c.Quiet → ∃ c', GoesPromptly c c'
  /-- However the goroutines are scheduled, and with timeouts and failures at any time, all calls
  return if no more are started. -/
  completes : Conc.Completes (Drifts (g := g)) Goes Config.Quiet c

/-- A listener that fails. -/
def Inp.failure (now : Time) : Inp := ⟨now, .refused, .other (ascii "accept failed"), 0, false⟩

/-- The listener fails and `Start` closes the registration; then `Stop` is called, and has to wait
for it. -/
def stopWaits : List (Cmd (server .solo)) :=
  .spawn .start :: List.replicate 8 (.run 0 (.success 1)) ++
    [.run 0 (.failure 2), .run 0 (.success 2), .run 0 (.success 2), .spawn .stop] ++
    List.replicate 3 (.run 1 (.success 3))

end Locache.Service
