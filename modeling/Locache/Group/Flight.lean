import Locache.Group.Mutation

/-!
# Singleflight calls

Every singleflight call has one leader, which entered it for one key and is the only goroutine that
decides its result, removes it and wakes its waiters. A call is in the map exactly as long as its
leader is on the way from entering it to removing it (`Flights`).
-/

namespace Locache

open Conc

variable {g : Cfg} {tr : Trace g} {σ σ' σ₀ : State} {t u : Nat} {k key : GoString} {c : Nat}
  {o : Op} {i : Inp} {a : o.Ans}

/-- The call a goroutine leads, from entering it to removing it from the map. -/
def Stage.leads : Stage → Option Nat
  | .leading c | .begun c _ | .loading c _ _ | .loaded c _ _ | .decided c _ => some c
  | _ => none

/-- The call a goroutine leads, from entering it to waking its waiters. -/
def Stage.owns : Stage → Option Nat
  | .removed c _ => some c
  | st => st.leads

/-- The call a goroutine waits for. -/
def Stage.waits : Stage → Option Nat
  | .joined c => some c
  | _ => none

theorem Stage.owns_of_leads {st : Stage} (h : st.leads = some c) : st.owns = some c := by
  cases st <;> first | exact h | cases h

/-- Goroutine `t` holds `k` and is at a stage that `f` gives the call `c`. -/
def AtCall (f : Stage → Option Nat) (tr : Trace g) (t : Nat) (k : GoString) (c : Nat) : Prop :=
  ∃ s, (locOf tr t).held = some (k, s) ∧ f (locOf tr t).stage = some c

/-- Goroutine `t` leads the call `c` for `k`, which is in the map. -/
abbrev Leads (tr : Trace g) (t : Nat) (k : GoString) (c : Nat) : Prop := AtCall Stage.leads tr t k c

/-- Goroutine `t` leads the call `c` for `k`. -/
abbrev Owns (tr : Trace g) (t : Nat) (k : GoString) (c : Nat) : Prop := AtCall Stage.owns tr t k c

/-- Goroutine `t` waits for the call `c` for `k`. -/
abbrev Joined (tr : Trace g) (t : Nat) (k : GoString) (c : Nat) : Prop :=
  AtCall Stage.waits tr t k c

/-- The call `c` was entered for `k` by `t`. -/
def Entered (tr : Trace g) (t : Nat) (k : GoString) (c : Nat) : Prop :=
  ∃ i, .act t ⟨.doEnter k, i, .lead c⟩ ∈ tr

structure Flights (tr : Trace g) (σ : State) : Prop where
  registered : ∀ k c, σ.flights k = some c → ∃ t, Leads tr t k c
  leads : ∀ t k c, Leads tr t k c → σ.flights k = some c
  entered : ∀ t k c, Owns tr t k c → Entered tr t k c
  unique : ∀ t t' k k' c, Entered tr t k c → Entered tr t' k' c → t = t' ∧ k = k'
  joined : ∀ t k c, Joined tr t k c → ∃ u, Entered tr u k c
  done : ∀ c r, σ.calls c = some r →
    (∃ t i, .act t ⟨.doDone c r, i, ()⟩ ∈ tr) ∧ ∃ t k, Entered tr t k c
  fresh : ∀ t k c, Entered tr t k c → c < σ.nextCall

theorem Entered.cons {ℓ : Label (node g)} (h : Entered tr t k c) : Entered (ℓ :: tr) t k c := by
  obtain ⟨i, hi⟩ := h
  exact ⟨i, List.mem_cons_of_mem _ hi⟩

theorem Leads.owns (h : Leads tr t k c) : Owns tr t k c := by
  obtain ⟨s, hh, hst⟩ := h
  exact ⟨s, hh, Stage.owns_of_leads hst⟩

theorem owns_of_decided {s : Nat} {r : FlightResult} (hheld : (locOf tr t).held = some (k, s))
    (hst : (locOf tr t).stage = .decided c r ∨ (locOf tr t).stage = .removed c r) :
    Owns tr t k c := by
  refine ⟨s, hheld, ?_⟩
  rcases hst with hst | hst <;> rw [hst] <;> rfl

def Op.isWait : Op → Bool
  | .doWait _ => true
  | _ => false

namespace Move

variable {e : Option Nat} {x x' : Option (GoString × Nat)} {st st' : Stage}

/-- Away from the singleflight group an action does not change which call a goroutine leads. -/
theorem calls_eq (hm : Move e o a x st x' st') (hf : o.onFlights = false) :
    st'.leads = st.leads ∧ st'.owns = st.owns ∧ (o.isWait = false → st'.waits = st.waits) := by
  cases hm with
  | join => cases hf
  | lead => cases hf
  | remove => cases hf
  | done => cases hf
  | wait => exact ⟨rfl, rfl, fun h => by cases h⟩
  | _ => exact ⟨rfl, rfl, fun _ => rfl⟩

/-- A goroutine that takes up or gives back a mutation state is not in a singleflight call. -/
theorem held_eq (hm : Move e o a x st x' st') : x' = x ∨ st = .outside ∧ st' = .outside := by
  cases hm with
  | acquire => exact Or.inr ⟨rfl, rfl⟩
  | release => exact Or.inr ⟨rfl, rfl⟩
  | _ => exact Or.inl rfl

/-- A goroutine comes to lead a call only by entering it. -/
theorem owns (hm : Move e o a x st x' st') (h : st'.owns = some c) :
    st.owns = some c ∨ ∃ key s, x = some (key, s) ∧
      (⟨o, a⟩ : (o : Op) × o.Ans) = ⟨.doEnter key, .lead c⟩ := by
  cases hm with
  | join => cases h
  | lead =>
    cases h
    exact Or.inr ⟨_, _, rfl, rfl⟩
  | wait => cases h
  | done => cases h
  | _ => exact Or.inl h

/-- A goroutine comes to wait for a call only by joining it. -/
theorem waits (hm : Move e o a x st x' st') (h : st'.waits = some c) :
    st.waits = some c ∨ ∃ key s, x = some (key, s) ∧
      (⟨o, a⟩ : (o : Op) × o.Ans) = ⟨.doEnter key, .join c⟩ := by
  cases hm with
  | join =>
    cases h
    exact Or.inr ⟨_, _, rfl, rfl⟩
  | stay => exact Or.inl h
  | _ => cases h

end Move

/-- What a step does to the calls goroutines are at: the acting goroutine moves to its next stage,
the others stay. -/
theorem atCall_act {call : Call} (hallow : Allowed g call (hist tr u) o)
    {f : Stage → Option Nat} (hout : f .outside = none) :
    AtCall f (.act u ⟨o, i, a⟩ :: tr) t k c ↔
      t = u ∧ (∃ s, (locOf tr u).held = some (k, s)) ∧ f ((locOf tr u).next o a).stage = some c ∨
        t ≠ u ∧ AtCall f tr t k c := by
  unfold AtCall
  by_cases htu : t = u
  · subst htu
    rw [locOf_act_self]
    rcases (hallow.move a).held_eq with hh | ⟨-, h₂⟩
    · have hh : ((locOf tr t).next o a).held = (locOf tr t).held := hh
      simp only [hh, exists_and_right, true_and, ne_eq, not_true_eq_false, false_and, or_false]
    · have h₂ : ((locOf tr t).next o a).stage = .outside := h₂
      simp only [h₂, hout, reduceCtorEq, and_false, exists_false, ne_eq, not_true_eq_false,
        false_and, or_self]
  · rw [locOf_act_ne (Ne.symm htu)]
    simp only [htu, false_and, ne_eq, not_false_eq_true, true_and, false_or]

/-- An action that leaves `f` of the stage as it is leaves the calls as they are. -/
theorem atCall_act_of_eq {call : Call} (hallow : Allowed g call (hist tr u) o)
    {f : Stage → Option Nat} (hout : f .outside = none)
    (hst : f ((locOf tr u).next o a).stage = f (locOf tr u).stage) :
    AtCall f (.act u ⟨o, i, a⟩ :: tr) t k c ↔ AtCall f tr t k c := by
  rw [atCall_act hallow hout, hst]
  constructor
  · rintro (⟨rfl, ⟨s, hs⟩, hc⟩ | ⟨-, h⟩)
    · exact ⟨s, hs, hc⟩
    · exact h
  · intro h
    by_cases htu : t = u
    · subst htu
      obtain ⟨s, hs, hc⟩ := h
      exact Or.inl ⟨rfl, ⟨s, hs⟩, hc⟩
    · exact Or.inr ⟨htu, h⟩

theorem owns_act {call : Call} (hallow : Allowed g call (hist tr u) o)
    (ho : Owns (.act u ⟨o, i, a⟩ :: tr) t k c) :
    Owns tr t k c ∨ t = u ∧ (⟨o, i, a⟩ : Ev groupSig Inp) = ⟨.doEnter k, i, .lead c⟩ := by
  rcases (atCall_act hallow rfl).1 ho with ⟨rfl, ⟨s, hs⟩, hw⟩ | ⟨-, ho⟩
  · rcases (hallow.move a).owns hw with hw | ⟨key, s', hheld, heq⟩
    · exact Or.inl ⟨s, hs, hw⟩
    · cases heq
      cases hs.symm.trans hheld
      exact Or.inr ⟨rfl, rfl⟩
  · exact Or.inl ho

theorem joined_act {call : Call} (hallow : Allowed g call (hist tr u) o)
    (hj : Joined (.act u ⟨o, i, a⟩ :: tr) t k c) :
    Joined tr t k c ∨ t = u ∧ (⟨o, i, a⟩ : Ev groupSig Inp) = ⟨.doEnter k, i, .join c⟩ := by
  rcases (atCall_act hallow rfl).1 hj with ⟨rfl, ⟨s, hs⟩, hw⟩ | ⟨-, hj⟩
  · rcases (hallow.move a).waits hw with hw | ⟨key, s', hheld, heq⟩
    · exact Or.inl ⟨s, hs, hw⟩
    · cases heq
      cases hs.symm.trans hheld
      exact Or.inr ⟨rfl, rfl⟩
  · exact Or.inl hj

/-- The calls the events of a goroutine's own step can enter. -/
theorem entered_act {t' : Nat} (h : ∀ c, (⟨o, i, a⟩ : Ev groupSig Inp) ≠ ⟨.doEnter k, i, .lead c⟩)
    (he : Entered (.act u ⟨o, i, a⟩ :: tr) t' k c) : Entered tr t' k c := by
  obtain ⟨j, hj⟩ := he
  rcases List.mem_cons.1 hj with heq | hj
  · cases heq
    exact absurd rfl (h c)
  · exact ⟨j, hj⟩

/-- A new call gets a number no call had before. -/
theorem lead_eq_next (hx : Node.exec g (.doEnter key) i σ = some (.lead c, σ')) :
    c = σ.nextCall := by
  obtain ⟨-, σ₁, hact, -⟩ := exec_eq_some.1 hx
  have hans := congrArg Prod.fst (Option.some.inj hact)
  simp only [Group.doEnter] at hans
  split at hans <;> cases hans
  rfl

/-- Only the end of a call gives it a result. -/
theorem calls_of_exec {n : Nat} {r : FlightResult} (hx : Node.exec g o i σ = some (a, σ'))
    (hn : σ'.calls n = some r) : σ.calls n = some r ∨ o = .doDone n r := by
  by_cases ho : o.onFlights = true
  · obtain ⟨-, σ₁, hact, rfl⟩ := exec_eq_some.1 hx
    cases o with
    | doEnter key =>
      obtain rfl : (Group.doEnter key σ).2 = σ₁ := congrArg Prod.snd (Option.some.inj hact)
      unfold Group.doEnter at hn
      split at hn <;> exact Or.inl hn
    | doRemove key c =>
      cases hact
      exact Or.inl hn
    | doDone c r' =>
      cases hact
      by_cases hc : n = c
      · subst hc
        have hr : some r' = some r := (Function.update_self n (some r') σ.calls).symm.trans hn
        cases hr
        exact Or.inr rfl
      · exact Or.inl ((Function.update_of_ne hc (some r') σ.calls).symm.trans hn)
    | _ => cases ho
  · rw [((exec_frame hx).flights (Bool.eq_false_of_not_eq_true ho)).2.1] at hn
    exact Or.inl hn

namespace Flights

variable {call : Call}

theorem joined_cons {ℓ : Label (node g)} (h : Flights tr σ) (hj : Joined tr t k c) :
    ∃ u, Entered (ℓ :: tr) u k c := by
  obtain ⟨u, hu⟩ := h.joined t k c hj
  exact ⟨u, hu.cons⟩

theorem done_cons {ℓ : Label (node g)} {r : FlightResult} (h : Flights tr σ)
    (hr : σ.calls c = some r) :
    (∃ t i, .act t ⟨.doDone c r, i, ()⟩ ∈ ℓ :: tr) ∧ ∃ t k, Entered (ℓ :: tr) t k c := by
  obtain ⟨⟨t, j, hj⟩, t', k, he⟩ := h.done c r hr
  exact ⟨⟨t, j, List.mem_cons_of_mem _ hj⟩, t', k, he.cons⟩

theorem enter_join (h : Flights tr σ) {c₀ : Nat}
    (hallow : Allowed g call (hist tr u) (.doEnter key))
    (hk : σ.flights key = some c₀) : Flights (.act u ⟨.doEnter key, i, .join c₀⟩ :: tr) σ := by
  obtain ⟨-, s, hheld, hout⟩ := id hallow
  change (locOf tr u).held = _ at hheld
  change (locOf tr u).stage = _ at hout
  have hent : ∀ {t k c}, Entered (.act u ⟨.doEnter key, i, .join c₀⟩ :: tr : Trace g) t k c →
      Entered tr t k c := fun he => entered_act (fun c hc => by cases hc) he
  have hleads := fun t k c => atCall_act_of_eq (i := i) (o := .doEnter key)
    (a := Enter.join c₀) (t := t) (k := k) (c := c) (f := Stage.leads) hallow rfl
    (by rw [hout]; rfl)
  have howns := fun t k c => atCall_act_of_eq (i := i) (o := .doEnter key)
    (a := Enter.join c₀) (t := t) (k := k) (c := c) (f := Stage.owns) hallow rfl (by rw [hout]; rfl)
  refine ⟨?_, ?_, ?_, ?_, ?_, ?_, ?_⟩
  · intro k c hc
    obtain ⟨t, ht⟩ := h.registered k c hc
    exact ⟨t, (hleads t k c).2 ht⟩
  · intro t k c hc
    exact h.leads t k c ((hleads t k c).1 hc)
  · intro t k c hc
    exact (h.entered t k c ((howns t k c).1 hc)).cons
  · intro t t' k k' c h₁ h₂
    exact h.unique t t' k k' c (hent h₁) (hent h₂)
  · intro t k c hc
    rcases (atCall_act hallow rfl).1 hc with ⟨rfl, ⟨s', hs'⟩, hw⟩ | ⟨-, hc⟩
    · cases hheld.symm.trans hs'
      cases hw
      obtain ⟨v, hv⟩ := h.registered key c₀ hk
      exact ⟨v, (h.entered v key c₀ hv.owns).cons⟩
    · exact h.joined_cons hc
  · intro c r hc
    exact h.done_cons hc
  · exact fun t k c hc => h.fresh t k c (hent hc)

theorem enter_lead (h : Flights tr σ) (hallow : Allowed g call (hist tr u) (.doEnter key))
    (hk : σ.flights key = none) :
    Flights (.act u ⟨.doEnter key, i, .lead σ.nextCall⟩ :: tr)
      { σ with
        flights := Function.update σ.flights key (some σ.nextCall)
        nextCall := σ.nextCall + 1 } := by
  obtain ⟨-, s, hheld, hout⟩ := id hallow
  change (locOf tr u).held = _ at hheld
  change (locOf tr u).stage = _ at hout
  have hent : ∀ {t k c},
      Entered (.act u ⟨.doEnter key, i, .lead σ.nextCall⟩ :: tr : Trace g) t k c →
      (t = u ∧ k = key ∧ c = σ.nextCall) ∨ Entered tr t k c := by
    rintro t k c ⟨j, hj⟩
    rcases List.mem_cons.1 hj with heq | hj
    · cases heq
      exact Or.inl ⟨rfl, rfl, rfl⟩
    · exact Or.inr ⟨j, hj⟩
  refine ⟨?_, ?_, ?_, ?_, ?_, ?_, ?_⟩
  · intro k c hc
    by_cases hkk : k = key
    · subst hkk
      simp only [Function.update_self, Option.some.injEq] at hc
      subst hc
      exact ⟨u, (atCall_act hallow rfl).2 (Or.inl ⟨rfl, ⟨s, hheld⟩, rfl⟩)⟩
    · simp only [Function.update_of_ne hkk] at hc
      obtain ⟨t, ht⟩ := h.registered k c hc
      have htu : t ≠ u := by
        rintro rfl
        obtain ⟨_, -, hst⟩ := ht
        rw [hout] at hst
        cases hst
      exact ⟨t, (atCall_act hallow rfl).2 (Or.inr ⟨htu, ht⟩)⟩
  · intro t k c hc
    show Function.update σ.flights key (some σ.nextCall) k = some c
    rcases (atCall_act hallow rfl).1 hc with ⟨rfl, ⟨s', hs'⟩, hw⟩ | ⟨-, hc⟩
    · cases hheld.symm.trans hs'
      cases hw
      rw [Function.update_self]
    · have hkc := h.leads t k c hc
      rw [Function.update_of_ne fun e => by rw [e, hk] at hkc; cases hkc]
      exact hkc
  · intro t k c hc
    rcases (atCall_act hallow rfl).1 hc with ⟨rfl, ⟨s', hs'⟩, hw⟩ | ⟨-, hc⟩
    · cases hheld.symm.trans hs'
      cases hw
      exact ⟨i, List.mem_cons_self ..⟩
    · exact (h.entered t k c hc).cons
  · intro t t' k k' c h₁ h₂
    rcases hent h₁ with ⟨rfl, rfl, rfl⟩ | h₁' <;> rcases hent h₂ with ⟨rfl, rfl, hc⟩ | h₂
    · exact ⟨rfl, rfl⟩
    · exact absurd (h.fresh t' k' _ h₂) (Nat.lt_irrefl _)
    · subst hc
      exact absurd (h.fresh t k _ h₁') (Nat.lt_irrefl _)
    · exact h.unique t t' k k' c h₁' h₂
  · intro t k c hc
    have hc' := (atCall_act_of_eq hallow rfl (by rw [hout]; rfl)).1 hc
    exact h.joined_cons hc'
  · intro c r hc
    exact h.done_cons hc
  · intro t k c hc
    rcases hent hc with ⟨-, -, rfl⟩ | hc
    · exact Nat.lt_succ_self _
    · exact Nat.lt_succ_of_lt (h.fresh t k c hc)

theorem remove (h : Flights tr σ) {c₀ : Nat}
    (hallow : Allowed g call (hist tr u) (.doRemove key c₀)) :
    Flights (.act u ⟨.doRemove key c₀, i, ()⟩ :: tr)
      { σ with
        flights :=
          if σ.flights key = some c₀ then Function.update σ.flights key none else σ.flights } := by
  obtain ⟨s, hheld, r, hst⟩ := id hallow
  change (locOf tr u).held = _ at hheld
  change (locOf tr u).stage = _ at hst
  have hlead : Leads tr u key c₀ := ⟨s, hheld, by rw [hst]; rfl⟩
  have hent : ∀ {t k c}, Entered (.act u ⟨.doRemove key c₀, i, ()⟩ :: tr : Trace g) t k c →
      Entered tr t k c := fun he => entered_act (fun c hc => by cases hc) he
  -- the acting goroutine is the only leader of the call it removes
  have hleads : ∀ {t k c}, Leads (.act u ⟨.doRemove key c₀, i, ()⟩ :: tr : Trace g) t k c →
      Leads tr t k c ∧ k ≠ key := by
    intro t k c hc
    rcases (atCall_act hallow rfl).1 hc with ⟨rfl, -, hw⟩ | ⟨htu, hold⟩
    · simp only [Loc.next, hst] at hw
      cases hw
    · refine ⟨hold, ?_⟩
      rintro rfl
      have h₁ := h.leads t k c hold
      rw [h.leads u k c₀ hlead] at h₁
      cases h₁
      exact htu (h.unique t u k k c₀ (h.entered t k c₀ (Leads.owns hold))
        (h.entered u k c₀ hlead.owns)).1
  simp only [h.leads u key c₀ hlead, ↓reduceIte]
  refine ⟨?_, ?_, ?_, ?_, ?_, ?_, ?_⟩
  · intro k c hc
    by_cases hkk : k = key
    · subst hkk
      simp at hc
    · simp only [Function.update_of_ne hkk] at hc
      obtain ⟨t, ht⟩ := h.registered k c hc
      have htu : t ≠ u := by
        rintro rfl
        obtain ⟨s', hs', -⟩ := ht
        cases hheld.symm.trans hs'
        exact hkk rfl
      exact ⟨t, (atCall_act hallow rfl).2 (Or.inr ⟨htu, ht⟩)⟩
  · intro t k c hc
    obtain ⟨hc, hkk⟩ := hleads hc
    show Function.update σ.flights key none k = some c
    rw [Function.update_of_ne hkk]
    exact h.leads t k c hc
  · intro t k c hc
    have hc' := (atCall_act_of_eq hallow rfl (by simp only [Loc.next, hst]; rfl)).1 hc
    exact (h.entered t k c hc').cons
  · intro t t' k k' c h₁ h₂
    exact h.unique t t' k k' c (hent h₁) (hent h₂)
  · intro t k c hc
    have hc' := (atCall_act_of_eq hallow rfl (by simp only [Loc.next, hst]; rfl)).1 hc
    exact h.joined_cons hc'
  · intro c r hc
    exact h.done_cons hc
  · exact fun t k c hc => h.fresh t k c (hent hc)

theorem finish (h : Flights tr σ) {c₀ : Nat} {r : FlightResult}
    (hallow : Allowed g call (hist tr u) (.doDone c₀ r)) :
    Flights (.act u ⟨.doDone c₀ r, i, ()⟩ :: tr)
      { σ with calls := Function.update σ.calls c₀ (some r) } := by
  obtain ⟨key, s, hheld, hst⟩ := id hallow
  change (locOf tr u).held = _ at hheld
  change (locOf tr u).stage = _ at hst
  have hent : ∀ {t k c}, Entered (.act u ⟨.doDone c₀ r, i, ()⟩ :: tr : Trace g) t k c →
      Entered tr t k c := fun he => entered_act (fun c hc => by cases hc) he
  have hleads := fun t k c => atCall_act_of_eq (i := i) (o := .doDone c₀ r) (a := ())
    (t := t) (k := k) (c := c) (f := Stage.leads) hallow rfl (by rw [hst]; rfl)
  refine ⟨?_, ?_, ?_, ?_, ?_, ?_, ?_⟩
  · intro k c hc
    obtain ⟨t, ht⟩ := h.registered k c hc
    exact ⟨t, (hleads t k c).2 ht⟩
  · intro t k c hc
    exact h.leads t k c ((hleads t k c).1 hc)
  · intro t k c hc
    rcases (atCall_act hallow rfl).1 hc with ⟨rfl, -, hw⟩ | ⟨-, hc⟩
    · cases hw
    · exact (h.entered t k c hc).cons
  · intro t t' k k' c h₁ h₂
    exact h.unique t t' k k' c (hent h₁) (hent h₂)
  · intro t k c hc
    have hc' := (atCall_act_of_eq hallow rfl (by rw [hst]; rfl)).1 hc
    exact h.joined_cons hc'
  · intro c r' hc
    by_cases hcc : c = c₀
    · subst hcc
      simp only [Function.update_self, Option.some.injEq] at hc
      subst hc
      have howns : Owns tr u key c := ⟨s, hheld, by rw [hst]; rfl⟩
      exact ⟨⟨u, i, List.mem_cons_self ..⟩, u, key, (h.entered u key c howns).cons⟩
    · simp only [Function.update_of_ne hcc] at hc
      exact h.done_cons hc
  · exact fun t k c hc => h.fresh t k c (hent hc)

/-- One action keeps the invariant. -/
theorem act (h : Flights tr σ) (hallow : Allowed g call (hist tr u) o)
    (hx : Node.exec g o i σ = some (a, σ')) : Flights (.act u ⟨o, i, a⟩ :: tr) σ' := by
  obtain ⟨-, σ₁, hact, rfl⟩ := exec_eq_some.1 hx
  suffices hs : Flights (.act u ⟨o, i, a⟩ :: tr) σ₁ from
    ⟨hs.registered, hs.leads, hs.entered, hs.unique, hs.joined, hs.done, hs.fresh⟩
  by_cases hf : o.onFlights = true
  · cases o with
    | doEnter key =>
      obtain ⟨rfl, rfl⟩ := Prod.ext_iff.1 (Option.some.inj hact)
      unfold Group.doEnter
      split
      · next hk => exact h.enter_join hallow hk
      · next hk => exact h.enter_lead hallow hk
    | doRemove key c => cases hact; exact h.remove hallow
    | doDone c r => cases hact; exact h.finish hallow
    | _ => cases hf
  · have hf : o.onFlights = false := by simpa using hf
    obtain ⟨h₁, h₂, h₃⟩ := (act_frame hact).flights hf
    obtain ⟨hl, ho, hw⟩ := (hallow.move a).calls_eq hf
    have hent : ∀ {t k c}, Entered (.act u ⟨o, i, a⟩ :: tr : Trace g) t k c → Entered tr t k c :=
      fun he => entered_act (fun c hc => by cases hc; cases hf) he
    refine ⟨?_, ?_, ?_, ?_, ?_, ?_, ?_⟩
    · intro k c hc
      rw [h₁] at hc
      obtain ⟨t, ht⟩ := h.registered k c hc
      exact ⟨t, (atCall_act_of_eq hallow rfl hl).2 ht⟩
    · intro t k c hc
      rw [h₁]
      exact h.leads t k c ((atCall_act_of_eq hallow rfl hl).1 hc)
    · intro t k c hc
      exact (h.entered t k c ((atCall_act_of_eq hallow rfl ho).1 hc)).cons
    · intro t t' k k' c h₁ h₂
      exact h.unique t t' k k' c (hent h₁) (hent h₂)
    · intro t k c hc
      have hc' : Joined tr t k c := by
        rcases (atCall_act hallow rfl).1 hc with ⟨rfl, ⟨s, hs⟩, hst⟩ | ⟨-, hold⟩
        · refine ⟨s, hs, ?_⟩
          cases hwait : o.isWait with
          | false => rw [← hst]; exact (hw hwait).symm
          | true => cases o <;> first | cases hst | cases hwait
        · exact hold
      exact h.joined_cons hc'
    · intro c r hc
      rw [h₂] at hc
      exact h.done_cons hc
    · intro t k c hc
      rw [h₃]
      exact h.fresh t k c (hent hc)

/-- A step without an action keeps the invariant. -/
theorem other (h : Flights tr σ) {ℓ : Label (node g)} (hℓ : ∀ t e, ℓ ≠ .act t e)
    (hl : ∀ t, locOf (ℓ :: tr) t = locOf tr t) (h₁ : σ'.flights = σ.flights)
    (h₂ : σ'.calls = σ.calls) (h₃ : σ'.nextCall = σ.nextCall) : Flights (ℓ :: tr) σ' := by
  have hent : ∀ {t k c}, Entered (ℓ :: tr) t k c → Entered tr t k c := by
    rintro t k c ⟨j, hj⟩
    rcases List.mem_cons.1 hj with heq | hj
    · exact absurd heq.symm (hℓ _ _)
    · exact ⟨j, hj⟩
  have hat : ∀ {f t k c}, AtCall f (ℓ :: tr) t k c ↔ AtCall f tr t k c := by
    intro f t k c
    rw [AtCall, hl, AtCall]
  refine ⟨?_, ?_, ?_, ?_, ?_, ?_, ?_⟩
  · intro k c hc
    obtain ⟨t, ht⟩ := h.registered k c (h₁ ▸ hc)
    exact ⟨t, hat.2 ht⟩
  · intro t k c hc
    rw [h₁]
    exact h.leads t k c (hat.1 hc)
  · exact fun t k c hc => (h.entered t k c (hat.1 hc)).cons
  · exact fun t t' k k' c h₁ h₂ => h.unique t t' k k' c (hent h₁) (hent h₂)
  · intro t k c hc
    exact h.joined_cons (hat.1 hc)
  · intro c r hc
    exact h.done_cons (h₂ ▸ hc)
  · intro t k c hc
    rw [h₃]
    exact h.fresh t k c (hent hc)

/-- A call that is over was entered before. -/
theorem entered_of_calls {ℓ : Label (node g)} {r : FlightResult} (h : Flights tr σ)
    (h' : Flights (ℓ :: tr) σ') (hr : σ.calls c = some r) (hent : Entered (ℓ :: tr) t k c) :
    Entered tr t k c := by
  obtain ⟨-, t', k', hent'⟩ := h.done c r hr
  obtain ⟨rfl, rfl⟩ := h'.unique t t' k k' c hent hent'.cons
  exact hent'

/-- The goroutine that ends a call is the one that entered it. -/
theorem of_done {ℓ : Label (node g)} {r : FlightResult} (h : Flights tr σ)
    (h' : Flights (ℓ :: tr) σ') (hallow : Allowed g call (hist tr u) (.doDone c r))
    (hent : Entered (ℓ :: tr) t k c) : ∃ s, Entered tr t k c ∧
      (locOf tr t).held = some (k, s) ∧ (locOf tr t).stage = .removed c r := by
  obtain ⟨key, s, hheld, hst⟩ := hallow
  have hent' : Entered tr u key c := h.entered u key c (owns_of_decided hheld (Or.inr hst))
  obtain ⟨rfl, rfl⟩ := h'.unique t u k key c hent hent'.cons
  exact ⟨s, hent', hheld, hst⟩

end Flights

/-- **Singleflight over whole runs.** -/
theorem Run.flights {G : Guard (node g)} (h₀ : σ₀.Fresh) {c : Config (node g)}
    (h : Run G σ₀ c tr) : Flights tr c.state := by
  refine h.inv (P := protocol g) ⟨?_, ?_, ?_, ?_, ?_⟩
  · refine ⟨?_, ?_, ?_, ?_, ?_, ?_, ?_⟩
    · intro k c hc
      rw [h₀.flights] at hc
      cases hc
    · rintro t k c ⟨s, hs, -⟩
      cases hs
    · rintro t k c ⟨s, hs, -⟩
      cases hs
    · rintro t t' k k' c ⟨i, hi⟩
      cases hi
    · rintro t k c ⟨s, hs, -⟩
      cases hs
    · intro c r hc
      rw [h₀.calls] at hc
      cases hc
    · rintro t k c ⟨i, hi⟩
      cases hi
  · exact fun h _ _ _ => h.other (fun _ _ h => by cases h) (fun _ => rfl) rfl rfl rfl
  · exact fun h _ _ hallow hx => h.act hallow hx
  · exact fun h _ _ _ => h.other (fun _ _ h => by cases h) (fun _ => rfl) rfl rfl rfl
  · intro tr σ e σ' h _ hx
    obtain ⟨h₁, h₂, h₃⟩ := (env_frame hx).flights
    exact h.other (fun _ _ h => by cases h) (fun _ => rfl) h₁ h₂ h₃

end Locache
