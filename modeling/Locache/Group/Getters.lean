import Locache.Group.Freshness

/-!
# Getter calls

Every Getter call of a node has a number of its own, is made by one goroutine for one key, and
returns at most once. Until it returns, its goroutine is at the stage of the load where it waits for
the call (`Getters`).
-/

namespace Locache

open Conc

variable {g : Cfg} {tr : Trace g} {σ σ' σ₀ : State} {t u : Nat} {k key : GoString} {id : Nat}
  {o : Op} {i : Inp} {a : o.Ans} {call : Call}

/-- Goroutine `t` made the Getter call `id` for `k`. -/
def Started (tr : Trace g) (t : Nat) (k : GoString) (id : Nat) : Prop :=
  ∃ i, .act t ⟨.getterStart k, i, id⟩ ∈ tr

/-- The Getter call `id` of goroutine `t` returned `r`. -/
def Returned (tr : Trace g) (t id : Nat) (r : Except Panic (Except Err Bytes)) : Prop :=
  ∃ i, .act t ⟨.getterEnd id, i, r⟩ ∈ tr

/-- Goroutine `t` waits for the Getter call `id` for `k`. -/
def Waits (tr : Trace g) (t : Nat) (k : GoString) (id : Nat) : Prop :=
  ∃ s c n, (locOf tr t).held = some (k, s) ∧ (locOf tr t).stage = .loading c n id

structure Getters (tr : Trace g) (σ : State) : Prop where
  fresh : ∀ t k id, Started tr t k id → id < σ.nextGetter
  unique : ∀ t t' k k' id, Started tr t k id → Started tr t' k' id → t = t' ∧ k = k'
  started : ∀ t id r, Returned tr t id r → ∃ k, Started tr t k id
  once : ∀ t id r r', Returned tr t id r → Returned tr t id r' → r = r'
  waits : ∀ t k id, Waits tr t k id → Started tr t k id ∧ ∀ r, ¬Returned tr t id r
  running : ∀ t k id, Started tr t k id → (∃ r, Returned tr t id r) ∨ Waits tr t k id

theorem exists_mem_cons {f : Inp → Label (node g)} {ℓ : Label (node g)} :
    (∃ i, f i ∈ ℓ :: tr) ↔ (∃ i, ℓ = f i) ∨ ∃ i, f i ∈ tr := by
  simp only [List.mem_cons, exists_or, eq_comm]

theorem started_cons {ℓ : Label (node g)} :
    Started (ℓ :: tr) t k id ↔ (∃ i, ℓ = .act t ⟨.getterStart k, i, id⟩) ∨ Started tr t k id :=
  exists_mem_cons

theorem returned_cons {ℓ : Label (node g)} {r : Except Panic (Except Err Bytes)} :
    Returned (ℓ :: tr) t id r ↔ (∃ i, ℓ = .act t ⟨.getterEnd id, i, r⟩) ∨ Returned tr t id r :=
  exists_mem_cons

theorem started_cons_of_ne {ℓ : Label (node g)}
    (h : ∀ t k i id, ℓ ≠ .act t ⟨.getterStart k, i, id⟩) :
    Started (ℓ :: tr) t k id ↔ Started tr t k id := by
  rw [started_cons, or_iff_right]
  rintro ⟨i, heq⟩
  exact h t k i id heq

theorem returned_cons_of_ne {ℓ : Label (node g)} {r : Except Panic (Except Err Bytes)}
    (h : ∀ t id i r, ℓ ≠ .act t ⟨.getterEnd id, i, r⟩) :
    Returned (ℓ :: tr) t id r ↔ Returned tr t id r := by
  rw [returned_cons, or_iff_right]
  rintro ⟨i, heq⟩
  exact h t id i r heq

theorem started_start {n : Nat} : Started (.act u ⟨.getterStart key, i, n⟩ :: tr) t k id ↔
    (t = u ∧ k = key ∧ id = n) ∨ Started tr t k id := by
  rw [started_cons]
  refine or_congr ⟨?_, ?_⟩ Iff.rfl
  · rintro ⟨j, heq⟩
    cases heq
    exact ⟨rfl, rfl, rfl⟩
  · rintro ⟨rfl, rfl, rfl⟩
    exact ⟨i, rfl⟩

theorem returned_end {n : Nat} {r r' : Except Panic (Except Err Bytes)} :
    Returned (.act u ⟨.getterEnd n, i, r⟩ :: tr) t id r' ↔
      (t = u ∧ id = n ∧ r' = r) ∨ Returned tr t id r' := by
  rw [returned_cons]
  refine or_congr ⟨?_, ?_⟩ Iff.rfl
  · rintro ⟨j, heq⟩
    cases heq
    exact ⟨rfl, rfl, rfl⟩
  · rintro ⟨rfl, rfl, rfl⟩
    exact ⟨i, rfl⟩

/-- An action that starts or ends no Getter call leaves a goroutine waiting, or not. -/
theorem Move.loading {e : Option Nat} {y y' : Option (GoString × Nat)} {st st' : Stage} {c n : Nat}
    {x : GoString × Nat} (hm : Move e o a y st y' st') (hstart : o.startsGetter = false)
    (hend : ∀ id, o ≠ .getterEnd id) :
    y' = some x ∧ st' = .loading c n id ↔ y = some x ∧ st = .loading c n id := by
  cases hm with
  | call => cases hstart
  | panicked | failed | fetched => exact absurd rfl (hend _)
  | stay => exact Iff.rfl
  | _ => exact iff_of_false (fun h => by cases h.2) fun h => by cases h.2

theorem waits_act_ne (h : u ≠ t) : Waits (.act u ⟨o, i, a⟩ :: tr) t k id ↔ Waits tr t k id := by
  unfold Waits
  rw [locOf_act_ne h]

namespace Getters

/-- A step that starts or ends no Getter call. -/
theorem other (h : Getters tr σ) {ℓ : Label (node g)}
    (hs : ∀ t k i id, ℓ ≠ .act t ⟨.getterStart k, i, id⟩)
    (he : ∀ t id i r, ℓ ≠ .act t ⟨.getterEnd id, i, r⟩)
    (hw : ∀ t k id, Waits (ℓ :: tr) t k id ↔ Waits tr t k id) (hn : σ'.nextGetter = σ.nextGetter) :
    Getters (ℓ :: tr) σ' := by
  have hs : ∀ t k id, Started (ℓ :: tr) t k id ↔ Started tr t k id :=
    fun _ _ _ => started_cons_of_ne hs
  have he : ∀ t id r, Returned (ℓ :: tr) t id r ↔ Returned tr t id r :=
    fun _ _ _ => returned_cons_of_ne he
  constructor
  · intro t k id
    rw [hs, hn]
    exact h.fresh t k id
  · intro t t' k k' id
    rw [hs, hs]
    exact h.unique t t' k k' id
  · intro t id r
    rw [he]
    simp only [hs]
    exact h.started t id r
  · intro t id r r'
    rw [he, he]
    exact h.once t id r r'
  · intro t k id
    rw [hw, hs]
    simp only [he]
    exact h.waits t k id
  · intro t k id
    rw [hs, hw]
    simp only [he]
    exact h.running t k id

theorem start (h : Getters tr σ) (hallow : Allowed g call (hist tr u) (.getterStart key))
    (hx : Node.exec g (.getterStart key) i σ = some (id, σ')) :
    Getters (.act u ⟨.getterStart key, i, id⟩ :: tr) σ' := by
  obtain ⟨-, s, hheld, c, n, hst⟩ := hallow
  change (locOf tr u).held = _ at hheld
  change (locOf tr u).stage = _ at hst
  obtain ⟨-, σ₁, hact, rfl⟩ := exec_eq_some.1 hx
  cases hact
  have hs : ∀ t k id', Started (.act u ⟨.getterStart key, i, σ.nextGetter⟩ :: tr) t k id' ↔
      (t = u ∧ k = key ∧ id' = σ.nextGetter) ∨ Started tr t k id' := fun _ _ _ => started_start
  have he : ∀ t id' r, Returned (.act u ⟨.getterStart key, i, σ.nextGetter⟩ :: tr) t id' r ↔
      Returned tr t id' r :=
    fun _ _ _ => returned_cons_of_ne fun _ _ _ _ heq => by cases heq
  have hnone : ∀ t k, ¬Started tr t k σ.nextGetter := fun t k hst =>
    Nat.lt_irrefl _ (h.fresh t k _ hst)
  have hu : ∀ k id', ¬Waits tr u k id' := by
    rintro k id' ⟨s', c', n', -, hst'⟩
    rw [hst] at hst'
    cases hst'
  have hnow : Waits (.act u ⟨.getterStart key, i, σ.nextGetter⟩ :: tr) u key σ.nextGetter := by
    refine ⟨s, c, n, ?_, ?_⟩
    · rw [locOf_act_self]
      exact hheld
    · rw [locOf_act_self]
      simp only [Loc.next, hst]
      rfl
  constructor
  · intro t k id' hst'
    rcases (hs t k id').1 hst' with ⟨-, -, rfl⟩ | hold
    · exact Nat.lt_succ_self _
    · exact Nat.lt_succ_of_lt (h.fresh t k id' hold)
  · intro t t' k k' id' h₁ h₂
    rcases (hs t k id').1 h₁ with ⟨rfl, rfl, rfl⟩ | h₁
    · rcases (hs t' k' _).1 h₂ with ⟨rfl, rfl, -⟩ | h₂
      · exact ⟨rfl, rfl⟩
      · exact absurd h₂ (hnone _ _)
    · rcases (hs t' k' id').1 h₂ with ⟨-, -, rfl⟩ | h₂
      · exact absurd h₁ (hnone _ _)
      · exact h.unique t t' k k' id' h₁ h₂
  · intro t id' r hr
    obtain ⟨k, hk⟩ := h.started t id' r ((he t id' r).1 hr)
    exact ⟨k, (hs t k id').2 (Or.inr hk)⟩
  · intro t id' r r' hr hr'
    exact h.once t id' r r' ((he t id' r).1 hr) ((he t id' r').1 hr')
  · intro t k id' hw
    by_cases htu : u = t
    · subst htu
      obtain ⟨s', c', n', hheld', hst'⟩ := hw
      rw [locOf_act_self] at hheld' hst'
      simp only [Loc.next, hst] at hst'
      cases hst'
      cases hheld.symm.trans hheld'
      refine ⟨(hs _ _ _).2 (Or.inl ⟨rfl, rfl, rfl⟩), ?_⟩
      intro r hr
      obtain ⟨k, hk⟩ := h.started _ _ r ((he _ _ r).1 hr)
      exact hnone _ _ hk
    · obtain ⟨h₁, h₂⟩ := h.waits t k id' ((waits_act_ne htu).1 hw)
      exact ⟨(hs t k id').2 (Or.inr h₁), fun r hr => h₂ r ((he t id' r).1 hr)⟩
  · intro t k id' hst'
    rcases (hs t k id').1 hst' with ⟨rfl, rfl, rfl⟩ | hold
    · exact Or.inr hnow
    · rcases h.running t k id' hold with ⟨r, hr⟩ | hw
      · exact Or.inl ⟨r, (he t id' r).2 hr⟩
      · refine Or.inr ((waits_act_ne ?_).2 hw)
        rintro rfl
        exact hu k id' hw

theorem finish (h : Getters tr σ) {r : Except Panic (Except Err Bytes)}
    (hallow : Allowed g call (hist tr u) (.getterEnd id))
    (hx : Node.exec g (.getterEnd id) i σ = some (r, σ')) :
    Getters (.act u ⟨.getterEnd id, i, r⟩ :: tr) σ' := by
  obtain ⟨key, s, hheld, c, n, hst⟩ := hallow
  have hwait : Waits tr u key id := ⟨s, c, n, hheld, hst⟩
  obtain ⟨hstarted, hopen⟩ := h.waits u key id hwait
  have hn : σ'.nextGetter = σ.nextGetter := (exec_frame hx).getters rfl
  have hs : ∀ t k id', Started (.act u ⟨.getterEnd id, i, r⟩ :: tr) t k id' ↔
      Started tr t k id' :=
    fun _ _ _ => started_cons_of_ne fun _ _ _ _ heq => by cases heq
  have he : ∀ t id' r', Returned (.act u ⟨.getterEnd id, i, r⟩ :: tr) t id' r' ↔
      (t = u ∧ id' = id ∧ r' = r) ∨ Returned tr t id' r' := fun _ _ _ => returned_end
  -- the goroutine waits for no other call, and for none after this
  have hsame : ∀ k id', Waits tr u k id' → id' = id := by
    rintro k id' ⟨_, _, _, -, hst'⟩
    cases hst.symm.trans hst'
    rfl
  have hdone : ∀ k id', ¬Waits (.act u ⟨.getterEnd id, i, r⟩ :: tr) u k id' := by
    rintro k id' ⟨s', c', n', -, hst'⟩
    rw [locOf_act_self] at hst'
    simp only [Loc.next, show (locOf tr u).stage = _ from hst] at hst'
    rcases r with p | (err | b) <;> cases hst'
  constructor
  · intro t k id'
    rw [hs, hn]
    exact h.fresh t k id'
  · intro t t' k k' id'
    rw [hs, hs]
    exact h.unique t t' k k' id'
  · intro t id' r' hr
    simp only [hs]
    rcases (he t id' r').1 hr with ⟨rfl, rfl, -⟩ | hr
    · exact ⟨key, hstarted⟩
    · exact h.started t id' r' hr
  · intro t id' r₁ r₂ h₁ h₂
    rw [he] at h₁ h₂
    rcases h₁ with ⟨rfl, rfl, rfl⟩ | h₁
    · rcases h₂ with ⟨-, -, rfl⟩ | h₂
      · rfl
      · exact absurd h₂ (hopen r₂)
    · rcases h₂ with ⟨rfl, rfl, rfl⟩ | h₂
      · exact absurd h₁ (hopen r₁)
      · exact h.once t id' r₁ r₂ h₁ h₂
  · intro t k id' hw
    by_cases htu : u = t
    · subst htu
      exact absurd hw (hdone k id')
    · obtain ⟨h₁, h₂⟩ := h.waits t k id' ((waits_act_ne htu).1 hw)
      refine ⟨(hs t k id').2 h₁, ?_⟩
      intro r' hr
      rcases (he t id' r').1 hr with ⟨rfl, -, -⟩ | hr
      · exact htu rfl
      · exact h₂ r' hr
  · intro t k id' hst'
    rcases h.running t k id' ((hs t k id').1 hst') with ⟨r', hr⟩ | hw
    · exact Or.inl ⟨r', (he t id' r').2 (Or.inr hr)⟩
    · by_cases htu : u = t
      · subst htu
        cases hsame k id' hw
        exact Or.inl ⟨r, (he u id r).2 (Or.inl ⟨rfl, rfl, rfl⟩)⟩
      · exact Or.inr ((waits_act_ne htu).2 hw)

theorem act (h : Getters tr σ) (hallow : Allowed g call (hist tr u) o)
    (hx : Node.exec g o i σ = some (a, σ')) : Getters (.act u ⟨o, i, a⟩ :: tr) σ' := by
  have hrest : o.startsGetter = false → (∀ id, o ≠ .getterEnd id) →
      Getters (.act u ⟨o, i, a⟩ :: tr) σ' := by
    intro hstart hend
    refine h.other ?_ ?_ ?_ ((exec_frame hx).getters hstart)
    · rintro t k j id ⟨⟩
      cases hstart
    · rintro t id j r ⟨⟩
      exact hend id rfl
    · intro t k id
      by_cases htu : u = t
      · subst htu
        unfold Waits
        rw [locOf_act_self]
        refine exists_congr fun s => exists_congr fun c => exists_congr fun n => ?_
        exact (hallow.move a).loading hstart hend
      · exact waits_act_ne htu
  cases o with
  | getterStart key => exact h.start hallow hx
  | getterEnd id => exact h.finish hallow hx
  | _ => exact hrest rfl fun id heq => by cases heq

end Getters

/-- **Getter calls over whole runs.** -/
theorem Run.getters {G : Guard (node g)} {c : Config (node g)} (h : Run G σ₀ c tr) :
    Getters tr c.state := by
  have hquiet : ∀ {tr : Trace g} {σ σ' : State} {ℓ : Label (node g)}, Getters tr σ →
      (∀ t e, ℓ ≠ .act t e) → (∀ t, locOf (ℓ :: tr) t = locOf tr t) →
      σ'.nextGetter = σ.nextGetter → Getters (ℓ :: tr) σ' := by
    intro tr σ σ' ℓ h hℓ hloc hn
    refine h.other (fun _ _ _ _ => hℓ _ _) (fun _ _ _ _ => hℓ _ _) ?_ hn
    intro t k id
    unfold Waits
    rw [hloc]
  refine h.inv (P := protocol g) (I := Getters) ⟨?_, ?_, ?_, ?_, ?_⟩
  · constructor
    · rintro t k id ⟨i, hm⟩
      cases hm
    · rintro t t' k k' id ⟨i, hm⟩
      cases hm
    · rintro t id r ⟨i, hm⟩
      cases hm
    · rintro t id r r' ⟨i, hm⟩
      cases hm
    · rintro t k id ⟨s, c, n, hheld, -⟩
      cases hheld
    · rintro t k id ⟨i, hm⟩
      cases hm
  · exact fun h _ _ _ => hquiet h (fun t e heq => by cases heq) (fun t => locOf_spawn) rfl
  · exact fun h _ _ hallow hx => h.act hallow hx
  · exact fun h _ _ _ => hquiet h (fun t e heq => by cases heq) (fun t => locOf_ret) rfl
  · intro tr σ e σ' h _ hx
    exact hquiet h (fun t e heq => by cases heq) (fun t => locOf_env) (env_frame hx).getters

end Locache
