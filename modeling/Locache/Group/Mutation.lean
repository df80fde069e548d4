import Locache.Group.Effects
import Mathlib.Data.Finset.Card

/-!
# Mutations and loads of one key

A load reads the generation of its key's mutation state before it calls the Getter and compares it
before it stores. Two invariants make the comparison meaningful. The reference counts are the
numbers of holders, so a held state stays the one the key maps to and every goroutine that holds
the key holds the same state (`KeyStates`). Hence the generation of the state a load holds is the
one it read plus the number of mutations of the key since then (`Loads`), up to the wrap-around of
`uint64`.
-/

namespace Locache

open Conc

variable {g : Cfg} {tr : Trace g} {σ σ' σ₀ : State} {t u : Nat} {k key : GoString}
  {o : Op} {i : Inp} {a : o.Ans}

/-! ## The reference-counted mutation states -/

/-- How the mutation states relate to the goroutines that hold them. -/
structure KeyStates (tr : Trace g) (σ : State) : Prop where
  refs : ∀ k s, σ.keyStates k = some s → ∃ F : Finset Nat, (σ.states s).refs = F.card ∧
    ∀ t, t ∈ F ↔ (locOf tr t).held = some (k, s)
  held : ∀ t k s, (locOf tr t).held = some (k, s) → σ.keyStates k = some s
  inj : ∀ k k' s, σ.keyStates k = some s → σ.keyStates k' = some s → k = k'
  fresh : ∀ k s, σ.keyStates k = some s → s < σ.nextState

namespace KeyStates

theorem frame (h : KeyStates tr σ) {tr' : Trace g}
    (hl : ∀ t, (locOf tr' t).held = (locOf tr t).held)
    (hk : σ'.keyStates = σ.keyStates) (hr : ∀ s, (σ'.states s).refs = (σ.states s).refs)
    (hn : σ'.nextState = σ.nextState) : KeyStates tr' σ' := by
  refine ⟨?_, ?_, ?_, ?_⟩
  · simpa only [hl, hk, hr] using h.refs
  · simpa only [hl, hk] using h.held
  · simpa only [hk] using h.inj
  · simpa only [hk, hn] using h.fresh

/-- Two goroutines that hold one key hold one state, and no other key has it. -/
theorem eq_iff (h : KeyStates tr σ) {k k' : GoString} {s s' : Nat}
    (ht : (locOf tr t).held = some (k, s)) (hu : (locOf tr u).held = some (k', s')) :
    k' = k ↔ s' = s := by
  have h₁ := h.held t k s ht
  have h₂ := h.held u k' s' hu
  constructor
  · rintro rfl
    rw [h₁] at h₂
    cases h₂
    rfl
  · rintro rfl
    exact h.inj k' k s' h₂ h₁

end KeyStates

theorem held_act (h : ∀ x, Loc.nextHeld o a x = x) (u : Nat) :
    (locOf (.act t ⟨o, i, a⟩ :: tr : Trace g) u).held = (locOf tr u).held := by
  by_cases htu : t = u
  · subst htu
    rw [locOf_act_self]
    exact h _
  · rw [locOf_act_ne htu]

namespace KeyStates

/-- A goroutine that takes up a state that exists is one more holder of it. -/
theorem acquire_some (h : KeyStates tr σ) (hidle : (locOf tr t).held = none) {s : Nat}
    (hk : σ.keyStates key = some s) :
    KeyStates (.act t ⟨.acquireKeyState key, i, s⟩ :: tr)
      { σ with
        states := Function.update σ.states s
          { σ.states s with refs := (σ.states s).refs + 1 } } := by
  have hself : (locOf (.act t ⟨.acquireKeyState key, i, s⟩ :: tr : Trace g) t).held =
      some (key, s) := by rw [locOf_act_self]; rfl
  have hother : ∀ u, t ≠ u → (locOf (.act t ⟨.acquireKeyState key, i, s⟩ :: tr : Trace g) u).held =
      (locOf tr u).held := fun u hu => by rw [locOf_act_ne hu]
  refine ⟨fun k s' hk' => ?_, fun u k s' hu => ?_, h.inj, h.fresh⟩
  · obtain ⟨F, hF, hmem⟩ := h.refs k s' hk'
    by_cases hks : k = key
    · subst hks
      obtain rfl : s' = s := Option.some.inj (hk'.symm.trans hk)
      have htF : t ∉ F := fun ht => by rw [hmem, hidle] at ht; cases ht
      refine ⟨insert t F, ?_, fun u => ?_⟩
      · simp [hF, Finset.card_insert_of_notMem htF]
      · rw [Finset.mem_insert]
        by_cases htu : t = u
        · subst htu
          simp [hself]
        · simp [hother u htu, hmem, Ne.symm htu]
    · have hss : s' ≠ s := fun e => hks (h.inj k key s (e ▸ hk') hk)
      refine ⟨F, by simp [Function.update_of_ne hss, hF], fun u => ?_⟩
      by_cases htu : t = u
      · subst htu
        simp [hself, hmem, hidle, Ne.symm hks]
      · rw [hother u htu, hmem]
  · by_cases htu : t = u
    · subst htu
      rw [hself] at hu
      cases hu
      exact hk
    · rw [hother u htu] at hu
      exact h.held u k s' hu

/-- A key without a state gets one nobody has. -/
theorem acquire_none (h : KeyStates tr σ) (hidle : (locOf tr t).held = none)
    (hk : σ.keyStates key = none) :
    KeyStates (.act t ⟨.acquireKeyState key, i, σ.nextState⟩ :: tr)
      { σ with
        keyStates := Function.update σ.keyStates key (some σ.nextState)
        states := Function.update σ.states σ.nextState ⟨0, 1⟩
        nextState := σ.nextState + 1 } := by
  have hself : (locOf (.act t ⟨.acquireKeyState key, i, σ.nextState⟩ :: tr : Trace g) t).held =
      some (key, σ.nextState) := by rw [locOf_act_self]; rfl
  have hother : ∀ u, t ≠ u →
      (locOf (.act t ⟨.acquireKeyState key, i, σ.nextState⟩ :: tr : Trace g) u).held =
        (locOf tr u).held := fun u hu => by rw [locOf_act_ne hu]
  have hlook : ∀ k s, Function.update σ.keyStates key (some σ.nextState) k = some s →
      (k = key ∧ s = σ.nextState) ∨ (k ≠ key ∧ σ.keyStates k = some s ∧ s < σ.nextState) := by
    intro k s hks
    by_cases hkk : k = key
    · subst hkk
      rw [Function.update_self] at hks
      exact Or.inl ⟨rfl, (Option.some.inj hks).symm⟩
    · rw [Function.update_of_ne hkk] at hks
      exact Or.inr ⟨hkk, hks, h.fresh k s hks⟩
  refine ⟨fun k s hks => ?_, fun u k s hu => ?_, fun k k' s h₁ h₂ => ?_, fun k s hks => ?_⟩
  · rcases hlook k s hks with ⟨rfl, rfl⟩ | ⟨hkk, hks, hlt⟩
    · refine ⟨{t}, by simp, fun u => ?_⟩
      rw [Finset.mem_singleton]
      by_cases htu : t = u
      · subst htu
        simp [hself]
      · rw [hother u htu]
        refine ⟨fun e => absurd e.symm htu, fun hu => ?_⟩
        rw [h.held u k _ hu] at hk
        cases hk
    · obtain ⟨F, hF, hmem⟩ := h.refs k s hks
      refine ⟨F, by simp [Function.update_of_ne (Nat.ne_of_lt hlt), hF], fun u => ?_⟩
      by_cases htu : t = u
      · subst htu
        simp [hself, hmem, hidle, Ne.symm hkk]
      · rw [hother u htu, hmem]
  · show Function.update σ.keyStates key (some σ.nextState) k = some s
    by_cases htu : t = u
    · subst htu
      rw [hself] at hu
      cases hu
      rw [Function.update_self]
    · rw [hother u htu] at hu
      have hks := h.held u k s hu
      rw [Function.update_of_ne fun e => by rw [e, hk] at hks; cases hks]
      exact hks
  · rcases hlook k s h₁ with ⟨rfl, rfl⟩ | ⟨_, h₁, hlt₁⟩ <;>
      rcases hlook k' _ h₂ with ⟨rfl, he⟩ | ⟨_, h₂, hlt₂⟩
    · rfl
    · omega
    · omega
    · exact h.inj k k' s h₁ h₂
  · rcases hlook k s hks with ⟨-, rfl⟩ | ⟨-, -, hlt⟩
    · exact Nat.lt_succ_self _
    · exact Nat.lt_succ_of_lt hlt

/-- The last holder removes the state from the map; as long as there is another one it stays. -/
theorem release (h : KeyStates tr σ) {s : Nat} (hheld : (locOf tr t).held = some (key, s)) :
    KeyStates (.act t ⟨.releaseKeyState key s, i, ()⟩ :: tr) (Group.releaseKeyState key s σ) := by
  have hself : (locOf (.act t ⟨.releaseKeyState key s, i, ()⟩ :: tr : Trace g) t).held = none := by
    rw [locOf_act_self]; rfl
  have hother : ∀ u, t ≠ u →
      (locOf (.act t ⟨.releaseKeyState key s, i, ()⟩ :: tr : Trace g) u).held =
        (locOf tr u).held := fun u hu => by rw [locOf_act_ne hu]
  have hks := h.held t key s hheld
  obtain ⟨F, hF, hmem⟩ := h.refs key s hks
  have htF : t ∈ F := (hmem t).2 hheld
  have hlook : ∀ k s', (Group.releaseKeyState key s σ).keyStates k = some s' →
      σ.keyStates k = some s' := by
    intro k s' hk
    simp only [Group.releaseKeyState] at hk
    split at hk
    · by_cases hkk : k = key
      · subst hkk
        rw [Function.update_self] at hk
        cases hk
      · rwa [Function.update_of_ne hkk] at hk
    · exact hk
  refine ⟨fun k s' hk => ?_, fun u k s' hu => ?_, fun k k' s' h₁ h₂ => ?_, fun k s' hk => ?_⟩
  · have hk' := hlook k s' hk
    by_cases hkk : k = key
    · subst hkk
      obtain rfl : s' = s := Option.some.inj (hk'.symm.trans hks)
      refine ⟨F.erase t, ?_, fun u => ?_⟩
      · have := Finset.card_erase_add_one htF
        simp only [Group.releaseKeyState, Function.update_self, hF]
        omega
      · rw [Finset.mem_erase]
        by_cases htu : t = u
        · subst htu
          simp [hself]
        · simp [hother u htu, hmem, Ne.symm htu]
    · obtain ⟨F', hF', hmem'⟩ := h.refs k s' hk'
      have hss : s' ≠ s := fun e => hkk (h.inj k key s (e ▸ hk') hks)
      refine ⟨F', by simp [Group.releaseKeyState, Function.update_of_ne hss, hF'], fun u => ?_⟩
      by_cases htu : t = u
      · subst htu
        simp [hself, hmem', hheld, Ne.symm hkk]
      · rw [hother u htu, hmem']
  · by_cases htu : t = u
    · subst htu
      rw [hself] at hu
      cases hu
    · rw [hother u htu] at hu
      have hk := h.held u k s' hu
      simp only [Group.releaseKeyState]
      split
      · next hlast =>
        by_cases hkk : k = key
        · subst hkk
          obtain rfl : s' = s := Option.some.inj (hk.symm.trans hks)
          have hcard : F.card = 1 := by have := hlast.1; omega
          obtain ⟨x, rfl⟩ := Finset.card_eq_one.1 hcard
          have h₁ := Finset.mem_singleton.1 htF
          have h₂ := Finset.mem_singleton.1 ((hmem u).2 hu)
          exact absurd (h₁.trans h₂.symm) htu
        · rw [Function.update_of_ne hkk]
          exact hk
      · exact hk
  · exact h.inj k k' s' (hlook k s' h₁) (hlook k' s' h₂)
  · exact h.fresh k s' (hlook k s' hk)

/-- One action keeps the invariant. -/
theorem act {call : Call} (h : KeyStates tr σ) (hallow : Allowed g call (hist tr t) o)
    (hx : Node.exec g o i σ = some (a, σ')) : KeyStates (.act t ⟨o, i, a⟩ :: tr) σ' := by
  obtain ⟨-, σ₁, hact, rfl⟩ := exec_eq_some.1 hx
  suffices hs : KeyStates (.act t ⟨o, i, a⟩ :: tr) σ₁ from
    hs.frame (fun _ => rfl) rfl (fun _ => rfl) rfl
  cases o with
  | acquireKeyState key =>
    obtain ⟨rfl, rfl⟩ := Prod.ext_iff.1 (Option.some.inj hact)
    have hidle : (locOf tr t).held = none := hallow.1
    unfold Group.acquireKeyState
    split
    · next hk => exact h.acquire_some hidle hk
    · next hk => exact h.acquire_none hidle hk
  | releaseKeyState key s => cases hact; exact h.release hallow.1
  | setSection s key value =>
    cases hact
    refine h.frame (held_act fun _ => rfl) rfl (fun s' => ?_) rfl
    by_cases hs : s' = s
    · subst hs; simp [Group.setSection, MutationState.bump]
    · simp [Group.setSection, Function.update_of_ne hs]
  | deleteSection s key =>
    cases hact
    refine h.frame (held_act fun _ => rfl) rfl (fun s' => ?_) rfl
    by_cases hs : s' = s
    · subst hs; simp [MutationState.bump]
    · simp [Function.update_of_ne hs]
  | _ =>
    obtain ⟨h₁, h₂, h₃⟩ := (act_frame hact).states rfl
    exact h.frame (held_act fun _ => rfl) h₁ (fun s => by rw [h₂]) h₃

end KeyStates

/-- **The mutation states over whole runs.** -/
theorem Run.keyStates {G : Guard (node g)} (h₀ : σ₀.Fresh) {c : Config (node g)}
    (h : Run G σ₀ c tr) : KeyStates tr c.state := by
  refine h.inv (P := protocol g) ⟨?_, ?_, ?_, ?_, ?_⟩
  · refine ⟨fun k s hk => ?_, fun t k s hk => (by cases hk), fun k k' s hk => ?_,
      fun k s hk => ?_⟩ <;>
      (rw [h₀.keyStates] at hk; cases hk)
  · exact fun h _ _ _ => h.frame (fun _ => rfl) rfl (fun _ => rfl) rfl
  · exact fun h _ _ hallow hx => h.act hallow hx
  · exact fun h _ _ _ => h.frame (fun _ => rfl) rfl (fun _ => rfl) rfl
  · intro tr σ e σ' h _ hx
    obtain ⟨h₁, h₂, h₃⟩ := (env_frame hx).states
    exact h.frame (fun _ => rfl) h₁ (fun s => by rw [h₂]) h₃

theorem Run.mainOk {G : Guard (node g)} (h₀ : σ₀.Fresh) {c : Config (node g)}
    (h : Run G σ₀ c tr) : MainOk g c.state := by
  refine h.inv (P := protocol g) (I := fun _ σ => MainOk g σ) ⟨?_, ?_, ?_, ?_, ?_⟩
  · exact ⟨h₀.main_wf, fun _ k v d hx => by rw [h₀.main_view] at hx; cases hx⟩
  · exact fun h _ _ _ => h
  · exact fun h _ _ _ hx => h.exec hx
  · exact fun h _ _ _ => h
  · exact fun h _ hx => h.env hx

/-! ## Loads -/

/-- A mutation of `k`. -/
def Mutation (k : GoString) : Label (node g) → Bool
  | .act _ e => e.op.mutates k
  | _ => false

/-- The number of mutations of `k`. -/
def mutations (k : GoString) (tr : Trace g) : Nat := tr.countP (Mutation k)

/-- The two critical sections of a load. -/
def Op.onLoad : Op → Bool
  | .loadBegin _ _ | .loadCommit _ _ _ _ => true
  | _ => false

/-- Goroutine `t` begins a load. -/
def Begins (t : Nat) : Label (node g) → Bool
  | .act u ⟨.loadBegin _ _, _, _⟩ => u = t
  | _ => false

/-- The steps `w` are those since goroutine `t` read the generation `n` of state `s` for its current
load of `k`. -/
def LoadWindow (t : Nat) (k : GoString) (s n : Nat) (tr w : Trace g) : Prop :=
  (∃ j tr', tr = w ++ .act t ⟨.loadBegin s k, j, .generation n⟩ :: tr') ∧
    ∀ ℓ ∈ w, Begins t ℓ = false

/-- In the steps `w` goroutine `t` called the Getter for `k` and got `b`. -/
def Fetched (t : Nat) (k : GoString) (b : Bytes) (w : Trace g) : Prop :=
  ∃ id i j, .act t ⟨.getterStart k, i, id⟩ ∈ w ∧ .act t ⟨.getterEnd id, j, .ok (.ok b)⟩ ∈ w

/-- The generation a load has read. -/
def Stage.start : Stage → Option Nat
  | .begun _ n | .loading _ n _ | .loaded _ n _ => some n
  | _ => none

/-- What a load has done in the steps `w` since it began. -/
def Stage.Since (t : Nat) (k : GoString) (w : Trace g) : Stage → Prop
  | .loading _ _ id => ∃ i, .act t ⟨.getterStart k, i, id⟩ ∈ w
  | .loaded _ _ b => Fetched t k b w
  | _ => True

theorem mutations_cons (k : GoString) (ℓ : Label (node g)) (w : Trace g) :
    mutations k (ℓ :: w) = mutations k w + if Mutation k ℓ then 1 else 0 := List.countP_cons

theorem LoadWindow.cons {s n : Nat} {w : Trace g} {ℓ : Label (node g)}
    (h : LoadWindow t k s n tr w) (hℓ : Begins t ℓ = false) :
    LoadWindow t k s n (ℓ :: tr) (ℓ :: w) := by
  obtain ⟨⟨j, tr', rfl⟩, hw⟩ := h
  exact ⟨⟨j, tr', rfl⟩, List.forall_mem_cons.2 ⟨hℓ, hw⟩⟩

theorem Stage.Since.cons {w : Trace g} {st : Stage} (h : st.Since t k w) (ℓ : Label (node g)) :
    st.Since t k (ℓ :: w) := by
  cases st with
  | loading c n id =>
    obtain ⟨i, hi⟩ := h
    exact ⟨i, List.mem_cons_of_mem _ hi⟩
  | loaded c n b =>
    obtain ⟨id, i, j, hi, hj⟩ := h
    exact ⟨id, i, j, List.mem_cons_of_mem _ hi, List.mem_cons_of_mem _ hj⟩
  | _ => trivial

/-- The generation of a held state counts the mutations of its key, whoever makes them. -/
theorem KeyStates.generation_act {call : Call} {s : Nat} (h : KeyStates tr σ)
    (hlt : (σ.states s).generation < 2 ^ 64) (ht : (locOf tr t).held = some (k, s))
    (hallow : Allowed g call (hist tr u) o) (hx : Node.exec g o i σ = some (a, σ')) :
    (σ'.states s).generation =
      ((σ.states s).generation + if o.mutates k then 1 else 0) % 2 ^ 64 := by
  obtain ⟨-, σ₁, hact, rfl⟩ := exec_eq_some.1 hx
  show (σ₁.states s).generation = _
  have hkeep : ∀ {x : Nat}, x = (σ.states s).generation →
      x = ((σ.states s).generation + 0) % 2 ^ 64 :=
    fun hx => by rw [hx, Nat.add_zero, Nat.mod_eq_of_lt hlt]
  have hbump : ∀ {key s'}, (locOf tr u).held = some (key, s') →
      (Function.update σ.states s' (σ.states s').bump s).generation =
        ((σ.states s).generation + if decide (key = k) then 1 else 0) % 2 ^ 64 := by
    intro key s' hu
    have heq := h.eq_iff ht hu
    by_cases hs : s' = s
    · subst hs
      simp [heq.2 rfl, MutationState.bump]
    · have hk : ¬ key = k := fun e => hs (heq.1 e)
      rw [Function.update_of_ne (Ne.symm hs)]
      simpa [hk] using hkeep rfl
  cases o with
  | acquireKeyState key =>
    refine hkeep ?_
    obtain ⟨-, rfl⟩ := Prod.ext_iff.1 (Option.some.inj hact)
    unfold Group.acquireKeyState
    split
    · next s' _ =>
      by_cases hs : s = s'
      · subst hs; simp
      · simp [Function.update_of_ne hs]
    · have := h.fresh k s (h.held t k s ht)
      simp [Function.update_of_ne (Nat.ne_of_lt this)]
  | releaseKeyState key s' =>
    cases hact
    refine hkeep ?_
    by_cases hs : s = s'
    · subst hs; simp [Group.releaseKeyState]
    · simp [Group.releaseKeyState, Function.update_of_ne hs]
  | setSection s' key value => cases hact; exact hbump hallow.2.1
  | deleteSection s' key => cases hact; exact hbump hallow.2.1
  | _ => exact hkeep (by rw [((act_frame hact).states rfl).2.1])

/-- The generation of a held state has moved on by the number of mutations since the load began. -/
def Loads (tr : Trace g) (σ : State) : Prop :=
  (∀ k s, σ.keyStates k = some s → (σ.states s).generation < 2 ^ 64) ∧
  ∀ t k s n, (locOf tr t).held = some (k, s) → (locOf tr t).stage.start = some n →
    ∃ w, LoadWindow t k s n tr w ∧ (locOf tr t).stage.Since t k w ∧ n < 2 ^ 64 ∧
      (σ.states s).generation = (n + mutations k w) % 2 ^ 64

theorem generation_lt_act (hlt : ∀ k s, σ.keyStates k = some s → (σ.states s).generation < 2 ^ 64)
    (hx : Node.exec g o i σ = some (a, σ')) :
    ∀ k s, σ'.keyStates k = some s → (σ'.states s).generation < 2 ^ 64 := by
  obtain ⟨-, σ₁, hact, rfl⟩ := exec_eq_some.1 hx
  intro k s hk
  change σ₁.keyStates k = some s at hk
  change (σ₁.states s).generation < 2 ^ 64
  have hbump : ∀ {s'}, σ.keyStates k = some s →
      (Function.update σ.states s' (σ.states s').bump s).generation < 2 ^ 64 := by
    intro s' hk
    by_cases hs : s = s'
    · subst hs
      simp only [Function.update_self, MutationState.bump]
      exact Nat.mod_lt _ (by norm_num)
    · rw [Function.update_of_ne hs]
      exact hlt k s hk
  cases o with
  | acquireKeyState key =>
    obtain ⟨-, rfl⟩ := Prod.ext_iff.1 (Option.some.inj hact)
    unfold Group.acquireKeyState at hk ⊢
    split at hk
    · next s' hs' =>
      have := hlt k s hk
      by_cases hs : s = s'
      · subst hs; simpa [hs'] using this
      · simpa [hs', Function.update_of_ne hs] using this
    · next hnone =>
      simp only at hk ⊢
      by_cases hs : s = σ.nextState
      · subst hs; simp
      · simp only [Function.update_of_ne hs]
        by_cases hkk : k = key
        · subst hkk
          rw [Function.update_self] at hk
          exact absurd (Option.some.inj hk).symm hs
        · rw [Function.update_of_ne hkk] at hk
          exact hlt k s hk
  | releaseKeyState key s' =>
    cases hact
    have hk' : σ.keyStates k = some s := by
      simp only [Group.releaseKeyState] at hk
      split at hk
      · by_cases hkk : k = key
        · subst hkk; simp at hk
        · rwa [Function.update_of_ne hkk] at hk
      · exact hk
    have := hlt k s hk'
    by_cases hs : s = s'
    · subst hs; simpa [Group.releaseKeyState] using this
    · simpa [Group.releaseKeyState, Function.update_of_ne hs] using this
  | setSection s' key value => cases hact; exact hbump hk
  | deleteSection s' key => cases hact; exact hbump hk
  | _ =>
    obtain ⟨h₁, h₂, -⟩ := (act_frame hact).states rfl
    simp only [h₁, h₂] at hk ⊢
    exact hlt k s hk

theorem begins_act_ne (h : u ≠ t) (e : Ev groupSig Inp) :
    Begins t (.act u e : Label (node g)) = false := by
  unfold Begins
  split
  · next heq => cases heq; simpa using h
  · rfl

theorem begins_act_of_onLoad (h : o.onLoad = false) :
    Begins u (.act u ⟨o, i, a⟩ : Label (node g)) = false := by
  cases o <;> first | rfl | cases h

namespace Move

variable {e : Option Nat} {x x' : Option (GoString × Nat)} {st st' : Stage} {s n : Nat}

/-- A goroutine that is loading has just begun to, or goes on with its load. -/
theorem start (hm : Move e o a x st x' st') (hst : st'.start = some n) :
    (∃ key s, (⟨o, a⟩ : (o : Op) × o.Ans) = ⟨.loadBegin s key, .generation n⟩ ∧
        x' = some (key, s) ∧ x = some (key, s)) ∨
      x' = x ∧ st.start = some n ∧ o.onLoad = false := by
  cases hm with
  | begin =>
    cases hst
    exact Or.inl ⟨_, _, rfl, rfl, rfl⟩
  | call => exact Or.inr ⟨rfl, hst, rfl⟩
  | fetched => exact Or.inr ⟨rfl, hst, rfl⟩
  | stay ho =>
    refine Or.inr ⟨rfl, hst, ?_⟩
    cases o <;> first | rfl | cases ho
  | _ => cases hst

theorem since_begin {key : GoString}
    (hm : Move e (.loadBegin s key) (.generation n) x st x' st') {w : Trace g} :
    st'.Since t k w := by
  cases hm with
  | begin => trivial
  | stay ho => cases ho

/-- What a load has done since it began, after one more action. -/
theorem since (hm : Move e o a x st x' st') (hheld : x' = some (k, s)) (hst' : st'.start = some n)
    (hst : st.start = some n) {w : Trace g} (hs : st.Since t k w) :
    st'.Since t k (.act t ⟨o, i, a⟩ :: w) := by
  cases hm with
  | begin => cases hst
  | call =>
    cases hheld
    exact ⟨i, List.mem_cons_self ..⟩
  | fetched =>
    obtain ⟨j, hj⟩ := hs
    exact ⟨_, j, i, List.mem_cons_of_mem _ hj, List.mem_cons_self ..⟩
  | stay => exact hs.cons _
  | _ => cases hst'

end Move

namespace Loads

variable {call : Call}

/-- The window of a load grows by the step made. -/
theorem extend (hK : KeyStates tr σ) (hL : Loads tr σ) (hallow : Allowed g call (hist tr u) o)
    (hx : Node.exec g o i σ = some (a, σ')) {s n : Nat} (hheld : (locOf tr t).held = some (k, s))
    (hstart : (locOf tr t).stage.start = some n)
    (hb : Begins t (.act u ⟨o, i, a⟩ : Label (node g)) = false) {st : Stage}
    (hst : ∀ w : Trace g, (locOf tr t).stage.Since t k w →
      st.Since t k (.act u ⟨o, i, a⟩ :: w)) :
    ∃ w, LoadWindow t k s n (.act u ⟨o, i, a⟩ :: tr) w ∧ st.Since t k w ∧ n < 2 ^ 64 ∧
      (σ'.states s).generation = (n + mutations k w) % 2 ^ 64 := by
  obtain ⟨w, hw, hs, hn, hgen⟩ := hL.2 t k s n hheld hstart
  refine ⟨_ :: w, hw.cons hb, hst w hs, hn, ?_⟩
  rw [hK.generation_act (hL.1 k s (hK.held t k s hheld)) hheld hallow hx, hgen, mutations_cons,
    Nat.mod_add_mod, Nat.add_assoc]
  rfl

/-- The window of a load that has just begun is empty. -/
theorem begin (hK : KeyStates tr σ) (hL : Loads tr σ) {s n : Nat}
    (hx : Node.exec g (.loadBegin s k) i σ = some (.generation n, σ'))
    (hheld : (locOf tr u).held = some (k, s)) {st : Stage} (hst : st.Since u k ([] : Trace g)) :
    ∃ w, LoadWindow u k s n (.act u ⟨.loadBegin s k, i, .generation n⟩ :: tr) w ∧
      st.Since u k w ∧ n < 2 ^ 64 ∧ (σ'.states s).generation = (n + mutations k w) % 2 ^ 64 := by
  obtain ⟨-, σ₁, hact, rfl⟩ := exec_eq_some.1 hx
  have hlt := hL.1 k s (hK.held u k s hheld)
  obtain rfl : (σ.states s).generation = n := by
    have hans := (Prod.ext_iff.1 (Option.some.inj hact)).1
    unfold Group.loadBegin at hans
    dsimp only at hans
    split at hans <;> cases hans
    rfl
  refine ⟨[], ⟨⟨i, tr, rfl⟩, by simp⟩, hst, hlt, ?_⟩
  change (σ₁.states s).generation = ((σ.states s).generation + 0) % 2 ^ 64
  rw [((act_frame hact).states rfl).2.1, Nat.add_zero, Nat.mod_eq_of_lt hlt]

theorem act (hK : KeyStates tr σ) (hL : Loads tr σ) (hallow : Allowed g call (hist tr u) o)
    (hx : Node.exec g o i σ = some (a, σ')) : Loads (.act u ⟨o, i, a⟩ :: tr) σ' := by
  refine ⟨generation_lt_act hL.1 hx, fun t k s n hheld hstart => ?_⟩
  by_cases htu : u = t
  · subst htu
    have hm := hallow.move a
    rw [locOf_act_self] at hheld hstart ⊢
    rcases hm.start hstart with ⟨key, s', heq, hkey, hold⟩ | ⟨hsame, hold, hload⟩
    · cases heq
      cases hkey.symm.trans hheld
      exact hL.begin hK hx hold hm.since_begin
    · refine hL.extend hK hallow hx (hsame.symm.trans hheld) hold (begins_act_of_onLoad hload) ?_
      intro w hs
      exact hm.since hheld hstart hold hs
  · rw [locOf_act_ne htu] at hheld hstart ⊢
    exact hL.extend hK hallow hx hheld hstart (begins_act_ne htu _) fun w hs => hs.cons _

end Loads

/-- **Loads over whole runs.** -/
theorem Run.loads {G : Guard (node g)} (h₀ : σ₀.Fresh) {c : Config (node g)}
    (h : Run G σ₀ c tr) : Loads tr c.state := by
  refine (h.guarded fun h => Run.keyStates h₀ h).inv (P := protocol g) ⟨?_, ?_, ?_, ?_, ?_⟩
  · exact ⟨fun k s hk => (by rw [h₀.keyStates] at hk; cases hk), fun t k s n hk => by cases hk⟩
  · rintro tr σ t call hL - - -
    refine ⟨hL.1, fun t k s n hheld hstart => ?_⟩
    obtain ⟨w, hw, hs, hn, hgen⟩ := hL.2 t k s n hheld hstart
    exact ⟨_ :: w, hw.cons rfl, hs.cons _, hn, hgen⟩
  · exact fun hL hG _ hallow hx => hL.act hG.2.1 hallow hx
  · rintro tr σ t call r hL - - -
    refine ⟨hL.1, fun t k s n hheld hstart => ?_⟩
    obtain ⟨w, hw, hs, hn, hgen⟩ := hL.2 t k s n hheld hstart
    exact ⟨_ :: w, hw.cons rfl, hs.cons _, hn, hgen⟩
  · rintro tr σ e σ' hL - hx
    obtain ⟨h₁, h₂, -⟩ := (env_frame hx).states
    refine ⟨by rw [h₁, h₂]; exact hL.1, fun t k s n hheld hstart => ?_⟩
    obtain ⟨w, hw, hs, hn, hgen⟩ := hL.2 t k s n hheld hstart
    exact ⟨_ :: w, hw.cons rfl, hs.cons _, hn, by rw [h₂]; exact hgen⟩

/-! ## What a load may store -/

/-- The result a load gets from its second section. -/
def Commit.result : Commit → Except Err ByteView
  | .stored v | .existing v => .ok v
  | .miss => .error (.sentinel .cacheMiss)

/-- How the loads of a node treat what their Getter calls returned. -/
structure LoadsGuarded (c : Config (node g)) (tr : Trace g) : Prop where
  /-- A step adds an entry to the main cache only as the section of a `Set` of these bytes or as the
  second section of a load that got them. -/
  stored : ∀ cmd ℓ c' k x, c.step cmd = some (ℓ, c') → c'.state.main.view k = some x →
    c.state.main.view k ≠ some x → ∃ t e, ℓ = .act t e ∧ Stores k x.1 e
  /-- The second section of a load stores the bytes the Getter returned if the key was not mutated
  since the load read the generation. Otherwise it adds nothing to the main cache and finds what is
  cached under the key. -/
  commit : ∀ cmd t s k n b i ans c', c.step cmd = some (.act t ⟨.loadCommit s k n b, i, ans⟩, c') →
    ∃ w, LoadWindow t k s n tr w ∧ Fetched t k b w ∧ (mutations k w < 2 ^ 64 →
      (mutations k w = 0 → ans = .stored ⟨b⟩ ∧
        c'.state.main = Group.addOwnerValue g k ⟨b⟩ i c.state.main) ∧
      (mutations k w ≠ 0 → ans = (c.state.main.live i.now k).elim .miss .existing ∧
        ∀ k' x, c'.state.main.view k' = some x → c.state.main.view k' = some x))
  /-- What the second section found is the result of the load, for the goroutine that made it and
  for those that joined it. -/
  result : ∀ t call r k k' s n b ans i₁ i₂ i₃ h, hist tr t =
    ⟨.doDone call r, i₃, ()⟩ :: ⟨.doRemove k' call, i₂, ()⟩ :: ⟨.loadCommit s k n b, i₁, ans⟩ :: h →
    r = .ok ans.result

theorem view_of_step {c c' : Config (node g)} {cmd : Cmd (node g)} {ℓ : Label (node g)}
    (hm : MainOk g c.state) (hstep : c.step cmd = some (ℓ, c')) {x : ByteView × Option Time}
    (hx : c'.state.main.view k = some x) (hnew : c.state.main.view k ≠ some x) :
    ∃ t e, ℓ = .act t e ∧ Stores k x.1 e := by
  cases Config.steps_of_step hstep with
  | @act t o _ i a σ' _ hexec =>
    obtain ⟨-, σ₁, hact, rfl⟩ := exec_eq_some.1 hexec
    rcases view_of_act hm.wf hact hx with ⟨hs, -⟩ | ⟨hold, -⟩
    · exact ⟨t, _, rfl, hs⟩
    · exact absurd hold hnew
  | env henv => exact absurd (view_of_env hm henv hx) hnew
  | _ => exact absurd hx hnew

/-- Fewer than `2 ^ 64` mutations cannot bring the generation back. -/
theorem generation_eq_iff {n m : Nat} (hn : n < 2 ^ 64) (hm : m < 2 ^ 64) :
    (n + m) % 2 ^ 64 = n ↔ m = 0 := by
  omega

theorem commit_of_step {c c' : Config (node g)} (h₀ : σ₀.Fresh) (hrun : Run Free σ₀ c tr)
    {cmd : Cmd (node g)} {s n : Nat} {b : Bytes} {ans : Commit}
    (hstep : c.step cmd = some (.act t ⟨.loadCommit s k n b, i, ans⟩, c')) :
    ∃ w, LoadWindow t k s n tr w ∧ Fetched t k b w ∧ (mutations k w < 2 ^ 64 →
      (mutations k w = 0 → ans = .stored ⟨b⟩ ∧
        c'.state.main = Group.addOwnerValue g k ⟨b⟩ i c.state.main) ∧
      (mutations k w ≠ 0 → ans = (c.state.main.live i.now k).elim .miss .existing ∧
        ∀ k' x, c'.state.main.view k' = some x → c.state.main.view k' = some x)) := by
  obtain ⟨call, -, ⟨hheld, cl, hstage⟩, hx⟩ := hrun.of_act (protocol g) hstep
  have hwf := (Run.mainOk h₀ hrun).wf
  change (locOf tr t).held = _ at hheld
  change (locOf tr t).stage = _ at hstage
  obtain ⟨w, hw, hs, hn, hgen⟩ := (Run.loads h₀ hrun).2 t k s n hheld (by rw [hstage]; rfl)
  rw [hstage] at hs
  refine ⟨w, hw, hs, fun hlt => ?_⟩
  obtain ⟨-, σ₁, hact, hσ⟩ := exec_eq_some.1 hx
  have hmain : c'.state.main = σ₁.main := by rw [hσ]
  obtain ⟨hans, rfl⟩ := Prod.ext_iff.1 (Option.some.inj hact)
  simp only at hans
  rw [hmain, ← hans]
  rcases loadCommit_cases s k n b with ⟨hne, hm, ha⟩ | ⟨heq, hm, ha⟩ <;> rw [hgen] at *
  · refine ⟨fun h0 => absurd ((generation_eq_iff hn hlt).2 h0) hne,
      fun _ => ⟨?_, fun k' x hv => ?_⟩⟩
    · rw [ha, Cache.get_fst hwf]
    · rw [hm] at hv
      exact Cache.view_get hwf _ _ hv
  · exact ⟨fun _ => ⟨ha, hm⟩, fun h0 => absurd ((generation_eq_iff hn hlt).1 heq) h0⟩

theorem result_of_hist {c : Config (node g)} (hrun : Run Free σ₀ c tr) {call : Nat}
    {r : FlightResult} {k' : GoString} {s n : Nat} {b : Bytes} {ans : Commit} {i₁ i₂ i₃ : Inp}
    {h : History} (hh : hist tr t = ⟨.doDone call r, i₃, ()⟩ :: ⟨.doRemove k' call, i₂, ()⟩ ::
      ⟨.loadCommit s k n b, i₁, ans⟩ :: h) : r = .ok ans.result := by
  have hallow := hrun.allowed (protocol g) t
  rw [hh] at hallow
  obtain ⟨_, -, _, _, -, hdone⟩ := hallow _ _ (List.suffix_refl _)
  obtain ⟨_, -, -, cl, hloaded⟩ := hallow _ _ ((List.suffix_cons _ _).trans (List.suffix_cons _ _))
  change (loc _).stage = _ at hdone
  rw [loc_cons, loc_cons] at hdone
  simp only [Loc.next, hloaded] at hdone
  cases ans <;> cases hdone <;> rfl

/-- **Getter bytes are stored only if no mutation intervened.** -/
theorem getter_bytes_stored_only_if_unmutated (h₀ : σ₀.Fresh) {c : Config (node g)}
    (hrun : Run Free σ₀ c tr) : LoadsGuarded c tr where
  stored := fun _ _ _ _ _ hstep hx hnew => view_of_step (Run.mainOk h₀ hrun) hstep hx hnew
  commit := fun _ _ _ _ _ _ _ _ _ hstep => commit_of_step h₀ hrun hstep
  result := fun _ _ _ _ _ _ _ _ _ _ _ _ _ hh => result_of_hist hrun hh

/-- A goroutine is loading the key `k`, and its Getter call has returned `0`, when a `Set` of `1`
goes through. -/
def setDuringLoad : Trace Cfg.solo :=
  let i := Inp.fetch [0]
  let k := ascii "k"
  [.act 1 ⟨.setSection 0 k [1], i, ()⟩, .act 1 ⟨.acquireKeyState k, i, 0⟩,
    .act 1 ⟨.loadClosed, i, false⟩, .act 1 ⟨.loadClosed, i, false⟩, .spawn 1 (.set k [1]),
    .act 0 ⟨.getterEnd 0, i, .ok (.ok [0])⟩, .act 0 ⟨.getterStart k, i, 0⟩,
    .act 0 ⟨.count .sourceLoads, i, ()⟩, .act 0 ⟨.loadBegin 0 k, i, .generation 0⟩,
    .act 0 ⟨.doEnter k, i, .lead 0⟩, .act 0 ⟨.count .localMisses, i, ()⟩,
    .act 0 ⟨.mainGet k, i, none⟩, .act 0 ⟨.acquireKeyState k, i, 0⟩,
    .act 0 ⟨.loadClosed, i, false⟩, .act 0 ⟨.loadClosed, i, false⟩, .spawn 0 (.get k)]

/-- The load then finds the value that was set and stores nothing. -/
theorem load_finds_set_value : ∃ c c' : Config (node Cfg.solo), LoadsGuarded c setDuringLoad ∧
    c.step (.run 0 (Inp.fetch [0])) =
      some (.act 0 ⟨.loadCommit 0 (ascii "k") 0 [0], Inp.fetch [0], .existing ⟨[1]⟩⟩, c') := by
  obtain ⟨c, c', hsteps, hstep⟩ : ∃ c c', (Config.start (M := node Cfg.solo) State.solo).steps []
      (.spawn (.get (ascii "k")) :: List.replicate 10 (.run 0 (Inp.fetch [0])) ++
        .spawn (.set (ascii "k") [1]) :: List.replicate 4 (.run 1 (Inp.fetch [0]))) =
          some (c, setDuringLoad) ∧
      c.step (.run 0 (Inp.fetch [0])) =
        some (.act 0 ⟨.loadCommit 0 (ascii "k") 0 [0], Inp.fetch [0], .existing ⟨[1]⟩⟩, c') :=
    ⟨_, _, rfl, rfl⟩
  exact ⟨c, c', getter_bytes_stored_only_if_unmutated State.fresh_solo (Run.steps .start hsteps),
    hstep⟩

end Locache
