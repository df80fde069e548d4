import Locache.Group.Mutation

/-!
# The holders of a mutation state

`acquireKeyState` shares the state a key has or makes one, and the last `releaseKeyState` drops it
from the map. In every run the map has a state for exactly the keys that some call holds, all
holders of a key hold the state in the map, and its reference count is their number
(`key_states_counted`). What a call reads of a state it holds is therefore the state all other
calls on the key change, and a generation only moves on by the mutations of its key.
-/

namespace Locache

open Conc

variable {g : Cfg} {tr : Trace g} {σ σ' σ₀ : State} {t u : Nat} {k key : GoString} {s : Nat}
  {o : Op} {i : Inp} {a : o.Ans}

/-- Goroutine `t` holds the state `s` of the key `k`: it got it from `acquireKeyState` and has not
called `releaseKeyState` since. -/
def Holds (tr : Trace g) (t : Nat) (k : GoString) (s : Nat) : Prop :=
  ∃ (A B : Trace g) (i : Inp), tr = A ++ .act t ⟨.acquireKeyState k, i, s⟩ :: B ∧
    ∀ k' s' j, .act t ⟨.releaseKeyState k' s', j, ()⟩ ∉ A

theorem holds_cons {ℓ : Label (node g)} : Holds (ℓ :: tr) t k s ↔
    (∃ i, ℓ = .act t ⟨.acquireKeyState k, i, s⟩) ∨
      Holds tr t k s ∧ ∀ k' s' j, ℓ ≠ .act t ⟨.releaseKeyState k' s', j, ()⟩ := by
  constructor
  · rintro ⟨A, B, i, h, hno⟩
    rcases List.append_eq_cons_iff.1 h.symm with ⟨-, h⟩ | ⟨A, rfl, rfl⟩
    · exact Or.inl ⟨i, (List.cons.inj h).1.symm⟩
    · refine Or.inr ⟨⟨A, B, i, rfl, ?_⟩, ?_⟩
      · exact fun k' s' j hm => hno k' s' j (List.mem_cons_of_mem _ hm)
      · rintro k' s' j rfl
        exact hno k' s' j List.mem_cons_self
  · rintro (⟨i, rfl⟩ | ⟨⟨A, B, i, rfl, hno⟩, hℓ⟩)
    · exact ⟨[], tr, i, rfl, by simp⟩
    · refine ⟨ℓ :: A, B, i, rfl, ?_⟩
      intro k' s' j hm
      rcases List.mem_cons.1 hm with heq | hm
      · exact hℓ k' s' j heq.symm
      · exact hno k' s' j hm

/-- A step that is no action of the goroutine leaves alone what it holds. -/
theorem holds_other {ℓ : Label (node g)} (hℓ : ∀ e, ℓ ≠ .act t e) :
    Holds (ℓ :: tr) t k s ↔ Holds tr t k s := by
  rw [holds_cons]
  constructor
  · rintro (⟨i, rfl⟩ | ⟨h, -⟩)
    · exact absurd rfl (hℓ _)
    · exact h
  · exact fun h => Or.inr ⟨h, fun k' s' j => hℓ _⟩

theorem holds_act {call : Call} (hallow : Allowed g call (hist tr t) o)
    (hI : ∀ k s, Holds tr t k s ↔ (locOf tr t).held = some (k, s)) :
    Holds (.act t ⟨o, i, a⟩ :: tr) t k s ↔
      (locOf (.act t ⟨o, i, a⟩ :: tr : Trace g) t).held = some (k, s) := by
  rw [holds_cons, locOf_act_self, hI]
  change _ ↔ Loc.nextHeld o a _ = _
  cases o with
  | acquireKeyState key =>
    -- a goroutine acquires a state only if it holds none
    have hidle : (locOf tr t).held = none := hallow.1
    rw [hidle]
    constructor
    · rintro (⟨j, heq⟩ | ⟨h, -⟩)
      · cases heq
        rfl
      · cases h
    · intro h
      cases h
      exact Or.inl ⟨i, rfl⟩
  | releaseKeyState key s' =>
    constructor
    · rintro (⟨j, heq⟩ | ⟨-, hne⟩)
      · cases heq
      · exact absurd rfl (hne key s' i)
    · intro h
      cases h
  | _ =>
    constructor
    · rintro (⟨j, heq⟩ | ⟨h, -⟩)
      · cases heq
      · exact h
    · intro h
      exact Or.inr ⟨h, fun k' s' j heq => by cases heq⟩

/-- What the local state says a goroutine holds is what it holds. -/
theorem Run.holds_iff {G : Guard (node g)} {c : Config (node g)} (h : Run G σ₀ c tr) :
    ∀ t k s, Holds tr t k s ↔ (locOf tr t).held = some (k, s) := by
  refine h.inv (P := protocol g)
    (I := fun tr _ => ∀ t k s, Holds tr t k s ↔ (locOf tr t).held = some (k, s))
    ⟨?_, ?_, ?_, ?_, ?_⟩
  · intro t k s
    constructor
    · rintro ⟨A, B, i, h, -⟩
      simp at h
    · intro h
      cases h
  · intro tr σ u call hI _ _ _ t k s
    exact (holds_other fun e h => by cases h).trans (hI t k s)
  · intro tr σ u call o i a σ' hI _ _ hallow _ t k s
    by_cases htu : u = t
    · subst htu
      exact holds_act hallow (hI u)
    · rw [locOf_act_ne htu]
      exact (holds_other fun e h => htu (by cases h; rfl)).trans (hI t k s)
  · intro tr σ u call r hI _ _ _ t k s
    exact (holds_other fun e h => by cases h).trans (hI t k s)
  · intro tr σ e σ' hI _ _ t k s
    exact (holds_other fun e h => by cases h).trans (hI t k s)

/-! ## No state without a holder -/

/-- Every state in the map is referenced. -/
def Referenced (σ : State) : Prop := ∀ k s, σ.keyStates k = some s → 0 < (σ.states s).refs

theorem Referenced.frame (h : Referenced σ) (hk : σ'.keyStates = σ.keyStates)
    (hr : ∀ s, (σ'.states s).refs = (σ.states s).refs) : Referenced σ' := by
  intro k s hs
  rw [hr]
  exact h k s (hk ▸ hs)

theorem Referenced.acquire (h : Referenced σ) (key : GoString) :
    Referenced (Group.acquireKeyState key σ).2 := by
  unfold Group.acquireKeyState
  split
  · next s' hs' =>
    intro k s hs
    have hpos := h k s hs
    by_cases hss : s = s'
    · subst hss
      simp only [Function.update_self]
      omega
    · simp only [Function.update_of_ne hss]
      exact hpos
  · intro k s hs
    by_cases hss : s = σ.nextState
    · subst hss
      simp
    · simp only [Function.update_of_ne hss]
      by_cases hkk : k = key
      · subst hkk
        simp only [Function.update_self, Option.some.injEq] at hs
        exact absurd hs.symm hss
      · simp only [Function.update_of_ne hkk] at hs
        exact h k s hs

/-- A state that stays in the map when a holder leaves has another one. -/
theorem Referenced.release (h : Referenced σ) (hK : KeyStates tr σ)
    (hheld : (locOf tr t).held = some (key, s)) : Referenced (Group.releaseKeyState key s σ) := by
  have hmap := hK.held t key s hheld
  intro k s' hs'
  simp only [Group.releaseKeyState] at hs' ⊢
  have hold : σ.keyStates k = some s' := by
    split at hs'
    · by_cases hkk : k = key
      · subst hkk
        simp at hs'
      · rwa [Function.update_of_ne hkk] at hs'
    · exact hs'
  have hpos := h k s' hold
  by_cases hss : s' = s
  · subst hss
    obtain rfl : k = key := hK.inj k key s' hold hmap
    simp only [Function.update_self]
    by_cases hlast : (σ.states s').refs - 1 = 0
    · rw [if_pos ⟨hlast, hmap⟩, Function.update_self] at hs'
      cases hs'
    · omega
  · rw [Function.update_of_ne hss]
    exact hpos

theorem Referenced.act {call : Call} (h : Referenced σ) (hK : KeyStates tr σ)
    (hallow : Allowed g call (hist tr t) o) (hx : Node.exec g o i σ = some (a, σ')) :
    Referenced σ' := by
  obtain ⟨-, σ₁, hact, rfl⟩ := exec_eq_some.1 hx
  suffices hs : Referenced σ₁ from hs.frame rfl fun _ => rfl
  have hbump : ∀ s s', (Function.update σ.states s' (σ.states s').bump s).refs =
      (σ.states s).refs := by
    intro s s'
    by_cases hss : s = s'
    · subst hss
      simp [MutationState.bump]
    · rw [Function.update_of_ne hss]
  cases o with
  | acquireKeyState key =>
    obtain ⟨-, rfl⟩ := Prod.ext_iff.1 (Option.some.inj hact)
    exact h.acquire key
  | releaseKeyState key s =>
    cases hact
    exact h.release hK hallow.1
  | setSection s' key value =>
    cases hact
    exact h.frame rfl fun s => hbump s s'
  | deleteSection s' key =>
    cases hact
    exact h.frame rfl fun s => hbump s s'
  | _ =>
    obtain ⟨h₁, h₂, -⟩ := (act_frame hact).states rfl
    exact h.frame h₁ fun s => by rw [h₂]

theorem Run.referenced {G : Guard (node g)} (h₀ : σ₀.Fresh) {c : Config (node g)}
    (h : Run G σ₀ c tr) : Referenced c.state := by
  refine (h.guarded fun h => Run.keyStates h₀ h).inv (P := protocol g)
    (I := fun _ σ => Referenced σ) ⟨?_, fun hI _ _ _ => hI, ?_, fun hI _ _ _ => hI, ?_⟩
  · intro k s hs
    rw [h₀.keyStates] at hs
    cases hs
  · exact fun hI hG _ hallow hx => hI.act hG.2.1 hallow hx
  · intro tr σ e σ' hI _ hx
    obtain ⟨h₁, h₂, -⟩ := (env_frame hx).states
    exact hI.frame h₁ fun s => by rw [h₂]

/-! ## Every run -/

/-- The map of mutation states and the calls that hold them. -/
structure KeyStatesCounted (c : Config (node g)) (tr : Trace g) : Prop where
  /-- A key has a state exactly when some call holds one for it. -/
  entry : ∀ k, (∃ s, c.state.keyStates k = some s) ↔ ∃ t s, Holds tr t k s
  /-- All calls that hold a state for a key hold the one in the map. -/
  same : ∀ t k s, Holds tr t k s → c.state.keyStates k = some s
  /-- The reference count is the number of holders. -/
  refs : ∀ k s, c.state.keyStates k = some s → ∃ F : Finset Nat,
    (∀ t, t ∈ F ↔ Holds tr t k s) ∧ (c.state.states s).refs = F.card
  /-- Without a call in progress the map is empty. -/
  empty : (∀ t, c.threads t = none) → ∀ k, c.state.keyStates k = none
  /-- A step moves the generation of a state that a call keeps holding by the mutation it makes. -/
  step : ∀ cmd ℓ c' t k s, c.step cmd = some (ℓ, c') → Holds tr t k s → Holds (ℓ :: tr) t k s →
    (c'.state.states s).generation =
      ((c.state.states s).generation + if Mutation k ℓ then 1 else 0) % 2 ^ 64
  /-- What a load compares with is the generation it read, moved on by the mutations of its key
  since then. -/
  compared : ∀ t k s n, Holds tr t k s → (locOf tr t).stage.start = some n →
    ∃ w, LoadWindow t k s n tr w ∧ (c.state.states s).generation = (n + mutations k w) % 2 ^ 64

theorem generation_of_step {G : Guard (node g)} (h₀ : σ₀.Fresh) {c c' : Config (node g)}
    (h : Run G σ₀ c tr) {cmd : Cmd (node g)} {ℓ : Label (node g)}
    (hstep : c.step cmd = some (ℓ, c')) (hheld : (locOf tr t).held = some (k, s)) :
    (c'.state.states s).generation =
      ((c.state.states s).generation + if Mutation k ℓ then 1 else 0) % 2 ^ 64 := by
  have hK := Run.keyStates h₀ h
  have hlt := (Run.loads h₀ h).1 k s (hK.held t k s hheld)
  have hsame : (c.state.states s).generation = ((c.state.states s).generation + 0) % 2 ^ 64 := by
    rw [Nat.add_zero, Nat.mod_eq_of_lt hlt]
  cases ℓ with
  | act u e =>
    obtain ⟨o, i, a⟩ := e
    obtain ⟨call, -, hallow, hx⟩ := h.of_act (protocol g) hstep
    exact hK.generation_act hlt hheld hallow hx
  | env e =>
    cases Config.steps_of_step hstep with
    | env hx =>
      obtain ⟨-, h₂, -⟩ := (env_frame hx).states
      rw [h₂]
      exact hsame
  | spawn u call =>
    cases Config.steps_of_step hstep with
    | spawn => exact hsame
  | ret u r =>
    cases Config.steps_of_step hstep <;> exact hsame

/-- **The reference counts of the mutation states**, in every run of a node, whatever calls it is
made of and however they end. -/
theorem key_states_counted {G : Guard (node g)} (h₀ : σ₀.Fresh) {c : Config (node g)}
    (h : Run G σ₀ c tr) : KeyStatesCounted c tr := by
  have hK := Run.keyStates h₀ h
  have hholds := Run.holds_iff h
  have hrefs : ∀ k s, c.state.keyStates k = some s → ∃ F : Finset Nat,
      (∀ t, t ∈ F ↔ Holds tr t k s) ∧ (c.state.states s).refs = F.card := by
    intro k s hs
    obtain ⟨F, hcard, hF⟩ := hK.refs k s hs
    exact ⟨F, fun t => (hF t).trans (hholds t k s).symm, hcard⟩
  have hentry : ∀ k s, c.state.keyStates k = some s → ∃ t, Holds tr t k s := by
    intro k s hs
    obtain ⟨F, hF, hcard⟩ := hrefs k s hs
    have hpos := Run.referenced h₀ h k s hs
    have hcard' : 0 < F.card := by omega
    obtain ⟨t, ht⟩ := Finset.card_pos.1 hcard'
    exact ⟨t, (hF t).1 ht⟩
  refine ⟨?_, ?_, hrefs, ?_, ?_, ?_⟩
  · intro k
    constructor
    · rintro ⟨s, hs⟩
      obtain ⟨t, ht⟩ := hentry k s hs
      exact ⟨t, s, ht⟩
    · rintro ⟨t, s, ht⟩
      exact ⟨s, hK.held t k s ((hholds t k s).1 ht)⟩
  · exact fun t k s ht => hK.held t k s ((hholds t k s).1 ht)
  · intro hnone k
    cases hs : c.state.keyStates k with
    | none => rfl
    | some s =>
      obtain ⟨t, ht⟩ := hentry k s hs
      have hheld := (hholds t k s).1 ht
      unfold locOf at hheld
      rcases h.idle_or_ended (protocol g) (hnone t) with hnil | ⟨call, r, hend⟩
      · rw [hnil] at hheld
        cases hheld
      · rw [hend.1.1] at hheld
        cases hheld
  · intro cmd ℓ c' t k s hstep ht _
    exact generation_of_step h₀ h hstep ((hholds t k s).1 ht)
  · intro t k s n ht hstart
    obtain ⟨w, hw, -, -, hgen⟩ := (Run.loads h₀ h).2 t k s n ((hholds t k s).1 ht) hstart
    exact ⟨w, hw, hgen⟩

/-- A call whose Getter panics has released the state; the call that joined it still holds it. -/
theorem panicking_load_released : ∃ (c : Config (node Cfg.solo)) (tr : Trace Cfg.solo),
    Run Free State.solo c tr ∧ tr.head? = some (.ret 0 (.error (.getter (ascii "p")))) ∧
      c.state.keyStates (ascii "k") = some 0 ∧ (c.state.states 0).refs = 1 ∧
      KeyStatesCounted c tr := by
  let i : Inp := { Inp.fetch [] with getter := .error (.getter (ascii "p")) }
  obtain ⟨c, tr, hsteps, hhead, hstate, hrefs⟩ : ∃ c tr,
      (Config.start (M := node Cfg.solo) State.solo).steps []
        (.spawn (.get (ascii "k")) :: List.replicate 9 (.run 0 i) ++
          .spawn (.get (ascii "k")) :: List.replicate 6 (.run 1 i) ++
          List.replicate 5 (.run 0 i)) = some (c, tr) ∧
      tr.head? = some (.ret 0 (.error (.getter (ascii "p")))) ∧
      c.state.keyStates (ascii "k") = some 0 ∧ (c.state.states 0).refs = 1 :=
    ⟨_, _, rfl, rfl, rfl, rfl⟩
  have hrun := Run.steps .start hsteps
  exact ⟨c, tr, hrun, hhead, hstate, hrefs, key_states_counted State.fresh_solo hrun⟩

end Locache
