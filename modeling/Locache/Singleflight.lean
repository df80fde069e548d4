import Locache.Conc.Machine
import Locache.Go

/-!
# Singleflight

`singleflight.Group.Do` as a program over the map of calls in flight, with the lock sections, the
writes to a call and the operations on its wait group as single steps, for any types of values,
errors and panic values. The function that a `Do` was given is the two steps of its begin and its
end; what it returns or panics with is up to the environment.

A `Do` that finds no call under its key owns the call it makes: while the call is in the map its
owner has not removed it yet (`Sound.map`), and what is in the call is what the owner has written so
far (`Sound.cell`). The four properties of `do_shares_executions` follow.
-/

namespace Locache.Singleflight

open Conc Conc.Prog

/-- How a function ends: it returns a value and an error, or it panics. -/
abbrev Result (V E P : Type) := Except P (Option V × Option E)

/-- A `call`. -/
structure Call (V E P : Type) where
  wg : Nat
  val : Option V
  err : Option E
  panicVal : Option P

/-- What the locked section at the start of `Do` decides. -/
inductive Entry where
  | joined (call : Nat)
  | started (call : Nat)

def Entry.call : Entry → Nat
  | .joined call => call
  | .started call => call

inductive Op where
  | enter (key : GoString)
  | wait (call : Nat)
  | fnStart (key : GoString) (call : Nat)
  | fnEnd (key : GoString) (call : Nat)
  | remove (key : GoString) (call : Nat)
  | done (call : Nat)
  | read (call : Nat)

section

variable (V E P : Type)

def Ans : Op → Type
  | .enter _ => Entry
  | .read _ => Call V E P
  | _ => Unit

abbrev sig : Sig := ⟨Op, Ans V E P, P⟩

/-- The map, and the calls that were made. -/
structure State where
  m : GoString → Option Nat
  calls : Nat → Call V E P
  next : Nat

end

variable {V E P : Type}

namespace Call

/-- `new(call)`, after `c.wg.Add(1)`. -/
def new : Call V E P := ⟨1, none, none, none⟩

/-- The end of the function, or what the deferred call makes of its panic. -/
def finish (r : Result V E P) (c : Call V E P) : Call V E P :=
  match r with
  | .ok (val, err) => { c with val := val, err := err }
  | .error panicVal => { c with panicVal := some panicVal }

/-- The end of `Do`: panic again, or return. -/
def outcome (c : Call V E P) : Result V E P :=
  match c.panicVal with
  | some panicVal => .error panicVal
  | none => .ok (c.val, c.err)

def release (c : Call V E P) : Call V E P := { c with wg := c.wg - 1 }

@[simp] theorem outcome_finish (r : Result V E P) : (finish r new).outcome = r := by
  cases r <;> rfl

@[simp] theorem outcome_release (c : Call V E P) : c.release.outcome = c.outcome := rfl

@[simp] theorem wg_finish (r : Result V E P) (c : Call V E P) : (finish r c).wg = c.wg := by
  cases r <;> rfl

end Call

/-- What a step does; `r` is how the function ends. -/
def exec : (o : Op) → Result V E P → State V E P → Option (Ans V E P o × State V E P)
  | .enter key, _, σ =>
    match σ.m key with
    | some c => some (.joined c, σ)
    | none => some (.started σ.next, { σ with
        m := Function.update σ.m key (some σ.next)
        calls := Function.update σ.calls σ.next .new
        next := σ.next + 1 })
  | .wait c, _, σ => if (σ.calls c).wg = 0 then some ((), σ) else none
  | .fnStart _ _, _, σ => some ((), σ)
  | .fnEnd _ c, r, σ =>
    some ((), { σ with calls := Function.update σ.calls c ((σ.calls c).finish r) })
  | .remove key c, _, σ =>
    some ((), { σ with m := if σ.m key = some c then Function.update σ.m key none else σ.m })
  | .done c, _, σ =>
    some ((), { σ with calls := Function.update σ.calls c (σ.calls c).release })
  | .read c, _, σ => some (σ.calls c, σ)

/-- `Group.Do`. -/
def Do (key : GoString) : Prog (sig V E P) (Option V × Option E) := do
  match (← op (S := sig V E P) (.enter key) : Entry) with
  | .joined c => do
    op (S := sig V E P) (.wait c)
    rethrow (← op (S := sig V E P) (.read c) : Call V E P).outcome
  | .started c => do
    op (S := sig V E P) (.fnStart key c)
    op (S := sig V E P) (.fnEnd key c)
    op (S := sig V E P) (.remove key c)
    op (S := sig V E P) (.done c)
    rethrow (← op (S := sig V E P) (.read c) : Call V E P).outcome

/-- Any number of goroutines that call `Do`. -/
abbrev group (V E P : Type) : Machine (sig V E P) where
  State := State V E P
  Inp := Result V E P
  Env := Empty
  Call := GoString
  Res := Option V × Option E
  exec := exec
  env := nofun
  prog := Do

/-- The zero `Group`. -/
def State.zero : State V E P := ⟨fun _ => none, fun _ => .new, 0⟩

/-! ## Where a `Do` is -/

/-- A position in `Do`, with what the goroutine knows there. -/
inductive Loc (V E P : Type) where
  | idle
  | waiting (call : Nat)
  | woken (call : Nat)
  | shared (call : Nat) (x : Call V E P)
  | entered (call : Nat)
  | running (call : Nat)
  | ended (call : Nat) (r : Result V E P)
  | removed (call : Nat) (r : Result V E P)
  | released (call : Nat) (r : Result V E P)
  | returned (call : Nat) (r : Result V E P) (x : Call V E P)

abbrev History (V E P : Type) := List (Ev (sig V E P) (Result V E P))

namespace Loc

/-- The position after one more step. -/
def step (ℓ : Loc V E P) : Ev (sig V E P) (Result V E P) → Loc V E P
  | ⟨.enter _, _, .joined c⟩ => .waiting c
  | ⟨.enter _, _, .started c⟩ => .entered c
  | ⟨.wait c, _, _⟩ => .woken c
  | ⟨.fnStart _ c, _, _⟩ => .running c
  | ⟨.fnEnd _ c, r, _⟩ => .ended c r
  | ⟨.remove _ _, _, _⟩ => match ℓ with
    | .ended c r => .removed c r
    | ℓ => ℓ
  | ⟨.done _, _, _⟩ => match ℓ with
    | .removed c r => .released c r
    | ℓ => ℓ
  | ⟨.read _, _, x⟩ => match ℓ with
    | .woken c => .shared c x
    | .released c r => .returned c r x
    | ℓ => ℓ

/-- What `Do` does next. -/
def next (key : GoString) : Loc V E P → Option Op
  | .idle => some (.enter key)
  | .waiting c => some (.wait c)
  | .woken c => some (.read c)
  | .entered c => some (.fnStart key c)
  | .running c => some (.fnEnd key c)
  | .ended c _ => some (.remove key c)
  | .removed c _ => some (.done c)
  | .released c _ => some (.read c)
  | .shared _ _ | .returned _ _ _ => none

/-- What a `Do` that is through has read. -/
def loaded : Loc V E P → Option (Call V E P)
  | .shared _ x | .returned _ _ x => some x
  | _ => none

/-- The call that the goroutine waits for. -/
def joins : Loc V E P → Option Nat
  | .waiting c | .woken c | .shared c _ => some c
  | _ => none

/-- The call that the goroutine made, and what is in it. -/
def cell : Loc V E P → Option (Nat × Call V E P)
  | .entered c | .running c => some (c, .new)
  | .ended c r | .removed c r => some (c, Call.new.finish r)
  | .released c r | .returned c r _ => some (c, (Call.new.finish r).release)
  | _ => none

/-- The call that the goroutine has in the map. -/
def holds : Loc V E P → Option Nat
  | .entered c | .running c | .ended c _ => some c
  | _ => none

/-- The call of the goroutine, its own or another's. -/
def call : Loc V E P → Option Nat
  | .idle => none
  | .waiting c | .woken c | .shared c _ | .entered c | .running c | .ended c _ | .removed c _
  | .released c _ | .returned c _ _ => some c

/-- The call whose function the goroutine has begun. -/
def begun : Loc V E P → Option Nat
  | .running c | .ended c _ | .removed c _ | .released c _ | .returned c _ _ => some c
  | _ => none

/-- How the function ended that the goroutine ran. -/
def result : Loc V E P → Option (Nat × Result V E P)
  | .ended c r | .removed c r | .released c r | .returned c r _ => some (c, r)
  | _ => none

theorem next_of_loaded {k : GoString} {ℓ : Loc V E P} {x : Call V E P} (h : ℓ.loaded = some x) :
    ℓ.next k = none := by
  cases ℓ with
  | shared c x => rfl
  | returned c r x => rfl
  | _ => cases h

theorem cell_of_holds {ℓ : Loc V E P} {c : Nat} (h : ℓ.holds = some c) :
    ∃ x, ℓ.cell = some (c, x) ∧ x.wg ≠ 0 := by
  cases ℓ with
  | entered c => cases h; exact ⟨_, rfl, Nat.one_ne_zero⟩
  | running c => cases h; exact ⟨_, rfl, Nat.one_ne_zero⟩
  | ended c r => cases h; exact ⟨_, rfl, by rw [Call.wg_finish]; exact Nat.one_ne_zero⟩
  | _ => cases h

theorem cell_of_begun {ℓ : Loc V E P} {c : Nat} (h : ℓ.begun = some c) :
    ∃ x, ℓ.cell = some (c, x) := by
  cases ℓ with
  | running c => cases h; exact ⟨_, rfl⟩
  | ended c r => cases h; exact ⟨_, rfl⟩
  | removed c r => cases h; exact ⟨_, rfl⟩
  | released c r => cases h; exact ⟨_, rfl⟩
  | returned c r x => cases h; exact ⟨_, rfl⟩
  | _ => cases h

theorem cell_of_result {ℓ : Loc V E P} {c : Nat} {r : Result V E P} (h : ℓ.result = some (c, r)) :
    ∃ x, ℓ.cell = some (c, x) ∧ x.outcome = r := by
  cases ℓ with
  | ended c r => cases h; exact ⟨_, rfl, Call.outcome_finish r⟩
  | removed c r => cases h; exact ⟨_, rfl, Call.outcome_finish r⟩
  | released c r => cases h; exact ⟨_, rfl, Call.outcome_finish r⟩
  | returned c r x => cases h; exact ⟨_, rfl, Call.outcome_finish r⟩
  | _ => cases h

/-- A call that its owner has released holds the result. -/
theorem result_of_cell {ℓ : Loc V E P} {c : Nat} {x : Call V E P} (h : ℓ.cell = some (c, x))
    (hwg : x.wg = 0) : ℓ.result = some (c, x.outcome) ∧ ℓ.begun = some c := by
  cases ℓ with
  | entered c => cases h; cases hwg
  | running c => cases h; cases hwg
  | ended c r => cases h; rw [Call.wg_finish] at hwg; cases hwg
  | removed c r => cases h; rw [Call.wg_finish] at hwg; cases hwg
  | released c r => cases h; simp [result, begun]
  | returned c r x => cases h; simp [result, begun]
  | _ => cases h

end Loc

def loc : History V E P → Loc V E P
  | [] => .idle
  | e :: h => (loc h).step e

/-- `Do` goes through its positions and returns what it has read. -/
def protocol (V E P : Type) : Protocol (group V E P) where
  allows key h o := (loc h).next key = some o
  ends _ h r := ∃ x, (loc h).loaded = some x ∧ r = x.outcome
  follows := by
    intro key
    refine ⟨rfl, ?_⟩
    intro i entry
    have hend : ∀ (h : History V E P) (x : Call V E P), (loc h).loaded = some x →
        (rethrow x.outcome : Prog (sig V E P) _).Follows
          (fun h o => (loc h).next key = some o)
          (fun h r => ∃ x, (loc h).loaded = some x ∧ r = x.outcome) h := by
      intro h x hx
      cases hr : x.outcome with
      | ok a => exact ⟨x, hx, hr.symm⟩
      | error e => exact ⟨x, hx, hr.symm⟩
    cases entry with
    | joined c =>
      refine ⟨rfl, fun _ _ => ⟨rfl, fun _ x => ?_⟩⟩
      exact hend _ x rfl
    | started c =>
      refine ⟨rfl, fun _ _ => ⟨rfl, fun _ _ => ⟨rfl, fun _ _ => ⟨rfl, fun _ _ => ⟨rfl, ?_⟩⟩⟩⟩⟩
      intro _ x
      exact hend _ x rfl

/-! ## The map, the calls and their owners -/

/-- Where goroutine `t` is. -/
def posOf (tr : List (Label (group V E P))) (t : Nat) : Loc V E P := loc (hist tr t)

theorem posOf_act_self {tr : List (Label (group V E P))} {t : Nat}
    {e : Ev (sig V E P) (Result V E P)} : posOf (.act t e :: tr) t = (posOf tr t).step e := by
  unfold posOf
  rw [hist_act_self]
  rfl

theorem posOf_act_ne {tr : List (Label (group V E P))} {t u : Nat}
    {e : Ev (sig V E P) (Result V E P)} (h : u ≠ t) : posOf (.act t e :: tr) u = posOf tr u := by
  unfold posOf
  rw [hist_act_ne (Ne.symm h)]

/-- An action moves the goroutine that acts, and no other one. -/
theorem posOf_act {tr : List (Label (group V E P))} {t : Nat} {e : Ev (sig V E P) (Result V E P)}
    {ℓ : Loc V E P} (h : (posOf tr t).step e = ℓ) (u : Nat) :
    (u = t ∧ posOf (.act t e :: tr) u = ℓ) ∨
      (u ≠ t ∧ posOf (.act t e :: tr) u = posOf tr u) := by
  by_cases hu : u = t
  · subst hu
    exact Or.inl ⟨rfl, posOf_act_self.trans h⟩
  · exact Or.inr ⟨hu, posOf_act_ne hu⟩

/-- How the map and the calls belong to the goroutines. -/
structure Sound (tr : List (Label (group V E P))) (σ : State V E P) : Prop where
  cell : ∀ t c x, (posOf tr t).cell = some (c, x) → σ.calls c = x ∧ c < σ.next
  unique : ∀ t u c x y, (posOf tr t).cell = some (c, x) → (posOf tr u).cell = some (c, y) → t = u
  map : ∀ k c, σ.m k = some c ↔ ∃ t, callOf tr t = some k ∧ (posOf tr t).holds = some c
  joins : ∀ t c, (posOf tr t).joins = some c →
    ∃ u x, callOf tr u = callOf tr t ∧ (posOf tr u).cell = some (c, x)
  woken : ∀ t c, posOf tr t = .woken c → (σ.calls c).wg = 0
  shared : ∀ t c x, posOf tr t = .shared c x → x = σ.calls c ∧ x.wg = 0
  returned : ∀ t c r x, posOf tr t = .returned c r x → x = (Call.new.finish r).release

namespace Sound

variable {tr : List (Label (group V E P))} {σ σ' : State V E P} {t : Nat} {k : GoString}
  {e : Ev (sig V E P) (Result V E P)} {ℓ : Loc V E P}

theorem map_iff (h : Sound tr σ) (hk : callOf tr t = some k) (k' : GoString) (c : Nat) :
    σ.m k' = some c ↔ (∃ u, u ≠ t ∧ callOf tr u = some k' ∧ (posOf tr u).holds = some c) ∨
      k' = k ∧ (posOf tr t).holds = some c := by
  rw [h.map k' c]
  constructor
  · rintro ⟨u, hu, hc⟩
    by_cases hut : u = t
    · subst hut
      rw [hk] at hu
      exact Or.inr ⟨(Option.some.inj hu).symm, hc⟩
    · exact Or.inl ⟨u, hut, hu, hc⟩
  · rintro (⟨u, -, hu, hc⟩ | ⟨rfl, hc⟩)
    · exact ⟨u, hu, hc⟩
    · exact ⟨t, hk, hc⟩

/-- One goroutine moves to the position `ℓ`. A call changes only when it is new or belongs to this
goroutine and has not been released. -/
theorem move (h : Sound tr σ) (hk : callOf tr t = some k) (hpos : (posOf tr t).step e = ℓ)
    (hnext : σ.next ≤ σ'.next)
    (hcalls : ∀ c < σ.next, σ'.calls c = σ.calls c ∨
      (∃ x, (posOf tr t).cell = some (c, x)) ∧ (σ.calls c).wg ≠ 0)
    (hkeep : ∀ c x, (posOf tr t).cell = some (c, x) → ∃ y, ℓ.cell = some (c, y))
    (hcell : ∀ c x, ℓ.cell = some (c, x) → σ'.calls c = x ∧ c < σ'.next ∧
      (c = σ.next ∨ ∃ y, (posOf tr t).cell = some (c, y)))
    (hmap : ∀ k' c, σ'.m k' = some c ↔
      (∃ u, u ≠ t ∧ callOf tr u = some k' ∧ (posOf tr u).holds = some c) ∨
        k' = k ∧ ℓ.holds = some c)
    (hjoins : ∀ c, ℓ.joins = some c → ∃ u x, callOf tr u = some k ∧
      (posOf tr u).cell = some (c, x))
    (hwoken : ∀ c, ℓ = .woken c → (σ'.calls c).wg = 0)
    (hshared : ∀ c x, ℓ = .shared c x → x = σ'.calls c ∧ x.wg = 0)
    (hreturned : ∀ c r x, ℓ = .returned c r x → x = (Call.new.finish r).release) :
    Sound (.act t e :: tr) σ' := by
  have hact := posOf_act hpos
  -- A cell of another goroutine is not touched, and no settled call is.
  have hframe : ∀ u c x, u ≠ t → (posOf tr u).cell = some (c, x) → σ'.calls c = σ.calls c := by
    intro u c x hu hx
    rcases hcalls c (h.cell u c x hx).2 with heq | ⟨⟨y, hy⟩, -⟩
    · exact heq
    · exact absurd (h.unique u t c x y hx hy) hu
  have hsettled : ∀ u c x, (posOf tr u).cell = some (c, x) → (σ.calls c).wg = 0 →
      σ'.calls c = σ.calls c := by
    intro u c x hx hwg
    rcases hcalls c (h.cell u c x hx).2 with heq | ⟨-, hne⟩
    · exact heq
    · exact absurd hwg hne
  have hnew : ∀ u c x y, u ≠ t → (posOf tr u).cell = some (c, x) → ℓ.cell = some (c, y) →
      False := by
    intro u c x y hu hx hy
    rcases (hcell c y hy).2.2 with rfl | ⟨z, hz⟩
    · exact Nat.lt_irrefl _ (h.cell u _ x hx).2
    · exact hu (h.unique u t c x z hx hz)
  have howner : ∀ u c x, (posOf tr u).cell = some (c, x) →
      ∃ y, (posOf (.act t e :: tr) u).cell = some (c, y) := by
    intro u c x hx
    rcases hact u with ⟨rfl, hu⟩ | ⟨-, hu⟩ <;> rw [hu]
    · exact hkeep c x hx
    · exact ⟨x, hx⟩
  refine ⟨?_, ?_, ?_, ?_, ?_, ?_, ?_⟩
  · intro u c x hx
    rcases hact u with ⟨rfl, hu⟩ | ⟨hne, hu⟩ <;> rw [hu] at hx
    · exact ⟨(hcell c x hx).1, (hcell c x hx).2.1⟩
    · obtain ⟨hx', hlt⟩ := h.cell u c x hx
      exact ⟨(hframe u c x hne hx).trans hx', Nat.lt_of_lt_of_le hlt hnext⟩
  · intro u v c x y hx hy
    rcases hact u with ⟨hut, hu⟩ | ⟨hut, hu⟩ <;> rcases hact v with ⟨hvt, hv⟩ | ⟨hvt, hv⟩ <;>
      rw [hu] at hx <;> rw [hv] at hy
    · rw [hut, hvt]
    · exact (hnew v c y x hvt hy hx).elim
    · exact (hnew u c x y hut hx hy).elim
    · exact h.unique u v c x y hx hy
  · intro k' c
    rw [hmap k' c]
    simp only [callOf_act]
    constructor
    · rintro (⟨u, hne, hcall, hc⟩ | ⟨rfl, hc⟩)
      · exact ⟨u, hcall, by rw [posOf_act_ne hne]; exact hc⟩
      · exact ⟨t, hk, by rw [posOf_act_self, hpos]; exact hc⟩
    · rintro ⟨u, hcall, hc⟩
      rcases hact u with ⟨rfl, hu⟩ | ⟨hne, hu⟩ <;> rw [hu] at hc
      · rw [hk] at hcall
        exact Or.inr ⟨(Option.some.inj hcall).symm, hc⟩
      · exact Or.inl ⟨u, hne, hcall, hc⟩
  · intro u c hc
    simp only [callOf_act]
    rcases hact u with ⟨rfl, hu⟩ | ⟨-, hu⟩ <;> rw [hu] at hc
    · obtain ⟨v, x, hv, hx⟩ := hjoins c hc
      obtain ⟨y, hy⟩ := howner v c x hx
      exact ⟨v, y, hv.trans hk.symm, hy⟩
    · obtain ⟨v, x, hv, hx⟩ := h.joins u c hc
      obtain ⟨y, hy⟩ := howner v c x hx
      exact ⟨v, y, hv, hy⟩
  · intro u c hc
    rcases hact u with ⟨rfl, hu⟩ | ⟨-, hu⟩ <;> rw [hu] at hc
    · exact hwoken c hc
    · obtain ⟨v, x, -, hx⟩ := h.joins u c (by rw [hc]; rfl)
      rw [hsettled v c x hx (h.woken u c hc)]
      exact h.woken u c hc
  · intro u c x hc
    rcases hact u with ⟨rfl, hu⟩ | ⟨-, hu⟩ <;> rw [hu] at hc
    · exact hshared c x hc
    · obtain ⟨hx, hwg⟩ := h.shared u c x hc
      obtain ⟨v, y, -, hy⟩ := h.joins u c (by rw [hc]; rfl)
      rw [hx] at hwg
      rw [hsettled v c y hy hwg]
      exact h.shared u c x hc
  · intro u c r x hc
    rcases hact u with ⟨rfl, hu⟩ | ⟨-, hu⟩ <;> rw [hu] at hc
    · exact hreturned c r x hc
    · exact h.returned u c r x hc

/-- A step that leaves the map, the calls and what the goroutine owns alone. -/
theorem stay (h : Sound tr σ) (hk : callOf tr t = some k) (hpos : (posOf tr t).step e = ℓ)
    (hcell : ℓ.cell = (posOf tr t).cell) (hholds : ℓ.holds = (posOf tr t).holds)
    (hjoins : ∀ c, ℓ.joins = some c → ∃ u x, callOf tr u = some k ∧
      (posOf tr u).cell = some (c, x))
    (hwoken : ∀ c, ℓ = .woken c → (σ.calls c).wg = 0)
    (hshared : ∀ c x, ℓ = .shared c x → x = σ.calls c ∧ x.wg = 0)
    (hreturned : ∀ c r x, ℓ = .returned c r x → x = (Call.new.finish r).release) :
    Sound (.act t e :: tr) σ := by
  refine h.move hk hpos (Nat.le_refl _) (fun _ _ => Or.inl rfl) ?_ ?_ ?_ hjoins hwoken hshared
    hreturned
  · intro c x hx
    rw [hcell]
    exact ⟨x, hx⟩
  · intro c x hx
    rw [hcell] at hx
    obtain ⟨h₁, h₂⟩ := h.cell t c x hx
    exact ⟨h₁, h₂, Or.inr ⟨x, hx⟩⟩
  · rw [hholds]
    exact h.map_iff hk

/-- A step that writes to the call of the goroutine. -/
theorem write (h : Sound tr σ) (hk : callOf tr t = some k) (hpos : (posOf tr t).step e = ℓ)
    {c : Nat} {x y : Call V E P} (hx : (posOf tr t).cell = some (c, x)) (hwg : x.wg ≠ 0)
    (hy : ℓ.cell = some (c, y)) (hholds : ℓ.holds = (posOf tr t).holds)
    (hjoins : ℓ.joins = none) (hreturned : ∀ c r x, ℓ ≠ .returned c r x) :
    Sound (.act t e :: tr) { σ with calls := Function.update σ.calls c y } := by
  obtain ⟨hcall, hlt⟩ := h.cell t c x hx
  refine h.move hk hpos (Nat.le_refl _) ?_ ?_ ?_ ?_ ?_ ?_ ?_ ?_
  · intro c' _
    by_cases hc : c' = c
    · subst hc
      exact Or.inr ⟨⟨x, hx⟩, by rw [hcall]; exact hwg⟩
    · exact Or.inl (Function.update_of_ne hc _ _)
  · intro c' x' hx'
    rw [hx] at hx'
    cases hx'
    exact ⟨y, hy⟩
  · intro c' y' hy'
    rw [hy] at hy'
    cases hy'
    exact ⟨Function.update_self .., hlt, Or.inr ⟨x, hx⟩⟩
  · rw [hholds]
    exact h.map_iff hk
  · intro c' hc'
    rw [hjoins] at hc'
    cases hc'
  · rintro c' rfl
    cases hjoins
  · rintro c' x' rfl
    cases hjoins
  · intro c' r x' heq
    exact absurd heq (hreturned c' r x')

/-- `Do` makes a call. -/
theorem start (h : Sound tr σ) (hk : callOf tr t = some k) (hpos : (posOf tr t).step e = ℓ)
    (hidle : posOf tr t = .idle) (hm : σ.m k = none) (hℓ : ℓ = .entered σ.next) :
    Sound (.act t e :: tr) { σ with
      m := Function.update σ.m k (some σ.next)
      calls := Function.update σ.calls σ.next .new
      next := σ.next + 1 } := by
  subst hℓ
  refine h.move hk hpos (Nat.le_succ _) ?_ ?_ ?_ ?_ nofun nofun nofun nofun
  · intro c hc
    exact Or.inl (Function.update_of_ne (Nat.ne_of_lt hc) _ _)
  · intro c x hx
    rw [hidle] at hx
    cases hx
  · intro c x hx
    cases hx
    exact ⟨Function.update_self .., Nat.lt_succ_self _, Or.inl rfl⟩
  · intro k' c
    have hold := h.map_iff hk k' c
    rw [hidle] at hold
    by_cases hkk : k' = k
    · subst hkk
      rw [hm] at hold
      show Function.update σ.m k' (some σ.next) k' = some c ↔ _
      rw [Function.update_self, Option.some_inj]
      constructor
      · rintro rfl
        exact Or.inr ⟨rfl, rfl⟩
      · rintro (hu | ⟨-, hc⟩)
        · cases hold.2 (Or.inl hu)
        · cases hc
          rfl
    · simp only [Function.update_of_ne hkk]
      rw [hold]
      apply or_congr_right
      constructor
      · rintro ⟨-, hc⟩
        cases hc
      · rintro ⟨heq, -⟩
        exact absurd heq hkk

/-- The owner of a call takes it out of the map. -/
theorem remove (h : Sound tr σ) (hk : callOf tr t = some k) (hpos : (posOf tr t).step e = ℓ)
    {c : Nat} {r : Result V E P} (hended : posOf tr t = .ended c r) (hℓ : ℓ = .removed c r) :
    Sound (.act t e :: tr)
      { σ with m := if σ.m k = some c then Function.update σ.m k none else σ.m } := by
  subst hℓ
  have hm : σ.m k = some c := (h.map k c).2 ⟨t, hk, by rw [hended]; rfl⟩
  rw [if_pos hm]
  refine h.move hk hpos (Nat.le_refl _) (fun _ _ => Or.inl rfl) ?_ ?_ ?_ nofun nofun nofun nofun
  · intro c' x hx
    rw [hended] at hx
    exact ⟨x, hx⟩
  · intro c' x hx
    have hx' : (posOf tr t).cell = some (c', x) := by
      rw [hended]
      exact hx
    obtain ⟨h₁, h₂⟩ := h.cell t c' x hx'
    exact ⟨h₁, h₂, Or.inr ⟨x, hx'⟩⟩
  · intro k' c'
    have hold := h.map_iff hk k' c'
    rw [hended] at hold
    by_cases hkk : k' = k
    · subst hkk
      simp only [Function.update_self]
      constructor
      · intro heq
        cases heq
      · rintro (⟨u, hu, hcall, hc⟩ | ⟨-, hc⟩)
        · -- Two owners of what is in the map under one key would be owners of one call.
          have hm' := (h.map k' c').2 ⟨u, hcall, hc⟩
          rw [hm] at hm'
          cases hm'
          obtain ⟨x, hx, -⟩ := Loc.cell_of_holds hc
          exact absurd (h.unique u t c x _ hx (by rw [hended]; rfl)) hu
        · cases hc
    · simp only [Function.update_of_ne hkk]
      rw [hold]
      apply or_congr_right
      constructor
      · rintro ⟨heq, -⟩
        exact absurd heq hkk
      · rintro ⟨heq, -⟩
        exact absurd heq hkk

theorem zero : Sound ([] : List (Label (group V E P))) .zero := by
  refine ⟨nofun, nofun, ?_, nofun, nofun, nofun, nofun⟩
  intro k c
  constructor
  · intro h
    cases h
  · rintro ⟨t, ht, -⟩
    cases ht

theorem spawn (h : Sound tr σ) (hcall : callOf tr t = none) (hhist : hist tr t = []) :
    Sound (.spawn t k :: tr) σ := by
  have hidle : posOf tr t = .idle := by
    unfold posOf
    rw [hhist]
    rfl
  have hpos : ∀ u, posOf (.spawn t k :: tr) u = posOf tr u := fun _ => rfl
  refine ⟨h.cell, h.unique, ?_, ?_, h.woken, h.shared, h.returned⟩
  · intro k' c
    rw [h.map k' c]
    constructor
    · rintro ⟨u, hu, hc⟩
      refine ⟨u, ?_, hc⟩
      rw [callOf_spawn_ne]
      · exact hu
      · rintro rfl
        rw [hcall] at hu
        cases hu
    · rintro ⟨u, hu, hc⟩
      refine ⟨u, ?_, hc⟩
      rwa [callOf_spawn_ne] at hu
      rintro rfl
      rw [hpos, hidle] at hc
      cases hc
  · intro u c hc
    obtain ⟨v, x, hv, hx⟩ := h.joins u c hc
    refine ⟨v, x, ?_, hx⟩
    rw [callOf_spawn_ne, callOf_spawn_ne, hv]
    · rintro rfl
      rw [hpos, hidle] at hc
      cases hc
    · rintro rfl
      rw [hidle] at hx
      cases hx

/-- **Every step of a `Do`** keeps the map and the calls with their owners. -/
theorem act (h : Sound tr σ) (hk : callOf tr t = some k) {o : Op} {i : Result V E P}
    {a : Ans V E P o} (hallow : (posOf tr t).next k = some o)
    (hexec : exec o i σ = some (a, σ')) : Sound (.act t ⟨o, i, a⟩ :: tr) σ' := by
  cases hpos : posOf tr t with
  | idle =>
    rw [hpos] at hallow
    cases hallow
    dsimp only [exec] at hexec
    split at hexec
    · next c hm =>
      cases hexec
      apply h.stay hk (ℓ := .waiting c) (by rw [hpos]; rfl) (by rw [hpos]; rfl) (by rw [hpos]; rfl)
        _ nofun nofun nofun
      rintro c' ⟨⟩
      obtain ⟨u, hu, hc⟩ := (h.map k c).1 hm
      obtain ⟨x, hx, -⟩ := Loc.cell_of_holds hc
      exact ⟨u, x, hu, hx⟩
    · next hm =>
      cases hexec
      exact h.start hk (by rw [hpos]; rfl) hpos hm rfl
  | waiting c =>
    rw [hpos] at hallow
    cases hallow
    dsimp only [exec] at hexec
    split at hexec
    · next hwg =>
      cases hexec
      apply h.stay hk (ℓ := .woken c) (by rw [hpos]; rfl) (by rw [hpos]; rfl) (by rw [hpos]; rfl)
        _ _ nofun nofun
      · rintro c' ⟨⟩
        obtain ⟨u, x, hu, hx⟩ := h.joins t c (by rw [hpos]; rfl)
        exact ⟨u, x, hu.trans hk, hx⟩
      · rintro c' ⟨⟩
        exact hwg
    · cases hexec
  | woken c =>
    rw [hpos] at hallow
    cases hallow
    cases hexec
    apply h.stay hk (ℓ := .shared c (σ.calls c)) (by rw [hpos]; rfl) (by rw [hpos]; rfl)
      (by rw [hpos]; rfl) _ nofun _ nofun
    · rintro c' ⟨⟩
      obtain ⟨u, x, hu, hx⟩ := h.joins t c (by rw [hpos]; rfl)
      exact ⟨u, x, hu.trans hk, hx⟩
    · rintro c' x ⟨⟩
      exact ⟨rfl, h.woken t c hpos⟩
  | entered c =>
    rw [hpos] at hallow
    cases hallow
    cases hexec
    exact h.stay hk (ℓ := .running c) (by rw [hpos]; rfl) (by rw [hpos]; rfl) (by rw [hpos]; rfl)
      nofun nofun nofun nofun
  | running c =>
    rw [hpos] at hallow
    cases hallow
    cases hexec
    have hcell : (posOf tr t).cell = some (c, .new) := by rw [hpos]; rfl
    rw [(h.cell t c _ hcell).1]
    exact h.write hk (ℓ := .ended c i) (by rw [hpos]; rfl) hcell Nat.one_ne_zero rfl
      (by rw [hpos]; rfl) rfl nofun
  | ended c r =>
    rw [hpos] at hallow
    cases hallow
    cases hexec
    exact h.remove hk (by rw [hpos]; rfl) hpos rfl
  | removed c r =>
    rw [hpos] at hallow
    cases hallow
    cases hexec
    have hcell : (posOf tr t).cell = some (c, Call.new.finish r) := by rw [hpos]; rfl
    rw [(h.cell t c _ hcell).1]
    refine h.write hk (ℓ := .released c r) (by rw [hpos]; rfl) hcell ?_ rfl (by rw [hpos]; rfl) rfl
      nofun
    rw [Call.wg_finish]
    exact Nat.one_ne_zero
  | released c r =>
    rw [hpos] at hallow
    cases hallow
    cases hexec
    apply h.stay hk (ℓ := .returned c r (σ.calls c)) (by rw [hpos]; rfl) (by rw [hpos]; rfl)
      (by rw [hpos]; rfl) nofun nofun nofun
    rintro c' r' x ⟨⟩
    exact (h.cell t c _ (by rw [hpos]; rfl)).1
  | shared c x =>
    rw [hpos] at hallow
    cases hallow
  | returned c r x =>
    rw [hpos] at hallow
    cases hallow

end Sound

/-- The map and the calls belong to the goroutines, in every run. -/
theorem sound {c : Config (group V E P)} {tr : List (Label (group V E P))}
    (h : Run Free (State.zero : State V E P) c tr) : Sound tr c.state := by
  refine h.inv (P := protocol V E P) ⟨.zero, ?_, ?_, ?_, ?_⟩
  · intro tr σ t k hI _ hcall hhist
    exact hI.spawn hcall hhist
  · intro tr σ t k o i a σ' hI _ hcall hallow hexec
    exact hI.act hcall hallow hexec
  · intro tr σ t k r hI _ _ _
    exact ⟨hI.cell, hI.unique, hI.map, hI.joins, hI.woken, hI.shared, hI.returned⟩
  · intro tr σ e
    cases e

/-! ## What a goroutine has done -/

/-- The key and the call of an `enter`. -/
def entered : Ev (sig V E P) (Result V E P) → Option (GoString × Nat)
  | ⟨.enter key, _, entry⟩ => some (key, Entry.call entry)
  | _ => none

/-- The key and the call for which a function begins. -/
def fnStarted : Ev (sig V E P) (Result V E P) → Option (GoString × Nat)
  | ⟨.fnStart key c, _, _⟩ => some (key, c)
  | _ => none

/-- The key and the call for which a function ends, and how. -/
def fnEnded : Ev (sig V E P) (Result V E P) → Option (GoString × Nat × Result V E P)
  | ⟨.fnEnd key c, r, _⟩ => some (key, c, r)
  | _ => none

/-- The position of a goroutine tells what it has done. -/
structure Path (k : GoString) (h : History V E P) : Prop where
  entered : h.filterMap entered = (loc h).call.toList.map fun c => (k, c)
  fnStarted : h.filterMap fnStarted = (loc h).begun.toList.map fun c => (k, c)
  fnEnded : h.filterMap fnEnded = (loc h).result.toList.map fun x => (k, x)

theorem Path.cons {k : GoString} {h : History V E P} (hp : Path k h) {o : Op} {i : Result V E P}
    {a : Ans V E P o} (hallow : (loc h).next k = some o) : Path k (⟨o, i, a⟩ :: h) := by
  have hmove : ∀ {β : Type} (f : Ev (sig V E P) (Result V E P) → Option β) (g : Loc V E P → List β),
      (∀ ℓ : Loc V E P, ℓ.next k = some o →
        (f ⟨o, i, a⟩).toList ++ g ℓ = g (ℓ.step ⟨o, i, a⟩)) →
      h.filterMap f = g (loc h) → (⟨o, i, a⟩ :: h).filterMap f = g (loc (⟨o, i, a⟩ :: h)) := by
    intro β f g hstep hh
    have hg := hstep (loc h) hallow
    rw [← hh] at hg
    refine Eq.trans ?_ hg
    rw [List.filterMap_cons]
    cases f ⟨o, i, a⟩ <;> rfl
  refine ⟨?_, ?_, ?_⟩
  · apply hmove _ (fun ℓ => ℓ.call.toList.map fun c => (k, c)) _ hp.entered
    intro ℓ hℓ
    cases ℓ with
    | idle => cases hℓ; cases a <;> rfl
    | _ => cases hℓ <;> rfl
  · apply hmove _ (fun ℓ => ℓ.begun.toList.map fun c => (k, c)) _ hp.fnStarted
    intro ℓ hℓ
    cases ℓ with
    | idle => cases hℓ; cases a <;> rfl
    | _ => cases hℓ <;> rfl
  · apply hmove _ (fun ℓ => ℓ.result.toList.map fun x => (k, x)) _ hp.fnEnded
    intro ℓ hℓ
    cases ℓ with
    | idle => cases hℓ; cases a <;> rfl
    | _ => cases hℓ <;> rfl

section

variable {c : Config (group V E P)} {tr : List (Label (group V E P))} {t : Nat} {k : GoString}
  (h : Run Free (State.zero : State V E P) c tr)

include h

theorem path : ∀ t k, callOf tr t = some k → Path k (hist tr t) := by
  refine h.inv (P := protocol V E P)
    (I := fun tr _ => ∀ t k, callOf tr t = some k → Path k (hist tr t))
    ⟨nofun, ?_, ?_, fun hI _ _ _ => hI, nofun⟩
  · intro tr σ t k hI _ hcall hhist u k' hu
    by_cases hut : t = u
    · subst hut
      rw [hist_spawn, hhist]
      exact ⟨rfl, rfl, rfl⟩
    · rw [callOf_spawn_ne hut] at hu
      exact hI u k' hu
  · intro tr σ t k o i a σ' hI _ hcall hallow _ u k' hu
    by_cases hut : t = u
    · subst hut
      rw [callOf_act, hcall] at hu
      cases hu
      rw [hist_act_self]
      exact (hI t k hcall).cons hallow
    · rw [hist_act_ne hut]
      exact hI u k' hu

/-- A `Do` that has returned is at its end, and returned what it had read. -/
theorem loaded_of_ret : ∀ t r, .ret t r ∈ tr →
    ∃ x, (posOf tr t).loaded = some x ∧ r = x.outcome := by
  refine h.inv (P := protocol V E P)
    (I := fun tr _ => ∀ t r, .ret t r ∈ tr → ∃ x, (posOf tr t).loaded = some x ∧ r = x.outcome)
    ⟨nofun, ?_, ?_, ?_, nofun⟩
  · intro tr σ t k hI _ _ _ u r hu
    rcases List.mem_cons.1 hu with heq | hu
    · cases heq
    · exact hI u r hu
  · intro tr σ t k o i a σ' hI _ _ hallow _ u r hu
    rcases List.mem_cons.1 hu with heq | hu
    · cases heq
    · obtain ⟨x, hx, hr⟩ := hI u r hu
      refine ⟨x, ?_, hr⟩
      have hne : t ≠ u := by
        rintro rfl
        have hnext := Loc.next_of_loaded (k := k) hx
        rw [posOf, hallow] at hnext
        cases hnext
      rw [posOf_act_ne hne.symm]
      exact hx
  · intro tr σ t k r hI _ _ hend u r' hu
    rcases List.mem_cons.1 hu with heq | hu
    · cases heq
      exact hend
    · exact hI u r' hu

omit h in
theorem exists_call (h : Run Free (State.zero : State V E P) c tr)
    {e : Ev (sig V E P) (Result V E P)} (he : .act t e ∈ tr) : ∃ k, callOf tr t = some k := by
  obtain ⟨X, Y, hXY⟩ := List.append_of_mem (mem_hist.2 he)
  obtain ⟨k, hk, -⟩ := h.allowed (protocol V E P) t e Y ⟨X, hXY.symm⟩
  exact ⟨k, hk⟩

end

/-! ## The four properties -/

/-- The function of goroutine `t`'s `Do` of `k` has begun and has not ended. -/
def Executing (tr : List (Label (group V E P))) (t : Nat) (k : GoString) : Prop :=
  ∃ c i a h, hist tr t = ⟨.fnStart k c, i, a⟩ :: h

/-- Goroutine `t` gets its result from call `c`. -/
def Obtains (tr : List (Label (group V E P))) (t c : Nat) : Prop :=
  ∃ key i entry, .act t ⟨.enter key, i, entry⟩ ∈ tr ∧ Entry.call entry = c

/-- Goroutine `t` ran the function for call `c`, which ended with `r`. -/
def Executed (tr : List (Label (group V E P))) (t : Nat) (k : GoString) (c : Nat)
    (r : Result V E P) : Prop :=
  .act t ⟨.fnEnd k c, r, ()⟩ ∈ tr

/-- The keys and calls for which a function was begun, newest first. -/
def executions (tr : List (Label (group V E P))) : List (GoString × Nat) :=
  tr.filterMap fun
    | .act _ e => fnStarted e
    | _ => none

section

variable {c : Config (group V E P)} {tr : List (Label (group V E P))} {t : Nat} {k : GoString}
  {call : Nat}

theorem call_of_obtains (h : Run Free (State.zero : State V E P) c tr) (ho : Obtains tr t call) :
    (posOf tr t).call = some call := by
  obtain ⟨key, i, entry, hm, rfl⟩ := ho
  obtain ⟨k, hk⟩ := exists_call h hm
  have hmem : (key, Entry.call entry) ∈ (hist tr t).filterMap entered :=
    List.mem_filterMap.2 ⟨_, mem_hist.2 hm, rfl⟩
  rw [(path h t k hk).entered, List.mem_map] at hmem
  obtain ⟨x, hx, heq⟩ := hmem
  cases heq
  exact Option.mem_toList.1 hx

theorem obtains_of_call (h : Run Free (State.zero : State V E P) c tr)
    (hk : callOf tr t = some k) (hcall : (posOf tr t).call = some call) : Obtains tr t call := by
  have hmem : (k, call) ∈ (hist tr t).filterMap entered := by
    rw [(path h t k hk).entered, List.mem_map]
    exact ⟨call, Option.mem_toList.2 hcall, rfl⟩
  obtain ⟨⟨o, i, a⟩, he, heq⟩ := List.mem_filterMap.1 hmem
  cases o with
  | enter key =>
    cases heq
    exact ⟨k, i, a, mem_hist.1 he, rfl⟩
  | _ => cases heq

theorem executed_iff (h : Run Free (State.zero : State V E P) c tr) {r : Result V E P} :
    Executed tr t k call r ↔ callOf tr t = some k ∧ (posOf tr t).result = some (call, r) := by
  constructor
  · intro hm
    obtain ⟨k', hk⟩ := exists_call h hm
    have hmem : (k, call, r) ∈ (hist tr t).filterMap fnEnded :=
      List.mem_filterMap.2 ⟨_, mem_hist.2 hm, rfl⟩
    rw [(path h t k' hk).fnEnded, List.mem_map] at hmem
    obtain ⟨x, hx, heq⟩ := hmem
    cases heq
    exact ⟨hk, Option.mem_toList.1 hx⟩
  · rintro ⟨hk, hr⟩
    have hmem : (k, call, r) ∈ (hist tr t).filterMap fnEnded := by
      rw [(path h t k hk).fnEnded, List.mem_map]
      exact ⟨(call, r), Option.mem_toList.2 hr, rfl⟩
    obtain ⟨⟨o, i, a⟩, he, heq⟩ := List.mem_filterMap.1 hmem
    cases o with
    | fnEnd key c =>
      cases heq
      exact mem_hist.1 he
    | _ => cases heq

theorem mem_executions (h : Run Free (State.zero : State V E P) c tr) :
    (k, call) ∈ executions tr ↔
      ∃ t, callOf tr t = some k ∧ (posOf tr t).begun = some call := by
  unfold executions
  rw [List.mem_filterMap]
  constructor
  · rintro ⟨ℓ, hℓ, heq⟩
    cases ℓ with
    | act t e =>
      obtain ⟨k', hk⟩ := exists_call h hℓ
      have hmem : (k, call) ∈ (hist tr t).filterMap fnStarted :=
        List.mem_filterMap.2 ⟨_, mem_hist.2 hℓ, heq⟩
      rw [(path h t k' hk).fnStarted, List.mem_map] at hmem
      obtain ⟨x, hx, heq'⟩ := hmem
      cases heq'
      exact ⟨t, hk, Option.mem_toList.1 hx⟩
    | _ => cases heq
  · rintro ⟨t, hk, hb⟩
    have hmem : (k, call) ∈ (hist tr t).filterMap fnStarted := by
      rw [(path h t k hk).fnStarted, List.mem_map]
      exact ⟨call, Option.mem_toList.2 hb, rfl⟩
    obtain ⟨e, he, heq⟩ := List.mem_filterMap.1 hmem
    exact ⟨.act t e, mem_hist.1 he, heq⟩

/-- No call has its function begun twice. -/
theorem nodup_executions (h : Run Free (State.zero : State V E P) c tr) :
    ((executions tr).map Prod.snd).Nodup := by
  induction h with
  | start => exact List.nodup_nil
  | @step c c' tr ℓ cmd prior hstep _ ih =>
    cases ℓ with
    | act t e =>
      obtain ⟨o, i, a⟩ := e
      obtain ⟨k, hk, hallow, -⟩ := prior.of_act (protocol V E P) hstep
      cases o with
      | fnStart key call =>
        refine List.nodup_cons.2 ⟨?_, ih⟩
        rw [List.mem_map]
        rintro ⟨⟨k', call'⟩, hmem, rfl⟩
        obtain ⟨u, -, hb⟩ := (mem_executions prior).1 hmem
        obtain ⟨x, hx⟩ := Loc.cell_of_begun hb
        change (posOf tr t).next k = some (.fnStart key call') at hallow
        have hentered : posOf tr t = .entered call' := by
          cases hpos : posOf tr t <;> rw [hpos] at hallow <;> cases hallow
          rfl
        obtain rfl := (sound prior).unique u t call' x .new hx (by rw [hentered]; rfl)
        rw [hentered] at hb
        cases hb
      | _ => exact ih
    | _ => exact ih

/-- A `Do` that is through has its result from a call that its owner has released. -/
theorem owner_of_loaded (h : Run Free (State.zero : State V E P) c tr) (hk : callOf tr t = some k)
    {x : Call V E P} (hx : (posOf tr t).loaded = some x) : ∃ call u y,
      (posOf tr t).call = some call ∧ callOf tr u = some k ∧
      (posOf tr u).cell = some (call, y) ∧ y.wg = 0 ∧ y.outcome = x.outcome := by
  have hs := sound h
  cases hpos : posOf tr t with
  | shared call y =>
    rw [hpos] at hx
    cases hx
    obtain ⟨u, y, hu, hy⟩ := hs.joins t call (by rw [hpos]; rfl)
    obtain ⟨heq, hwg⟩ := hs.shared t call x hpos
    rw [(hs.cell u call y hy).1] at heq
    subst heq
    exact ⟨call, u, _, rfl, hu.trans hk, hy, hwg, rfl⟩
  | returned call r y =>
    rw [hpos] at hx
    cases hx
    have hcell : (posOf tr t).cell = some (call, (Call.new.finish r).release) := by
      rw [hpos]
      rfl
    refine ⟨call, t, _, rfl, hk, hcell, ?_, ?_⟩
    · show (Call.new.finish r).wg - 1 = 0
      rw [Call.wg_finish]
      rfl
    · rw [hs.returned t call r x hpos]
  | _ =>
    rw [hpos] at hx
    cases hx

/-- After a `Do` has its result from a call, nobody gets that call any more. -/
theorem not_entered_of_loaded (h : Run Free (State.zero : State V E P) c tr)
    (hk : callOf tr t = some k) {x : Call V E P} (hx : (posOf tr t).loaded = some x)
    (hcall : (posOf tr t).call = some call) {key : GoString} (i : Result V E P) {entry : Entry}
    {σ' : State V E P} (hexec : exec (.enter key) i c.state = some (entry, σ')) :
    Entry.call entry ≠ call := by
  have hs := sound h
  obtain ⟨call', u, y, hcall', -, hy, hwg, -⟩ := owner_of_loaded h hk hx
  rw [hcall] at hcall'
  cases hcall'
  dsimp only [exec] at hexec
  split at hexec
  · next c₁ hm =>
    cases hexec
    intro heq
    change c₁ = call at heq
    subst heq
    obtain ⟨v, -, hv⟩ := (hs.map key c₁).1 hm
    obtain ⟨z, hz, hzwg⟩ := Loc.cell_of_holds hv
    rw [← (hs.cell v c₁ z hz).1, (hs.cell u c₁ y hy).1] at hzwg
    exact hzwg hwg
  · cases hexec
    rintro rfl
    exact Nat.lt_irrefl _ (hs.cell u _ y hy).2

theorem pos_of_executing (h : Run Free (State.zero : State V E P) c tr) (he : Executing tr t k) :
    ∃ call, callOf tr t = some k ∧ posOf tr t = .running call := by
  obtain ⟨call, i, a, rest, hhist⟩ := he
  have hpos : posOf tr t = .running call := by
    unfold posOf
    rw [hhist]
    rfl
  have hmem : .act t ⟨.fnStart k call, i, a⟩ ∈ tr := by
    rw [← mem_hist, hhist]
    exact List.mem_cons_self
  obtain ⟨k', hk⟩ := exists_call h hmem
  have hstart : (k, call) ∈ (hist tr t).filterMap fnStarted :=
    List.mem_filterMap.2 ⟨_, mem_hist.2 hmem, rfl⟩
  rw [(path h t k' hk).fnStarted, List.mem_map] at hstart
  obtain ⟨_, -, heq⟩ := hstart
  cases heq
  exact ⟨call, hk, hpos⟩

/-- What a `Do` returns is how the function of one call ended. -/
theorem executed_of_ret (h : Run Free (State.zero : State V E P) c tr) {r : Result V E P}
    (hspawn : .spawn t k ∈ tr) (hret : .ret t r ∈ tr) : ∃ call u, (k, call) ∈ executions tr ∧
      Executed tr u k call r ∧
      (∀ u' k' r', Executed tr u' k' call r' → u' = u ∧ k' = k ∧ r' = r) ∧
      ∀ call', Obtains tr t call' ↔ call' = call := by
  have hs := sound h
  have hk := h.callOf_spawn hspawn
  obtain ⟨x, hx, rfl⟩ := loaded_of_ret h t r hret
  obtain ⟨call, u, y, hcall, hu, hy, hwg, hout⟩ := owner_of_loaded h hk hx
  obtain ⟨hresult, hbegun⟩ := Loc.result_of_cell hy hwg
  rw [hout] at hresult
  refine ⟨call, u, (mem_executions h).2 ⟨u, hu, hbegun⟩, (executed_iff h).2 ⟨hu, hresult⟩, ?_, ?_⟩
  · intro u' k' r' he
    obtain ⟨hu', hr'⟩ := (executed_iff h).1 he
    obtain ⟨z, hz, -⟩ := Loc.cell_of_result hr'
    obtain rfl := hs.unique u' u call z y hz hy
    rw [hu] at hu'
    rw [hresult] at hr'
    cases hu'
    cases hr'
    exact ⟨rfl, rfl, rfl⟩
  · intro call'
    constructor
    · intro ho
      have hcall' := call_of_obtains h ho
      rw [hcall] at hcall'
      exact (Option.some.inj hcall').symm
    · rintro rfl
      exact obtains_of_call h hk hcall

/-- A `Do` that begins after another one has returned gets another call. -/
theorem not_obtains_of_later {A B : List (Label (group V E P))} {r : Result V E P} {u : Nat}
    (h : Run Free (State.zero : State V E P) c (A ++ .ret t r :: B)) (ho : Obtains B t call)
    (hspawn : .spawn u k ∈ A) : ¬Obtains (A ++ .ret t r :: B) u call := by
  rintro ⟨key, i, entry, hm, hentry⟩
  obtain ⟨A₁, A₂, rfl⟩ := List.append_of_mem hspawn
  rw [List.append_assoc, List.cons_append] at h hm
  obtain ⟨hnone, -⟩ := h.before_spawn
  -- The step that got the call lies after the start of its goroutine, and so after the return.
  have hafter : .act u ⟨.enter key, i, entry⟩ ∈ A₁ := by
    rcases List.mem_append.1 hm with hm | hm
    · exact hm
    · rcases List.mem_cons.1 hm with heq | hm
      · cases heq
      · rw [← mem_hist, hnone] at hm
        cases hm
  obtain ⟨C, D, rfl⟩ := List.append_of_mem hafter
  rw [List.append_assoc, List.cons_append] at h
  obtain ⟨c₁, cmd, c₂, hrun, hstep, -⟩ := h.split
  obtain ⟨_, -, -, hexec⟩ := hrun.of_act (protocol V E P) hstep
  have hret : .ret t r ∈ D ++ .spawn u k :: (A₂ ++ .ret t r :: B) := by simp
  obtain ⟨x, hx, -⟩ := loaded_of_ret hrun t r hret
  have ho' : Obtains (D ++ .spawn u k :: (A₂ ++ .ret t r :: B)) t call := by
    obtain ⟨key', i', entry', hm', heq⟩ := ho
    exact ⟨key', i', entry', by simp [hm'], heq⟩
  obtain ⟨k', hk'⟩ : ∃ k', callOf (D ++ .spawn u k :: (A₂ ++ .ret t r :: B)) t = some k' := by
    obtain ⟨_, _, _, hm', -⟩ := ho'
    exact exists_call hrun hm'
  exact not_entered_of_loaded hrun hk' hx (call_of_obtains hrun ho') i hexec hentry

end

/-- **`Do` runs a function once for all that wait for it.** At most one function per key is
executing. No call has its function run twice, and a `Do` returns, or panics with, how the function
of one call for its key ended. Once a `Do` has returned from a call, no `Do` that begins later gets
that call. When no `Do` of a key is in progress, the map has nothing under it. -/
theorem do_shares_executions {c : Config (group V E P)} {tr : List (Label (group V E P))}
    (h : Run Free (State.zero : State V E P) c tr) :
    (∀ k t u, Executing tr t k → Executing tr u k → t = u) ∧
    ((executions tr).map Prod.snd).Nodup ∧
    (∀ t k r, .spawn t k ∈ tr → .ret t r ∈ tr → ∃ call u, (k, call) ∈ executions tr ∧
      Executed tr u k call r ∧
      (∀ u' k' r', Executed tr u' k' call r' → u' = u ∧ k' = k ∧ r' = r) ∧
      ∀ call', Obtains tr t call' ↔ call' = call) ∧
    (∀ A B t r call u k, tr = A ++ .ret t r :: B → Obtains B t call → .spawn u k ∈ A →
      ¬Obtains tr u call) ∧
    ∀ k, (∀ t, .spawn t k ∈ tr → ∃ r, .ret t r ∈ tr) → c.state.m k = none := by
  have hs := sound h
  refine ⟨?_, nodup_executions h, fun t k r => executed_of_ret h, ?_, ?_⟩
  · intro k t u ht hu
    obtain ⟨call, hk, hpos⟩ := pos_of_executing h ht
    obtain ⟨call', hk', hpos'⟩ := pos_of_executing h hu
    have hm := (hs.map k call).2 ⟨t, hk, by rw [hpos]; rfl⟩
    have hm' := (hs.map k call').2 ⟨u, hk', by rw [hpos']; rfl⟩
    rw [hm] at hm'
    cases hm'
    exact hs.unique t u call .new .new (by rw [hpos]; rfl) (by rw [hpos']; rfl)
  · intro A B t r call u k heq
    subst heq
    exact not_obtains_of_later h
  · intro k hdone
    cases hm : c.state.m k with
    | none => rfl
    | some call =>
      obtain ⟨t, hk, hholds⟩ := (hs.map k call).1 hm
      obtain ⟨r, hr⟩ := hdone t (mem_of_callOf hk)
      obtain ⟨x, hx, -⟩ := loaded_of_ret h t r hr
      cases hpos : posOf tr t with
      | shared call x =>
        rw [hpos] at hholds
        cases hholds
      | returned call r x =>
        rw [hpos] at hholds
        cases hholds
      | _ =>
        rw [hpos] at hx
        cases hx

/-- The goroutine that a step starts. -/
def spawned? : Label (group Nat Nat Nat) → Option Nat
  | .spawn t _ => some t
  | _ => none

/-- Two calls of `Do` share a panic; a third one, begun when the second has panicked, runs its
function again. -/
def panicAndRetry : List (Cmd (group Nat Nat Nat)) :=
  [.spawn (ascii "k"), .spawn (ascii "k")] ++
  [0, 1, 0, 0, 0, 0, 1, 1, 1].map (fun t => .run t (.error 7)) ++ [.spawn (ascii "k")] ++
  [2, 2, 2, 0, 0, 2, 2, 2, 2].map fun t => .run t (.ok (some 1, none))

theorem panicAndRetry_shared : ∃ c tr, Run Free (State.zero : State Nat Nat Nat) c tr ∧
    (∃ call u, Executed tr u (ascii "k") call (.error 7)) ∧ ¬Obtains tr 2 0 ∧
    c.state.m (ascii "k") = none := by
  obtain ⟨c, tr, hsteps, htr, hlater, hjoined, hspawn, hspawns, hret₀, hret₂⟩ : ∃ c tr,
      (Config.start (M := group Nat Nat Nat) State.zero).steps [] panicAndRetry = some (c, tr) ∧
      tr = tr.take 10 ++ .ret 1 (.error 7) :: tr.drop 11 ∧
      (tr.take 10)[9]? = some (.spawn 2 (ascii "k")) ∧
      (tr.drop 11)[6]? = some (.act 1 ⟨.enter (ascii "k"), .error 7, .joined 0⟩) ∧
      tr[19]? = some (.spawn 1 (ascii "k")) ∧
      tr.filterMap spawned? = [2, 1, 0] ∧
      tr[4]? = some (.ret 0 (.error 7)) ∧ tr[0]? = some (.ret 2 (.ok (some 1, none))) :=
    ⟨_, _, rfl, rfl, rfl, rfl, rfl, rfl, rfl, rfl⟩
  have hrun : Run Free (State.zero : State Nat Nat Nat) c tr := Run.steps .start hsteps
  have hret₁ : .ret 1 (.error 7) ∈ tr := by
    rw [htr]
    simp
  obtain ⟨-, -, hresult, hfresh, hempty⟩ := do_shares_executions hrun
  obtain ⟨call, u, -, hexecuted, -⟩ := hresult 1 (ascii "k") (.error 7)
    (List.mem_of_getElem? hspawn) hret₁
  refine ⟨c, tr, hrun, ⟨call, u, hexecuted⟩, ?_, ?_⟩
  · exact hfresh _ _ 1 (.error 7) 0 2 (ascii "k") htr
      ⟨_, _, _, List.mem_of_getElem? hjoined, rfl⟩ (List.mem_of_getElem? hlater)
  · apply hempty
    intro t ht
    have hmem : t ∈ tr.filterMap spawned? :=
      List.mem_filterMap.2 ⟨_, ht, rfl⟩
    rw [hspawns] at hmem
    simp only [List.mem_cons, List.not_mem_nil, or_false] at hmem
    rcases hmem with rfl | rfl | rfl
    · exact ⟨_, List.mem_of_getElem? hret₂⟩
    · exact ⟨_, hret₁⟩
    · exact ⟨_, List.mem_of_getElem? hret₀⟩

end Locache.Singleflight
