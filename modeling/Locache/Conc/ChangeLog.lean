import Mathlib.Data.List.Basic
import Mathlib.Logic.Function.Basic

/-!
# Stores with revisions

A store of keys and values whose every change has a revision. What is live at a revision
(`ChangeLog.live`) is what the changes up to it leave; so whoever knows what is live at one revision
and applies the changes since then knows what is live at a later one (`ChangeLog.live_since`).
Whoever is told the changes of some keys only knows what is live under those keys
(`ChangeLog.live_restrict`).
-/

namespace Conc

/-- A change of a key. A deletion may tell the value there was. -/
inductive Change (K V : Type) where
  | put (key : K) (value : V)
  | delete (key : K) (prev : Option V)

def Change.key {K V : Type} : Change K V → K
  | .put key _ => key
  | .delete key _ => key

/-- The value that the change leaves. -/
def Change.value {K V : Type} : Change K V → Option V
  | .put _ value => some value
  | .delete _ _ => none

/-- The changes of each revision. -/
abbrev ChangeLog (K V : Type) := Nat → List (Change K V)

variable {K V : Type} [DecidableEq K]

def Change.apply (live : K → Option V) : Change K V → K → Option V
  | .put key value => Function.update live key (some value)
  | .delete key _ => Function.update live key none

theorem Change.apply_eq (e : Change K V) (live : K → Option V) :
    e.apply live = Function.update live e.key e.value := by
  cases e <;> rfl

namespace ChangeLog

/-- The values of the keys at a revision. -/
def live (log : ChangeLog K V) : Nat → K → Option V
  | 0 => fun _ => none
  | rev + 1 => (log (rev + 1)).foldl Change.apply (live log rev)

/-- The changes from revision `rev` up to revision `header`. -/
def since (log : ChangeLog K V) (rev header : Nat) : List (Change K V) :=
  (List.range' rev (header + 1 - rev)).flatMap log

/-- The changes of the keys with `P`. -/
def restrict (P : K → Prop) [DecidablePred P] (log : ChangeLog K V) : ChangeLog K V :=
  fun rev => (log rev).filter fun e => P e.key

variable {log : ChangeLog K V} {key : K} {value : V} {rev header : Nat}

omit [DecidableEq K] in
theorem mem_since {e : Change K V} (h : e ∈ log.since rev header) : ∃ r, e ∈ log r := by
  obtain ⟨r, -, he⟩ := List.mem_flatMap.1 h
  exact ⟨r, he⟩

theorem live_add (n : Nat) :
    ((List.range' (rev + 1) n).flatMap log).foldl Change.apply (log.live rev) =
      log.live (rev + n) := by
  induction n with
  | zero => rfl
  | succ n ih =>
    rw [List.range'_concat, List.flatMap_append, List.foldl_append, ih, List.flatMap_singleton,
      Nat.one_mul]
    have hrev : rev + 1 + n = rev + n + 1 := by omega
    rw [hrev]
    rfl

/-- **Catching up**: the changes since a revision lead to what is live at a later one. -/
theorem live_since (hrev : 0 < rev) :
    (log.since rev header).foldl Change.apply (log.live (rev - 1)) =
      log.live ((if rev ≤ header then header + 1 else rev) - 1) := by
  obtain ⟨rev, rfl⟩ := Nat.exists_eq_add_of_lt hrev
  unfold since
  rw [Nat.zero_add, Nat.add_sub_cancel, live_add]
  congr 1
  split <;> omega

theorem foldl_apply_of_put {changes : List (Change K V)} {live : K → Option V}
    (h : changes.foldl Change.apply live key = some value) :
    live key = some value ∨ .put key value ∈ changes := by
  induction changes generalizing live with
  | nil => exact Or.inl h
  | cons e changes ih =>
    rcases ih h with he | hmem
    · cases e with
      | put k v =>
        by_cases hk : key = k
        · subst hk
          rw [Change.apply, Function.update_self, Option.some_inj] at he
          subst he
          exact Or.inr List.mem_cons_self
        · rw [Change.apply, Function.update_of_ne hk] at he
          exact Or.inl he
      | delete k prev =>
        by_cases hk : key = k
        · subst hk
          rw [Change.apply, Function.update_self] at he
          cases he
        · rw [Change.apply, Function.update_of_ne hk] at he
          exact Or.inl he
    · exact Or.inr (List.mem_cons_of_mem _ hmem)

/-- A value that is live was put. -/
theorem put_of_live (h : log.live rev key = some value) : ∃ r, .put key value ∈ log r := by
  induction rev with
  | zero => cases h
  | succ rev ih =>
    rcases foldl_apply_of_put h with h | h
    · exact ih h
    · exact ⟨rev + 1, h⟩

section Restrict

variable {P : K → Prop} [DecidablePred P]

/-- A change that is not told is one that does not matter. -/
theorem foldl_apply_filter {changes : List (Change K V)} {live live' : K → Option V}
    (h : ∀ key, live' key = if P key then live key else none) (key : K) :
    (changes.filter fun e => P e.key).foldl Change.apply live' key =
      if P key then changes.foldl Change.apply live key else none := by
  induction changes generalizing live live' with
  | nil => exact h key
  | cons e changes ih =>
    by_cases he : P e.key
    · rw [List.filter_cons_of_pos (by simpa using he)]
      refine ih fun k => ?_
      rw [e.apply_eq, e.apply_eq]
      by_cases hk : k = e.key
      · subst hk
        rw [Function.update_self, Function.update_self, if_pos he]
      · rw [Function.update_of_ne hk, Function.update_of_ne hk]
        exact h k
    · rw [List.filter_cons_of_neg (by simpa using he)]
      refine ih fun k => ?_
      rw [e.apply_eq, h k]
      by_cases hk : k = e.key
      · subst hk
        rw [if_neg he, if_neg he]
      · rw [Function.update_of_ne hk]

/-- **Some of the keys**: what is live among them is what their changes leave. -/
theorem live_restrict (key : K) :
    (log.restrict P).live rev key = if P key then log.live rev key else none := by
  induction rev generalizing key with
  | zero => exact (ite_self _).symm
  | succ rev ih => exact foldl_apply_filter ih key

end Restrict

end ChangeLog

end Conc
