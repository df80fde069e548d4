import Mathlib.Algebra.BigOperators.Group.Finset.Basic
import Mathlib.Algebra.Order.BigOperators.Group.Finset
import Locache.Conc.Machine

/-!
# Counting actions

How often something was done in a run is the sum of how often each thread did it (`Run.tally_eq`),
so a bound that every thread keeps on its own holds of the whole run (`Run.tally_le`).
-/

namespace Conc

variable {S : Sig} {M : Machine S}

/-- How many actions have `P`, which may look at the call they belong to. -/
def tally (P : M.Call → Ev S M.Inp → Bool) : List (Label M) → Nat
  | [] => 0
  | .act t e :: tr => tally P tr + if (callOf tr t).any fun call => P call e then 1 else 0
  | _ :: tr => tally P tr

/-- How many of them are thread `t`'s. -/
def share (P : M.Call → Ev S M.Inp → Bool) (tr : List (Label M)) (t : Nat) : Nat :=
  (hist tr t).countP fun e => (callOf tr t).any fun call => P call e

section

variable {P Q : M.Call → Ev S M.Inp → Bool} {tr : List (Label M)} {t u : Nat} {e : Ev S M.Inp}
  {call : M.Call}

theorem share_of_callOf (h : callOf tr t = some call) :
    share P tr t = (hist tr t).countP (P call) := by
  simp [share, h]

theorem share_act_self : share P (.act t e :: tr) t =
    share P tr t + if (callOf tr t).any fun call => P call e then 1 else 0 := by
  simp [share, List.countP_cons]

theorem share_act_ne (h : u ≠ t) : share P (.act u e :: tr) t = share P tr t := by
  simp [share, hist_act_ne h]

theorem share_spawn_ne (h : u ≠ t) : share P (.spawn u call :: tr) t = share P tr t := by
  simp [share, callOf_spawn_ne h]

theorem share_of_hist_nil (h : hist tr t = []) : share P tr t = 0 := by
  simp [share, h]

end

/-- A sum of which one term grows. -/
theorem sum_range_of_grown (f f' : Nat → Nat) {n u d : Nat} (hu : u < n) (hgrown : f' u = f u + d)
    (hsame : ∀ t, t ≠ u → f' t = f t) :
    ∑ t ∈ Finset.range n, f' t = ∑ t ∈ Finset.range n, f t + d := by
  have hmem : u ∈ Finset.range n := Finset.mem_range.2 hu
  rw [← Finset.add_sum_erase _ f' hmem, ← Finset.add_sum_erase _ f hmem, hgrown]
  have hrest : ∑ t ∈ (Finset.range n).erase u, f' t = ∑ t ∈ (Finset.range n).erase u, f t := by
    apply Finset.sum_congr rfl
    intro t ht
    exact hsame t (Finset.ne_of_mem_erase ht)
  omega

variable {G : Guard M} {σ : M.State} {c : Config M} {tr : List (Label M)}

/-- A running thread has an id that was used. -/
theorem Run.lt_next (h : Run G σ c tr) {t : Nat} {p : Prog S M.Res} (ht : c.threads t = some p) :
    t < c.next := by
  by_contra hle
  rw [(h.unused t (Nat.not_lt.1 hle)).1] at ht
  cases ht

/-- **The whole is the sum of the parts.** -/
theorem Run.tally_eq (P : M.Call → Ev S M.Inp → Bool) (h : Run G σ c tr) :
    tally P tr = ∑ t ∈ Finset.range c.next, share P tr t := by
  induction h with
  | start => rfl
  | @step c c' tr ℓ cmd prior hstep _ ih =>
    cases Config.steps_of_step hstep with
    | spawn call =>
      have hnew : share P (.spawn c.next call :: tr) c.next = 0 :=
        share_of_hist_nil (prior.unused _ (Nat.le_refl _)).2.2
      have hold : ∑ t ∈ Finset.range c.next, share P (.spawn c.next call :: tr) t =
          ∑ t ∈ Finset.range c.next, share P tr t := by
        apply Finset.sum_congr rfl
        intro t ht
        exact share_spawn_ne (Nat.ne_of_gt (Finset.mem_range.1 ht))
      rw [Finset.sum_range_succ, hnew, hold, Nat.add_zero]
      exact ih
    | @act u o k i a σ hu hx =>
      have hsum := sum_range_of_grown (share P tr) (share P (.act u ⟨o, i, a⟩ :: tr))
        (prior.lt_next hu) share_act_self fun t ht => share_act_ne (Ne.symm ht)
      rw [hsum, ← ih]
      rfl
    | ret hu => exact ih
    | raise hu => exact ih
    | env hx => exact ih

/-- A bound that every thread keeps. -/
theorem Run.tally_le {P Q : M.Call → Ev S M.Inp → Bool} (h : Run G σ c tr)
    (hle : ∀ t call, callOf tr t = some call →
      (hist tr t).countP (P call) ≤ (hist tr t).countP (Q call)) : tally P tr ≤ tally Q tr := by
  rw [h.tally_eq P, h.tally_eq Q]
  apply Finset.sum_le_sum
  intro t _
  cases hc : callOf tr t with
  | none => simp [share, hc]
  | some call =>
    rw [share_of_callOf hc, share_of_callOf hc]
    exact hle t call hc

/-- What was never done counts for nothing. -/
theorem tally_eq_zero {P : M.Call → Ev S M.Inp → Bool} {tr : List (Label M)}
    (h : ∀ t e, .act t e ∈ tr → ∀ call, P call e = false) : tally P tr = 0 := by
  induction tr with
  | nil => rfl
  | cons ℓ tr ih =>
    have hrest := ih fun t e he => h t e (List.mem_cons_of_mem _ he)
    cases ℓ with
    | act t e =>
      have hnew := h t e List.mem_cons_self
      simp [tally, hrest, hnew]
    | _ => exact hrest

end Conc
