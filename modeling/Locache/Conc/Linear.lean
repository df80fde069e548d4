import Mathlib.Data.List.Basic

/-!
# Linearizability

A history tells, newest first, which calls have begun and which have returned. It is linearizable
for an object when the calls can be put into one sequence in which every call gets an answer that
the object allows, a call that has returned has the answer it returned, and a call that returned
before another one began comes before that one (`Linearization`). A call that has not returned may
be in the sequence, with any answer, or not.

The sequence grows along a run: a call is put in front of it at the one moment at which it takes
effect. What has to be shown is then about single moments (`Linearization.begin`,
`Linearization.effect`, `Linearization.finish`).
-/

namespace Conc

variable {I C R A : Type}

/-- What a caller sees: the call `id` begins, or it returns. -/
inductive Seen (I C R : Type) where
  | inv (id : I) (call : C)
  | res (id : I) (res : R)

/-- A call with its answer. -/
structure Answered (I C R : Type) where
  id : I
  call : C
  res : R

/-- The calls `L`, newest first, take the object from `s₀` to the state in the last place. -/
inductive Legal (step : A → C → R → A → Prop) (s₀ : A) : List (Answered I C R) → A → Prop where
  | nil : Legal step s₀ [] s₀
  | cons {L : List (Answered I C R)} {s s' : A} (x : Answered I C R) (prior : Legal step s₀ L s)
      (hstep : step s x.call x.res s') : Legal step s₀ (x :: L) s'

/-- The sequence `L` explains the history `H` and takes the object from `s₀` to `s`. -/
structure Linearization (step : A → C → R → A → Prop) (s₀ : A) (H : List (Seen I C R))
    (L : List (Answered I C R)) (s : A) : Prop where
  legal : Legal step s₀ L s
  once : (L.map Answered.id).Nodup
  begun : ∀ x ∈ L, .inv x.id x.call ∈ H
  returned : ∀ id r, .res id r ∈ H → ∃ call, ⟨id, call, r⟩ ∈ L
  /-- A call that returned before another one began comes before it. -/
  order : ∀ B id call id' r, .inv id call :: B <:+ H → .res id' r ∈ B → ∀ x ∈ L, x.id = id →
    ∃ y, y.id = id' ∧ [x, y].Sublist L

/-- Some sequence explains the history. -/
def Linearizable (step : A → C → R → A → Prop) (s₀ : A) (H : List (Seen I C R)) : Prop :=
  ∃ L s, Linearization step s₀ H L s

namespace Linearization

variable {step : A → C → R → A → Prop} {s₀ s s' : A} {H : List (Seen I C R)}
  {L : List (Answered I C R)} {id : I} {call : C} {r : R}

theorem start : Linearization step s₀ ([] : List (Seen I C R)) [] s₀ where
  legal := .nil
  once := .nil
  begun := fun _ hx => by cases hx
  returned := fun _ _ hr => by cases hr
  order := fun _ _ _ _ _ _ _ _ hx => by cases hx

/-- A call begins. -/
theorem begin (h : Linearization step s₀ H L s) (id : I) (hnew : ∀ c, .inv id c ∉ H) (call : C) :
    Linearization step s₀ (.inv id call :: H) L s where
  legal := h.legal
  once := h.once
  begun := fun x hx => List.mem_cons_of_mem _ (h.begun x hx)
  returned := fun id' r hr =>
    h.returned id' r ((List.mem_cons.1 hr).resolve_left fun heq => by cases heq)
  order := by
    intro B id' c id'' r hB hr x hx hid
    rcases List.suffix_cons_iff.1 hB with heq | hB
    · cases heq
      exact absurd (h.begun x hx) (hid ▸ hnew x.call)
    · exact h.order B id' c id'' r hB hr x hx hid

/-- A call that is under way takes effect. -/
theorem effect (h : Linearization step s₀ H L s) (hbegun : .inv id call ∈ H)
    (hnew : ∀ x ∈ L, x.id ≠ id) (hstep : step s call r s') :
    Linearization step s₀ H (⟨id, call, r⟩ :: L) s' where
  legal := .cons ⟨id, call, r⟩ h.legal hstep
  once := by
    refine List.nodup_cons.2 ⟨fun hm => ?_, h.once⟩
    obtain ⟨x, hx, hid⟩ := List.mem_map.1 hm
    exact hnew x hx hid
  begun := List.forall_mem_cons.2 ⟨hbegun, h.begun⟩
  returned := by
    intro id' r' hr
    obtain ⟨c, hc⟩ := h.returned id' r' hr
    exact ⟨c, List.mem_cons_of_mem _ hc⟩
  order := by
    intro B id' c id'' r' hB hr x hx hid
    rcases List.mem_cons.1 hx with rfl | hx
    · -- the new call is the last one, and what has returned is in the sequence
      obtain ⟨c', hy⟩ := h.returned id'' r' (hB.subset (List.mem_cons_of_mem _ hr))
      exact ⟨_, rfl, (List.singleton_sublist.2 hy).cons_cons _⟩
    · obtain ⟨y, hy, hsub⟩ := h.order B id' c id'' r' hB hr x hx hid
      exact ⟨y, hy, hsub.cons _⟩

/-- A call that has taken effect returns its answer. -/
theorem finish (h : Linearization step s₀ H L s) (hx : ⟨id, call, r⟩ ∈ L) :
    Linearization step s₀ (.res id r :: H) L s where
  legal := h.legal
  once := h.once
  begun := fun x hx => List.mem_cons_of_mem _ (h.begun x hx)
  returned := by
    intro id' r' hr
    rcases List.mem_cons.1 hr with heq | hr
    · cases heq
      exact ⟨call, hx⟩
    · exact h.returned id' r' hr
  order := by
    intro B id' c id'' r' hB hr x hx hid
    rcases List.suffix_cons_iff.1 hB with heq | hB
    · cases heq
    · exact h.order B id' c id'' r' hB hr x hx hid

end Linearization

end Conc
