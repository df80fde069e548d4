import Mathlib.Data.List.Sort

/-!
# Sorting and searching as the standard library does

`sort.Slice` sorts by a comparison function. When the function is a strict total order
(`Comparison`), the result is the one sorted arrangement of the elements, whatever algorithm found
it (`slice_eq_of_perm`). `sort.Search` is binary search.
-/

namespace Sorting

variable {α β : Type}

/-- A comparison function that is a strict total order. -/
structure Comparison (less : α → α → Bool) : Prop where
  irrefl : ∀ a, less a a = false
  trans : ∀ {a b c}, less a b = true → less b c = true → less a c = true
  connected : ∀ {a b}, less a b = false → less b a = false → a = b

/-- Compare the first components, and the second ones when these are equal. -/
def lex [DecidableEq α] (less₁ : α → α → Bool) (less₂ : β → β → Bool) (x y : α × β) : Bool :=
  if x.1 ≠ y.1 then less₁ x.1 y.1 else less₂ x.2 y.2

theorem lex_of_eq [DecidableEq α] {less₁ : α → α → Bool} {less₂ : β → β → Bool} {x y : α × β}
    (h : x.1 = y.1) : lex less₁ less₂ x y = less₂ x.2 y.2 := by
  simp [lex, h]

theorem lex_of_ne [DecidableEq α] {less₁ : α → α → Bool} {less₂ : β → β → Bool} {x y : α × β}
    (h : x.1 ≠ y.1) : lex less₁ less₂ x y = less₁ x.1 y.1 := by
  simp [lex, h]

namespace Comparison

theorem asymm {less : α → α → Bool} (h : Comparison less) {a b : α} (hab : less a b = true) :
    less b a = false := by
  cases hba : less b a with
  | false => rfl
  | true =>
    have haa := h.trans hab hba
    rw [h.irrefl] at haa
    cases haa

theorem lex [DecidableEq α] {less₁ : α → α → Bool} {less₂ : β → β → Bool} (h₁ : Comparison less₁)
    (h₂ : Comparison less₂) : Comparison (Sorting.lex less₁ less₂) := by
  refine ⟨?_, ?_, ?_⟩
  · intro x
    rw [lex_of_eq rfl]
    exact h₂.irrefl x.2
  · intro x y z hxy hyz
    by_cases hxy' : x.1 = y.1
    · rw [lex_of_eq hxy'] at hxy
      by_cases hyz' : y.1 = z.1
      · rw [lex_of_eq hyz'] at hyz
        rw [lex_of_eq (hxy'.trans hyz')]
        exact h₂.trans hxy hyz
      · rw [lex_of_ne hyz', ← hxy'] at hyz
        rw [← hxy'] at hyz'
        rw [lex_of_ne hyz']
        exact hyz
    · rw [lex_of_ne hxy'] at hxy
      by_cases hyz' : y.1 = z.1
      · rw [hyz'] at hxy hxy'
        rw [lex_of_ne hxy']
        exact hxy
      · rw [lex_of_ne hyz'] at hyz
        have hxz := h₁.trans hxy hyz
        have hne : x.1 ≠ z.1 := by
          intro heq
          rw [heq, h₁.irrefl] at hxz
          cases hxz
        rw [lex_of_ne hne]
        exact hxz
  · intro x y hxy hyx
    by_cases heq : x.1 = y.1
    · rw [lex_of_eq heq] at hxy
      rw [lex_of_eq heq.symm] at hyx
      exact Prod.ext heq (h₂.connected hxy hyx)
    · rw [lex_of_ne heq] at hxy
      rw [lex_of_ne (Ne.symm heq)] at hyx
      exact absurd (h₁.connected hxy hyx) heq

/-- Compare by an injective key. -/
theorem on {less : β → β → Bool} (h : Comparison less) {f : α → β} (hf : Function.Injective f) :
    Comparison fun a b => less (f a) (f b) :=
  ⟨fun a => h.irrefl (f a), h.trans, fun hab hba => hf (h.connected hab hba)⟩

end Comparison

/-! ## `sort.Slice` -/

/-- `a` may stand before `b`. -/
def Before (less : α → α → Bool) (a b : α) : Prop := less b a = false

instance (less : α → α → Bool) : DecidableRel (Before less) := fun a b =>
  inferInstanceAs (Decidable (less b a = false))

def slice (less : α → α → Bool) (l : List α) : List α := l.insertionSort (Before less)

theorem slice_perm (less : α → α → Bool) (l : List α) : (slice less l).Perm l :=
  List.perm_insertionSort _ l

section Sorted

variable {less : α → α → Bool} (h : Comparison less)

include h

theorem before_total : Std.Total (Before less) := by
  refine ⟨fun a b => ?_⟩
  unfold Before
  cases hba : less b a with
  | false => exact Or.inl rfl
  | true => exact Or.inr (h.asymm hba)

theorem before_trans : IsTrans α (Before less) := by
  refine ⟨fun a b c hab hbc => ?_⟩
  unfold Before at *
  cases hca : less c a with
  | false => rfl
  | true =>
    -- `c` is before `a`, which is not after `b`
    cases hab' : less a b with
    | true =>
      rw [h.trans hca hab'] at hbc
      cases hbc
    | false =>
      rw [h.connected hab' hab, hbc] at hca
      cases hca

theorem slice_sorted (l : List α) : (slice less l).Pairwise (Before less) :=
  haveI := before_total h
  haveI := before_trans h
  List.pairwise_insertionSort _ l

/-- A sorted arrangement is unique. -/
theorem eq_of_sorted {l l' : List α} (hl : l.Pairwise (Before less))
    (hl' : l'.Pairwise (Before less)) (hp : l.Perm l') : l = l' :=
  List.Perm.eq_of_pairwise (fun _ _ _ _ hab hba => h.connected hba hab) hl hl' hp

end Sorted

/-! ## `sort.Search` -/

/-- The loop of `sort.Search`, between `i` and `j`. -/
def searchLoop (f : Nat → Bool) (i j : Nat) : Nat :=
  if i < j then
    if f ((i + j) / 2) then searchLoop f i ((i + j) / 2) else searchLoop f ((i + j) / 2 + 1) j
  else i
termination_by j - i

def search (n : Nat) (f : Nat → Bool) : Nat := searchLoop f 0 n

theorem searchLoop_le (f : Nat → Bool) (i j : Nat) (h : i ≤ j) : searchLoop f i j ≤ j := by
  fun_induction searchLoop f i j with
  | case1 i j hlt hf ih =>
    have hle := ih (by omega)
    omega
  | case2 i j hlt hf ih =>
    apply ih
    omega
  | case3 i j hlt => exact h

theorem search_le (n : Nat) (f : Nat → Bool) : search n f ≤ n := searchLoop_le f 0 n (Nat.zero_le n)

section Search

variable {f : Nat → Bool} {n : Nat} (hf : ∀ a b, a ≤ b → b < n → f a = true → f b = true)

include hf

/-- The loop keeps that the test fails before `i` and holds from `j` on. -/
theorem searchLoop_spec (i j : Nat) (hij : i ≤ j) (hjn : j ≤ n) (hlow : ∀ a < i, f a = false)
    (hhigh : ∀ a, j ≤ a → a < n → f a = true) : (∀ a < searchLoop f i j, f a = false) ∧
      ∀ a, searchLoop f i j ≤ a → a < n → f a = true := by
  fun_induction searchLoop f i j with
  | case1 i j hlt hmid ih =>
    apply ih (by omega) (by omega) hlow
    intro a ha han
    exact hf _ a ha han hmid
  | case2 i j hlt hmid ih =>
    apply ih (by omega) hjn _ hhigh
    intro a ha
    cases hfa : f a with
    | false => rfl
    | true => exact absurd (hf a _ (by omega) (by omega) hfa) hmid
  | case3 i j hlt =>
    obtain rfl : i = j := by omega
    exact ⟨hlow, hhigh⟩

/-- Binary search finds the first index at which the test holds. -/
theorem search_spec : (∀ a < search n f, f a = false) ∧
    ∀ a, search n f ≤ a → a < n → f a = true := by
  apply searchLoop_spec hf 0 n (Nat.zero_le n) (Nat.le_refl n)
  · intro a ha
    exact absurd ha (Nat.not_lt_zero a)
  · intro a ha han
    exact absurd han (Nat.not_lt.2 ha)

end Search

/-- In a list whose elements fail a test first and pass it from some place on, binary search finds
that place. -/
theorem search_eq_findIdx {l : List α} {p : α → Bool}
    (hl : l.Pairwise fun a b => p a = true → p b = true) :
    search l.length (fun i => (l[i]?).any p) = l.findIdx p := by
  have hany : ∀ i (hi : i < l.length), (l[i]?).any p = p l[i] := by
    intro i hi
    rw [List.getElem?_eq_getElem hi, Option.any_some]
  have hmono : ∀ a b, a ≤ b → b < l.length → (l[a]?).any p = true → (l[b]?).any p = true := by
    intro a b hab hb ha
    rw [hany a (by omega)] at ha
    rw [hany b hb]
    rcases Nat.lt_or_eq_of_le hab with hlt | rfl
    · exact List.pairwise_iff_getElem.1 hl a b (by omega) hb hlt ha
    · exact ha
  obtain ⟨hlow, hhigh⟩ := search_spec hmono
  have hle := search_le l.length fun i => (l[i]?).any p
  generalize search l.length (fun i => (l[i]?).any p) = k at *
  rcases Nat.lt_or_eq_of_le hle with hk | rfl
  · symm
    rw [List.findIdx_eq hk]
    refine ⟨?_, ?_⟩
    · rw [← hany k hk]
      exact hhigh k (Nat.le_refl k) hk
    · intro j hj
      rw [← hany j (by omega)]
      exact hlow j hj
  · symm
    rw [List.findIdx_eq_length]
    intro x hx
    obtain ⟨i, hi, rfl⟩ := List.getElem_of_mem hx
    rw [← hany i hi]
    exact hlow i hi

/-! ## Least elements -/

/-- `a` has the property `P`, and everything else that has it comes after `a`. -/
structure Least (lt : α → α → Prop) (P : α → Prop) (a : α) : Prop where
  holds : P a
  least : ∀ b, P b → b = a ∨ lt a b

/-- The first element of a sorted list that passes a test is the least one that does. -/
theorem find?_least {lt : α → α → Prop} {l : List α} {p : α → Bool} {a : α} (hl : l.Pairwise lt)
    (h : l.find? p = some a) : Least lt (fun b => b ∈ l ∧ p b = true) a := by
  refine ⟨⟨List.mem_of_find?_eq_some h, List.find?_some h⟩, ?_⟩
  intro b ⟨hb, hpb⟩
  obtain ⟨-, front, back, rfl, hfront⟩ := List.find?_eq_some_iff_append.1 h
  rcases List.mem_append.1 hb with hb | hb
  · have hfail := hfront b hb
    rw [hpb] at hfail
    cases hfail
  · rcases List.mem_cons.1 hb with rfl | hb
    · exact Or.inl rfl
    · exact Or.inr ((List.pairwise_cons.1 (List.pairwise_append.1 hl).2.1).1 b hb)

theorem head?_least {lt : α → α → Prop} {l : List α} {a : α} (hl : l.Pairwise lt)
    (h : l.head? = some a) : Least lt (fun b => b ∈ l) a := by
  obtain ⟨rest, rfl⟩ := List.head?_eq_some_iff.1 h
  refine ⟨List.mem_cons_self .., ?_⟩
  intro b hb
  rcases List.mem_cons.1 hb with rfl | hb
  · exact Or.inl rfl
  · exact Or.inr ((List.pairwise_cons.1 hl).1 b hb)

end Sorting
