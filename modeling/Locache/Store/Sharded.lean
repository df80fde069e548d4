import Locache.Store.Recency
import Locache.Store.StoreRuns
import Mathlib.Algebra.Order.BigOperators.Group.List
import Mathlib.Tactic.Linarith
import Mathlib.Tactic.Positivity
import Mathlib.Tactic.Ring

/-!
# The construction of the sharded store

`newShardedLRU` rounds the number of shards up to a power of two, halves it until every shard has at
least 1 KiB of the budget, and divides the budget among the shards. The loops of the source may run
for any number of rounds, so the functions here take the rounds they may use and return nothing when
these are not enough. With at most `2 ^ 62` shards 64 rounds are enough, the budgets of the shards
are positive and add up to the budget of the store, and every run of the store stays within it
(`sharded_budgets`). With more shards the power of two overflows and no number of rounds is enough
(`loops_end_iff`).
-/

namespace Locache.Store

structure Options where
  maxBytes : Int
  shardCount : Int
  onEvicted : Bool

/-- What an `int` holds after an operation with the exact result `x`. -/
def wrapInt (x : Int) : Int := x.bmod (2 ^ 64)

/-- The loop of `nextPowerOfTwo`, from `p` on. -/
def nextPowerOfTwoFrom (n : Int) : Nat → Int → Option Int
  | 0, _ => none
  | fuel + 1, p => if p < n then nextPowerOfTwoFrom n fuel (wrapInt (p <<< (1 : Nat))) else some p

def nextPowerOfTwo (fuel : Nat) (n : Int) : Option Int :=
  if n ≤ 1 then some 1 else nextPowerOfTwoFrom n fuel 1

/-- The loop that halves the number of shards while they have less than 1 KiB each. -/
def shrink (maxBytes : Int) : Nat → Int → Option Int
  | 0, _ => none
  | fuel + 1, count =>
    if 1 < count ∧ maxBytes.tdiv count < 1024 then shrink maxBytes fuel (count >>> (1 : Nat))
    else some count

/-- The part of the budget the shard with index `i` gets. -/
def budget (maxBytes count : Int) (i : Nat) : Int :=
  if 0 < maxBytes then
    if (i : Int) < maxBytes.tmod count then maxBytes.tdiv count + 1 else maxBytes.tdiv count
  else maxBytes

variable {V : Type}

def newShardedLRU (fuel : Nat) (opts : Options) : Option (ShardedLRU V) := do
  let count := if opts.shardCount ≤ 0 then 16 else opts.shardCount
  let count ← nextPowerOfTwo fuel count
  let count ← if 0 < opts.maxBytes then shrink opts.maxBytes fuel count else some count
  return ⟨(List.range count.toNat).map fun i =>
    .empty (budget opts.maxBytes count i) opts.onEvicted, fnv32a⟩

/-! ## The loops -/

theorem toNat_two_pow (k : Nat) : ((2 : Int) ^ k).toNat = 2 ^ k := by
  rw [← Int.toNat_natCast (2 ^ k)]
  push_cast
  rfl

theorem wrapInt_double {k : Nat} (hk : k < 62) :
    wrapInt ((2 ^ k : Int) <<< (1 : Nat)) = 2 ^ (k + 1) := by
  have hle : (2 : Int) ^ (k + 1) ≤ 2 ^ 62 := pow_le_pow_right₀ (by decide) hk
  have hpos : (0 : Int) < 2 ^ (k + 1) := by positivity
  rw [wrapInt, Int.shiftLeft_eq, pow_one, ← pow_succ]
  exact Int.bmod_eq_of_le (by omega) (by omega)

/-- Up to `2 ^ 62` the doubling stops at the first power of two that is large enough. -/
theorem nextPowerOfTwoFrom_spec {n : Int} (hn : n ≤ 2 ^ 62) (fuel k : Nat) (hk : k ≤ 62)
    (hfuel : 62 < k + fuel) (hlow : ∀ i < k, (2 : Int) ^ i < n) :
    ∃ j ≤ 62, nextPowerOfTwoFrom n fuel (2 ^ k) = some (2 ^ j) ∧ n ≤ 2 ^ j ∧
      ∀ i < j, (2 : Int) ^ i < n := by
  induction fuel generalizing k with
  | zero => omega
  | succ fuel ih =>
    rw [nextPowerOfTwoFrom]
    split
    · next hlt =>
      have hk' : k < 62 := by
        by_contra hge
        obtain rfl : k = 62 := by omega
        omega
      rw [wrapInt_double hk']
      refine ih (k + 1) hk' (by omega) ?_
      intro i hi
      rcases Nat.lt_succ_iff_lt_or_eq.1 hi with hi | rfl
      · exact hlow i hi
      · exact hlt
    · next hge => exact ⟨k, hk, rfl, Int.not_lt.1 hge, hlow⟩

/-- Up to `2 ^ 62` the number of shards is rounded up to the next power of two. -/
theorem nextPowerOfTwo_spec {n : Int} (hn : n ≤ 2 ^ 62) (fuel : Nat) (hfuel : 63 ≤ fuel) :
    ∃ j ≤ 62, nextPowerOfTwo fuel n = some (2 ^ j) ∧ n ≤ 2 ^ j ∧ ∀ i < j, (2 : Int) ^ i < n := by
  unfold nextPowerOfTwo
  split
  · next hle => exact ⟨0, by decide, rfl, hle, by simp⟩
  · exact nextPowerOfTwoFrom_spec hn fuel 0 (by decide) (by omega) (by simp)

/-- The halving ends with one shard, or with 1 KiB for each. -/
theorem shrink_spec (maxBytes : Int) (fuel j : Nat) (hfuel : j < fuel) :
    ∃ i ≤ j, shrink maxBytes fuel (2 ^ j) = some (2 ^ i) ∧
      (i = 0 ∨ 1024 ≤ maxBytes.tdiv (2 ^ i)) := by
  induction fuel generalizing j with
  | zero => omega
  | succ fuel ih =>
    rw [shrink]
    cases j with
    | zero => exact ⟨0, Nat.le_refl 0, by simp, Or.inl rfl⟩
    | succ j =>
      have hhalf : (2 ^ (j + 1) : Int) >>> (1 : Nat) = 2 ^ j := by
        rw [Int.shiftRight_eq_div_pow, pow_succ]
        norm_num
      have hgt : (1 : Int) < 2 ^ (j + 1) := one_lt_pow₀ (by decide) (by omega)
      by_cases hsmall : maxBytes.tdiv (2 ^ (j + 1)) < 1024
      · rw [if_pos ⟨hgt, hsmall⟩, hhalf]
        obtain ⟨i, hi, hrest⟩ := ih j (by omega)
        exact ⟨i, by omega, hrest⟩
      · rw [if_neg fun h => hsmall h.2]
        exact ⟨j + 1, Nat.le_refl _, rfl, Or.inr (Int.not_lt.1 hsmall)⟩

/-! ## The budgets -/

section Budget

variable {maxBytes count : Int} (hmax : 0 < maxBytes) (hcount : 0 < count)

include hmax

theorem budget_cases (count : Int) (i : Nat) : budget maxBytes count i = maxBytes / count ∨
    budget maxBytes count i = maxBytes / count + 1 := by
  unfold budget
  rw [if_pos hmax, Int.tdiv_eq_ediv_of_nonneg (Int.le_of_lt hmax)]
  split
  · exact Or.inr rfl
  · exact Or.inl rfl

/-- Two budgets differ by at most one byte. -/
theorem budget_le_succ (count : Int) (i j : Nat) :
    budget maxBytes count i ≤ budget maxBytes count j + 1 := by
  rcases budget_cases hmax count i with hi | hi <;>
    rcases budget_cases hmax count j with hj | hj <;> rw [hi, hj] <;> omega

/-- A budget is at least one byte, and at least 1 KiB if there are several. -/
theorem budget_ge (hbase : count = 1 ∨ 1024 ≤ maxBytes / count) (i : Nat) :
    1 ≤ budget maxBytes count i ∧ (count = 1 ∨ 1024 ≤ budget maxBytes count i) := by
  rcases hbase with rfl | hbase
  · refine ⟨?_, Or.inl rfl⟩
    rcases budget_cases hmax 1 i with h | h <;> rw [h, Int.ediv_one]
    · omega
    · omega
  · rcases budget_cases hmax count i with h | h <;> rw [h]
    · exact ⟨by omega, Or.inr hbase⟩
    · exact ⟨by omega, Or.inr (by omega)⟩

include hcount

/-- The first `n` budgets: a base each, and one more byte for the first ones. -/
theorem sum_budget (n : Nat) (hn : (n : Int) ≤ count) :
    ((List.range n).map (budget maxBytes count)).sum =
      n * (maxBytes / count) + min (n : Int) (maxBytes % count) := by
  induction n with
  | zero =>
    have hmod := Int.emod_nonneg maxBytes (Int.ne_of_gt hcount)
    simpa using hmod
  | succ n ih =>
    rw [List.range_succ, List.map_append, List.sum_append, ih (by push_cast at hn; omega)]
    simp only [List.map_cons, List.map_nil, List.sum_cons, List.sum_nil, budget, hmax, ↓reduceIte,
      Int.tdiv_eq_ediv_of_nonneg (Int.le_of_lt hmax),
      Int.tmod_eq_emod_of_nonneg (Int.le_of_lt hmax)]
    push_cast
    split
    · next hlt =>
      rw [min_eq_left (by omega), min_eq_left (by omega)]
      ring
    · next hge =>
      rw [min_eq_right (by omega), min_eq_right (by omega)]
      ring

theorem sum_budget_eq : ((List.range count.toNat).map (budget maxBytes count)).sum = maxBytes := by
  have hn : (count.toNat : Int) = count := Int.toNat_of_nonneg (Int.le_of_lt hcount)
  have hmod := Int.emod_lt_of_pos maxBytes hcount
  rw [sum_budget hmax hcount count.toNat (Int.le_of_eq hn), hn, min_eq_right (Int.le_of_lt hmod)]
  exact Int.mul_ediv_add_emod maxBytes count

end Budget

/-- What the construction leads to. -/
theorem newShardedLRU_spec {opts : Options} (hmax : 0 < opts.maxBytes)
    (hcount : opts.shardCount ≤ 2 ^ 62) {fuel : Nat} (hfuel : 64 ≤ fuel) :
    ∃ k : Nat, (newShardedLRU fuel opts : Option (ShardedLRU V)) =
        some ⟨(List.range (2 ^ k)).map fun i =>
          .empty (budget opts.maxBytes (2 ^ k) i) opts.onEvicted, fnv32a⟩ ∧
      (k = 0 ∨ 1024 ≤ opts.maxBytes / 2 ^ k) := by
  have hcount' : (if opts.shardCount ≤ 0 then 16 else opts.shardCount) ≤ 2 ^ 62 := by
    split
    · decide
    · exact hcount
  obtain ⟨j, hj, hpower, -⟩ := nextPowerOfTwo_spec hcount' fuel (by omega)
  obtain ⟨k, -, hshrink, hbase⟩ := shrink_spec opts.maxBytes fuel j (by omega)
  refine ⟨k, ?_, ?_⟩
  · unfold newShardedLRU
    simp only [hpower, hmax, hshrink, ↓reduceIte, Option.bind_eq_bind, Option.bind_some]
    rw [toNat_two_pow]
    rfl
  · rw [Int.tdiv_eq_ediv_of_nonneg (Int.le_of_lt hmax)] at hbase
    exact hbase

/-- Caches within positive limits stay within them, all together. -/
theorem usedBytes_runs_le [Value V] {s : Store V} (hwf : ∀ c ∈ s.caches, c.WF)
    (hwithin : ∀ c ∈ s.caches, c.Within) (hpos : ∀ c ∈ s.caches, 0 < c.maxBytes)
    (orders : Nat → List GoString) (calls : List (Call V)) :
    ((s.runs orders calls).caches.map LruCache.usedBytes).sum ≤
      (s.caches.map LruCache.maxBytes).sum := by
  have hevolves := evolves_runs orders calls s
  generalize (s.runs orders calls).caches = l' at hevolves
  generalize s.caches = l at hwf hwithin hpos hevolves
  induction hevolves with
  | nil => exact Int.le_refl _
  | @cons c c' l l' hc _ ih =>
    rw [List.forall_mem_cons] at hwf hwithin hpos
    obtain ⟨calls, rfl⟩ := hc
    have hle := (hwf.1.runs hwithin.1 calls).2
    unfold LruCache.Within at hle
    rw [LruCache.maxBytes_runs] at hle
    rw [List.map_cons, List.map_cons, List.sum_cons, List.sum_cons]
    have hrest := ih hwf.2 hwithin.2 hpos.2
    have hfirst := hle hpos.1
    omega

/-- **The budgets of the shards.** For a positive budget and up to `2 ^ 62` shards the construction
ends; the number of shards is a power of two, every hash selects one of them, no shard is without a
limit, each has at least 1 KiB unless it is the only one, they differ by at most one byte and add up
to the budget. So no run of the store uses more bytes than the budget. -/
theorem sharded_budgets [Value V] (opts : Options) (hmax : 0 < opts.maxBytes)
    (hcount : opts.shardCount ≤ 2 ^ 62) (fuel : Nat) (hfuel : 64 ≤ fuel) :
    ∃ s : ShardedLRU V, newShardedLRU fuel opts = some s ∧
      (∃ k, s.shards.length = 2 ^ k) ∧
      (∀ h : UInt32, h.toNat &&& (s.shards.length - 1) < s.shards.length) ∧
      (∀ key, s.index key < s.shards.length) ∧
      (∀ c ∈ s.shards, 1 ≤ c.maxBytes ∧ (s.shards.length = 1 ∨ 1024 ≤ c.maxBytes)) ∧
      (∀ c ∈ s.shards, ∀ c' ∈ s.shards, c.maxBytes ≤ c'.maxBytes + 1) ∧
      (s.shards.map LruCache.maxBytes).sum = opts.maxBytes ∧
      ∀ orders calls, (((sharded s).runs orders calls).caches.map LruCache.usedBytes).sum ≤
        opts.maxBytes := by
  obtain ⟨k, hnew, hbase⟩ := newShardedLRU_spec (V := V) hmax hcount hfuel
  have hpos : (0 : Int) < 2 ^ k := by positivity
  have hbudget : ∀ i, 1 ≤ budget opts.maxBytes (2 ^ k) i ∧
      ((2 : Int) ^ k = 1 ∨ 1024 ≤ budget opts.maxBytes (2 ^ k) i) :=
    budget_ge hmax (hbase.imp_left fun h => by rw [h, pow_zero])
  have hmem : ∀ c ∈ (List.range (2 ^ k)).map (fun i =>
      (LruCache.empty (budget opts.maxBytes (2 ^ k) i) opts.onEvicted : LruCache V)),
      ∃ i, c = .empty (budget opts.maxBytes (2 ^ k) i) opts.onEvicted := by
    intro c hc
    obtain ⟨i, -, rfl⟩ := List.mem_map.1 hc
    exact ⟨i, rfl⟩
  have hmask : ∀ h : UInt32, h.toNat &&& (2 ^ k - 1) < 2 ^ k := fun h =>
    Nat.and_lt_two_pow _ (Nat.sub_lt (Nat.two_pow_pos k) Nat.one_pos)
  have hsum : (((List.range (2 ^ k)).map fun i =>
      (LruCache.empty (budget opts.maxBytes (2 ^ k) i) opts.onEvicted : LruCache V)).map
        LruCache.maxBytes).sum = opts.maxBytes := by
    rw [List.map_map]
    have heq := sum_budget_eq hmax hpos
    rw [toNat_two_pow] at heq
    exact heq
  refine ⟨_, hnew, ⟨k, by simp⟩, ?_, ?_, ?_, ?_, hsum, ?_⟩
  · simpa using hmask
  · intro key
    unfold ShardedLRU.index
    simpa using hmask (fnv32a key)
  · intro c hc
    obtain ⟨i, rfl⟩ := hmem c hc
    refine ⟨(hbudget i).1, ?_⟩
    rcases (hbudget i).2 with hone | hle
    · left
      rw [List.length_map, List.length_range]
      exact_mod_cast hone
    · exact Or.inr hle
  · intro c hc c' hc'
    obtain ⟨i, rfl⟩ := hmem c hc
    obtain ⟨j, rfl⟩ := hmem c' hc'
    exact budget_le_succ hmax (2 ^ k) i j
  · intro orders calls
    refine (usedBytes_runs_le ?_ ?_ ?_ orders calls).trans (Int.le_of_eq hsum)
    · intro c hc
      obtain ⟨i, rfl⟩ := hmem c hc
      exact LruCache.WF.empty _ _
    · intro c hc
      obtain ⟨i, rfl⟩ := hmem c hc
      exact Int.le_of_lt
    · intro c hc
      obtain ⟨i, rfl⟩ := hmem c hc
      exact (hbudget i).1

/-- Three shards are asked for and four are built. -/
theorem four_budgets : ∃ s : ShardedLRU Bytes, newShardedLRU 64 ⟨5000, 3, false⟩ = some s ∧
    (∃ k, s.shards.length = 2 ^ k) ∧ (s.shards.map LruCache.maxBytes).sum = 5000 := by
  obtain ⟨s, hnew, hlength, -, -, -, -, hsum, -⟩ :=
    sharded_budgets (V := Bytes) ⟨5000, 3, false⟩ (by decide) (by decide) 64 (Nat.le_refl 64)
  exact ⟨s, hnew, hlength, hsum⟩

/-! ## Too many shards

Above `2 ^ 62` no power of two that is large enough fits into an `int`. The doubling runs through
`2 ^ 62`, the least `int` and zero, and zero doubled is zero. -/

/-- The number of shards that `newShardedLRU` rounds up. -/
def Options.requested (opts : Options) : Int := if opts.shardCount ≤ 0 then 16 else opts.shardCount

/-- The loops of the construction end. With enough rounds `nextPowerOfTwo` returns the least power
of two that is not below the number of shards asked for, and the halving returns a power of two
between one and that, which is the number of shards of the store. -/
def LoopsEnd (V : Type) (opts : Options) : Prop :=
  ∃ rounds, ∀ fuel ≥ rounds, ∃ power count,
    nextPowerOfTwo fuel opts.requested = some power ∧
    IsLeast {p : Int | opts.requested ≤ p ∧ ∃ k : Nat, p = 2 ^ k} power ∧
    shrink opts.maxBytes fuel power = some count ∧ (∃ k : Nat, count = 2 ^ k) ∧
    1 ≤ count ∧ count ≤ power ∧
    ∃ s : ShardedLRU V, newShardedLRU fuel opts = some s ∧ (s.shards.length : Int) = count

theorem nextPowerOfTwoFrom_zero {n : Int} (hn : 0 < n) (fuel : Nat) :
    nextPowerOfTwoFrom n fuel 0 = none := by
  induction fuel with
  | zero => rfl
  | succ fuel ih =>
    rw [nextPowerOfTwoFrom, if_pos hn]
    exact ih

/-- The doubling overflows and never ends. -/
theorem nextPowerOfTwoFrom_none {n : Int} (hn : 2 ^ 62 < n) (fuel k : Nat) (hk : k ≤ 62) :
    nextPowerOfTwoFrom n fuel (2 ^ k) = none := by
  induction fuel generalizing k with
  | zero => rfl
  | succ fuel ih =>
    have hle : (2 : Int) ^ k ≤ 2 ^ 62 := pow_le_pow_right₀ (by decide) hk
    rw [nextPowerOfTwoFrom, if_pos (by omega)]
    rcases Nat.lt_or_eq_of_le hk with hlt | rfl
    · rw [wrapInt_double hlt]
      exact ih (k + 1) hlt
    · have hmin : wrapInt ((2 ^ 62 : Int) <<< (1 : Nat)) = -2 ^ 63 := by decide
      rw [hmin]
      cases fuel with
      | zero => rfl
      | succ fuel =>
        have hzero : wrapInt ((-2 ^ 63 : Int) <<< (1 : Nat)) = 0 := by decide
        rw [nextPowerOfTwoFrom, if_pos (by omega), hzero]
        exact nextPowerOfTwoFrom_zero (by omega) fuel

theorem nextPowerOfTwo_none {n : Int} (hn : 2 ^ 62 < n) (fuel : Nat) :
    nextPowerOfTwo fuel n = none := by
  rw [nextPowerOfTwo, if_neg (by omega)]
  exact nextPowerOfTwoFrom_none hn fuel 0 (by decide)

theorem isLeast_two_pow {n : Int} {j : Nat} (hn : n ≤ 2 ^ j) (hlow : ∀ i < j, (2 : Int) ^ i < n) :
    IsLeast {p : Int | n ≤ p ∧ ∃ k : Nat, p = 2 ^ k} (2 ^ j) := by
  refine ⟨⟨hn, j, rfl⟩, ?_⟩
  rintro p ⟨hp, k, rfl⟩
  by_contra hlt
  have hk : k < j := (pow_lt_pow_iff_right₀ (by decide : (1 : Int) < 2)).1 (not_le.1 hlt)
  exact absurd (hlow k hk) (not_lt.2 hp)

theorem loopsEnd_of_le {opts : Options} (hmax : 0 < opts.maxBytes)
    (hcount : opts.shardCount ≤ 2 ^ 62) : LoopsEnd V opts := by
  have hreq : opts.requested ≤ 2 ^ 62 := by
    unfold Options.requested
    split
    · decide
    · exact hcount
  refine ⟨64, fun fuel hfuel => ?_⟩
  obtain ⟨j, hj, hpower, hle, hlow⟩ := nextPowerOfTwo_spec hreq fuel (by omega)
  obtain ⟨k, hk, hshrink, -⟩ := shrink_spec opts.maxBytes fuel j (by omega)
  have hpos : (0 : Int) < 2 ^ k := by positivity
  refine ⟨2 ^ j, 2 ^ k, hpower, isLeast_two_pow hle hlow, hshrink, ⟨k, rfl⟩, hpos,
    pow_le_pow_right₀ (by decide) hk, ?_⟩
  unfold Options.requested at hpower
  unfold newShardedLRU
  simp only [hpower, hmax, hshrink, ↓reduceIte, Option.bind_eq_bind, Option.bind_some]
  exact ⟨_, rfl, by simp⟩

theorem not_loopsEnd {opts : Options} (hcount : 2 ^ 62 < opts.shardCount) : ¬LoopsEnd V opts := by
  rintro ⟨rounds, h⟩
  obtain ⟨power, count, hpower, -⟩ := h rounds (Nat.le_refl _)
  have hreq : opts.requested = opts.shardCount := if_neg (by omega)
  rw [hreq, nextPowerOfTwo_none hcount] at hpower
  cases hpower

/-- **The loops end for up to `2 ^ 62` shards**, and with more the doubling overflows and runs for
ever. -/
theorem loops_end_iff (opts : Options) (hmax : 0 < opts.maxBytes) :
    LoopsEnd V opts ↔ opts.shardCount ≤ 2 ^ 62 := by
  constructor
  · intro hend
    by_contra hcount
    exact not_loopsEnd (Int.not_le.1 hcount) hend
  · exact loopsEnd_of_le hmax

/-- The most shards that can be asked for. -/
theorem loops_end_at_bound : (0 : Int) < 4096 ∧ LoopsEnd Bytes ⟨4096, 2 ^ 62, false⟩ :=
  ⟨by decide, (loops_end_iff ⟨4096, 2 ^ 62, false⟩ (by decide)).2 (Int.le_refl _)⟩

/-- With one more, `nextPowerOfTwo` does not return, however many rounds it gets. -/
theorem doubling_overflows : (∀ fuel, nextPowerOfTwo fuel (2 ^ 62 + 1) = none) ∧
    ¬LoopsEnd Bytes ⟨4096, 2 ^ 62 + 1, false⟩ :=
  ⟨nextPowerOfTwo_none (by decide), not_loopsEnd (by decide)⟩

/-! ## What a store keeps -/

/-- The kinds of store; any other name stands for the sharded one. -/
inductive CacheType where
  | lru
  | shardedLRU
  | other (name : GoString)

def newStore (fuel : Nat) (cacheType : CacheType) (opts : Options) : Option (Store V) :=
  match cacheType with
  | .lru => some (lru (.empty opts.maxBytes opts.onEvicted))
  | .shardedLRU | .other _ => (newShardedLRU fuel opts).map sharded

theorem shard_eq (s : Store V) (key : GoString) : s.shard key = s.caches[s.index key]? := by
  cases s <;> rfl

section Construction

theorem nextPowerOfTwoFrom_le {n : Int} {fuel : Nat} {p q : Int}
    (h : nextPowerOfTwoFrom n fuel p = some q) : n ≤ q := by
  induction fuel generalizing p with
  | zero => cases h
  | succ fuel ih =>
    rw [nextPowerOfTwoFrom] at h
    split at h
    · exact ih h
    · next hge =>
      cases h
      exact Int.not_lt.1 hge

theorem nextPowerOfTwo_pos {n : Int} {fuel : Nat} {q : Int} (h : nextPowerOfTwo fuel n = some q) :
    0 < q := by
  unfold nextPowerOfTwo at h
  split at h
  · cases h
    decide
  · next hn =>
    have := nextPowerOfTwoFrom_le h
    omega

theorem shrink_pos {maxBytes : Int} {fuel : Nat} {count count' : Int} (hcount : 0 < count)
    (h : shrink maxBytes fuel count = some count') :
    0 < count' ∧ (count' = 1 ∨ 1024 ≤ maxBytes.tdiv count') := by
  induction fuel generalizing count with
  | zero => cases h
  | succ fuel ih =>
    rw [shrink] at h
    split at h
    · next hmany =>
      refine ih ?_ h
      rw [Int.shiftRight_eq_div_pow]
      norm_num
      omega
    · next hfew =>
      cases h
      exact ⟨hcount, by omega⟩

/-- Whatever number of shards was asked for, a store that is built consists of empty caches with the
budgets of their indices, and none of them is without a limit. -/
theorem newShardedLRU_built {opts : Options} (hmax : 0 < opts.maxBytes) {fuel : Nat}
    {s : ShardedLRU V} (h : newShardedLRU fuel opts = some s) :
    ∃ count : Nat, 0 < count ∧ (∀ i, 1 ≤ budget opts.maxBytes count i) ∧
      s = ⟨(List.range count).map fun i =>
        .empty (budget opts.maxBytes count i) opts.onEvicted, fnv32a⟩ := by
  unfold newShardedLRU at h
  simp only [hmax, ↓reduceIte, Option.bind_eq_bind, Option.bind_eq_some_iff] at h
  obtain ⟨power, hpower, count, hcount, hs⟩ := h
  obtain ⟨hpos, hbase⟩ := shrink_pos (nextPowerOfTwo_pos hpower) hcount
  have hnat : ((count.toNat : Nat) : Int) = count := Int.toNat_of_nonneg (Int.le_of_lt hpos)
  rw [Int.tdiv_eq_ediv_of_nonneg (Int.le_of_lt hmax)] at hbase
  refine ⟨count.toNat, by omega, ?_, ?_⟩
  · intro i
    rw [hnat]
    exact (budget_ge hmax hbase i).1
  · cases hs
    rw [hnat]

/-- A new store: empty caches with the budgets of their indices, all of them limited. -/
structure Constructed (opts : Options) (s : Store V) : Prop where
  limited : ∀ i, 1 ≤ budget opts.maxBytes s.shardCount i
  nonempty : s.caches ≠ []
  caches : s.caches = (List.range s.shardCount).map fun i =>
    .empty (budget opts.maxBytes s.shardCount i) opts.onEvicted

theorem constructed_sharded {opts : Options} (hmax : 0 < opts.maxBytes) {fuel : Nat} {s : Store V}
    (h : (newShardedLRU fuel opts).map sharded = some s) : Constructed opts s := by
  obtain ⟨s', hs', rfl⟩ := Option.map_eq_some_iff.1 h
  obtain ⟨count, hcount, hbudget, rfl⟩ := newShardedLRU_built hmax hs'
  have hlength : (sharded ⟨(List.range count).map fun i =>
      (LruCache.empty (budget opts.maxBytes count i) opts.onEvicted : LruCache V),
      fnv32a⟩).shardCount = count := by
    simp [shardCount]
  refine ⟨?_, ?_, ?_⟩
  · rw [hlength]
    exact hbudget
  · exact List.ne_nil_of_length_pos (Nat.lt_of_lt_of_eq hcount hlength.symm)
  · rw [hlength]
    rfl

theorem newStore_constructed {opts : Options} (hmax : 0 < opts.maxBytes) {fuel : Nat}
    {cacheType : CacheType} {s : Store V} (h : newStore fuel cacheType opts = some s) :
    Constructed opts s := by
  cases cacheType with
  | lru =>
    cases h
    have hbudget : budget opts.maxBytes 1 0 = opts.maxBytes := by
      simp [budget]
    refine ⟨fun i => (budget_ge hmax (Or.inl rfl) i).1, List.cons_ne_nil _ _, ?_⟩
    show [LruCache.empty opts.maxBytes opts.onEvicted] =
      [LruCache.empty (budget opts.maxBytes 1 0) opts.onEvicted]
    rw [hbudget]
  | shardedLRU => exact constructed_sharded hmax h
  | other name => exact constructed_sharded hmax h

end Construction

section Runs

variable [Value V]

/-- A call does not change where a key belongs. -/
theorem index_run (order : List GoString) (call : Call V) (s : Store V) (k : GoString) :
    (call.run order s).index k = s.index k := by
  cases call with
  | get now key => exact (SameShape.get s now key).index k
  | set key value now later => exact (SameShape.modify s key _).index k
  | setWithExpiration key value expiration now later => exact (SameShape.modify s key _).index k
  | delete key => exact (SameShape.delete s key).index k
  | clear => exact (SameShape.clear s order).index k
  | cleanup shard now => exact (SameShape.modifyAt s shard _).index k

theorem index_runs (orders : Nat → List GoString) (calls : List (Call V)) (s : Store V)
    (k : GoString) : (s.runs orders calls).index k = s.index k := by
  induction calls generalizing s orders with
  | nil => rfl
  | cons call calls ih => exact (ih _ _).trans (index_run (orders 0) call s k)

/-- The cache of a key after a run is what the calls made of the one it was. -/
theorem shard_runs {s : Store V} {k : GoString} {c : LruCache V} (h : s.shard k = some c)
    (orders : Nat → List GoString) (calls : List (Call V)) :
    ∃ c', (s.runs orders calls).shard k = some c' ∧ Evolves c c' := by
  rw [shard_eq] at h
  rw [shard_eq, index_runs]
  have hevolves := evolves_runs orders calls s
  obtain ⟨hlt, rfl⟩ := List.getElem?_eq_some_iff.1 h
  have hlt' : s.index k < (s.runs orders calls).caches.length := hevolves.length_eq ▸ hlt
  exact ⟨_, List.getElem?_eq_getElem hlt', hevolves.get hlt hlt'⟩

theorem Constructed.wf {opts : Options} {s : Store V} (hs : Constructed opts s) : s.WF := by
  rw [wf_iff]
  refine ⟨hs.nonempty, ?_⟩
  intro c hc
  rw [hs.caches] at hc
  obtain ⟨i, -, rfl⟩ := List.mem_map.1 hc
  exact LruCache.WF.empty _ _

/-- A key belongs to the cache with its index. -/
theorem Constructed.shard {opts : Options} {s : Store V} (hs : Constructed opts s) (k : GoString) :
    s.shard k =
      some (.empty (budget opts.maxBytes s.shardCount (s.index k)) opts.onEvicted) := by
  have hlt : s.index k < s.shardCount := by
    obtain ⟨c, hc, -⟩ := hs.wf.shard k
    rw [shard_eq] at hc
    obtain ⟨hlt, -⟩ := List.getElem?_eq_some_iff.1 hc
    have hlength := congrArg List.length hs.caches
    rw [List.length_map, List.length_range] at hlength
    omega
  rw [shard_eq, hs.caches, List.getElem?_map, List.getElem?_range hlt]
  rfl

omit [Value V] in
theorem shard_modify (s : Store V) (key : GoString) (f : LruCache V → LruCache V) :
    (s.modify key f).shard key = (s.shard key).map f := by
  cases s with
  | lru c => rfl
  | sharded s => simp [modify, Store.shard, index_modify]

/-- Right after a value was stored it is found if it fits the budget of the cache it belongs to, and
not found otherwise. -/
theorem get_of_set {opts : Options} {s : Store V} (hs : Constructed opts s)
    (orders : Nat → List GoString) (calls : List (Call V)) (k : GoString) (v : V)
    (now later : Time) (order : List GoString) (t : Time) :
    (((s.runs orders calls).set k (some v) now later order).get t k).1 =
      if (k.length + Value.len v : Int) ≤ budget opts.maxBytes s.shardCount (s.index k) then some v
      else none := by
  obtain ⟨c, hc, cacheCalls, rfl⟩ := shard_runs (hs.shard k) orders calls
  have hwf := LruCache.built_wf (V := V) (budget opts.maxBytes s.shardCount (s.index k))
    opts.onEvicted cacheCalls
  have hmax := LruCache.maxBytes_built (V := V) (budget opts.maxBytes s.shardCount (s.index k))
    opts.onEvicted cacheCalls
  have hget := hwf.get_set (by rw [hmax]; exact hs.limited _) k v now later order t
  rw [hmax] at hget
  rw [← hget]
  unfold Store.get Store.set
  rw [shard_modify, hc]
  rfl

/-- **What was just stored is found, if it fits its cache.** A store of either kind keeps an entry
that fits the budget of the cache its key belongs to: the whole budget in a plain cache, and the
share of the shard in a sharded one. -/
theorem stored_is_found (fuel : Nat) (cacheType : CacheType) (opts : Options)
    (hmax : 0 < opts.maxBytes) (s : Store V) (hnew : newStore fuel cacheType opts = some s)
    (orders : Nat → List GoString) (calls : List (Call V)) (k : GoString) (v : V)
    (hsize : (k.length + Value.len v : Int) ≤ budget opts.maxBytes s.shardCount (s.index k))
    (now later : Time) (order : List GoString) (t : Time) :
    (((s.runs orders calls).set k (some v) now later order).get t k).1 = some v := by
  rw [get_of_set (newStore_constructed hmax hnew), if_pos hsize]

end Runs

/-- An entry of six bytes in a budget of sixteen, which is too small to be divided. -/
theorem tiny_is_found : ∃ s : Store Bytes, newStore 64 .shardedLRU ⟨16, 16, false⟩ = some s ∧
    ((s.set (ascii "k") (some (ascii "hello")) 0 0 []).get 0 (ascii "k")).1 =
      some (ascii "hello") := by
  refine ⟨_, rfl, ?_⟩
  exact stored_is_found 64 .shardedLRU ⟨16, 16, false⟩ (by decide) _ rfl (fun _ => []) []
    (ascii "k") (ascii "hello") (by decide) 0 0 [] 0

/-- Two shards of 1 KiB each do not hold an entry of 1026 bytes, although both together have the
room. -/
theorem large_is_lost : ∃ (s : Store Bytes) (v : Bytes),
    newStore 64 .shardedLRU ⟨2048, 2, false⟩ = some s ∧
    ((ascii "k").length + Value.len v : Int) ≤ 2048 ∧
    ((s.set (ascii "k") (some v) 0 0 []).get 0 (ascii "k")).1 = none := by
  have hsize : ((ascii "k").length + Value.len (List.replicate 1025 (0 : UInt8)) : Int) = 1026 := by
    show (1 + (List.replicate 1025 (0 : UInt8)).length : Int) = 1026
    rw [List.length_replicate]
    rfl
  refine ⟨_, List.replicate 1025 0, rfl, ?_, ?_⟩
  · rw [hsize]
    decide
  · have hnew : Constructed ⟨2048, 2, false⟩ _ := newStore_constructed (by decide)
      (rfl : (newStore 64 .shardedLRU ⟨2048, 2, false⟩ : Option (Store Bytes)) = some _)
    have hget := get_of_set hnew (fun _ => []) [] (ascii "k") (List.replicate 1025 (0 : UInt8)) 0 0
      [] 0
    rw [hsize] at hget
    exact hget

end Locache.Store
