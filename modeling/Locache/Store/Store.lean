import Locache.Store.LruView

/-!
# The two stores

A `Store` is a plain `lruCache` or a `shardedLRU`, which sends every key to one of its LRU shards
by the FNV-1a hash of the key. Either is a map from keys to a value and a deadline, and the laws of
the LRU cache hold for both: an operation on a key reads and writes the shard of that key only.
`Clear` empties the shards one after the other, so it is also available shard by shard.
-/

namespace Locache

open Store (LruCache Expired Value)

/-- The 32-bit FNV-1a hash of `hash/fnv`. -/
def fnv32a (s : GoString) : UInt32 :=
  s.foldl (fun h b => (h ^^^ b.toUInt32) * 16777619) 2166136261

structure ShardedLRU (V : Type) where
  shards : List (LruCache V)
  /-- The hash of a key, `fnv32a` in every store that is built. -/
  hash : GoString → UInt32

/-- The index `shard` selects: `int(h.Sum32()) & (len(s.shards)-1)`. -/
def ShardedLRU.index {V : Type} (s : ShardedLRU V) (key : GoString) : Nat :=
  (s.hash key).toNat &&& (s.shards.length - 1)

theorem ShardedLRU.index_lt {V : Type} (s : ShardedLRU V) (hs : s.shards ≠ []) (key : GoString) :
    s.index key < s.shards.length := by
  have hpos := List.length_pos_of_ne_nil hs
  have hle := Nat.and_le_right (n := (s.hash key).toNat) (m := s.shards.length - 1)
  unfold ShardedLRU.index
  omega

/-- What `NewStore` returns. -/
inductive Store (V : Type) where
  | lru (c : LruCache V)
  | sharded (s : ShardedLRU V)

namespace Store

variable {V : Type}

/-- The LRU cache that holds a key. -/
def shard (s : Store V) (key : GoString) : Option (LruCache V) :=
  match s with
  | lru c => some c
  | sharded s => s.shards[s.index key]?

/-- Change the LRU cache that holds a key. -/
def modify (s : Store V) (key : GoString) (f : LruCache V → LruCache V) : Store V :=
  match s with
  | lru c => lru (f c)
  | sharded s => sharded { s with shards := s.shards.modify (s.index key) f }

def shardCount : Store V → Nat
  | lru _ => 1
  | sharded s => s.shards.length

/-- The index of the cache that holds a key. -/
def index : Store V → GoString → Nat
  | lru _, _ => 0
  | sharded s, key => s.index key

/-- Change the LRU cache at an index. -/
def modifyAt (s : Store V) (i : Nat) (f : LruCache V → LruCache V) : Store V :=
  match s with
  | lru c => lru (if i = 0 then f c else c)
  | sharded s => sharded { s with shards := s.shards.modify i f }

variable [Value V]

def get (now : Time) (key : GoString) (s : Store V) : Option V × Store V :=
  match s.shard key with
  | none => (none, s)
  | some c => ((c.get now key).1, s.modify key fun c => (c.get now key).2)

def setWithExpiration (key : GoString) (value : Option V) (expiration : Duration)
    (now later : Time) (order : List GoString) (s : Store V) : Store V :=
  s.modify key (LruCache.setWithExpiration key value expiration now later order)

def set (key : GoString) (value : Option V) (now later : Time) (order : List GoString)
    (s : Store V) : Store V :=
  s.modify key (LruCache.set key value now later order)

def delete (key : GoString) (s : Store V) : Bool × Store V :=
  match s.shard key with
  | none => (false, s)
  | some c => ((c.delete key).1, s.modify key fun c => (c.delete key).2)

def clear (order : List GoString) (s : Store V) : Store V :=
  match s with
  | lru c => lru (c.clear order)
  | sharded s => sharded { s with shards := s.shards.map (LruCache.clear order) }

def clearShard (i : Nat) (order : List GoString) (s : Store V) : Store V :=
  s.modifyAt i (LruCache.clear order)

def len : Store V → Nat
  | lru c => c.len
  | sharded s => (s.shards.map LruCache.len).sum

/-- One `cleanupExpired` of a cleanup tick. -/
def cleanupShard (i : Nat) (order : List GoString) (now : Time) (s : Store V) : Store V :=
  s.modifyAt i (LruCache.cleanupExpired order now)

/-! ## The store as a map -/

def WF : Store V → Prop
  | lru c => c.WF
  | sharded s => s.shards ≠ [] ∧ ∀ c ∈ s.shards, c.WF

omit [Value V] in
/-- The value and deadline stored under a key. -/
def view (s : Store V) (k : GoString) : Option (V × Option Time) :=
  (s.shard k).bind fun c => c.view k

variable {s : Store V} {k key : GoString} {i : Nat} {f : LruCache V → LruCache V}

theorem WF.shard (hs : s.WF) (key : GoString) : ∃ c, s.shard key = some c ∧ c.WF := by
  cases s with
  | lru c => exact ⟨c, rfl, hs⟩
  | sharded s =>
    have hlt : s.index key < s.shards.length := s.index_lt hs.1 key
    exact ⟨s.shards[s.index key], List.getElem?_eq_getElem hlt, hs.2 _ (List.getElem_mem hlt)⟩

theorem forall_mem_modify {l : List (LruCache V)} (hl : l ≠ [] ∧ ∀ c ∈ l, c.WF) (i : Nat)
    (hf : ∀ c : LruCache V, c.WF → (f c).WF) : l.modify i f ≠ [] ∧ ∀ c ∈ l.modify i f, c.WF := by
  refine ⟨fun h => hl.1 ?_, fun c hc => ?_⟩
  · have hlen := congrArg List.length h
    simp only [List.length_modify, List.length_nil] at hlen
    exact List.eq_nil_of_length_eq_zero hlen
  · obtain ⟨j, hj⟩ := List.mem_iff_getElem?.1 hc
    rw [List.getElem?_modify] at hj
    cases hg : l[j]? with
    | none => simp [hg] at hj
    | some c₀ =>
      have hc₀ : c₀.WF := hl.2 c₀ (List.mem_of_getElem? hg)
      simp only [hg, Option.map_eq_map, Option.map_some, Option.some.injEq] at hj
      split at hj
      · exact hj ▸ hf c₀ hc₀
      · exact hj ▸ hc₀

theorem WF.modify (hs : s.WF) (key : GoString) (hf : ∀ c : LruCache V, c.WF → (f c).WF) :
    (s.modify key f).WF := by
  cases s with
  | lru c => exact hf c hs
  | sharded s => exact forall_mem_modify hs _ hf

theorem WF.modifyAt (hs : s.WF) (i : Nat) (hf : ∀ c : LruCache V, c.WF → (f c).WF) :
    (s.modifyAt i f).WF := by
  cases s with
  | lru c =>
    show LruCache.WF (if i = 0 then f c else c)
    split
    · exact hf c hs
    · exact hs
  | sharded s => exact forall_mem_modify hs i hf

omit [Value V] in
theorem index_modify (s : ShardedLRU V) (i : Nat) (f : LruCache V → LruCache V) (k : GoString) :
    ShardedLRU.index { s with shards := s.shards.modify i f } k = s.index k := by
  simp [ShardedLRU.index]

omit [Value V] in
/-- Changing the shard of one key changes another key's view only if they share the shard. -/
theorem view_modify (s : Store V) (key k : GoString) (f : LruCache V → LruCache V) :
    (∃ c, s.shard k = some c ∧ s.shard key = some c ∧ (s.modify key f).view k = (f c).view k) ∨
      ((s.modify key f).view k = s.view k ∧ (k = key → s.shard key = none)) := by
  cases s with
  | lru c => exact Or.inl ⟨c, rfl, rfl, rfl⟩
  | sharded s =>
    simp only [modify, view, shard, index_modify, List.getElem?_modify]
    by_cases hi : s.index key = s.index k
    · cases hg : s.shards[s.index k]? with
      | none => exact Or.inr ⟨by simp, fun _ => by rw [hi, hg]⟩
      | some c => exact Or.inl ⟨c, rfl, by rw [hi, hg], by simp [hi]⟩
    · refine Or.inr ⟨?_, fun h => absurd (by rw [h]) hi⟩
      cases s.shards[s.index k]? <;> simp [hi]

omit [Value V] in
theorem view_of_shard {c : LruCache V} (h : s.shard k = some c) : s.view k = c.view k := by
  simp [view, h]

omit [Value V] in
/-- Changing one shard leaves a key's view as it is or applies the change to it. -/
theorem view_modifyAt (s : Store V) (i : Nat) (k : GoString) (f : LruCache V → LruCache V) :
    (∃ c, s.shard k = some c ∧ (s.modifyAt i f).view k = (f c).view k) ∨
      (s.modifyAt i f).view k = s.view k := by
  cases s with
  | lru c =>
    by_cases hi : i = 0
    · exact Or.inl ⟨c, rfl, by simp [modifyAt, view, shard, hi]⟩
    · exact Or.inr (by simp [modifyAt, view, shard, hi])
  | sharded s =>
    simp only [modifyAt, view, shard, index_modify, List.getElem?_modify]
    by_cases hi : i = s.index k
    · cases hg : s.shards[s.index k]? with
      | none => exact Or.inr (by simp)
      | some c => exact Or.inl ⟨c, rfl, by simp [hi]⟩
    · refine Or.inr ?_
      cases s.shards[s.index k]? <;> simp [hi]

/-! ## Where a key belongs -/

/-- Two stores with the same number of shards that send every key to the same one. -/
structure SameShape (s s' : Store V) : Prop where
  count : s'.shardCount = s.shardCount
  index : ∀ k, s'.index k = s.index k

namespace SameShape

omit [Value V] in
theorem refl (s : Store V) : s.SameShape s := ⟨rfl, fun _ => rfl⟩

omit [Value V] in
theorem trans {s₁ s₂ s₃ : Store V} (h₁₂ : s₁.SameShape s₂) (h₂₃ : s₂.SameShape s₃) :
    s₁.SameShape s₃ :=
  ⟨h₂₃.count.trans h₁₂.count, fun k => (h₂₃.index k).trans (h₁₂.index k)⟩

omit [Value V] in
theorem modifyAt (s : Store V) (i : Nat) (f : LruCache V → LruCache V) :
    s.SameShape (s.modifyAt i f) := by
  cases s with
  | lru c => exact ⟨rfl, fun _ => rfl⟩
  | sharded s => exact ⟨List.length_modify .., fun k => index_modify s i f k⟩

omit [Value V] in
theorem modify (s : Store V) (key : GoString) (f : LruCache V → LruCache V) :
    s.SameShape (s.modify key f) := by
  cases s with
  | lru c => exact ⟨rfl, fun _ => rfl⟩
  | sharded s => exact modifyAt (.sharded s) (s.index key) f

omit [Value V] in
theorem clear (s : Store V) (order : List GoString) : s.SameShape (s.clear order) := by
  cases s with
  | lru c => exact ⟨rfl, fun _ => rfl⟩
  | sharded s =>
    refine ⟨List.length_map .., fun k => ?_⟩
    simp [Store.clear, Store.index, ShardedLRU.index]

theorem get (s : Store V) (now : Time) (key : GoString) : s.SameShape (s.get now key).2 := by
  unfold Store.get
  split
  · exact refl s
  · exact modify s key _

theorem delete (s : Store V) (key : GoString) : s.SameShape (s.delete key).2 := by
  unfold Store.delete
  split
  · exact refl s
  · exact modify s key _

end SameShape

theorem WF.index_lt (hs : s.WF) (k : GoString) : s.index k < s.shardCount := by
  cases s with
  | lru c => exact Nat.one_pos
  | sharded s => exact s.index_lt hs.1 k

/-! ## The operations on the map -/

theorem WF.get_fst (hs : s.WF) (now : Time) (key : GoString) :
    (s.get now key).1 = (s.view key).bind fun x => if Expired x.2 now then none else some x.1 := by
  obtain ⟨c, hc, hwf⟩ := hs.shard key
  simp only [Store.get, hc, view_of_shard hc]
  exact hwf.get_fst now

theorem WF.get (hs : s.WF) (now : Time) (key : GoString) : (s.get now key).2.WF := by
  obtain ⟨c, hc, -⟩ := hs.shard key
  simp only [Store.get, hc]
  exact hs.modify key fun c h => h.get now key

theorem WF.view_get (hs : s.WF) (now : Time) (key k : GoString) :
    (s.get now key).2.view k = s.view k ∨
      k = key ∧ (s.get now key).2.view k = none ∧ ∀ x, s.view k = some x → Expired x.2 now := by
  obtain ⟨c₀, hc₀, hwf⟩ := hs.shard key
  simp only [Store.get, hc₀]
  rcases view_modify s key k (fun c => (c.get now key).2) with ⟨c, hk, hkey, hv⟩ | ⟨hv, -⟩
  · rw [hkey] at hc₀
    cases hc₀
    rw [hv, view_of_shard hk]
    exact hwf.view_get now k
  · exact Or.inl hv

theorem WF.setWithExpiration (hs : s.WF) (key : GoString) (value : Option V)
    (expiration : Duration) (now later : Time) (order : List GoString) :
    (s.setWithExpiration key value expiration now later order).WF :=
  hs.modify key fun _ h => h.setWithExpiration key value expiration now later order

/-- After a store every entry is the stored one or an older one of another key. -/
theorem WF.view_setWithExpiration (hs : s.WF) (key : GoString) (v : V) (expiration : Duration)
    (now later : Time) (order : List GoString) {x : V × Option Time}
    (h : (s.setWithExpiration key (some v) expiration now later order).view k = some x) :
    k = key ∧ x = (v, LruCache.deadline now expiration) ∨ k ≠ key ∧ s.view k = some x := by
  obtain ⟨c₀, hc₀, hwf⟩ := hs.shard key
  rcases view_modify s key k (LruCache.setWithExpiration key (some v) expiration now later order)
    with ⟨c, hk, hkey, hv⟩ | ⟨hv, hne⟩
  · rw [hkey] at hc₀
    cases hc₀
    rw [Store.setWithExpiration, hv] at h
    rw [view_of_shard hk]
    exact hwf.view_setWithExpiration key v expiration now later order h
  · rw [Store.setWithExpiration, hv] at h
    exact Or.inr ⟨fun e => by simp [hne e] at hc₀, h⟩

theorem WF.delete (hs : s.WF) (key : GoString) : (s.delete key).2.WF := by
  obtain ⟨c, hc, -⟩ := hs.shard key
  simp only [Store.delete, hc]
  exact hs.modify key fun c h => h.delete key

theorem WF.view_delete (hs : s.WF) (key k : GoString) :
    (s.delete key).2.view k = if k = key then none else s.view k := by
  obtain ⟨c₀, hc₀, hwf⟩ := hs.shard key
  simp only [Store.delete, hc₀]
  rcases view_modify s key k (fun c => (c.delete key).2) with ⟨c, hk, hkey, hv⟩ | ⟨hv, hne⟩
  · rw [hkey] at hc₀
    cases hc₀
    rw [hv, hwf.view_delete, view_of_shard hk]
  · rw [hv, if_neg fun e => by simp [hne e] at hc₀]

theorem WF.clear (hs : s.WF) (order : List GoString) : (s.clear order).WF := by
  cases s with
  | lru c => exact LruCache.WF.clear c order
  | sharded s =>
    refine ⟨by simpa using hs.1, fun c hc => ?_⟩
    obtain ⟨c₀, -, rfl⟩ := List.mem_map.1 hc
    exact LruCache.WF.clear c₀ order

omit [Value V] in
theorem view_clear (s : Store V) (order : List GoString) (k : GoString) :
    (s.clear order).view k = none := by
  cases s with
  | lru c => exact LruCache.view_clear c order k
  | sharded s =>
    simp only [clear, view, shard, List.getElem?_map]
    cases
      s.shards[ShardedLRU.index { s with shards := s.shards.map (LruCache.clear order) } k]? with
    | none => rfl
    | some c => exact LruCache.view_clear c order k

theorem WF.clearShard (hs : s.WF) (i : Nat) (order : List GoString) : (s.clearShard i order).WF :=
  hs.modifyAt i fun c _ => LruCache.WF.clear c order

omit [Value V] in
theorem view_clearShard (s : Store V) (i : Nat) (order : List GoString) (k : GoString) :
    (s.clearShard i order).view k = none ∨ (s.clearShard i order).view k = s.view k := by
  rcases view_modifyAt s i k (LruCache.clear order) with ⟨c, -, hv⟩ | hv
  · exact Or.inl (by rw [clearShard, hv]; exact LruCache.view_clear c order k)
  · exact Or.inr hv

omit [Value V] in
/-- Clearing the shard of a key removes its entry. -/
theorem view_clearShard_index (s : Store V) (order : List GoString) (k : GoString) :
    (s.clearShard (s.index k) order).view k = none := by
  cases s with
  | lru c => exact LruCache.view_clear c order k
  | sharded s =>
    simp only [clearShard, modifyAt, view, shard, index, index_modify, List.getElem?_modify]
    cases s.shards[s.index k]? with
    | none => rfl
    | some c => simpa using LruCache.view_clear c order k

theorem WF.cleanupShard (hs : s.WF) (i : Nat) (order : List GoString) (now : Time) :
    (s.cleanupShard i order now).WF :=
  hs.modifyAt i fun _ h => h.evictLocked order now

theorem WF.view_cleanupShard (hs : s.WF) (i : Nat) (order : List GoString) (now : Time)
    {x : V × Option Time} (h : (s.cleanupShard i order now).view k = some x) :
    s.view k = some x := by
  obtain ⟨c₀, hc₀, hwf⟩ := hs.shard k
  rcases view_modifyAt s i k (LruCache.cleanupExpired order now) with ⟨c, hk, hv⟩ | hv
  · rw [hk] at hc₀
    cases hc₀
    rw [Store.cleanupShard, hv] at h
    rw [view_of_shard hk]
    exact hwf.evictLocked_sub order now k x h
  · rw [Store.cleanupShard, hv] at h
    exact h

end Store

end Locache
