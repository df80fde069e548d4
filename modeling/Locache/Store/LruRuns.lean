import Locache.Store.LruView

/-!
# Runs of an LRU cache

Every operation keeps the representation invariant and, when there is a byte limit, ends within it:
the capacity loop of `evictLocked` has enough rounds to get there (`evictOverflow_within`), and the
other operations only take bytes away. So both hold after any sequence of operations
(`lru_invariants`).
-/

namespace Locache.Store.LruCache

variable {V : Type} [Value V] {c : LruCache V} {id : Nat} {key : GoString}

/-- The bytes in use are within the limit, if there is one. -/
def Within (c : LruCache V) : Prop := 0 < c.maxBytes → c.usedBytes ≤ c.maxBytes

omit [Value V] in
theorem Within.congr {c' : LruCache V} (h : c.Within) (hm : c'.maxBytes = c.maxBytes)
    (hu : c'.usedBytes ≤ c.usedBytes) : c'.Within := by
  intro hpos
  rw [hm] at hpos ⊢
  exact hu.trans (h hpos)

/-! ## The capacity loop -/

theorem maxBytes_removeElement (c : LruCache V) (id : Nat) :
    (c.removeElement id).maxBytes = c.maxBytes := by
  unfold removeElement
  cases c.entry id <;> rfl

theorem usedBytes_removeElement_le (c : LruCache V) (id : Nat) :
    (c.removeElement id).usedBytes ≤ c.usedBytes := by
  unfold removeElement
  cases c.entry id with
  | none => exact Int.le_refl _
  | some e =>
    show c.usedBytes - _ ≤ c.usedBytes
    omega

theorem Within.removeElement (h : c.Within) (id : Nat) : (c.removeElement id).Within :=
  h.congr (maxBytes_removeElement c id) (usedBytes_removeElement_le c id)

/-- A cache that is over its limit has an element to remove. -/
theorem WF.list_ne_nil (hc : c.WF) (hover : 0 < c.maxBytes ∧ c.maxBytes < c.usedBytes) :
    c.list ≠ [] := by
  intro hnil
  have hused := hc.used
  rw [hnil] at hused
  simp only [List.map_nil, List.sum_nil] at hused
  omega

/-- Removing the front element makes the list shorter. -/
theorem length_removeElement_front {e : Entry V} {rest : List (Nat × Entry V)} (hc : c.WF)
    (hlist : c.list = (id, e) :: rest) : (c.removeElement id).list.length < c.list.length := by
  have hmem : (id, e) ∈ c.list := by
    rw [hlist]
    exact List.mem_cons_self ..
  simp only [removeElement, hc.entry_of_mem hmem]
  apply List.length_filter_lt_length_iff_exists.2
  exact ⟨(id, e), hmem, by simp⟩

theorem maxBytes_evictOverflow (n : Nat) (c : LruCache V) :
    (evictOverflow n c).maxBytes = c.maxBytes := by
  fun_induction evictOverflow n c with
  | case1 c => rfl
  | case2 c n hover hlist => rfl
  | case3 n c hover id e rest hlist ih => exact ih.trans (maxBytes_removeElement c id)
  | case4 c n hover => rfl

/-- **The capacity loop ends within the limit**: a round for every element is enough. -/
theorem evictOverflow_within (n : Nat) (hc : c.WF) (hn : c.list.length ≤ n) :
    (evictOverflow n c).Within := by
  fun_induction evictOverflow n c with
  | case1 c =>
    have hnil : c.list = [] := List.eq_nil_of_length_eq_zero (Nat.le_zero.1 hn)
    intro hpos
    by_contra hover
    exact hc.list_ne_nil ⟨hpos, Int.not_le.1 hover⟩ hnil
  | case2 c n hover hlist => exact absurd hlist (hc.list_ne_nil hover)
  | case3 c n hover id e rest hlist ih =>
    apply ih (hc.removeElement id)
    have := length_removeElement_front hc hlist
    omega
  | case4 c n hover =>
    intro hpos
    by_contra hlt
    exact hover ⟨hpos, Int.not_le.1 hlt⟩

theorem evictOverflow_of_nil (n : Nat) (hc : c.WF) (hnil : c.list = []) :
    evictOverflow n c = c := by
  have hover : ¬ (0 < c.maxBytes ∧ c.maxBytes < c.usedBytes) := fun h => hc.list_ne_nil h hnil
  cases n with
  | zero => rfl
  | succ n => rw [evictOverflow, if_neg hover]

/-- More rounds change nothing. -/
theorem evictOverflow_enough (n m : Nat) (hc : c.WF) (hn : c.list.length ≤ n)
    (hm : c.list.length ≤ m) : evictOverflow n c = evictOverflow m c := by
  induction n generalizing c m with
  | zero =>
    have hnil : c.list = [] := List.eq_nil_of_length_eq_zero (Nat.le_zero.1 hn)
    rw [evictOverflow_of_nil 0 hc hnil, evictOverflow_of_nil m hc hnil]
  | succ n ih =>
    cases m with
    | zero =>
      have hnil : c.list = [] := List.eq_nil_of_length_eq_zero (Nat.le_zero.1 hm)
      rw [evictOverflow_of_nil 0 hc hnil, evictOverflow_of_nil (n + 1) hc hnil]
    | succ m =>
      simp only [evictOverflow]
      split
      · split
        · rfl
        · next id e rest hlist =>
          have hshort := length_removeElement_front hc hlist
          exact ih m (hc.removeElement id) (by omega) (by omega)
      · rfl

/-! ## The operations stay within the limit -/

theorem maxBytes_evictExpired (now : Time) (keys : List GoString) (c : LruCache V) :
    (evictExpired now keys c).maxBytes = c.maxBytes := by
  induction keys generalizing c with
  | nil => rfl
  | cons key keys ih =>
    rw [evictExpired, ih]
    split
    · split
      · exact maxBytes_removeElement c _
      · rfl
    · rfl

theorem maxBytes_evictLocked (order : List GoString) (now : Time) (c : LruCache V) :
    (evictLocked order now c).maxBytes = c.maxBytes := by
  unfold evictLocked
  rw [maxBytes_evictOverflow, maxBytes_evictExpired]

theorem WF.evictLocked_within (hc : c.WF) (order : List GoString) (now : Time) :
    (LruCache.evictLocked order now c).Within :=
  evictOverflow_within _ (evictExpired_spec now _ hc).1 (Nat.le_refl _)

omit [Value V] in
theorem moveToBack_bytes (c : LruCache V) (id : Nat) :
    (c.moveToBack id).maxBytes = c.maxBytes ∧ (c.moveToBack id).usedBytes = c.usedBytes := by
  rw [moveToBack_eq]
  exact ⟨rfl, rfl⟩

omit [Value V] in
theorem Within.moveToBack (h : c.Within) (id : Nat) : (c.moveToBack id).Within :=
  h.congr (moveToBack_bytes c id).1 (Int.le_of_eq (moveToBack_bytes c id).2)

theorem Within.get (h : c.Within) (now : Time) (key : GoString) : (c.get now key).2.Within := by
  unfold LruCache.get
  split
  · exact h
  · split
    · exact h.removeElement _
    · exact h.moveToBack _

/-- `GetWithExpiration` leaves what `Get` leaves, and finds the same value. -/
theorem getWithExpiration_eq (now : Time) (key : GoString) (c : LruCache V) :
    (c.getWithExpiration now key).2 = (c.get now key).2 ∧
      (c.getWithExpiration now key).1.map Prod.fst = (c.get now key).1 := by
  unfold LruCache.getWithExpiration LruCache.get
  cases c.items.lookup key with
  | none => exact ⟨rfl, rfl⟩
  | some id =>
    cases hexp : c.expires.lookup key with
    | none => simp [Expired, Function.comp_def]
    | some exp =>
      by_cases hlt : now < exp
      · simp [Expired, hlt, Function.comp_def]
      · simp [Expired, not_lt.1 hlt]

theorem Within.delete (h : c.Within) (key : GoString) : (c.delete key).2.Within := by
  unfold LruCache.delete
  split
  · exact h.removeElement _
  · exact h

theorem WF.setWithExpiration_within (hc : c.WF) (h : c.Within) (key : GoString) (value : Option V)
    (expiration : Duration) (now later : Time) (order : List GoString) :
    (c.setWithExpiration key value expiration now later order).Within := by
  cases value with
  | none => exact h.delete key
  | some v =>
    obtain ⟨c₁, h₁, -, he⟩ := hc.setWithExpiration_eq key v expiration now later order
    rw [he]
    exact h₁.evictLocked_within order later

omit [Value V] in
theorem within_clear (c : LruCache V) (order : List GoString) : (c.clear order).Within :=
  Int.le_of_lt

theorem maxBytes_delete (key : GoString) (c : LruCache V) :
    (c.delete key).2.maxBytes = c.maxBytes := by
  unfold LruCache.delete
  split
  · exact maxBytes_removeElement c _
  · rfl

theorem maxBytes_get (now : Time) (key : GoString) (c : LruCache V) :
    (c.get now key).2.maxBytes = c.maxBytes := by
  unfold LruCache.get
  split
  · rfl
  · split
    · exact maxBytes_removeElement c _
    · exact (moveToBack_bytes c _).1

theorem maxBytes_setWithExpiration (key : GoString) (value : Option V) (expiration : Duration)
    (now later : Time) (order : List GoString) (c : LruCache V) :
    (c.setWithExpiration key value expiration now later order).maxBytes = c.maxBytes := by
  cases value with
  | none => exact maxBytes_delete key c
  | some v =>
    unfold LruCache.setWithExpiration
    dsimp only
    split
    · split
      · rw [maxBytes_evictLocked, (moveToBack_bytes _ _).1]
        rfl
      · rfl
    · rw [maxBytes_evictLocked]
      rfl

/-! ## Runs -/

/-- A call on the cache with what the runtime decides: its clock readings, and the orders in which
ranges over maps visit the keys. -/
inductive Call (V : Type) where
  | get (now : Time) (key : GoString)
  | getWithExpiration (now : Time) (key : GoString)
  | set (key : GoString) (value : Option V) (now later : Time) (order : List GoString)
  | setWithExpiration (key : GoString) (value : Option V) (expiration : Duration)
      (now later : Time) (order : List GoString)
  | delete (key : GoString)
  | clear (order : List GoString)
  | cleanupExpired (order : List GoString) (now : Time)

/-- The cache after a call. -/
def Call.run : Call V → LruCache V → LruCache V
  | .get now key, c => (c.get now key).2
  | .getWithExpiration now key, c => (c.getWithExpiration now key).2
  | .set key value now later order, c => c.set key value now later order
  | .setWithExpiration key value expiration now later order, c =>
    c.setWithExpiration key value expiration now later order
  | .delete key, c => (c.delete key).2
  | .clear order, c => c.clear order
  | .cleanupExpired order now, c => c.cleanupExpired order now

/-- The cache after the calls, in order. -/
def runs (calls : List (Call V)) (c : LruCache V) : LruCache V :=
  calls.foldl (fun c call => call.run c) c

theorem WF.run (hc : c.WF) (call : Call V) : (call.run c).WF := by
  cases call with
  | get now key => exact hc.get now key
  | getWithExpiration now key =>
    show (c.getWithExpiration now key).2.WF
    rw [(getWithExpiration_eq now key c).1]
    exact hc.get now key
  | set key value now later order => exact hc.setWithExpiration key value 0 now later order
  | setWithExpiration key value expiration now later order =>
    exact hc.setWithExpiration key value expiration now later order
  | delete key => exact hc.delete key
  | clear order => exact WF.clear c order
  | cleanupExpired order now => exact hc.evictLocked order now

theorem WF.run_within (hc : c.WF) (h : c.Within) (call : Call V) : (call.run c).Within := by
  cases call with
  | get now key => exact h.get now key
  | getWithExpiration now key =>
    show (c.getWithExpiration now key).2.Within
    rw [(getWithExpiration_eq now key c).1]
    exact h.get now key
  | set key value now later order => exact hc.setWithExpiration_within h key value 0 now later order
  | setWithExpiration key value expiration now later order =>
    exact hc.setWithExpiration_within h key value expiration now later order
  | delete key => exact h.delete key
  | clear order => exact within_clear c order
  | cleanupExpired order now => exact hc.evictLocked_within order now

/-- The limit is never changed. -/
theorem maxBytes_run (call : Call V) (c : LruCache V) : (call.run c).maxBytes = c.maxBytes := by
  cases call with
  | get now key => exact maxBytes_get now key c
  | getWithExpiration now key =>
    show (c.getWithExpiration now key).2.maxBytes = c.maxBytes
    rw [(getWithExpiration_eq now key c).1]
    exact maxBytes_get now key c
  | set key value now later order => exact maxBytes_setWithExpiration key value 0 now later order c
  | setWithExpiration key value expiration now later order =>
    exact maxBytes_setWithExpiration key value expiration now later order c
  | delete key => exact maxBytes_delete key c
  | clear order => rfl
  | cleanupExpired order now => exact maxBytes_evictLocked order now c

theorem maxBytes_runs (calls : List (Call V)) (c : LruCache V) :
    (LruCache.runs calls c).maxBytes = c.maxBytes := by
  induction calls generalizing c with
  | nil => rfl
  | cons call calls ih => exact (ih (call.run c)).trans (maxBytes_run call c)

theorem WF.runs (hc : c.WF) (h : c.Within) (calls : List (Call V)) :
    (LruCache.runs calls c).WF ∧ (LruCache.runs calls c).Within := by
  induction calls generalizing c with
  | nil => exact ⟨hc, h⟩
  | cons call calls ih => exact ih (hc.run call) (hc.run_within h call)

/-- **The structures of a cache stay in step.** After any calls the list has no key twice, the map
of items points from each key to its own element, a deadline belongs to an item, and the byte count
is the sum over the list, within the limit if there is one. The capacity loop only ever looks at a
list that has a front, and it ends: a round for every element is enough to get within the limit. -/
theorem lru_invariants (maxBytes : Int) (onEvicted : Bool) (calls : List (Call V)) :
    (((LruCache.empty maxBytes onEvicted).runs calls).list.map (·.2.key)).Nodup ∧
    (∀ k id, ((LruCache.empty maxBytes onEvicted).runs calls).items.lookup k = some id ↔
      ∃ v, (id, ⟨k, v⟩) ∈ ((LruCache.empty maxBytes onEvicted).runs calls).list) ∧
    (((LruCache.empty maxBytes onEvicted).runs calls).list.map (·.1)).Nodup ∧
    (∀ k, k ∈ ((LruCache.empty maxBytes onEvicted).runs calls).expires →
      k ∈ ((LruCache.empty maxBytes onEvicted).runs calls).items) ∧
    ((LruCache.empty maxBytes onEvicted).runs calls).usedBytes =
      (((LruCache.empty maxBytes onEvicted).runs calls).list.map fun x =>
        (x.2.key.length : Int) + Value.len x.2.value).sum ∧
    (0 < maxBytes → ((LruCache.empty maxBytes onEvicted).runs calls).usedBytes ≤ maxBytes) ∧
    ∀ c : LruCache V, c.WF → (0 < c.maxBytes ∧ c.maxBytes < c.usedBytes → c.list ≠ []) ∧
      ∀ n, c.list.length ≤ n → evictOverflow n c = evictOverflow c.list.length c ∧
        ¬ (0 < (evictOverflow n c).maxBytes ∧
          (evictOverflow n c).maxBytes < (evictOverflow n c).usedBytes) := by
  obtain ⟨hwf, hwithin⟩ := (WF.empty maxBytes onEvicted : (LruCache.empty maxBytes onEvicted :
    LruCache V).WF).runs Int.le_of_lt calls
  have hmax := maxBytes_runs calls (LruCache.empty maxBytes onEvicted : LruCache V)
  refine ⟨hwf.keys, hwf.items, hwf.ids, hwf.expires, ?_, ?_, ?_⟩
  · rw [hwf.used]
    rfl
  · intro hpos
    unfold Within at hwithin
    rw [hmax] at hwithin
    exact hwithin hpos
  · intro c hc
    refine ⟨hc.list_ne_nil, ?_⟩
    intro n hn
    refine ⟨evictOverflow_enough n _ hc hn (Nat.le_refl _), ?_⟩
    intro ⟨hpos, hover⟩
    exact absurd (evictOverflow_within n hc hn hpos) (Int.not_le.2 hover)

/-- Bytes are charged for by their number. -/
instance : Value Bytes := ⟨List.length⟩

/-- Two stores, the second of which goes over the limit. -/
def twoSets : List (Call Bytes) :=
  [.set (ascii "a") (some [1, 2]) 0 0 [], .set (ascii "b") (some [3]) 0 0 []]

theorem twoSets_within :
    ((LruCache.empty 4 false).runs twoSets).usedBytes ≤ 4 ∧
    ((LruCache.empty 4 false).runs twoSets).usedBytes =
      (((LruCache.empty 4 false).runs twoSets).list.map fun x =>
        (x.2.key.length : Int) + Value.len x.2.value).sum ∧
    evictOverflow 2 (LruCache.empty 4 false : LruCache Bytes) =
      evictOverflow 0 (LruCache.empty 4 false) := by
  obtain ⟨-, -, -, -, hused, hwithin, hloop⟩ := lru_invariants 4 false twoSets
  obtain ⟨-, hends⟩ := hloop (LruCache.empty 4 false) (WF.empty 4 false)
  exact ⟨hwithin (by decide), hused, (hends 2 (Nat.zero_le 2)).1⟩

end Locache.Store.LruCache
