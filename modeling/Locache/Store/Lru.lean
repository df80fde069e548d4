import Locache.Go
import Mathlib.Algebra.Order.Ring.Int
import Mathlib.Data.List.Nodup

/-!
# The LRU cache

`lruCache` of `store/lru.go`: a list of elements from least to most recently used, a map from keys
to elements, a map of deadlines and a byte count. List elements are pointers in the source, so an
element carries an identity here and `items` maps to identities. The clock readings an operation
takes are arguments, and so is the order in which the range over `expires` visits its keys. The
calls of `onEvicted` are recorded, newest first.

`LruCache.WF` is the representation invariant that ties the structures together. Under it a cache
is a partial map from keys to a value with its deadline (`LruCache.view`), and each operation is
described by what it does to that map: a lookup changes only an expired entry, a store adds its
entry and may drop others, a deletion removes its key only.
-/

namespace Locache.Store

/-- The contract of a cached value: its length in bytes. -/
class Value (V : Type) where
  len : V → Nat

structure Entry (V : Type) where
  key : GoString
  value : V
  deriving DecidableEq

structure LruCache (V : Type) where
  list : List (Nat × Entry V)
  items : AList fun _ : GoString => Nat
  expires : AList fun _ : GoString => Time
  maxBytes : Int
  usedBytes : Int
  onEvicted : Bool
  evicted : List (GoString × V)
  nextElem : Nat

/-- The deadline has been reached: `!now.Before(exp)`. -/
def Expired (deadline : Option Time) (now : Time) : Prop :=
  match deadline with
  | none => False
  | some exp => ¬ now < exp

instance (deadline : Option Time) (now : Time) : Decidable (Expired deadline now) :=
  match deadline with
  | none => inferInstanceAs (Decidable False)
  | some exp => inferInstanceAs (Decidable (¬ now < exp))

/-- An expired entry stays expired. -/
theorem Expired.mono {deadline : Option Time} {now later : Time} (h : Expired deadline now)
    (hle : now ≤ later) : Expired deadline later := by
  cases deadline with
  | none => exact h
  | some exp => exact fun hlt => h (Int.lt_of_le_of_lt hle hlt)

namespace LruCache

variable {V : Type}

def empty (maxBytes : Int) (onEvicted : Bool) : LruCache V :=
  ⟨[], ∅, ∅, maxBytes, 0, onEvicted, [], 0⟩

/-- The entry an element holds: `elem.Value.(*lruEntry)`. -/
def entry (c : LruCache V) (id : Nat) : Option (Entry V) :=
  (c.list.find? fun x => x.1 = id).map (·.2)

def moveToBack (c : LruCache V) (id : Nat) : LruCache V :=
  match c.entry id with
  | none => c
  | some e => { c with list := c.list.filter (fun x => x.1 ≠ id) ++ [(id, e)] }

variable [Value V]

def removeElement (c : LruCache V) (id : Nat) : LruCache V :=
  match c.entry id with
  | none => c
  | some e =>
    { c with
      list := c.list.filter fun x => x.1 ≠ id
      items := c.items.erase e.key
      expires := c.expires.erase e.key
      usedBytes := c.usedBytes - (e.key.length + Value.len e.value : Nat)
      evicted := if c.onEvicted then (e.key, e.value) :: c.evicted else c.evicted }

/-- The range over `expires` in `evictLocked`: the keys still to visit. -/
def evictExpired (now : Time) : List GoString → LruCache V → LruCache V
  | [], c => c
  | key :: keys, c =>
    evictExpired now keys <|
      if Expired (c.expires.lookup key) now then
        match c.items.lookup key with
        | some id => c.removeElement id
        | none => c
      else c

/-- The capacity loop of `evictLocked`; every round takes one element off the list, so the length
of the list is enough fuel. -/
def evictOverflow : Nat → LruCache V → LruCache V
  | 0, c => c
  | n + 1, c =>
    if 0 < c.maxBytes ∧ c.maxBytes < c.usedBytes then
      match c.list with
      | [] => c
      | (id, _) :: _ => evictOverflow n (c.removeElement id)
    else c

def evictLocked (order : List GoString) (now : Time) (c : LruCache V) : LruCache V :=
  let c := evictExpired now (rangeKeys order c.expires) c
  evictOverflow c.list.length c

def get (now : Time) (key : GoString) (c : LruCache V) : Option V × LruCache V :=
  match c.items.lookup key with
  | none => (none, c)
  | some id =>
    if Expired (c.expires.lookup key) now then (none, c.removeElement id)
    else ((c.entry id).map (·.value), c.moveToBack id)

/-- The value with the time it has left, which is zero for an entry without a deadline. -/
def getWithExpiration (now : Time) (key : GoString) (c : LruCache V) :
    Option (V × Duration) × LruCache V :=
  match c.items.lookup key with
  | none => (none, c)
  | some id =>
    match c.expires.lookup key with
    | some exp =>
      if ¬ now < exp then (none, c.removeElement id)
      else ((c.entry id).map fun e => (e.value, exp - now), c.moveToBack id)
    | none => ((c.entry id).map fun e => (e.value, 0), c.moveToBack id)

def delete (key : GoString) (c : LruCache V) : Bool × LruCache V :=
  match c.items.lookup key with
  | some id => (true, c.removeElement id)
  | none => (false, c)

/-- The deadline `SetWithExpiration` records. -/
def deadline (now : Time) (expiration : Duration) : Option Time :=
  if 0 < expiration then some (now + expiration) else none

/-- Overwrite the value of the element `id`, whose entry is `e`. -/
def overwrite (c : LruCache V) (id : Nat) (e : Entry V) (value : V) : LruCache V :=
  { c with
    usedBytes := c.usedBytes + ((Value.len value : Int) - Value.len e.value)
    list := c.list.map fun x => if x.1 = id then (id, ⟨e.key, value⟩) else x }

/-- Append a new element for a key that has none. -/
def pushBack (c : LruCache V) (key : GoString) (value : V) : LruCache V :=
  { c with
    list := c.list ++ [(c.nextElem, ⟨key, value⟩)]
    items := c.items.insert key c.nextElem
    usedBytes := c.usedBytes + (key.length + Value.len value : Nat)
    nextElem := c.nextElem + 1 }

def setExpires (c : LruCache V) (key : GoString) (d : Option Time) : LruCache V :=
  { c with
    expires := match d with
      | some exp => c.expires.insert key exp
      | none => c.expires.erase key }

/-- The store; `now` is read for the deadline, `later` in `evictLocked`. -/
def setWithExpiration (key : GoString) (value : Option V) (expiration : Duration)
    (now later : Time) (order : List GoString) (c : LruCache V) : LruCache V :=
  match value with
  | none => (c.delete key).2
  | some v =>
    let c := c.setExpires key (deadline now expiration)
    match c.items.lookup key with
    | some id =>
      match c.entry id with
      | some e => evictLocked order later ((c.overwrite id e v).moveToBack id)
      | none => c
    | none => evictLocked order later (c.pushBack key v)

def set (key : GoString) (value : Option V) (now later : Time) (order : List GoString)
    (c : LruCache V) : LruCache V :=
  c.setWithExpiration key value 0 now later order

def clear (order : List GoString) (c : LruCache V) : LruCache V :=
  { c with
    list := []
    items := ∅
    expires := ∅
    usedBytes := 0
    evicted :=
      if c.onEvicted then
        ((rangeKeys order c.items).filterMap fun k =>
          (c.items.lookup k).bind fun id => (c.entry id).map fun e => (e.key, e.value)).reverse
          ++ c.evicted
      else c.evicted }

def cleanupExpired (order : List GoString) (now : Time) (c : LruCache V) : LruCache V :=
  evictLocked order now c

def len (c : LruCache V) : Nat := c.list.length

/-! ## The representation invariant -/

/-- The bytes an entry is charged for. -/
def charge (x : Nat × Entry V) : Int := (x.2.key.length + Value.len x.2.value : Nat)

structure WF (c : LruCache V) : Prop where
  ids : (c.list.map (·.1)).Nodup
  keys : (c.list.map (·.2.key)).Nodup
  items : ∀ k id, c.items.lookup k = some id ↔ ∃ v, (id, ⟨k, v⟩) ∈ c.list
  expires : ∀ k, k ∈ c.expires → k ∈ c.items
  used : c.usedBytes = (c.list.map charge).sum
  fresh : ∀ x ∈ c.list, x.1 < c.nextElem

/-! ## Elements by identity and by key -/

theorem find?_of_mem {α β : Type} [DecidableEq β] {f : α → β} {l : List α}
    (hnd : (l.map f).Nodup) {x : α} (hx : x ∈ l) : l.find? (fun y => f y = f x) = some x := by
  induction l with
  | nil => cases hx
  | cons y l ih =>
    rw [List.map_cons, List.nodup_cons] at hnd
    by_cases hy : f y = f x
    · rcases List.mem_cons.1 hx with rfl | hx
      · simp
      · exact absurd (hy ▸ List.mem_map_of_mem hx) hnd.1
    · rcases List.mem_cons.1 hx with rfl | hx
      · exact absurd rfl hy
      · rw [List.find?_cons_of_neg (by simpa using hy)]
        exact ih hnd.2 hx

variable {c : LruCache V} {id : Nat} {e : Entry V} {k key : GoString}

omit [Value V] in
theorem mem_of_entry (h : c.entry id = some e) : (id, e) ∈ c.list := by
  simp only [entry, Option.map_eq_some_iff] at h
  obtain ⟨⟨i, e'⟩, hf, rfl⟩ := h
  have hi : i = id := by simpa using List.find?_some hf
  subst hi
  exact List.mem_of_find?_eq_some hf

omit [Value V] in
theorem entry_eq_none (h : c.entry id = none) : ∀ x ∈ c.list, x.1 ≠ id := by
  simp only [entry, Option.map_eq_none_iff, List.find?_eq_none] at h
  intro x hx
  simpa using h x hx

namespace WF

theorem entry_of_mem (hc : c.WF) (h : (id, e) ∈ c.list) : c.entry id = some e := by
  have := find?_of_mem (f := Prod.fst) hc.ids h
  simp only [entry, this, Option.map_some]

theorem entry_of_lookup (hc : c.WF) (h : c.items.lookup k = some id) :
    ∃ v, (id, ⟨k, v⟩) ∈ c.list ∧ c.entry id = some ⟨k, v⟩ := by
  obtain ⟨v, hv⟩ := (hc.items k id).1 h
  exact ⟨v, hv, hc.entry_of_mem hv⟩

theorem id_unique (hc : c.WF) {x y : Nat × Entry V} (hx : x ∈ c.list) (hy : y ∈ c.list)
    (h : x.1 = y.1) : x = y :=
  List.inj_on_of_nodup_map hc.ids hx hy h

theorem key_unique (hc : c.WF) {x y : Nat × Entry V} (hx : x ∈ c.list) (hy : y ∈ c.list)
    (h : x.2.key = y.2.key) : x = y :=
  List.inj_on_of_nodup_map hc.keys hx hy h

end WF

end LruCache

end Locache.Store
