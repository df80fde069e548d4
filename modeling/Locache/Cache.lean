import Locache.Store.Store

/-!
# The node-local cache

`Cache` wraps a store and holds byte views; a closed cache misses on every lookup and ignores
every write. The counters of hits and misses are read by `Stats` only and are left out.

What the group's reasoning needs of a cache is what a lookup at a given time would return
(`Cache.live`), and a bound on the deadlines of its entries (`Cache.Bounded`): entries written
with a lifetime `d` before the clock reached `t` are gone at `t + d`.
-/

namespace Locache

open Store (Expired)

/-- An immutable view of cached bytes. -/
structure ByteView where
  b : Bytes
  deriving DecidableEq, Repr

def ByteView.len (v : ByteView) : Nat := v.b.length

/-- The copy `ByteSlice` returns. -/
def ByteView.byteSlice (v : ByteView) : Bytes := v.b

instance : Store.Value ByteView := ⟨ByteView.len⟩

structure Cache where
  store : Store ByteView
  closed : Bool

namespace Cache

def add (key : GoString) (value : ByteView) (now later : Time) (order : List GoString)
    (c : Cache) : Cache :=
  if c.closed then c else { c with store := c.store.set key (some value) now later order }

/-- The remaining time, as `time.Until(expirationTime)` reads it at `now`. -/
def ttl (expirationTime now : Time) : Duration := expirationTime - now

/-- The part of `AddWithExpiration` after the remaining time has been read. -/
def addFor (key : GoString) (value : ByteView) (ttl : Duration) (now later : Time)
    (order : List GoString) (c : Cache) : Cache :=
  if c.closed then c
  else if ttl ≤ 0 then c
  else { c with store := c.store.setWithExpiration key (some value) ttl now later order }

/-- The whole of `AddWithExpiration`, its clock readings in the order they are taken. -/
def addWithExpiration (key : GoString) (value : ByteView) (expirationTime : Time)
    (untilNow now later : Time) (order : List GoString) (c : Cache) : Cache :=
  c.addFor key value (ttl expirationTime untilNow) now later order

def get (now : Time) (key : GoString) (c : Cache) : Option ByteView × Cache :=
  if c.closed then (none, c)
  else ((c.store.get now key).1, { c with store := (c.store.get now key).2 })

def delete (key : GoString) (c : Cache) : Bool × Cache :=
  if c.closed then (false, c)
  else ((c.store.delete key).1, { c with store := (c.store.delete key).2 })

def clear (order : List GoString) (c : Cache) : Cache :=
  if c.closed then c else { c with store := c.store.clear order }

def clearShard (i : Nat) (order : List GoString) (c : Cache) : Cache :=
  if c.closed then c else { c with store := c.store.clearShard i order }

def cleanupShard (i : Nat) (order : List GoString) (now : Time) (c : Cache) : Cache :=
  { c with store := c.store.cleanupShard i order now }

def close (c : Cache) : Cache := { c with closed := true }

/-! ## The cache as a map -/

/-- The value and deadline stored under a key. -/
def view (c : Cache) (k : GoString) : Option (ByteView × Option Time) :=
  if c.closed then none else c.store.view k

/-- What a lookup at `now` would return. -/
def live (c : Cache) (now : Time) (k : GoString) : Option ByteView :=
  (c.view k).bind fun x => if Expired x.2 now then none else some x.1

def WF (c : Cache) : Prop := c.store.WF

/-- Every deadline is set and at most `bound`. -/
def Bounded (c : Cache) (bound : Time) : Prop :=
  ∀ k v d, c.view k = some (v, d) → ∃ exp, d = some exp ∧ exp ≤ bound

variable {c : Cache} {k key : GoString} {v w : ByteView} {now t : Time}

theorem live_eq_some :
    c.live now k = some v ↔ ∃ d, c.view k = some (v, d) ∧ ¬ Expired d now := by
  unfold live
  cases hv : c.view k with
  | none => simp
  | some x =>
    obtain ⟨w, d⟩ := x
    simp only [Option.bind_some, Option.some.injEq, Prod.mk.injEq]
    split
    · next h =>
      simp only [reduceCtorEq, false_iff, not_exists, not_and, not_not]
      rintro d' ⟨-, rfl⟩
      exact h
    · next h =>
      rw [Option.some.injEq]
      exact ⟨fun e => ⟨d, ⟨e, rfl⟩, h⟩, fun ⟨_, ⟨e, _⟩, _⟩ => e⟩

/-- What is live later was live before, as long as nothing is written. -/
theorem live_mono (ht : now ≤ t) (h : c.live t k = some v) : c.live now k = some v := by
  obtain ⟨d, hv, he⟩ := live_eq_some.1 h
  exact live_eq_some.2 ⟨d, hv, fun hx => he (hx.mono ht)⟩

/-- A cache with fewer entries finds no more, and finds it no later. -/
theorem live_of_view {c' : Cache} (h : ∀ x, c'.view k = some x → c.view k = some x)
    (ht : now ≤ t) (hv : c'.live t k = some v) : c.live now k = some v := by
  obtain ⟨d, hd, he⟩ := live_eq_some.1 hv
  exact live_eq_some.2 ⟨d, h _ hd, fun hx => he (hx.mono ht)⟩

/-! ## Lookups -/

theorem get_fst (hc : c.WF) (now : Time) (key : GoString) : (c.get now key).1 = c.live now key := by
  unfold get live view
  split
  · rfl
  · exact Store.WF.get_fst hc now key

theorem WF.get (hc : c.WF) (now : Time) (key : GoString) : (c.get now key).2.WF := by
  unfold Cache.get
  split
  · exact hc
  · exact Store.WF.get hc now key

theorem view_get (hc : c.WF) (now : Time) (key : GoString) {x : ByteView × Option Time}
    (h : (c.get now key).2.view k = some x) : c.view k = some x := by
  unfold Cache.get at h
  split at h
  · exact h
  · next hcl =>
    have hview := Store.WF.view_get hc now key k
    simp only [view, hcl, Bool.false_eq_true, ↓reduceIte] at h ⊢
    rcases hview with h' | ⟨-, h', -⟩
    · rw [← h']; exact h
    · rw [h'] at h; cases h

/-! ## Writes -/

/-- A lookup does not remove an entry without a deadline. -/
theorem view_get_of_timeless (hc : c.WF) (now : Time) (key : GoString) {v : ByteView}
    (h : c.view k = some (v, none)) : (c.get now key).2.view k = some (v, none) := by
  unfold Cache.get
  split
  · exact h
  · next hcl =>
    have hview := Store.WF.view_get hc now key k
    simp only [view, hcl, Bool.false_eq_true, ↓reduceIte] at h ⊢
    rcases hview with h' | ⟨-, -, hexp⟩
    · rw [h']
      exact h
    · exact (hexp _ h).elim

theorem WF.addFor (hc : c.WF) (key : GoString) (v : ByteView) (d : Duration) (now later : Time)
    (order : List GoString) : (c.addFor key v d now later order).WF := by
  unfold Cache.addFor
  split
  · exact hc
  · split
    · exact hc
    · exact Store.WF.setWithExpiration hc _ _ _ _ _ _

theorem view_addFor (hc : c.WF) (key : GoString) (v : ByteView) (d : Duration) (now later : Time)
    (order : List GoString) {x : ByteView × Option Time}
    (h : (c.addFor key v d now later order).view k = some x) :
    k = key ∧ x = (v, some (now + d)) ∧ 0 < d ∨ c.view k = some x ∧ (k = key → d ≤ 0) := by
  unfold Cache.addFor at h
  split at h
  · next hcl => simp [view, hcl] at h
  · next hcl =>
    split at h
    · next hd => exact Or.inr ⟨h, fun _ => hd⟩
    · next hd =>
      simp only [view, hcl, Bool.false_eq_true, ↓reduceIte] at h ⊢
      rcases Store.WF.view_setWithExpiration hc key v d now later order h with ⟨hk, rfl⟩ | ⟨hk, h⟩
      · exact Or.inl ⟨hk, by simp [Store.LruCache.deadline, not_le.1 hd], not_le.1 hd⟩
      · exact Or.inr ⟨h, fun e => absurd e hk⟩

theorem WF.add (hc : c.WF) (key : GoString) (v : ByteView) (now later : Time)
    (order : List GoString) : (c.add key v now later order).WF := by
  unfold Cache.add
  split
  · exact hc
  · exact Store.WF.setWithExpiration hc _ _ _ _ _ _

theorem view_add (hc : c.WF) (key : GoString) (v : ByteView) (now later : Time)
    (order : List GoString) {x : ByteView × Option Time}
    (h : (c.add key v now later order).view k = some x) :
    k = key ∧ x = (v, none) ∨ k ≠ key ∧ c.view k = some x := by
  unfold Cache.add at h
  split at h
  · next hcl => simp [view, hcl] at h
  · next hcl =>
    simp only [view, hcl, Bool.false_eq_true, ↓reduceIte] at h ⊢
    rcases Store.WF.view_setWithExpiration hc key v 0 now later order h with ⟨hk, rfl⟩ | ⟨hk, h⟩
    · exact Or.inl ⟨hk, by simp [Store.LruCache.deadline]⟩
    · exact Or.inr ⟨hk, h⟩

theorem WF.delete (hc : c.WF) (key : GoString) : (c.delete key).2.WF := by
  unfold Cache.delete
  split
  · exact hc
  · exact Store.WF.delete hc key

theorem view_delete (hc : c.WF) (key k : GoString) :
    (c.delete key).2.view k = if k = key then none else c.view k := by
  unfold Cache.delete
  split
  · next hcl => simp [view, hcl]
  · next hcl =>
    simp only [view, hcl, Bool.false_eq_true, ↓reduceIte]
    exact Store.WF.view_delete hc key k

theorem WF.clear (hc : c.WF) (order : List GoString) : (c.clear order).WF := by
  unfold Cache.clear
  split
  · exact hc
  · exact Store.WF.clear hc order

theorem view_clear (c : Cache) (order : List GoString) (k : GoString) :
    (c.clear order).view k = none := by
  unfold Cache.clear
  split
  · next hcl => simp [view, hcl]
  · next hcl =>
    simp only [view, hcl, Bool.false_eq_true, ↓reduceIte]
    exact Store.view_clear c.store order k

theorem WF.clearShard (hc : c.WF) (i : Nat) (order : List GoString) :
    (c.clearShard i order).WF := by
  unfold Cache.clearShard
  split
  · exact hc
  · exact Store.WF.clearShard hc i order

theorem view_clearShard (c : Cache) (i : Nat) (order : List GoString) {x : ByteView × Option Time}
    (h : (c.clearShard i order).view k = some x) : c.view k = some x := by
  unfold Cache.clearShard at h
  split at h
  · exact h
  · next hcl =>
    simp only [view, hcl, Bool.false_eq_true, ↓reduceIte] at h ⊢
    rcases Store.view_clearShard c.store i order k with h' | h'
    · rw [h'] at h; cases h
    · rw [← h']; exact h

theorem WF.cleanupShard (hc : c.WF) (i : Nat) (order : List GoString) (now : Time) :
    (c.cleanupShard i order now).WF :=
  Store.WF.cleanupShard hc i order now

theorem view_cleanupShard (hc : c.WF) (i : Nat) (order : List GoString) (now : Time)
    {x : ByteView × Option Time} (h : (c.cleanupShard i order now).view k = some x) :
    c.view k = some x := by
  simp only [view, cleanupShard] at h ⊢
  cases hcl : c.closed with
  | true => simp [hcl] at h
  | false =>
    simp only [hcl, Bool.false_eq_true, ↓reduceIte] at h ⊢
    exact Store.WF.view_cleanupShard hc i order now h

theorem WF.close (hc : c.WF) : c.close.WF := hc

theorem view_close (c : Cache) (k : GoString) : c.close.view k = none := by
  simp [view, Cache.close]

/-- An empty cache over a plain LRU store. -/
def newLRU (maxBytes : Int) : Cache := ⟨.lru (.empty maxBytes false), false⟩

theorem wf_newLRU (maxBytes : Int) : (newLRU maxBytes).WF :=
  Store.LruCache.WF.empty maxBytes false

theorem view_newLRU (maxBytes : Int) (k : GoString) : (newLRU maxBytes).view k = none :=
  rfl

end Cache

end Locache
