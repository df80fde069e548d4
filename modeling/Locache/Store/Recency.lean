import Locache.Store.LruRuns
import Mathlib.Data.List.Infix

/-!
# The order of recency

The entries of a cache, listed from least to most recently used, determine what every operation
does: a hit moves its entry to the end, a store puts its entry at the end, drops what is expired and
then takes entries from the front until the rest fits. The rest is the longest suffix that fits
(`LruCache.evictOverflow_longest`), and it does not depend on the order in which the range over the
deadlines visits its keys (`WF.entries_evictExpired`).
-/

namespace Locache.Store

/-- An entry of a cache with its deadline. -/
structure Item (V : Type) where
  key : GoString
  value : V
  deadline : Option Time
  deriving DecidableEq

variable {V : Type}

/-- The entries of other keys. -/
def without (key : GoString) (l : List (Item V)) : List (Item V) := l.filter fun x => x.key ≠ key

/-- The entries that are not expired. -/
def unexpired (now : Time) (l : List (Item V)) : List (Item V) :=
  l.filter fun x => ¬ Expired x.deadline now

variable [Value V]

/-- The bytes an entry counts for. -/
def Item.size (x : Item V) : Nat := x.key.length + Value.len x.value

/-- `r` is the longest suffix of `l` whose sizes add up to at most `limit`. -/
structure LongestWithin (limit : Int) (l r : List (Item V)) : Prop where
  suffix : r <:+ l
  fits : ((r.map Item.size).sum : Int) ≤ limit
  longest : ∀ s, s <:+ l → ((s.map Item.size).sum : Int) ≤ limit → s.length ≤ r.length

namespace LongestWithin

variable {limit : Int} {l r : List (Item V)} {x : Item V}

/-- The last entry stays if it fits. -/
theorem mem_last (h : LongestWithin limit (l ++ [x]) r) (hsize : (x.size : Int) ≤ limit) :
    x ∈ r := by
  have hlong := h.longest [x] (List.suffix_append l [x]) (by simpa using hsize)
  rcases List.suffix_concat_iff.1 h.suffix with rfl | ⟨t, rfl, -⟩
  · exact absurd hlong (by simp)
  · exact List.mem_append_right t (List.mem_singleton_self x)

/-- If the last entry does not fit, nothing does. -/
theorem eq_nil (h : LongestWithin limit (l ++ [x]) r) (hsize : limit < x.size) : r = [] := by
  rcases List.suffix_concat_iff.1 h.suffix with rfl | ⟨t, rfl, -⟩
  · rfl
  · have hfits := h.fits
    rw [List.map_append, List.sum_append] at hfits
    simp only [List.map_cons, List.map_nil, List.sum_cons, List.sum_nil] at hfits
    omega

end LongestWithin

/-- What a limit leaves of a list of entries: the longest suffix within it, or all of them when
there is no limit. -/
structure Fitting (limit : Int) (l r : List (Item V)) : Prop where
  limited : 0 < limit → LongestWithin limit l r
  unlimited : limit ≤ 0 → r = l

theorem Fitting.sublist {limit : Int} {l r : List (Item V)} (h : Fitting limit l r) :
    r.Sublist l := by
  rcases Int.lt_or_le 0 limit with hpos | hle
  · exact (h.limited hpos).suffix.sublist
  · rw [h.unlimited hle]

namespace LruCache

variable {c : LruCache V} {id : Nat} {e : Entry V} {k key : GoString} {v w : V}

omit [Value V] in
/-- The item an element stands for. -/
def item (c : LruCache V) (x : Nat × Entry V) : Item V :=
  ⟨x.2.key, x.2.value, c.expires.lookup x.2.key⟩

omit [Value V] in
/-- The entries from least to most recently used. -/
def entries (c : LruCache V) : List (Item V) := c.list.map c.item

theorem WF.nodup_entries (hc : c.WF) : (c.entries.map Item.key).Nodup := by
  unfold entries
  rw [List.map_map]
  exact hc.keys

/-- The byte count is the sum over the entries. -/
theorem WF.used_entries (hc : c.WF) : c.usedBytes = (c.entries.map Item.size).sum := by
  rw [hc.used]
  unfold entries
  rw [List.map_map]
  induction c.list with
  | nil => rfl
  | cons x l ih =>
    simp only [List.map_cons, List.sum_cons, ih]
    push_cast
    rfl

omit [Value V] in
theorem mem_entries {x : Item V} : x ∈ c.entries ↔
    (∃ id, (id, ⟨x.key, x.value⟩) ∈ c.list) ∧ x.deadline = c.expires.lookup x.key := by
  unfold entries
  rw [List.mem_map]
  constructor
  · rintro ⟨⟨id, e⟩, hmem, rfl⟩
    exact ⟨⟨id, hmem⟩, rfl⟩
  · rintro ⟨⟨id, hmem⟩, hdeadline⟩
    refine ⟨_, hmem, ?_⟩
    unfold item
    rw [← hdeadline]

/-- The entry of a key is the item of its element. -/
theorem WF.eq_item (hc : c.WF) (hmem : (id, e) ∈ c.list) {x : Item V} (hx : x ∈ c.entries)
    (hkey : x.key = e.key) : x = c.item (id, e) := by
  obtain ⟨y, hy, rfl⟩ := List.mem_map.1 hx
  rw [hc.key_unique hy hmem hkey]

theorem WF.without_of_lookup_none (hc : c.WF) (hl : c.items.lookup key = none) :
    without key c.entries = c.entries := by
  rw [without, List.filter_eq_self]
  intro x hx
  refine decide_eq_true ?_
  rintro rfl
  obtain ⟨⟨id, hmem⟩, -⟩ := mem_entries.1 hx
  rw [(hc.items x.key id).2 ⟨x.value, hmem⟩] at hl
  cases hl

/-! ## Removing and moving elements -/

/-- Elements with another identity are the entries with another key. -/
theorem WF.filter_ids (hc : c.WF) (h : c.items.lookup key = some id) :
    c.list.filter (fun x => x.1 ≠ id) = c.list.filter fun x => x.2.key ≠ key := by
  obtain ⟨v, hmem, -⟩ := hc.entry_of_lookup h
  apply List.filter_congr
  intro x hx
  rw [decide_eq_decide, not_iff_not]
  constructor
  · intro hid
    rw [hc.id_unique hx hmem hid]
  · intro hkey
    rw [hc.key_unique hx hmem hkey]

omit [Value V] in
/-- Deadlines of other keys are those the entries had. -/
theorem map_item_filter {c' : LruCache V} (h : ∀ k, k ≠ key → c'.expires.lookup k =
    c.expires.lookup k) (l : List (Nat × Entry V)) :
    (l.filter fun x => x.2.key ≠ key).map c'.item = without key (l.map c.item) := by
  unfold without
  rw [List.filter_map]
  apply List.map_congr_left
  intro x hx
  have hne : x.2.key ≠ key := by simpa using (List.mem_filter.1 hx).2
  unfold item
  rw [h _ hne]

theorem WF.entries_removeElement (hc : c.WF) (h : c.items.lookup key = some id) :
    (c.removeElement id).entries = without key c.entries := by
  obtain ⟨v, hmem, he⟩ := hc.entry_of_lookup h
  have hlist : (c.removeElement id).list = c.list.filter fun x => x.2.key ≠ key := by
    rw [← hc.filter_ids h]
    simp only [LruCache.removeElement, he]
  unfold entries
  rw [hlist]
  apply map_item_filter
  intro k hk
  rw [hc.lookup_expires_removeElement hmem, if_neg hk]

theorem WF.entries_moveToBack (hc : c.WF) (h : c.items.lookup key = some id) :
    ∃ x ∈ c.entries, x.key = key ∧
      (c.moveToBack id).entries = without key c.entries ++ [x] := by
  obtain ⟨v, hmem, he⟩ := hc.entry_of_lookup h
  refine ⟨c.item (id, ⟨key, v⟩), List.mem_map_of_mem hmem, rfl, ?_⟩
  have hlist : (c.moveToBack id).list =
      (c.list.filter fun x => x.2.key ≠ key) ++ [(id, ⟨key, v⟩)] := by
    rw [← hc.filter_ids h]
    simp only [LruCache.moveToBack, he]
  have hexp : (c.moveToBack id).expires = c.expires := by rw [moveToBack_eq]
  unfold entries
  rw [hlist, List.map_append, map_item_filter (c := c) (by intro k _; rw [hexp])]
  simp only [List.map_cons, List.map_nil, item, hexp]

/-! ## The eviction passes -/

/-- The pass over the deadlines drops the expired entries among the keys it visits. -/
theorem WF.entries_evictExpired (hc : c.WF) (now : Time) (keys : List GoString) :
    (evictExpired now keys c).entries =
      c.entries.filter fun x => ¬ (x.key ∈ keys ∧ Expired x.deadline now) := by
  induction keys generalizing c with
  | nil => simp [evictExpired]
  | cons key keys ih =>
    rw [evictExpired]
    by_cases hexp : Expired (c.expires.lookup key) now
    · rw [if_pos hexp]
      cases hl : c.items.lookup key with
      | none =>
        -- a deadline belongs to an item, so there is none to be expired
        have hnone : c.expires.lookup key = none := by
          rw [AList.lookup_eq_none] at hl ⊢
          exact fun hmem => hl (hc.expires key hmem)
        rw [hnone] at hexp
        exact hexp.elim
      | some id =>
        rw [ih (hc.removeElement id), hc.entries_removeElement hl, without, List.filter_filter]
        apply List.filter_congr
        intro x hx
        have hdeadline := (mem_entries.1 hx).2
        rw [← Bool.decide_and, decide_eq_decide, List.mem_cons]
        by_cases hkey : x.key = key
        · rw [hkey] at hdeadline
          rw [← hdeadline] at hexp
          simp [hkey, hexp]
        · simp [hkey]
    · rw [if_neg hexp, ih hc]
      apply List.filter_congr
      intro x hx
      have hdeadline := (mem_entries.1 hx).2
      rw [decide_eq_decide, List.mem_cons]
      by_cases hkey : x.key = key
      · rw [hkey] at hdeadline
        rw [← hdeadline] at hexp
        simp [hexp]
      · simp [hkey]

/-- A range over the deadlines finds every expired entry, in whatever order. -/
theorem WF.entries_evictExpired_range (hc : c.WF) (now : Time) (order : List GoString) :
    (evictExpired now (rangeKeys order c.expires) c).entries =
      unexpired now c.entries := by
  rw [hc.entries_evictExpired, unexpired]
  apply List.filter_congr
  intro x hx
  have hdeadline := (mem_entries.1 hx).2
  rw [decide_eq_decide, mem_rangeKeys, not_iff_not]
  constructor
  · exact fun h => h.2
  · intro hexp
    refine ⟨?_, hexp⟩
    rw [← AList.lookup_isSome, ← hdeadline]
    cases hd : x.deadline with
    | none =>
      rw [hd] at hexp
      exact hexp.elim
    | some exp => rfl

/-- A cache that holds more than its limit has a front element, and removing it takes the first
entry away. -/
theorem WF.entries_removeElement_front {rest : List (Nat × Entry V)} (hc : c.WF)
    (hlist : c.list = (id, e) :: rest) :
    c.entries = c.item (id, e) :: (c.removeElement id).entries := by
  have hmem : (id, e) ∈ c.list := by
    rw [hlist]
    exact List.mem_cons_self ..
  have hl : c.items.lookup e.key = some id := (hc.items e.key id).2 ⟨e.value, hmem⟩
  have hkeys := hc.keys
  rw [hlist, List.map_cons, List.nodup_cons] at hkeys
  have hrest : without e.key (rest.map c.item) = rest.map c.item := by
    rw [without, List.filter_eq_self]
    intro x hx
    obtain ⟨y, hy, rfl⟩ := List.mem_map.1 hx
    refine decide_eq_true ?_
    intro heq
    exact hkeys.1 (heq ▸ List.mem_map_of_mem hy)
  rw [hc.entries_removeElement hl]
  unfold entries
  rw [hlist, List.map_cons, without, List.filter_cons_of_neg (by simp [item])]
  exact congrArg (c.item (id, e) :: ·) hrest.symm

/-- **The capacity loop leaves the longest suffix that fits.** -/
theorem evictOverflow_longest (n : Nat) (hc : c.WF) (hn : c.list.length ≤ n)
    (hpos : 0 < c.maxBytes) : LongestWithin c.maxBytes c.entries (evictOverflow n c).entries := by
  fun_induction evictOverflow n c with
  | case1 c =>
    have hnil : c.entries = [] := by
      unfold entries
      rw [List.eq_nil_of_length_eq_zero (Nat.le_zero.1 hn)]
      rfl
    rw [hnil]
    refine ⟨List.suffix_refl _, by simpa using Int.le_of_lt hpos, ?_⟩
    intro s hs _
    exact hs.length_le
  | case2 c n hover hlist => exact absurd hlist (hc.list_ne_nil hover)
  | case3 n c hover id e rest hlist ih =>
    have hshort := length_removeElement_front hc hlist
    have hmax := maxBytes_removeElement c id
    have hfront := hc.entries_removeElement_front hlist
    have hrec := ih (hc.removeElement id) (by omega) (by rw [hmax]; exact hpos)
    rw [hmax] at hrec
    refine ⟨?_, hrec.fits, ?_⟩
    · rw [hfront]
      exact hrec.suffix.trans (List.suffix_cons ..)
    · intro s hs hfits
      -- the whole list does not fit, so a suffix that fits lies behind the first entry
      rw [hfront, List.suffix_cons_iff] at hs
      rcases hs with rfl | hs
      · rw [← hfront, ← hc.used_entries] at hfits
        omega
      · exact hrec.longest s hs hfits
  | case4 c n hover =>
    refine ⟨List.suffix_refl _, ?_, fun s hs _ => hs.length_le⟩
    rw [← hc.used_entries]
    exact Int.not_lt.1 fun hlt => hover ⟨hpos, hlt⟩

/-- Without a limit the capacity loop does nothing. -/
theorem evictOverflow_of_unlimited (n : Nat) (c : LruCache V) (hmax : c.maxBytes ≤ 0) :
    evictOverflow n c = c := by
  cases n with
  | zero => rfl
  | succ n => rw [evictOverflow, if_neg fun h => absurd h.1 (Int.not_lt.2 hmax)]

theorem WF.entries_evictLocked (hc : c.WF) (order : List GoString) (now : Time) :
    Fitting c.maxBytes (unexpired now c.entries)
      (LruCache.evictLocked order now c).entries := by
  have hwf := (evictExpired_spec now (rangeKeys order c.expires) hc).1
  have hmax := maxBytes_evictExpired now (rangeKeys order c.expires) c
  rw [← hc.entries_evictExpired_range now order, ← hmax]
  constructor
  · exact evictOverflow_longest _ hwf (Nat.le_refl _)
  · intro hle
    unfold LruCache.evictLocked
    rw [evictOverflow_of_unlimited _ _ hle]

/-! ## Storing -/

/-- `c₁` is `c` with the entry of a store put at the end, before anything is evicted. -/
structure Placed (c c₁ : LruCache V) (key : GoString) (v : V) (d : Option Time) : Prop where
  wf : c₁.WF
  maxBytes : c₁.maxBytes = c.maxBytes
  onEvicted : c₁.onEvicted = c.onEvicted
  evicted : c₁.evicted = c.evicted
  entries : c₁.entries = without key c.entries ++ [⟨key, v, d⟩]

theorem WF.placed_pushBack (hc : c.WF) (hn : c.items.lookup key = none) (v : V) (d : Option Time) :
    Placed c ((c.setExpires key d).pushBack key v) key v d := by
  refine ⟨WF.pushBack hc hn, rfl, rfl, rfl, ?_⟩
  have hothers : ∀ k, k ≠ key →
      ((c.setExpires key d).pushBack key v).expires.lookup k = c.expires.lookup k := by
    intro k hk
    show (c.setExpires key d).expires.lookup k = c.expires.lookup k
    rw [lookup_setExpires, if_neg hk]
  have hown : ((c.setExpires key d).pushBack key v).expires.lookup key = d := by
    show (c.setExpires key d).expires.lookup key = d
    rw [lookup_setExpires, if_pos rfl]
  have hlist : c.list.map ((c.setExpires key d).pushBack key v).item = c.entries := by
    apply List.map_congr_left
    intro x hx
    have hne : x.2.key ≠ key := by
      rintro rfl
      rw [(hc.items x.2.key x.1).2 ⟨x.2.value, hx⟩] at hn
      cases hn
    unfold item
    rw [hothers _ hne]
  show (c.list ++ [(c.nextElem, (⟨key, v⟩ : Entry V))]).map _ = _
  rw [List.map_append, hlist, hc.without_of_lookup_none hn]
  simp only [List.map_cons, List.map_nil, item, hown]

/-- Overwriting the entry of a key changes nothing else. -/
theorem WF.filter_overwrite (hc : c.WF) (hm : (id, e) ∈ c.list) :
    (c.overwrite id e v).list.filter (fun x => x.2.key ≠ e.key) =
      c.list.filter fun x => x.2.key ≠ e.key := by
  unfold LruCache.overwrite
  dsimp only
  rw [List.filter_map]
  have hsame : ∀ x ∈ c.list, ((fun x : Nat × Entry V => decide (x.2.key ≠ e.key)) ∘
      fun x => if x.1 = id then (id, ⟨e.key, v⟩) else x) x = decide (x.2.key ≠ e.key) := by
    intro x hx
    simp only [Function.comp_apply]
    split
    · next hid => rw [hc.id_unique hx hm hid]
    · rfl
  rw [List.filter_congr hsame]
  conv_rhs => rw [← List.map_id (c.list.filter fun x => x.2.key ≠ e.key)]
  apply List.map_congr_left
  intro x hx
  obtain ⟨hx, hkey⟩ := List.mem_filter.1 hx
  rw [if_neg]
  · rfl
  · intro hid
    rw [hc.id_unique hx hm hid] at hkey
    simp at hkey

theorem WF.placed_overwrite (hc : c.WF) (hm : (id, ⟨key, w⟩) ∈ c.list) (v : V) (d : Option Time) :
    Placed c (((c.setExpires key d).overwrite id ⟨key, w⟩ v).moveToBack id) key v d := by
  have hwf := WF.overwrite (v := v) (d := d) hc hm
  have hlookup : ((c.setExpires key d).overwrite id ⟨key, w⟩ v).items.lookup key = some id :=
    (hc.items key id).2 ⟨w, hm⟩
  have hexp : ∀ k, ((c.setExpires key d).overwrite id ⟨key, w⟩ v).expires.lookup k =
      if k = key then d else c.expires.lookup k := lookup_setExpires d
  obtain ⟨x, hx, hkey, hentries⟩ := hwf.entries_moveToBack hlookup
  have hitem : x = ⟨key, v, d⟩ := by
    have hmem : (id, ⟨key, v⟩) ∈ ((c.setExpires key d).overwrite id ⟨key, w⟩ v).list :=
      (mem_overwrite (v := v) hm).2 (Or.inl rfl)
    rw [hwf.eq_item hmem hx hkey, item]
    simp only [hexp, ↓reduceIte]
  have hsame : without key ((c.setExpires key d).overwrite id ⟨key, w⟩ v).entries =
      without key c.entries := by
    have hothers : ∀ k, k ≠ key → ((c.setExpires key d).overwrite id ⟨key, w⟩ v).expires.lookup k =
        c.expires.lookup k := fun k hk => by rw [hexp, if_neg hk]
    unfold entries
    rw [← map_item_filter hothers, ← hc.filter_overwrite (v := v) hm]
    exact (map_item_filter (fun _ _ => rfl) _).symm
  refine ⟨hwf.moveToBack id, ?_, ?_, ?_, by rw [hentries, hsame, hitem]⟩
  all_goals rw [moveToBack_eq]; rfl

theorem WF.placed (hc : c.WF) (key : GoString) (v : V) (expiration : Duration) (now later : Time)
    (order : List GoString) : ∃ c₁, Placed c c₁ key v (deadline now expiration) ∧
      c.setWithExpiration key (some v) expiration now later order =
        LruCache.evictLocked order later c₁ := by
  have hitems : (c.setExpires key (deadline now expiration)).items = c.items := rfl
  cases hl : c.items.lookup key with
  | none =>
    refine ⟨_, hc.placed_pushBack hl v (deadline now expiration), ?_⟩
    simp only [LruCache.setWithExpiration, hitems, hl]
  | some id =>
    obtain ⟨w, hm, he⟩ := hc.entry_of_lookup hl
    have he' : (c.setExpires key (deadline now expiration)).entry id = some ⟨key, w⟩ := he
    refine ⟨_, hc.placed_overwrite hm v (deadline now expiration), ?_⟩
    simp only [LruCache.setWithExpiration, hitems, hl, he']

/-- **A store** puts its entry at the end, drops the expired entries and keeps what fits. -/
theorem WF.entries_setWithExpiration (hc : c.WF) (key : GoString) (v : V) (expiration : Duration)
    (now later : Time) (order : List GoString) :
    Fitting c.maxBytes
      (unexpired later (without key c.entries ++ [⟨key, v, deadline now expiration⟩]))
      (c.setWithExpiration key (some v) expiration now later order).entries := by
  obtain ⟨c₁, hplaced, heq⟩ := hc.placed key v expiration now later order
  rw [heq, ← hplaced.entries, ← hplaced.maxBytes]
  exact hplaced.wf.entries_evictLocked order later

/-! ## Looking up -/

/-- A lookup finds an entry that is not expired, and moves it to the end; otherwise it misses, and
takes away the entry of its key if there is one. -/
theorem WF.entries_get (hc : c.WF) (now : Time) (key : GoString) :
    (∃ x ∈ c.entries, x.key = key ∧ ¬ Expired x.deadline now ∧ (c.get now key).1 = some x.value ∧
      (c.get now key).2.entries = without key c.entries ++ [x]) ∨
    ((∀ x ∈ c.entries, x.key = key → Expired x.deadline now) ∧ (c.get now key).1 = none ∧
      (c.get now key).2.entries = without key c.entries) := by
  unfold LruCache.get
  cases hl : c.items.lookup key with
  | none =>
    have habsent := hc.without_of_lookup_none hl
    refine Or.inr ⟨?_, rfl, habsent.symm⟩
    intro x hx hkey
    rw [← habsent] at hx
    simp [without, hkey] at hx
  | some id =>
    obtain ⟨v, hmem, he⟩ := hc.entry_of_lookup hl
    by_cases hexp : Expired (c.expires.lookup key) now
    · refine Or.inr ⟨?_, ?_⟩
      · intro x hx hkey
        rw [hc.eq_item hmem hx hkey]
        exact hexp
      · simp only [hexp, ↓reduceIte, hc.entries_removeElement hl, and_self]
    · obtain ⟨x, hx, hkey, hentries⟩ := hc.entries_moveToBack hl
      have hxitem := hc.eq_item hmem hx hkey
      refine Or.inl ⟨x, hx, hkey, ?_, ?_⟩
      · rw [hxitem]
        exact hexp
      · simp only [hexp, ↓reduceIte, he, hentries, Option.map_some, and_true]
        rw [hxitem]
        rfl

/-- A deletion takes the entry of its key away. -/
theorem WF.entries_delete (hc : c.WF) (key : GoString) :
    (c.delete key).2.entries = without key c.entries := by
  unfold LruCache.delete
  cases hl : c.items.lookup key with
  | some id => exact hc.entries_removeElement hl
  | none => exact (hc.without_of_lookup_none hl).symm

/-- **A value that was just stored is found if it fits.** An entry that is larger than the limit
takes itself away with all others. -/
theorem WF.get_set (hc : c.WF) (hpos : 0 < c.maxBytes) (key : GoString) (v : V)
    (now later : Time) (order : List GoString) (t : Time) :
    ((c.set key (some v) now later order).get t key).1 =
      if (key.length + Value.len v : Int) ≤ c.maxBytes then some v else none := by
  have hwf := hc.setWithExpiration key (some v) 0 now later order
  have hfit := (hc.entries_setWithExpiration key v 0 now later order).limited hpos
  -- the new entry has no deadline and stands at the end
  have hlist : unexpired later (without key c.entries ++ [⟨key, v, deadline now 0⟩]) =
      unexpired later (without key c.entries) ++ [⟨key, v, none⟩] := by
    simp [unexpired, deadline, Expired]
  rw [hlist] at hfit
  show ((c.setWithExpiration key (some v) 0 now later order).get t key).1 = _
  generalize c.setWithExpiration key (some v) 0 now later order = c' at hwf hfit
  split
  · next hsize =>
    have hmem : (⟨key, v, none⟩ : Item V) ∈ c'.entries := hfit.mem_last (by
      unfold Item.size
      exact_mod_cast hsize)
    rcases hwf.entries_get t key with ⟨x, hx, hkey, -, hvalue, -⟩ | ⟨hall, -⟩
    · have hxv := List.inj_on_of_nodup_map hwf.nodup_entries hx hmem hkey
      rw [hvalue, hxv]
    · exact (hall _ hmem rfl).elim
  · next hsize =>
    have hnil : c'.entries = [] := hfit.eq_nil (by
      unfold Item.size
      push_cast
      exact Int.not_le.1 hsize)
    rcases hwf.entries_get t key with ⟨x, hx, -⟩ | ⟨-, hvalue, -⟩
    · rw [hnil] at hx
      cases hx
    · exact hvalue

/-! ## Runs -/

theorem dedup_append_singleton {α : Type} [DecidableEq α] (l : List α) (a : α) :
    (l ++ [a]).dedup = (l.dedup.filter fun b => b ≠ a) ++ [a] := by
  induction l with
  | nil => rfl
  | cons b l ih =>
    rw [List.cons_append, List.dedup_cons, List.dedup_cons, ih]
    by_cases hb : b = a
    · subst hb
      by_cases hmem : b ∈ l <;> simp [hmem]
    · by_cases hmem : b ∈ l <;> simp [hmem, hb]

/-- The key a call uses: a hit uses its key, and so does the store of a value. -/
def Call.uses (c : LruCache V) : Call V → Option GoString
  | .get now key => if (c.get now key).1.isSome then some key else none
  | .getWithExpiration now key => if (c.getWithExpiration now key).1.isSome then some key else none
  | .set key value _ _ _ | .setWithExpiration key value _ _ _ _ => value.map fun _ => key
  | .delete _ | .clear _ | .cleanupExpired _ _ => none

/-- The keys the calls use, in order. -/
def uses : List (Call V) → LruCache V → List GoString
  | [], _ => []
  | call :: calls, c => (call.uses c).toList ++ uses calls (call.run c)

/-- A list of keys in order of recency after the use of a key. -/
def touch : Option GoString → List GoString → List GoString
  | none, l => l
  | some k, l => (l.filter fun k' => k' ≠ k) ++ [k]

theorem touch_sublist {l l' : List GoString} (h : l.Sublist l') (use : Option GoString) :
    (touch use l).Sublist (touch use l') := by
  cases use with
  | none => exact h
  | some k => exact (h.filter _).append_right [k]

theorem dedup_append_use (l : List GoString) (use : Option GoString) :
    (l ++ use.toList).dedup = touch use l.dedup := by
  cases use with
  | none => simp [touch]
  | some k => exact dedup_append_singleton l k

omit [Value V] in
theorem keys_without (key : GoString) (l : List (Item V)) :
    (without key l).map Item.key = (l.map Item.key).filter fun k => k ≠ key := by
  rw [without, List.filter_map]
  rfl

omit [Value V] in
theorem without_sublist (key : GoString) (l : List (Item V)) : (without key l).Sublist l :=
  List.filter_sublist

theorem WF.keys_get (hc : c.WF) (now : Time) (key : GoString) :
    ((c.get now key).2.entries.map Item.key).Sublist
      (touch (if (c.get now key).1.isSome then some key else none) (c.entries.map Item.key)) := by
  rcases hc.entries_get now key with ⟨x, -, hkey, -, hvalue, hentries⟩ | ⟨-, hvalue, hentries⟩
  · rw [hvalue, hentries, List.map_append, keys_without, List.map_cons, hkey]
    exact List.Sublist.refl _
  · rw [hvalue, hentries]
    exact (without_sublist key c.entries).map _

theorem WF.keys_setWithExpiration (hc : c.WF) (key : GoString) (value : Option V)
    (expiration : Duration) (now later : Time) (order : List GoString) :
    ((c.setWithExpiration key value expiration now later order).entries.map Item.key).Sublist
      (touch (value.map fun _ => key) (c.entries.map Item.key)) := by
  cases value with
  | none =>
    show ((c.delete key).2.entries.map Item.key).Sublist (c.entries.map Item.key)
    rw [hc.entries_delete]
    exact (without_sublist key c.entries).map _
  | some v =>
    have hfit := hc.entries_setWithExpiration key v expiration now later order
    have hsub := (hfit.sublist.trans List.filter_sublist).map Item.key
    rw [List.map_append, keys_without] at hsub
    exact hsub

/-- **One call** moves the key it uses to the end, and otherwise only drops entries. -/
theorem WF.keys_run (hc : c.WF) (call : Call V) :
    ((call.run c).entries.map Item.key).Sublist (touch (call.uses c) (c.entries.map Item.key)) := by
  cases call with
  | get now key => exact hc.keys_get now key
  | getWithExpiration now key =>
    obtain ⟨hcache, hvalue⟩ := getWithExpiration_eq now key c
    have hsome : (c.getWithExpiration now key).1.isSome = (c.get now key).1.isSome := by
      rw [← hvalue, Option.isSome_map]
    simp only [Call.run, Call.uses, hcache, hsome]
    exact hc.keys_get now key
  | set key value now later order => exact hc.keys_setWithExpiration key value 0 now later order
  | setWithExpiration key value expiration now later order =>
    exact hc.keys_setWithExpiration key value expiration now later order
  | delete key =>
    show ((c.delete key).2.entries.map Item.key).Sublist (c.entries.map Item.key)
    rw [hc.entries_delete]
    exact (without_sublist key c.entries).map _
  | clear order => exact List.nil_sublist _
  | cleanupExpired order now =>
    exact ((hc.entries_evictLocked order now).sublist.trans List.filter_sublist).map _

/-- The keys stand in the order of their last use, before and during a run. -/
theorem WF.keys_runs (hc : c.WF) (calls : List (Call V)) {used : List GoString}
    (h : (c.entries.map Item.key).Sublist used.dedup) :
    ((c.runs calls).entries.map Item.key).Sublist (used ++ uses calls c).dedup := by
  induction calls generalizing c used with
  | nil =>
    rw [uses, List.append_nil]
    exact h
  | cons call calls ih =>
    rw [uses, ← List.append_assoc]
    apply ih (hc.run call)
    rw [dedup_append_use]
    exact (hc.keys_run call).trans (touch_sublist h (call.uses c))

/-- The cache after calls on a new one. -/
def built (maxBytes : Int) (onEvicted : Bool) (calls : List (Call V)) : LruCache V :=
  (LruCache.empty maxBytes onEvicted).runs calls

theorem built_wf (maxBytes : Int) (onEvicted : Bool) (calls : List (Call V)) :
    (built maxBytes onEvicted calls).WF :=
  ((WF.empty maxBytes onEvicted).runs Int.le_of_lt calls).1

theorem maxBytes_built (maxBytes : Int) (onEvicted : Bool) (calls : List (Call V)) :
    (built maxBytes onEvicted calls).maxBytes = maxBytes :=
  maxBytes_runs calls (LruCache.empty maxBytes onEvicted)

/-- **What a cache holds, in order of recency.** After any calls the entries stand in the order of
their last use. A store leaves the longest suffix that fits of the entries with its own at the end
and the expired ones dropped, in whatever order the range over the deadlines went. A hit moves its
entry to the end; a lookup of an expired or absent key misses and takes at most that entry away. -/
theorem lru_recency (maxBytes : Int) (onEvicted : Bool) (calls : List (Call V)) (k : GoString) :
    ((built maxBytes onEvicted calls).entries.map Item.key).Sublist
      (uses calls (LruCache.empty maxBytes onEvicted)).dedup ∧
    (∀ v expiration now later order, Fitting maxBytes
      (unexpired later
        (without k (built maxBytes onEvicted calls).entries ++ [⟨k, v, deadline now expiration⟩]))
      ((built maxBytes onEvicted calls).setWithExpiration k (some v) expiration now later
        order).entries) ∧
    (∀ now, ∀ x ∈ (built maxBytes onEvicted calls).entries, x.key = k → ¬ Expired x.deadline now →
      ((built maxBytes onEvicted calls).get now k).1 = some x.value ∧
      ((built maxBytes onEvicted calls).get now k).2.entries =
        without k (built maxBytes onEvicted calls).entries ++ [x]) ∧
    ∀ now, (∀ x ∈ (built maxBytes onEvicted calls).entries, x.key = k → Expired x.deadline now) →
      ((built maxBytes onEvicted calls).get now k).1 = none ∧
      ((built maxBytes onEvicted calls).get now k).2.entries =
        without k (built maxBytes onEvicted calls).entries := by
  have hwf := built_wf maxBytes onEvicted calls
  have hmax := maxBytes_built maxBytes onEvicted calls
  refine ⟨?_, ?_, ?_, ?_⟩
  · exact (WF.empty maxBytes onEvicted).keys_runs calls (List.nil_sublist [].dedup)
  · intro v expiration now later order
    have hfit := hwf.entries_setWithExpiration k v expiration now later order
    rw [hmax] at hfit
    exact hfit
  · intro now x hx hkey hexp
    rcases hwf.entries_get now k with ⟨y, hy, hykey, -, hvalue, hentries⟩ | ⟨hall, -⟩
    · have hxy : x = y := List.inj_on_of_nodup_map hwf.nodup_entries hx hy (hkey.trans hykey.symm)
      rw [hxy]
      exact ⟨hvalue, hentries⟩
    · exact absurd (hall x hx hkey) hexp
  · intro now hall
    rcases hwf.entries_get now k with ⟨y, hy, hykey, hexp, -⟩ | ⟨-, hmiss⟩
    · exact absurd (hall y hy hykey) hexp
    · exact hmiss

/-- Two entries, of which the older one was used last. -/
def touched : List (Call Bytes) :=
  [.set (ascii "a") (some [1]) 0 0 [], .set (ascii "b") (some [2]) 0 0 [], .get 0 (ascii "a")]

/-- The store of a third entry evicts the least recently used one. -/
theorem touched_evicts :
    ((built 4 false touched).setWithExpiration (ascii "c") (some [3]) 0 0 0 []).entries =
      [⟨ascii "a", [1], none⟩, ⟨ascii "c", [3], none⟩] := by
  obtain ⟨-, hstore, -, -⟩ := lru_recency 4 false touched (ascii "c")
  have hfit := (hstore [3] 0 0 0 []).limited (by decide)
  have hlist : unexpired 0 (without (ascii "c") (built 4 false touched).entries ++
      [⟨ascii "c", [3], deadline 0 0⟩]) =
      [⟨ascii "b", [2], none⟩, ⟨ascii "a", [1], none⟩, ⟨ascii "c", [3], none⟩] := by
    decide +kernel
  rw [hlist] at hfit
  have hlong := hfit.longest _ (List.suffix_cons ..) (by decide)
  have hfits := hfit.fits
  have hsuffix := hfit.suffix
  simp only [List.suffix_cons_iff, List.suffix_nil] at hsuffix
  rcases hsuffix with h | h | h | h
  · rw [h] at hfits
    exact absurd hfits (by decide)
  · exact h
  · rw [h] at hlong
    exact absurd hlong (by decide)
  · rw [h] at hlong
    exact absurd hlong (by decide)

end LruCache

end Locache.Store
