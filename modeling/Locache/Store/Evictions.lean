import Locache.Store.Recency

/-!
# The calls of the eviction callback

Entries leave a cache by expiry, for lack of room, by deletion or when it is cleared. Whatever the
way, a call of the cache reports exactly the entries it takes away: what it held, with the entry it
stores put in, is what it reports together with what it holds afterwards (`Reports`). So over a run
the insertions of a key and the reports about it keep in step (`evictions_reported`).
-/

namespace Locache.Store.LruCache

variable {V : Type} {c c₁ c₂ c₃ : LruCache V} {id : Nat} {k key : GoString}

/-- The keys and values a cache holds. -/
def contents (c : LruCache V) : List (GoString × V) := c.list.map fun x => (x.2.key, x.2.value)

/-- Put an entry in place of the one its key had. -/
def put : Option (GoString × V) → List (GoString × V) → List (GoString × V)
  | none, l => l
  | some x, l => (l.filter fun y => y.1 ≠ x.1) ++ [x]

/-- From `c` to `c'` the entry `stored` is put in, if there is one, and the entries `gone` leave the
cache; exactly these are reported. -/
structure Reports (c c' : LruCache V) (stored : Option (GoString × V))
    (gone : List (GoString × V)) : Prop where
  onEvicted : c'.onEvicted = c.onEvicted
  evicted : c.onEvicted = true → c'.evicted = gone ++ c.evicted
  contents : (put stored c.contents).Perm (gone ++ c'.contents)

theorem Reports.refl (c : LruCache V) : Reports c c none [] :=
  ⟨rfl, fun _ => rfl, List.Perm.refl _⟩

/-- Entries may leave in several steps. -/
theorem Reports.trans {stored : Option (GoString × V)} {gone₁ gone₂ : List (GoString × V)}
    (h₁ : Reports c₁ c₂ stored gone₁) (h₂ : Reports c₂ c₃ none gone₂) :
    Reports c₁ c₃ stored (gone₂ ++ gone₁) := by
  refine ⟨h₂.onEvicted.trans h₁.onEvicted, ?_, ?_⟩
  · intro hon
    rw [h₂.evicted (h₁.onEvicted.trans hon), h₁.evicted hon, List.append_assoc]
  · calc put stored c₁.contents
      _ |>.Perm (gone₁ ++ c₂.contents) := h₁.contents
      _ |>.Perm (gone₁ ++ (gone₂ ++ c₃.contents)) := h₂.contents.append_left gone₁
      _ |>.Perm (gone₂ ++ gone₁ ++ c₃.contents) := by
        rw [← List.append_assoc]
        exact List.perm_append_comm.append_right _

variable [Value V]

theorem WF.nodup_keys (hc : c.WF) : (c.contents.map Prod.fst).Nodup := by
  unfold LruCache.contents
  rw [List.map_map]
  exact hc.keys

theorem WF.mem_contents_keys (hc : c.WF) : k ∈ c.contents.map Prod.fst ↔ k ∈ c.items := by
  unfold LruCache.contents
  rw [List.map_map, List.mem_map, ← AList.lookup_isSome, Option.isSome_iff_exists]
  constructor
  · rintro ⟨x, hx, rfl⟩
    exact ⟨x.1, (hc.items _ _).2 ⟨x.2.value, hx⟩⟩
  · rintro ⟨id, hid⟩
    obtain ⟨v, hv⟩ := (hc.items k id).1 hid
    exact ⟨_, hv, rfl⟩

/-! ## The ways an entry leaves -/

/-- Removing an element reports its entry. -/
theorem WF.reports_removeElement (hc : c.WF) (id : Nat) :
    ∃ gone, Reports c (c.removeElement id) none gone := by
  unfold LruCache.removeElement
  cases he : c.entry id with
  | none => exact ⟨[], Reports.refl c⟩
  | some e =>
    refine ⟨[(e.key, e.value)], rfl, fun hon => by simp [hon], ?_⟩
    have hmem := mem_of_entry he
    have hnd : c.list.Nodup := List.Nodup.of_map _ hc.ids
    have hperm : c.list.Perm ((id, e) :: c.list.filter fun x => x.1 ≠ id) := by
      rw [List.perm_ext_iff_of_nodup hnd]
      · intro x
        rw [List.mem_cons, List.mem_filter]
        constructor
        · intro hx
          by_cases hid : x.1 = id
          · exact Or.inl (hc.id_unique hx hmem hid)
          · exact Or.inr ⟨hx, decide_eq_true hid⟩
        · rintro (rfl | ⟨hx, -⟩)
          · exact hmem
          · exact hx
      · refine List.nodup_cons.2 ⟨?_, hnd.filter _⟩
        intro hin
        simpa using (List.mem_filter.1 hin).2
    exact hperm.map fun x => (x.2.key, x.2.value)

theorem WF.reports_evictExpired (hc : c.WF) (now : Time) (keys : List GoString) :
    ∃ gone, Reports c (evictExpired now keys c) none gone := by
  induction keys generalizing c with
  | nil => exact ⟨[], Reports.refl c⟩
  | cons key keys ih =>
    rw [evictExpired]
    split
    · split
      · next id _ =>
        obtain ⟨gone₁, h₁⟩ := hc.reports_removeElement id
        obtain ⟨gone₂, h₂⟩ := ih (hc.removeElement id)
        exact ⟨_, h₁.trans h₂⟩
      · exact ih hc
    · exact ih hc

theorem WF.reports_evictOverflow (hc : c.WF) (n : Nat) :
    ∃ gone, Reports c (evictOverflow n c) none gone := by
  fun_induction evictOverflow n c with
  | case1 c => exact ⟨[], Reports.refl c⟩
  | case2 n c hover hlist => exact ⟨[], Reports.refl c⟩
  | case3 n c hover id e rest hlist ih =>
    obtain ⟨gone₁, h₁⟩ := hc.reports_removeElement id
    obtain ⟨gone₂, h₂⟩ := ih (hc.removeElement id)
    exact ⟨_, h₁.trans h₂⟩
  | case4 n c hover => exact ⟨[], Reports.refl c⟩

theorem WF.reports_evictLocked (hc : c.WF) (order : List GoString) (now : Time) :
    ∃ gone, Reports c (LruCache.evictLocked order now c) none gone := by
  obtain ⟨gone₁, h₁⟩ := hc.reports_evictExpired now (rangeKeys order c.expires)
  obtain ⟨gone₂, h₂⟩ :=
    (evictExpired_spec now (rangeKeys order c.expires) hc).1.reports_evictOverflow
      (evictExpired now (rangeKeys order c.expires) c).list.length
  exact ⟨_, h₁.trans h₂⟩

theorem WF.reports_delete (hc : c.WF) (key : GoString) :
    ∃ gone, Reports c (c.delete key).2 none gone := by
  unfold LruCache.delete
  split
  · exact hc.reports_removeElement _
  · exact ⟨[], Reports.refl c⟩

/-- Moving an element reports nothing. -/
theorem WF.reports_moveToBack (hc : c.WF) (id : Nat) : Reports c (c.moveToBack id) none [] := by
  have hperm : (c.moveToBack id).list.Perm c.list := moveToBack_perm hc
  rw [moveToBack_eq]
  exact ⟨rfl, fun _ => rfl, (hperm.map fun x : Nat × Entry V => (x.2.key, x.2.value)).symm⟩

theorem WF.reports_get (hc : c.WF) (now : Time) (key : GoString) :
    ∃ gone, Reports c (c.get now key).2 none gone := by
  unfold LruCache.get
  split
  · exact ⟨[], Reports.refl c⟩
  · split
    · exact hc.reports_removeElement _
    · exact ⟨[], hc.reports_moveToBack _⟩

/-- The entry a range over the items comes to at a key. -/
theorem WF.lookup_contents (hc : c.WF) {x : GoString × V} :
    (c.items.lookup k).bind (fun id => (c.entry id).map fun e => (e.key, e.value)) = some x ↔
      x ∈ c.contents ∧ x.1 = k := by
  unfold LruCache.contents
  rw [List.mem_map]
  constructor
  · intro h
    obtain ⟨id, hid, h⟩ := Option.bind_eq_some_iff.1 h
    obtain ⟨v, hmem, he⟩ := hc.entry_of_lookup hid
    rw [he] at h
    cases h
    exact ⟨⟨_, hmem, rfl⟩, rfl⟩
  · rintro ⟨⟨⟨id, e⟩, hmem, rfl⟩, rfl⟩
    rw [(hc.items e.key id).2 ⟨e.value, hmem⟩, Option.bind_some, hc.entry_of_mem hmem]
    rfl

/-- Clearing reports every entry, in the order of the range over the items. -/
theorem WF.reports_clear (hc : c.WF) (order : List GoString) :
    ∃ gone, Reports c (c.clear order) none gone := by
  refine ⟨_, rfl, fun hon => if_pos hon, ?_⟩
  show c.contents.Perm (_ ++ [])
  rw [List.append_nil]
  refine List.Perm.trans ?_ (List.reverse_perm _).symm
  rw [List.perm_ext_iff_of_nodup hc.nodup_keys.of_map]
  · intro x
    rw [List.mem_filterMap]
    constructor
    · intro hx
      refine ⟨x.1, ?_, hc.lookup_contents.2 ⟨hx, rfl⟩⟩
      rw [mem_rangeKeys, ← hc.mem_contents_keys]
      exact List.mem_map_of_mem hx
    · rintro ⟨k, -, hk⟩
      exact (hc.lookup_contents.1 hk).1
  · apply (nodup_rangeKeys order c.items).filterMap
    intro k k' x hk hk'
    exact (hc.lookup_contents.1 hk).2.symm.trans (hc.lookup_contents.1 hk').2

omit [Value V] in
theorem contents_eq (c : LruCache V) : c.contents = c.entries.map fun x => (x.key, x.value) := by
  unfold entries
  rw [List.map_map]
  rfl

/-- A store puts its entry in before anything leaves. -/
theorem WF.reports_setWithExpiration (hc : c.WF) (key : GoString) (value : Option V)
    (expiration : Duration) (now later : Time) (order : List GoString) :
    ∃ gone, Reports c (c.setWithExpiration key value expiration now later order)
      (value.map fun v => (key, v)) gone := by
  cases value with
  | none => exact hc.reports_delete key
  | some v =>
    obtain ⟨c₁, hplaced, heq⟩ := hc.placed key v expiration now later order
    obtain ⟨gone, h⟩ := hplaced.wf.reports_evictLocked order later
    have hput : Reports c c₁ (some (key, v)) [] := by
      refine ⟨hplaced.onEvicted, fun _ => hplaced.evicted, ?_⟩
      have hcontents : put (some (key, v)) c.contents = c₁.contents := by
        rw [contents_eq c₁, hplaced.entries, List.map_append, contents_eq c, put, without,
          List.filter_map]
        rfl
      rw [hcontents]
      exact List.Perm.refl _
    rw [heq]
    exact ⟨_, hput.trans h⟩

/-! ## Runs -/

/-- The entry a call stores. -/
def Call.stored : Call V → Option (GoString × V)
  | .set key value _ _ _ | .setWithExpiration key value _ _ _ _ => value.map fun v => (key, v)
  | .get _ _ | .getWithExpiration _ _ | .delete _ | .clear _ | .cleanupExpired _ _ => none

/-- **One call** reports the entries it takes away, and nothing else. -/
theorem WF.reports_run (hc : c.WF) (call : Call V) :
    ∃ gone, Reports c (call.run c) call.stored gone := by
  cases call with
  | get now key => exact hc.reports_get now key
  | getWithExpiration now key =>
    simp only [Call.run, (getWithExpiration_eq now key c).1]
    exact hc.reports_get now key
  | set key value now later order => exact hc.reports_setWithExpiration key value 0 now later order
  | setWithExpiration key value expiration now later order =>
    exact hc.reports_setWithExpiration key value expiration now later order
  | delete key => exact hc.reports_delete key
  | clear order => exact hc.reports_clear order
  | cleanupExpired order now => exact hc.reports_evictLocked order now

/-- The number of times the calls insert a key that is absent. -/
def insertions (k : GoString) : List (Call V) → LruCache V → Nat
  | [], _ => 0
  | call :: calls, c =>
    (if (call.stored.map Prod.fst) = some k ∧ k ∉ c.items then 1 else 0) +
      insertions k calls (call.run c)

/-- The value that was stored last under a key. -/
def lastStored (calls : List (Call V)) (k : GoString) : Option V :=
  calls.reverse.findSome? fun call => call.stored.bind fun x => if x.1 = k then some x.2 else none

omit [Value V] in
theorem lastStored_snoc (calls : List (Call V)) (call : Call V) (k : GoString) :
    lastStored (calls ++ [call]) k =
      (call.stored.bind fun x => if x.1 = k then some x.2 else none).or (lastStored calls k) := by
  unfold lastStored
  rw [List.reverse_append, List.reverse_singleton, List.singleton_append, List.findSome?_cons]
  cases call.stored.bind fun x => if x.1 = k then some x.2 else none <;> rfl

omit [Value V] in
theorem count_put (stored : Option (GoString × V)) (l : List (GoString × V)) (k : GoString) :
    ((put stored l).map Prod.fst).count k =
      if stored.map Prod.fst = some k then 1 else (l.map Prod.fst).count k := by
  cases stored with
  | none => simp [put]
  | some x =>
    have hfilter : (l.filter fun y => y.1 ≠ x.1).map Prod.fst =
        (l.map Prod.fst).filter fun k => k ≠ x.1 := by
      rw [List.filter_map]
      rfl
    rw [put, List.map_append, hfilter, List.count_append]
    by_cases hk : x.1 = k
    · subst hk
      simp [List.count_eq_zero]
    · rw [List.count_filter (by simpa using Ne.symm hk)]
      simp [hk]

/-- A key is held once or not at all. -/
theorem WF.count_contents (hc : c.WF) (k : GoString) :
    (c.contents.map Prod.fst).count k = if k ∈ c.items then 1 else 0 := by
  split
  · next hk => exact List.count_eq_one_of_mem hc.nodup_keys (hc.mem_contents_keys.2 hk)
  · next hk => exact List.count_eq_zero.2 fun h => hk (hc.mem_contents_keys.1 h)

/-- An insertion that the call does not report again is there afterwards. -/
theorem Reports.count {call : Call V} {gone : List (GoString × V)} (hc : c.WF)
    (h : Reports c (call.run c) call.stored gone) (k : GoString) :
    (if (call.stored.map Prod.fst) = some k ∧ k ∉ c.items then 1 else 0) +
        (if k ∈ c.items then 1 else 0) =
      (gone.map Prod.fst).count k + if k ∈ (call.run c).items then 1 else 0 := by
  have hcount := (h.contents.map Prod.fst).count_eq k
  rw [count_put, List.map_append, List.count_append, hc.count_contents,
    (hc.run call).count_contents] at hcount
  rw [← hcount]
  by_cases hstored : call.stored.map Prod.fst = some k <;> by_cases hk : k ∈ c.items <;>
    simp [hstored, hk]

/-- Insertions, reports and presence balance over a run. -/
theorem WF.balance (hc : c.WF) (hon : c.onEvicted = true) (calls : List (Call V)) (k : GoString) :
    insertions k calls c + ((c.evicted.map Prod.fst).count k + if k ∈ c.items then 1 else 0) =
      ((c.runs calls).evicted.map Prod.fst).count k +
        if k ∈ (c.runs calls).items then 1 else 0 := by
  induction calls generalizing c with
  | nil =>
    rw [insertions, Nat.zero_add]
    rfl
  | cons call calls ih =>
    obtain ⟨gone, h⟩ := hc.reports_run call
    have hstep := h.count hc k
    have hrest := ih (hc.run call) (h.onEvicted.trans hon)
    rw [h.evicted hon, List.map_append, List.count_append] at hrest
    have hruns : c.runs (call :: calls) = (call.run c).runs calls := rfl
    rw [insertions, hruns, ← hrest]
    omega

omit [Value V] in
/-- If the entries of a list were stored last under their keys, so were those after a store. -/
theorem lastStored_put {calls : List (Call V)} {l : List (GoString × V)}
    (h : ∀ x ∈ l, lastStored calls x.1 = some x.2) (call : Call V) :
    ∀ x ∈ put call.stored l, lastStored (calls ++ [call]) x.1 = some x.2 := by
  intro x hx
  rw [lastStored_snoc]
  cases hstored : call.stored with
  | none =>
    rw [hstored] at hx
    exact h x hx
  | some y =>
    rw [hstored, put, List.mem_append, List.mem_filter, List.mem_singleton] at hx
    rcases hx with ⟨hx, hne⟩ | rfl
    · have hne : y.1 ≠ x.1 := by simpa using Ne.symm (of_decide_eq_true hne)
      rw [Option.bind_some, if_neg hne]
      exact h x hx
    · simp

theorem built_snoc (maxBytes : Int) (onEvicted : Bool) (calls : List (Call V))
    (call : Call V) :
    built maxBytes onEvicted (calls ++ [call]) = call.run (built maxBytes onEvicted calls) := by
  unfold built LruCache.runs
  rw [List.foldl_append]
  rfl

theorem onEvicted_built (maxBytes : Int) (onEvicted : Bool) (calls : List (Call V)) :
    (built maxBytes onEvicted calls).onEvicted = onEvicted := by
  induction calls using List.reverseRecOn with
  | nil => rfl
  | append_singleton calls call ih =>
    obtain ⟨gone, h⟩ := (built_wf maxBytes onEvicted calls).reports_run call
    rw [built_snoc, h.onEvicted, ih]

/-- What a cache holds was stored last under its key. -/
theorem lastStored_contents (maxBytes : Int) (onEvicted : Bool) (calls : List (Call V)) :
    ∀ x ∈ (built maxBytes onEvicted calls).contents, lastStored calls x.1 = some x.2 := by
  induction calls using List.reverseRecOn with
  | nil =>
    intro x hx
    cases hx
  | append_singleton calls call ih =>
    intro x hx
    obtain ⟨gone, h⟩ := (built_wf maxBytes onEvicted calls).reports_run call
    rw [built_snoc] at hx
    exact lastStored_put ih call x (h.contents.mem_iff.2 (List.mem_append_right gone hx))

/-- **Every entry that leaves is reported once, with its last value.** For each key the insertions
while it was absent, less the reports about it, are one if the key is held and zero otherwise. Each
call reports exactly what it takes away, and with the value that was stored last. -/
theorem evictions_reported (maxBytes : Int) (calls : List (Call V)) (k : GoString) :
    (insertions k calls (LruCache.empty maxBytes true) : Int) -
        ((built maxBytes true calls).evicted.map Prod.fst).count k =
      (if k ∈ (built maxBytes true calls).items then 1 else 0) ∧
    ∀ call, ∃ gone, (built maxBytes true (calls ++ [call])).evicted =
        gone ++ (built maxBytes true calls).evicted ∧
      (∀ x ∈ gone, lastStored (calls ++ [call]) x.1 = some x.2) ∧
      (put call.stored (built maxBytes true calls).contents).Perm
        (gone ++ (built maxBytes true (calls ++ [call])).contents) := by
  refine ⟨?_, ?_⟩
  · have hwf : (LruCache.empty maxBytes true : LruCache V).WF := WF.empty maxBytes true
    have hbalance := hwf.balance rfl calls k
    have hempty : ((LruCache.empty maxBytes true : LruCache V).evicted.map Prod.fst).count k +
        (if k ∈ (LruCache.empty maxBytes true : LruCache V).items then 1 else 0) = 0 := rfl
    rw [hempty, Nat.add_zero] at hbalance
    rw [hbalance]
    unfold built
    push_cast
    omega
  · intro call
    obtain ⟨gone, h⟩ := (built_wf maxBytes true calls).reports_run call
    refine ⟨gone, ?_, ?_, ?_⟩
    · rw [built_snoc, h.evicted (onEvicted_built maxBytes true calls)]
    · intro x hx
      apply lastStored_put (lastStored_contents maxBytes true calls) call
      exact h.contents.mem_iff.2 (List.mem_append_left _ hx)
    · rw [built_snoc]
      exact h.contents

end Locache.Store.LruCache
