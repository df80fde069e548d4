import Locache.Store.StoreRuns

/-!
# The two stores agree

Without a byte limit a store is a map with deadlines. The calls that touch a key decide what a
lookup of it finds: the value of the last store, as long as its deadline is ahead. A plain cache and
a sharded one drop expired entries at different moments, so their contents differ, but never in what
a lookup from now on can find (`WF.alive_runs`). Hence both give the answers of the map, and as long
as no entry has a deadline they also hold the same keys (`stores_agree`).
-/

namespace Locache.Store

open LruCache (deadline)

variable {V : Type}

/-! ## The map -/

/-- What a lookup at `t` finds of an entry. -/
def alive (t : Time) (x : Option (V × Option Time)) : Option V :=
  x.bind fun x => if Expired x.2 t then none else some x.1

theorem alive_eq_some {t : Time} {x : Option (V × Option Time)} {v : V} :
    alive t x = some v ↔ ∃ d, x = some (v, d) ∧ ¬ Expired d t := by
  unfold alive
  cases x with
  | none => simp
  | some e =>
    obtain ⟨w, d⟩ := e
    by_cases hexp : Expired d t
    · simp [hexp]
    · simp [hexp]

/-- What the last call that touches a key makes of it. -/
def lastEffect (k : GoString) : List (Call V) → Option (Option (V × Option Time))
  | [] => none
  | call :: calls => (lastEffect k calls).or (call.effect k)

theorem lastEffect_eq_none {k : GoString} {calls : List (Call V)} :
    lastEffect k calls = none ↔ ∀ c ∈ calls, c.effect k = none := by
  induction calls with
  | nil => simp [lastEffect]
  | cons call calls ih =>
    rw [lastEffect, Option.or_eq_none_iff, ih, List.forall_mem_cons]
    exact and_comm

theorem lastEffect_eq_some {k : GoString} {calls : List (Call V)}
    {x : Option (V × Option Time)} : lastEffect k calls = some x ↔
      ∃ before call after, calls = before ++ call :: after ∧ call.effect k = some x ∧
        ∀ c ∈ after, c.effect k = none := by
  induction calls with
  | nil => simp [lastEffect]
  | cons call calls ih =>
    rw [lastEffect, Option.or_eq_some_iff, ih, lastEffect_eq_none]
    constructor
    · rintro (⟨before, last, after, rfl, hlast, hafter⟩ | ⟨hafter, hlast⟩)
      · exact ⟨call :: before, last, after, rfl, hlast, hafter⟩
      · exact ⟨[], call, calls, rfl, hlast, hafter⟩
    · rintro ⟨before, last, after, heq, hlast, hafter⟩
      cases before with
      | nil =>
        obtain ⟨rfl, rfl⟩ := List.cons.inj heq
        exact Or.inr ⟨hafter, hlast⟩
      | cons c before =>
        obtain ⟨rfl, rfl⟩ := List.cons.inj heq
        exact Or.inl ⟨before, last, after, rfl, hlast, hafter⟩

/-- Of an entry `x` there is `y` left: all of it, or nothing if its deadline had passed. -/
def Purged (now : Time) (x y : Option (V × Option Time)) : Prop :=
  y = x ∨ y = none ∧ ∀ e, x = some e → Expired e.2 now

/-- What was purged could not be found any more. -/
theorem Purged.alive {now t : Time} {x y : Option (V × Option Time)} (h : Purged now x y)
    (ht : now ≤ t) : Store.alive t y = Store.alive t x := by
  rcases h with rfl | ⟨rfl, hexp⟩
  · rfl
  · cases x with
    | none => rfl
    | some e => simp [Store.alive, (hexp e rfl).mono ht]

/-- An entry without a deadline is never purged. -/
theorem Purged.eq {now : Time} {x y : Option (V × Option Time)} (h : Purged now x y)
    (hx : ∀ e, x = some e → e.2 = none) : y = x := by
  rcases h with rfl | ⟨rfl, hexp⟩
  · rfl
  · cases x with
    | none => rfl
    | some e =>
      have := hexp e rfl
      rw [hx e rfl] at this
      cases this

/-! ## What a call does to a store without a limit -/

namespace LruCache

variable [Value V] {c : LruCache V} {k key : GoString}

/-- An eviction pass without a byte limit drops expired entries only. -/
theorem WF.view_evictLocked (hc : c.WF) (hmax : c.maxBytes ≤ 0) (order : List GoString)
    (now : Time) : (LruCache.evictLocked order now c).view k = c.view k ∨
      (LruCache.evictLocked order now c).view k = none ∧
        ∀ x, c.view k = some x → Expired x.2 now := by
  obtain ⟨hwf, hsub, hkeep⟩ := evictExpired_spec now (rangeKeys order c.expires) hc
  have hover : LruCache.evictLocked order now c =
      evictExpired now (rangeKeys order c.expires) c := by
    unfold LruCache.evictLocked
    dsimp only
    cases hn : (evictExpired now (rangeKeys order c.expires) c).list.length with
    | zero => rfl
    | succ n =>
      rw [evictOverflow, if_neg]
      rw [maxBytes_evictExpired]
      omega
  rw [hover]
  cases hview : (evictExpired now (rangeKeys order c.expires) c).view k with
  | some x => exact Or.inl (hsub k x hview).symm
  | none =>
    refine Or.inr ⟨rfl, ?_⟩
    rintro ⟨v, d⟩ hx
    by_contra hlive
    rw [hkeep k v d hx hlive] at hview
    cases hview

/-- A store puts its entry in, and its eviction pass drops expired entries only. -/
theorem WF.view_set_unlimited (hc : c.WF) (hmax : c.maxBytes ≤ 0) (key : GoString) (v : V)
    (expiration : Duration) (now later : Time) (order : List GoString) :
    Purged later (if k = key then some (v, deadline now expiration) else c.view k)
      ((c.setWithExpiration key (some v) expiration now later order).view k) := by
  obtain ⟨c₁, h₁, hview, heq⟩ := hc.setWithExpiration_eq key v expiration now later order
  have hmax₁ : c₁.maxBytes ≤ 0 := by
    have := maxBytes_setWithExpiration key (some v) expiration now later order c
    rw [heq, maxBytes_evictLocked] at this
    rw [this]
    exact hmax
  rw [heq, ← hview k]
  exact h₁.view_evictLocked hmax₁ order later

end LruCache

section View

variable [Value V] {s : Store V} {k key : GoString}

/-- What a call leaves of a key: what it makes of it, unless that has expired. -/
theorem WF.view_run (hs : s.WF) (hmax : ∀ c ∈ s.caches, c.maxBytes ≤ 0) (order : List GoString)
    (call : Call V) (now : Time) :
    Purged (call.clock now) ((call.effect k).getD (s.view k)) ((call.run order s).view k) := by
  have hset : ∀ key value expiration (now later : Time),
      Purged later ((if key = k then some (value.map fun v => (v, deadline now expiration))
        else none).getD (s.view k))
        ((s.setWithExpiration key value expiration now later order).view k) := by
    intro key value expiration now later
    obtain ⟨c, hc, hwf⟩ := hs.shard key
    cases value with
    | none =>
      have hdelete :
          s.setWithExpiration key none expiration now later order = (s.delete key).2 := by
        simp only [Store.setWithExpiration, Store.delete, hc]
        rfl
      rw [hdelete, hs.view_delete]
      left
      by_cases hk : k = key
      · simp [hk]
      · simp [hk, Ne.symm hk]
    | some v =>
      rcases view_modify s key k
        (LruCache.setWithExpiration key (some v) expiration now later order) with
        ⟨c', hk, hkey, hv⟩ | ⟨hv, hne⟩
      · rw [hkey] at hc
        cases hc
        rw [Store.setWithExpiration, hv, view_of_shard hk]
        have hpurged := hwf.view_set_unlimited (k := k) (hmax c (mem_caches hkey)) key v expiration
          now later order
        by_cases heq : k = key
        · simpa [heq] using hpurged
        · simpa [heq, Ne.symm heq] using hpurged
      · have heq : key ≠ k := by
          rintro rfl
          rw [hne rfl] at hc
          cases hc
        rw [Store.setWithExpiration, hv, if_neg heq]
        exact Or.inl rfl
  cases call with
  | get now key =>
    rcases hs.view_get now key k with h | ⟨-, h⟩
    · exact Or.inl h
    · exact Or.inr h
  | set key value now later => exact hset key value 0 now later
  | setWithExpiration key value expiration now later => exact hset key value expiration now later
  | delete key =>
    left
    show (s.delete key).2.view k = _
    rw [hs.view_delete]
    by_cases hk : k = key
    · simp [Call.effect, hk]
    · simp [Call.effect, hk, Ne.symm hk]
  | clear => exact Or.inl (view_clear s order k)
  | cleanup shard now =>
    obtain ⟨c₀, hc₀, hwf⟩ := hs.shard k
    rcases view_modifyAt s shard k (LruCache.cleanupExpired order now) with ⟨c, hk, hv⟩ | hv
    · rw [hk] at hc₀
      cases hc₀
      show Purged now (s.view k) ((s.cleanupShard shard order now).view k)
      rw [Store.cleanupShard, hv, view_of_shard hk]
      exact hwf.view_evictLocked (hmax _ (mem_caches hk)) order now
    · exact Or.inl hv

/-- Calls in the order of their clock readings, from `now` on. -/
def Chronological (now : Time) (calls : List (Call V)) : Prop :=
  (now :: calls.flatMap Call.times).Pairwise (· ≤ ·)

omit [Value V] in
theorem Call.clock_mem (now : Time) (call : Call V) : call.clock now ∈ now :: call.times := by
  unfold clock
  cases htimes : call.times.getLast? with
  | none => exact List.mem_cons_self ..
  | some t => exact List.mem_cons_of_mem _ (List.mem_of_getLast? htimes)

omit [Value V] in
theorem Chronological.tail {now : Time} {call : Call V} {calls : List (Call V)}
    (h : Chronological now (call :: calls)) : Chronological (call.clock now) calls := by
  refine List.Pairwise.sublist ?_ h
  rw [List.flatMap_cons, ← List.cons_append]
  exact (List.singleton_sublist.2 (call.clock_mem now)).append (List.Sublist.refl _)

omit [Value V] in
theorem Chronological.le_clock {now : Time} {call : Call V} {calls : List (Call V)}
    (h : Chronological now (call :: calls)) : now ≤ call.clock now := by
  rcases List.mem_cons.1 (call.clock_mem now) with heq | hmem
  · exact Int.le_of_eq heq.symm
  · exact (List.pairwise_cons.1 h).1 _ (List.mem_append_left _ hmem)

/-- **Lookups find what the map holds.** A store without a limit that agrees with the map `f` from
`now` on agrees, after any calls, with what the last of them has made of a key. -/
theorem WF.alive_runs (hs : s.WF) (hmax : ∀ c ∈ s.caches, c.maxBytes ≤ 0)
    (orders : Nat → List GoString) {now : Time} {f : GoString → Option (V × Option Time)}
    (hagree : ∀ t k, now ≤ t → alive t (s.view k) = alive t (f k)) {calls : List (Call V)}
    (hchron : Chronological now calls) {t : Time}
    (ht : ∀ t' ∈ now :: calls.flatMap Call.times, t' ≤ t) (k : GoString) :
    alive t ((s.runs orders calls).view k) = alive t ((lastEffect k calls).getD (f k)) := by
  induction calls generalizing s orders now f with
  | nil => exact hagree t k (ht now (List.mem_cons_self ..))
  | cons call calls ih =>
    have hagree' : ∀ t k, call.clock now ≤ t →
        alive t ((call.run (orders 0) s).view k) = alive t ((call.effect k).getD (f k)) := by
      intro t k hle
      rw [(hs.view_run hmax (orders 0) call now).alive hle]
      cases call.effect k with
      | some x => rfl
      | none => exact hagree t k (hchron.le_clock.trans hle)
    have ht' : ∀ t' ∈ call.clock now :: calls.flatMap Call.times, t' ≤ t := by
      intro t' hmem
      apply ht
      rw [List.flatMap_cons, ← List.cons_append]
      rcases List.mem_cons.1 hmem with rfl | hmem
      · exact List.mem_append_left _ (call.clock_mem now)
      · exact List.mem_append_right _ hmem
    have hrest := ih (hs.run (orders 0) call) (unlimited_run hmax (orders 0) call)
      (fun n => orders (n + 1)) hagree' hchron.tail ht'
    rw [runs, hrest, lastEffect]
    cases lastEffect k calls <;> rfl

omit [Value V] in
theorem Call.Plain.deadline_eq {call : Call V} (hplain : call.Plain) {x : V × Option Time}
    (hx : call.effect k = some (some x)) : x.2 = none := by
  have hmap : ∀ {value : Option V} {d : Option Time}, d = none →
      value.map (fun v => (v, d)) = some x → x.2 = none := by
    intro value d hd h
    obtain ⟨v, -, rfl⟩ := Option.map_eq_some_iff.1 h
    exact hd
  cases call with
  | set key value now later =>
    simp only [effect, Option.ite_none_right_eq_some, Option.some.injEq] at hx
    exact hmap (by simp [deadline]) hx.2
  | setWithExpiration key value expiration now later =>
    simp only [effect, Option.ite_none_right_eq_some, Option.some.injEq] at hx
    exact hmap (if_neg (Int.not_lt.2 hplain)) hx.2
  | delete key => simp [effect] at hx
  | _ => cases hx

/-- Without deadlines the store holds exactly what the last calls have made of the keys. -/
theorem WF.view_runs (hs : s.WF) (hmax : ∀ c ∈ s.caches, c.maxBytes ≤ 0)
    (orders : Nat → List GoString) {calls : List (Call V)} (hplain : ∀ c ∈ calls, c.Plain)
    (hnone : ∀ k x, s.view k = some x → x.2 = none) (k : GoString) :
    (s.runs orders calls).view k = (lastEffect k calls).getD (s.view k) := by
  induction calls generalizing s orders with
  | nil => rfl
  | cons call calls ih =>
    obtain ⟨hcall, hcalls⟩ := List.forall_mem_cons.1 hplain
    have htarget : ∀ k x, (call.effect k).getD (s.view k) = some x → x.2 = none := by
      intro k x hx
      cases heffect : call.effect k with
      | none =>
        rw [heffect] at hx
        exact hnone k x hx
      | some y =>
        rw [heffect] at hx
        exact hcall.deadline_eq (heffect.trans (congrArg some hx))
    have hstep : ∀ k, (call.run (orders 0) s).view k = (call.effect k).getD (s.view k) := fun k =>
      (hs.view_run hmax (orders 0) call 0).eq (htarget k)
    rw [runs, ih (hs.run (orders 0) call) (unlimited_run hmax (orders 0) call) _ hcalls
      (fun k x hx => htarget k x ((hstep k).symm.trans hx)), hstep, lastEffect]
    cases lastEffect k calls <;> rfl

/-- A deletion reports whether there was an entry. -/
theorem WF.delete_fst (hs : s.WF) (key : GoString) : (s.delete key).1 = (s.view key).isSome := by
  obtain ⟨c, hc, hwf⟩ := hs.shard key
  simp only [Store.delete, hc, view_of_shard hc]
  unfold LruCache.delete
  cases hlookup : c.items.lookup key with
  | none => rw [hwf.view_of_lookup_none hlookup]; rfl
  | some id =>
    obtain ⟨v, hmem, -⟩ := hwf.entry_of_lookup hlookup
    rw [hwf.view_eq_some.2 ⟨⟨id, hmem⟩, rfl⟩]
    rfl

end View

/-! ## The keys of a store -/

section Keys

variable [Value V] {s : Store V} {c : LruCache V} {k : GoString}

/-- The key a call of a cache may add. -/
def LruCache.Call.adds : LruCache.Call V → Option GoString
  | .set key _ _ _ _ | .setWithExpiration key _ _ _ _ _ => some key
  | _ => none

theorem LruCache.WF.isSome_of_run (hc : c.WF) (call : LruCache.Call V)
    (h : ((call.run c).view k).isSome) : (c.view k).isSome ∨ call.adds = some k := by
  obtain ⟨x, hx⟩ := Option.isSome_iff_exists.1 h
  have hset : ∀ key value expiration now later order,
      (c.setWithExpiration key value expiration now later order).view k = some x →
        (c.view k).isSome ∨ some key = some k := by
    intro key value expiration now later order hx
    cases value with
    | none =>
      change (c.delete key).2.view k = some x at hx
      rw [hc.view_delete] at hx
      split at hx
      · cases hx
      · exact Or.inl (Option.isSome_iff_exists.2 ⟨x, hx⟩)
    | some v =>
      rcases hc.view_setWithExpiration key v expiration now later order hx with ⟨rfl, -⟩ | ⟨-, hx⟩
      · exact Or.inr rfl
      · exact Or.inl (Option.isSome_iff_exists.2 ⟨x, hx⟩)
  have hget : ∀ now key, (c.get now key).2.view k = some x → (c.view k).isSome := by
    intro now key hx
    rcases (hc.view_get now k : (c.get now key).2.view k = _ ∨ _) with heq | ⟨-, hnone, -⟩
    · rw [← heq, hx]
      rfl
    · rw [hnone] at hx
      cases hx
  cases call with
  | get now key => exact Or.inl (hget now key hx)
  | getWithExpiration now key =>
    change (c.getWithExpiration now key).2.view k = some x at hx
    rw [(getWithExpiration_eq now key c).1] at hx
    exact Or.inl (hget now key hx)
  | set key value now later order => exact hset key value 0 now later order hx
  | setWithExpiration key value expiration now later order =>
    exact hset key value expiration now later order hx
  | delete key =>
    change (c.delete key).2.view k = some x at hx
    rw [hc.view_delete] at hx
    split at hx
    · cases hx
    · exact Or.inl (Option.isSome_iff_exists.2 ⟨x, hx⟩)
  | clear order =>
    change (c.clear order).view k = some x at hx
    rw [view_clear] at hx
    cases hx
  | cleanupExpired order now =>
    exact Or.inl (Option.isSome_iff_exists.2 ⟨x, hc.evictLocked_sub order now k x hx⟩)

/-- Every key is in the shard its hash selects. -/
def Placed : Store V → Prop
  | lru _ => True
  | sharded s => ∀ i c k, s.shards[i]? = some c → (c.view k).isSome → s.index k = i

/-- A call on one shard keeps the keys placed if it adds none from elsewhere. -/
theorem placed_modify {s : ShardedLRU V} (hs : ∀ c ∈ s.shards, c.WF) (h : (sharded s).Placed)
    (i : Nat) (call : LruCache.Call V) (hadds : ∀ k, call.adds = some k → s.index k = i) :
    (sharded { s with shards := s.shards.modify i call.run }).Placed := by
  intro j c k hj hview
  rw [index_modify]
  rw [List.getElem?_modify] at hj
  cases hg : s.shards[j]? with
  | none => simp [hg] at hj
  | some c₀ =>
    simp only [hg, Option.map_eq_map, Option.map_some, Option.some.injEq] at hj
    split at hj
    · next hij =>
      subst hj
      rcases (hs c₀ (List.mem_of_getElem? hg)).isSome_of_run call hview with hold | hnew
      · exact h j c₀ k hg hold
      · exact (hadds k hnew).trans hij
    · subst hj
      exact h j c₀ k hg hview

theorem Placed.run (hs : s.WF) (h : s.Placed) (order : List GoString) (call : Call V) :
    (call.run order s).Placed := by
  cases s with
  | lru c =>
    cases call with
    | _ => trivial
  | sharded s =>
    have hwf := hs.2
    have hnone : ∀ (call : LruCache.Call V) i, call.adds = none →
        (sharded { s with shards := s.shards.modify i call.run }).Placed := by
      intro call i hadds
      apply placed_modify hwf h i call
      intro k hk
      rw [hadds] at hk
      cases hk
    cases call with
    | get now key =>
      show ((sharded s).get now key).2.Placed
      unfold Store.get
      split
      · exact h
      · exact hnone (.get now key) _ rfl
    | set key value now later =>
      apply placed_modify hwf h _ (.set key value now later order)
      intro k hk
      cases hk
      rfl
    | setWithExpiration key value expiration now later =>
      apply placed_modify hwf h _ (.setWithExpiration key value expiration now later order)
      intro k hk
      cases hk
      rfl
    | delete key =>
      show ((sharded s).delete key).2.Placed
      unfold Store.delete
      split
      · exact h
      · exact hnone (.delete key) _ rfl
    | clear =>
      intro i c k hc hview
      rw [List.getElem?_map, Option.map_eq_some_iff] at hc
      obtain ⟨c₀, -, rfl⟩ := hc
      rw [LruCache.view_clear] at hview
      cases hview
    | cleanup shard now => exact hnone (.cleanupExpired order now) shard rfl

theorem Placed.runs (hs : s.WF) (h : s.Placed) (orders : Nat → List GoString)
    (calls : List (Call V)) : (s.runs orders calls).Placed := by
  induction calls generalizing s orders with
  | nil => exact h
  | cons call calls ih => exact ih (hs.run (orders 0) call) (h.run hs (orders 0) call) _

theorem WF.runs (hs : s.WF) (orders : Nat → List GoString) (calls : List (Call V)) :
    (s.runs orders calls).WF := by
  induction calls generalizing s orders with
  | nil => exact hs
  | cons call calls ih => exact ih (hs.run (orders 0) call) _

omit [Value V] in
/-- The keys that are stored, as often as they are. -/
def keys (s : Store V) : List GoString := s.caches.flatMap fun c => c.list.map (·.2.key)

omit [Value V] in
theorem length_keys (s : Store V) : s.keys.length = s.len := by
  cases s with
  | lru c => simp [keys, caches, len, LruCache.len]
  | sharded s =>
    simp only [keys, caches, len, List.length_flatMap, List.length_map]
    rfl

omit [Value V] in
theorem LruCache.mem_keys : k ∈ c.list.map (·.2.key) ↔ (c.view k).isSome := by
  rw [← not_iff_not, Bool.not_eq_true, Option.isSome_eq_false_iff, Option.isNone_iff_eq_none,
    LruCache.view_eq_none, List.mem_map]
  push Not
  rfl

theorem WF.keys_nodup (hs : s.WF) (h : s.Placed) : s.keys.Nodup := by
  obtain ⟨-, hwf⟩ := wf_iff.1 hs
  rw [keys, List.nodup_flatMap]
  refine ⟨fun c hc => (hwf c hc).keys, ?_⟩
  cases s with
  | lru c => exact List.pairwise_singleton _ _
  | sharded s =>
    rw [List.pairwise_iff_getElem]
    intro i j hi hj hij k hki hkj
    have hki' := h i _ k (List.getElem?_eq_getElem hi) (LruCache.mem_keys.1 hki)
    have hkj' := h j _ k (List.getElem?_eq_getElem hj) (LruCache.mem_keys.1 hkj)
    omega

omit [Value V] in
theorem Placed.mem_keys (h : s.Placed) : k ∈ s.keys ↔ (s.view k).isSome := by
  rw [keys, List.mem_flatMap]
  constructor
  · rintro ⟨c, hc, hk⟩
    rw [LruCache.mem_keys] at hk
    cases s with
    | lru c' =>
      rw [List.mem_singleton.1 hc] at hk
      exact hk
    | sharded s =>
      obtain ⟨i, hi⟩ := List.mem_iff_getElem?.1 hc
      have hshard : (sharded s).shard k = some c := by
        show s.shards[s.index k]? = some c
        rw [h i c k hi hk]
        exact hi
      rw [view_of_shard hshard]
      exact hk
  · intro hk
    obtain ⟨c, hc⟩ : ∃ c, s.shard k = some c := by
      cases hc : s.shard k with
      | some c => exact ⟨c, rfl⟩
      | none => simp [view, hc] at hk
    rw [view_of_shard hc] at hk
    exact ⟨c, mem_caches hc, LruCache.mem_keys.2 hk⟩

/-- Stores that hold the same keys have the same length. -/
theorem len_eq {s' : Store V} (hs : s.WF) (h : s.Placed) (hs' : s'.WF) (h' : s'.Placed)
    (hview : ∀ k, (s.view k).isSome = (s'.view k).isSome) : s.len = s'.len := by
  rw [← length_keys, ← length_keys]
  apply List.Perm.length_eq
  rw [List.perm_ext_iff_of_nodup (hs.keys_nodup h) (hs'.keys_nodup h')]
  intro k
  rw [h.mem_keys, h'.mem_keys, hview]

end Keys

section Agree

variable [Value V] {maxBytes : Int} (hmax : maxBytes ≤ 0) (onEvicted onEvicted' : Bool) {n : Nat}
  (hn : 0 < n) (hash : GoString → UInt32)

/-- A plain cache without entries. -/
abbrev plain (maxBytes : Int) (onEvicted : Bool) : Store V := .lru (.empty maxBytes onEvicted)

/-- A sharded cache of `n` shards without entries. -/
abbrev shardedOf (maxBytes : Int) (onEvicted : Bool) (n : Nat) (hash : GoString → UInt32) :
    Store V := .sharded ⟨List.replicate n (.empty maxBytes onEvicted), hash⟩

theorem wf_plain (maxBytes : Int) (onEvicted : Bool) : (plain maxBytes onEvicted : Store V).WF :=
  LruCache.WF.empty maxBytes onEvicted

omit [Value V] in
theorem view_plain (k : GoString) : (plain maxBytes onEvicted : Store V).view k = none :=
  LruCache.view_empty maxBytes onEvicted k

include hn in
theorem wf_shardedOf : (shardedOf maxBytes onEvicted n hash : Store V).WF := by
  refine ⟨?_, ?_⟩
  · intro hnil
    rw [List.replicate_eq_nil_iff] at hnil
    omega
  · intro c hc
    rw [List.eq_of_mem_replicate hc]
    exact LruCache.WF.empty maxBytes onEvicted

omit [Value V] in
theorem view_shardedOf (k : GoString) :
    (shardedOf maxBytes onEvicted n hash : Store V).view k = none := by
  unfold view
  cases hc : (shardedOf maxBytes onEvicted n hash : Store V).shard k with
  | none => rfl
  | some c =>
    rw [Option.bind_some, List.eq_of_mem_replicate (mem_caches hc)]
    exact LruCache.view_empty maxBytes onEvicted k

/-- What a lookup finds in a store that started without entries. -/
theorem WF.get_runs {s : Store V} (hs : s.WF) (hmax : ∀ c ∈ s.caches, c.maxBytes ≤ 0)
    (hempty : ∀ k, s.view k = none) (orders : Nat → List GoString) {calls : List (Call V)}
    {t : Time} (hclock : (calls.flatMap Call.times ++ [t]).Pairwise (· ≤ ·)) (k : GoString) :
    ((s.runs orders calls).get t k).1 = alive t (lastEffect k calls).join := by
  obtain ⟨now, hnow⟩ : ∃ now, ∀ t' ∈ calls.flatMap Call.times ++ [t], now ≤ t' := by
    cases htimes : calls.flatMap Call.times ++ [t] with
    | nil => exact ⟨t, by simp⟩
    | cons first rest =>
      rw [htimes, List.pairwise_cons] at hclock
      exact ⟨first, List.forall_mem_cons.2 ⟨Int.le_refl _, hclock.1⟩⟩
  obtain ⟨hsorted, -, hlast⟩ := List.pairwise_append.1 hclock
  have hchron : Chronological now calls :=
    List.pairwise_cons.2 ⟨fun t' ht' => hnow t' (List.mem_append_left _ ht'), hsorted⟩
  rw [(hs.runs orders calls).get_fst]
  refine (hs.alive_runs hmax orders (f := fun _ => none) ?_ hchron ?_ k).trans ?_
  · intro t' k' _
    rw [hempty]
  · intro t' ht'
    rcases List.mem_cons.1 ht' with rfl | ht'
    · exact hnow t (by simp)
    · exact hlast t' ht' t (List.mem_singleton_self t)
  · cases lastEffect k calls <;> rfl

include hmax hn

/-- **The two stores agree.** On a plain cache and on a sharded one of any number of shards and any
hash function, neither with a byte limit, the same calls at the same clock readings lead to the same
answers of `Get`: the value of the last store of the key, if no later call touches the key and its
deadline, if there is one, is ahead. As long as no entry has a deadline, `Delete` and `Len` give the
same answers as well. -/
theorem stores_agree (calls : List (Call V)) (orders orders' : Nat → List GoString) (t : Time)
    (hclock : (calls.flatMap Call.times ++ [t]).Pairwise (· ≤ ·)) (k : GoString) :
    (((plain maxBytes onEvicted).runs orders calls).get t k).1 =
      (((shardedOf maxBytes onEvicted' n hash).runs orders' calls).get t k).1 ∧
    (∀ v, (((plain maxBytes onEvicted).runs orders calls).get t k).1 = some v ↔
      ∃ before call after d, calls = before ++ call :: after ∧
        call.effect k = some (some (v, d)) ∧ (∀ c ∈ after, c.effect k = none) ∧ ¬ Expired d t) ∧
    ((∀ c ∈ calls, c.Plain) →
      (((plain maxBytes onEvicted).runs orders calls).delete k).1 =
        (((shardedOf maxBytes onEvicted' n hash).runs orders' calls).delete k).1 ∧
      ((plain maxBytes onEvicted).runs orders calls).len =
        ((shardedOf maxBytes onEvicted' n hash).runs orders' calls).len) := by
  have hmaxPlain : ∀ c ∈ (plain maxBytes onEvicted : Store V).caches, c.maxBytes ≤ 0 := by
    intro c hc
    rw [List.mem_singleton.1 hc]
    exact hmax
  have hmaxSharded : ∀ c ∈ (shardedOf maxBytes onEvicted' n hash : Store V).caches,
      c.maxBytes ≤ 0 := by
    intro c hc
    rw [List.eq_of_mem_replicate hc]
    exact hmax
  have hwfPlain : (plain maxBytes onEvicted : Store V).WF := wf_plain maxBytes onEvicted
  have hwfSharded : (shardedOf maxBytes onEvicted' n hash : Store V).WF :=
    wf_shardedOf onEvicted' hn hash
  have hfound := hwfPlain.get_runs hmaxPlain (view_plain onEvicted) orders hclock k
  refine ⟨?_, ?_, ?_⟩
  · rw [hfound]
    exact (hwfSharded.get_runs hmaxSharded (view_shardedOf onEvicted' hash) orders' hclock k).symm
  · intro v
    rw [hfound, alive_eq_some]
    constructor
    · rintro ⟨d, heffect, hlive⟩
      obtain ⟨before, call, after, heq, hcall, hafter⟩ :=
        lastEffect_eq_some.1 (Option.join_eq_some_iff.1 heffect)
      exact ⟨before, call, after, d, heq, hcall, hafter, hlive⟩
    · rintro ⟨before, call, after, d, heq, hcall, hafter, hlive⟩
      exact ⟨d, Option.join_eq_some_iff.2
        (lastEffect_eq_some.2 ⟨before, call, after, heq, hcall, hafter⟩), hlive⟩
  · intro hplain
    have hview : ∀ k, ((plain maxBytes onEvicted).runs orders calls).view k =
        ((shardedOf maxBytes onEvicted' n hash).runs orders' calls).view k := by
      intro k
      rw [hwfPlain.view_runs hmaxPlain orders hplain (by simp [view_plain]),
        hwfSharded.view_runs hmaxSharded orders' hplain (by simp [view_shardedOf]),
        view_plain, view_shardedOf]
    have hruns := hwfPlain.runs orders calls
    have hruns' := hwfSharded.runs orders' calls
    refine ⟨?_, ?_⟩
    · rw [hruns.delete_fst, hruns'.delete_fst, hview]
    · apply len_eq hruns _ hruns' _ fun k => by rw [hview]
      · exact Placed.runs hwfPlain trivial orders calls
      · apply Placed.runs hwfSharded _ orders' calls
        intro i c k hc hsome
        rw [List.eq_of_mem_replicate (List.mem_of_getElem? hc), LruCache.view_empty] at hsome
        cases hsome

end Agree

/-- A store with a deadline, one without, and a cleanup step. -/
def shortRun : List (Call Bytes) :=
  [.setWithExpiration (ascii "a") (some [1]) 5 0 0, .set (ascii "b") (some [2]) 1 2, .cleanup 0 3]

/-- Both stores still find the first value; without the first call they have the same length. -/
theorem shortRun_agrees :
    (((plain 0 false).runs (fun _ => []) shortRun).get 4 (ascii "a")).1 = some [1] ∧
    (((shardedOf 0 false 4 fnv32a).runs (fun _ => []) shortRun).get 4 (ascii "a")).1 = some [1] ∧
    ((plain 0 false).runs (fun _ => []) shortRun.tail).len =
      ((shardedOf 0 false 4 fnv32a).runs (fun _ => []) shortRun.tail).len := by
  obtain ⟨hagree, hfound, -⟩ := stores_agree (Int.le_refl 0) false false (show 0 < 4 by decide)
    fnv32a shortRun (fun _ => []) (fun _ => []) 4 (by decide) (ascii "a")
  obtain ⟨-, -, hplain⟩ := stores_agree (Int.le_refl 0) false false (show 0 < 4 by decide)
    fnv32a shortRun.tail (fun _ => []) (fun _ => []) 4 (by decide) (ascii "a")
  have hvalue := (hfound [1]).2 ⟨[], _, _, some 5, rfl, rfl, by decide, by decide⟩
  refine ⟨hvalue, hagree.symm.trans hvalue, (hplain ?_).2⟩
  intro c hc
  simp only [shortRun, List.tail_cons, List.mem_cons, List.not_mem_nil, or_false] at hc
  rcases hc with rfl | rfl <;> trivial

end Locache.Store
