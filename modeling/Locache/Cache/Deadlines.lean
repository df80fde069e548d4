import Locache.Cache
import Mathlib.Tactic.Linarith

/-!
# How long a cache keeps an entry

`AddWithExpiration` is given a time at which its entry expires. It turns that time into a duration
by one clock reading, and the store turns the duration into a deadline by another, which it takes
when it has the lock. An entry is therefore gone at its expiration time if no time passes between
the two readings (`gone_at_expiration`), and in general as much later as passes between them
(`gone_after_delay`).
-/

namespace Locache.Cache

/-- A section of a call on a cache under the locks of its store, with its clock readings and the
order of its ranges over maps. `Clear` and a cleanup tick take the shards one by one. The reading
`untilNow` of `AddWithExpiration` is taken before the section. -/
inductive Call where
  | add (key : GoString) (value : ByteView) (now later : Time) (order : List GoString)
  | addWithExpiration (key : GoString) (value : ByteView) (expirationTime untilNow now later : Time)
      (order : List GoString)
  | get (now : Time) (key : GoString)
  | delete (key : GoString)
  | clear (shard : Nat) (order : List GoString)
  | cleanup (shard : Nat) (now : Time) (order : List GoString)
  | close

namespace Call

def run : Call → Cache → Cache
  | .add key value now later order, c => c.add key value now later order
  | .addWithExpiration key value expirationTime untilNow now later order, c =>
    c.addWithExpiration key value expirationTime untilNow now later order
  | .get now key, c => (c.get now key).2
  | .delete key, c => (c.delete key).2
  | .clear shard order, c => c.clearShard shard order
  | .cleanup shard now order, c => c.cleanupShard shard order now
  | .close, c => c.close

/-- The call puts an entry under the key. `AddWithExpiration` does nothing when its time is up. -/
def Stores (k : GoString) : Call → Prop
  | .add key _ _ _ _ => key = k
  | .addWithExpiration key _ expirationTime untilNow _ _ _ => key = k ∧ untilNow < expirationTime
  | _ => False

/-- The clock readings of a call, in the order they are taken. -/
def times : Call → List Time
  | .add _ _ now later _ => [now, later]
  | .addWithExpiration _ _ _ _ now later _ => [now, later]
  | .get now _ | .cleanup _ now _ => [now]
  | .delete _ | .clear _ _ | .close => []

end Call

/-- The cache after the calls, in order. -/
def runs (calls : List Call) (c : Cache) : Cache := calls.foldl (fun c call => call.run c) c

variable {c : Cache} {k : GoString}

theorem WF.run (hc : c.WF) (call : Call) : (call.run c).WF := by
  cases call with
  | add key value now later order => exact hc.add key value now later order
  | addWithExpiration key value expirationTime untilNow now later order =>
    exact hc.addFor key value _ now later order
  | get now key => exact hc.get now key
  | delete key => exact hc.delete key
  | clear shard order => exact hc.clearShard shard order
  | cleanup shard now order => exact hc.cleanupShard shard order now
  | close => exact hc.close

theorem WF.runs (hc : c.WF) (calls : List Call) : (Cache.runs calls c).WF := by
  induction calls generalizing c with
  | nil => exact hc
  | cons call calls ih => exact ih (hc.run call)

/-- A call that stores nothing under a key leaves its entry as it is or takes it away. -/
theorem WF.view_run (hc : c.WF) {call : Call} (hstores : ¬ call.Stores k)
    {x : ByteView × Option Time} (h : (call.run c).view k = some x) : c.view k = some x := by
  cases call with
  | add key value now later order =>
    rcases view_add hc key value now later order h with ⟨rfl, -⟩ | ⟨-, h⟩
    · exact absurd rfl hstores
    · exact h
  | addWithExpiration key value expirationTime untilNow now later order =>
    rcases view_addFor hc key value _ now later order h with ⟨rfl, -, hpos⟩ | ⟨h, -⟩
    · exact absurd ⟨rfl, Int.sub_pos.1 hpos⟩ hstores
    · exact h
  | get now key => exact view_get hc now key h
  | delete key =>
    rw [Call.run, view_delete hc] at h
    split at h
    · cases h
    · exact h
  | clear shard order => exact view_clearShard c shard order h
  | cleanup shard now order => exact view_cleanupShard hc shard order now h
  | close =>
    rw [Call.run, view_close] at h
    cases h

theorem WF.view_runs (hc : c.WF) {calls : List Call} (hstores : ∀ call ∈ calls, ¬ call.Stores k)
    {x : ByteView × Option Time} (h : (Cache.runs calls c).view k = some x) :
    c.view k = some x := by
  induction calls generalizing c with
  | nil => exact h
  | cons call calls ih =>
    rw [List.forall_mem_cons] at hstores
    exact hc.view_run hstores.1 (ih (hc.run call) hstores.2 h)

section Added

variable (hc : c.WF) (before after : List Call) (k : GoString) (v : ByteView)
  (expirationTime untilNow now later : Time) (order : List GoString)
  (hstored : untilNow < expirationTime) (hlast : ∀ call ∈ after, ¬ call.Stores k) (t : Time)

include hc hstored hlast

/-- What is still under the key is the entry that was stored, with its deadline. -/
theorem view_added {x : ByteView × Option Time}
    (h : (c.runs (before ++ .addWithExpiration k v expirationTime untilNow now later order ::
      after)).view k = some x) :
    x = (v, some (now + (expirationTime - untilNow))) := by
  have hwf := hc.runs before
  rw [Cache.runs, List.foldl_append, List.foldl_cons] at h
  have hadded := (hwf.run (.addWithExpiration k v expirationTime untilNow now later
    order)).view_runs hlast h
  rcases view_addFor hwf k v _ now later order hadded with ⟨-, hx, -⟩ | ⟨-, hle⟩
  · exact hx
  · exact absurd (Int.sub_pos.2 hstored) (Int.not_lt.2 (hle rfl))

/-- An entry outlives its expiration time by what passed between the two clock readings, at most. -/
theorem gone_after_delay (ht : expirationTime + (now - untilNow) ≤ t) :
    ((c.runs (before ++ .addWithExpiration k v expirationTime untilNow now later order ::
      after)).get t k).1 = none := by
  rw [get_fst (hc.runs _)]
  cases hlive : (c.runs (before ++ .addWithExpiration k v expirationTime untilNow now later order ::
      after)).live t k with
  | none => rfl
  | some w =>
    obtain ⟨d, hview, hexp⟩ := live_eq_some.1 hlive
    cases view_added hc before after k v expirationTime untilNow now later order hstored hlast hview
    refine absurd ?_ hexp
    intro hlt
    linarith

/-- **An entry is gone at its expiration time** if no time passes between the reading that turns it
into a duration and the one that turns it back: wherever in a run `AddWithExpiration` stored the
entry, a lookup from that time on misses, unless something else was stored under the key. -/
theorem gone_at_expiration (hread : now ≤ untilNow) (ht : expirationTime ≤ t) :
    ((c.runs (before ++ .addWithExpiration k v expirationTime untilNow now later order ::
      after)).get t k).1 = none := by
  apply gone_after_delay hc before after k v expirationTime untilNow now later order hstored hlast
  linarith

end Added

/-- An entry that expires at 10 is not found at 10. -/
theorem newLRU_gone : (((newLRU 0).runs [.addWithExpiration (ascii "k") ⟨[1]⟩ 10 3 3 3 [],
    .get 5 (ascii "k")]).get 10 (ascii "k")).1 = none :=
  gone_at_expiration (wf_newLRU 0) [] [.get 5 (ascii "k")] (ascii "k") ⟨[1]⟩
    10 3 3 3 [] (by decide) (by simp [Call.Stores]) 10 (by decide) (by decide)

/-- The time to expiration is read at 0 and the deadline set at 5: an entry that expires at 10 is
found at 12. -/
theorem newLRU_outlives : ∃ call : Call,
    call = .addWithExpiration (ascii "k") ⟨[1]⟩ 10 0 5 5 [] ∧
    (0 :: call.times ++ [12]).Pairwise (· ≤ ·) ∧
    (((newLRU 0).runs [call]).get 12 (ascii "k")).1 = some ⟨[1]⟩ :=
  ⟨_, rfl, by decide, by decide +kernel⟩

end Locache.Cache
