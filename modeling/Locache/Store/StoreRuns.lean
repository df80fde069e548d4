import Locache.Store.LruRuns
import Locache.Store.Store

/-!
# Runs of the two stores

A store consists of LRU caches, one or many, and each of its calls is a call of these caches. So a
run of a store is a run of each of its caches (`evolves_runs`), and what every call of a cache keeps
holds of all the caches of a store.
-/

namespace Locache.Store

open LruCache (deadline)

/-- A call on a store with the clock readings it takes. A cleanup tick goes through the shards one
by one; its step for one shard is a call of its own. -/
inductive Call (V : Type) where
  | get (now : Time) (key : GoString)
  | set (key : GoString) (value : Option V) (now later : Time)
  | setWithExpiration (key : GoString) (value : Option V) (expiration : Duration)
      (now later : Time)
  | delete (key : GoString)
  | clear
  | cleanup (shard : Nat) (now : Time)

variable {V : Type}

namespace Call

/-- The clock readings of a call, in the order they are taken. -/
def times : Call V → List Time
  | .get now _ | .cleanup _ now => [now]
  | .set _ _ now later | .setWithExpiration _ _ _ now later => [now, later]
  | .delete _ | .clear => []

/-- The clock after a call: its last reading, if it took one. -/
def clock (now : Time) (call : Call V) : Time := (call.times.getLast?).getD now

/-- What a call makes of a key: nothing, no entry, or the entry it stores. -/
def effect (k : GoString) : Call V → Option (Option (V × Option Time))
  | .set key value now _ =>
    if key = k then some (value.map fun v => (v, deadline now 0)) else none
  | .setWithExpiration key value expiration now _ =>
    if key = k then some (value.map fun v => (v, deadline now expiration)) else none
  | .delete key => if key = k then some none else none
  | .clear => some none
  | .get _ _ | .cleanup _ _ => none

/-- No entry gets a deadline. -/
def Plain : Call V → Prop
  | .setWithExpiration _ _ expiration _ _ => expiration ≤ 0
  | _ => True

/-- The store after a call; ranges over maps visit their keys in the given order. -/
def run [Value V] (order : List GoString) : Call V → Store V → Store V
  | .get now key, s => (s.get now key).2
  | .set key value now later, s => s.set key value now later order
  | .setWithExpiration key value expiration now later, s =>
    s.setWithExpiration key value expiration now later order
  | .delete key, s => (s.delete key).2
  | .clear, s => s.clear order
  | .cleanup shard now, s => s.cleanupShard shard order now

end Call

/-- The store after the calls; `orders` gives the order of the ranges in each call. -/
def runs [Value V] (orders : Nat → List GoString) : List (Call V) → Store V → Store V
  | [], s => s
  | call :: calls, s => runs (fun n => orders (n + 1)) calls (call.run (orders 0) s)

/-! ## The caches of a store -/

/-- The LRU caches a store consists of. -/
def caches : Store V → List (LruCache V)
  | lru c => [c]
  | sharded s => s.shards

theorem mem_caches {s : Store V} {key : GoString} {c : LruCache V} (h : s.shard key = some c) :
    c ∈ s.caches := by
  cases s with
  | lru c' =>
    cases h
    exact List.mem_singleton_self _
  | sharded s => exact List.mem_of_getElem? h

/-- A cache after calls of its own. -/
def Evolves [Value V] (c c' : LruCache V) : Prop := ∃ calls, c' = LruCache.runs calls c

theorem wf_iff [Value V] {s : Store V} : s.WF ↔ s.caches ≠ [] ∧ ∀ c ∈ s.caches, c.WF := by
  cases s with
  | lru c => simp [WF, caches]
  | sharded s => rfl

theorem forall₂_modify {α : Type} {R : α → α → Prop} (hrefl : ∀ a, R a a) {f : α → α}
    (hf : ∀ a, R a (f a)) (l : List α) (i : Nat) : List.Forall₂ R l (l.modify i f) := by
  induction l generalizing i with
  | nil => simp
  | cons a l ih =>
    cases i with
    | zero =>
      rw [List.modify_zero_cons]
      exact .cons (hf a) (List.forall₂_same.2 fun x _ => hrefl x)
    | succ i =>
      rw [List.modify_succ_cons]
      exact .cons (hrefl a) (ih i)

theorem forall₂_trans {α : Type} {R : α → α → Prop} (htrans : ∀ a b c, R a b → R b c → R a c)
    {l₁ l₂ l₃ : List α} (h₁ : List.Forall₂ R l₁ l₂) (h₂ : List.Forall₂ R l₂ l₃) :
    List.Forall₂ R l₁ l₃ := by
  induction h₁ generalizing l₃ with
  | nil => exact h₂
  | cons hab _ ih =>
    cases h₂ with
    | cons hbc hrest => exact .cons (htrans _ _ _ hab hbc) (ih hrest)

section Caches

variable [Value V] {s : Store V}

theorem evolves_refl (c : LruCache V) : Evolves c c := ⟨[], rfl⟩

theorem evolves_modify (s : Store V) (key : GoString) (call : LruCache.Call V) :
    List.Forall₂ Evolves s.caches (s.modify key call.run).caches := by
  cases s with
  | lru c => exact .cons ⟨[call], rfl⟩ .nil
  | sharded s => exact forall₂_modify evolves_refl (fun c => ⟨[call], rfl⟩) _ _

theorem evolves_modifyAt (s : Store V) (i : Nat) (call : LruCache.Call V) :
    List.Forall₂ Evolves s.caches (s.modifyAt i call.run).caches := by
  cases s with
  | lru c =>
    refine .cons ?_ .nil
    split
    · exact ⟨[call], rfl⟩
    · exact evolves_refl c
  | sharded s => exact forall₂_modify evolves_refl (fun c => ⟨[call], rfl⟩) _ _

/-- A call of the store is a call of its caches. -/
theorem evolves_run (order : List GoString) (call : Call V) (s : Store V) :
    List.Forall₂ Evolves s.caches (call.run order s).caches := by
  have hrefl : List.Forall₂ Evolves s.caches s.caches :=
    List.forall₂_same.2 fun c _ => evolves_refl c
  cases call with
  | get now key =>
    show List.Forall₂ Evolves s.caches (s.get now key).2.caches
    unfold Store.get
    split
    · exact hrefl
    · exact evolves_modify s key (.get now key)
  | set key value now later => exact evolves_modify s key (.set key value now later order)
  | setWithExpiration key value expiration now later =>
    exact evolves_modify s key (.setWithExpiration key value expiration now later order)
  | delete key =>
    show List.Forall₂ Evolves s.caches (s.delete key).2.caches
    unfold Store.delete
    split
    · exact hrefl
    · exact evolves_modify s key (.delete key)
  | clear =>
    cases s with
    | lru c => exact .cons ⟨[.clear order], rfl⟩ .nil
    | sharded s =>
      show List.Forall₂ Evolves s.shards (s.shards.map (LruCache.clear order))
      rw [List.forall₂_map_right_iff]
      exact List.forall₂_same.2 fun c _ => ⟨[.clear order], rfl⟩
  | cleanup shard now => exact evolves_modifyAt s shard (.cleanupExpired order now)

/-- **A run of a store is a run of each of its caches.** -/
theorem evolves_runs (orders : Nat → List GoString) (calls : List (Call V)) (s : Store V) :
    List.Forall₂ Evolves s.caches (s.runs orders calls).caches := by
  induction calls generalizing s orders with
  | nil => exact List.forall₂_same.2 fun c _ => evolves_refl c
  | cons call calls ih =>
    apply forall₂_trans _ (evolves_run (orders 0) call s) (ih _ (call.run (orders 0) s))
    rintro c₁ c₂ c₃ ⟨calls₁, rfl⟩ ⟨calls₂, rfl⟩
    exact ⟨calls₁ ++ calls₂, (List.foldl_append ..).symm⟩

/-- What every call of a cache keeps, every call of the store keeps of all its caches. -/
theorem caches_run {P : LruCache V → Prop} (hP : ∀ (call : LruCache.Call V) c, P c → P (call.run c))
    (order : List GoString) (call : Call V) (h : ∀ c ∈ s.caches, P c) :
    ∀ c ∈ (call.run order s).caches, P c := by
  have hruns : ∀ calls c, P c → P (LruCache.runs calls c) := by
    intro calls
    induction calls with
    | nil => exact fun c hc => hc
    | cons call calls ih => exact fun c hc => ih _ (hP call c hc)
  have hevolves := evolves_run order call s
  generalize s.caches = l at h hevolves
  generalize (call.run order s).caches = l' at hevolves
  induction hevolves with
  | nil => exact h
  | cons hc _ ih =>
    obtain ⟨calls, rfl⟩ := hc
    rw [List.forall_mem_cons] at h ⊢
    exact ⟨hruns calls _ h.1, ih h.2⟩

theorem WF.run (hs : s.WF) (order : List GoString) (call : Call V) : (call.run order s).WF := by
  rw [wf_iff] at hs ⊢
  refine ⟨?_, caches_run (fun call c hc => hc.run call) order call hs.2⟩
  intro hnil
  have hlength := (evolves_run order call s).length_eq
  rw [hnil] at hlength
  exact hs.1 (List.eq_nil_of_length_eq_zero hlength)

/-- A limit that is not there does not come about. -/
theorem unlimited_run (hmax : ∀ c ∈ s.caches, c.maxBytes ≤ 0) (order : List GoString)
    (call : Call V) : ∀ c ∈ (call.run order s).caches, c.maxBytes ≤ 0 := by
  apply caches_run _ order call hmax
  intro call c hc
  rw [LruCache.maxBytes_run]
  exact hc

end Caches

end Locache.Store
