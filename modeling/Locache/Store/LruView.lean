import Locache.Store.Lru
import Mathlib.Algebra.BigOperators.Group.List.Basic

/-!
# The LRU cache as a map

Under the representation invariant a cache is a partial map from keys to a value and a deadline.
Every operation keeps the invariant, and what it does to the map is said once here: removing an
element removes its key (`view_removeElement`), moving an element changes nothing
(`view_moveToBack`), the eviction passes only remove entries (`evictLocked_sub`), and a store puts
its entry into the map before it evicts (`setWithExpiration_sub`).
-/

namespace Locache.Store.LruCache

variable {V : Type} {c c' : LruCache V} {id : Nat} {e : Entry V} {k key : GoString} {v : V}

/-- The value and deadline stored under a key. -/
def view (c : LruCache V) (k : GoString) : Option (V × Option Time) :=
  (c.list.find? fun x => x.2.key = k).map fun x => (x.2.value, c.expires.lookup k)

/-- Every entry of `c'` is an entry of `c`. -/
def Sub (c' c : LruCache V) : Prop := ∀ k x, c'.view k = some x → c.view k = some x

theorem Sub.refl (c : LruCache V) : Sub c c := fun _ _ h => h

theorem Sub.trans {c₁ c₂ c₃ : LruCache V} (h₁ : Sub c₁ c₂) (h₂ : Sub c₂ c₃) : Sub c₁ c₃ :=
  fun k x h => h₂ k x (h₁ k x h)

theorem view_eq_none : c.view k = none ↔ ∀ x ∈ c.list, x.2.key ≠ k := by
  simp [view]

variable [Value V]

theorem WF.view_eq_some (hc : c.WF) {d : Option Time} :
    c.view k = some (v, d) ↔ (∃ id, (id, ⟨k, v⟩) ∈ c.list) ∧ c.expires.lookup k = d := by
  constructor
  · intro h
    simp only [view, Option.map_eq_some_iff, Prod.mk.injEq] at h
    obtain ⟨⟨id, e⟩, hf, rfl, rfl⟩ := h
    have hk : e.key = k := by simpa using List.find?_some hf
    subst hk
    exact ⟨⟨id, List.mem_of_find?_eq_some hf⟩, rfl⟩
  · rintro ⟨⟨id, hm⟩, rfl⟩
    have := find?_of_mem (f := fun x : Nat × Entry V => x.2.key) hc.keys hm
    simp only [view, this, Option.map_some]

/-- Two caches with the same entries and deadline at a key have the same view of it. -/
theorem view_congr (hc : c.WF) (hc' : c'.WF)
    (hm : ∀ v, (∃ id, (id, ⟨k, v⟩) ∈ c'.list) ↔ ∃ id, (id, ⟨k, v⟩) ∈ c.list)
    (he : c'.expires.lookup k = c.expires.lookup k) : c'.view k = c.view k := by
  ext ⟨v, d⟩
  rw [hc'.view_eq_some, hc.view_eq_some, hm, he]

theorem WF.view_of_lookup_none (hc : c.WF) (h : c.items.lookup k = none) : c.view k = none := by
  rw [view_eq_none]
  rintro ⟨id, ⟨k', v⟩⟩ hx rfl
  rw [(hc.items k' id).2 ⟨v, hx⟩] at h
  cases h

/-! ## Removing an element -/

theorem sum_filter_ne {l : List (Nat × Entry V)} (hnd : (l.map (·.1)).Nodup)
    {x : Nat × Entry V} (hx : x ∈ l) :
    ((l.filter fun y => y.1 ≠ x.1).map charge).sum = (l.map charge).sum - charge x := by
  induction l with
  | nil => cases hx
  | cons y l ih =>
    rw [List.map_cons, List.nodup_cons] at hnd
    by_cases hy : y.1 = x.1
    · have hyx : y = x := by
        rcases List.mem_cons.1 hx with rfl | hx
        · rfl
        · exact absurd (hy ▸ List.mem_map_of_mem hx) hnd.1
      subst hyx
      have hl : l.filter (fun z => z.1 ≠ y.1) = l := by
        rw [List.filter_eq_self]
        intro z hz
        simp only [ne_eq, decide_not, Bool.not_eq_eq_eq_not, Bool.not_true, decide_eq_false_iff_not]
        exact fun he => hnd.1 (he ▸ List.mem_map_of_mem hz)
      rw [List.filter_cons_of_neg (by simp), hl, List.map_cons, List.sum_cons]
      omega
    · have hx' : x ∈ l := by
        rcases List.mem_cons.1 hx with rfl | hx
        · exact absurd rfl hy
        · exact hx
      rw [List.filter_cons_of_pos (by simpa using hy), List.map_cons, List.sum_cons, ih hnd.2 hx',
        List.map_cons, List.sum_cons]
      omega

theorem mem_removeElement {x : Nat × Entry V} :
    x ∈ (c.removeElement id).list ↔ x ∈ c.list ∧ x.1 ≠ id := by
  unfold removeElement
  cases he : c.entry id with
  | none =>
    simp only
    exact ⟨fun h => ⟨h, entry_eq_none he x h⟩, fun h => h.1⟩
  | some e => simp

theorem WF.lookup_expires_removeElement (hc : c.WF) (hm : (id, e) ∈ c.list) :
    (c.removeElement id).expires.lookup k = if k = e.key then none else c.expires.lookup k := by
  simp only [removeElement, hc.entry_of_mem hm]
  split
  · next h => subst h; exact AList.lookup_erase _ _
  · next h => exact AList.lookup_erase_ne h

theorem WF.lookup_items_removeElement (hc : c.WF) (hm : (id, e) ∈ c.list) :
    (c.removeElement id).items.lookup k = if k = e.key then none else c.items.lookup k := by
  simp only [removeElement, hc.entry_of_mem hm]
  split
  · next h => subst h; exact AList.lookup_erase _ _
  · next h => exact AList.lookup_erase_ne h

theorem WF.removeElement (hc : c.WF) (id : Nat) : (c.removeElement id).WF := by
  cases he : c.entry id with
  | none => simpa only [LruCache.removeElement, he] using hc
  | some e =>
    have hm := mem_of_entry he
    have hsub : (c.removeElement id).list.Sublist c.list := by
      simp only [LruCache.removeElement, he]; exact List.filter_sublist
    refine ⟨hc.ids.sublist (hsub.map _), hc.keys.sublist (hsub.map _), ?_, ?_, ?_, ?_⟩
    · intro k i
      rw [hc.lookup_items_removeElement hm]
      simp only [mem_removeElement]
      split
      · next hk =>
        subst hk
        constructor
        · intro h; cases h
        · rintro ⟨v, hv, hi⟩
          exact absurd (congrArg Prod.fst (hc.key_unique hv hm rfl)) hi
      · next hk =>
        rw [hc.items]
        constructor
        · rintro ⟨v, hv⟩
          refine ⟨v, hv, fun hi => hk ?_⟩
          exact congrArg (fun x => x.2.key) (hc.id_unique hv hm hi)
        · rintro ⟨v, hv, -⟩
          exact ⟨v, hv⟩
    · intro k hk
      rw [← AList.lookup_isSome, hc.lookup_expires_removeElement hm] at hk
      rw [← AList.lookup_isSome, hc.lookup_items_removeElement hm]
      split at hk
      · cases hk
      · next hne =>
        rw [if_neg hne, AList.lookup_isSome]
        exact hc.expires k (AList.lookup_isSome.1 hk)
    · have hs := sum_filter_ne hc.ids hm
      simp only [LruCache.removeElement, he]
      rw [hs, hc.used]
      rfl
    · intro x hx
      have : (c.removeElement id).nextElem = c.nextElem := by
        simp only [LruCache.removeElement, he]
      rw [this]
      exact hc.fresh x (mem_removeElement.1 hx).1

/-- Removing the element of a key removes the key and nothing else. -/
theorem WF.view_removeElement (hc : c.WF) (h : c.items.lookup key = some id) (k : GoString) :
    (c.removeElement id).view k = if k = key then none else c.view k := by
  obtain ⟨v, hm, he⟩ := hc.entry_of_lookup h
  split
  · next hk =>
    subst hk
    apply (hc.removeElement id).view_of_lookup_none
    rw [hc.lookup_items_removeElement hm, if_pos rfl]
  · next hk =>
    refine view_congr hc (hc.removeElement id) (fun w => ?_) ?_
    · simp only [mem_removeElement]
      constructor
      · rintro ⟨i, hi, -⟩; exact ⟨i, hi⟩
      · rintro ⟨i, hi⟩
        exact ⟨i, hi, fun hii => hk (congrArg (fun x => x.2.key) (hc.id_unique hi hm hii))⟩
    · rw [hc.lookup_expires_removeElement hm, if_neg hk]

theorem WF.removeElement_sub (hc : c.WF) (id : Nat) : Sub (c.removeElement id) c := by
  cases he : c.entry id with
  | none => simpa only [LruCache.removeElement, he] using Sub.refl c
  | some e =>
    intro k x h
    rw [hc.view_removeElement ((hc.items e.key id).2 ⟨e.value, mem_of_entry he⟩)] at h
    split at h
    · cases h
    · exact h

/-! ## Moving an element -/

omit [Value V] in
/-- Moving an element touches the list only. -/
theorem moveToBack_eq (c : LruCache V) (id : Nat) :
    c.moveToBack id = { c with list := (c.moveToBack id).list } := by
  unfold moveToBack
  cases c.entry id <;> rfl

theorem WF.mem_moveToBack (hc : c.WF) {x : Nat × Entry V} :
    x ∈ (c.moveToBack id).list ↔ x ∈ c.list := by
  unfold moveToBack
  cases he : c.entry id with
  | none => rfl
  | some e =>
    have hm := mem_of_entry he
    simp only [List.mem_append, List.mem_filter, List.mem_singleton, ne_eq, decide_not,
      Bool.not_eq_eq_eq_not, Bool.not_true, decide_eq_false_iff_not]
    constructor
    · rintro (⟨h, -⟩ | rfl)
      · exact h
      · exact hm
    · intro h
      by_cases hx : x.1 = id
      · exact Or.inr (hc.id_unique h hm hx)
      · exact Or.inl ⟨h, hx⟩

theorem moveToBack_perm (hc : c.WF) : (c.moveToBack id).list.Perm c.list := by
  unfold moveToBack
  cases he : c.entry id with
  | none => exact List.Perm.refl _
  | some e =>
    have hm := mem_of_entry he
    have hnd : c.list.Nodup := List.Nodup.of_map _ hc.ids
    have hnd' : (c.list.filter (fun x => x.1 ≠ id) ++ [(id, e)]).Nodup := by
      refine List.Nodup.append (hnd.filter _) (List.nodup_singleton _) ?_
      intro x hx hx'
      simp only [List.mem_singleton] at hx'
      subst hx'
      simp at hx
    refine (List.perm_ext_iff_of_nodup hnd' hnd).2 fun x => ?_
    have : x ∈ (c.moveToBack id).list ↔ x ∈ c.list := hc.mem_moveToBack
    simpa only [moveToBack, he] using this

theorem WF.moveToBack (hc : c.WF) (id : Nat) : (c.moveToBack id).WF := by
  have hp : (c.moveToBack id).list.Perm c.list := moveToBack_perm hc
  rw [moveToBack_eq]
  refine ⟨(hp.map _).nodup_iff.2 hc.ids, (hp.map _).nodup_iff.2 hc.keys, ?_, hc.expires, ?_, ?_⟩
  · intro k i
    simp only [hc.mem_moveToBack]
    exact hc.items k i
  · exact hc.used.trans (hp.map charge).sum_eq.symm
  · intro x hx
    exact hc.fresh x (hp.mem_iff.1 hx)

theorem WF.view_moveToBack (hc : c.WF) (id : Nat) (k : GoString) :
    (c.moveToBack id).view k = c.view k := by
  refine view_congr hc (hc.moveToBack id) (fun w => ?_) ?_
  · simp only [hc.mem_moveToBack]
  · unfold LruCache.moveToBack
    cases c.entry id <;> rfl

/-! ## The eviction passes -/

theorem evictExpired_spec (now : Time) (keys : List GoString) (hc : c.WF) :
    (evictExpired now keys c).WF ∧ Sub (evictExpired now keys c) c ∧
      ∀ k v d, c.view k = some (v, d) → ¬ Expired d now →
        (evictExpired now keys c).view k = some (v, d) := by
  induction keys generalizing c with
  | nil => exact ⟨hc, Sub.refl c, fun _ _ _ h _ => h⟩
  | cons key keys ih =>
    simp only [evictExpired]
    split
    · next hexp =>
      cases hl : c.items.lookup key with
      | none => exact ih hc
      | some id =>
        obtain ⟨h1, h2, h3⟩ := ih (hc.removeElement id)
        refine ⟨h1, h2.trans (hc.removeElement_sub id), fun k v d hk hd => h3 k v d ?_ hd⟩
        rw [hc.view_removeElement hl, if_neg]
        · exact hk
        · rintro rfl
          rw [((hc.view_eq_some).1 hk).2] at hexp
          exact hd hexp
    · exact ih hc

theorem evictOverflow_spec (n : Nat) (hc : c.WF) :
    (evictOverflow n c).WF ∧ Sub (evictOverflow n c) c := by
  induction n generalizing c with
  | zero => exact ⟨hc, Sub.refl c⟩
  | succ n ih =>
    simp only [evictOverflow]
    split
    · split
      · exact ⟨hc, Sub.refl c⟩
      · next id e _ _ =>
        obtain ⟨h1, h2⟩ := ih (hc.removeElement id)
        exact ⟨h1, h2.trans (hc.removeElement_sub id)⟩
    · exact ⟨hc, Sub.refl c⟩

theorem WF.evictLocked (hc : c.WF) (order : List GoString) (now : Time) :
    (evictLocked order now c).WF :=
  (evictOverflow_spec _ (evictExpired_spec now _ hc).1).1

theorem WF.evictLocked_sub (hc : c.WF) (order : List GoString) (now : Time) :
    Sub (LruCache.evictLocked order now c) c :=
  (evictOverflow_spec _ (evictExpired_spec now _ hc).1).2.trans (evictExpired_spec now _ hc).2.1

/-! ## The operations -/

/-- A lookup returns the stored value unless its deadline has passed. -/
theorem WF.get_fst (hc : c.WF) (now : Time) :
    (c.get now key).1 = (c.view key).bind fun x => if Expired x.2 now then none else some x.1 := by
  unfold LruCache.get
  cases hl : c.items.lookup key with
  | none => simp [hc.view_of_lookup_none hl]
  | some id =>
    obtain ⟨v, hm, he⟩ := hc.entry_of_lookup hl
    have hv : c.view key = some (v, c.expires.lookup key) := hc.view_eq_some.2 ⟨⟨id, hm⟩, rfl⟩
    simp only [hv, Option.bind_some, he]
    split <;> rfl

theorem WF.get (hc : c.WF) (now : Time) (key : GoString) : (c.get now key).2.WF := by
  unfold LruCache.get
  split
  · exact hc
  · split
    · exact hc.removeElement _
    · exact hc.moveToBack _

/-- A lookup leaves every entry as it is, except that it may drop its own when that is expired. -/
theorem WF.view_get (hc : c.WF) (now : Time) (k : GoString) :
    (c.get now key).2.view k = c.view k ∨
      k = key ∧ (c.get now key).2.view k = none ∧ ∀ x, c.view k = some x → Expired x.2 now := by
  unfold LruCache.get
  cases hl : c.items.lookup key with
  | none => exact Or.inl rfl
  | some id =>
    simp only
    split
    · next hexp =>
      rw [hc.view_removeElement hl]
      split
      · next hk =>
        subst hk
        refine Or.inr ⟨rfl, rfl, ?_⟩
        rintro ⟨v, d⟩ hx
        rw [((hc.view_eq_some).1 hx).2] at hexp
        exact hexp
      · exact Or.inl rfl
    · exact Or.inl (hc.view_moveToBack id k)

theorem WF.delete (hc : c.WF) (key : GoString) : (c.delete key).2.WF := by
  unfold LruCache.delete
  split
  · exact hc.removeElement _
  · exact hc

theorem WF.view_delete (hc : c.WF) (key k : GoString) :
    (c.delete key).2.view k = if k = key then none else c.view k := by
  unfold LruCache.delete
  cases hl : c.items.lookup key with
  | some id => exact hc.view_removeElement hl k
  | none =>
    simp only
    split
    · next h => subst h; exact hc.view_of_lookup_none hl
    · rfl

/-! ## Storing -/

omit [Value V] in
theorem lookup_setExpires (d : Option Time) (k : GoString) :
    (c.setExpires key d).expires.lookup k = if k = key then d else c.expires.lookup k := by
  by_cases h : k = key
  · subst h; cases d <;> simp [setExpires]
  · cases d <;> simp [setExpires, h]

section Overwrite

variable {d : Option Time} (hc : c.WF) (hm : (id, e) ∈ c.list)

include hm in
theorem mem_overwrite {x : Nat × Entry V} :
    x ∈ (c.overwrite id e v).list ↔
      x = (id, ⟨e.key, v⟩) ∨ x ∈ c.list ∧ x.1 ≠ id := by
  simp only [overwrite, List.mem_map]
  constructor
  · rintro ⟨y, hy, rfl⟩
    split
    · exact Or.inl rfl
    · next h => exact Or.inr ⟨hy, h⟩
  · rintro (rfl | ⟨hx, hne⟩)
    · exact ⟨(id, e), hm, by simp⟩
    · exact ⟨x, hx, by simp [hne]⟩

include hc hm in
theorem sum_overwrite :
    ((c.overwrite id e v).list.map charge).sum =
      (c.list.map charge).sum + ((Value.len v : Int) - Value.len e.value) := by
  have key : ∀ l : List (Nat × Entry V), (l.map (·.1)).Nodup → (id, e) ∈ l →
      ((l.map fun x => if x.1 = id then (id, (⟨e.key, v⟩ : Entry V)) else x).map charge).sum =
        (l.map charge).sum + ((Value.len v : Int) - Value.len e.value) := by
    intro l
    induction l with
    | nil => intro _ h; cases h
    | cons y l ih =>
      intro hnd hy
      rw [List.map_cons, List.nodup_cons] at hnd
      simp only [List.map_cons, List.sum_cons]
      by_cases hid : y.1 = id
      · have hyx : y = (id, e) := by
          rcases List.mem_cons.1 hy with h | h
          · exact h.symm
          · exact absurd (List.mem_map_of_mem (f := Prod.fst) h) (hid ▸ hnd.1)
        have hl : l.map (fun x => if x.1 = id then (id, (⟨e.key, v⟩ : Entry V)) else x) = l := by
          conv => rhs; rw [← List.map_id l]
          refine List.map_congr_left fun z hz => if_neg fun he => hnd.1 ?_
          rw [hid, ← he]
          exact List.mem_map_of_mem hz
        rw [if_pos hid, hl, hyx]
        simp only [charge]
        push_cast
        omega
      · have hy' : (id, e) ∈ l := by
          rcases List.mem_cons.1 hy with h | h
          · exact absurd (congrArg Prod.fst h).symm hid
          · exact h
        rw [if_neg hid, ih hnd.2 hy']
        omega
  exact key c.list hc.ids hm

include hc hm in
theorem WF.overwrite : ((c.setExpires e.key d).overwrite id e v).WF := by
  have hmem : ∀ x, x ∈ ((c.setExpires e.key d).overwrite id e v).list ↔
      x = (id, ⟨e.key, v⟩) ∨ x ∈ c.list ∧ x.1 ≠ id := fun x => mem_overwrite (v := v) hm
  have hfst : ((c.setExpires e.key d).overwrite id e v).list.map (·.1) = c.list.map (·.1) := by
    simp only [LruCache.overwrite, setExpires, List.map_map]
    refine List.map_congr_left fun x _ => ?_
    simp only [Function.comp_apply]
    split
    · next h => exact h.symm
    · rfl
  have hkey : ((c.setExpires e.key d).overwrite id e v).list.map (·.2.key) =
      c.list.map (·.2.key) := by
    simp only [LruCache.overwrite, setExpires, List.map_map]
    refine List.map_congr_left fun x hx => ?_
    simp only [Function.comp_apply]
    split
    · next h => rw [hc.id_unique hx hm h]
    · rfl
  have hit : c.items.lookup e.key = some id := (hc.items _ _).2 ⟨e.value, hm⟩
  refine ⟨hfst ▸ hc.ids, hkey ▸ hc.keys, ?_, ?_, ?_, ?_⟩
  · intro k i
    show c.items.lookup k = some i ↔ _
    rw [hc.items]
    simp only [hmem]
    constructor
    · rintro ⟨w, hw⟩
      by_cases hi : i = id
      · subst hi
        have := hc.id_unique hw hm rfl
        have hk : k = e.key := congrArg (fun x => x.2.key) this
        exact ⟨v, Or.inl (by rw [hk])⟩
      · exact ⟨w, Or.inr ⟨hw, hi⟩⟩
    · rintro ⟨w, hw | ⟨hw, -⟩⟩
      · simp only [Prod.mk.injEq, Entry.mk.injEq] at hw
        obtain ⟨rfl, rfl, rfl⟩ := hw
        exact ⟨e.value, hm⟩
      · exact ⟨w, hw⟩
  · intro k hk
    rw [← AList.lookup_isSome] at hk
    have hk' : ((c.setExpires e.key d).expires.lookup k).isSome := hk
    rw [lookup_setExpires] at hk'
    show k ∈ c.items
    split at hk'
    · next h => rw [h, ← AList.lookup_isSome, hit]; rfl
    · exact hc.expires k (AList.lookup_isSome.1 hk')
  · have hs := sum_overwrite (v := v) hc hm
    show c.usedBytes + _ = _
    rw [hc.used]
    exact hs.symm
  · intro x hx
    show x.1 < c.nextElem
    rcases (hmem x).1 hx with rfl | ⟨hx, -⟩
    · exact hc.fresh (id, e) hm
    · exact hc.fresh _ hx

include hc hm in
theorem WF.view_overwrite (k : GoString) :
    ((c.setExpires e.key d).overwrite id e v).view k =
      if k = e.key then some (v, d) else c.view k := by
  have hwf := WF.overwrite (v := v) (d := d) hc hm
  have hmem : ∀ x, x ∈ ((c.setExpires e.key d).overwrite id e v).list ↔
      x = (id, ⟨e.key, v⟩) ∨ x ∈ c.list ∧ x.1 ≠ id := fun x => mem_overwrite (v := v) hm
  split
  · next hk =>
    subst hk
    refine hwf.view_eq_some.2 ⟨⟨id, (hmem _).2 (Or.inl rfl)⟩, ?_⟩
    show (c.setExpires e.key d).expires.lookup e.key = d
    rw [lookup_setExpires, if_pos rfl]
  · next hk =>
    refine view_congr hc hwf (fun w => ?_) ?_
    · simp only [hmem]
      constructor
      · rintro ⟨i, hi | ⟨hi, -⟩⟩
        · exact absurd (congrArg (fun x => x.2.key) hi) hk
        · exact ⟨i, hi⟩
      · rintro ⟨i, hi⟩
        exact ⟨i, Or.inr ⟨hi, fun h => hk (congrArg (fun x => x.2.key) (hc.id_unique hi hm h))⟩⟩
    · show (c.setExpires e.key d).expires.lookup k = _
      rw [lookup_setExpires, if_neg hk]

end Overwrite

section PushBack

variable {d : Option Time} (hc : c.WF) (hn : c.items.lookup key = none)

include hc hn in
theorem WF.pushBack : ((c.setExpires key d).pushBack key v).WF := by
  have hfresh : c.nextElem ∉ c.list.map (·.1) := by
    intro h
    obtain ⟨x, hx, he⟩ := List.mem_map.1 h
    exact absurd (hc.fresh x hx) (by omega)
  have hkey : key ∉ c.list.map (·.2.key) := by
    intro h
    obtain ⟨⟨i, k, w⟩, hx, rfl⟩ := List.mem_map.1 h
    rw [(hc.items k i).2 ⟨w, hx⟩] at hn
    cases hn
  refine ⟨?_, ?_, ?_, ?_, ?_, ?_⟩
  · simp only [LruCache.pushBack, setExpires, List.map_append, List.map_cons, List.map_nil]
    exact List.nodup_append.2 ⟨hc.ids, List.nodup_singleton _,
      fun a ha b hb => by rintro rfl; rw [List.mem_singleton.1 hb] at ha; exact hfresh ha⟩
  · simp only [LruCache.pushBack, setExpires, List.map_append, List.map_cons, List.map_nil]
    exact List.nodup_append.2 ⟨hc.keys, List.nodup_singleton _,
      fun a ha b hb => by rintro rfl; rw [List.mem_singleton.1 hb] at ha; exact hkey ha⟩
  · intro k i
    simp only [LruCache.pushBack, setExpires, List.mem_append, List.mem_singleton, Prod.mk.injEq,
      Entry.mk.injEq]
    by_cases hk : k = key
    · subst hk
      rw [AList.lookup_insert]
      constructor
      · rintro ⟨⟩
        exact ⟨v, Or.inr ⟨rfl, rfl, rfl⟩⟩
      · rintro ⟨w, hw | ⟨rfl, -, -⟩⟩
        · exact absurd (List.mem_map.2 ⟨_, hw, rfl⟩) hkey
        · rfl
    · rw [AList.lookup_insert_ne hk, hc.items]
      constructor
      · rintro ⟨w, hw⟩; exact ⟨w, Or.inl hw⟩
      · rintro ⟨w, hw | ⟨-, rfl, -⟩⟩
        · exact ⟨w, hw⟩
        · exact absurd rfl hk
  · intro k hk
    rw [← AList.lookup_isSome] at hk
    have hk' : ((c.setExpires key d).expires.lookup k).isSome := hk
    rw [lookup_setExpires] at hk'
    show k ∈ c.items.insert key c.nextElem
    rw [AList.mem_insert]
    split at hk'
    · next h => exact Or.inl h
    · exact Or.inr (hc.expires k (AList.lookup_isSome.1 hk'))
  · simp only [LruCache.pushBack, setExpires, List.map_append, List.map_cons, List.map_nil,
      List.sum_append, List.sum_cons, List.sum_nil, charge]
    rw [hc.used]
    omega
  · intro x hx
    show x.1 < c.nextElem + 1
    simp only [LruCache.pushBack, setExpires, List.mem_append, List.mem_singleton] at hx
    rcases hx with hx | rfl
    · exact Nat.lt_succ_of_lt (hc.fresh x hx)
    · exact Nat.lt_succ_self _

include hc hn in
theorem WF.view_pushBack (k : GoString) :
    ((c.setExpires key d).pushBack key v).view k = if k = key then some (v, d) else c.view k := by
  have hwf := WF.pushBack (v := v) (d := d) hc hn
  split
  · next hk =>
    subst hk
    refine hwf.view_eq_some.2 ⟨⟨c.nextElem, ?_⟩, ?_⟩
    · simp [LruCache.pushBack, setExpires]
    · show (c.setExpires k d).expires.lookup k = d
      rw [lookup_setExpires, if_pos rfl]
  · next hk =>
    refine view_congr hc hwf (fun w => ?_) ?_
    · simp only [LruCache.pushBack, setExpires, List.mem_append, List.mem_singleton,
        Prod.mk.injEq, Entry.mk.injEq]
      constructor
      · rintro ⟨i, hi | ⟨-, rfl, -⟩⟩
        · exact ⟨i, hi⟩
        · exact absurd rfl hk
      · rintro ⟨i, hi⟩; exact ⟨i, Or.inl hi⟩
    · show (c.setExpires key d).expires.lookup k = _
      rw [lookup_setExpires, if_neg hk]

end PushBack

/-- The cache right after a store has put its entry in, before anything is evicted. -/
theorem WF.setWithExpiration_eq (hc : c.WF) (key : GoString) (v : V) (expiration : Duration)
    (now later : Time) (order : List GoString) :
    ∃ c₁ : LruCache V, c₁.WF ∧
      (∀ k, c₁.view k = if k = key then some (v, deadline now expiration) else c.view k) ∧
      c.setWithExpiration key (some v) expiration now later order =
        LruCache.evictLocked order later c₁ := by
  have hit : (c.setExpires key (deadline now expiration)).items = c.items := rfl
  cases hl : c.items.lookup key with
  | none =>
    refine ⟨_, WF.pushBack (v := v) (d := deadline now expiration) hc hl,
      WF.view_pushBack hc hl, ?_⟩
    simp only [setWithExpiration, hit, hl]
  | some id =>
    obtain ⟨w, hm, he⟩ := hc.entry_of_lookup hl
    have he' : (c.setExpires key (deadline now expiration)).entry id = some ⟨key, w⟩ := he
    have hwf := WF.overwrite (v := v) (d := deadline now expiration) hc hm
    refine ⟨_, hwf.moveToBack id, fun k => ?_, ?_⟩
    · rw [hwf.view_moveToBack, WF.view_overwrite hc hm]
    · simp only [setWithExpiration, hit, hl, he']

theorem WF.setWithExpiration (hc : c.WF) (key : GoString) (value : Option V)
    (expiration : Duration) (now later : Time) (order : List GoString) :
    (c.setWithExpiration key value expiration now later order).WF := by
  cases value with
  | none => exact hc.delete key
  | some v =>
    obtain ⟨c₁, h₁, -, he⟩ := hc.setWithExpiration_eq key v expiration now later order
    rw [he]
    exact h₁.evictLocked order later

/-- After a store every entry is the stored one or an older one of another key. -/
theorem WF.view_setWithExpiration (hc : c.WF) (key : GoString) (v : V) (expiration : Duration)
    (now later : Time) (order : List GoString) {x : V × Option Time}
    (h : (c.setWithExpiration key (some v) expiration now later order).view k = some x) :
    k = key ∧ x = (v, deadline now expiration) ∨ k ≠ key ∧ c.view k = some x := by
  obtain ⟨c₁, h₁, hv, he⟩ := hc.setWithExpiration_eq key v expiration now later order
  rw [he] at h
  have := h₁.evictLocked_sub order later k x h
  rw [hv] at this
  split at this
  · next hk => exact Or.inl ⟨hk, (Option.some.inj this).symm⟩
  · next hk => exact Or.inr ⟨hk, this⟩

theorem WF.clear (c : LruCache V) (order : List GoString) : (c.clear order).WF := by
  refine ⟨?_, ?_, ?_, ?_, ?_, ?_⟩ <;> simp [LruCache.clear]

omit [Value V] in
theorem view_clear (c : LruCache V) (order : List GoString) (k : GoString) :
    (c.clear order).view k = none := by
  simp [view, LruCache.clear]

theorem WF.empty (maxBytes : Int) (onEvicted : Bool) :
    (LruCache.empty maxBytes onEvicted : LruCache V).WF := by
  refine ⟨?_, ?_, ?_, ?_, ?_, ?_⟩ <;> simp [LruCache.empty]

omit [Value V] in
theorem view_empty (maxBytes : Int) (onEvicted : Bool) (k : GoString) :
    (LruCache.empty maxBytes onEvicted : LruCache V).view k = none := by
  simp [view, LruCache.empty]

end Locache.Store.LruCache
