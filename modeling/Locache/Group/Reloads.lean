import Locache.Group.Freshness
import Locache.Group.Outcomes

/-!
# Reads after a `Delete`

On a read-through node that owns the key for good, whose Getter always succeeds, a read that begins
after a `Delete` returns loads the key again, unless it joins a singleflight call whose load had
begun before the critical section of the `Delete`. Such a call is superseded: its second section
finds that the key was mutated and nothing is cached, and everyone who waits for it gets
`ErrCacheMiss`.
-/

namespace Locache

open Conc

variable {g : Cfg} {tr W D : Trace g} {σ σ' σ₀ : State} {t u x n : Nat} {k key : GoString}
  {o : Op} {i : Inp} {a : o.Ans} {e : Ev groupSig Inp}

/-! ## Where a load began -/

/-- The call whose load has passed its first section. -/
def Stage.past : Stage → Option Nat
  | .begun n _ | .loading n _ _ | .loaded n _ _ | .decided n _ | .removed n _ => some n
  | _ => none

/-- The load of the call `n` has passed its first section. -/
def Began (n : Nat) (D : Trace g) : Prop :=
  ∃ A B t s key i begun, D = A ++ .act t ⟨.loadBegin s key, i, begun⟩ :: B ∧
    (locOf B t).stage = .leading n

/-- The last load that goroutine `t` began is that of the call `n`. -/
def BeganBy (t n : Nat) (tr : Trace g) : Prop :=
  ∃ A B s key i begun, tr = A ++ .act t ⟨.loadBegin s key, i, begun⟩ :: B ∧
    (locOf B t).stage = .leading n ∧ ∀ ℓ ∈ A, Begins t ℓ = false

theorem BeganBy.began (h : BeganBy t n tr) : Began n tr := by
  obtain ⟨A, B, s, key, i, begun, htr, hst, -⟩ := h
  exact ⟨A, B, t, s, key, i, begun, htr, hst⟩

theorem BeganBy.cons {ℓ : Label (node g)} (h : BeganBy t n tr) (hℓ : Begins t ℓ = false) :
    BeganBy t n (ℓ :: tr) := by
  obtain ⟨A, B, s, key, i, begun, rfl, hst, hA⟩ := h
  exact ⟨ℓ :: A, B, s, key, i, begun, rfl, hst, List.forall_mem_cons.2 ⟨hℓ, hA⟩⟩

theorem Began.append {A : Trace g} (h : Began n tr) : Began n (A ++ tr) := by
  obtain ⟨X, B, t, s, key, i, begun, rfl, hst⟩ := h
  exact ⟨A ++ X, B, t, s, key, i, begun, by simp, hst⟩

/-- A goroutine passes the first section of its load only in that section. -/
theorem Move.past {ep : Option Nat} {y y' : Option (GoString × Nat)} {st st' : Stage}
    (hm : Move ep o a y st y' st') (h : st'.past = some n) :
    (st = .leading n ∧ ∃ s key, o = .loadBegin s key) ∨
      st.past = some n ∧ ∀ s key, o ≠ .loadBegin s key := by
  cases hm with
  | hit | begin =>
    cases h
    exact Or.inl ⟨rfl, _, _, rfl⟩
  | stay ho =>
    refine Or.inr ⟨h, ?_⟩
    rintro s key rfl
    cases ho
  | call | panicked | failed | fetched | lost | stored | existing | missed | remove =>
    exact Or.inr ⟨h, fun _ _ ho => by cases ho⟩
  | _ => cases h

/-- **Loads and where they began**, over whole runs. -/
theorem Run.beganBy {G : Guard (node g)} {c : Config (node g)} (h : Run G σ₀ c tr) :
    ∀ t n, (locOf tr t).stage.past = some n → BeganBy t n tr := by
  refine h.inv (P := protocol g) (I := fun tr _ => ∀ t n, (locOf tr t).stage.past = some n →
    BeganBy t n tr) ⟨?_, ?_, ?_, ?_, ?_⟩
  · intro t n hst
    cases hst
  · exact fun hI _ _ _ t n hst => (hI t n hst).cons rfl
  · intro tr σ x call o i a σ' hI _ _ hallow _ t n hst
    by_cases htx : x = t
    · subst htx
      rw [locOf_act_self] at hst
      rcases (hallow.move a).past hst with ⟨hlead, s, key, rfl⟩ | ⟨hold, hno⟩
      · exact ⟨[], tr, s, key, i, a, rfl, hlead, by simp⟩
      · refine (hI x n hold).cons ?_
        cases o with
        | loadBegin s key => exact absurd rfl (hno s key)
        | _ => rfl
    · rw [locOf_act_ne htx] at hst
      exact (hI t n hst).cons (begins_act_ne htx _)
  · exact fun hI _ _ _ t n hst => (hI t n hst).cons rfl
  · exact fun hI _ _ t n hst => (hI t n hst).cons rfl

/-- The function of a call that has returned had begun its load. -/
theorem Run.began_of_ended {G : Guard (node g)} {c : Config (node g)} (h : Run G σ₀ c tr)
    (hend : Ended n tr) : Began n tr := by
  rcases hend with ⟨t, k, s, r, -, hst⟩ | ⟨t, r, i, hi⟩
  · refine (Run.beganBy h t n ?_).began
    rcases hst with hst | hst <;> rw [hst] <;> rfl
  · obtain ⟨A, B, rfl⟩ := List.append_of_mem hi
    obtain ⟨c₁, cmd, c₂, hrun, hstep, -⟩ := h.split
    obtain ⟨call, -, ⟨key, s, -, hst⟩, -⟩ := hrun.of_act (protocol g) hstep
    change (locOf B t).stage = _ at hst
    have hbegan := (Run.beganBy hrun t n (by rw [hst]; rfl)).began
    rw [List.append_cons]
    exact hbegan.append

/-- Who began the load of a call had entered the call. -/
theorem Run.entered_of_began {G : Guard (node g)} (h₀ : σ₀.Fresh) {c : Config (node g)}
    (h : Run G σ₀ c tr) (hbegan : Began n tr) :
    ∃ t key s i begun, Entered tr t key n ∧ .act t ⟨.loadBegin s key, i, begun⟩ ∈ tr := by
  obtain ⟨A, B, t, s, key, i, begun, rfl, hst⟩ := hbegan
  obtain ⟨c₁, cmd, c₂, hrun, hstep, -⟩ := h.split
  obtain ⟨call, -, ⟨hheld, -⟩, -⟩ := hrun.of_act (protocol g) hstep
  obtain ⟨j, hj⟩ := (Run.flights h₀ hrun).entered t key n ⟨s, hheld, by rw [hst]; rfl⟩
  exact ⟨t, key, s, i, begun, ⟨j, by simp [hj]⟩, by simp⟩

/-! ## Superseded calls -/

/-- The key was mutated after the load of the call `n` had begun. -/
def Superseded (k : GoString) (tr : Trace g) (n : Nat) : Prop :=
  ∃ W D u e, tr = W ++ .act u e :: D ∧ e.op.mutates k = true ∧ Began n D

theorem Superseded.cons (tr : Trace g) (ℓ : Label (node g)) (n : Nat) (h : Superseded k tr n) :
    Superseded k (ℓ :: tr) n := by
  obtain ⟨W, D, u, e, rfl, he, hbegan⟩ := h
  exact ⟨ℓ :: W, D, u, e, rfl, he, hbegan⟩

theorem mutation_of_mem {w : Trace g} (h : mutations k w ≠ 0) :
    ∃ w₁ w₂ u e, w = w₁ ++ .act u e :: w₂ ∧ e.op.mutates k = true := by
  obtain ⟨ℓ, hℓ, hmut⟩ := List.countP_pos_iff.1 (Nat.pos_of_ne_zero h)
  obtain ⟨w₁, w₂, rfl⟩ := List.append_of_mem hℓ
  cases ℓ with
  | act u e => exact ⟨w₁, w₂, u, e, rfl, hmut⟩
  | _ => cases hmut

/-- The last step at which a goroutine began a load. -/
theorem begins_unique {w w' l l' : Trace g} {ℓ ℓ' : Label (node g)}
    (h : w ++ ℓ :: l = w' ++ ℓ' :: l') (hℓ : Begins t ℓ = true) (hℓ' : Begins t ℓ' = true)
    (hw : ∀ y ∈ w, Begins t y = false) (hw' : ∀ y ∈ w', Begins t y = false) :
    w = w' ∧ l = l' := by
  induction w generalizing w' with
  | nil =>
    cases w' with
    | nil =>
      cases h
      exact ⟨rfl, rfl⟩
    | cons y w' =>
      cases h
      rw [hw' _ List.mem_cons_self] at hℓ
      cases hℓ
  | cons y w ih =>
    cases w' with
    | nil =>
      cases h
      rw [hw _ List.mem_cons_self] at hℓ'
      cases hℓ'
    | cons y' w' =>
      rw [List.cons_append, List.cons_append] at h
      obtain ⟨rfl, hrest⟩ := List.cons.inj h
      obtain ⟨rfl, rfl⟩ := ih hrest (fun z hz => hw z (List.mem_cons_of_mem _ hz))
        fun z hz => hw' z (List.mem_cons_of_mem _ hz)
      exact ⟨rfl, rfl⟩

/-- A mutation during a load supersedes its call. -/
theorem superseded_of_window {s m : Nat} {w : Trace g} (hbegan : BeganBy x n tr)
    (hw : LoadWindow x k s m tr w) (hmut : mutations k w ≠ 0) : Superseded k tr n := by
  obtain ⟨A, B, s', key, i, begun, rfl, hst, hA⟩ := hbegan
  obtain ⟨⟨j, tr', htr⟩, hw⟩ := hw
  obtain ⟨rfl, rfl⟩ := begins_unique htr (by simp [Begins]) (by simp [Begins]) hA hw
  obtain ⟨w₁, w₂, u, e, rfl, he⟩ := mutation_of_mem hmut
  exact ⟨w₁, _, u, e, by simp, he, w₂, B, x, s', key, i, begun, rfl, hst⟩

/-! ## One `Delete` -/

/-- Goroutine `t` was started after the mutation of goroutine `u` had returned without an error, to
its caller or to the peer it was served for. -/
def AfterDelete (t u : Nat) (W : Trace g) : Prop :=
  ∃ call A B C r, W = A ++ .spawn t call :: (B ++ .ret u r :: C) ∧
    (r = .ok (.done none) ∨ ∃ resp, r = .ok (.reply (.ok resp)))

theorem late_afterDelete : Late (AfterDelete (g := g)) := by
  refine ⟨?_, ?_⟩
  · rintro t u ⟨call, A, B, C, r, h, -⟩
    simp at h
  · rintro t u ℓ W ⟨call, A, B, C, r, h, hr⟩
    rcases List.append_eq_cons_iff.1 h.symm with ⟨-, h⟩ | ⟨A, -, rfl⟩
    · cases h
      exact Or.inr ⟨call, rfl⟩
    · exact Or.inl ⟨call, A, B, C, r, rfl, hr⟩

/-- The runs that are meant: no membership change and no `Close`, every Getter call returns a value,
and `k` is mutated at most once, by a `Delete`. -/
structure OneDelete (k : GoString) (tr : Trace g) (ℓ : Label (node g)) : Prop where
  uninterrupted : Uninterrupted ℓ
  getter : ∀ t id i out, ℓ = .act t ⟨.getterEnd id, i, out⟩ → ∃ b, out = .ok (.ok b)
  deletes : ∀ t e, ℓ = .act t e → e.op.mutates k = true →
    (∃ s, e.op = .deleteSection s k) ∧ mutations k tr = 0

/-- **The condition on a step.** No read of `k` that was started after the `Delete` had returned
joins a call whose load had begun before the critical section of the `Delete`. -/
def JoinsFresh (k : GoString) (tr : Trace g) (ℓ : Label (node g)) : Prop :=
  ∀ t i n, ℓ = .act t ⟨.doEnter k, i, .join n⟩ → ∀ W D u e, tr = W ++ .act u e :: D →
    e.op.mutates k = true → AfterDelete t u W → ¬ Began n D

def ReloadGuard (k : GoString) : Guard (node g) := fun tr _ ℓ _ =>
  OneDelete k tr ℓ ∧ JoinsFresh k tr ℓ

/-- A read of `k` that began after the `Delete` of `k` had returned returns what a Getter call
fetched that started after the critical section of the `Delete`. -/
def Reloads (k : GoString) (tr : Trace g) : Prop :=
  ∀ W D t u e r call, tr = .ret t r :: W ++ .act u e :: D → e.op.mutates k = true →
    .spawn t call ∈ W → call.Asks g k → AfterDelete t u W →
      ∃ v t', call.Returns v r ∧ Fetched t' k v.b W

section OneDelete

variable {G : Guard (node g)} {c : Config (node g)}

theorem Run.mutations_le (hG : ∀ tr σ ℓ σ', G tr σ ℓ σ' → OneDelete k tr ℓ) (h : Run G σ₀ c tr) :
    mutations k tr ≤ 1 := by
  induction h with
  | start => exact Nat.zero_le 1
  | @step c₁ c₂ tr ℓ cmd _ _ hguard ih =>
    rw [mutations_cons]
    split
    · next hmut =>
      cases ℓ with
      | act t e =>
        rw [((hG _ _ _ _ hguard).deletes t e rfl hmut).2]
      | _ => cases hmut
    · exact ih

theorem mutations_append (X Y : Trace g) :
    mutations k (X ++ Y) = mutations k X + mutations k Y := List.countP_append

theorem mutations_act (he : e.op.mutates k = true) :
    mutations k (.act u e :: tr : Trace g) = mutations k tr + 1 := by
  simp only [mutations_cons, Mutation, he, ↓reduceIte]

/-- There is one mutation to speak of. -/
theorem mutation_unique {W' D' : Trace g} {u' : Nat} {e' : Ev groupSig Inp}
    (hle : mutations k tr ≤ 1) (h : tr = W ++ .act u e :: D) (h' : tr = W' ++ .act u' e' :: D')
    (he : e.op.mutates k = true) (he' : e'.op.mutates k = true) : D = D' := by
  rcases List.append_eq_append_iff.1 (h.symm.trans h') with ⟨as, -, has⟩ | ⟨bs, -, hbs⟩
  · cases as with
    | nil =>
      cases has
      rfl
    | cons y as =>
      rw [List.cons_append] at has
      obtain ⟨-, rfl⟩ := List.cons.inj has
      rw [h, mutations_append, mutations_act he, mutations_append, mutations_act he'] at hle
      omega
  · cases bs with
    | nil =>
      cases hbs
      rfl
    | cons y bs =>
      rw [List.cons_append] at hbs
      obtain ⟨-, rfl⟩ := List.cons.inj hbs
      rw [h', mutations_append, mutations_act he', mutations_append, mutations_act he] at hle
      omega

/-- In such a run a read is fresh unless it joins a call that had been decided. -/
theorem Run.readGuard (h : Run (ReloadGuard k) σ₀ c tr) :
    Run (ReadGuard AfterDelete k) σ₀ c tr := by
  have hI : ∀ {c : Config (node g)} {tr : Trace g}, Run (ReloadGuard k) σ₀ c tr →
      mutations k tr ≤ 1 ∧ ∀ A B n, tr = A ++ B → Ended n B → Began n B := by
    intro c tr h
    refine ⟨Run.mutations_le (fun _ _ _ _ hG => hG.1) h, ?_⟩
    rintro A B n rfl hend
    obtain ⟨c', h'⟩ := h.suffix
    exact Run.began_of_ended h' hend
  refine (h.guarded (I := fun tr _ => mutations k tr ≤ 1 ∧
    ∀ A B n, tr = A ++ B → Ended n B → Began n B) fun h => hI h).mono ?_
  rintro tr σ ℓ σ' ⟨⟨hone, hjoins⟩, ⟨hle, hbegan⟩, -⟩
  refine ⟨hone.uninterrupted.stable, ?_, ?_⟩
  · intro t i n hℓ W D u e htr he hlate hend
    refine hjoins t i n hℓ W D u e htr he hlate ?_
    exact hbegan (W ++ [.act u e]) D n (by simpa using htr) hend
  · rintro t s n b i ans w - ⟨⟨j, tr', rfl⟩, -⟩
    rw [mutations_append] at hle
    omega

/-- Calls fail only when they are superseded. -/
theorem Run.superseded (hR : ReadThrough g σ₀ k) (h : Run (ReloadGuard k) σ₀ c tr) :
    Blamed (Superseded k) k tr c.state := by
  refine Run.blamed hR (fun _ _ _ _ hG => hG.1.1.uninterrupted) Superseded.cons ?_ ?_
    (h.guarded (I := fun tr _ => ∀ t n, (locOf tr t).stage.past = some n → BeganBy t n tr)
      fun h => Run.beganBy h)
  · intro tr σ x id i out σ' s c n hG _ _ _ hout
    obtain ⟨b, hb⟩ := hG.1.1.getter x id i out rfl
    exact absurd hb (hout b)
  · intro tr σ x s n b i σ' c w hG _ _ hst hw hmut
    have hbegan : BeganBy x c tr := hG.2.1 x c (by rw [hst]; rfl)
    exact Superseded.cons tr _ c (superseded_of_window hbegan hw hmut)

/-- What a late read did, it did after it was started. -/
theorem Run.mem_of_late {A B' : Trace g} {call : Call} (h : Run G σ₀ c (A ++ .spawn t call :: B'))
    (hm : .act t e ∈ A ++ .spawn t call :: B') : .act t e ∈ A := by
  rcases List.mem_append.1 hm with hm | hm
  · exact hm
  · rcases List.mem_cons.1 hm with heq | hm
    · cases heq
    · have hnone := mem_hist.2 hm
      rw [h.before_spawn.1] at hnone
      cases hnone

/-- A late read neither led nor joined a call that was superseded. -/
theorem Run.not_superseded (h₀ : σ₀.Fresh) (h : Run (ReloadGuard k) σ₀ c (W ++ .act u e :: D))
    (he : e.op.mutates k = true) (hlate : AfterDelete t u W)
    (hent : .act t ⟨.doEnter k, i, .lead n⟩ ∈ W ++ .act u e :: D ∨
      .act t ⟨.doEnter k, i, .join n⟩ ∈ W ++ .act u e :: D) :
    ¬ Superseded k (W ++ .act u e :: D) n := by
  rintro ⟨W', D', u', e', htr, he', hbegan⟩
  have hle := Run.mutations_le (fun _ _ _ _ hG => hG.1) h
  obtain rfl : D = D' := mutation_unique hle rfl htr he he'
  obtain ⟨call, A, B, C, r, rfl, hr⟩ := hlate
  have hW : A ++ .spawn t call :: (B ++ .ret u r :: C) ++ .act u e :: D =
      A ++ .spawn t call :: (B ++ .ret u r :: C ++ .act u e :: D) := by simp
  rw [hW] at h hent
  rcases hent with hlead | hjoin
  · -- it led the call itself, so it began the load
    obtain ⟨c', hD⟩ := Run.suffix (A := A ++ .spawn t call :: (B ++ .ret u r :: C ++ [.act u e]))
      (B := D) (by simpa using h)
    obtain ⟨x, key, s, j, begun, ⟨l, hx⟩, hbegin⟩ := Run.entered_of_began h₀ hD hbegan
    have hx' : Entered (A ++ .spawn t call :: (B ++ .ret u r :: C ++ .act u e :: D)) x key n :=
      ⟨l, by simp [hx]⟩
    obtain ⟨rfl, rfl⟩ := (Run.flights h₀ h).unique x t key k n hx' ⟨i, hlead⟩
    have hmem := mem_hist.2 (List.mem_append_right (B ++ .ret u r :: C)
      (List.mem_cons_of_mem (.act u e) hbegin))
    rw [h.before_spawn.1] at hmem
    cases hmem
  · -- it joined the call after it was started
    obtain ⟨X, Y, rfl⟩ := List.append_of_mem (Run.mem_of_late h hjoin)
    have hsplit : X ++ .act t ⟨.doEnter k, i, .join n⟩ :: Y ++
        .spawn t call :: (B ++ .ret u r :: C ++ .act u e :: D) =
        X ++ .act t ⟨.doEnter k, i, .join n⟩ ::
          (Y ++ .spawn t call :: (B ++ .ret u r :: C) ++ .act u e :: D) := by simp
    rw [hsplit] at h
    obtain ⟨c₁, cmd, c₂, -, -, -, hfresh⟩ := h.split
    exact hfresh t i n rfl _ D u e rfl he ⟨call, Y, B, C, r, rfl, hr⟩ hbegan

/-- The only mutation is that of the `Delete`. -/
theorem Run.deletes_only (h : Run (ReloadGuard k) σ₀ c tr) (hm : .act u e ∈ tr)
    (he : e.op.mutates k = true) : ∃ s, e.op = .deleteSection s k := by
  obtain ⟨A, B, rfl⟩ := List.append_of_mem hm
  obtain ⟨c₁, cmd, c₂, -, -, hone, -⟩ := h.split
  exact (hone.deletes u e rfl he).1

/-- What was fetched or set since the section of the `Delete` was fetched after it. -/
theorem Run.fetched_of_fresh {v : ByteView} (h : Run (ReloadGuard k) σ₀ c (W ++ .act u e :: D))
    (he : e.op.mutates k = true) (hfresh : FreshSince k v (W ++ [.act u e])) :
    ∃ t, Fetched t k v.b W := by
  have hsub : ∀ {ℓ : Label (node g)}, ℓ ∈ W ++ [.act u e] → ℓ ∈ W ++ .act u e :: D := by
    intro ℓ hℓ
    rw [List.append_cons]
    exact List.mem_append_left _ hℓ
  obtain ⟨s₀, hdel⟩ := Run.deletes_only h (List.mem_append_right W List.mem_cons_self) he
  have hW : ∀ {t : Nat} {ev : Ev groupSig Inp}, .act t ev ∈ W ++ [.act u e] →
      ev.op ≠ .deleteSection s₀ k → .act t ev ∈ W := by
    intro t ev hm hne
    rcases List.mem_append.1 hm with hm | hm
    · exact hm
    · cases List.mem_singleton.1 hm
      exact absurd hdel hne
  rcases hfresh with ⟨t, s, i, hset⟩ | ⟨t, id, i, j, hstart, hend⟩
  · obtain ⟨s', hs'⟩ := Run.deletes_only h (hsub hset) (by simp [Op.mutates])
    cases hs'
  · exact ⟨t, id, i, j, hW hstart (fun h => by cases h), hW hend fun h => by cases h⟩

/-- What a read of a node that owns the key returns comes from a local read. -/
theorem Run.local_of_returns {v : ByteView} {call : Call} {r : Except Panic Res}
    (hR : ReadThrough g σ₀ k) (hG : ∀ tr σ ℓ σ', G tr σ ℓ σ' → Stable ℓ) (h : Run G σ₀ c tr)
    (hcall : call.Asks g k) (hfin : Finished g call (hist tr t) r) (hv : call.Returns v r) :
    LocalRead (locOf tr t).out k v := by
  cases call with
  | get key =>
    obtain ⟨rfl, -⟩ := hcall
    match r, hv with
    | .ok (.view (.ok _)), rfl =>
      rcases hfin.2 with ⟨-, hlocal⟩ | ⟨hpeers, p, -, hremote⟩
      · exact hlocal
      · have hself := hremote.self_false (Run.memberships hR.fresh h) (h.forall_mem hG)
        rw [(hR.own hpeers).self] at hself
        cases hself
  | serve src req =>
    cases req with
    | get group key =>
      obtain ⟨-, rfl⟩ := hcall
      match r, hv with
      | .ok (.reply (.ok resp)), hv =>
        obtain rfl : ⟨resp.value⟩ = v := hv
        exact hfin.2
    | _ => exact hcall.elim
  | _ => exact hcall.elim

/-- **A read that begins after a `Delete` loads the key again**, in every run in which no such read
joins a call whose load had begun before the critical section of the `Delete`. -/
theorem get_after_delete_reloads (hR : ReadThrough g σ₀ k) (h : Run (ReloadGuard k) σ₀ c tr) :
    Reloads k tr := by
  rintro W D t u e r call rfl he hspawn hcall hlate
  have hspawn' : .spawn t call ∈ W ++ .act u e :: D := List.mem_append_left _ hspawn
  obtain ⟨c₁, cmd, c₂, hrun, hstep, -⟩ := Run.split (A := []) h
  have hlate' : AfterDelete t u (.ret t r :: W) := by
    obtain ⟨call', A, B, C, r', rfl, hr'⟩ := hlate
    exact ⟨call', .ret t r :: A, B, C, r', rfl, hr'⟩
  obtain ⟨v, hv⟩ : ∃ v, call.Returns v r := by
    rcases Run.read_fails hR (fun _ _ _ _ hG => hG.1.uninterrupted) Superseded.cons
      (fun h => Run.superseded hR h) h (List.mem_cons_of_mem _ hspawn') hcall
      List.mem_cons_self with hv | ⟨n, i, hsup, hent⟩
    · exact hv
    · exact absurd hsup (Run.not_superseded hR.fresh h he hlate' hent)
  obtain ⟨call', hcall', hfin⟩ := hrun.of_ret (protocol g) hstep
  obtain rfl : call' = call := Option.some.inj (hcall'.symm.trans (hrun.callOf_spawn hspawn'))
  have hlocal := Run.local_of_returns hR (fun _ _ _ _ hG => hG.1.uninterrupted.stable) hrun hcall
    hfin hv
  have hInv := Run.afterMutation late_afterDelete hR.fresh (Run.readGuard hrun) W D u e rfl he
  obtain ⟨W', hW', hfresh⟩ := hInv.out t v ⟨W, rfl, hlate⟩ hlocal
  rw [← List.append_cancel_right hW'] at hfresh
  obtain ⟨t', hfetched⟩ := Run.fetched_of_fresh hrun he hfresh
  exact ⟨v, t', hv, hfetched⟩

end OneDelete

/-- A step of the runs that are meant. -/
def deletesOnce (k : GoString) (tr : Trace g) (_ : State) : Label (node g) → Bool
  | .env (.membership _) | .spawn _ .close | .act _ ⟨.setSection _ _ _, _, _⟩
  | .act _ ⟨.getterEnd _, _, .error _⟩ | .act _ ⟨.getterEnd _, _, .ok (.error _)⟩ => false
  | .act _ ⟨.deleteSection _ key, _, _⟩ => key = k && mutations k tr = 0
  | _ => true

/-- A step that joins no call. -/
def joinsNothing : Label (node g) → Bool
  | .act _ ⟨.doEnter _, _, .join _⟩ => false
  | _ => true

theorem oneDelete_of_step {ℓ : Label (node g)} (h : deletesOnce k tr σ ℓ = true) :
    OneDelete k tr ℓ := by
  refine ⟨?_, ?_, ?_⟩
  · unfold Uninterrupted
    split
    · cases h
    · cases h
    · trivial
  · rintro t id i out rfl
    match out, h with
    | .ok (.ok b), _ => exact ⟨b, rfl⟩
  · rintro t ⟨o, i, a⟩ rfl he
    cases o with
    | deleteSection s key =>
      obtain ⟨hkey, hzero⟩ : key = k ∧ mutations k tr = 0 := by simpa [deletesOnce] using h
      exact ⟨⟨s, by rw [hkey]⟩, hzero⟩
    | setSection s key value => cases h
    | _ => cases he

theorem joinsFresh_of_nothing {ℓ : Label (node g)} (h : joinsNothing ℓ = true) :
    JoinsFresh k tr ℓ := by
  rintro t i n rfl
  cases h

/-- A read loads `0`, a `Delete` comes in and returns, and a second read loads `1`. -/
theorem second_load_reloads : ∃ c : Config (node Cfg.solo), ∃ tr,
    Run (ReloadGuard (ascii "k")) State.solo c tr ∧ .ret 1 (.ok (.done none)) ∈ tr ∧
    .ret 2 (.ok (.view (.ok ⟨[1]⟩))) ∈ tr ∧ Reloads (ascii "k") tr := by
  obtain ⟨c, tr, hsteps, h₁, h₂⟩ : ∃ c tr, (Config.start (M := node Cfg.solo) State.solo).stepsIf
      (fun tr σ ℓ => deletesOnce (ascii "k") tr σ ℓ && joinsNothing ℓ) []
      (.spawn (.get (ascii "k")) :: List.replicate 15 (.run 0 (Inp.fetch [0])) ++
        .spawn (.delete (ascii "k")) :: List.replicate 6 (.run 1 (Inp.fetch [0])) ++
        .spawn (.get (ascii "k")) :: List.replicate 15 (.run 2 (Inp.fetch [1]))) =
      some (c, tr) ∧ .ret 1 (.ok (.done none)) ∈ tr ∧ .ret 2 (.ok (.view (.ok ⟨[1]⟩))) ∈ tr :=
    ⟨_, _, rfl, by simp, by simp⟩
  have hrun : Run (ReloadGuard (ascii "k")) State.solo c tr := by
    refine Run.stepsIf (fun tr σ ℓ σ' hok => ?_) .start hsteps
    rw [Bool.and_eq_true] at hok
    exact ⟨oneDelete_of_step hok.1, joinsFresh_of_nothing hok.2⟩
  exact ⟨c, tr, hrun, h₁, h₂, get_after_delete_reloads (readThrough_solo _) hrun⟩

/-- A read waits for its Getter call when a `Delete` comes in. -/
def loadingThenDelete : Trace Cfg.solo :=
  let i := Inp.fetch [0]
  let k := ascii "k"
  [.act 1 ⟨.acquireKeyState k, i, 0⟩, .act 1 ⟨.loadClosed, i, false⟩, .spawn 1 (.delete k),
    .act 0 ⟨.getterStart k, i, 0⟩, .act 0 ⟨.count .sourceLoads, i, ()⟩,
    .act 0 ⟨.loadBegin 0 k, i, .generation 0⟩, .act 0 ⟨.doEnter k, i, .lead 0⟩,
    .act 0 ⟨.count .localMisses, i, ()⟩, .act 0 ⟨.mainGet k, i, none⟩,
    .act 0 ⟨.acquireKeyState k, i, 0⟩, .act 0 ⟨.loadClosed, i, false⟩,
    .act 0 ⟨.loadClosed, i, false⟩, .spawn 0 (.get k)]

/-- The `Delete` returns, another read begins and joins the call of the first one, whose Getter call
then returns. -/
def deleteThenJoin : Trace Cfg.solo :=
  let i := Inp.fetch [0]
  let k := ascii "k"
  let r : FlightResult := .ok (.error (.sentinel .cacheMiss))
  [.act 2 ⟨.releaseKeyState k 0, i, ()⟩, .act 2 ⟨.doWait 0, i, r⟩, .act 0 ⟨.doDone 0 r, i, ()⟩,
    .act 0 ⟨.doRemove k 0, i, ()⟩, .act 0 ⟨.loadCommit 0 k 0 [0], i, .miss⟩,
    .act 0 ⟨.getterEnd 0, i, .ok (.ok [0])⟩, .act 2 ⟨.doEnter k, i, .join 0⟩,
    .act 2 ⟨.count .localMisses, i, ()⟩, .act 2 ⟨.mainGet k, i, none⟩,
    .act 2 ⟨.acquireKeyState k, i, 0⟩, .act 2 ⟨.loadClosed, i, false⟩,
    .act 2 ⟨.loadClosed, i, false⟩, .spawn 2 (.get k), .ret 1 (.ok (.done none)),
    .act 1 ⟨.count .deletes, i, ()⟩, .act 1 ⟨.releaseKeyState k 0, i, ()⟩]

/-- The second read fails with `ErrCacheMiss`. -/
theorem joined_load_misses : ∃ c : Config (node Cfg.solo), ∃ tr,
    Run (fun tr _ ℓ _ => OneDelete (ascii "k") tr ℓ) State.solo c tr ∧
    .ret 2 (.ok (.view (.error (.sentinel .cacheMiss)))) ∈ tr ∧ ¬ Reloads (ascii "k") tr := by
  obtain ⟨c, hsteps⟩ : ∃ c, (Config.start (M := node Cfg.solo) State.solo).stepsIf
      (deletesOnce (ascii "k")) []
      (.spawn (.get (ascii "k")) :: List.replicate 9 (.run 0 (Inp.fetch [0])) ++
        .spawn (.delete (ascii "k")) :: List.replicate 6 (.run 1 (Inp.fetch [0])) ++
        .spawn (.get (ascii "k")) :: List.replicate 6 (.run 2 (Inp.fetch [0])) ++
        List.replicate 4 (.run 0 (Inp.fetch [0])) ++ List.replicate 3 (.run 2 (Inp.fetch [0]))) =
      some (c, .ret 2 (.ok (.view (.error (.sentinel .cacheMiss)))) :: deleteThenJoin ++
        .act 1 ⟨.deleteSection 0 (ascii "k"), Inp.fetch [0], false⟩ :: loadingThenDelete) :=
    ⟨_, rfl⟩
  refine ⟨c, _, Run.stepsIf (fun _ _ _ _ => oneDelete_of_step) .start hsteps, by simp, ?_⟩
  intro hreloads
  obtain ⟨v, t', hv, -⟩ := hreloads deleteThenJoin loadingThenDelete 2 1 _ _ (.get (ascii "k")) rfl
    rfl (by simp [deleteThenJoin]) ⟨rfl, by simp [ascii]⟩
    ⟨_, deleteThenJoin.take 12, [], deleteThenJoin.drop 14, _, rfl, Or.inl rfl⟩
  exact hv

end Locache
