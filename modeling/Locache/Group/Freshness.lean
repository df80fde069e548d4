import Locache.Group.Membership
import Locache.Group.Provenance

/-!
# Reads after a mutation

After the critical section of a mutation of `k`, everything the main cache holds for `k` was set or
loaded from then on: an older load notices the mutation and stores nothing. What a read can still
get of the time before is the result of a singleflight call that had been decided by then and has
not yet left the map.
-/

namespace Locache

open Conc

variable {g : Cfg} {tr W D : Trace g} {σ σ' σ₀ : State} {t u x : Nat} {k key : GoString}
  {v : ByteView} {o : Op} {i : Inp} {a : o.Ans} {e : Ev groupSig Inp}

/-- In the steps `W` the bytes `v` were set for `k`, or a Getter call for `k` that started there
returned them. -/
def FreshSince (k : GoString) (v : ByteView) (W : Trace g) : Prop :=
  (∃ t s i, .act t ⟨.setSection s k v.b, i, ()⟩ ∈ W) ∨ ∃ t, Fetched t k v.b W

theorem Fetched.mono {b : Bytes} {W' : Trace g} (h : Fetched t k b W) (hs : W ⊆ W') :
    Fetched t k b W' := by
  obtain ⟨id, i, j, hi, hj⟩ := h
  exact ⟨id, i, j, hs hi, hs hj⟩

theorem FreshSince.mono {W' : Trace g} (h : FreshSince k v W) (hs : W ⊆ W') :
    FreshSince k v W' := by
  rcases h with ⟨t, s, i, hi⟩ | ⟨t, ht⟩
  · exact Or.inl ⟨t, s, i, hs hi⟩
  · exact Or.inr ⟨t, ht.mono hs⟩

/-- What a load stores it has fetched. -/
theorem stored_fetched {call : Call} {s n : Nat} {b : Bytes} (hL : Loads tr σ)
    (hallow : Allowed g call (hist tr x) (.loadCommit s k n b))
    (hx : Node.exec g (.loadCommit s k n b) i σ = some (.stored v, σ')) :
    ∃ w, LoadWindow x k s n tr w ∧ Fetched x k v.b w ∧ n < 2 ^ 64 ∧
      n = (n + mutations k w) % 2 ^ 64 := by
  obtain ⟨hheld, c, hst⟩ := hallow
  change (locOf tr x).held = _ at hheld
  change (locOf tr x).stage = _ at hst
  obtain ⟨w, hw, hsince, hn, hgen⟩ := hL.2 x k s n hheld (by rw [hst]; rfl)
  rw [hst] at hsince
  obtain ⟨heq, rfl⟩ := generation_of_stored hx
  exact ⟨w, hw, hsince, hn, by rw [← hgen, heq]⟩

/-- **What a local read returns** was set on the node, or its Getter returned it. -/
theorem Run.local_read_known {G : Guard (node g)} (h₀ : σ₀.Fresh) {c : Config (node g)}
    (h : Run G σ₀ c tr) (hr : LocalRead (locOf tr t).out k v) : FreshSince k v tr := by
  refine (Run.reads_good h₀ (fun tr v => FreshSince k v tr) ?_ ?_
    (h.guarded fun h => Run.loads h₀ h)).out t v trivial hr
  · intro tr ℓ v hv
    exact hv.mono (List.subset_cons_self ..)
  · intro tr σ x call o i a σ' v hG hallow hx hs
    rcases hs.cases with ⟨s, heq⟩ | ⟨s, n, b, heq⟩
    · cases heq
      exact Or.inl ⟨x, s, i, List.mem_cons_self ..⟩
    · cases heq
      obtain ⟨w, ⟨⟨j, tr', rfl⟩, -⟩, hfetched, -⟩ := stored_fetched hG.2.1 hallow hx
      refine Or.inr ⟨x, hfetched.mono ?_⟩
      exact fun ℓ hℓ => List.mem_cons_of_mem _ (List.mem_append_left _ hℓ)

/-- A way to say that goroutine `t` was started, in the steps `W` since a mutation of goroutine `u`,
late enough for the mutation to count. -/
structure Late (L : Nat → Nat → Trace g → Prop) : Prop where
  nil : ∀ t u, ¬ L t u []
  cons : ∀ t u ℓ W, L t u (ℓ :: W) → L t u W ∨ ∃ call, ℓ = .spawn t call

/-- Goroutine `t` was started after the mutation of goroutine `u` had returned nil. -/
def AfterReturn (t u : Nat) (W : Trace g) : Prop :=
  ∃ call A B C, W = A ++ .spawn t call :: (B ++ .ret u (.ok (.done none)) :: C)

/-- Goroutine `t` was started after the critical section of the mutation. -/
def AfterSection (t _u : Nat) (W : Trace g) : Prop := ∃ call, .spawn t call ∈ W

theorem late_afterReturn : Late (AfterReturn (g := g)) := by
  refine ⟨?_, ?_⟩
  · rintro t u ⟨call, A, B, C, h⟩
    simp at h
  · rintro t u ℓ W ⟨call, A, B, C, h⟩
    rcases List.append_eq_cons_iff.1 h.symm with ⟨-, h⟩ | ⟨A, -, rfl⟩
    · cases h
      exact Or.inr ⟨call, rfl⟩
    · exact Or.inl ⟨call, A, B, C, rfl⟩

theorem late_afterSection : Late (AfterSection (g := g)) := by
  refine ⟨?_, ?_⟩
  · rintro t u ⟨call, h⟩
    cases h
  · rintro t u ℓ W ⟨call, h⟩
    rcases List.mem_cons.1 h with h | h
    · exact Or.inr ⟨call, h.symm⟩
    · exact Or.inl ⟨call, h⟩

/-- The function of the singleflight call `c` has returned. -/
def Ended (c : Nat) (D : Trace g) : Prop :=
  (∃ t k s r, (locOf D t).held = some (k, s) ∧
    ((locOf D t).stage = .decided c r ∨ (locOf D t).stage = .removed c r)) ∨
    ∃ t r i, .act t ⟨.doDone c r, i, ()⟩ ∈ D

/-- **The condition on a step.** No membership change; no read of `k` that started late joins a call
whose function had returned before the critical section of the mutation; and fewer than `2 ^ 64`
mutations during one load. -/
structure ReadGuard (L : Nat → Nat → Trace g → Prop) (k : GoString) (tr : Trace g) (σ : State)
    (ℓ : Label (node g)) (σ' : State) : Prop where
  stable : Stable ℓ
  joins : ∀ t i c, ℓ = .act t ⟨.doEnter k, i, .join c⟩ → ∀ W D u e, tr = W ++ .act u e :: D →
    e.op.mutates k = true → L t u W → ¬ Ended c D
  few : ∀ t s n b i ans w, ℓ = .act t ⟨.loadCommit s k n b, i, ans⟩ → LoadWindow t k s n tr w →
    mutations k w < 2 ^ 64

/-- A call that has ended was entered. -/
theorem Run.entered_of_ended {G : Guard (node g)} (h₀ : σ₀.Fresh) {c : Config (node g)}
    (h : Run G σ₀ c tr) {n : Nat} (hend : Ended n tr) : ∃ t k, Entered tr t k n := by
  rcases hend with ⟨t, k, s, r, hheld, hst⟩ | ⟨t, r, i, hi⟩
  · exact ⟨t, k, (Run.flights h₀ h).entered t k n (owns_of_decided hheld hst)⟩
  · obtain ⟨A, B, rfl⟩ := List.append_of_mem hi
    obtain ⟨c₁, cmd, c₂, hrun, hstep, -⟩ := h.split
    obtain ⟨call, -, ⟨k, s, hheld, hst⟩, -⟩ := hrun.of_act (protocol g) hstep
    have howns : Owns B t k n := owns_of_decided hheld (Or.inr hst)
    obtain ⟨j, hj⟩ := (Run.flights h₀ hrun).entered t k n howns
    exact ⟨t, k, j, List.mem_append_right _ (List.mem_cons_of_mem _ hj)⟩

/-- What earlier invariants provide. -/
structure Known (tr : Trace g) (σ : State) : Prop where
  main : MainOk g σ
  loads : Loads tr σ
  flights : Flights tr σ
  before : ∀ A B t call, tr = A ++ .spawn t call :: B → hist B t = []
  ended : ∀ A B c, tr = A ++ B → Ended c B → ∃ t k, Entered tr t k c

theorem Run.known {G : Guard (node g)} (h₀ : σ₀.Fresh) {c : Config (node g)} (h : Run G σ₀ c tr) :
    Known tr c.state := by
  refine ⟨Run.mainOk h₀ h, Run.loads h₀ h, Run.flights h₀ h, ?_, ?_⟩
  · rintro A B t call rfl
    exact h.before_spawn.1
  · rintro A B call rfl hend
    obtain ⟨c', h'⟩ := h.suffix
    obtain ⟨t, k, i, hi⟩ := Run.entered_of_ended h₀ h' hend
    exact ⟨t, k, i, List.mem_append_right _ hi⟩

/-- The steps of a window without mutations are steps since the last mutation. -/
theorem subset_of_window {w tr' : Trace g} {ℓ ℓ' : Label (node g)}
    (h : w ++ ℓ :: tr' = W ++ ℓ' :: D) (hℓ' : ℓ' ∉ w) : w ⊆ W := by
  rcases List.append_eq_append_iff.1 h with ⟨as, rfl, -⟩ | ⟨bs, rfl, hbs⟩
  · exact List.subset_append_left _ _
  · cases bs with
    | nil => simp
    | cons b bs =>
      cases hbs
      simp at hℓ'

/-- What a load stores was fetched since the last mutation. -/
theorem fresh_of_stored {call : Call} {s n : Nat} {b : Bytes} {L : Nat → Nat → Trace g → Prop}
    (hK : Known tr σ) (hG : ReadGuard L k tr σ (.act x ⟨.loadCommit s k n b, i, .stored v⟩) σ')
    (hallow : Allowed g call (hist tr x) (.loadCommit s k n b))
    (hx : Node.exec g (.loadCommit s k n b) i σ = some (.stored v, σ'))
    (htr : tr = W ++ .act u e :: D) (he : e.op.mutates k = true) : FreshSince k v W := by
  obtain ⟨w, hw, hfetched, hn, hgen⟩ := stored_fetched hK.loads hallow hx
  have hfew := hG.few x s n b i _ w rfl hw
  have hnone := (generation_eq_iff hn hfew).1 hgen.symm
  obtain ⟨⟨j, tr', hw'⟩, -⟩ := hw
  refine Or.inr ⟨x, hfetched.mono (subset_of_window (hw'.symm.trans htr) fun hm => ?_)⟩
  exact absurd he (List.countP_eq_zero.1 hnone _ hm)

/-! ## Since a mutation -/

/-- The reads that started late after the mutation `.act u e`, which was made after `D`, get values
set or fetched since then. -/
def freshScope (L : Nat → Nat → Trace g → Prop) (k : GoString) (u : Nat) (e : Ev groupSig Inp)
    (D : Trace g) : Scope g where
  good := fun tr v => ∃ W, tr = W ++ .act u e :: D ∧ FreshSince k v (W ++ [.act u e])
  trusts := fun _ _ => True
  reads := fun tr t => ∃ W, tr = W ++ .act u e :: D ∧ L t u W
  calls := fun _ c => ¬ Ended c D

section Since

variable {L : Nat → Nat → Trace g → Prop} {call : Call} {ℓ : Label (node g)}

theorem freshScope_grows (hL : Late L) (htr : tr = W ++ .act u e :: D)
    (hnew : ∀ t call, ℓ = .spawn t call → hist tr t = []) :
    (freshScope L k u e D).Grows k tr ℓ := by
  refine ⟨?_, ?_, ?_⟩
  · rintro v ⟨W', hW', hv⟩
    exact ⟨ℓ :: W', by rw [hW']; rfl, hv.mono (List.subset_cons_self ..)⟩
  · exact fun t c _ => Iff.rfl
  · rintro t ⟨W', hW', ht⟩
    rw [htr] at hW'
    obtain rfl : ℓ :: W = W' := List.append_cancel_right hW'
    rcases hL.cons t u ℓ W ht with ht | ⟨call, rfl⟩
    · exact Or.inl ⟨W, htr, ht⟩
    · right
      rw [locOf, hist_spawn, hnew t call rfl]
      exact ⟨rfl, rfl⟩

theorem freshScope_acts (hK : Known tr σ) (hG : ReadGuard L k tr σ (.act x ⟨o, i, a⟩) σ')
    (htr : tr = W ++ .act u e :: D) (he : e.op.mutates k = true)
    (hallow : Allowed g call (hist tr x) o) (hx : Node.exec g o i σ = some (a, σ')) :
    (freshScope L k u e D).Acts k tr σ x ⟨o, i, a⟩ σ' := by
  refine ⟨fun _ => Or.inl trivial, ?_, fun _ _ => trivial, fun _ _ _ _ => trivial, ?_⟩
  · intro v hs _
    refine ⟨.act x ⟨o, i, a⟩ :: W, by rw [htr]; rfl, ?_⟩
    rcases hs.cases with ⟨s, heq⟩ | ⟨s, n, b, heq⟩
    · cases heq
      exact Or.inl ⟨x, s, i, List.mem_cons_self ..⟩
    · cases heq
      refine (fresh_of_stored hK hG hallow hx htr he).mono ?_
      exact fun ℓ hℓ => List.mem_cons_of_mem _ (List.mem_append_left _ hℓ)
  · rintro j c ⟨W', hW', ht⟩ (heq | heq) hend
    · cases heq
      exact hG.joins x i c rfl W' D u e hW' he ht hend
    · -- a new call has a number no call had before
      cases heq
      have hnext := lead_eq_next hx
      obtain ⟨t, k', hent⟩ := hK.ended (W ++ [.act u e]) D c (by rw [htr]; simp) hend
      exact absurd (hK.flights.fresh t k' c hent) (by rw [hnext]; exact Nat.lt_irrefl _)

/-- A mutation begins the account: what a lookup can find after it is what it set. -/
theorem freshScope_begin (hL : Late L) (hK : Known D σ) (ho : o.mutates k = true)
    (hx : Node.exec g o i σ = some (a, σ')) :
    (freshScope L k x ⟨o, i, a⟩ D).Inv k (.act x ⟨o, i, a⟩ :: D) σ' := by
  have hloc : ∀ t, (locOf (.act x ⟨o, i, a⟩ :: D : Trace g) t).stage = (locOf D t).stage ∧
      (locOf (.act x ⟨o, i, a⟩ :: D : Trace g) t).held = (locOf D t).held := by
    intro t
    by_cases htx : x = t
    · subst htx
      rw [locOf_act_self]
      cases o <;> first | exact ⟨rfl, rfl⟩ | cases ho
    · rw [locOf_act_ne htx]
      exact ⟨rfl, rfl⟩
  have hf : o.onFlights = false := by
    cases o <;> first | rfl | cases ho
  -- no read has started late yet
  have hreads : ∀ t, ¬ (freshScope L k x ⟨o, i, a⟩ D).reads (.act x ⟨o, i, a⟩ :: D) t := by
    rintro t ⟨W, hW, ht⟩
    rw [List.self_eq_append_left] at hW
    rw [hW] at ht
    exact hL.nil t x ht
  refine ⟨?_, ?_, ?_, ?_, ?_, ?_⟩
  · intro _ v hv
    refine ⟨[], rfl, ?_⟩
    rcases live_of_exec hK.main hx hv with hs | ⟨-, hno⟩
    · cases o with
      | setSection s key value =>
        obtain ⟨rfl, rfl⟩ := hs
        exact Or.inl ⟨x, s, i, List.mem_singleton_self _⟩
      | deleteSection s key => cases hs
      | _ => cases ho
    · rw [ho] at hno
      cases hno
  · intro t s c v hheld hst hend
    rw [(hloc t).1] at hst
    rw [(hloc t).2] at hheld
    exact absurd (Or.inl ⟨t, k, s, _, hheld, hst⟩) hend
  · intro t c v _ hr hend
    rw [((exec_frame hx).flights hf).2.1] at hr
    obtain ⟨⟨t', j, hj⟩, -⟩ := hK.flights.done c _ hr
    exact absurd (Or.inr ⟨t', _, j, hj⟩) hend
  · exact fun t c ht => absurd ht (hreads t)
  · exact fun t c ht => absurd ht (hreads t)
  · exact fun t v ht => absurd ht (hreads t)

end Since

/-- **Since a mutation**, over whole runs. -/
theorem Run.afterMutation {L : Nat → Nat → Trace g → Prop} (hL : Late L) (h₀ : σ₀.Fresh)
    {c : Config (node g)} (h : Run (ReadGuard L k) σ₀ c tr) :
    ∀ W D u e, tr = W ++ .act u e :: D → e.op.mutates k = true →
      (freshScope L k u e D).Inv k tr c.state := by
  refine (h.guarded fun h => Run.known h₀ h).inv (P := protocol g)
    (I := fun tr σ => ∀ W D u e, tr = W ++ .act u e :: D → e.op.mutates k = true →
      (freshScope L k u e D).Inv k tr σ) ⟨?_, ?_, ?_, ?_, ?_⟩
  · intro W D u e htr
    simp at htr
  · intro tr σ t call hI hG _ hhist W D u e htr he
    rcases List.append_eq_cons_iff.1 htr.symm with ⟨-, heq⟩ | ⟨W', rfl, htr'⟩
    · cases heq
    · refine (hI W' D u e htr' he).other hG.2.1.flights (freshScope_grows hL htr' ?_)
        (fun _ _ h => by cases h) (fun _ => rfl) (fun _ => trivial) (fun _ h => h) rfl
      intro t' call' heq
      cases heq
      exact hhist
  · intro tr σ x call o i a σ' hI hG _ hallow hx W D u e htr he
    rcases List.append_eq_cons_iff.1 htr.symm with ⟨rfl, heq⟩ | ⟨W', rfl, htr'⟩
    · cases heq
      exact freshScope_begin hL hG.2.1 he hx
    · exact (hI W' D u e htr' he).act hG.2.1.main hG.2.1.flights
        (freshScope_grows hL htr' fun _ _ h => by cases h)
        (freshScope_acts hG.2.1 hG.1 htr' he hallow hx) hallow hx
  · intro tr σ t call r hI hG _ _ W D u e htr he
    rcases List.append_eq_cons_iff.1 htr.symm with ⟨-, heq⟩ | ⟨W', rfl, htr'⟩
    · cases heq
    · exact (hI W' D u e htr' he).other hG.2.1.flights
        (freshScope_grows hL htr' fun _ _ h => by cases h) (fun _ _ h => by cases h)
        (fun _ => rfl) (fun _ => trivial) (fun _ h => h) rfl
  · intro tr σ ev σ' hI hG hx W D u e htr he
    rcases List.append_eq_cons_iff.1 htr.symm with ⟨-, heq⟩ | ⟨W', rfl, htr'⟩
    · cases heq
    · exact (hI W' D u e htr' he).other hG.2.1.flights
        (freshScope_grows hL htr' fun _ _ h => by cases h) (fun _ _ h => by cases h)
        (fun _ => rfl) (fun _ => trivial) (fun v hv => live_of_env hG.2.1.main hx hv)
        (env_frame hx).flights.2.1

/-! ## Reads that begin after a mutation -/

/-- A `Get` of `k` that began after a `Set` or `Delete` of `k` had returned nil returns nothing the
mutation superseded: its bytes were set by the mutation or later, or come from a Getter call that
started after the critical section of the mutation. -/
def ReadsFresh (k : GoString) (tr : Trace g) : Prop :=
  ∀ W D t u e v, tr = .ret t (.ok (.view (.ok v))) :: W ++ .act u e :: D → e.op.mutates k = true →
    .spawn t (.get k) ∈ W → AfterReturn t u W → FreshSince k v (W ++ [.act u e])

/-- A remote read was routed by an answer that named another node. -/
theorem RemoteRead.route {p : Pick} {h : History} (hr : RemoteRead g k p v h) :
    p.self = false ∧ ∃ i, (⟨.pickOwner .route k, i, p⟩ : Ev groupSig Inp) ∈ h := by
  cases hr with
  | near q i₁ i₂ i₃ hs hh => exact ⟨hs.remote, i₁, hh.subset (by simp)⟩
  | peer q hs _ hcall => exact ⟨hs.remote, hcall.route_mem⟩

/-- Without membership changes only a node that does not own the key reads it remotely. -/
theorem RemoteRead.self_false {p : Pick} {T₀ : Topology} (hr : RemoteRead g k p v (hist tr t))
    (hM : Memberships T₀ tr σ) (hs : ∀ ℓ ∈ tr, Stable ℓ) : (T₀.pick k).self = false := by
  obtain ⟨hp, i, hi⟩ := hr.route
  rw [← hM.pick_of_stable hs (mem_hist.1 hi)]
  exact hp

/-- **Reads after a mutation are fresh** on a node that owns the key for good, in every run in which
no read joins a singleflight call that was already decided when the mutation was made. -/
theorem get_after_mutation_fresh (h₀ : σ₀.Fresh)
    (hself : g.peers = false ∨ (σ₀.topology.pick k).self = true) {c : Config (node g)}
    (h : Run (ReadGuard AfterReturn k) σ₀ c tr) : ReadsFresh k tr := by
  intro W D t u e v htr he hspawn hafter
  subst htr
  obtain ⟨c₁, cmd, c₂, hrun, hstep, -⟩ := Run.split (A := []) h
  obtain ⟨call, hcall, hend⟩ := hrun.of_ret (protocol g) hstep
  have hget := hrun.callOf_spawn (List.mem_append_left _ hspawn)
  obtain rfl : call = .get k := Option.some.inj (hcall.symm.trans hget)
  rcases hend.2 with ⟨-, hlocal⟩ | ⟨hpeers, p, -, hremote⟩
  · have hInv := Run.afterMutation late_afterReturn h₀ hrun W D u e rfl he
    obtain ⟨W', hW', hv⟩ := hInv.out t v ⟨W, rfl, hafter⟩ hlocal
    rwa [List.append_cancel_right hW']
  · have hstable := hrun.forall_mem fun _ _ _ _ hG => ReadGuard.stable hG
    have hremote := hremote.self_false (Run.memberships h₀ hrun) hstable
    rcases hself with hself | hself
    · rw [hself] at hpeers
      cases hpeers
    · rw [hremote] at hself
      cases hself

/-- A step that meets the condition because it neither changes the membership nor joins a call. -/
def plainStep (tr : Trace g) (_ : State) : Label (node g) → Bool
  | .env (.membership _) | .act _ ⟨.doEnter _, _, .join _⟩ => false
  | _ => tr.length < 2 ^ 64

theorem readGuard_of_plain (L : Nat → Nat → Trace g → Prop) (k : GoString) (tr : Trace g)
    (σ : State) (ℓ : Label (node g)) (σ' : State) (h : plainStep tr σ ℓ = true) :
    ReadGuard L k tr σ ℓ σ' := by
  refine ⟨?_, ?_, ?_⟩
  · unfold Stable
    split
    · cases h
    · trivial
  · rintro t i c rfl
    cases h
  · rintro t s n b i ans w rfl ⟨⟨j, tr', rfl⟩, -⟩
    have hcount : mutations k w ≤ w.length := List.countP_le_length
    simp only [plainStep, decide_eq_true_eq, List.length_append, List.length_cons] at h
    omega

/-- A read has loaded `0` when a `Set` of `1` comes in. -/
def loadThenSet : Trace Cfg.solo :=
  let i := Inp.fetch [0]
  let k := ascii "k"
  [.act 1 ⟨.acquireKeyState k, i, 1⟩, .act 1 ⟨.loadClosed, i, false⟩,
    .act 1 ⟨.loadClosed, i, false⟩, .spawn 1 (.set k [1]), .ret 0 (.ok (.view (.ok ⟨[0]⟩))),
    .act 0 ⟨.releaseKeyState k 0, i, ()⟩, .act 0 ⟨.doDone 0 (.ok (.ok ⟨[0]⟩)), i, ()⟩,
    .act 0 ⟨.doRemove k 0, i, ()⟩, .act 0 ⟨.loadCommit 0 k 0 [0], i, .stored ⟨[0]⟩⟩,
    .act 0 ⟨.getterEnd 0, i, .ok (.ok [0])⟩, .act 0 ⟨.getterStart k, i, 0⟩,
    .act 0 ⟨.count .sourceLoads, i, ()⟩, .act 0 ⟨.loadBegin 0 k, i, .generation 0⟩,
    .act 0 ⟨.doEnter k, i, .lead 0⟩, .act 0 ⟨.count .localMisses, i, ()⟩,
    .act 0 ⟨.mainGet k, i, none⟩, .act 0 ⟨.acquireKeyState k, i, 0⟩,
    .act 0 ⟨.loadClosed, i, false⟩, .act 0 ⟨.loadClosed, i, false⟩, .spawn 0 (.get k)]

/-- The `Set` returns and another read begins. -/
def setThenRead : Trace Cfg.solo :=
  let i := Inp.fetch [0]
  let k := ascii "k"
  [.act 2 ⟨.releaseKeyState k 2, i, ()⟩, .act 2 ⟨.count .localHits, i, ()⟩,
    .act 2 ⟨.mainGet k, i, some ⟨[1]⟩⟩, .act 2 ⟨.acquireKeyState k, i, 2⟩,
    .act 2 ⟨.loadClosed, i, false⟩, .act 2 ⟨.loadClosed, i, false⟩, .spawn 2 (.get k),
    .ret 1 (.ok (.done none)), .act 1 ⟨.count .sets, i, ()⟩, .act 1 ⟨.releaseKeyState k 1, i, ()⟩]

/-- The second read returns what was set. -/
theorem read_after_set_fresh : ∃ c : Config (node Cfg.solo), ∃ tr,
    tr = .ret 2 (.ok (.view (.ok ⟨[1]⟩))) :: setThenRead ++
      .act 1 ⟨.setSection 1 (ascii "k") [1], Inp.fetch [0], ()⟩ :: loadThenSet ∧
    Run (ReadGuard AfterReturn (ascii "k")) State.solo c tr ∧ ReadsFresh (ascii "k") tr := by
  obtain ⟨c, hsteps⟩ : ∃ c, (Config.start (M := node Cfg.solo) State.solo).stepsIf plainStep []
      (.spawn (.get (ascii "k")) :: List.replicate 15 (.run 0 (Inp.fetch [0])) ++
        .spawn (.set (ascii "k") [1]) :: List.replicate 7 (.run 1 (Inp.fetch [0])) ++
        .spawn (.get (ascii "k")) :: List.replicate 7 (.run 2 (Inp.fetch [0]))) =
      some (c, .ret 2 (.ok (.view (.ok ⟨[1]⟩))) :: setThenRead ++
        .act 1 ⟨.setSection 1 (ascii "k") [1], Inp.fetch [0], ()⟩ :: loadThenSet) := ⟨_, rfl⟩
  have hrun : Run (ReadGuard AfterReturn (ascii "k")) State.solo c _ :=
    Run.stepsIf (readGuard_of_plain AfterReturn (ascii "k")) .start hsteps
  exact ⟨c, _, rfl, hrun, get_after_mutation_fresh State.fresh_solo (Or.inl rfl) hrun⟩

/-- A read has loaded `0` and stored it, and a `Delete` comes in. -/
def loadThenDelete : Trace Cfg.solo :=
  let i := Inp.fetch [0]
  let k := ascii "k"
  [.act 1 ⟨.acquireKeyState k, i, 0⟩, .act 1 ⟨.loadClosed, i, false⟩, .spawn 1 (.delete k),
    .act 0 ⟨.loadCommit 0 k 0 [0], i, .stored ⟨[0]⟩⟩, .act 0 ⟨.getterEnd 0, i, .ok (.ok [0])⟩,
    .act 0 ⟨.getterStart k, i, 0⟩, .act 0 ⟨.count .sourceLoads, i, ()⟩,
    .act 0 ⟨.loadBegin 0 k, i, .generation 0⟩, .act 0 ⟨.doEnter k, i, .lead 0⟩,
    .act 0 ⟨.count .localMisses, i, ()⟩, .act 0 ⟨.mainGet k, i, none⟩,
    .act 0 ⟨.acquireKeyState k, i, 0⟩, .act 0 ⟨.loadClosed, i, false⟩,
    .act 0 ⟨.loadClosed, i, false⟩, .spawn 0 (.get k)]

/-- The `Delete` returns, another read begins and joins the call of the first one, which is over but
still in the map. -/
def deleteThenRead : Trace Cfg.solo :=
  let i := Inp.fetch [0]
  let k := ascii "k"
  [.act 2 ⟨.releaseKeyState k 0, i, ()⟩, .act 2 ⟨.doWait 0, i, .ok (.ok ⟨[0]⟩)⟩,
    .act 0 ⟨.doDone 0 (.ok (.ok ⟨[0]⟩)), i, ()⟩, .act 0 ⟨.doRemove k 0, i, ()⟩,
    .act 2 ⟨.doEnter k, i, .join 0⟩, .act 2 ⟨.count .localMisses, i, ()⟩,
    .act 2 ⟨.mainGet k, i, none⟩, .act 2 ⟨.acquireKeyState k, i, 0⟩,
    .act 2 ⟨.loadClosed, i, false⟩, .act 2 ⟨.loadClosed, i, false⟩, .spawn 2 (.get k),
    .ret 1 (.ok (.done none)), .act 1 ⟨.count .deletes, i, ()⟩,
    .act 1 ⟨.releaseKeyState k 0, i, ()⟩]

/-- The second read returns the deleted bytes. -/
theorem read_after_delete_stale : ∃ c : Config (node Cfg.solo), ∃ tr,
    Run Free State.solo c tr ∧ ¬ ReadsFresh (ascii "k") tr := by
  obtain ⟨c, hsteps⟩ : ∃ c, (Config.start (M := node Cfg.solo) State.solo).steps []
      (.spawn (.get (ascii "k")) :: List.replicate 11 (.run 0 (Inp.fetch [0])) ++
        .spawn (.delete (ascii "k")) :: List.replicate 6 (.run 1 (Inp.fetch [0])) ++
        .spawn (.get (ascii "k")) :: List.replicate 6 (.run 2 (Inp.fetch [0])) ++
        List.replicate 2 (.run 0 (Inp.fetch [0])) ++ List.replicate 3 (.run 2 (Inp.fetch [0]))) =
      some (c, .ret 2 (.ok (.view (.ok ⟨[0]⟩))) :: deleteThenRead ++
        .act 1 ⟨.deleteSection 0 (ascii "k"), Inp.fetch [0], true⟩ :: loadThenDelete) := ⟨_, rfl⟩
  refine ⟨c, _, Run.steps .start hsteps, fun hfresh => ?_⟩
  have hbytes := hfresh deleteThenRead loadThenDelete 2 1 _ ⟨[0]⟩ rfl rfl
    (by simp [deleteThenRead]) ⟨_, deleteThenRead.take 10, [], deleteThenRead.drop 12, rfl⟩
  rcases hbytes with ⟨t, s, i, hset⟩ | ⟨t, id, i, j, hstart, -⟩
  · simp [deleteThenRead] at hset
  · simp [deleteThenRead] at hstart

end Locache
