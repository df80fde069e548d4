import Locache.Group.Membership
import Locache.Group.Provenance

/-!
# How a local read can fail

A read of a read-through node that owns the key for good fails only with the singleflight call it
led or joined: everything else it asks for on its way is answered well (`get_smooth`,
`server_get_smooth`). And a call fails only when its Getter call fails or when the key was mutated
since its load began; `Run.blamed` carries what is known of these two cases from the step at which
the call fails to everyone who gets its result.
-/

namespace Locache

open Conc Prog

variable {g : Cfg} {h : History} {key k : GoString} {T₀ : Topology}

/-! ## Paths on which a read succeeds -/

/-- A local read, or the function of a singleflight call, returned a value. -/
def Succeeded (r : Except Panic (Except Err ByteView)) : Prop := ∃ v, r = .ok (.ok v)

/-- The answer names this node as the owner. -/
structure Pick.Own (p : Pick) : Prop where
  ok : p.ok = true
  owner : p.owner ≠ []
  self : p.self = true

/-- An answer, or a result handed on, that does not make a read fail under the membership `T₀`. -/
def Smooth (g : Cfg) (T₀ : Topology) : Ev groupSig Inp → Prop
  | ⟨.loadClosed, _, closed⟩ => closed = false
  | ⟨.getGroup name, _, found⟩ => name = g.name → found = true
  | ⟨.pickOwner _ key, _, p⟩ => p = T₀.pick key
  | ⟨.doWait _, _, r⟩ => Succeeded r
  | ⟨.doDone _ r, _, _⟩ => Succeeded r
  | _ => True

theorem prepareLocalOwner_smooth (hown : g.peers = true → (T₀.pick key).Own) :
    (Group.prepareLocalOwner g key).Follows (fun _ _ => True)
      (Whenever (Smooth g T₀) fun r => ∃ e, r = .ok (.ok e)) h := by
  unfold Group.prepareLocalOwner
  split
  · exact fun _ => ⟨0, rfl⟩
  · next hp =>
    obtain ⟨hok, howner, hself⟩ := hown (by simpa using hp)
    refine Follows.whenever_op fun i p hsmooth => ?_
    obtain rfl : p = T₀.pick key := hsmooth
    simp only [hok, howner, hself, Bool.not_true, decide_false, Bool.or_false, Bool.false_eq_true,
      ↓reduceIte]
    exact Follows.whenever_op fun j _ _ _ => ⟨_, rfl⟩

/-- Whatever the function does, `Do` returns what it wakes its waiters with or waited for. -/
theorem doFlight_smooth (fn : GoProg (Except Err ByteView)) :
    (doFlight key fn).Follows (fun _ _ => True) (Whenever (Smooth g T₀) Succeeded) h := by
  refine Follows.whenever_op fun i enter _ => ?_
  cases enter with
  | join c =>
    refine Follows.whenever_op fun j r hr => ?_
    rw [follows_rethrow]
    exact fun _ => hr
  | lead c =>
    have hfn : fn.Follows (fun _ _ => True) (Whenever (Smooth g T₀) fun _ => True)
        (⟨.doEnter key, i, .lead c⟩ :: h) := Follows.of_end fun _ _ _ _ => trivial
    refine Follows.whenever_recover hfn fun h₁ r _ => ?_
    refine Follows.whenever_op fun j _ _ => ?_
    refine Follows.whenever_op fun l _ hr => ?_
    rw [follows_rethrow]
    exact fun _ => hr

theorem getHeld_smooth (hgetter : g.getter = true) (epoch state : Nat) :
    (Group.getHeld g key epoch state).Follows (fun _ _ => True)
      (Whenever (Smooth g T₀) Succeeded) h := by
  refine Follows.whenever_op fun i found _ => ?_
  cases found with
  | some view => exact Follows.whenever_op fun j _ _ _ => ⟨view, rfl⟩
  | none =>
    refine Follows.whenever_op fun j _ _ => ?_
    rw [hgetter]
    refine Follows.whenever_bind (doFlight_smooth _) (fun h₁ r hr => ?_) fun e he => ?_
    · obtain ⟨view, hview⟩ := hr
      cases hview
      exact fun _ => ⟨view, rfl⟩
    · obtain ⟨view, hview⟩ := he
      cases hview

theorem getLocal_smooth (hgetter : g.getter = true) (hown : g.peers = true → (T₀.pick key).Own) :
    (Group.getLocal g key).Follows (fun _ _ => True) (Whenever (Smooth g T₀) Succeeded) h := by
  refine Follows.whenever_op fun i closed hclosed => ?_
  obtain rfl : closed = false := hclosed
  refine Follows.whenever_bind (prepareLocalOwner_smooth hown) (fun h₁ r hr => ?_) fun e he => ?_
  · obtain ⟨epoch, hepoch⟩ := hr
    cases hepoch
    refine Follows.whenever_op fun j s _ => ?_
    refine Follows.whenever_recover (getHeld_smooth hgetter epoch s) fun h₂ r hr => ?_
    refine Follows.whenever_op fun l _ _ => ?_
    rw [follows_rethrow]
    exact fun _ => hr
  · obtain ⟨epoch, hepoch⟩ := he
    cases hepoch

/-- The first attempt of a read succeeds. -/
theorem getAttempts_smooth (hgetter : g.getter = true) (hown : (T₀.pick key).Own) (left : Nat) :
    (Group.getAttempts g key (left + 1)).Follows (fun _ _ => True)
      (Whenever (Smooth g T₀) Succeeded) h := by
  obtain ⟨hok, howner, hself⟩ := id hown
  refine Follows.whenever_op fun i p hsmooth => ?_
  obtain rfl : p = T₀.pick key := hsmooth
  simp only [hok, howner, hself, Bool.not_true, decide_false, Bool.or_false, Bool.false_eq_true,
    ↓reduceIte]
  refine Follows.whenever_bind (getLocal_smooth hgetter fun _ => hown) (fun h₁ r hr => ?_) ?_
  · obtain ⟨view, hview⟩ := hr
    cases hview
    exact fun _ => ⟨view, rfl⟩
  · rintro e ⟨view, hview⟩
    cases hview

theorem get_smooth (hgetter : g.getter = true) (hown : g.peers = true → (T₀.pick key).Own)
    (hkey : key ≠ []) :
    (Group.get g key).Follows (fun _ _ => True) (Whenever (Smooth g T₀) Succeeded) h := by
  refine Follows.whenever_op fun i closed hclosed => ?_
  obtain rfl : closed = false := hclosed
  simp only [hkey, Bool.false_eq_true, ↓reduceIte]
  split
  · exact getLocal_smooth hgetter hown
  · next hp => exact getAttempts_smooth hgetter (hown (by simpa using hp)) 3

theorem server_get_smooth (hgetter : g.getter = true) (hown : g.peers = true → (T₀.pick key).Own) :
    (Server.get g g.name key).Follows (fun _ _ => True)
      (Whenever (Smooth g T₀) fun r => ∃ resp, r = .ok (.ok resp)) h := by
  refine Follows.whenever_op fun i found hfound => ?_
  obtain rfl : found = true := hfound rfl
  refine Follows.whenever_bind (getLocal_smooth hgetter hown) (fun h₁ r hr => ?_) ?_
  · obtain ⟨view, hview⟩ := hr
    cases hview
    exact fun _ => ⟨_, rfl⟩
  · rintro e ⟨view, hview⟩
    cases hview

/-- A read of `k` with arguments that pass the checks: a `Get` with a key, or one that is served for
a peer and names this group. -/
def Call.Asks (g : Cfg) (k : GoString) : Call → Prop
  | .get key => key = k ∧ k ≠ []
  | .serve _ (.get group key) => group = g.name ∧ key = k
  | _ => False

/-- The read returned the value `v`. -/
def Call.Returns (v : ByteView) : Call → Except Panic Res → Prop
  | .get _, .ok (.view (.ok w)) => w = v
  | .serve _ (.get _ _), .ok (.reply (.ok resp)) => ⟨resp.value⟩ = v
  | _, _ => False

/-- **A read succeeds on every smooth path.** -/
theorem prog_smooth {call : Call} (hgetter : g.getter = true)
    (hown : g.peers = true → (T₀.pick k).Own) (hcall : call.Asks g k) :
    (Node.prog g call).Follows (fun _ _ => True)
      (Whenever (Smooth g T₀) fun r => ∃ v, call.Returns v r) h := by
  cases call with
  | get key =>
    obtain ⟨rfl, hkey⟩ := hcall
    refine Follows.whenever_bind (get_smooth hgetter hown hkey) (fun h₁ r hr => ?_) ?_
    · obtain ⟨view, hview⟩ := hr
      cases hview
      exact fun _ => ⟨view, rfl⟩
    · rintro e ⟨view, hview⟩
      cases hview
  | serve src req =>
    cases req with
    | get group key =>
      obtain ⟨rfl, rfl⟩ := hcall
      refine Follows.whenever_bind (server_get_smooth hgetter hown) (fun h₁ r hr => ?_) ?_
      · obtain ⟨resp, hresp⟩ := hr
        cases hresp
        exact fun _ => ⟨_, rfl⟩
      · rintro e ⟨resp, hresp⟩
        cases hresp
    | _ => exact hcall.elim
  | _ => exact hcall.elim

/-! ## Without a picker -/

/-- The action is not the loader's question who owns the key. -/
def Unpicked (_ : History) (o : Op) : Prop := ∀ k, o ≠ .pickOwner .load k

theorem load_unpicked (hp : g.peers = false) (epoch state : Nat) :
    (Group.load g key epoch state).Keeps Unpicked := by
  refine Keeps.op_bind (fun _ _ ho => by cases ho) fun begun => ?_
  cases begun with
  | hit view => exact .ret _
  | generation n =>
    refine Keeps.op_bind (fun _ _ ho => by cases ho) fun _ => ?_
    refine Keeps.op_bind (fun _ _ ho => by cases ho) fun id => ?_
    refine Keeps.op_bind (fun _ _ ho => by cases ho) fun out => ?_
    refine Keeps.bind (Keeps.rethrow (S := groupSig) out) fun fetched => ?_
    cases fetched with
    | error err => exact Keeps.op_bind (fun _ _ ho => by cases ho) fun _ => .ret _
    | ok bytes =>
      unfold Group.stillOwner
      rw [hp]
      refine Keeps.op_bind (fun _ _ ho => by cases ho) fun commit => ?_
      cases commit <;> exact .ret _

/-- Without peers no read asks for the owner after it has loaded. -/
theorem getLocal_unpicked (hp : g.peers = false) : (Group.getLocal g key).Keeps Unpicked := by
  refine Keeps.op_bind (fun _ _ ho => by cases ho) fun closed => ?_
  split
  · exact .ret _
  unfold Group.prepareLocalOwner
  rw [hp]
  refine Keeps.op_bind (fun _ _ ho => by cases ho) fun s => ?_
  refine Keeps.bind (Keeps.recover ?_) fun r =>
    Keeps.op_bind (fun _ _ ho => by cases ho) fun _ => .rethrow r
  refine Keeps.op_bind (fun _ _ ho => by cases ho) fun found => ?_
  cases found with
  | some view => exact Keeps.op_bind (fun _ _ ho => by cases ho) fun _ => .ret _
  | none =>
    refine Keeps.op_bind (fun _ _ ho => by cases ho) fun _ => ?_
    split
    · exact .ret _
    refine Keeps.bind ?_ fun r => by cases r <;> exact .ret _
    refine Keeps.op_bind (fun _ _ ho => by cases ho) fun enter => ?_
    cases enter with
    | join c =>
      exact Keeps.op_bind (fun _ _ ho => by cases ho) fun r => Keeps.rethrow (S := groupSig) r
    | lead c =>
      refine Keeps.bind (load_unpicked hp _ _).recover fun r => ?_
      refine Keeps.op_bind (fun _ _ ho => by cases ho) fun _ => ?_
      exact Keeps.op_bind (fun _ _ ho => by cases ho) fun _ => .rethrow r

/-- A read asks for the owner after it has loaded only if there is a picker to ask. -/
def PicksOfPeers (g : Cfg) (call : Call) (_ : History) (o : Op) : Prop :=
  ∀ key, call.Reads key → ∀ k, o = .pickOwner .load k → g.peers = true

def pickProtocol (g : Cfg) : Protocol (node g) where
  allows := PicksOfPeers g
  ends := fun _ _ _ => True
  follows := by
    intro call
    have hany : ∀ {p : GoProg Res}, (∀ h o, PicksOfPeers g call h o) →
        p.Follows (PicksOfPeers g call) (fun _ _ => True) [] := fun hall =>
      (Follows.of_end fun _ _ _ => trivial).mono (fun h o _ _ => hall h o) fun _ _ _ h => h
    cases hp : g.peers with
    | true => exact hany fun _ _ _ _ _ _ => hp
    | false =>
      have hlocal : ∀ {key}, (Group.getLocal g key).Keeps (PicksOfPeers g call) := by
        intro key h
        refine (getLocal_unpicked hp h).mono (fun _ o _ ho => ?_) fun _ _ _ h => h
        exact fun _ _ k hk => absurd hk (ho k)
      have hother : ∀ {o : Op} (h : History), (∀ k, o ≠ .pickOwner .load k) →
          PicksOfPeers g call h o := fun h ho _ _ k hk => absurd hk (ho k)
      cases call with
      | get key =>
        refine Keeps.bind ?_ (fun _ => .ret _) []
        refine Keeps.op_bind (fun h => hother h fun _ ho => by cases ho) fun closed => ?_
        split
        · exact .ret _
        split
        · exact .ret _
        rw [hp]
        exact hlocal
      | serve src req =>
        cases req with
        | get group key =>
          refine Keeps.bind ?_ (fun _ => .ret _) []
          refine Keeps.op_bind (fun h => hother h fun _ ho => by cases ho) fun found => ?_
          split
          · exact Keeps.bind hlocal fun r => by cases r <;> exact .ret _
          · exact .ret _
        | _ => exact hany fun _ _ _ hr => hr.elim
      | _ => exact hany fun _ _ _ hr => hr.elim

/-! ## Calls that fail -/

section Calls

variable {tr : Trace g} {σ σ' σ₀ : State} {t x s c : Nat} {o : Op} {i : Inp} {a : o.Ans}
  {r : FlightResult} {Q : Trace g → Nat → Prop}

/-- What makes the call `c` for `k` fail: its Getter call fails, its goroutine is no longer told
that the node is the owner, or its second section finds another generation and nothing cached. -/
inductive Fails (epoch : Option Nat) (k : GoString) (s c : Nat) : Stage → (o : Op) → o.Ans → Prop
    where
  | getter {n id : Nat} {out : Except Panic (Except Err Bytes)} (hout : ∀ b, out ≠ .ok (.ok b)) :
      Fails epoch k s c (.loading c n id) (.getterEnd id) out
  | lost {n : Nat} {b : Bytes} {p : Pick}
      (hp : (p.ok && p.self && some p.epoch = epoch) = false) :
      Fails epoch k s c (.loaded c n b) (.pickOwner .load k) p
  | missed {n : Nat} {b : Bytes} : Fails epoch k s c (.loaded c n b) (.loadCommit s k n b) .miss

/-- A goroutine that has a result for its call had it before, or has a value, or has just failed. -/
theorem Move.result {e : Option Nat} {y y' : Option (GoString × Nat)} {st st' : Stage}
    (hm : Move e o a y st y' st') (hheld : y' = some (k, s))
    (hst : st' = .decided c r ∨ st' = .removed c r) :
    Succeeded r ∨ y = some (k, s) ∧
      (Fails e k s c st o a ∨ st = .decided c r ∨ st = .removed c r) := by
  cases hm with
  | hit | stored | existing =>
    rcases hst with hst | hst <;> cases hst
    exact Or.inl ⟨_, rfl⟩
  | panicked | failed =>
    rcases hst with hst | hst <;> cases hst
    exact Or.inr ⟨hheld, Or.inl (.getter fun b hb => by cases hb)⟩
  | lost hp =>
    cases hheld
    rcases hst with hst | hst <;> cases hst
    exact Or.inr ⟨rfl, Or.inl (.lost hp)⟩
  | missed =>
    cases hheld
    rcases hst with hst | hst <;> cases hst
    exact Or.inr ⟨rfl, Or.inl .missed⟩
  | remove =>
    rcases hst with hst | hst <;> cases hst
    exact Or.inr ⟨hheld, Or.inr (Or.inl rfl)⟩
  | stay => exact Or.inr ⟨hheld, Or.inr hst⟩
  | _ => rcases hst with hst | hst <;> cases hst

/-- Every call for `k` has a value for those that wait for it, or `Q` says why not. -/
structure Blamed (Q : Trace g → Nat → Prop) (k : GoString) (tr : Trace g) (σ : State) : Prop where
  decided : ∀ t s c r, (locOf tr t).held = some (k, s) →
    ((locOf tr t).stage = .decided c r ∨ (locOf tr t).stage = .removed c r) → Succeeded r ∨ Q tr c
  done : ∀ t c r, Entered tr t k c → σ.calls c = some r → Succeeded r ∨ Q tr c

namespace Blamed

theorem act {call : Call} (hB : Blamed Q k tr σ) (hF : Flights tr σ)
    (hF' : Flights (.act x ⟨o, i, a⟩ :: tr) σ')
    (hgrow : ∀ c, Q tr c → Q (.act x ⟨o, i, a⟩ :: tr) c)
    (hfail : ∀ s c, (locOf tr x).held = some (k, s) →
      Fails (locOf tr x).epoch k s c (locOf tr x).stage o a → Q (.act x ⟨o, i, a⟩ :: tr) c)
    (hallow : Allowed g call (hist tr x) o) (hx : Node.exec g o i σ = some (a, σ')) :
    Blamed Q k (.act x ⟨o, i, a⟩ :: tr) σ' := by
  refine ⟨?_, ?_⟩
  · intro t s c r hheld hst
    by_cases htx : x = t
    · subst htx
      rw [locOf_act_self] at hheld hst
      rcases (hallow.move a).result hheld hst with hr | ⟨hheld', hfails | hold⟩
      · exact Or.inl hr
      · exact Or.inr (hfail s c hheld' hfails)
      · exact (hB.decided x s c r hheld' hold).imp_right (hgrow c)
    · rw [locOf_act_ne htx] at hheld hst
      exact (hB.decided t s c r hheld hst).imp_right (hgrow c)
  · intro t c r hent hr
    rcases calls_of_exec hx hr with hold | rfl
    · have hent' := hF.entered_of_calls hF' hold hent
      exact (hB.done t c r hent' hold).imp_right (hgrow c)
    · obtain ⟨s, -, hheld, hst⟩ := hF.of_done hF' hallow hent
      exact (hB.decided t s c r hheld (Or.inr hst)).imp_right (hgrow c)

theorem other {ℓ : Label (node g)} (hB : Blamed Q k tr σ) (hgrow : ∀ c, Q tr c → Q (ℓ :: tr) c)
    (hℓ : ∀ t e, ℓ ≠ .act t e) (hl : ∀ t, locOf (ℓ :: tr) t = locOf tr t)
    (hc : σ'.calls = σ.calls) : Blamed Q k (ℓ :: tr) σ' := by
  refine ⟨?_, ?_⟩
  · intro t s c r hheld hst
    rw [hl] at hheld hst
    exact (hB.decided t s c r hheld hst).imp_right (hgrow c)
  · rintro t c r ⟨i, hi⟩ hr
    rw [hc] at hr
    rcases List.mem_cons.1 hi with heq | hi
    · exact absurd heq.symm (hℓ _ _)
    · exact (hB.done t c r ⟨i, hi⟩ hr).imp_right (hgrow c)

end Blamed

/-! ## Runs -/

/-- A new read-through node that owns `k`, open and registered. -/
structure ReadThrough (g : Cfg) (σ₀ : State) (k : GoString) : Prop where
  fresh : σ₀.Fresh
  getter : g.getter = true
  opened : σ₀.closed = false
  registered : σ₀.registered = true
  own : g.peers = true → (σ₀.topology.pick k).Own

theorem readThrough_solo (k : GoString) : ReadThrough Cfg.solo State.solo k :=
  ⟨State.fresh_solo, rfl, rfl, rfl, fun h => by cases h⟩

/-- No membership change and no `Close`. -/
def Uninterrupted : Label (node g) → Prop
  | .env (.membership _) | .spawn _ .close => False
  | _ => True

theorem Uninterrupted.stable {ℓ : Label (node g)} (h : Uninterrupted ℓ) : Stable ℓ := by
  unfold Stable
  split
  · exact h
  · trivial

/-- A goroutine enters the singleflight group only for the key its call reads. -/
theorem Run.reads_of_enter {G : Guard (node g)} {c : Config (node g)} (h : Run G σ₀ c tr)
    {call : Call} {enter : Enter} (hm : .act t ⟨.doEnter key, i, enter⟩ ∈ tr)
    (hcall : callOf tr t = some call) : call.Reads key := by
  obtain ⟨X, Y, hXY⟩ := List.append_of_mem (mem_hist.2 hm)
  obtain ⟨call', hcall', hreads, -⟩ :=
    h.allowed (protocol g) t ⟨.doEnter key, i, enter⟩ Y ⟨X, hXY.symm⟩
  cases hcall.symm.trans hcall'
  exact hreads

/-- A goroutine that waits for a call has joined it. -/
theorem Run.joined_mem {G : Guard (node g)} {c : Config (node g)} (h : Run G σ₀ c tr) :
    ∀ t k n, Joined tr t k n → ∃ i, .act t ⟨.doEnter k, i, .join n⟩ ∈ tr := by
  have hmem : ∀ {ℓ : Label (node g)} {tr : Trace g} {t k n},
      (∃ i, .act t ⟨.doEnter k, i, .join n⟩ ∈ tr) →
      ∃ i, .act t ⟨.doEnter k, i, .join n⟩ ∈ ℓ :: tr := by
    rintro ℓ tr t k n ⟨i, hi⟩
    exact ⟨i, List.mem_cons_of_mem _ hi⟩
  refine h.inv (P := protocol g) (I := fun tr _ => ∀ t k n, Joined tr t k n →
    ∃ i, .act t ⟨.doEnter k, i, .join n⟩ ∈ tr) ⟨?_, ?_, ?_, ?_, ?_⟩
  · rintro t k n ⟨s, hs, -⟩
    cases hs
  · exact fun hI _ _ _ t k n hj => hmem (hI t k n hj)
  · intro tr σ x call o i a σ' hI _ _ hallow _ t k n hj
    rcases joined_act hallow hj with hold | ⟨rfl, heq⟩
    · exact hmem (hI t k n hold)
    · rw [heq]
      exact ⟨i, List.mem_cons_self⟩
  · exact fun hI _ _ _ t k n hj => hmem (hI t k n hj)
  · exact fun hI _ _ t k n hj => hmem (hI t k n hj)

/-- A load that misses in its second section finds a generation that mutations have moved on. -/
theorem mutations_of_miss {n : Nat} {b : Bytes} (hL : Loads tr σ)
    (hheld : (locOf tr x).held = some (k, s)) (hst : (locOf tr x).stage = .loaded c n b)
    (hx : Node.exec g (.loadCommit s k n b) i σ = some (.miss, σ')) :
    ∃ w, LoadWindow x k s n tr w ∧ mutations k w ≠ 0 := by
  obtain ⟨w, hw, -, hn, hgen⟩ := hL.2 x k s n hheld (by rw [hst]; rfl)
  refine ⟨w, hw, fun hzero => ?_⟩
  rw [hzero, Nat.add_zero, Nat.mod_eq_of_lt hn] at hgen
  obtain ⟨-, σ₁, hact, -⟩ := exec_eq_some.1 hx
  have hans := (Prod.ext_iff.1 (Option.some.inj hact)).1
  rcases loadCommit_cases s k n b with ⟨hne, -, -⟩ | ⟨-, -, ha⟩
  · exact absurd hgen hne
  · exact absurd (ha.symm.trans hans) fun h => by cases h

/-- What is known of every state of an uninterrupted run. -/
structure Backdrop (T₀ : Topology) (tr : Trace g) (σ : State) : Prop where
  flights : Flights tr σ
  loads : Loads tr σ
  members : Memberships T₀ tr σ
  uninterrupted : ∀ ℓ ∈ tr, Uninterrupted ℓ
  checked : ∀ t key i id, .act t ⟨.getterStart key, i, id⟩ ∈ tr → Checked g key (hist tr t)
  picks : ∀ t k key i p n, .act t ⟨.pickOwner .load k, i, p⟩ ∈ tr → Entered tr t key n →
    g.peers = true

theorem Run.backdrop {G : Guard (node g)} (hG : ∀ tr σ ℓ σ', G tr σ ℓ σ' → Uninterrupted ℓ)
    (h₀ : σ₀.Fresh) {c : Config (node g)} (h : Run G σ₀ c tr) :
    Backdrop σ₀.topology tr c.state := by
  refine ⟨Run.flights h₀ h, Run.loads h₀ h, Run.memberships h₀ h, h.forall_mem hG, ?_, ?_⟩
  · exact fun t key i id hm => Run.checked h hm
  · rintro t k key i p n hm ⟨j, hj⟩
    obtain ⟨X, Y, hXY⟩ := List.append_of_mem (mem_hist.2 hm)
    obtain ⟨call, hcall, hpick⟩ :=
      h.allowed (pickProtocol g) t ⟨.pickOwner .load k, i, p⟩ Y ⟨X, hXY.symm⟩
    exact hpick key (Run.reads_of_enter h hj hcall) k rfl

theorem Backdrop.stable {T₀ : Topology} (hB : Backdrop T₀ tr σ) : ∀ ℓ ∈ tr, Stable ℓ :=
  fun ℓ hℓ => (hB.uninterrupted ℓ hℓ).stable

/-- A load is always told that the node still owns the key. -/
theorem Backdrop.still_owner {T₀ : Topology} {p : Pick} {n : Nat} {b : Bytes}
    (hB : Backdrop T₀ tr σ) (hB' : Backdrop T₀ (.act x ⟨.pickOwner .load k, i, p⟩ :: tr) σ')
    (hown : g.peers = true → (T₀.pick k).Own) (hheld : (locOf tr x).held = some (k, s))
    (hst : (locOf tr x).stage = .loaded c n b) :
    (p.ok && p.self && some p.epoch = (locOf tr x).epoch) = true := by
  have hent : Entered tr x k c := hB.flights.entered x k c ⟨s, hheld, by rw [hst]; rfl⟩
  have hpeers : g.peers = true := hB'.picks x k k i p c List.mem_cons_self hent.cons
  obtain ⟨hok, -, hself⟩ := hown hpeers
  obtain rfl : p = T₀.pick k := hB'.members.pick_of_stable hB'.stable List.mem_cons_self
  -- the epoch is that of the check the goroutine made before it called the Getter
  obtain ⟨w, ⟨⟨j, tr', htr⟩, -⟩, hsince, -⟩ := hB.loads.2 x k s n hheld (by rw [hst]; rfl)
  rw [hst] at hsince
  obtain ⟨id, i₁, -, hstart, -⟩ := hsince
  obtain ⟨i₂, q, hm, -⟩ := hB.checked x k i₁ id (by rw [htr]; simp [hstart]) hpeers
  obtain ⟨e, he⟩ := epoch_of_mem hm
  obtain rfl := epoch_of_stable hB.members hB.stable he
  have he : (locOf tr x).epoch = some T₀.epoch := he
  simp [hok, hself, he, T₀.pick_epoch]

/-- **Calls that fail are to blame**, over whole runs: it is enough to look at the ends of Getter
calls and at second sections after a mutation. -/
theorem Run.blamed {G : Guard (node g)} (hR : ReadThrough g σ₀ k)
    (hG : ∀ tr σ ℓ σ', G tr σ ℓ σ' → Uninterrupted ℓ)
    (hgrow : ∀ tr ℓ c, Q tr c → Q (ℓ :: tr) c)
    (hgetter : ∀ tr σ x id i out σ' s c n, G tr σ (.act x ⟨.getterEnd id, i, out⟩) σ' →
      Backdrop σ₀.topology tr σ → (locOf tr x).held = some (k, s) →
      (locOf tr x).stage = .loading c n id → (∀ b, out ≠ .ok (.ok b)) →
      Q (.act x ⟨.getterEnd id, i, out⟩ :: tr) c)
    (hmiss : ∀ tr σ x s n b i σ' c w, G tr σ (.act x ⟨.loadCommit s k n b, i, .miss⟩) σ' →
      Backdrop σ₀.topology tr σ → (locOf tr x).held = some (k, s) →
      (locOf tr x).stage = .loaded c n b → LoadWindow x k s n tr w → mutations k w ≠ 0 →
      Q (.act x ⟨.loadCommit s k n b, i, .miss⟩ :: tr) c)
    {c : Config (node g)} (h : Run G σ₀ c tr) : Blamed Q k tr c.state := by
  refine (h.guarded (I := Backdrop σ₀.topology) fun h => Run.backdrop hG hR.fresh h).inv
    (P := protocol g) (I := Blamed Q k) ⟨?_, ?_, ?_, ?_, ?_⟩
  · refine ⟨?_, ?_⟩
    · intro t s c r hheld
      cases hheld
    · rintro t c r ⟨i, hi⟩
      cases hi
  · intro tr σ t call hI _ _ _
    exact hI.other (hgrow tr _) (fun _ _ h => by cases h) (fun _ => locOf_spawn) rfl
  · intro tr σ x call o i a σ' hI hg _ hallow hx
    obtain ⟨hg, hB, hB'⟩ := hg
    refine hI.act hB.flights hB'.flights (hgrow tr _) (fun s c hheld hfails => ?_) hallow hx
    generalize hst : (locOf tr x).stage = st at hfails
    cases hfails with
    | getter hout => exact hgetter tr σ x _ i _ σ' s c _ hg hB hheld hst hout
    | lost hp =>
      rw [hB.still_owner hB' hR.own hheld hst] at hp
      cases hp
    | missed =>
      obtain ⟨w, hw, hmut⟩ := mutations_of_miss hB.loads hheld hst hx
      exact hmiss tr σ x s _ _ i σ' c w hg hB hheld hst hw hmut
  · intro tr σ t call r hI _ _ _
    exact hI.other (hgrow tr _) (fun _ _ h => by cases h) (fun _ => locOf_ret) rfl
  · intro tr σ e σ' hI _ hx
    exact hI.other (hgrow tr _) (fun _ _ h => by cases h) (fun _ => locOf_env)
      (env_frame hx).flights.2.1

theorem grow_append (hgrow : ∀ tr ℓ c, Q tr c → Q (ℓ :: tr) c) {A B : Trace g} (hQ : Q B c) :
    Q (A ++ B) c := by
  induction A with
  | nil => exact hQ
  | cons ℓ A ih => exact hgrow (A ++ B) ℓ c ih

theorem Call.Asks.reads {call : Call} (h : call.Asks g k) : ∀ key, call.Reads key ↔ k = key := by
  intro key
  cases call with
  | get key' =>
    obtain ⟨rfl, -⟩ := h
    exact Iff.rfl
  | serve src req =>
    cases req with
    | get group key' =>
      obtain ⟨-, rfl⟩ := h
      exact Iff.rfl
    | _ => exact h.elim
  | _ => exact h.elim

/-- **A read fails only with the call it led or joined.** -/
theorem Run.read_fails {G : Guard (node g)} (hR : ReadThrough g σ₀ k)
    (hG : ∀ tr σ ℓ σ', G tr σ ℓ σ' → Uninterrupted ℓ)
    (hgrow : ∀ tr ℓ c, Q tr c → Q (ℓ :: tr) c)
    (hblamed : ∀ {c tr}, Run G σ₀ c tr → Blamed Q k tr c.state) {c : Config (node g)}
    (h : Run G σ₀ c tr) {call : Call} {r : Except Panic Res} (hspawn : .spawn t call ∈ tr)
    (hcall : call.Asks g k) (hret : .ret t r ∈ tr) :
    (∃ v, call.Returns v r) ∨ ∃ n i, Q tr n ∧
      (.act t ⟨.doEnter k, i, .lead n⟩ ∈ tr ∨ .act t ⟨.doEnter k, i, .join n⟩ ∈ tr) := by
  by_cases hall : ∀ e ∈ hist tr t, Smooth g σ₀.topology e
  · exact Or.inl ((prog_smooth hR.getter hR.own hcall).of_ends (h.ends hspawn hret) hall)
  right
  push Not at hall
  obtain ⟨⟨o, i, a⟩, he, hnot⟩ := hall
  have hB := Run.backdrop hG hR.fresh h
  have hno : ∀ t, .spawn t .close ∉ tr := fun t ht => hB.uninterrupted _ ht
  have hm := mem_hist.1 he
  obtain ⟨A, B, rfl⟩ := List.append_of_mem hm
  obtain ⟨c₁, cmd, c₂, hrun, hstep, -⟩ := h.split
  obtain ⟨call', hcall', hallow, hx⟩ := hrun.of_act (protocol g) hstep
  have hopen := Run.stays_open hrun fun t ht => hno t (by simp [ht])
  obtain ⟨-, σ₁, hact, -⟩ := exec_eq_some.1 hx
  have hlater : ∀ {ℓ}, ℓ ∈ B → ℓ ∈ A ++ .act t ⟨o, i, a⟩ :: B := fun hℓ =>
    List.mem_append_right A (List.mem_cons_of_mem _ hℓ)
  -- the call that is waited for or finished is for the key of the read
  have hkey : ∀ {key j enter}, .act t ⟨.doEnter key, j, enter⟩ ∈ B → k = key := fun hj =>
    (hcall.reads _).1 (Run.reads_of_enter h (hlater hj) (h.callOf_spawn hspawn))
  cases o with
  | loadClosed =>
    have hans : c₁.state.closed = a := congrArg Prod.fst (Option.some.inj hact)
    exact absurd (hans.symm.trans (hopen.1.trans hR.opened)) hnot
  | getGroup name =>
    have hans : (c₁.state.registered && name = g.name : Bool) = a :=
      congrArg Prod.fst (Option.some.inj hact)
    refine absurd (fun hname => ?_) hnot
    rw [← hans, hopen.2, hR.registered]
    simpa using hname
  | pickOwner site key => exact absurd (hB.members.pick_of_stable hB.stable hm) hnot
  | doWait n =>
    obtain ⟨key, s, hheld, hst⟩ := hallow
    change (locOf B t).stage = _ at hst
    obtain ⟨r', hr', heq⟩ := Option.map_eq_some_iff.1 hact
    cases heq
    have hj : Joined B t key n := ⟨s, hheld, by rw [hst]; rfl⟩
    obtain ⟨j, hjoin⟩ := Run.joined_mem hrun t key n hj
    obtain rfl := hkey hjoin
    obtain ⟨u, hent⟩ := (Run.flights hR.fresh hrun).joined t k n hj
    rcases (hblamed hrun).done u n a hent hr' with hr | hQ
    · exact absurd hr hnot
    · exact ⟨n, j, grow_append hgrow (hgrow B _ n hQ), Or.inr (hlater hjoin)⟩
  | doDone n r' =>
    obtain ⟨key, s, hheld, hst⟩ := hallow
    obtain ⟨j, hlead⟩ : Entered B t key n :=
      (Run.flights hR.fresh hrun).entered t key n (owns_of_decided hheld (Or.inr hst))
    obtain rfl := hkey hlead
    rcases (hblamed hrun).decided t s n r' hheld (Or.inr hst) with hr | hQ
    · exact absurd hr hnot
    · exact ⟨n, j, grow_append hgrow (hgrow B _ n hQ), Or.inl (hlater hlead)⟩
  | _ => exact absurd trivial hnot

end Calls

end Locache
