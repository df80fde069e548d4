import Locache.Group.Effects

/-!
# A closed group

`Close` sets a flag, closes the caches and takes the group out of the registry, one after the other,
while other calls are running. Each of these can only go one way (`Shuts`), so what a later call
sees of them is settled: a call that begins after the flag is set is turned away at once, and after
the `Close` that set it has returned, nothing is found in the group by anybody
(`closed_for_good`).
-/

namespace Locache

open Conc Prog

variable {g : Cfg} {o : Op} {i : Inp} {a : o.Ans} {σ σ' σ₀ : State}

/-! ## The flags -/

namespace Cache

variable (c : Cache)

theorem closed_get (now : Time) (key : GoString) : (c.get now key).2.closed = c.closed := by
  unfold get
  split <;> rfl

theorem closed_delete (key : GoString) : (c.delete key).2.closed = c.closed := by
  unfold delete
  split <;> rfl

theorem closed_clear (order : List GoString) : (c.clear order).closed = c.closed := by
  unfold clear
  split <;> rfl

theorem closed_clearShard (shard : Nat) (order : List GoString) :
    (c.clearShard shard order).closed = c.closed := by
  unfold clearShard
  split <;> rfl

theorem closed_addFor (key : GoString) (v : ByteView) (ttl : Duration) (now later : Time)
    (order : List GoString) : (c.addFor key v ttl now later order).closed = c.closed := by
  unfold addFor
  split
  · rfl
  · split <;> rfl

theorem closed_add (key : GoString) (v : ByteView) (now later : Time) (order : List GoString) :
    (c.add key v now later order).closed = c.closed := by
  unfold add
  split <;> rfl

theorem closed_addOwnerValue (key : GoString) (v : ByteView) (i : Inp) :
    (Group.addOwnerValue g key v i c).closed = c.closed := by
  unfold Group.addOwnerValue
  split
  · exact c.closed_addFor ..
  · exact c.closed_add ..

end Cache

/-- The flags of a group go one way. -/
structure Shuts (σ σ' : State) : Prop where
  closed : σ.closed = true → σ'.closed = true
  main : σ.main.closed = true → σ'.main.closed = true
  near : σ.near.closed = true → σ'.near.closed = true
  registered : σ.registered = false → σ'.registered = false

/-- Only `Close` closes a cache. -/
theorem main_closed_of_act {σ₁ : State} (h : Group.act g i σ o = some (a, σ₁))
    (ho : o ≠ .mainClose) : σ₁.main.closed = σ.main.closed := by
  by_cases hmain : o.onMain = false
  · rw [(act_frame h).main hmain]
  cases o with
  | ownerEpoch e =>
    cases h
    unfold Group.checkOwnerEpoch
    split
    · rfl
    · split
      · exact Cache.closed_clear ..
      · rfl
  | mainGet key =>
    cases h
    exact Cache.closed_get ..
  | mainDelete key =>
    cases h
    exact Cache.closed_delete ..
  | mainClear shard =>
    cases h
    exact Cache.closed_clearShard ..
  | mainClose => exact absurd rfl ho
  | loadBegin s key =>
    obtain rfl : (Group.loadBegin s key i.now σ).2 = σ₁ := congrArg Prod.snd (Option.some.inj h)
    rw [main_loadBegin]
    exact Cache.closed_get ..
  | loadCommit s key n b =>
    obtain rfl : (Group.loadCommit g s key n b i σ).2 = σ₁ := congrArg Prod.snd (Option.some.inj h)
    unfold Group.loadCommit
    split
    · dsimp only
      split <;> exact Cache.closed_get ..
    · exact Cache.closed_addOwnerValue ..
  | setSection s key value =>
    cases h
    exact Cache.closed_addOwnerValue ..
  | deleteSection s key =>
    cases h
    exact Cache.closed_delete ..
  | _ => exact absurd rfl hmain

theorem near_closed_of_act {σ₁ : State} (h : Group.act g i σ o = some (a, σ₁))
    (ho : o ≠ .nearClose) : σ₁.near.closed = σ.near.closed := by
  by_cases hnear : o.onNear = false
  · rw [(act_frame h).near hnear]
  cases o with
  | nearGet key =>
    cases h
    exact Cache.closed_get ..
  | nearDelete key =>
    cases h
    exact Cache.closed_delete ..
  | nearClear shard =>
    cases h
    exact Cache.closed_clearShard ..
  | nearClose => exact absurd rfl ho
  | nearSet key view ttl =>
    cases h
    exact Cache.closed_addFor ..
  | _ => exact absurd rfl hnear

theorem Shuts.exec (h : Node.exec g o i σ = some (a, σ')) : Shuts σ σ' := by
  obtain ⟨-, σ₁, hact, rfl⟩ := exec_eq_some.1 h
  refine ⟨fun hf => ?_, fun hf => ?_, fun hf => ?_, fun hf => ?_⟩
  · by_cases ho : o = .casClosed
    · subst ho
      cases hact
      rfl
    · exact ((open_of_act hact).1 ho).trans hf
  · by_cases ho : o = .mainClose
    · subst ho
      cases hact
      rfl
    · exact (main_closed_of_act hact ho).trans hf
  · by_cases ho : o = .nearClose
    · subst ho
      cases hact
      rfl
    · exact (near_closed_of_act hact ho).trans hf
  · by_cases ho : o = .unregister
    · subst ho
      cases hact
      rfl
    · exact ((open_of_act hact).2 ho).trans hf

theorem Shuts.env {e : Event} (h : Node.env e σ = some σ') : Shuts σ σ' := by
  rcases env_cases h with ⟨T, -, -, rfl⟩ | ⟨shard, order, now, -, -, rfl⟩ |
    ⟨shard, order, now, -, -, rfl⟩ <;> exact ⟨id, id, id, id⟩

/-! ## What was done -/

/-- Some goroutine has done `o`. -/
def Did (tr : Trace g) (o : Op) : Prop := ∃ t i a, .act t ⟨o, i, a⟩ ∈ tr

/-- The goroutine `t` has set the flag. -/
def Won (tr : Trace g) (t : Nat) : Prop := ∃ i, .act t ⟨.casClosed, i, true⟩ ∈ tr

/-- The flags tell what was done. -/
structure Marks (tr : Trace g) (σ : State) : Prop where
  closed : Did tr .casClosed ↔ σ.closed = true
  main : Did tr .mainClose → σ.main.closed = true
  near : Did tr .nearClose → σ.near.closed = true
  registered : Did tr .unregister → σ.registered = false
  won : Did tr .casClosed → ∃ t, Won tr t
  once : ∀ t u, Won tr t → Won tr u → t = u

variable {tr : Trace g}

section Did

variable {t u : Nat} {o' : Op}

theorem Did.cons {ℓ : Label (node g)} (h : Did tr o) : Did (ℓ :: tr) o := by
  obtain ⟨t, i, a, hm⟩ := h
  exact ⟨t, i, a, List.mem_cons_of_mem _ hm⟩

theorem did_act : Did (.act t ⟨o, i, a⟩ :: tr) o' ↔ o = o' ∨ Did tr o' := by
  constructor
  · rintro ⟨u, j, b, hm⟩
    rcases List.mem_cons.1 hm with heq | hm
    · cases heq
      exact Or.inl rfl
    · exact Or.inr ⟨u, j, b, hm⟩
  · rintro (rfl | h)
    · exact ⟨t, i, a, List.mem_cons_self⟩
    · exact h.cons

theorem won_act (ho : o ≠ .casClosed) : Won (.act t ⟨o, i, a⟩ :: tr) u ↔ Won tr u := by
  constructor
  · rintro ⟨j, hm⟩
    rcases List.mem_cons.1 hm with heq | hm
    · cases heq
      exact absurd rfl ho
    · exact ⟨j, hm⟩
  · rintro ⟨j, hm⟩
    exact ⟨j, List.mem_cons_of_mem _ hm⟩

theorem won_cas {won : Bool} : Won (.act t ⟨.casClosed, i, won⟩ :: tr) u ↔
    (u = t ∧ won = true) ∨ Won tr u := by
  constructor
  · rintro ⟨j, hm⟩
    rcases List.mem_cons.1 hm with heq | hm
    · cases heq
      exact Or.inl ⟨rfl, rfl⟩
    · exact Or.inr ⟨j, hm⟩
  · rintro (⟨rfl, rfl⟩ | ⟨j, hm⟩)
    · exact ⟨i, List.mem_cons_self⟩
    · exact ⟨j, List.mem_cons_of_mem _ hm⟩

theorem Won.did (h : Won tr t) : Did tr .casClosed := by
  obtain ⟨i, hm⟩ := h
  exact ⟨t, i, true, hm⟩

/-- A step that is not an action of a goroutine leaves what was done. -/
theorem Marks.other (h : Marks tr σ) {ℓ : Label (node g)} (hℓ : ∀ t e, ℓ ≠ .act t e)
    (hs : Shuts σ σ') (hclosed : σ'.closed = σ.closed) : Marks (ℓ :: tr) σ' := by
  have hmem : ∀ {t e}, .act t e ∈ ℓ :: tr → .act t e ∈ tr := by
    intro t e hm
    exact (List.mem_cons.1 hm).resolve_left fun heq => hℓ t e heq.symm
  have hdid : ∀ {o}, Did (ℓ :: tr) o → Did tr o := by
    rintro o ⟨t, i, a, hm⟩
    exact ⟨t, i, a, hmem hm⟩
  have hwon : ∀ {t}, Won (ℓ :: tr) t → Won tr t := by
    rintro t ⟨i, hm⟩
    exact ⟨i, hmem hm⟩
  refine ⟨?_, fun hd => hs.main (h.main (hdid hd)), fun hd => hs.near (h.near (hdid hd)),
    fun hd => hs.registered (h.registered (hdid hd)), ?_,
    fun t u ht hu => h.once t u (hwon ht) (hwon hu)⟩
  · rw [hclosed, ← h.closed]
    exact ⟨hdid, Did.cons⟩
  · intro hd
    obtain ⟨t, j, hm⟩ := h.won (hdid hd)
    exact ⟨t, j, List.mem_cons_of_mem _ hm⟩

theorem Marks.act (h : Marks tr σ) (hx : Node.exec g o i σ = some (a, σ')) :
    Marks (.act t ⟨o, i, a⟩ :: tr) σ' := by
  have hs := Shuts.exec hx
  obtain ⟨-, σ₁, hact, rfl⟩ := exec_eq_some.1 hx
  have hmain : Did (.act t ⟨o, i, a⟩ :: tr) .mainClose → σ₁.main.closed = true := by
    rw [did_act]
    rintro (rfl | hd)
    · cases hact
      rfl
    · exact hs.main (h.main hd)
  have hnear : Did (.act t ⟨o, i, a⟩ :: tr) .nearClose → σ₁.near.closed = true := by
    rw [did_act]
    rintro (rfl | hd)
    · cases hact
      rfl
    · exact hs.near (h.near hd)
  have hregistered : Did (.act t ⟨o, i, a⟩ :: tr) .unregister → σ₁.registered = false := by
    rw [did_act]
    rintro (rfl | hd)
    · cases hact
      rfl
    · exact hs.registered (h.registered hd)
  by_cases ho : o = .casClosed
  · subst ho
    obtain ⟨rfl, rfl⟩ : (!σ.closed) = a ∧ { σ with closed := true } = σ₁ := by
      cases hact
      exact ⟨rfl, rfl⟩
    refine ⟨iff_of_true (did_act.2 (Or.inl rfl)) rfl, hmain, hnear, hregistered, ?_, ?_⟩
    · intro _
      cases hclosed : σ.closed with
      | false => exact ⟨t, won_cas.2 (Or.inl ⟨rfl, rfl⟩)⟩
      | true =>
        obtain ⟨u, hu⟩ := h.won (h.closed.2 hclosed)
        exact ⟨u, won_cas.2 (Or.inr hu)⟩
    · -- a second goroutine would have found the flag set
      intro u v hu hv
      rcases won_cas.1 hu with ⟨rfl, hopen⟩ | hold
      · rcases won_cas.1 hv with ⟨rfl, -⟩ | hold
        · rfl
        · rw [h.closed.1 hold.did] at hopen
          cases hopen
      · rcases won_cas.1 hv with ⟨rfl, hopen⟩ | hold'
        · rw [h.closed.1 hold.did] at hopen
          cases hopen
        · exact h.once u v hold hold'
  · refine ⟨?_, hmain, hnear, hregistered, ?_, ?_⟩
    · rw [did_act, or_iff_right ho, h.closed]
      exact iff_of_eq (congrArg (· = true) ((open_of_act hact).1 ho).symm)
    · rw [did_act, or_iff_right ho]
      intro hd
      obtain ⟨u, hu⟩ := h.won hd
      exact ⟨u, (won_act ho).2 hu⟩
    · intro u v hu hv
      exact h.once u v ((won_act ho).1 hu) ((won_act ho).1 hv)

theorem Run.marks {G : Guard (node g)} (hopen : σ₀.closed = false) {c : Config (node g)}
    (h : Run G σ₀ c tr) : Marks tr c.state := by
  refine h.inv (P := protocol g) ⟨?_, ?_, ?_, ?_, ?_⟩
  · have hno : ∀ o, ¬ Did ([] : Trace g) o := by
      rintro o ⟨t, i, a, hm⟩
      cases hm
    have hwon : ∀ t, ¬ Won ([] : Trace g) t := by
      rintro t ⟨i, hm⟩
      cases hm
    exact ⟨iff_of_false (hno _) (by simp [hopen]), fun hd => absurd hd (hno _),
      fun hd => absurd hd (hno _), fun hd => absurd hd (hno _), fun hd => absurd hd (hno _),
      fun t _ ht => absurd ht (hwon t)⟩
  · intro tr σ t call hI _ _ _
    exact hI.other (by simp) ⟨id, id, id, id⟩ rfl
  · intro tr σ t call o i a σ' hI _ _ _ hx
    exact hI.act hx
  · intro tr σ t call r hI _ _ _
    exact hI.other (by simp) ⟨id, id, id, id⟩ rfl
  · intro tr σ e σ' hI _ hx
    refine hI.other (by simp) (.env hx) ?_
    rcases env_cases hx with ⟨T, -, -, rfl⟩ | ⟨shard, order, now, -, -, rfl⟩ |
      ⟨shard, order, now, -, -, rfl⟩ <;> rfl

end Did

/-! ## Calls that are turned away -/

/-- How the flag answers once it is set. -/
def Shown : Ev groupSig Inp → Prop
  | ⟨.loadClosed, _, closed⟩ => closed = true
  | ⟨.casClosed, _, won⟩ => won = false
  | _ => True

/-- An action that only reads whether the group is there and open, or finds it closed. -/
def Op.inspects : Op → Bool
  | .loadClosed | .casClosed | .getGroup _ => true
  | _ => false

/-- What a call comes to that begins after the flag is set. An invalidation is not turned away. -/
def TurnedAway : Call → Except Panic Res → Prop
  | .get _, r => r = .ok (.view (.error (.sentinel .groupClosed)))
  | .set _ _, r | .delete _, r => r = .ok (.done (some (.sentinel .groupClosed)))
  | .clear, r | .close, r => r = .ok .unit
  | .serve _ _, r => ∃ err, r = .ok (.reply (.error err)) ∧
    (err = .status .unavailable (Err.sentinel .groupClosed).text ∨
      ∃ name, err = .other (ascii "group " ++ name ++ ascii " not found"))

def Call.invalidates : Call → Bool
  | .serve _ (.invalidate _ _) => true
  | _ => false

theorem prog_refused {call : Call} (hcall : call.invalidates = false) :
    (Node.prog g call).FollowsOn Shown (fun _ o => o.inspects = true) (fun _ r => TurnedAway call r)
      [] := by
  cases call with
  | get key =>
    refine FollowsOn.op_bind rfl fun i closed hclosed => ?_
    obtain rfl : closed = true := hclosed
    exact FollowsOn.ret rfl
  | set key value =>
    refine FollowsOn.op_bind rfl fun i closed hclosed => ?_
    obtain rfl : closed = true := hclosed
    exact FollowsOn.ret rfl
  | delete key =>
    refine FollowsOn.op_bind rfl fun i closed hclosed => ?_
    obtain rfl : closed = true := hclosed
    exact FollowsOn.ret rfl
  | clear =>
    refine FollowsOn.op_bind rfl fun i closed hclosed => ?_
    obtain rfl : closed = true := hclosed
    exact FollowsOn.ret rfl
  | close =>
    refine FollowsOn.op_bind rfl fun i won hwon => ?_
    obtain rfl : won = false := hwon
    exact FollowsOn.ret rfl
  | serve src req =>
    -- the handler finds no group, or one that turns it away
    have hserve : ∀ {name : GoString} {handler : GoProg (Except Err Resp)},
        (∀ {h}, (handler.bind fun r => .ret (Res.reply r)).FollowsOn Shown
          (fun _ o => o.inspects = true) (fun _ r => TurnedAway (.serve src req) r) h) →
        ((Server.withGroup name handler).bind fun r => .ret (Res.reply r)).FollowsOn Shown
          (fun _ o => o.inspects = true) (fun _ r => TurnedAway (.serve src req) r) [] := by
      intro name handler hh
      refine FollowsOn.op_bind rfl fun i found _ => ?_
      cases found with
      | true => exact hh
      | false => exact FollowsOn.ret ⟨_, rfl, Or.inr ⟨name, rfl⟩⟩
    cases req with
    | invalidate group key => cases hcall
    | get group key =>
      refine hserve (FollowsOn.op_bind rfl fun i closed hclosed => ?_)
      obtain rfl : closed = true := hclosed
      exact FollowsOn.ret ⟨_, rfl, Or.inl rfl⟩
    | set group key value =>
      refine hserve (FollowsOn.op_bind rfl fun i closed hclosed => ?_)
      obtain rfl : closed = true := hclosed
      exact FollowsOn.ret ⟨_, rfl, Or.inl rfl⟩
    | delete group key =>
      refine hserve (FollowsOn.op_bind rfl fun i closed hclosed => ?_)
      obtain rfl : closed = true := hclosed
      exact FollowsOn.ret ⟨_, rfl, Or.inl rfl⟩

theorem prog_refuses (call : Call) : (Node.prog g call).Follows
    (fun h o => call.invalidates = false → (∀ e ∈ h, Shown e) → o.inspects = true)
    (fun h r => call.invalidates = false → (∀ e ∈ h, Shown e) → TurnedAway call r) [] := by
  by_cases hcall : call.invalidates = false
  · exact Follows.mono (prog_refused hcall) (fun _ _ _ hJ _ => hJ) fun _ _ _ hF _ => hF
  · exact (Follows.of_end fun _ _ _ hc => absurd hc hcall).mono
      (fun _ _ _ _ hc => absurd hc hcall) fun _ _ _ hF => hF

def refusedProtocol (g : Cfg) : Protocol (node g) where
  allows := fun call h o => call.invalidates = false → (∀ e ∈ h, Shown e) → o.inspects = true
  ends := fun call h r => call.invalidates = false → (∀ e ∈ h, Shown e) → TurnedAway call r
  follows := prog_refuses

/-! ## The end of `Close` -/

/-- What a `Close` has done when it returns, and what it has done if it set the flag. -/
structure Shut (g : Cfg) (h : List (Ev groupSig Inp)) : Prop where
  tried : ∃ i won, ⟨.casClosed, i, won⟩ ∈ h
  main : (∃ i, ⟨.casClosed, i, true⟩ ∈ h) → ∃ i, ⟨.mainClose, i, ()⟩ ∈ h
  near : (∃ i, ⟨.casClosed, i, true⟩ ∈ h) → g.nearCache = true → ∃ i, ⟨.nearClose, i, ()⟩ ∈ h
  registered : (∃ i, ⟨.casClosed, i, true⟩ ∈ h) → ∃ i, ⟨.unregister, i, ()⟩ ∈ h

theorem close_shuts : (Node.prog g .close).Follows (fun _ _ => True) (fun h _ => Shut g h) [] := by
  refine Follows.op_bind trivial fun i won => ?_
  cases won with
  | false =>
    have hlost : ¬ ∃ j : Inp, (⟨.casClosed, j, true⟩ : Ev groupSig Inp) ∈
        [⟨.casClosed, i, false⟩] := by
      simp
    exact ⟨⟨i, false, by simp⟩, fun hw => absurd hw hlost, fun hw => absurd hw hlost,
      fun hw => absurd hw hlost⟩
  | true =>
    refine Follows.op_bind trivial fun j _ => ?_
    dsimp only
    cases hnear : g.nearCache with
    | true =>
      refine Follows.op_bind trivial fun k _ => Follows.op_bind trivial fun l _ => ?_
      exact ⟨⟨i, true, by simp⟩, fun _ => ⟨j, by simp⟩, fun _ _ => ⟨k, by simp⟩,
        fun _ => ⟨l, by simp⟩⟩
    | false =>
      refine Follows.op_bind trivial fun l _ => ?_
      exact ⟨⟨i, true, by simp⟩, fun _ => ⟨j, by simp⟩, fun _ hn => by simp [hnear] at hn,
        fun _ => ⟨l, by simp⟩⟩

theorem prog_shuts (call : Call) : (Node.prog g call).Follows (fun _ _ => True)
    (fun h _ => call = .close → Shut g h) [] := by
  by_cases hcall : call = .close
  · subst hcall
    exact close_shuts.mono (fun _ _ _ hJ => hJ) fun _ _ _ hF _ => hF
  · exact Follows.of_end fun _ _ _ hc => absurd hc hcall

def closeProtocol (g : Cfg) : Protocol (node g) where
  allows := fun _ _ _ => True
  ends := fun call h _ => call = .close → Shut g h
  follows := prog_shuts

/-! ## What later calls see -/

/-- A lookup that finds the group, or something in it. -/
def Finds (g : Cfg) : Ev groupSig Inp → Prop
  | ⟨.getGroup _, _, found⟩ => found = true
  | ⟨.mainGet _, _, view⟩ => view ≠ none
  | ⟨.mainDelete _, _, removed⟩ | ⟨.deleteSection _ _, _, removed⟩ => removed = true
  | ⟨.loadBegin _ _, _, r⟩ => ∃ view, r = .hit view
  | ⟨.loadCommit _ _ _ _, _, r⟩ => ∃ view, r = .existing view
  | ⟨.nearGet _, _, view⟩ => g.nearCache = true ∧ view ≠ none
  | ⟨.nearDelete _, _, removed⟩ => g.nearCache = true ∧ removed = true
  | _ => False

theorem Cache.get_of_closed {c : Cache} (h : c.closed = true) (now : Time) (key : GoString) :
    c.get now key = (none, c) := by
  simp [Cache.get, h]

theorem Cache.delete_of_closed {c : Cache} (h : c.closed = true) (key : GoString) :
    c.delete key = (false, c) := by
  simp [Cache.delete, h]

theorem Cache.view_of_closed {c : Cache} (h : c.closed = true) (k : GoString) :
    c.view k = none := by
  simp [Cache.view, h]

theorem not_finds_of_closed (hmain : σ.main.closed = true)
    (hnear : g.nearCache = true → σ.near.closed = true) (hreg : σ.registered = false)
    (hx : Node.exec g o i σ = some (a, σ')) : ¬ Finds g ⟨o, i, a⟩ := by
  obtain ⟨-, σ₁, hact, -⟩ := exec_eq_some.1 hx
  intro hf
  cases o with
  | getGroup name =>
    cases hact
    simp [Finds, hreg] at hf
  | mainGet key =>
    cases hact
    simp [Finds, Cache.get_of_closed hmain] at hf
  | mainDelete key =>
    cases hact
    simp [Finds, Cache.delete_of_closed hmain] at hf
  | deleteSection s key =>
    obtain rfl : (σ.main.delete key).1 = a := congrArg Prod.fst (Option.some.inj hact)
    simp [Finds, Cache.delete_of_closed hmain] at hf
  | loadBegin s key =>
    obtain rfl : (Group.loadBegin s key i.now σ).1 = a := congrArg Prod.fst (Option.some.inj hact)
    simp [Finds, Group.loadBegin, Cache.get_of_closed hmain] at hf
  | loadCommit s key n b =>
    obtain rfl : (Group.loadCommit g s key n b i σ).1 = a :=
      congrArg Prod.fst (Option.some.inj hact)
    simp only [Finds, Group.loadCommit, Cache.get_of_closed hmain] at hf
    split at hf <;> simp at hf
  | nearGet key =>
    cases hact
    obtain ⟨hn, hf⟩ := hf
    simp [Cache.get_of_closed (hnear hn)] at hf
  | nearDelete key =>
    cases hact
    obtain ⟨hn, hf⟩ := hf
    simp [Cache.delete_of_closed (hnear hn)] at hf
  | _ => exact hf

section Runs

variable {G : Guard (node g)} {c : Config (node g)} {A B : Trace g} {t : Nat}

theorem Did.of_append (h : Did B o) : Did (A ++ B) o := by
  obtain ⟨u, i, a, hm⟩ := h
  exact ⟨u, i, a, List.mem_append_right A hm⟩

/-- The state an action of a run was done in. -/
theorem Run.exec_of_act (h : Run G σ₀ c (A ++ .act t ⟨o, i, a⟩ :: B)) :
    ∃ (c₁ : Config (node g)) (σ' : State), Run G σ₀ c₁ B ∧
      Node.exec g o i c₁.state = some (a, σ') := by
  obtain ⟨c₁, cmd, c₂, hrun, hstep, -⟩ := h.split
  obtain ⟨call, -, -, hx⟩ := hrun.of_act (protocol g) hstep
  exact ⟨c₁, c₂.state, hrun, hx⟩

theorem Run.close_of_won (h : Run G σ₀ c tr) (hw : Won tr t) : .spawn t .close ∈ tr := by
  obtain ⟨i, hm⟩ := hw
  obtain ⟨A, B, rfl⟩ := List.append_of_mem hm
  obtain ⟨c₁, cmd, c₂, hrun, hstep, -⟩ := h.split
  obtain ⟨call, hcall, hallow, -⟩ := hrun.of_act (protocol g) hstep
  obtain rfl : call = .close := hallow
  exact List.mem_append_right A (List.mem_cons_of_mem _ (mem_of_callOf hcall))

/-- What a goroutine sees of the flag that begins after it was set. -/
theorem Run.shown (hopen : σ₀.closed = false) {call : Call}
    (h : Run G σ₀ c (A ++ .spawn t call :: B)) (hdid : Did B .casClosed) :
    ∀ e ∈ hist (A ++ .spawn t call :: B) t, Shown e := by
  intro e he
  rw [hist_append, hist_spawn, h.before_spawn.1, List.append_nil, mem_hist] at he
  obtain ⟨A₁, A₂, rfl⟩ := List.append_of_mem he
  rw [List.append_assoc, List.cons_append] at h
  obtain ⟨o, i, a⟩ := e
  obtain ⟨c₁, σ', hrun, hx⟩ := Run.exec_of_act h
  have hclosed : c₁.state.closed = true := (Run.marks hopen hrun).closed.1 hdid.cons.of_append
  obtain ⟨-, σ₁, hact, -⟩ := exec_eq_some.1 hx
  cases o with
  | loadClosed =>
    cases hact
    exact hclosed
  | casClosed =>
    cases hact
    simp [Shown, hclosed]
  | _ => trivial

theorem Run.refused (hopen : σ₀.closed = false) {call : Call}
    (h : Run G σ₀ c (A ++ .spawn t call :: B)) (hdid : Did B .casClosed)
    (hcall : call.invalidates = false) :
    (∀ e ∈ hist (A ++ .spawn t call :: B) t, e.op.inspects = true) ∧
      ∀ r, .ret t r ∈ A ++ .spawn t call :: B → TurnedAway call r := by
  have hspawn : .spawn t call ∈ A ++ .spawn t call :: B :=
    List.mem_append_right A List.mem_cons_self
  have hshown := Run.shown hopen h hdid
  constructor
  · intro e he
    obtain ⟨X, Y, hXY⟩ := List.append_of_mem he
    obtain ⟨call', hcall', hallow⟩ := h.allowed (refusedProtocol g) t e Y ⟨X, hXY.symm⟩
    obtain rfl := Option.some.inj ((h.callOf_spawn hspawn).symm.trans hcall')
    refine hallow hcall fun e' he' => hshown e' ?_
    rw [hXY]
    exact List.mem_append_right X (List.mem_cons_of_mem _ he')
  · intro r hret
    exact (prog_refuses call).of_ends (h.ends hspawn hret) hcall hshown

/-- When the `Close` that set the flag has returned, everything is shut. -/
theorem Run.shut (hopen : σ₀.closed = false) {r : Except Panic Res}
    (h : Run G σ₀ c (A ++ .ret t r :: B)) (hw : Won B t) : c.state.main.closed = true ∧
      (g.nearCache = true → c.state.near.closed = true) ∧ c.state.registered = false := by
  obtain ⟨c₁, cmd, c₂, hrun, hstep, -⟩ := h.split
  obtain ⟨call, hcall, hend⟩ := hrun.of_ret (closeProtocol g) hstep
  have hspawn := hrun.callOf_spawn (Run.close_of_won hrun hw)
  have hshut : Shut g (hist B t) := hend (Option.some.inj (hcall.symm.trans hspawn))
  have hcas : ∃ i, ⟨.casClosed, i, true⟩ ∈ hist B t := by
    obtain ⟨i, hm⟩ := hw
    exact ⟨i, mem_hist.2 hm⟩
  have hm := Run.marks hopen h
  obtain ⟨j, hj⟩ := hshut.main hcas
  obtain ⟨l, hl⟩ := hshut.registered hcas
  refine ⟨hm.main ?_, fun hn => ?_, hm.registered ?_⟩
  · exact Did.of_append (Did.cons ⟨t, j, (), mem_hist.1 hj⟩)
  · obtain ⟨k, hk⟩ := hshut.near hcas hn
    exact hm.near (Did.of_append (Did.cons ⟨t, k, (), mem_hist.1 hk⟩))
  · exact Did.of_append (Did.cons ⟨t, l, (), mem_hist.1 hl⟩)

end Runs

/-- What is settled once a group is closed. -/
structure ClosedForGood (g : Cfg) (tr : Trace g) (σ : State) : Prop where
  /-- One `Close` sets the flag. -/
  once : ∀ t u, Won tr t → Won tr u → t = u
  /-- The flag is set when any `Close` returns. -/
  set : ∀ t r, .spawn t .close ∈ tr → .ret t r ∈ tr → ∃ u, Won tr u
  /-- A call that begins after the flag was set is turned away, and does nothing but look. -/
  refused : ∀ A B t call, tr = A ++ .spawn t call :: B → Did B .casClosed →
    call.invalidates = false →
      (∀ e ∈ hist tr t, e.op.inspects = true) ∧ ∀ r, .ret t r ∈ tr → TurnedAway call r
  /-- After the `Close` that set it has returned, nobody finds anything, and nothing is kept. -/
  gone : ∀ A B t r, tr = A ++ .ret t r :: B → Won B t → (∀ u e, .act u e ∈ A → ¬ Finds g e) ∧
    ∀ k, σ.main.view k = none ∧ (g.nearCache = true → σ.near.view k = none)

end Locache
