import Locache.Group.Local

/-!
# Every program keeps to the protocol

One specification per function of the group, each proved from those of the functions it calls. Most
functions on the requester's side do nothing that `loc` records; for them it is enough that they
perform steady actions only (`Follows.steady`).
-/

namespace Locache

open Conc Prog

variable {g : Cfg} {call : Call} {h : History} {key : GoString}

/-- An action the call may perform anywhere and that `loc` does not record. -/
structure Steady (g : Cfg) (call : Call) (o : Op) : Prop where
  allowed : ∀ h, Allowed g call h o
  next : ∀ (l : Loc) (a : o.Ans), l.next o a = l

theorem Follows.steady {α : Type} {p : GoProg α} {Q : History → Except Panic α → Prop}
    (hp : p.Follows (fun _ o => Steady g call o) Q h) :
    p.Follows (Allowed g call) (fun h' r => loc h' = loc h ∧ Q h' r) h := by
  induction p generalizing h with
  | ret a => exact ⟨rfl, hp⟩
  | raise e => exact ⟨rfl, hp⟩
  | act o k ih =>
    refine ⟨hp.1.allowed h, fun i a => ?_⟩
    have := ih a (hp.2 i a)
    simpa only [loc_cons, hp.1.next] using this

/-- A steady part and then the rest. -/
theorem Follows.steady_bind {α β : Type} {p : GoProg α} {f : α → GoProg β}
    {Q : History → Except Panic α → Prop} {F : History → Except Panic β → Prop}
    (hp : p.Follows (fun _ o => Steady g call o) Q h)
    (hok : ∀ h' a, h <:+ h' → loc h' = loc h → Q h' (.ok a) → (f a).Follows (Allowed g call) F h')
    (herr : ∀ h' e, h <:+ h' → loc h' = loc h → Q h' (.error e) → F h' (.error e)) :
    (p.bind f).Follows (Allowed g call) F h :=
  (Follows.steady hp).bind (fun h' a hs hQ => hok h' a hs hQ.1 hQ.2)
    fun h' e hs hQ => herr h' e hs hQ.1 hQ.2

/-! ## The parts the loops of `Get`, `Set` and `Delete` share -/

section Keeps

variable {J : History → Op → Prop}

theorem checkOwner_keeps {p : Pick} {left : Nat} {finish retry : GoProg (Option Err)}
    (hJ : ∀ h, J h (.pickOwner .verify key)) (hf : finish.Keeps J) (hr : retry.Keeps J) :
    (Group.checkOwner key p left finish retry).Keeps J := by
  refine Keeps.op_bind hJ fun q => ?_
  split
  · exact hf
  split
  · exact .ret _
  · exact hr

/-- The answer to a failed call of the owner: an error, or a wait for another membership and what
comes after it. -/
theorem retry_keeps {α : Type} {refused : Bool} {left epoch : Nat} {exhausted other : α}
    {next : Option Err → GoProg α} (hJ : ∀ h, J h (.waitTopology epoch))
    (hnext : ∀ waited, (next waited).Keeps J) :
    (if refused then if left = 0 then pure exhausted else perform (.waitTopology epoch) >>= next
      else pure other : GoProg α).Keeps J := by
  split
  · split
    · exact .ret _
    · exact Keeps.op_bind hJ hnext
  · exact .ret _

end Keeps

/-! ## Remote calls and near copies -/

section Steady

theorem Client.call_steady {c : Option Client} {what : GoString} {req : Req}
    (hs : call.Sends g req) :
    (Client.call c what req).Follows (fun _ o => Steady g call o) (fun h' r =>
      ∀ resp, r = .ok (.ok resp) → ∃ c', c = some c' ∧ ∃ id i j,
        h' = ⟨.rpcEnd id, j, .ok resp⟩ :: ⟨.rpcStart c'.addr req, i, id⟩ :: h) h := by
  cases c with
  | none => exact fun resp hr => by cases hr
  | some c =>
    refine Follows.op_bind ⟨fun _ => hs, fun _ _ => rfl⟩ fun i id => ?_
    refine Follows.op_bind ⟨fun _ => trivial, fun _ _ => rfl⟩ fun j reply => ?_
    cases reply with
    | ok resp =>
      rintro _ ⟨⟩
      exact ⟨c, rfl, id, i, j, rfl⟩
    | error err => exact fun resp hr => by cases hr

theorem Dropped.mono {h' : History} (hd : Dropped key h) (hs : h <:+ h') : Dropped key h' := by
  obtain ⟨e, i, j, a, hsub⟩ := hd
  exact ⟨e, i, j, a, hsub.trans hs.sublist⟩

theorem invalidateNearKey_steady (key : GoString) :
    (Group.invalidateNearKey g key).Follows (fun _ o => Steady g call o) (fun h' r =>
      r = .ok () ∧ (g.peers = true → g.nearCache = true → Dropped key h')) h := by
  unfold Group.invalidateNearKey
  split
  · next hn => simp_all
  · split
    · refine Follows.op_bind ⟨fun _ => trivial, fun _ _ => rfl⟩ fun i e => ?_
      refine Follows.op_bind ⟨fun _ => trivial, fun _ _ => rfl⟩ fun j a => ?_
      exact ⟨rfl, fun _ _ => ⟨e, i, j, a, ((List.nil_sublist _).cons_cons _).cons_cons _⟩⟩
    · next hp => exact ⟨rfl, fun h _ => absurd h hp⟩

theorem invalidateLocalCopies_steady (hs : call.Starts key) :
    (Group.invalidateLocalCopies g key).Follows (fun _ o => Steady g call o) (fun h' r =>
      r = .ok () ∧ (g.peers = true → g.nearCache = true → Dropped key h')) h := by
  unfold Group.invalidateLocalCopies
  split
  · refine Follows.op_bind ⟨fun _ => trivial, fun _ _ => rfl⟩ fun i p => ?_
    split
    · refine Follows.op_bind ⟨fun _ => hs, fun _ _ => rfl⟩ fun j a => ?_
      exact invalidateNearKey_steady key
    · exact invalidateNearKey_steady key
  · exact invalidateNearKey_steady key

theorem startInvalidates_steady (hs : call.Sends g (.invalidate g.name key)) (cs : List Client) :
    (Client.startInvalidates g.name key cs).Follows (fun _ o => Steady g call o) (fun h' r =>
      ∃ calls, r = .ok calls ∧ calls.map Prod.fst = cs ∧ ∀ x ∈ calls, ∃ i,
        (⟨.rpcStart x.1.addr (.invalidate g.name key), i, x.2⟩ : Ev groupSig Inp) ∈ h') h := by
  induction cs generalizing h with
  | nil => exact ⟨[], rfl, rfl, by simp⟩
  | cons c cs ih =>
    refine Follows.op_bind ⟨fun _ => hs, fun _ _ => rfl⟩ fun i id => ?_
    refine Follows.bind ih (fun h' calls hsuf hQ => ?_) fun h' e _ hQ => ?_
    · obtain ⟨_, ⟨⟩, hmap, hmem⟩ := hQ
      refine ⟨(c, id) :: calls, rfl, by simp [hmap], fun x hx => ?_⟩
      rcases List.mem_cons.1 hx with rfl | hx
      · exact ⟨i, hsuf.subset (List.mem_cons_self ..)⟩
      · exact hmem x hx
    · obtain ⟨_, hr, -⟩ := hQ
      cases hr

theorem waitInvalidates_steady (calls : List (Client × Nat))
    (hc : ∀ x ∈ calls, ∃ i,
      (⟨.rpcStart x.1.addr (.invalidate g.name key), i, x.2⟩ : Ev groupSig Inp) ∈ h) :
    (Client.waitInvalidates calls).Follows (fun _ o => Steady g call o) (fun h' _ =>
      ∀ x ∈ calls, ∃ i₁ i₂ reply, [(⟨.rpcEnd x.2, i₂, reply⟩ : Ev groupSig Inp),
        ⟨.rpcStart x.1.addr (.invalidate g.name key), i₁, x.2⟩].Sublist h') h := by
  induction calls generalizing h with
  | nil => exact fun x hx => by cases hx
  | cons x calls ih =>
    refine Follows.op_bind ⟨fun _ => trivial, fun _ _ => rfl⟩ fun j reply => ?_
    obtain ⟨i, hi⟩ := hc x (List.mem_cons_self ..)
    have hrest : ∀ y ∈ calls, ∃ i, (⟨.rpcStart y.1.addr (.invalidate g.name key), i, y.2⟩ :
        Ev groupSig Inp) ∈ (⟨.rpcEnd x.2, j, reply⟩ : Ev groupSig Inp) :: h := fun y hy => by
      obtain ⟨i, hi⟩ := hc y (List.mem_cons_of_mem _ hy)
      exact ⟨i, List.mem_cons_of_mem _ hi⟩
    have hfin : ∀ h', ((⟨.rpcEnd x.2, j, reply⟩ : Ev groupSig Inp) :: h) <:+ h' →
        (∀ y ∈ calls, ∃ i₁ i₂ reply, [(⟨.rpcEnd y.2, i₂, reply⟩ : Ev groupSig Inp),
          ⟨.rpcStart y.1.addr (.invalidate g.name key), i₁, y.2⟩].Sublist h') →
        ∀ y ∈ x :: calls, ∃ i₁ i₂ reply, [(⟨.rpcEnd y.2, i₂, reply⟩ : Ev groupSig Inp),
          ⟨.rpcStart y.1.addr (.invalidate g.name key), i₁, y.2⟩].Sublist h' := by
      intro h' hsuf hQ y hy
      rcases List.mem_cons.1 hy with rfl | hy
      · exact ⟨i, j, reply, ((List.singleton_sublist.2 hi).cons_cons _).trans hsuf.sublist⟩
      · exact hQ y hy
    refine Follows.bind (ih hrest) (fun h' errs hsuf hQ => ?_) fun h' e hsuf hQ => hfin h' hsuf hQ
    cases reply with
    | ok resp => exact hfin h' hsuf hQ
    | error err => exact hfin h' hsuf hQ

theorem Asked.mono {owner : GoString} {h' : History} (ha : Asked g key owner h) (hs : h <:+ h') :
    Asked g key owner h' := by
  obtain ⟨j, ts, hm, hc⟩ := ha
  refine ⟨j, ts, hs.subset hm, fun c hcm => ?_⟩
  obtain ⟨id, i₁, i₂, reply, hsub⟩ := hc c hcm
  exact ⟨id, i₁, i₂, reply, hsub.trans hs.sublist⟩

theorem invalidatePeerCopies_steady (owner : GoString)
    (hs : call.Sends g (.invalidate g.name key)) :
    (Group.invalidatePeerCopies g key owner).Follows (fun _ o => Steady g call o) (fun h' _ =>
      g.peers = true → Asked g key owner h') h := by
  unfold Group.invalidatePeerCopies
  split
  · next hp => simp_all
  · refine Follows.bind (Q := fun h' _ => Asked g key owner h') ?_ (fun h' errs _ hQ => ?_)
      fun h' e _ hQ _ => hQ
    · refine Follows.op_bind ⟨fun _ => trivial, fun _ _ => rfl⟩ fun j ts => ?_
      refine Follows.bind (startInvalidates_steady hs ts) (fun h₁ calls hsuf hQ => ?_)
        fun h' e _ hQ => ?_
      · obtain ⟨_, ⟨⟩, hmap, hmem⟩ := hQ
        refine (waitInvalidates_steady calls hmem).mono (fun _ _ _ hJ => hJ)
          fun h₂ r hsuf₂ hQ => ⟨j, ts, ?_, fun c hc => ?_⟩
        · exact hsuf₂.subset (hsuf.subset (List.mem_cons_self ..))
        · rw [← hmap] at hc
          obtain ⟨x, hx, rfl⟩ := List.mem_map.1 hc
          obtain ⟨i₁, i₂, reply, hsub⟩ := hQ x hx
          exact ⟨x.2, i₁, i₂, reply, hsub⟩
      · obtain ⟨_, hr, -⟩ := hQ
        cases hr
    · split
      · refine Follows.op_bind ⟨fun _ => trivial, fun _ _ => rfl⟩ fun i _ _ => ?_
        exact hQ.mono (List.suffix_cons _ _)
      · exact fun _ => hQ

end Steady

/-! ## The owner's side -/

section Owner

variable {ro : Option Pick} {eo : Option Nat} {ou : Option Out}

theorem Checked.mono {h' : History} (hc : Checked g key h) (hs : h <:+ h') : Checked g key h' := by
  intro hp
  obtain ⟨i, p, hm, hself⟩ := hc hp
  exact ⟨i, p, hs.subset hm, hself⟩

theorem prepareLocalOwner_follows (key : GoString)
    (hl : loc h = ⟨ro, eo, none, .outside, ou⟩) :
    (Group.prepareLocalOwner g key).Follows (Allowed g call) (fun h' r =>
      ∃ eo' ou', loc h' = ⟨ro, eo', none, .outside, ou'⟩ ∧
        ((∃ e, r = .ok (.ok e) ∧ (g.peers = true → eo' = some e) ∧ Checked g key h') ∨
          ∃ err, r = .ok (.error err) ∧ g.peers = true)) h := by
  unfold Group.prepareLocalOwner
  split
  · next hp =>
    have hp : g.peers ≠ true := by simpa using hp
    exact ⟨eo, ou, hl, Or.inl ⟨0, rfl, fun h => absurd h hp, fun h => absurd h hp⟩⟩
  · next hp =>
    have hp : g.peers = true := by simpa using hp
    have hidle : (loc h).Idle := by rw [hl]; exact ⟨rfl, rfl⟩
    refine Follows.op_bind hidle fun i p => ?_
    have hl₁ : loc (⟨.pickOwner .prepare key, i, p⟩ :: h) =
        ⟨ro, some p.epoch, none, .outside, none⟩ := by rw [loc_cons, hl]; rfl
    split
    · exact ⟨_, _, hl₁, Or.inr ⟨_, rfl, hp⟩⟩
    · split
      · exact ⟨_, _, hl₁, Or.inr ⟨_, rfl, hp⟩⟩
      · next hself =>
        refine Follows.op_bind (by rw [Allowed, hl₁]) fun j _ => ?_
        refine ⟨_, _, hl₁, Or.inl ⟨_, rfl, fun _ => rfl, fun _ => ⟨i, p, ?_, ?_⟩⟩⟩
        · exact List.mem_cons_of_mem _ (List.mem_cons_self ..)
        · simpa using hself

variable {e s c : Nat}

theorem stillOwner_follows {n : Nat} {b : Bytes} (he : g.peers = true → eo = some e)
    (hl : loc h = ⟨ro, eo, some (key, s), .loaded c n b, ou⟩) :
    (Group.stillOwner g key e).Follows (Allowed g call) (fun h' r =>
      (r = .ok true ∧ loc h' = ⟨ro, eo, some (key, s), .loaded c n b, ou⟩) ∨
        (r = .ok false ∧ loc h' = ⟨ro, eo, some (key, s),
          .decided c (.ok (.error (.sentinel .topologyChanged))), ou⟩)) h := by
  unfold Group.stillOwner
  split
  · exact Or.inl ⟨rfl, hl⟩
  · next hp =>
    refine Follows.op_bind (by rw [Allowed, hl]; exact ⟨s, rfl⟩) fun i p => ?_
    obtain rfl : eo = some e := he (by simpa using hp)
    have hl₁ : loc (⟨.pickOwner .load key, i, p⟩ :: h) = ⟨ro, some e, some (key, s),
        if p.ok && p.self && some p.epoch = some e then .loaded c n b
        else .decided c (.ok (.error (.sentinel .topologyChanged))), ou⟩ := by
      rw [loc_cons, hl]; rfl
    change _ ∨ _
    rw [hl₁]
    cases hb : (p.ok && p.self && p.epoch = e) with
    | true => exact Or.inl ⟨rfl, by simp only [Option.some.injEq, hb, ↓reduceIte]⟩
    | false =>
      exact Or.inr ⟨rfl, by simp only [Option.some.injEq, hb, Bool.false_eq_true, ↓reduceIte]⟩

theorem load_follows (he : g.peers = true → eo = some e) (hc : Checked g key h)
    (hl : loc h = ⟨ro, eo, some (key, s), .leading c, ou⟩) :
    (Group.load g key e s).Follows (Allowed g call) (fun h' r =>
      loc h' = ⟨ro, eo, some (key, s), .decided c r, ou⟩) h := by
  refine Follows.op_bind (by rw [Allowed, hl]; exact ⟨rfl, c, rfl⟩) fun i a => ?_
  cases a with
  | hit v => change loc _ = _; rw [loc_cons, hl]; rfl
  | generation n =>
    refine Follows.op_bind trivial fun i₁ _ => ?_
    have hl₁ : loc (⟨.count .sourceLoads, i₁, ()⟩ :: ⟨.loadBegin s key, i, .generation n⟩ :: h) =
        ⟨ro, eo, some (key, s), .begun c n, ou⟩ := by rw [loc_cons, loc_cons, hl]; rfl
    have hc₁ : Checked g key (⟨.count .sourceLoads, i₁, ()⟩ ::
        ⟨.loadBegin s key, i, .generation n⟩ :: h) :=
      hc.mono ((List.suffix_cons _ _).trans (List.suffix_cons _ _))
    refine Follows.op_bind (by rw [Allowed, hl₁]; exact ⟨hc₁, s, rfl, c, n, rfl⟩) fun i₂ id => ?_
    refine Follows.op_bind (by rw [Allowed, loc_cons, hl₁]; exact ⟨key, s, rfl, c, n, rfl⟩)
      fun i₃ out => ?_
    match out with
    | .error p => change loc _ = _; rw [loc_cons, loc_cons, hl₁]; rfl
    | .ok (.error err) =>
      refine Follows.op_bind trivial fun i₄ _ => ?_
      change loc _ = _; rw [loc_cons, loc_cons, loc_cons, hl₁]; rfl
    | .ok (.ok b) =>
      have hl₂ : loc (⟨.getterEnd id, i₃, .ok (.ok b)⟩ :: ⟨.getterStart key, i₂, id⟩ ::
          ⟨.count .sourceLoads, i₁, ()⟩ :: ⟨.loadBegin s key, i, .generation n⟩ :: h) =
          ⟨ro, eo, some (key, s), .loaded c n b, ou⟩ := by rw [loc_cons, loc_cons, hl₁]; rfl
      change (Prog.bind (Group.stillOwner g key e) _).Follows _ _ _
      refine Follows.bind (stillOwner_follows he hl₂) (fun h' ok _ hQ => ?_) fun h' err _ hQ => ?_
      · rcases hQ with ⟨⟨⟩, hl₂⟩ | ⟨⟨⟩, hl₂⟩
        · refine Follows.op_bind (by rw [Allowed, hl₂]; exact ⟨rfl, c, rfl⟩) fun i₄ a => ?_
          cases a <;> (change loc _ = _; rw [loc_cons, hl₂]; rfl)
        · exact hl₂
      · rcases hQ with ⟨hr, -⟩ | ⟨hr, -⟩ <;> cases hr

theorem doFlight_follows (hr : call.Reads key) (he : g.peers = true → eo = some e)
    (hc : Checked g key h) (hl : loc h = ⟨ro, eo, some (key, s), .outside, ou⟩) :
    (doFlight key (Group.load g key e s)).Follows (Allowed g call) (fun h' r =>
      ∃ c, loc h' = ⟨ro, eo, some (key, s), .outside, some (.joined key c r)⟩ ∨
        loc h' = ⟨ro, eo, some (key, s), .outside, some (.led key c r)⟩) h := by
  refine Follows.op_bind (by rw [Allowed, hl]; exact ⟨hr, s, rfl, rfl⟩) fun i a => ?_
  cases a with
  | join c =>
    have hl₁ : loc (⟨.doEnter key, i, .join c⟩ :: h) =
        ⟨ro, eo, some (key, s), .joined c, ou⟩ := by rw [loc_cons, hl]; rfl
    refine Follows.op_bind (by rw [Allowed, hl₁]; exact ⟨key, s, rfl, rfl⟩) fun j r => ?_
    rw [follows_rethrow]
    exact ⟨c, Or.inl (by rw [loc_cons, hl₁]; rfl)⟩
  | lead c =>
    have hl₁ : loc (⟨.doEnter key, i, .lead c⟩ :: h) =
        ⟨ro, eo, some (key, s), .leading c, ou⟩ := by rw [loc_cons, hl]; rfl
    have hc₁ := hc.mono (List.suffix_cons ⟨.doEnter key, i, .lead c⟩ h)
    refine Follows.recover_bind (load_follows he hc₁ hl₁) fun h₁ r _ hl₂ => ?_
    refine Follows.op_bind (by rw [Allowed, hl₂]; exact ⟨s, rfl, r, rfl⟩) fun j _ => ?_
    refine Follows.op_bind (by rw [Allowed, loc_cons, hl₂]; exact ⟨key, s, rfl, rfl⟩) fun k _ => ?_
    rw [follows_rethrow]
    exact ⟨c, Or.inr (by rw [loc_cons, loc_cons, hl₂]; rfl)⟩

theorem getHeld_follows (hr : call.Reads key) (he : g.peers = true → eo = some e)
    (hc : Checked g key h) (hl : loc h = ⟨ro, eo, some (key, s), .outside, ou⟩) :
    (Group.getHeld g key e s).Follows (Allowed g call) (fun h' r =>
      ∃ ou', loc h' = ⟨ro, eo, some (key, s), .outside, ou'⟩ ∧
        ∀ v, r = .ok (.ok v) → LocalRead ou' key v) h := by
  refine Follows.op_bind (by rw [Allowed, hl]; exact ⟨hr, s, rfl, rfl⟩) fun i a => ?_
  cases a with
  | some v =>
    refine Follows.op_bind trivial fun j _ => ?_
    refine ⟨some (.cached key v), by rw [loc_cons, loc_cons, hl]; rfl, ?_⟩
    rintro _ ⟨⟩
    exact Or.inl rfl
  | none =>
    refine Follows.op_bind trivial fun j _ => ?_
    have hl₁ : loc (⟨.count .localMisses, j, ()⟩ :: ⟨.mainGet key, i, none⟩ :: h) =
        ⟨ro, eo, some (key, s), .outside, ou⟩ := by rw [loc_cons, loc_cons, hl]; rfl
    split
    · exact ⟨ou, hl₁, fun v hv => by cases hv⟩
    · have hc₁ : Checked g key (⟨.count .localMisses, j, ()⟩ :: ⟨.mainGet key, i, none⟩ :: h) :=
        hc.mono ((List.suffix_cons _ _).trans (List.suffix_cons _ _))
      refine Follows.bind (doFlight_follows hr he hc₁ hl₁) (fun h' r _ hQ => ?_) fun h' p _ hQ => ?_
      · obtain ⟨c, hQ⟩ := hQ
        cases r with
        | ok v =>
          rcases hQ with hQ | hQ
          · refine ⟨_, hQ, ?_⟩
            rintro _ ⟨⟩
            exact Or.inr ⟨c, Or.inl rfl⟩
          · refine ⟨_, hQ, ?_⟩
            rintro _ ⟨⟩
            exact Or.inr ⟨c, Or.inr rfl⟩
        | error err =>
          rcases hQ with hQ | hQ <;> exact ⟨_, hQ, fun v hv => by cases hv⟩
      · obtain ⟨c, hQ | hQ⟩ := hQ <;> exact ⟨_, hQ, fun v hv => by cases hv⟩

theorem getLocal_follows (hr : call.Reads key) (hl : loc h = ⟨ro, eo, none, .outside, ou⟩) :
    (Group.getLocal g key).Follows (Allowed g call) (fun h' r =>
      ∃ eo' ou', loc h' = ⟨ro, eo', none, .outside, ou'⟩ ∧
        ∀ v, r = .ok (.ok v) → LocalRead ou' key v) h := by
  refine Follows.op_bind trivial fun i closed => ?_
  cases closed with
  | true => exact ⟨eo, ou, by rw [loc_cons, hl]; rfl, fun v hv => by cases hv⟩
  | false =>
    have hl₀ : loc (⟨.loadClosed, i, false⟩ :: h) = ⟨ro, eo, none, .outside, ou⟩ := by
      rw [loc_cons, hl]; rfl
    change (Prog.bind (Group.prepareLocalOwner g key) _).Follows _ _ _
    refine Follows.bind (prepareLocalOwner_follows key hl₀) (fun h₁ r _ hQ => ?_)
      fun h₁ p _ hQ => ?_
    · obtain ⟨eo', ou₁, hl₁, ⟨e, ⟨⟩, he, hc⟩ | ⟨err, ⟨⟩, -⟩⟩ := hQ
      · refine Follows.op_bind (by rw [Allowed, hl₁]; exact ⟨rfl, rfl⟩) fun j s => ?_
        have hl₂ : loc (⟨.acquireKeyState key, j, s⟩ :: h₁) =
            ⟨ro, eo', some (key, s), .outside, none⟩ := by rw [loc_cons, hl₁]; rfl
        have hc₁ := hc.mono (List.suffix_cons ⟨.acquireKeyState key, j, s⟩ h₁)
        refine Follows.recover_bind (getHeld_follows hr he hc₁ hl₂) fun h₂ r _ hQ => ?_
        obtain ⟨ou', hl₃, hv⟩ := hQ
        refine Follows.op_bind (by rw [Allowed, hl₃]; exact ⟨rfl, rfl⟩) fun k _ => ?_
        rw [follows_rethrow]
        exact ⟨eo', ou', by rw [loc_cons, hl₃]; rfl, hv⟩
      · exact ⟨eo', ou₁, hl₁, fun v hv => by cases hv⟩
    · obtain ⟨_, _, _, ⟨_, hr, -⟩ | ⟨_, hr, -⟩⟩ := hQ <;> cases hr

/-- At rest, with the route as it was. -/
def Rests (ro : Option Pick) (h : History) : Prop := ∃ eo ou, loc h = ⟨ro, eo, none, .outside, ou⟩

theorem deleteLocal_follows (hd : call.Deletes key) (hl : Rests ro h) :
    (Group.deleteLocal g key).Follows (Allowed g call) (fun h' r =>
      Rests ro h' ∧ (∃ b, r = .ok b) ∧
        (g.peers = true → g.nearCache = true → Dropped key h')) h := by
  obtain ⟨eo, ou, hl⟩ := hl
  refine Follows.op_bind (by rw [Allowed, hl]; exact ⟨rfl, rfl⟩) fun i s => ?_
  have hl₁ : loc (⟨.acquireKeyState key, i, s⟩ :: h) =
      ⟨ro, eo, some (key, s), .outside, none⟩ := by rw [loc_cons, hl]; rfl
  refine Follows.op_bind (by rw [Allowed, hl₁]; exact ⟨hd, rfl, rfl⟩) fun j b => ?_
  refine Follows.steady_bind (invalidateNearKey_steady key) (fun h₁ _ _ hl₂ hQ => ?_)
    fun h₁ p _ hl₂ hQ => ?_
  · rw [loc_cons, hl₁] at hl₂
    refine Follows.op_bind (by rw [Allowed, hl₂]; exact ⟨rfl, rfl⟩) fun k _ => ?_
    refine ⟨⟨eo, none, by rw [loc_cons, hl₂]; rfl⟩, ⟨b, rfl⟩, fun hp hn => ?_⟩
    exact (hQ.2 hp hn).mono (List.suffix_cons _ _)
  · cases hQ.1

theorem setLocal_follows {value : Bytes} (hw : call.Writes key value) (hl : Rests ro h) :
    (Group.setLocal g key value).Follows (Allowed g call) (fun h' r =>
      Rests ro h' ∧ ∃ x, r = .ok x ∧ (x = none → ∃ s i,
        (⟨.setSection s key value, i, ()⟩ : Ev groupSig Inp) ∈ h')) h := by
  obtain ⟨eo, ou, hl⟩ := hl
  refine Follows.op_bind trivial fun i closed => ?_
  have hl₀ : loc (⟨.loadClosed, i, closed⟩ :: h) = ⟨ro, eo, none, .outside, ou⟩ := by
    rw [loc_cons, hl]; rfl
  cases closed with
  | true => exact ⟨⟨eo, ou, hl₀⟩, _, rfl, fun h => by cases h⟩
  | false =>
    change (Prog.bind (Group.prepareLocalOwner g key) _).Follows _ _ _
    refine Follows.bind (prepareLocalOwner_follows key hl₀) (fun h₁ r _ hQ => ?_)
      fun h₁ p _ hQ => ?_
    · obtain ⟨eo', ou₁, hl₁, ⟨e, ⟨⟩, -⟩ | ⟨err, ⟨⟩, hp⟩⟩ := hQ
      · refine Follows.op_bind (by rw [Allowed, hl₁]; exact ⟨rfl, rfl⟩) fun j s => ?_
        have hl₂ : loc (⟨.acquireKeyState key, j, s⟩ :: h₁) =
            ⟨ro, eo', some (key, s), .outside, none⟩ := by rw [loc_cons, hl₁]; rfl
        refine Follows.op_bind (by rw [Allowed, hl₂]; exact ⟨hw, rfl, rfl⟩) fun k _ => ?_
        refine Follows.steady_bind (invalidateNearKey_steady key) (fun h₂ _ hs hl₃ hQ => ?_)
          fun h₂ p _ _ hQ => ?_
        · rw [loc_cons, hl₂] at hl₃
          refine Follows.op_bind (by rw [Allowed, hl₃]; exact ⟨rfl, rfl⟩) fun m _ => ?_
          refine ⟨⟨eo', none, by rw [loc_cons, hl₃]; rfl⟩, none, rfl, fun _ => ⟨s, k, ?_⟩⟩
          exact List.mem_cons_of_mem _ (hs.subset (List.mem_cons_self ..))
        · cases hQ.1
      · simp only [hp]
        exact ⟨⟨eo', ou₁, hl₁⟩, _, rfl, fun h => by cases h⟩
    · obtain ⟨_, _, _, ⟨_, hr, -⟩ | ⟨_, hr, -⟩⟩ := hQ <;> cases hr

theorem deleteOwnerLocal_follows (hd : call.Deletes key) (hl : Rests ro h) :
    (Group.deleteOwnerLocal g key).Follows (Allowed g call) (fun h' r =>
      Rests ro h' ∧ ∃ x, r = .ok x) h := by
  obtain ⟨eo, ou, hl⟩ := hl
  refine Follows.op_bind trivial fun i closed => ?_
  have hl₀ : loc (⟨.loadClosed, i, closed⟩ :: h) = ⟨ro, eo, none, .outside, ou⟩ := by
    rw [loc_cons, hl]; rfl
  cases closed with
  | true => exact ⟨⟨eo, ou, hl₀⟩, _, rfl⟩
  | false =>
    change (Prog.bind (Group.prepareLocalOwner g key) _).Follows _ _ _
    refine Follows.bind (prepareLocalOwner_follows key hl₀) (fun h₁ r _ hQ => ?_)
      fun h₁ p _ hQ => ?_
    · obtain ⟨eo', ou₁, hl₁, ⟨e, ⟨⟩, -⟩ | ⟨err, ⟨⟩, hp⟩⟩ := hQ
      · refine Follows.bind (deleteLocal_follows hd ⟨eo', ou₁, hl₁⟩) (fun h₂ b _ hQ => ?_)
          fun h₂ p _ hQ => ?_
        · exact ⟨hQ.1, _, rfl⟩
        · obtain ⟨-, ⟨_, hr⟩, -⟩ := hQ
          cases hr
      · simp only [hp]
        exact ⟨⟨eo', ou₁, hl₁⟩, _, rfl⟩
    · obtain ⟨_, _, _, ⟨_, hr, -⟩ | ⟨_, hr, -⟩⟩ := hQ <;> cases hr

end Owner

/-! ## The requester's side -/

section Requester

variable {ro : Option Pick}

theorem Rests.idle (hl : Rests ro h) : (loc h).Idle := by
  obtain ⟨eo, ou, hl⟩ := hl
  rw [hl]
  exact ⟨rfl, rfl⟩

theorem Rests.of_loc_eq {h' : History} (hl : Rests ro h) (he : loc h' = loc h) : Rests ro h' := by
  obtain ⟨eo, ou, hl⟩ := hl
  exact ⟨eo, ou, he.trans hl⟩

/-- Routing an attempt replaces the route. -/
theorem Rests.route (hl : Rests ro h) (key : GoString) (i : Inp) (p : Pick) :
    Rests (some p) (⟨.pickOwner .route key, i, p⟩ :: h) := by
  obtain ⟨eo, ou, hl⟩ := hl
  exact ⟨eo, ou, by rw [loc_cons, hl]; rfl⟩

theorem PeerCall.mono {p q : Pick} {v : ByteView} {h' : History} (hc : PeerCall g key p q v h)
    (hs : h <:+ h') : PeerCall g key p q v h' := by
  obtain ⟨l, rfl⟩ := hs
  induction l with
  | nil => exact hc
  | cons e l ih => exact .later ih

theorem Called.mono {p : Pick} {req : Req} {resp : Resp} {h' : History}
    (hc : Called key p req resp h) (hs : h <:+ h') : Called key p req resp h' := by
  obtain ⟨c, id, i₁, i₂, i₃, hp, hsub⟩ := hc
  exact ⟨c, id, i₁, i₂, i₃, hp, hsub.trans hs.sublist⟩

/-- The call that got the bytes from the owner, or wrote them to it. -/
theorem PeerCall.called {p q : Pick} {v : ByteView} (hc : PeerCall g key p q v h) :
    (∃ resp, resp.value = v.b ∧ Called key p (.get g.name key) resp h) ∨
      ∃ resp, Called key p (.set g.name key v.b) resp h := by
  induction hc with
  | get hcall hv => exact Or.inl ⟨_, hv, hcall.mono (List.suffix_cons _ _)⟩
  | set hcall => exact Or.inr ⟨_, hcall.mono (List.suffix_cons _ _)⟩
  | later _ ih =>
    rcases ih with ⟨resp, hv, hcall⟩ | ⟨resp, hcall⟩
    · exact Or.inl ⟨resp, hv, hcall.mono (List.suffix_cons _ _)⟩
    · exact Or.inr ⟨resp, hcall.mono (List.suffix_cons _ _)⟩

theorem Called.route_mem {p : Pick} {req : Req} {resp : Resp} (hc : Called key p req resp h) :
    ∃ i, (⟨.pickOwner .route key, i, p⟩ : Ev groupSig Inp) ∈ h := by
  obtain ⟨_, _, i, _, _, -, hs⟩ := hc
  exact ⟨i, hs.subset (by simp)⟩

/-- A call to the owner was routed by the answer before it. -/
theorem PeerCall.route_mem {p q : Pick} {v : ByteView} (hc : PeerCall g key p q v h) :
    ∃ i, (⟨.pickOwner .route key, i, p⟩ : Ev groupSig Inp) ∈ h := by
  rcases hc.called with ⟨_, -, hcall⟩ | ⟨_, hcall⟩ <;> exact hcall.route_mem

theorem Odd.mono {h' : History} (ho : Odd h) (hs : h <:+ h') : Odd h' := by
  obtain ⟨site, key, i, q, hm, ho⟩ := ho
  refine ⟨site, key, i, q, hs.subset hm, ho.imp id ?_⟩
  rintro ⟨site', i', p, hm', hp⟩
  exact ⟨site', i', p, hs.subset hm', hp⟩

theorem NearCopy.mono {nearKey : GoString} {v : ByteView} {h' : History}
    (hc : NearCopy g h nearKey v) (hs : h <:+ h') : NearCopy g h' nearKey v := by
  obtain ⟨key, p, q, hk, hp, hq, hc⟩ := hc
  exact ⟨key, p, q, hk, hp, hq, hc.mono hs⟩

theorem addNear_follows {nearKey : GoString} {v : ByteView}
    (hc : NearCopy g h nearKey v ∨ Odd h) :
    (Group.addNear g nearKey v).Follows (Allowed g call) (fun h' r =>
      loc h' = loc h ∧ r = .ok ()) h := by
  refine Follows.op_bind trivial fun i now => ?_
  refine Follows.op_bind trivial fun j ttl => ?_
  have hs : h <:+ ⟨.until (now + g.nearTTL), j, ttl⟩ :: ⟨.now, i, now⟩ :: h :=
    (List.suffix_cons _ _).trans (List.suffix_cons _ _)
  refine ⟨⟨⟨now, i, j, h, rfl⟩, hc.imp (fun hc => hc.mono hs) fun ho => ho.mono hs⟩, fun k _ => ?_⟩
  exact ⟨rfl, rfl⟩

theorem getNear_steady {p : Pick} {i₁ : Inp} (hok : p.ok = true) (hself : p.self = false)
    (hroute : (⟨.pickOwner .route key, i₁, p⟩ : Ev groupSig Inp) ∈ h) :
    (Group.getNear g key p).Follows (fun _ o => Steady g call o) (fun h' r =>
      ∃ x, r = .ok x ∧ ∀ v, x = some v → RemoteRead g key p v h') h := by
  unfold Group.getNear
  split
  · exact ⟨none, rfl, fun v hv => by cases hv⟩
  · refine Follows.op_bind ⟨fun _ => trivial, fun _ _ => rfl⟩ fun i₂ x => ?_
    cases x with
    | none =>
      refine Follows.op_bind ⟨fun _ => trivial, fun _ _ => rfl⟩ fun _ _ => ?_
      exact ⟨none, rfl, fun v hv => by cases hv⟩
    | some v =>
      refine Follows.op_bind ⟨fun _ => trivial, fun _ _ => rfl⟩ fun i₃ q => ?_
      split
      · next hq =>
        simp only [Bool.and_eq_true, decide_eq_true_eq] at hq
        refine Follows.op_bind ⟨fun _ => trivial, fun _ _ => rfl⟩ fun _ _ => ?_
        refine ⟨some v, rfl, ?_⟩
        rintro _ ⟨⟩
        refine .near q i₁ i₂ i₃ ⟨hok, hself, hq.1.1, hq.1.2, hq.2⟩ ?_
        exact (((List.singleton_sublist.2 hroute).cons_cons _).cons_cons _).cons _
      · refine Follows.op_bind ⟨fun _ => trivial, fun _ _ => rfl⟩ fun _ _ => ?_
        refine Follows.op_bind ⟨fun _ => trivial, fun _ _ => rfl⟩ fun _ _ => ?_
        exact ⟨none, rfl, fun v hv => by cases hv⟩

section PeerCalls

variable {p : Pick} {i : Inp} {c : Option Client} (hpeer : p.peer = .client c)
  (hroute : (⟨.pickOwner .route key, i, p⟩ : Ev groupSig Inp) ∈ h)

include hpeer hroute

theorem Client.called_steady {what : GoString} {req : Req} (hs : call.Sends g req) :
    (Client.call c what req).Follows (fun _ o => Steady g call o) (fun h' r =>
      ∀ resp, r = .ok (.ok resp) → Called key p req resp h') h := by
  refine (Client.call_steady hs).mono (fun _ _ _ hJ => hJ) fun h' r _ hQ resp hr => ?_
  obtain ⟨c', rfl, id, i₂, i₃, rfl⟩ := hQ resp hr
  exact ⟨c', id, i, i₂, i₃, hpeer, ((List.singleton_sublist.2 hroute).cons_cons _).cons_cons _⟩

theorem Client.get_steady (hs : call.Sends g (.get g.name key)) :
    (Client.get c g.name key).Follows (fun _ o => Steady g call o) (fun h' r =>
      ∀ bytes, r = .ok (.ok bytes) → ∃ resp, resp.value = bytes ∧
        Called key p (.get g.name key) resp h') h := by
  refine Follows.bind (Client.called_steady hpeer hroute hs) (fun h' r _ hQ => ?_)
    fun h' e _ _ bytes hr => by cases hr
  intro bytes hb
  cases r with
  | ok resp => cases hb; exact ⟨resp, rfl, hQ resp rfl⟩
  | error err => cases hb

theorem Client.set_steady {value : Bytes} (hs : call.Sends g (.set g.name key value)) :
    (Client.set c g.name key value).Follows (fun _ o => Steady g call o) (fun h' r =>
      r = .ok none → ∃ resp, Called key p (.set g.name key value) resp h') h := by
  refine Follows.bind (Client.called_steady hpeer hroute hs) (fun h' r _ hQ => ?_)
    fun h' e _ _ hr => by cases hr
  cases r with
  | ok resp => exact fun _ => ⟨resp, hQ resp rfl⟩
  | error err => exact fun hr => by cases hr

theorem Client.delete_steady (hs : call.Sends g (.delete g.name key)) :
    (Client.delete c g.name key).Follows (fun _ o => Steady g call o) (fun _ _ => True) h :=
  Follows.bind (Client.called_steady hpeer hroute hs) (fun _ _ _ _ => trivial)
    fun _ _ _ _ => trivial

end PeerCalls

/-- What is known when a `Get` of `key` ends. -/
def GetDone (g : Cfg) (key : GoString) (h : History) (r : Except Panic (Except Err ByteView)) :
    Prop :=
  (loc h).Idle ∧ ∀ v, r = .ok (.ok v) →
    (∀ p, (loc h).route = some p → p.self = true) ∧ LocalRead (loc h).out key v ∨
      g.peers = true ∧ ∃ p, (loc h).route = some p ∧ RemoteRead g key p v h

theorem getDone_error {err : Err} (hl : Rests ro h) : GetDone g key h (.ok (.error err)) :=
  ⟨hl.idle, fun v hv => by cases hv⟩

theorem getDone_panic {p : Panic} (hl : Rests ro h) : GetDone g key h (.error p) :=
  ⟨hl.idle, fun v hv => by cases hv⟩

theorem getAttempts_follows (hr : call.Reads key) (hs : call.Sends g (.get g.name key))
    (hp : g.peers = true) (n : Nat) (hl : Rests ro h) :
    (Group.getAttempts g key n).Follows (Allowed g call) (GetDone g key) h := by
  induction n generalizing h ro with
  | zero => exact getDone_error hl
  | succ n ih =>
    refine Follows.op_bind trivial fun i p => ?_
    have hl₁ := hl.route key i p
    split
    · exact getDone_error hl₁
    next hok =>
    have hok : p.ok = true := by simp_all
    split
    · next hself =>
      obtain ⟨eo, ou, hl₁⟩ := hl₁
      refine Follows.bind (getLocal_follows hr hl₁) (fun h' r _ hQ => ?_) fun h' e _ hQ => ?_
      · obtain ⟨eo', ou', hl₂, hv⟩ := hQ
        cases r with
        | ok v =>
          refine ⟨by rw [hl₂]; exact ⟨rfl, rfl⟩, ?_⟩
          rintro _ ⟨⟩
          refine Or.inl ⟨?_, ?_⟩
          · rw [hl₂]
            rintro _ ⟨⟩
            exact hself
          · rw [hl₂]
            exact hv v rfl
        | error err =>
          change (if _ then _ else _ : GoProg (Except Err ByteView)).Follows _ _ _
          split
          · exact ih ⟨eo', ou', hl₂⟩
          · exact getDone_error ⟨eo', ou', hl₂⟩
      · obtain ⟨eo', ou', hl₂, -⟩ := hQ
        exact getDone_panic ⟨eo', ou', hl₂⟩
    next hself =>
    have hself : p.self = false := by simpa using hself
    split
    · exact getDone_error hl₁
    next c hpeer =>
    refine Follows.steady_bind (getNear_steady hok hself (List.mem_cons_self ..))
      (fun h₁ x hsuf hl₂ hQ => ?_) fun h₁ e _ _ hQ => ?_
    · obtain ⟨_, ⟨⟩, hQ⟩ := hQ
      have hl₃ := hl₁.of_loc_eq hl₂
      cases x with
      | some v =>
        refine ⟨hl₃.idle, ?_⟩
        rintro _ ⟨⟩
        obtain ⟨eo, ou, hl₃⟩ := hl₃
        exact Or.inr ⟨hp, p, by rw [hl₃], hQ v rfl⟩
      | none =>
        have hroute := hsuf.subset (List.mem_cons_self ..)
        refine Follows.steady_bind (Client.get_steady hpeer hroute hs)
          (fun h₂ r _ hl₄ hQ => ?_) fun h₂ e _ hl₄ _ => getDone_panic (hl₃.of_loc_eq hl₄)
        have hl₄ := hl₃.of_loc_eq hl₄
        cases r with
        | error err =>
          refine Follows.op_bind trivial fun j _ => ?_
          split
          · split
            · exact getDone_error hl₄
            · refine Follows.op_bind trivial fun k w => ?_
              cases w with
              | some waitErr => exact getDone_error hl₄
              | none => exact ih hl₄
          · exact getDone_error hl₄
        | ok bytes =>
          obtain ⟨resp, hresp, hcall⟩ := hQ bytes rfl
          refine Follows.op_bind trivial fun j q => ?_
          split
          · exact ih hl₄
          next hq =>
          simp only [Bool.or_eq_true, Bool.not_eq_eq_eq_not, Bool.not_true, decide_eq_true_eq,
            not_or, Bool.not_eq_true, Bool.not_eq_false, ne_eq, not_not] at hq
          obtain ⟨⟨⟨hqok, howner⟩, hepoch⟩, hqself⟩ := hq
          have hsame : SameOwner p q := ⟨hok, hself, hqok, howner, hepoch⟩
          have hcopy : ∀ h', (⟨.pickOwner .verify key, j, q⟩ : Ev groupSig Inp) :: h₂ <:+ h' →
              PeerCall g key p q ⟨bytes⟩ h' := fun h' hsuf =>
            (PeerCall.get hcall hresp).mono hsuf
          have hdone : ∀ h', (⟨.pickOwner .verify key, j, q⟩ : Ev groupSig Inp) :: h₂ <:+ h' →
              loc h' = loc h₂ → GetDone g key h' (.ok (.ok ⟨bytes⟩)) := fun h' hsuf hl => by
            obtain ⟨eo, ou, hl₅⟩ := hl₄.of_loc_eq hl
            refine ⟨(hl₄.of_loc_eq hl).idle, ?_⟩
            rintro _ ⟨⟩
            exact Or.inr ⟨hp, p, by rw [hl₅], .peer q hsame hqself (hcopy h' hsuf)⟩
          refine Follows.op_bind trivial fun k _ => ?_
          split
          · refine Follows.bind (addNear_follows (Or.inl ⟨key, p, q, rfl, hsame, hqself,
              hcopy _ (List.suffix_cons _ _)⟩)) (fun h₃ _ hsuf hQ => ?_) fun h₃ e _ hQ => ?_
            · exact hdone h₃ ((List.suffix_cons _ _).trans hsuf) hQ.1
            · cases hQ.2
          · exact hdone _ (List.suffix_cons _ _) rfl
    · obtain ⟨_, hr, -⟩ := hQ
      cases hr

theorem get_follows (hr : call.Reads key) (hs : call.Sends g (.get g.name key))
    (hl : loc h = .fresh) : (Group.get g key).Follows (Allowed g call) (GetDone g key) h := by
  refine Follows.op_bind trivial fun i closed => ?_
  have hl₀ : Rests none (⟨.loadClosed, i, closed⟩ :: h) :=
    ⟨none, none, by rw [loc_cons, hl]; rfl⟩
  split
  · exact getDone_error hl₀
  split
  · exact getDone_error hl₀
  split
  · obtain ⟨eo, ou, hl₁⟩ := hl₀
    refine (getLocal_follows hr hl₁).mono (fun _ _ _ hJ => hJ) fun h' r _ hQ => ?_
    obtain ⟨eo', ou', hl₂, hv⟩ := hQ
    refine ⟨by rw [hl₂]; exact ⟨rfl, rfl⟩, fun v hr => Or.inl ?_⟩
    rw [hl₂]
    exact ⟨fun p hp => (by cases hp), hv v hr⟩
  · next hp => exact getAttempts_follows hr hs (by simpa using hp) 4 hl₀

/-- What the loop of `Set` leaves behind when it ends with `owner` and `stableEpoch`: the write went
to a remote owner, or no answer for the key under that epoch can name a remote owner. -/
def Accepted (g : Cfg) (key : GoString) (value : Bytes) (owner : GoString) (epoch : Nat)
    (h : History) : Prop :=
  epoch = 0 ∨
    ∃ i p, (⟨.pickOwner .route key, i, p⟩ : Ev groupSig Inp) ∈ h ∧ p.ok = true ∧ p.owner = owner ∧
      p.epoch = epoch ∧
      (p.self = true ∨ p.self = false ∧ ∃ resp, Called key p (.set g.name key value) resp h)

theorem Accepted.mono {value : Bytes} {owner : GoString} {epoch : Nat} {h' : History}
    (ha : Accepted g key value owner epoch h) (hs : h <:+ h') :
    Accepted g key value owner epoch h' := by
  refine ha.imp id ?_
  rintro ⟨i, p, hm, hok, ho, he, hp⟩
  refine ⟨i, p, hs.subset hm, hok, ho, he, hp.imp id ?_⟩
  rintro ⟨hself, resp, hc⟩
  exact ⟨hself, resp, hc.mono hs⟩

/-- The refresh of the writer's near copy is of what the owner accepted. -/
theorem Accepted.nearCopy {value : Bytes} {owner : GoString} {epoch : Nat} {i : Inp} {q : Pick}
    (ha : Accepted g key value owner epoch h)
    (hq : (q.ok && q.owner = owner && q.epoch = epoch && !q.self) = true) :
    NearCopy g (⟨.pickOwner .refresh key, i, q⟩ :: h) (Group.nearKey epoch key) ⟨value⟩ ∨
      Odd (⟨.pickOwner .refresh key, i, q⟩ :: h) := by
  simp only [Bool.and_eq_true, decide_eq_true_eq, Bool.not_eq_eq_eq_not, Bool.not_true] at hq
  obtain ⟨⟨⟨hqok, rfl⟩, rfl⟩, hqself⟩ := hq
  rcases ha with h0 | ⟨j, p, hm, hok, ho, he, hself | ⟨hself, resp, hc⟩⟩
  · exact Or.inr ⟨_, _, _, _, List.mem_cons_self .., Or.inl h0⟩
  · refine Or.inr ⟨_, _, _, _, List.mem_cons_self .., Or.inr ⟨_, _, p, List.mem_cons_of_mem _ hm,
      he, ?_⟩⟩
    rintro rfl
    simp [hself] at hqself
  · exact Or.inl ⟨key, p, q, by rw [he], ⟨hok, hself, hqok, ho.symm, he.symm⟩, hqself, .set hc⟩

/-- What is known when a mutation of `key` ends. -/
def MutationDone (g : Cfg) (key : GoString) (h : History) (r : Except Panic (Option Err)) : Prop :=
  (loc h).Idle ∧ (r = .ok none → g.peers = true → Invalidated g key h)

theorem mutationDone_error {err : Err} (hl : Rests ro h) :
    MutationDone g key h (.ok (some err)) := ⟨hl.idle, fun hr => by cases hr⟩

theorem mutationDone_panic {p : Panic} (hl : Rests ro h) :
    MutationDone g key h (.error p) := ⟨hl.idle, fun hr => by cases hr⟩

/-- The owner a mutation excepts from its invalidations is one it was told. -/
def Told (g : Cfg) (key owner : GoString) (h : History) : Prop :=
  g.peers = true → ∃ site i p, (⟨.pickOwner site key, i, p⟩ : Ev groupSig Inp) ∈ h ∧ p.owner = owner

theorem finishSet_follows {value : Bytes} {owner : GoString} {epoch : Nat}
    (hst : call.Starts key) (hsend : call.Sends g (.invalidate g.name key)) (hl : Rests ro h)
    (ha : g.peers = true → Accepted g key value owner epoch h) (ht : Told g key owner h) :
    (Group.finishSet g key value owner epoch).Follows (Allowed g call) (MutationDone g key) h := by
  refine Follows.op_bind trivial fun i _ => ?_
  refine Follows.steady_bind (invalidateLocalCopies_steady hst) (fun h₁ _ hs₁ hl₁ hd => ?_)
    fun h₁ e _ _ hQ => ?_
  · have hl₁ := hl.of_loc_eq hl₁
    refine Follows.steady_bind (invalidatePeerCopies_steady owner hsend) (fun h₂ _ hs₂ hl₂ hk => ?_)
      fun h₂ e _ hl₂ _ => mutationDone_panic (hl₁.of_loc_eq hl₂)
    have hl₂ := hl₁.of_loc_eq hl₂
    have hs : h <:+ h₂ := (List.suffix_cons _ _).trans (hs₁.trans hs₂)
    have hdone : ∀ h', h₂ <:+ h' → loc h' = loc h₂ → MutationDone g key h' (.ok none) := by
      refine fun h' hs' hl' => ⟨(hl₂.of_loc_eq hl').idle, fun _ hp => ⟨fun hn => ?_, ?_⟩⟩
      · exact (hd.2 hp hn).mono (hs₂.trans hs')
      · obtain ⟨site, j, p, hm, rfl⟩ := ht hp
        exact ⟨site, j, p, (hs.trans hs').subset hm, (hk hp).mono hs'⟩
    split
    · next hcond =>
      simp only [Bool.and_eq_true, decide_eq_true_eq] at hcond
      refine Follows.op_bind trivial fun j q => ?_
      have hs₃ := List.suffix_cons (⟨.pickOwner .refresh key, j, q⟩ : Ev groupSig Inp) h₂
      split
      · next hq =>
        refine Follows.bind (addNear_follows (((ha hcond.1.1).mono hs).nearCopy hq))
          (fun h₃ _ hs₄ hQ => hdone h₃ (hs₃.trans hs₄) hQ.1) fun h₃ e _ hQ => ?_
        cases hQ.2
      · exact hdone _ hs₃ rfl
    · exact hdone h₂ (List.suffix_refl _) rfl
  · cases hQ.1

theorem checkOwner_follows {p : Pick} {left : Nat} {finish retry : GoProg (Option Err)}
    (hl : Rests ro h)
    (hf : ∀ i q, finish.Follows (Allowed g call) (MutationDone g key)
      (⟨.pickOwner .verify key, i, q⟩ :: h))
    (hr : ∀ i q, retry.Follows (Allowed g call) (MutationDone g key)
      (⟨.pickOwner .verify key, i, q⟩ :: h)) :
    (Group.checkOwner key p left finish retry).Follows (Allowed g call) (MutationDone g key) h := by
  refine Follows.op_bind trivial fun i q => ?_
  split
  · exact hf i q
  · split
    · exact mutationDone_error hl
    · exact hr i q

theorem setAttempts_follows {value : Bytes} (hw : call.Writes key value) (hst : call.Starts key)
    (hset : call.Sends g (.set g.name key value))
    (hsend : call.Sends g (.invalidate g.name key)) (n : Nat) {owner : GoString}
    (ht : n = 0 → Told g key owner h) (hl : Rests ro h) :
    (Group.setAttempts g key value n owner).Follows (Allowed g call) (MutationDone g key) h := by
  induction n generalizing h ro owner with
  | zero => exact finishSet_follows hst hsend hl (fun _ => Or.inl rfl) (ht rfl)
  | succ n ih =>
    refine Follows.op_bind trivial fun i p => ?_
    have hl₁ := hl.route key i p
    split
    · exact mutationDone_error hl₁
    next hok =>
    have hok : p.ok = true := by simp_all
    have hmem : (⟨.pickOwner .route key, i, p⟩ : Ev groupSig Inp) ∈
        (⟨.pickOwner .route key, i, p⟩ : Ev groupSig Inp) :: h := List.mem_cons_self ..
    have htold : ∀ h', (⟨.pickOwner .route key, i, p⟩ : Ev groupSig Inp) :: h <:+ h' →
        Told g key p.owner h' := fun h' hs _ => ⟨_, i, p, hs.subset hmem, rfl⟩
    -- the check after a write that was accepted
    have hcheck : ∀ h', (⟨.pickOwner .route key, i, p⟩ : Ev groupSig Inp) :: h <:+ h' →
        Rests (some p) h' →
        (p.self = true ∨ p.self = false ∧ ∃ resp, Called key p (.set g.name key value) resp h') →
        (Group.checkOwner key p n (Group.finishSet g key value p.owner p.epoch)
          (Group.setAttempts g key value n p.owner)).Follows (Allowed g call)
            (MutationDone g key) h' := by
      intro h' hs hl' hacc
      refine checkOwner_follows hl' (fun j q => ?_) fun j q => ?_
      · have hs' := List.suffix_cons (⟨.pickOwner .verify key, j, q⟩ : Ev groupSig Inp) h'
        refine finishSet_follows hst hsend hl' (fun _ => Or.inr ⟨i, p,
          (hs.trans hs').subset hmem, hok, rfl, rfl, hacc.imp id ?_⟩) (htold _ (hs.trans hs'))
        rintro ⟨hself, resp, hc⟩
        exact ⟨hself, resp, hc.mono hs'⟩
      · exact ih (fun _ => htold _ (hs.trans (List.suffix_cons _ _))) hl'
    split
    · next hself =>
      refine Follows.bind (setLocal_follows hw hl₁) (fun h₁ r hs hQ => ?_) fun h₁ e _ hQ => ?_
      · cases r with
        | some err =>
          change (if _ then _ else _ : GoProg (Option Err)).Follows _ _ _
          split
          · exact ih (fun _ => htold _ hs) hQ.1
          · exact mutationDone_error hQ.1
        | none => exact hcheck h₁ hs hQ.1 (Or.inl hself)
      · obtain ⟨-, _, hr, -⟩ := hQ
        cases hr
    next hself =>
    have hself : p.self = false := by simpa using hself
    split
    · exact mutationDone_error hl₁
    next c hpeer =>
    refine Follows.steady_bind (Client.set_steady hpeer hmem hset) (fun h₁ r hs hl₂ hQ => ?_)
      fun h₁ e _ hl₂ _ => mutationDone_panic (hl₁.of_loc_eq hl₂)
    have hl₂ := hl₁.of_loc_eq hl₂
    cases r with
    | none => exact hcheck h₁ hs hl₂ (Or.inr ⟨hself, hQ rfl⟩)
    | some err =>
      change (if _ then _ else _ : GoProg (Option Err)).Follows _ _ _
      split
      · split
        · exact mutationDone_error hl₂
        · refine Follows.op_bind trivial fun k w => ?_
          cases w with
          | some waitErr => exact mutationDone_error hl₂
          | none => exact ih (fun _ => htold _ (hs.trans (List.suffix_cons _ _))) hl₂
      · exact mutationDone_error hl₂

theorem set_follows {value : Bytes} (hw : call.Writes key value) (hst : call.Starts key)
    (hset : call.Sends g (.set g.name key value))
    (hsend : call.Sends g (.invalidate g.name key)) (hl : Rests ro h) :
    (Group.set g key value).Follows (Allowed g call) (MutationDone g key) h := by
  refine Follows.op_bind trivial fun i closed => ?_
  have hl₀ : Rests ro (⟨.loadClosed, i, closed⟩ :: h) := hl.of_loc_eq rfl
  split
  · exact mutationDone_error hl₀
  split
  · exact mutationDone_error hl₀
  split
  · exact mutationDone_error hl₀
  split
  · next hp =>
    have hp : g.peers = false := by simpa using hp
    refine Follows.bind (setLocal_follows hw hl₀) (fun h₁ r _ hQ => ?_) fun h₁ e _ hQ => ?_
    · cases r with
      | some err => exact mutationDone_error hQ.1
      | none =>
        exact finishSet_follows hst hsend hQ.1 (fun h => by simp [hp] at h)
          fun h => by simp [hp] at h
    · obtain ⟨-, _, hr, -⟩ := hQ
      cases hr
  · exact setAttempts_follows hw hst hset hsend 4 (fun h => by cases h) hl₀

theorem finishDelete_follows {owner : GoString} (hst : call.Starts key)
    (hsend : call.Sends g (.invalidate g.name key)) (hl : Rests ro h) (ht : Told g key owner h) :
    (Group.finishDelete g key owner).Follows (Allowed g call) (MutationDone g key) h := by
  refine Follows.op_bind trivial fun i _ => ?_
  refine Follows.steady_bind (invalidateLocalCopies_steady hst) (fun h₁ _ hs₁ hl₁ hd => ?_)
    fun h₁ e _ _ hQ => ?_
  · have hl₁ := hl.of_loc_eq hl₁
    refine Follows.steady_bind (invalidatePeerCopies_steady owner hsend) (fun h₂ _ hs₂ hl₂ hk => ?_)
      fun h₂ e _ hl₂ _ => mutationDone_panic (hl₁.of_loc_eq hl₂)
    refine ⟨(hl₁.of_loc_eq hl₂).idle, fun _ hp => ⟨fun hn => (hd.2 hp hn).mono hs₂, ?_⟩⟩
    obtain ⟨site, j, p, hm, rfl⟩ := ht hp
    exact ⟨site, j, p, hs₂.subset (hs₁.subset (List.mem_cons_of_mem _ hm)), hk hp⟩
  · cases hQ.1

theorem deleteAttempts_follows (hd : call.Deletes key) (hst : call.Starts key)
    (hdel : call.Sends g (.delete g.name key))
    (hsend : call.Sends g (.invalidate g.name key)) (n : Nat) {owner : GoString}
    (ht : n = 0 → Told g key owner h) (hl : Rests ro h) :
    (Group.deleteAttempts g key n owner).Follows (Allowed g call) (MutationDone g key) h := by
  induction n generalizing h ro owner with
  | zero => exact finishDelete_follows hst hsend hl (ht rfl)
  | succ n ih =>
    refine Follows.op_bind trivial fun i p => ?_
    have hl₁ := hl.route key i p
    split
    · exact mutationDone_error hl₁
    have hmem : (⟨.pickOwner .route key, i, p⟩ : Ev groupSig Inp) ∈
        (⟨.pickOwner .route key, i, p⟩ : Ev groupSig Inp) :: h := List.mem_cons_self ..
    have htold : ∀ h', (⟨.pickOwner .route key, i, p⟩ : Ev groupSig Inp) :: h <:+ h' →
        Told g key p.owner h' := fun h' hs _ => ⟨_, i, p, hs.subset hmem, rfl⟩
    have hcheck : ∀ h', (⟨.pickOwner .route key, i, p⟩ : Ev groupSig Inp) :: h <:+ h' →
        Rests (some p) h' →
        (Group.checkOwner key p n (Group.finishDelete g key p.owner)
          (Group.deleteAttempts g key n p.owner)).Follows (Allowed g call)
            (MutationDone g key) h' := by
      intro h' hs hl'
      refine checkOwner_follows hl' (fun j q => ?_) fun j q => ?_
      · exact finishDelete_follows hst hsend hl' (htold _ (hs.trans (List.suffix_cons _ _)))
      · exact ih (fun _ => htold _ (hs.trans (List.suffix_cons _ _))) hl'
    split
    · refine Follows.bind (deleteLocal_follows hd hl₁) (fun h₁ r hs hQ => hcheck h₁ hs hQ.1)
        fun h₁ e _ hQ => ?_
      obtain ⟨-, ⟨_, hr⟩, -⟩ := hQ
      cases hr
    split
    · exact mutationDone_error hl₁
    next c hpeer =>
    refine Follows.steady_bind (Client.delete_steady hpeer hmem hdel) (fun h₁ r hs hl₂ _ => ?_)
      fun h₁ e _ hl₂ _ => mutationDone_panic (hl₁.of_loc_eq hl₂)
    have hl₂ := hl₁.of_loc_eq hl₂
    cases r with
    | ok b => exact hcheck h₁ hs hl₂
    | error err =>
      change (if _ then _ else _ : GoProg (Option Err)).Follows _ _ _
      split
      · split
        · exact mutationDone_error hl₂
        · refine Follows.op_bind trivial fun k w => ?_
          cases w with
          | some waitErr => exact mutationDone_error hl₂
          | none => exact ih (fun _ => htold _ (hs.trans (List.suffix_cons _ _))) hl₂
      · exact mutationDone_error hl₂

theorem delete_follows (hd : call.Deletes key) (hst : call.Starts key)
    (hdel : call.Sends g (.delete g.name key))
    (hsend : call.Sends g (.invalidate g.name key)) (hl : Rests ro h) :
    (Group.delete g key).Follows (Allowed g call) (MutationDone g key) h := by
  refine Follows.op_bind trivial fun i closed => ?_
  have hl₀ : Rests ro (⟨.loadClosed, i, closed⟩ :: h) := hl.of_loc_eq rfl
  split
  · exact mutationDone_error hl₀
  split
  · exact mutationDone_error hl₀
  split
  · next hp =>
    have hp : g.peers = false := by simpa using hp
    refine Follows.bind (deleteLocal_follows hd hl₀) (fun h₁ r _ hQ => ?_) fun h₁ e _ hQ => ?_
    · exact finishDelete_follows hst hsend hQ.1 fun h => by simp [hp] at h
    · obtain ⟨-, ⟨_, hr⟩, -⟩ := hQ
      cases hr
  · exact deleteAttempts_follows hd hst hdel hsend 4 (fun h => by cases h) hl₀

end Requester

/-! ## Clear, Close and the handlers -/

theorem clearMainFrom_steady (i n : Nat) :
    (Group.clearMainFrom i n).Follows (fun _ o => Steady g .clear o) (fun _ _ => True) h := by
  induction n generalizing i h with
  | zero => trivial
  | succ n ih =>
    exact Follows.op_bind ⟨fun _ => rfl, fun _ _ => rfl⟩ fun _ _ => ih (i + 1)

theorem clearNearFrom_steady (i n : Nat) :
    (Group.clearNearFrom i n).Follows (fun _ o => Steady g .clear o) (fun _ _ => True) h := by
  induction n generalizing i h with
  | zero => trivial
  | succ n ih =>
    exact Follows.op_bind ⟨fun _ => rfl, fun _ _ => rfl⟩ fun _ _ => ih (i + 1)

theorem clear_steady :
    (Group.clear g).Follows (fun _ o => Steady g .clear o) (fun _ _ => True) h := by
  refine Follows.op_bind ⟨fun _ => trivial, fun _ _ => rfl⟩ fun i closed => ?_
  split
  · trivial
  · refine Follows.bind (clearMainFrom_steady 0 _) (fun _ _ _ _ => ?_) fun _ _ _ _ => trivial
    split
    · exact clearNearFrom_steady 0 _
    · trivial

theorem close_steady :
    (Group.close g).Follows (fun _ o => Steady g .close o) (fun _ _ => True) h := by
  refine Follows.op_bind ⟨fun _ => rfl, fun _ _ => rfl⟩ fun i won => ?_
  split
  · trivial
  · refine Follows.op_bind ⟨fun _ => rfl, fun _ _ => rfl⟩ fun _ _ => ?_
    split
    · refine Follows.op_bind ⟨fun _ => rfl, fun _ _ => rfl⟩ fun _ _ => ?_
      exact ⟨⟨fun _ => rfl, fun _ _ => rfl⟩, fun _ _ => trivial⟩
    · exact ⟨⟨fun _ => rfl, fun _ _ => rfl⟩, fun _ _ => trivial⟩

/-- The lookup of the group, and then the handler. -/
theorem withGroup_follows {name : GoString} {handler : GoProg (Except Err Resp)}
    {F : History → Except Panic (Except Err Resp) → Prop} (hl : Rests none h)
    (hh : ∀ i a, Rests none (⟨.getGroup name, i, a⟩ :: h) →
      handler.Follows (Allowed g call) F (⟨.getGroup name, i, a⟩ :: h))
    (hF : ∀ h' err, Rests none h' → F h' (.ok (.error err))) :
    (Server.withGroup name handler).Follows (Allowed g call) F h := by
  refine Follows.op_bind trivial fun i a => ?_
  have hl' : Rests none (⟨.getGroup name, i, a⟩ :: h) := hl.of_loc_eq rfl
  split
  · exact hh i a hl'
  · exact hF _ _ hl'

/-- What is known when a request has been handled. -/
def HandleDone (g : Cfg) (req : Req) (h : History) (r : Except Panic (Except Err Resp)) : Prop :=
  (loc h).Idle ∧ ∀ resp, r = .ok (.ok resp) →
    match req with
    | .get _ key => LocalRead (loc h).out key ⟨resp.value⟩
    | .set _ key value => ∃ s i, (⟨.setSection s key value, i, ()⟩ : Ev groupSig Inp) ∈ h
    | .invalidate _ key => g.peers = true → g.nearCache = true → Dropped key h
    | _ => True

theorem handle_follows {src : GoString × Nat} (req : Req) (hl : Rests none h) :
    (Server.handle g req).Follows (Allowed g (.serve src req)) (HandleDone g req) h := by
  have herr : ∀ h' err, Rests none h' → HandleDone g req h' (.ok (.error err)) :=
    fun h' err hl' => ⟨hl'.idle, fun resp hr => by cases hr⟩
  cases req with
  | get group key =>
    refine withGroup_follows hl (fun i a hl₁ => ?_) herr
    obtain ⟨eo, ou, hl₁⟩ := hl₁
    refine Follows.bind (getLocal_follows rfl hl₁) (fun h' r _ hQ => ?_) fun h' e _ hQ => ?_
    · obtain ⟨eo', ou', hl₂, hv⟩ := hQ
      cases r with
      | ok v =>
        refine ⟨by rw [hl₂]; exact ⟨rfl, rfl⟩, ?_⟩
        rintro _ ⟨⟩
        rw [hl₂]
        exact hv v rfl
      | error err => exact herr h' _ ⟨eo', ou', hl₂⟩
    · obtain ⟨eo', ou', hl₂, -⟩ := hQ
      exact ⟨by rw [hl₂]; exact ⟨rfl, rfl⟩, fun resp hr => by cases hr⟩
  | set group key value =>
    refine withGroup_follows hl (fun i a hl₁ => ?_) herr
    refine Follows.bind (setLocal_follows ⟨rfl, rfl⟩ hl₁) (fun h' r _ hQ => ?_) fun h' e _ hQ => ?_
    · obtain ⟨hl₂, x, hx, hset⟩ := hQ
      cases hx
      cases r with
      | none => exact ⟨hl₂.idle, fun _ _ => hset rfl⟩
      | some err => exact herr h' _ hl₂
    · exact ⟨hQ.1.idle, fun resp hr => by cases hr⟩
  | delete group key =>
    refine withGroup_follows hl (fun i a hl₁ => ?_) herr
    change (Prog.bind (Group.deleteOwnerLocal g key) _).Follows _ _ _
    refine Follows.bind (deleteOwnerLocal_follows rfl hl₁) (fun h' r _ hQ => ?_) fun h' e _ hQ => ?_
    · cases r with
      | ok removed => exact ⟨hQ.1.idle, fun _ _ => trivial⟩
      | error err => exact herr h' _ hQ.1
    · exact ⟨hQ.1.idle, fun resp hr => by cases hr⟩
  | invalidate group key =>
    refine withGroup_follows hl (fun i a hl₁ => ?_) herr
    change (Prog.bind (Group.deleteLocal g key) _).Follows _ _ _
    refine Follows.bind (deleteLocal_follows rfl hl₁) (fun h' r _ hQ => ?_) fun h' e _ hQ => ?_
    · exact ⟨hQ.1.idle, fun _ _ => hQ.2.2⟩
    · exact ⟨hQ.1.idle, fun resp hr => by cases hr⟩

/-! ## The protocol of a node -/

/-- A call is its program and then its result. -/
theorem follows_result {α : Type} {p : GoProg α} {f : α → Res} {Q : History → Except Panic α → Prop}
    (hp : p.Follows (Allowed g call) Q h)
    (hok : ∀ h' a, Q h' (.ok a) → Finished g call h' (.ok (f a)))
    (herr : ∀ h' e, Q h' (.error e) → Finished g call h' (.error e)) :
    (p.bind fun a => ret (f a)).Follows (Allowed g call) (Finished g call) h :=
  hp.bind (fun h' a _ hQ => hok h' a hQ) fun h' e _ hQ => herr h' e hQ

theorem prog_follows (g : Cfg) (call : Call) :
    (Node.prog g call).Follows (Allowed g call) (Finished g call) [] := by
  have hl : Rests none [] := ⟨none, none, rfl⟩
  cases call with
  | get key =>
    refine follows_result (get_follows rfl rfl rfl) (fun h' r hQ => ?_)
      fun h' e hQ => ⟨hQ.1, trivial⟩
    cases r with
    | ok v => exact ⟨hQ.1, hQ.2 v rfl⟩
    | error err => exact ⟨hQ.1, trivial⟩
  | set key value =>
    refine follows_result (set_follows ⟨rfl, rfl⟩ rfl (Or.inl rfl)
      (Or.inr rfl) hl) (fun h' r hQ => ?_) fun h' e hQ => ⟨hQ.1, trivial⟩
    cases r with
    | none => exact ⟨hQ.1, hQ.2 rfl⟩
    | some err => exact ⟨hQ.1, trivial⟩
  | delete key =>
    refine follows_result (delete_follows rfl rfl (Or.inl rfl) (Or.inr rfl) hl)
      (fun h' r hQ => ?_) fun h' e hQ => ⟨hQ.1, trivial⟩
    cases r with
    | none => exact ⟨hQ.1, hQ.2 rfl⟩
    | some err => exact ⟨hQ.1, trivial⟩
  | clear =>
    refine follows_result (Follows.steady clear_steady) (fun h' r hQ => ⟨?_, trivial⟩)
      fun h' e hQ => ⟨?_, trivial⟩ <;> exact (hl.of_loc_eq hQ.1).idle
  | close =>
    refine follows_result (Follows.steady close_steady) (fun h' r hQ => ⟨?_, trivial⟩)
      fun h' e hQ => ⟨?_, trivial⟩ <;> exact (hl.of_loc_eq hQ.1).idle
  | serve src req =>
    refine follows_result (handle_follows req hl) (fun h' r hQ => ⟨hQ.1, ?_⟩)
      fun h' e hQ => ⟨hQ.1, by cases req <;> trivial⟩
    cases r with
    | error err => cases req <;> trivial
    | ok resp =>
      have := hQ.2 resp rfl
      cases req <;> exact this

/-- **The protocol every call of a node follows.** -/
@[reducible] def protocol (g : Cfg) : Protocol (node g) where
  allows := Allowed g
  ends := Finished g
  follows := prog_follows g

end Locache
