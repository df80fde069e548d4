import Locache.Group.Protocol
import Mathlib.Tactic.Linarith

/-!
# What one action changes

`exec_eq_some` takes a step of a node apart. `act_frame` says once which part of the state each
action may touch, so that an invariant of one part has to look only at the actions on that part.
The main cache gets a finer account: what a lookup can find after an action is what the action
stored, or what it could find before (`live_of_exec`).
-/

namespace Locache

open Conc

abbrev Trace (g : Cfg) := List (Label (node g))

variable {g : Cfg}

/-- Where goroutine `t` stands after a run with trace `tr`. -/
def locOf (tr : Trace g) (t : Nat) : Loc := loc (hist tr t)

section LocOf

variable {tr : Trace g} {t u : Nat} {o : Op} {i : Inp} {a : o.Ans}

theorem locOf_act_self : locOf (.act t ⟨o, i, a⟩ :: tr) t = (locOf tr t).next o a := by
  rw [locOf, hist_act_self, loc_cons, locOf]

theorem locOf_act_ne (h : t ≠ u) : locOf (.act t ⟨o, i, a⟩ :: tr) u = locOf tr u := by
  rw [locOf, hist_act_ne h, locOf]

@[simp] theorem locOf_nil : locOf ([] : Trace g) t = .fresh := rfl

@[simp] theorem locOf_spawn {c : Call} : locOf (.spawn u c :: tr) t = locOf tr t := rfl

@[simp] theorem locOf_ret {r : Except Panic Res} : locOf (.ret u r :: tr) t = locOf tr t := rfl

@[simp] theorem locOf_env {e : Event} : locOf (.env e :: tr) t = locOf tr t := rfl

end LocOf

variable {o : Op} {i : Inp} {a : o.Ans} {σ σ' : State}

theorem exec_eq_some : Node.exec g o i σ = some (a, σ') ↔
    σ.clock ≤ i.now ∧ ∃ σ₁, Group.act g i σ o = some (a, σ₁) ∧
      σ' = { σ₁ with clock := i.last } := by
  unfold Node.exec
  split
  · next h => exact ⟨fun h' => (by cases h'), fun h' => absurd h (not_lt.2 h'.1)⟩
  · next h =>
    rw [Option.map_eq_some_iff]
    constructor
    · rintro ⟨⟨b, σ₁⟩, hact, heq⟩
      cases heq
      exact ⟨not_lt.1 h, σ₁, hact, rfl⟩
    · rintro ⟨-, σ₁, hact, rfl⟩
      exact ⟨(a, σ₁), hact, rfl⟩

theorem Inp.now_le_now₁ (i : Inp) : i.now ≤ i.now₁ := by simp [Inp.now₁]

theorem Inp.now₁_le_now₂ (i : Inp) : i.now₁ ≤ i.now₂ := by simp [Inp.now₂]

theorem Inp.now₂_le_last (i : Inp) : i.now₂ ≤ i.last := by simp [Inp.last]

theorem Inp.now_le_last (i : Inp) : i.now ≤ i.last :=
  i.now_le_now₁.trans (i.now₁_le_now₂.trans i.now₂_le_last)

/-! ## Frames -/

namespace Op

/-- Actions on the main cache. -/
def onMain : Op → Bool
  | ownerEpoch _ | mainGet _ | mainDelete _ | mainClear _ | mainClose | loadBegin _ _
  | loadCommit _ _ _ _ | setSection _ _ _ | deleteSection _ _ => true
  | _ => false

/-- Actions on the near cache. -/
def onNear : Op → Bool
  | nearGet _ | nearDelete _ | nearClear _ | nearClose | nearSet _ _ _ => true
  | _ => false

/-- Actions on the mutation states. -/
def onStates : Op → Bool
  | acquireKeyState _ | releaseKeyState _ _ | setSection _ _ _ | deleteSection _ _ => true
  | _ => false

/-- The action on the owner epoch. -/
def onEpoch : Op → Bool
  | ownerEpoch _ => true
  | _ => false

/-- The action that starts a Getter call. -/
def startsGetter : Op → Bool
  | getterStart _ => true
  | _ => false

/-- Actions on the singleflight group. -/
def onFlights : Op → Bool
  | doEnter _ | doRemove _ _ | doDone _ _ => true
  | _ => false

end Op

structure Frame (o : Op) (σ σ' : State) : Prop where
  main : o.onMain = false → σ'.main = σ.main
  near : o.onNear = false → σ'.near = σ.near
  states : o.onStates = false →
    σ'.keyStates = σ.keyStates ∧ σ'.states = σ.states ∧ σ'.nextState = σ.nextState
  flights : o.onFlights = false →
    σ'.flights = σ.flights ∧ σ'.calls = σ.calls ∧ σ'.nextCall = σ.nextCall
  topology : σ'.topology = σ.topology ∧ σ'.epochs = σ.epochs
  epoch : o.onEpoch = false → σ'.ownerEpoch = σ.ownerEpoch
  getters : o.startsGetter = false → σ'.nextGetter = σ.nextGetter

theorem act_frame {σ₁ : State} (h : Group.act g i σ o = some (a, σ₁)) : Frame o σ σ₁ := by
  cases o with
  | doEnter key =>
    obtain rfl : (Group.doEnter key σ).2 = σ₁ := congrArg Prod.snd (Option.some.inj h)
    unfold Group.doEnter
    split <;> constructor <;> simp [Op.onMain, Op.onNear, Op.onStates, Op.onFlights]
  | acquireKeyState key =>
    obtain rfl : (Group.acquireKeyState key σ).2 = σ₁ := congrArg Prod.snd (Option.some.inj h)
    unfold Group.acquireKeyState
    split <;> constructor <;> simp [Op.onMain, Op.onNear, Op.onStates, Op.onFlights]
  | ownerEpoch e =>
    cases h
    unfold Group.checkOwnerEpoch
    split
    · constructor <;> simp [Op.onEpoch]
    · split <;> constructor <;> simp [Op.onMain, Op.onEpoch]
  | loadBegin s key =>
    obtain rfl : (Group.loadBegin s key i.now σ).2 = σ₁ := congrArg Prod.snd (Option.some.inj h)
    unfold Group.loadBegin
    dsimp only
    split <;> constructor <;> simp [Op.onMain, Op.onEpoch]
  | loadCommit s key n b =>
    obtain rfl : (Group.loadCommit g s key n b i σ).2 = σ₁ := congrArg Prod.snd (Option.some.inj h)
    unfold Group.loadCommit
    split
    · dsimp only
      split <;> constructor <;> simp [Op.onMain, Op.onEpoch]
    · constructor <;> simp [Op.onMain]
  | doWait c =>
    simp only [Group.act, Option.map_eq_some_iff, Prod.mk.injEq] at h
    obtain ⟨_, -, -, rfl⟩ := h
    constructor <;> simp
  | _ =>
    cases h
    constructor <;>
      simp [Op.onMain, Op.onNear, Op.onStates, Op.onFlights, Op.startsGetter,
        Group.releaseKeyState, Group.setSection]

theorem exec_frame (h : Node.exec g o i σ = some (a, σ')) : Frame o σ σ' := by
  obtain ⟨-, σ₁, hact, rfl⟩ := exec_eq_some.1 h
  have hf := act_frame hact
  exact ⟨hf.main, hf.near, hf.states, hf.flights, hf.topology, hf.epoch, hf.getters⟩

/-- What a node does on its own account leaves alone. -/
structure EnvFrame (σ σ' : State) : Prop where
  states : σ'.keyStates = σ.keyStates ∧ σ'.states = σ.states ∧ σ'.nextState = σ.nextState
  flights : σ'.flights = σ.flights ∧ σ'.calls = σ.calls ∧ σ'.nextCall = σ.nextCall
  epoch : σ'.ownerEpoch = σ.ownerEpoch
  getters : σ'.nextGetter = σ.nextGetter

/-- What a node does on its own account: it takes over a membership, or sweeps a shard. -/
theorem env_cases {e : Event} (h : Node.env e σ = some σ') :
    (∃ T, e = .membership T ∧ (0 < T.epoch ∧ T.epoch ∉ σ.epochs) ∧
      σ' = { σ with topology := T, epochs := T.epoch :: σ.epochs }) ∨
    (∃ shard order now, e = .cleanupMain shard order now ∧ σ.clock ≤ now ∧
      σ' = { σ with main := σ.main.cleanupShard shard order now, clock := now }) ∨
    ∃ shard order now, e = .cleanupNear shard order now ∧ σ.clock ≤ now ∧
      σ' = { σ with near := σ.near.cleanupShard shard order now, clock := now } := by
  cases e with
  | membership T =>
    simp only [Node.env, Option.ite_none_right_eq_some, Option.some.injEq] at h
    exact Or.inl ⟨T, rfl, h.1, h.2.symm⟩
  | cleanupMain shard order now =>
    simp only [Node.env, Option.ite_none_left_eq_some, Option.some.injEq] at h
    exact Or.inr (Or.inl ⟨shard, order, now, rfl, not_lt.1 h.1, h.2.symm⟩)
  | cleanupNear shard order now =>
    simp only [Node.env, Option.ite_none_left_eq_some, Option.some.injEq] at h
    exact Or.inr (Or.inr ⟨shard, order, now, rfl, not_lt.1 h.1, h.2.symm⟩)

theorem env_frame {e : Event} (h : Node.env e σ = some σ') : EnvFrame σ σ' := by
  rcases env_cases h with ⟨T, -, -, rfl⟩ | ⟨shard, order, now, -, -, rfl⟩ |
    ⟨shard, order, now, -, -, rfl⟩ <;>
    exact ⟨⟨rfl, rfl, rfl⟩, ⟨rfl, rfl, rfl⟩, rfl, rfl⟩

theorem exec_clock (h : Node.exec g o i σ = some (a, σ')) :
    σ.clock ≤ i.now ∧ σ'.clock = i.last := by
  obtain ⟨hc, σ₁, -, rfl⟩ := exec_eq_some.1 h
  exact ⟨hc, rfl⟩

/-! ## The main cache -/

/-- A critical section of `setLocal` or `deleteLocal` on `k`. -/
def Op.mutates (k : GoString) : Op → Bool
  | .setSection _ key _ | .deleteSection _ key => key = k
  | _ => false

/-- The event puts `v` into the main cache under `k`. -/
def Stores (k : GoString) (v : ByteView) : Ev groupSig Inp → Prop
  | ⟨.setSection _ key value, _, _⟩ => key = k ∧ v = ⟨value⟩
  | ⟨.loadCommit _ key _ _, _, .stored w⟩ => key = k ∧ v = w
  | _ => False

/-- The two actions that put something into the main cache. -/
theorem Stores.cases {k : GoString} {v : ByteView} (h : Stores k v ⟨o, i, a⟩) :
    (∃ s, (⟨o, i, a⟩ : Ev groupSig Inp) = ⟨.setSection s k v.b, i, ()⟩) ∨
      ∃ s n b, (⟨o, i, a⟩ : Ev groupSig Inp) = ⟨.loadCommit s k n b, i, .stored v⟩ := by
  cases o with
  | setSection s key value =>
    obtain ⟨rfl, rfl⟩ := h
    exact Or.inl ⟨s, rfl⟩
  | loadCommit s key n b =>
    cases a with
    | stored w =>
      obtain ⟨rfl, rfl⟩ := h
      exact Or.inr ⟨s, n, b, rfl⟩
    | _ => cases h
  | _ => cases h

section AddOwnerValue

variable {main : Cache} {key k : GoString} {v : ByteView}

theorem wf_addOwnerValue (hm : main.WF) (key : GoString) (v : ByteView) (i : Inp) :
    (Group.addOwnerValue g key v i main).WF := by
  unfold Group.addOwnerValue
  split
  · exact Cache.WF.addFor hm _ _ _ _ _ _
  · exact Cache.WF.add hm _ _ _ _ _

/-- After `addOwnerValue` an entry is the stored one, whose deadline is bounded, or an older one; an
older one of the same key is left only when the lifetime had passed before the store. -/
theorem view_addOwnerValue (hm : main.WF) {x : ByteView × Option Time}
    (h : (Group.addOwnerValue g key v i main).view k = some x) :
    (k = key ∧ x.1 = v ∧ (0 < g.expiration → ∃ d, x.2 = some d ∧ d ≤ i.last + g.expiration)) ∨
      (main.view k = some x ∧ (k = key → 0 < g.expiration ∧ i.now + g.expiration ≤ i.last)) := by
  have h₁ := i.now_le_now₁
  have h₂ := i.now₁_le_now₂
  have h₃ := i.now₂_le_last
  unfold Group.addOwnerValue at h
  split at h
  · next hexp =>
    unfold Cache.addWithExpiration at h
    rcases Cache.view_addFor hm key v _ _ _ _ h with ⟨rfl, rfl, -⟩ | ⟨hx, hd⟩
    · refine Or.inl ⟨rfl, rfl, fun _ => ⟨_, rfl, ?_⟩⟩
      simp only [Cache.ttl]
      linarith
    · refine Or.inr ⟨hx, fun hk => ⟨hexp, ?_⟩⟩
      have := hd hk
      simp only [Cache.ttl] at this
      linarith
  · next hexp =>
    rcases Cache.view_add hm key v _ _ _ h with ⟨rfl, rfl⟩ | ⟨hk, hx⟩
    · exact Or.inl ⟨rfl, rfl, fun h => absurd h hexp⟩
    · exact Or.inr ⟨hx, fun h => absurd h hk⟩

end AddOwnerValue

theorem main_loadBegin {s : Nat} {key : GoString} {now : Time} :
    (Group.loadBegin s key now σ).2.main = (σ.main.get now key).2 := by
  unfold Group.loadBegin
  dsimp only
  split <;> rfl

/-- The second section of a load looks the key up, or stores the loaded bytes. -/
theorem loadCommit_cases (s : Nat) (key : GoString) (n : Nat) (b : Bytes) :
    ((σ.states s).generation ≠ n ∧
        (Group.loadCommit g s key n b i σ).2.main = (σ.main.get i.now key).2 ∧
        (Group.loadCommit g s key n b i σ).1 =
          ((σ.main.get i.now key).1.elim .miss .existing)) ∨
      ((σ.states s).generation = n ∧
        (Group.loadCommit g s key n b i σ).2.main = Group.addOwnerValue g key ⟨b⟩ i σ.main ∧
        (Group.loadCommit g s key n b i σ).1 = .stored ⟨b⟩) := by
  unfold Group.loadCommit
  split
  · next h =>
    refine Or.inl ⟨h, ?_⟩
    dsimp only
    cases (σ.main.get i.now key).1 <;> exact ⟨rfl, rfl⟩
  · next h => exact Or.inr ⟨not_not.1 h, rfl, rfl⟩

/-- A load that stores finds its generation unchanged, and stores what it loaded. -/
theorem generation_of_stored {s n : Nat} {key : GoString} {b : Bytes} {v : ByteView}
    (h : Node.exec g (.loadCommit s key n b) i σ = some (.stored v, σ')) :
    (σ.states s).generation = n ∧ v = ⟨b⟩ := by
  obtain ⟨-, σ₁, hact, -⟩ := exec_eq_some.1 h
  have hans := (Prod.ext_iff.1 (Option.some.inj hact)).1
  simp only at hans
  rcases loadCommit_cases s key n b with ⟨-, -, ha⟩ | ⟨hgen, -, ha⟩ <;> rw [ha] at hans
  · cases hlive : (σ.main.get i.now key).1 <;> rw [hlive] at hans <;> cases hans
  · cases hans
    exact ⟨hgen, rfl⟩

theorem wf_of_act {σ₁ : State} (hm : σ.main.WF) (h : Group.act g i σ o = some (a, σ₁)) :
    σ₁.main.WF := by
  cases o with
  | ownerEpoch e =>
    cases h
    unfold Group.checkOwnerEpoch
    split
    · exact hm
    · split
      · exact Cache.WF.clear hm _
      · exact hm
  | mainGet key => cases h; exact Cache.WF.get hm _ _
  | mainDelete key => cases h; exact Cache.WF.delete hm _
  | mainClear shard => cases h; exact Cache.WF.clearShard hm _ _
  | mainClose => cases h; exact Cache.WF.close hm
  | loadBegin s key =>
    obtain rfl : (Group.loadBegin s key i.now σ).2 = σ₁ := congrArg Prod.snd (Option.some.inj h)
    rw [main_loadBegin]
    exact Cache.WF.get hm _ _
  | loadCommit s key n b =>
    obtain rfl : (Group.loadCommit g s key n b i σ).2 = σ₁ := congrArg Prod.snd (Option.some.inj h)
    rcases loadCommit_cases s key n b with ⟨-, h, -⟩ | ⟨-, h, -⟩ <;> rw [h]
    · exact Cache.WF.get hm _ _
    · exact wf_addOwnerValue hm _ _ _
  | setSection s key value => cases h; exact wf_addOwnerValue hm _ _ _
  | deleteSection s key => cases h; exact Cache.WF.delete hm _
  | _ => rw [(act_frame h).main rfl]; exact hm

/-- What an entry of the main cache after an action is: one the action stored, or one that was there
before; one of a key the action mutated is left only if its time is over. -/
theorem view_of_act {σ₁ : State} (hm : σ.main.WF) (h : Group.act g i σ o = some (a, σ₁))
    {k : GoString} {x : ByteView × Option Time} (hx : σ₁.main.view k = some x) :
    (Stores k x.1 ⟨o, i, a⟩ ∧
        (0 < g.expiration → ∃ d, x.2 = some d ∧ d ≤ i.last + g.expiration)) ∨
      (σ.main.view k = some x ∧
        (o.mutates k = true → 0 < g.expiration ∧ i.now + g.expiration ≤ i.last)) := by
  cases o with
  | ownerEpoch e =>
    cases h
    refine Or.inr ⟨?_, fun h => by cases h⟩
    unfold Group.checkOwnerEpoch at hx
    split at hx
    · exact hx
    · split at hx
      · rw [Cache.view_clear] at hx; cases hx
      · exact hx
  | mainGet key =>
    cases h
    exact Or.inr ⟨Cache.view_get hm _ _ hx, fun h => by cases h⟩
  | mainDelete key =>
    cases h
    rw [Cache.view_delete hm] at hx
    split at hx
    · cases hx
    · exact Or.inr ⟨hx, fun h => by cases h⟩
  | mainClear shard =>
    cases h
    exact Or.inr ⟨Cache.view_clearShard _ _ _ hx, fun h => by cases h⟩
  | mainClose => cases h; rw [Cache.view_close] at hx; cases hx
  | loadBegin s key =>
    obtain rfl : (Group.loadBegin s key i.now σ).2 = σ₁ := congrArg Prod.snd (Option.some.inj h)
    rw [main_loadBegin] at hx
    exact Or.inr ⟨Cache.view_get hm _ _ hx, fun h => by cases h⟩
  | loadCommit s key n b =>
    obtain ⟨ha, rfl⟩ := Prod.ext_iff.1 (Option.some.inj h)
    simp only at ha
    rcases loadCommit_cases s key n b with ⟨-, hmain, -⟩ | ⟨-, hmain, hans⟩ <;> rw [hmain] at hx
    · exact Or.inr ⟨Cache.view_get hm _ _ hx, fun h => by cases h⟩
    · rw [hans] at ha
      subst ha
      rcases view_addOwnerValue hm hx with ⟨rfl, hv, hd⟩ | ⟨hx, -⟩
      · exact Or.inl ⟨⟨rfl, hv⟩, hd⟩
      · exact Or.inr ⟨hx, fun h => by cases h⟩
  | setSection s key value =>
    cases h
    rcases view_addOwnerValue hm hx with ⟨rfl, hv, hd⟩ | ⟨hx, hold⟩
    · exact Or.inl ⟨⟨rfl, hv⟩, hd⟩
    · exact Or.inr ⟨hx, fun h => hold (by simpa [Op.mutates, eq_comm] using h)⟩
  | deleteSection s key =>
    cases h
    change (σ.main.delete key).2.view k = _ at hx
    rw [Cache.view_delete hm] at hx
    split at hx
    · cases hx
    · next hk =>
      exact Or.inr ⟨hx, fun h => absurd (by simpa [Op.mutates, eq_comm] using h) hk⟩
  | _ =>
    rw [(act_frame h).main rfl] at hx
    exact Or.inr ⟨hx, fun h => by cases h⟩

/-- The main cache is well formed, and no entry outlives the owner TTL. -/
structure MainOk (g : Cfg) (σ : State) : Prop where
  wf : σ.main.WF
  bounded : 0 < g.expiration → σ.main.Bounded (σ.clock + g.expiration)

theorem MainOk.exec (hm : MainOk g σ) (h : Node.exec g o i σ = some (a, σ')) : MainOk g σ' := by
  obtain ⟨hc, σ₁, hact, rfl⟩ := exec_eq_some.1 h
  have hwf : σ₁.main.WF := wf_of_act hm.wf hact
  refine ⟨hwf, fun hexp k v d hx => ?_⟩
  rcases view_of_act hm.wf hact hx with ⟨-, hd⟩ | ⟨hx, -⟩
  · exact hd hexp
  · obtain ⟨e, rfl, he⟩ := hm.bounded hexp k v d hx
    refine ⟨e, rfl, he.trans ?_⟩
    have := i.now_le_last
    show σ.clock + g.expiration ≤ i.last + g.expiration
    linarith

theorem MainOk.env {e : Event} (hm : MainOk g σ) (h : Node.env e σ = some σ') : MainOk g σ' := by
  rcases env_cases h with ⟨T, -, -, rfl⟩ | ⟨shard, order, now, -, hc, rfl⟩ |
    ⟨shard, order, now, -, hc, rfl⟩
  · exact ⟨hm.wf, hm.bounded⟩
  · refine ⟨Cache.WF.cleanupShard hm.wf _ _ _, fun hexp k v d hx => ?_⟩
    obtain ⟨e, rfl, he⟩ := hm.bounded hexp k v d (Cache.view_cleanupShard hm.wf _ _ _ hx)
    refine ⟨e, rfl, he.trans ?_⟩
    show σ.clock + g.expiration ≤ now + g.expiration
    linarith
  · refine ⟨hm.wf, fun hexp k v d hx => ?_⟩
    obtain ⟨e, rfl, he⟩ := hm.bounded hexp k v d hx
    refine ⟨e, rfl, he.trans ?_⟩
    show σ.clock + g.expiration ≤ now + g.expiration
    linarith

/-- **What a lookup can find after an action** is what the action stored, or what a lookup could
find before an action that does not mutate the key. -/
theorem live_of_exec (hm : MainOk g σ) (h : Node.exec g o i σ = some (a, σ')) {k : GoString}
    {v : ByteView} (hv : σ'.main.live σ'.clock k = some v) :
    Stores k v ⟨o, i, a⟩ ∨ (σ.main.live σ.clock k = some v ∧ o.mutates k = false) := by
  obtain ⟨hc, σ₁, hact, rfl⟩ := exec_eq_some.1 h
  obtain ⟨d, hx, hd⟩ := Cache.live_eq_some.1 hv
  rcases view_of_act hm.wf hact hx with ⟨hs, -⟩ | ⟨hx, hmut⟩
  · exact Or.inl hs
  · have hlive : ¬Store.Expired d σ.clock := fun he => hd (he.mono (hc.trans i.now_le_last))
    refine Or.inr ⟨Cache.live_eq_some.2 ⟨d, hx, hlive⟩, ?_⟩
    by_contra hne
    obtain ⟨hexp, hlate⟩ := hmut (by simpa using hne)
    obtain ⟨e, rfl, he⟩ := hm.bounded hexp k v d hx
    refine hd (not_lt.2 ?_)
    show e ≤ i.last
    linarith

theorem view_of_env {e : Event} (hm : MainOk g σ) (h : Node.env e σ = some σ') {k : GoString}
    {x : ByteView × Option Time} (hx : σ'.main.view k = some x) : σ.main.view k = some x := by
  rcases env_cases h with ⟨T, -, -, rfl⟩ | ⟨shard, order, now, -, -, rfl⟩ |
    ⟨shard, order, now, -, -, rfl⟩
  · exact hx
  · exact Cache.view_cleanupShard hm.wf _ _ _ hx
  · exact hx

theorem live_of_env {e : Event} (hm : MainOk g σ) (h : Node.env e σ = some σ') {k : GoString}
    {v : ByteView} (hv : σ'.main.live σ'.clock k = some v) : σ.main.live σ.clock k = some v := by
  rcases env_cases h with ⟨T, -, -, rfl⟩ | ⟨shard, order, now, -, hc, rfl⟩ |
    ⟨shard, order, now, -, hc, rfl⟩
  · exact hv
  · exact Cache.live_of_view (fun x hx => Cache.view_cleanupShard hm.wf _ _ _ hx) hc hv
  · exact Cache.live_mono hc hv

/-! ## Open groups -/

/-- Only `Close` closes the group and takes it out of the registry. -/
theorem open_of_act {σ₁ : State} (h : Group.act g i σ o = some (a, σ₁)) :
    (o ≠ .casClosed → σ₁.closed = σ.closed) ∧
      (o ≠ .unregister → σ₁.registered = σ.registered) := by
  cases o with
  | casClosed =>
    cases h
    exact ⟨fun ho => absurd rfl ho, fun _ => rfl⟩
  | unregister =>
    cases h
    exact ⟨fun _ => rfl, fun ho => absurd rfl ho⟩
  | doEnter key =>
    obtain rfl : (Group.doEnter key σ).2 = σ₁ := congrArg Prod.snd (Option.some.inj h)
    unfold Group.doEnter
    split <;> exact ⟨fun _ => rfl, fun _ => rfl⟩
  | acquireKeyState key =>
    obtain rfl : (Group.acquireKeyState key σ).2 = σ₁ := congrArg Prod.snd (Option.some.inj h)
    unfold Group.acquireKeyState
    split <;> exact ⟨fun _ => rfl, fun _ => rfl⟩
  | ownerEpoch e =>
    cases h
    unfold Group.checkOwnerEpoch
    split
    · exact ⟨fun _ => rfl, fun _ => rfl⟩
    · split <;> exact ⟨fun _ => rfl, fun _ => rfl⟩
  | loadBegin s key =>
    obtain rfl : (Group.loadBegin s key i.now σ).2 = σ₁ := congrArg Prod.snd (Option.some.inj h)
    unfold Group.loadBegin
    dsimp only
    split <;> exact ⟨fun _ => rfl, fun _ => rfl⟩
  | loadCommit s key n b =>
    obtain rfl : (Group.loadCommit g s key n b i σ).2 = σ₁ := congrArg Prod.snd (Option.some.inj h)
    unfold Group.loadCommit
    split
    · dsimp only
      split <;> exact ⟨fun _ => rfl, fun _ => rfl⟩
    · exact ⟨fun _ => rfl, fun _ => rfl⟩
  | doWait c =>
    simp only [Group.act, Option.map_eq_some_iff, Prod.mk.injEq] at h
    obtain ⟨_, -, -, rfl⟩ := h
    exact ⟨fun _ => rfl, fun _ => rfl⟩
  | _ =>
    cases h
    exact ⟨fun _ => rfl, fun _ => rfl⟩

/-- Without `Close` the group stays as open and as registered as it was. -/
theorem Run.stays_open {G : Guard (node g)} {σ₀ : State} {c : Config (node g)} {tr : Trace g}
    (h : Run G σ₀ c tr) : (∀ t, .spawn t .close ∉ tr) →
      c.state.closed = σ₀.closed ∧ c.state.registered = σ₀.registered := by
  have hless : ∀ {ℓ : Label (node g)} {tr : Trace g}, (∀ t, .spawn t .close ∉ ℓ :: tr) →
      ∀ t, .spawn t .close ∉ tr := fun hno t ht => hno t (List.mem_cons_of_mem _ ht)
  refine h.inv (P := protocol g) (I := fun tr σ => (∀ t, .spawn t .close ∉ tr) →
    σ.closed = σ₀.closed ∧ σ.registered = σ₀.registered)
    ⟨fun _ => ⟨rfl, rfl⟩, fun hI _ _ _ hno => hI (hless hno), ?_,
      fun hI _ _ _ hno => hI (hless hno), ?_⟩
  · intro tr σ t call o i a σ' hI _ hcall hallow hx hno
    obtain ⟨-, σ₁, hact, rfl⟩ := exec_eq_some.1 hx
    have hcall : call ≠ .close := by
      rintro rfl
      exact absurd (mem_of_callOf hcall) (hless hno t)
    obtain ⟨hclosed, hregistered⟩ := open_of_act hact
    obtain ⟨h₁, h₂⟩ := hI (hless hno)
    refine ⟨(hclosed ?_).trans h₁, (hregistered ?_).trans h₂⟩
    · rintro rfl
      exact hcall hallow
    · rintro rfl
      exact hcall hallow
  · intro tr σ e σ' hI _ hx hno
    have hold := hI (hless hno)
    cases e <;> simp only [Node.env, Option.ite_none_left_eq_some, Option.ite_none_right_eq_some,
      Option.some.injEq] at hx <;> obtain ⟨-, rfl⟩ := hx <;> exact hold

end Locache
