import Locache.Group.Flight

/-!
# Where the value of a read comes from

A local read gets its value from a lookup in the main cache, from the load it leads, or from a load
that another goroutine leads. `Scope` says what is to be shown of these values: what makes a value
good, when the main cache holds good values only, and which reads and which singleflight calls are
meant. The rules `Scope.Inv.act` and `Scope.Inv.other` carry it from step to step; what is left to
show for a scope is about single stores, lookups and joins (`Scope.Acts`).
-/

namespace Locache

open Conc

variable {g : Cfg} {tr : Trace g} {σ σ' : State} {t x : Nat} {k : GoString} {v : ByteView}
  {o : Op} {i : Inp} {a : o.Ans}

/-- The event gives a singleflight call for `k` the result `v`. -/
def Decides (k : GoString) (v : ByteView) : Ev groupSig Inp → Prop
  | ⟨.loadBegin _ key, _, .hit w⟩ => key = k ∧ w = v
  | ⟨.loadCommit _ key _ _, _, .stored w⟩ => key = k ∧ w = v
  | ⟨.loadCommit _ key _ _, _, .existing w⟩ => key = k ∧ w = v
  | _ => False

/-- A goroutine that has a result for its call got it in this action or had it before. -/
theorem Move.decided {e : Option Nat} {y y' : Option (GoString × Nat)} {st st' : Stage} {s c : Nat}
    (hm : Move e o a y st y' st') (hheld : y' = some (k, s))
    (hst : st' = .decided c (.ok (.ok v)) ∨ st' = .removed c (.ok (.ok v))) :
    Decides k v ⟨o, i, a⟩ ∨
      y = some (k, s) ∧ (st = .decided c (.ok (.ok v)) ∨ st = .removed c (.ok (.ok v))) := by
  cases hm with
  | hit | stored | existing =>
    cases hheld
    rcases hst with hst | hst <;> cases hst
    exact Or.inl ⟨rfl, rfl⟩
  | remove =>
    rcases hst with hst | hst <;> cases hst
    exact Or.inr ⟨hheld, Or.inl rfl⟩
  | stay => exact Or.inr ⟨hheld, hst⟩
  | _ => rcases hst with hst | hst <;> cases hst

/-- A result is what the call stored, or what it found in the main cache. -/
theorem live_of_decides (hm : σ.main.WF) (hx : Node.exec g o i σ = some (a, σ'))
    (hd : Decides k v ⟨o, i, a⟩) :
    (∃ s n b, (⟨o, i, a⟩ : Ev groupSig Inp) = ⟨.loadCommit s k n b, i, .stored v⟩) ∨
      σ.main.live i.now k = some v := by
  obtain ⟨-, σ₁, hact, -⟩ := exec_eq_some.1 hx
  cases o with
  | loadBegin s key =>
    cases a with
    | hit w =>
      obtain ⟨rfl, rfl⟩ := hd
      right
      rw [← Cache.get_fst hm]
      have hans := congrArg Prod.fst (Option.some.inj hact)
      simp only [Group.loadBegin] at hans
      cases hg : (σ.main.get i.now key).1 with
      | none => rw [hg] at hans; cases hans
      | some w => rw [hg] at hans; cases hans; rfl
    | generation n => cases hd
  | loadCommit s key n b =>
    cases a with
    | stored w =>
      obtain ⟨rfl, rfl⟩ := hd
      exact Or.inl ⟨s, n, b, rfl⟩
    | existing w =>
      obtain ⟨rfl, rfl⟩ := hd
      right
      rw [← Cache.get_fst hm]
      have hans := (Prod.ext_iff.1 (Option.some.inj hact)).1
      simp only at hans
      rcases loadCommit_cases s key n b with ⟨-, -, ha⟩ | ⟨-, -, ha⟩ <;> rw [ha] at hans
      · cases hg : (σ.main.get i.now key).1 with
        | none => rw [hg] at hans; cases hans
        | some w => rw [hg] at hans; cases hans; rfl
      · cases hans
    | miss => cases hd
  | _ => cases hd

/-- What is to be shown of the values that reads of a key get. -/
structure Scope (g : Cfg) where
  /-- What is known of a value. -/
  good : Trace g → ByteView → Prop
  /-- The main cache holds good values only. -/
  trusts : Trace g → State → Prop
  /-- The goroutines whose reads are meant. -/
  reads : Trace g → Nat → Prop
  /-- The singleflight calls that are meant. -/
  calls : Trace g → Nat → Prop

namespace Scope

variable {S : Scope g} {call : Call}

/-- All values that a read in the scope can get are good. -/
structure Inv (S : Scope g) (k : GoString) (tr : Trace g) (σ : State) : Prop where
  main : S.trusts tr σ → ∀ v, σ.main.live σ.clock k = some v → S.good tr v
  decided : ∀ t s c v, (locOf tr t).held = some (k, s) →
    ((locOf tr t).stage = .decided c (.ok (.ok v)) ∨
      (locOf tr t).stage = .removed c (.ok (.ok v))) → S.calls tr c → S.good tr v
  done : ∀ t c v, Entered tr t k c → σ.calls c = some (.ok (.ok v)) → S.calls tr c → S.good tr v
  joined : ∀ t c, S.reads tr t → Joined tr t k c → S.calls tr c
  led : ∀ t c, S.reads tr t → Owns tr t k c → S.calls tr c
  out : ∀ t v, S.reads tr t → LocalRead (locOf tr t).out k v → S.good tr v

theorem Inv.start {σ₀ : State} (h₀ : σ₀.Fresh) : S.Inv k [] σ₀ := by
  refine ⟨?_, ?_, ?_, ?_, ?_, ?_⟩
  · intro _ v hv
    obtain ⟨d, hd, -⟩ := Cache.live_eq_some.1 hv
    rw [h₀.main_view] at hd
    cases hd
  · intro t s c v hheld
    cases hheld
  · rintro t c v ⟨i, hi⟩
    cases hi
  · rintro t c _ ⟨s, hs, -⟩
    cases hs
  · rintro t c _ ⟨s, hs, -⟩
    cases hs
  · rintro t v _ (hr | ⟨c, hr | hr⟩) <;> cases hr

/-- What any step has to respect: what is known of a value stays known, a call stays in or out of
the scope, and a goroutine comes into it before it reads. -/
structure Grows (S : Scope g) (k : GoString) (tr : Trace g) (ℓ : Label (node g)) : Prop where
  good : ∀ v, S.good tr v → S.good (ℓ :: tr) v
  calls : ∀ t c, Entered tr t k c → (S.calls (ℓ :: tr) c ↔ S.calls tr c)
  reads : ∀ t, S.reads (ℓ :: tr) t → S.reads tr t ∨
    (locOf (ℓ :: tr) t).held = none ∧ (locOf (ℓ :: tr) t).out = none

/-- What an action of goroutine `x` has to respect. -/
structure Acts (S : Scope g) (k : GoString) (tr : Trace g) (σ : State) (x : Nat)
    (e : Ev groupSig Inp) (σ' : State) : Prop where
  trusts : S.trusts (.act x e :: tr) σ' → S.trusts tr σ ∨ ∀ v, σ'.main.live σ'.clock k ≠ some v
  stored : ∀ v, Stores k v e →
    S.trusts (.act x e :: tr) σ' ∨ (∃ c, Owns tr x k c ∧ S.calls tr c) →
    S.good (.act x e :: tr) v
  looked : e.op = .mainGet k → S.reads tr x → S.trusts tr σ
  loaded : ∀ c, Owns tr x k c → S.calls tr c →
    (∃ s, e.op = .loadBegin s k) ∨ (∃ s n b, e.op = .loadCommit s k n b) → S.trusts tr σ
  enters : ∀ i c, S.reads tr x → e = ⟨.doEnter k, i, .join c⟩ ∨ e = ⟨.doEnter k, i, .lead c⟩ →
    S.calls (.act x e :: tr) c

section Act

variable (hm : MainOk g σ) (hF : Flights tr σ) (hI : S.Inv k tr σ)
  (hg : S.Grows k tr (.act x ⟨o, i, a⟩)) (hA : S.Acts k tr σ x ⟨o, i, a⟩ σ')
  (hallow : Allowed g call (hist tr x) o) (hx : Node.exec g o i σ = some (a, σ'))

include hI hg hx in
/-- What an action finds in a main cache that is trusted is good. -/
theorem good_of_live (ht : S.trusts tr σ) (hv : σ.main.live i.now k = some v) :
    S.good (.act x ⟨o, i, a⟩ :: tr) v :=
  hg.good v (hI.main ht v (Cache.live_mono (exec_clock hx).1 hv))

include hm hI hg hA hx in
theorem main_act (ht : S.trusts (.act x ⟨o, i, a⟩ :: tr) σ')
    (hv : σ'.main.live σ'.clock k = some v) : S.good (.act x ⟨o, i, a⟩ :: tr) v := by
  rcases hA.trusts ht with ht' | hnone
  · rcases live_of_exec hm hx hv with hs | ⟨hv, -⟩
    · exact hA.stored v hs (Or.inl ht)
    · exact hg.good v (hI.main ht' v hv)
  · exact absurd hv (hnone v)

include hm hF hI hg hA hallow hx in
theorem decided_act {s c : Nat} (hheld : (locOf (.act x ⟨o, i, a⟩ :: tr) t).held = some (k, s))
    (hst : (locOf (.act x ⟨o, i, a⟩ :: tr) t).stage = .decided c (.ok (.ok v)) ∨
      (locOf (.act x ⟨o, i, a⟩ :: tr) t).stage = .removed c (.ok (.ok v)))
    (hc : S.calls (.act x ⟨o, i, a⟩ :: tr) c) : S.good (.act x ⟨o, i, a⟩ :: tr) v := by
  -- the goroutine had the result before
  have hold : (locOf tr t).held = some (k, s) →
      ((locOf tr t).stage = .decided c (.ok (.ok v)) ∨
        (locOf tr t).stage = .removed c (.ok (.ok v))) → S.good (.act x ⟨o, i, a⟩ :: tr) v := by
    intro hheld hst
    have hent := hF.entered t k c (owns_of_decided hheld hst)
    exact hg.good v (hI.decided t s c v hheld hst ((hg.calls t c hent).1 hc))
  by_cases htx : x = t
  · subst htx
    have hnext := owns_of_decided hheld hst
    rw [locOf_act_self] at hheld hst
    rcases (hallow.move a).decided (i := i) hheld hst with hd | ⟨hheld, hst⟩
    · have hf : o.onFlights = false := by
        cases o <;> first | rfl | cases hd
      have howns : Owns tr x k c :=
        (atCall_act_of_eq hallow rfl ((hallow.move a).calls_eq hf).2.1).1 hnext
      have hc' := (hg.calls x c (hF.entered x k c howns)).1 hc
      rcases live_of_decides hm.wf hx hd with ⟨s', n, b, heq⟩ | hv
      · cases heq
        exact hA.stored v ⟨rfl, rfl⟩ (Or.inr ⟨c, howns, hc'⟩)
      · refine good_of_live hI hg hx (hA.loaded c howns hc' ?_) hv
        cases o with
        | loadBegin s' key =>
          cases a with
          | hit w =>
            obtain ⟨rfl, -⟩ := hd
            exact Or.inl ⟨s', rfl⟩
          | generation n => cases hd
        | loadCommit s' key n b =>
          have hkey : key = k := by
            cases a with
            | stored w => exact hd.1
            | existing w => exact hd.1
            | miss => cases hd
          subst hkey
          exact Or.inr ⟨s', n, b, rfl⟩
        | _ => cases hd
    · exact hold hheld hst
  · rw [locOf_act_ne htx] at hheld hst
    exact hold hheld hst

include hF hI hg hallow hx in
theorem done_act {c : Nat} (hent : Entered (.act x ⟨o, i, a⟩ :: tr) t k c)
    (hr : σ'.calls c = some (.ok (.ok v))) (hc : S.calls (.act x ⟨o, i, a⟩ :: tr) c) :
    S.good (.act x ⟨o, i, a⟩ :: tr) v := by
  have hF' := hF.act hallow hx
  rcases calls_of_exec hx hr with hold | rfl
  · have hent' := hF.entered_of_calls hF' hold hent
    exact hg.good v (hI.done t c v hent' hold ((hg.calls t c hent').1 hc))
  · obtain ⟨s, hent', hheld, hst⟩ := hF.of_done hF' hallow hent
    exact hg.good v (hI.decided t s c v hheld (Or.inr hst) ((hg.calls t c hent').1 hc))

include hF hI hg hA hallow in
theorem calls_of_joined {c : Nat} (hnow : S.reads (.act x ⟨o, i, a⟩ :: tr) t)
    (hj : Joined (.act x ⟨o, i, a⟩ :: tr) t k c) : S.calls (.act x ⟨o, i, a⟩ :: tr) c := by
  rcases hg.reads t hnow with ht | ⟨hnone, -⟩
  · rcases joined_act hallow hj with hj | ⟨rfl, heq⟩
    · obtain ⟨u, hent⟩ := hF.joined t k c hj
      exact (hg.calls u c hent).2 (hI.joined t c ht hj)
    · exact hA.enters i c ht (Or.inl heq)
  · obtain ⟨s, hs, -⟩ := hj
    rw [hnone] at hs
    cases hs

include hF hI hg hA hallow in
theorem calls_of_owns {c : Nat} (hnow : S.reads (.act x ⟨o, i, a⟩ :: tr) t)
    (ho : Owns (.act x ⟨o, i, a⟩ :: tr) t k c) : S.calls (.act x ⟨o, i, a⟩ :: tr) c := by
  rcases hg.reads t hnow with ht | ⟨hnone, -⟩
  · rcases owns_act hallow ho with ho | ⟨rfl, heq⟩
    · exact (hg.calls t c (hF.entered t k c ho)).2 (hI.led t c ht ho)
    · exact hA.enters i c ht (Or.inr heq)
  · obtain ⟨s, hs, -⟩ := ho
    rw [hnone] at hs
    cases hs

include hm hF hI hg hA hallow hx in
theorem out_act (hnow : S.reads (.act x ⟨o, i, a⟩ :: tr) t)
    (hr : LocalRead (locOf (.act x ⟨o, i, a⟩ :: tr) t).out k v) :
    S.good (.act x ⟨o, i, a⟩ :: tr) v := by
  rcases hg.reads t hnow with ht | ⟨-, hnone⟩
  · have hold : LocalRead (locOf tr t).out k v → S.good (.act x ⟨o, i, a⟩ :: tr) v :=
      fun hr => hg.good v (hI.out t v ht hr)
    by_cases htx : x = t
    · subst htx
      rw [locOf_act_self] at hr
      obtain ⟨-, σ₁, hact, -⟩ := exec_eq_some.1 hx
      cases o with
      | acquireKeyState key => rcases hr with hr | ⟨c, hr | hr⟩ <;> cases hr
      | pickOwner site key =>
        cases site with
        | prepare => rcases hr with hr | ⟨c, hr | hr⟩ <;> cases hr
        | _ => exact hold hr
      | mainGet key =>
        cases a with
        | none => exact hold hr
        | some w =>
          have hans := congrArg Prod.fst (Option.some.inj hact)
          rcases hr with hr | ⟨c, hr | hr⟩ <;> cases hr
          refine good_of_live hI hg hx (hA.looked rfl ht) ?_
          rw [← Cache.get_fst hm.wf]
          exact hans
      | doWait c' =>
        obtain ⟨key, s, hheld, hst⟩ := hallow
        change (locOf tr x).held = _ at hheld
        change (locOf tr x).stage = _ at hst
        simp only [Loc.next, Loc.nextOut, hheld, Option.map_some, Option.some_or] at hr
        rcases hr with hr | ⟨c, hr | hr⟩ <;> cases hr
        obtain ⟨r, hr, heq⟩ := Option.map_eq_some_iff.1 hact
        cases heq
        have hj : Joined tr x k c' := ⟨s, hheld, by rw [hst]; rfl⟩
        obtain ⟨u', hent⟩ := hF.joined x k c' hj
        exact hg.good v (hI.done u' c' v hent hr (hI.joined x c' ht hj))
      | doDone c' r =>
        obtain ⟨key, s, hheld, hst⟩ := hallow
        change (locOf tr x).held = _ at hheld
        change (locOf tr x).stage = _ at hst
        simp only [Loc.next, Loc.nextOut, hheld, Option.map_some, Option.some_or] at hr
        rcases hr with hr | ⟨c, hr | hr⟩ <;> cases hr
        have ho : Owns tr x k c' := owns_of_decided hheld (Or.inr hst)
        exact hg.good v (hI.decided x s c' v hheld (Or.inr hst) (hI.led x c' ht ho))
      | _ => exact hold hr
    · rw [locOf_act_ne htx] at hr
      exact hold hr
  · rw [hnone] at hr
    rcases hr with hr | ⟨c, hr | hr⟩ <;> cases hr

include hm hF hI hg hA hallow hx in
/-- **An action keeps the values good.** -/
theorem Inv.act : S.Inv k (.act x ⟨o, i, a⟩ :: tr) σ' where
  main := fun ht _ hv => main_act hm hI hg hA hx ht hv
  decided := fun _ _ _ _ hheld hst hc => decided_act hm hF hI hg hA hallow hx hheld hst hc
  done := fun _ _ _ hent hr hc => done_act hF hI hg hallow hx hent hr hc
  joined := fun _ _ ht hj => calls_of_joined hF hI hg hA hallow ht hj
  led := fun _ _ ht ho => calls_of_owns hF hI hg hA hallow ht ho
  out := fun _ _ ht hr => out_act hm hF hI hg hA hallow hx ht hr

end Act

/-- A step without an action keeps the values good. -/
theorem Inv.other {ℓ : Label (node g)} (hF : Flights tr σ) (hI : S.Inv k tr σ)
    (hg : S.Grows k tr ℓ) (hℓ : ∀ t e, ℓ ≠ .act t e) (hl : ∀ t, locOf (ℓ :: tr) t = locOf tr t)
    (ht : S.trusts (ℓ :: tr) σ' → S.trusts tr σ)
    (hm : ∀ v, σ'.main.live σ'.clock k = some v → σ.main.live σ.clock k = some v)
    (hc : σ'.calls = σ.calls) : S.Inv k (ℓ :: tr) σ' := by
  refine ⟨?_, ?_, ?_, ?_, ?_, ?_⟩
  · intro htrust v hv
    exact hg.good v (hI.main (ht htrust) v (hm v hv))
  · intro t s c v hheld hst hcalls
    rw [hl] at hheld hst
    have hent := hF.entered t k c (owns_of_decided hheld hst)
    exact hg.good v (hI.decided t s c v hheld hst ((hg.calls t c hent).1 hcalls))
  · rintro t c v ⟨i, hi⟩ hr hcalls
    rcases List.mem_cons.1 hi with heq | hi
    · exact absurd heq.symm (hℓ _ _)
    · rw [hc] at hr
      have hent : Entered tr t k c := ⟨i, hi⟩
      exact hg.good v (hI.done t c v hent hr ((hg.calls t c hent).1 hcalls))
  · rintro t c hreads ⟨s, hs, hj⟩
    rcases hg.reads t hreads with hreads | ⟨hnone, -⟩
    · rw [hl] at hs hj
      have hj : Joined tr t k c := ⟨s, hs, hj⟩
      obtain ⟨u, hent⟩ := hF.joined t k c hj
      exact (hg.calls u c hent).2 (hI.joined t c hreads hj)
    · rw [hnone] at hs
      cases hs
  · rintro t c hreads ⟨s, hs, ho⟩
    rcases hg.reads t hreads with hreads | ⟨hnone, -⟩
    · rw [hl] at hs ho
      have ho : Owns tr t k c := ⟨s, hs, ho⟩
      exact (hg.calls t c (hF.entered t k c ho)).2 (hI.led t c hreads ho)
    · rw [hnone] at hs
      cases hs
  · intro t v hreads hr
    rcases hg.reads t hreads with hreads | ⟨-, hnone⟩
    · rw [hl] at hr
      exact hg.good v (hI.out t v hreads hr)
    · rw [hnone] at hr
      rcases hr with hr | ⟨c, hr | hr⟩ <;> cases hr

/-- The scope that takes in every read and every call. -/
def all (good : Trace g → ByteView → Prop) : Scope g where
  good := good
  trusts := fun _ _ => True
  reads := fun _ _ => True
  calls := fun _ _ => True

end Scope

/-- **What every store guarantees, every local read gets.** -/
theorem Run.reads_good {G : Guard (node g)} {σ₀ : State} (h₀ : σ₀.Fresh)
    (good : Trace g → ByteView → Prop) (hcons : ∀ tr ℓ v, good tr v → good (ℓ :: tr) v)
    (hstored : ∀ tr σ x call o i a σ' v, G tr σ (.act x ⟨o, i, a⟩) σ' →
      Allowed g call (hist tr x) o → Node.exec g o i σ = some (a, σ') → Stores k v ⟨o, i, a⟩ →
      good (.act x ⟨o, i, a⟩ :: tr) v) {c : Config (node g)} (h : Run G σ₀ c tr) :
    (Scope.all good).Inv k tr c.state := by
  have hgrows : ∀ tr ℓ, (Scope.all good).Grows k tr ℓ := fun tr ℓ =>
    ⟨hcons tr ℓ, fun _ _ _ => Iff.rfl, fun _ _ => Or.inl trivial⟩
  refine (h.guarded (I := fun tr σ => MainOk g σ ∧ Flights tr σ)
    fun h => ⟨Run.mainOk h₀ h, Run.flights h₀ h⟩).inv (P := protocol g) ⟨?_, ?_, ?_, ?_, ?_⟩
  · exact Scope.Inv.start h₀
  · intro tr σ t call hI hG _ _
    exact hI.other hG.2.1.2 (hgrows _ _) (fun _ _ h => by cases h) (fun _ => rfl)
      (fun _ => trivial) (fun _ h => h) rfl
  · intro tr σ x call o i a σ' hI hG _ hallow hx
    refine hI.act hG.2.1.1 hG.2.1.2 (hgrows _ _) ?_ hallow hx
    refine ⟨fun _ => Or.inl trivial, ?_, fun _ _ => trivial, fun _ _ _ _ => trivial,
      fun _ _ _ _ => trivial⟩
    intro v hs _
    exact hstored tr σ x call o i a σ' v hG.1 hallow hx hs
  · intro tr σ t call r hI hG _ _
    exact hI.other hG.2.1.2 (hgrows _ _) (fun _ _ h => by cases h) (fun _ => rfl)
      (fun _ => trivial) (fun _ h => h) rfl
  · intro tr σ ev σ' hI hG hx
    exact hI.other hG.2.1.2 (hgrows _ _) (fun _ _ h => by cases h) (fun _ => rfl)
      (fun _ => trivial) (fun v hv => live_of_env hG.2.1.1 hx hv) (env_frame hx).flights.2.1

end Locache
