import Locache.Process

/-!
# The registry of groups

What keeps the registry right is what each goroutine has still to do: a group in the registry is
closed only while its `Close` has yet to take it out, and a group outside is open only while the
`NewGroup` that took its place has yet to close it (`Sound`). So when no call that changes the
registry is in progress it has the open groups and no others (`registry_settled`).
-/

namespace Locache.Process

open Conc

/-! ## The registry and what is left to do -/

abbrev Trace := List (Label process)

/-- What is left to goroutine `t`. -/
def dutyOf (tr : Trace) (t : Nat) : Duty := duty (hist tr t)

/-- How the registry and the marks of the groups go with what is left to the goroutines. -/
structure Sound (tr : Trace) (π : Process) : Prop where
  known : ∀ t, ∀ g ∈ (dutyOf tr t).known, g < π.next
  called : ∀ t g c, callOf tr t = some (.on g c) → g < π.next
  mutates : ∀ t call, callOf tr t = some call → (dutyOf tr t).stage ≠ .idle → call.Mutates
  entry : ∀ name g, π.groups.lookup name = some g → g < π.next ∧ (π.cfg g).name = name
  registered : ∀ g < π.next,
    (π.heap g).registered = true ↔ π.groups.lookup (π.cfg g).name = some g
  closing : ∀ t g, (dutyOf tr t).stage = .closing g → g < π.next ∧ (π.heap g).closed = true
  half : ∀ name g, π.groups.lookup name = some g → (π.heap g).closed = true →
    ∃ t, (dutyOf tr t).stage = .closing g
  lost : ∀ g < π.next, (π.heap g).closed = false → π.groups.lookup (π.cfg g).name ≠ some g →
    ∃ t, (dutyOf tr t).stage = .displaced g

variable {tr : Trace} {π π' : Process} {t g : Nat} {e : Ev sig Inp} {call : Call}

theorem dutyOf_act_self : dutyOf (.act t e :: tr) t = (dutyOf tr t).step e := by
  rw [dutyOf, hist_act_self, duty, dutyOf]

theorem dutyOf_act_ne {u : Nat} (h : u ≠ t) : dutyOf (.act t e :: tr) u = dutyOf tr u := by
  rw [dutyOf, hist_act_ne (Ne.symm h), dutyOf]

namespace Sound

/-- One goroutine acts, and `d` is left to it. -/
theorem move {d : Duty} (h : Sound tr π) (hcall : callOf tr t = some call)
    (hd : (dutyOf tr t).step e = d) (hnext : π.next ≤ π'.next)
    (hknown : ∀ g ∈ d.known, g < π'.next) (hmut : d.stage ≠ .idle → call.Mutates)
    (hentry : ∀ name g, π'.groups.lookup name = some g → g < π'.next ∧ (π'.cfg g).name = name)
    (hregistered : ∀ g < π'.next,
      (π'.heap g).registered = true ↔ π'.groups.lookup (π'.cfg g).name = some g)
    (hclosed : ∀ g < π.next, (π.heap g).closed = true → (π'.heap g).closed = true)
    (hclosing : ∀ g, d.stage = .closing g → g < π'.next ∧ (π'.heap g).closed = true)
    (hhalf : ∀ name g, π'.groups.lookup name = some g → (π'.heap g).closed = true →
      d.stage = .closing g ∨ ∃ u, u ≠ t ∧ (dutyOf tr u).stage = .closing g)
    (hlost : ∀ g < π'.next, (π'.heap g).closed = false →
      π'.groups.lookup (π'.cfg g).name ≠ some g →
      d.stage = .displaced g ∨ ∃ u, u ≠ t ∧ (dutyOf tr u).stage = .displaced g) :
    Sound (.act t e :: tr) π' := by
  have hself : dutyOf (.act t e :: tr) t = d := dutyOf_act_self.trans hd
  have hstage : ∀ s, d.stage = s ∨ (∃ u, u ≠ t ∧ (dutyOf tr u).stage = s) →
      ∃ u, (dutyOf (.act t e :: tr) u).stage = s := by
    rintro s (hs | ⟨u, hu, hs⟩)
    · exact ⟨t, hself ▸ hs⟩
    · exact ⟨u, (congrArg Duty.stage (dutyOf_act_ne hu)).trans hs⟩
  refine ⟨?_, ?_, ?_, hentry, hregistered, ?_, ?_, ?_⟩
  · intro u g hg
    by_cases hu : u = t
    · subst hu
      rw [hself] at hg
      exact hknown g hg
    · rw [dutyOf_act_ne hu] at hg
      exact Nat.lt_of_lt_of_le (h.known u g hg) hnext
  · exact fun u g c hc => Nat.lt_of_lt_of_le (h.called u g c hc) hnext
  · intro u call' hcall' hs
    by_cases hu : u = t
    · subst hu
      rw [hself] at hs
      cases hcall.symm.trans hcall'
      exact hmut hs
    · rw [dutyOf_act_ne hu] at hs
      exact h.mutates u call' hcall' hs
  · intro u g hs
    by_cases hu : u = t
    · subst hu
      rw [hself] at hs
      exact hclosing g hs
    · rw [dutyOf_act_ne hu] at hs
      obtain ⟨hlt, hc⟩ := h.closing u g hs
      exact ⟨Nat.lt_of_lt_of_le hlt hnext, hclosed g hlt hc⟩
  · exact fun name g hl hc => hstage _ (hhalf name g hl hc)
  · exact fun g hlt hc hl => hstage _ (hlost g hlt hc hl)

/-- Who is left to do something is another goroutine, if this one is not. -/
theorem other {st s : Stage} (hst : (dutyOf tr t).stage = st) (hne : st ≠ s)
    (hex : ∃ u, (dutyOf tr u).stage = s) : ∃ u, u ≠ t ∧ (dutyOf tr u).stage = s := by
  obtain ⟨u, hu⟩ := hex
  refine ⟨u, ?_, hu⟩
  rintro rfl
  exact hne (hst.symm.trans hu)

/-- An action that leaves the registry and the marks alone. -/
theorem stay (h : Sound tr π) (hcall : callOf tr t = some call)
    (hstage : ((dutyOf tr t).step e).stage = (dutyOf tr t).stage)
    (hknown : ∀ g ∈ ((dutyOf tr t).step e).known, g < π.next) (hgroups : π'.groups = π.groups)
    (hcfg : π'.cfg = π.cfg) (hnext : π'.next = π.next)
    (hheap : ∀ g, (π'.heap g).closed = (π.heap g).closed ∧
      (π'.heap g).registered = (π.heap g).registered) : Sound (.act t e :: tr) π' := by
  have hor : ∀ s, (∃ u, (dutyOf tr u).stage = s) →
      (dutyOf tr t).stage = s ∨ ∃ u, u ≠ t ∧ (dutyOf tr u).stage = s := by
    intro s hex
    by_cases hs : (dutyOf tr t).stage = s
    · exact Or.inl hs
    · exact Or.inr (other rfl hs hex)
  refine h.move hcall rfl (Nat.le_of_eq hnext.symm) ?_ ?_ ?_ ?_ ?_ ?_ ?_ ?_
  · rwa [hnext]
  · rw [hstage]
    exact h.mutates t call hcall
  · rw [hgroups, hcfg, hnext]
    exact h.entry
  · intro g
    rw [(hheap g).2, hgroups, hcfg, hnext]
    exact h.registered g
  · intro g _ hc
    rw [(hheap g).1]
    exact hc
  · intro g
    rw [hstage, (hheap g).1, hnext]
    exact h.closing t g
  · intro name g
    rw [hgroups, (hheap g).1, hstage]
    exact fun hl hc => hor _ (h.half name g hl hc)
  · intro g
    rw [hgroups, hcfg, hnext, (hheap g).1, hstage]
    exact fun hlt hc hl => hor _ (h.lost g hlt hc hl)

end Sound

/-! ## The actions -/

theorem displace_closed (old : Option Nat) (heap : Nat → State) (g : Nat) :
    (displace old heap g).closed = (heap g).closed := by
  unfold displace
  split
  · next old =>
    by_cases hg : g = old
    · subst hg
      rw [Function.update_self]
    · rw [Function.update_of_ne hg]
  · rfl

theorem displace_registered (old : Option Nat) (heap : Nat → State) (g : Nat) :
    (displace old heap g).registered = true ↔ old ≠ some g ∧ (heap g).registered = true := by
  unfold displace
  split
  · next old =>
    by_cases hg : g = old
    · subst hg
      simp
    · rw [Function.update_of_ne hg]
      exact ⟨fun h => ⟨fun heq => hg (Option.some.inj heq).symm, h⟩, And.right⟩
  · simp

/-- What an action of a group does. -/
theorem exec_on {o : Locache.Op} {i : Inp} {a : o.Ans}
    (hx : exec (.on g o) i π = some (a, π')) :
    ∃ σ, Group.act (π.cfg g) i (π.heap g) o = some (a, σ) ∧
      π' = π.after g o { σ with clock := i.last } := by
  obtain ⟨⟨b, σ'⟩, hr, heq⟩ := Option.map_eq_some_iff.1 hx
  cases heq
  obtain ⟨-, σ, hact, rfl⟩ := exec_eq_some.1 hr
  exact ⟨σ, hact, rfl⟩

/-- What holds of the group that acted, and of the others, which stay as they are. -/
theorem forall_after {o : Locache.Op} {σ : State} (P : Nat → State → State → Prop)
    (hself : P g (π.heap g) σ) (hother : ∀ g' ≠ g, P g' (π.heap g') (π.heap g')) (g' : Nat) :
    P g' (π.heap g') ((π.after g o σ).heap g') := by
  unfold after
  dsimp only
  by_cases hg : g' = g
  · subst hg
    rw [Function.update_self]
    exact hself
  · rw [Function.update_of_ne hg]
    exact hother g' hg

section Publish

variable {cfg : Cfg} {σ : State}

theorem lookup_publish {name : GoString} : (π.publish cfg σ).groups.lookup name = some g ↔
    (name = cfg.name ∧ g = π.next) ∨ (name ≠ cfg.name ∧ π.groups.lookup name = some g) := by
  by_cases hname : name = cfg.name
  · subst hname
    rw [publish, AList.lookup_insert]
    simp [eq_comm]
  · rw [publish, AList.lookup_insert_ne hname]
    simp [hname]

/-- The new group. -/
theorem publish_new : (π.publish cfg σ).cfg π.next = cfg ∧ (π.publish cfg σ).heap π.next = σ :=
  ⟨Function.update_self .., Function.update_self ..⟩

/-- The groups there were. -/
theorem publish_old (hlt : g < π.next) : (π.publish cfg σ).cfg g = π.cfg g ∧
    ((π.publish cfg σ).heap g).closed = (π.heap g).closed ∧
    (((π.publish cfg σ).heap g).registered = true ↔
      π.groups.lookup cfg.name ≠ some g ∧ (π.heap g).registered = true) := by
  have hne := Nat.ne_of_lt hlt
  unfold publish
  dsimp only
  rw [Function.update_of_ne hne, Function.update_of_ne hne]
  exact ⟨rfl, displace_closed .., displace_registered ..⟩

end Publish

namespace Sound

/-- **`NewGroup` registers a group**, and has still to close the one whose place it took. -/
theorem publish (h : Sound tr π) {cfg : Cfg} {σ : State} {i : Inp}
    (hcall : callOf tr t = some call) (hmut : call.Mutates) (hidle : (dutyOf tr t).stage = .idle)
    (hopen : σ.closed = false) (hreg : σ.registered = true) :
    Sound (.act t ⟨.publish cfg σ, i, (π.next, π.groups.lookup cfg.name)⟩ :: tr)
      (π.publish cfg σ) := by
  have hlt : ∀ {g}, g < (π.publish cfg σ).next → g = π.next ∨ g < π.next :=
    fun hg => (Nat.lt_succ_iff_lt_or_eq.1 hg).symm
  have hstage : ∀ g, π.groups.lookup cfg.name = some g →
      ((dutyOf tr t).step ⟨.publish cfg σ, i, (π.next, π.groups.lookup cfg.name)⟩).stage =
        .displaced g := by
    intro g hg
    rw [hg]
    exact if_neg (Nat.ne_of_lt (h.entry _ _ hg).1)
  have hclosing : ∀ g,
      ((dutyOf tr t).step ⟨.publish cfg σ, i, (π.next, π.groups.lookup cfg.name)⟩).stage ≠
        .closing g := by
    intro g hs
    cases hg : π.groups.lookup cfg.name with
    | none =>
      rw [hg] at hs
      cases hs
    | some old =>
      rw [hstage old hg] at hs
      cases hs
  refine h.move hcall rfl (Nat.le_succ _) ?_ (fun _ => hmut) ?_ ?_ ?_ ?_ ?_ ?_
  · intro g hg
    cases hl : π.groups.lookup cfg.name with
    | none =>
      rw [hl] at hg
      cases hg
    | some old =>
      rw [hl] at hg
      cases List.mem_singleton.1 hg
      exact Nat.lt_succ_of_lt (h.entry _ _ hl).1
  · intro name g hl
    rcases lookup_publish.1 hl with ⟨rfl, rfl⟩ | ⟨-, hl⟩
    · exact ⟨Nat.lt_succ_self _, congrArg Cfg.name publish_new.1⟩
    · obtain ⟨hlt, hname⟩ := h.entry name g hl
      exact ⟨Nat.lt_succ_of_lt hlt, (congrArg Cfg.name (publish_old hlt).1).trans hname⟩
  · intro g hg
    rw [lookup_publish]
    rcases hlt hg with rfl | hg
    · rw [publish_new.1, publish_new.2]
      exact ⟨fun _ => Or.inl ⟨rfl, rfl⟩, fun _ => hreg⟩
    · rw [(publish_old hg).2.2, (publish_old hg).1, h.registered g hg]
      have hne := Nat.ne_of_lt hg
      constructor
      · rintro ⟨hold', hl⟩
        refine Or.inr ⟨?_, hl⟩
        intro hname
        exact hold' (hname ▸ hl)
      · rintro (⟨-, heq⟩ | ⟨hname, hl⟩)
        · exact absurd heq hne
        · exact ⟨fun hl' => hname (h.entry _ _ hl').2, hl⟩
  · intro g hg hc
    rw [(publish_old hg).2.1]
    exact hc
  · exact fun g hs => absurd hs (hclosing g)
  · intro name g hl hc
    rcases lookup_publish.1 hl with ⟨rfl, rfl⟩ | ⟨-, hl⟩
    · rw [publish_new.2, hopen] at hc
      cases hc
    · rw [(publish_old (h.entry _ _ hl).1).2.1] at hc
      exact Or.inr (other hidle (by rintro ⟨⟩) (h.half name g hl hc))
  · intro g hg hc hl
    rw [Ne, lookup_publish, not_or] at hl
    rcases hlt hg with rfl | hg
    · exact absurd ⟨congrArg Cfg.name publish_new.1, rfl⟩ hl.1
    · rw [(publish_old hg).1] at hl
      rw [(publish_old hg).2.1] at hc
      by_cases hwas : π.groups.lookup (π.cfg g).name = some g
      · left
        apply hstage
        by_cases hname : (π.cfg g).name = cfg.name
        · exact hname ▸ hwas
        · exact absurd ⟨hname, hwas⟩ hl.2
      · exact Or.inr (other hidle (by rintro ⟨⟩) (h.lost g hg hc hwas))

/-- **`Close` marks its group**, or finds that another `Close` has done so. -/
theorem cas (h : Sound tr π) {i : Inp} {won : Bool}
    (hcall : callOf tr t = some call) (hmut : call.Mutates)
    (hstage : (dutyOf tr t).stage = .idle ∨ (dutyOf tr t).stage = .displaced g)
    (hg : call = .on g .close ∨ g ∈ (dutyOf tr t).known)
    (hx : exec (.on g .casClosed) i π = some (won, π')) :
    Sound (.act t ⟨.on g .casClosed, i, won⟩ :: tr) π' := by
  obtain ⟨σ, hact, rfl⟩ := exec_on hx
  obtain ⟨rfl, rfl⟩ := Prod.mk.inj (Option.some.inj hact)
  have hlt : g < π.next := by
    rcases hg with rfl | hg
    · exact h.called t g _ hcall
    · exact h.known t g hg
  have hclosed := forall_after (π := π) (g := g) (o := .casClosed)
    (σ := { π.heap g with closed := true, clock := i.last })
    (fun g' s s' => s'.closed = true ↔ g' = g ∨ s.closed = true) (by simp) fun g' hne => by
      simp [hne]
  have hreg := forall_after (π := π) (g := g) (o := .casClosed)
    (σ := { π.heap g with closed := true, clock := i.last })
    (fun _ s s' => s'.registered = s.registered) rfl fun _ _ => rfl
  -- it was not taking another group out, and the only group it had to close is this one
  have hnot : ∀ s, s ≠ .idle → s ≠ .displaced g → (∃ u, (dutyOf tr u).stage = s) →
      ∃ u, u ≠ t ∧ (dutyOf tr u).stage = s := by
    intro s h₁ h₂ hex
    rcases hstage with hst | hst
    · exact other hst (Ne.symm h₁) hex
    · exact other hst (Ne.symm h₂) hex
  refine h.move hcall rfl (Nat.le_refl _) (h.known t) (fun _ => hmut) h.entry ?_ ?_ ?_ ?_ ?_
  · intro g' hg'
    rw [hreg]
    exact h.registered g' hg'
  · exact fun g' _ hc => (hclosed g').2 (Or.inr hc)
  · intro g' hs
    change (if (!(π.heap g).closed) = true then Stage.closing g else .idle) = .closing g' at hs
    split at hs
    · cases hs
      exact ⟨hlt, (hclosed g).2 (Or.inl rfl)⟩
    · cases hs
  · intro name g' hl hc
    by_cases hwas : (π.heap g').closed = true
    · exact Or.inr (hnot _ (by rintro ⟨⟩) (by rintro ⟨⟩) (h.half name g' hl hwas))
    · obtain rfl := ((hclosed g').1 hc).resolve_right hwas
      left
      rw [Bool.not_eq_true] at hwas
      show (if (!(π.heap g').closed) = true then Stage.closing g' else .idle) = .closing g'
      rw [hwas]
      rfl
  · intro g' hg' hc hl
    rw [← Bool.not_eq_true, hclosed, not_or, Bool.not_eq_true] at hc
    refine Or.inr (hnot _ (by rintro ⟨⟩) ?_ (h.lost g' hg' hc.2 hl))
    rintro ⟨⟩
    exact hc.1 rfl

/-- The registry without `g`. -/
theorem lookup_unregister (h : Sound tr π) {name : GoString} {g' : Nat} :
    (π.unregister g).lookup name = some g' ↔ π.groups.lookup name = some g' ∧ g' ≠ g := by
  unfold unregister
  split
  · next hg =>
    by_cases hname : name = (π.cfg g).name
    · subst hname
      rw [AList.lookup_erase, hg]
      constructor
      · rintro ⟨⟩
      · rintro ⟨heq, hne⟩
        exact absurd (Option.some.inj heq).symm hne
    · rw [AList.lookup_erase_ne hname]
      refine ⟨fun hl => ⟨hl, ?_⟩, And.left⟩
      rintro rfl
      exact hname (h.entry _ _ hl).2.symm
  · next hg =>
    refine ⟨fun hl => ⟨hl, ?_⟩, And.left⟩
    rintro rfl
    obtain ⟨-, rfl⟩ := h.entry _ _ hl
    exact hg hl

/-- **`Close` takes its group out of the registry**, if it is still there. -/
theorem unregister (h : Sound tr π) {i : Inp} {a : Unit} (hcall : callOf tr t = some call)
    (hstage : (dutyOf tr t).stage = .closing g)
    (hx : exec (.on g .unregister) i π = some (a, π')) :
    Sound (.act t ⟨.on g .unregister, i, a⟩ :: tr) π' := by
  obtain ⟨σ, hact, rfl⟩ := exec_on hx
  obtain ⟨-, rfl⟩ := Prod.mk.inj (Option.some.inj hact)
  obtain ⟨-, hgclosed⟩ := h.closing t g hstage
  have hclosed := forall_after (π := π) (g := g) (o := .unregister)
    (σ := { π.heap g with registered := false, clock := i.last })
    (fun _ s s' => s'.closed = s.closed) rfl fun _ _ => rfl
  have hreg := forall_after (π := π) (g := g) (o := .unregister)
    (σ := { π.heap g with registered := false, clock := i.last })
    (fun g' s s' => s'.registered = true ↔ s.registered = true ∧ g' ≠ g) (by simp) fun g' hne => by
      simp [hne]
  refine h.move hcall rfl (Nat.le_refl _) (h.known t) (fun hs => absurd rfl hs) ?_ ?_ ?_ ?_ ?_ ?_
  · exact fun name g' hl => h.entry name g' (h.lookup_unregister.1 hl).1
  · intro g' hg'
    rw [hreg, h.registered g' hg']
    exact h.lookup_unregister.symm
  · intro g' _ hc
    rw [hclosed]
    exact hc
  · rintro g' ⟨⟩
  · intro name g' hl hc
    rw [hclosed] at hc
    obtain ⟨hl, hne⟩ := h.lookup_unregister.1 hl
    refine Or.inr (other hstage ?_ (h.half name g' hl hc))
    rintro ⟨⟩
    exact hne rfl
  · intro g' hg' hc hl
    rw [hclosed] at hc
    have hne : g' ≠ g := by
      rintro rfl
      rw [hgclosed] at hc
      cases hc
    refine Or.inr (other hstage (by rintro ⟨⟩) (h.lost g' hg' hc fun hl' => hl ?_))
    exact h.lookup_unregister.2 ⟨hl', hne⟩

/-- The other actions of a group. -/
theorem other_on (h : Sound tr π) {o : Locache.Op} {i : Inp} {a : o.Ans}
    (hcas : o ≠ .casClosed) (hunreg : o ≠ .unregister) (hcall : callOf tr t = some call)
    (hx : exec (.on g o) i π = some (a, π')) : Sound (.act t ⟨.on g o, i, a⟩ :: tr) π' := by
  obtain ⟨σ, hact, rfl⟩ := exec_on hx
  obtain ⟨hclosed, hreg⟩ := open_of_act hact
  have hstep := (dutyOf tr t).step_on (g := g) hcas hunreg i a
  refine h.stay hcall (congrArg Duty.stage hstep) ?_ ?_ rfl rfl ?_
  · rw [hstep]
    exact h.known t
  · unfold after
    cases o with
    | unregister => exact absurd rfl hunreg
    | _ => rfl
  · exact forall_after
      (fun _ s s' => s'.closed = s.closed ∧ s'.registered = s.registered)
      ⟨hclosed hcas, hreg hunreg⟩ fun _ _ => ⟨rfl, rfl⟩

/-- **One action.** -/
theorem act (h : Sound tr π) {o : Op} {i : Inp} {a : o.Ans} (hcall : callOf tr t = some call)
    (hallow : Allowed call (hist tr t) o) (hx : exec o i π = some (a, π')) :
    Sound (.act t ⟨o, i, a⟩ :: tr) π' := by
  have hsame : ∀ g, (π.heap g).closed = (π.heap g).closed ∧
      (π.heap g).registered = (π.heap g).registered := fun _ => ⟨rfl, rfl⟩
  cases o with
  | publish cfg σ =>
    cases hx
    obtain ⟨hmut, hidle, hopen, hreg⟩ := hallow
    exact h.publish hcall hmut hidle hopen hreg
  | lookup name =>
    cases hx
    refine h.stay hcall rfl ?_ rfl rfl rfl hsame
    intro g hg
    exact (h.entry name g (Option.mem_toList.1 hg)).1
  | snapshot =>
    cases hx
    refine h.stay hcall rfl ?_ rfl rfl rfl hsame
    intro g hg
    obtain ⟨name, -, hl⟩ := List.mem_filterMap.1 hg
    exact (h.entry name g hl).1
  | deref g =>
    cases hx
    exact h.stay hcall rfl (h.known t) rfl rfl rfl hsame
  | on g o =>
    by_cases hcas : o = .casClosed
    · subst hcas
      obtain ⟨hmut, hstage, hg⟩ := hallow
      exact h.cas hcall hmut hstage hg hx
    by_cases hunreg : o = .unregister
    · subst hunreg
      exact h.unregister hcall hallow hx
    · exact h.other_on hcas hunreg hcall hx

theorem start (h₀ : π.Empty) : Sound [] π := by
  have hnone : ∀ name g, π.groups.lookup name ≠ some g := by
    intro name g hl
    rw [h₀.groups] at hl
    cases hl
  have hnext : ∀ g, ¬ g < π.next := by
    intro g hg
    rw [h₀.next] at hg
    cases hg
  refine ⟨?_, ?_, ?_, ?_, ?_, ?_, ?_, ?_⟩
  · rintro t g ⟨⟩
  · rintro t g c ⟨⟩
  · rintro t call ⟨⟩
  · exact fun name g hl => absurd hl (hnone name g)
  · exact fun g hg => absurd hg (hnext g)
  · rintro t g ⟨⟩
  · exact fun name g hl => absurd hl (hnone name g)
  · exact fun g hg => absurd hg (hnext g)

/-- A call begins; nothing is left to it yet. -/
theorem spawn (h : Sound tr π) (hcalled : ∀ g c, call = .on g c → g < π.next)
    (hnil : hist tr t = []) : Sound (.spawn t call :: tr) π := by
  refine ⟨h.known, ?_, ?_, h.entry, h.registered, h.closing, h.half, h.lost⟩
  · intro u g c hc
    by_cases hu : t = u
    · subst hu
      rw [callOf_spawn_self] at hc
      exact hcalled g c (Option.some.inj hc)
    · rw [callOf_spawn_ne hu] at hc
      exact h.called u g c hc
  · intro u call' hc hs
    by_cases hu : t = u
    · subst hu
      refine absurd ?_ hs
      show (duty (hist tr t)).stage = _
      rw [hnil]
      rfl
    · rw [callOf_spawn_ne hu] at hc
      exact h.mutates u call' hc hs

theorem ret (h : Sound tr π) {r : Except Panic Res} : Sound (.ret t r :: tr) π :=
  ⟨h.known, h.called, h.mutates, h.entry, h.registered, h.closing, h.half, h.lost⟩

/-- What a group does on its own account leaves its marks alone. -/
theorem env (h : Sound tr π) {v : Nat × Event} (hx : Process.env v π = some π') :
    Sound (.env v :: tr) π' := by
  obtain ⟨g, e⟩ := v
  obtain ⟨σ, hσ, rfl⟩ := Option.map_eq_some_iff.1 hx
  have hheap : ∀ g', (Function.update π.heap g σ g').closed = (π.heap g').closed ∧
      (Function.update π.heap g σ g').registered = (π.heap g').registered := by
    intro g'
    by_cases hg : g' = g
    · subst hg
      rw [Function.update_self]
      rcases env_cases hσ with ⟨T, -, -, rfl⟩ | ⟨shard, order, now, -, -, rfl⟩ |
        ⟨shard, order, now, -, -, rfl⟩ <;> exact ⟨rfl, rfl⟩
    · rw [Function.update_of_ne hg]
      exact ⟨rfl, rfl⟩
  refine ⟨h.known, h.called, h.mutates, h.entry, ?_, ?_, ?_, ?_⟩
  · intro g' hg'
    rw [(hheap g').2]
    exact h.registered g' hg'
  · intro t g' hs
    rw [(hheap g').1]
    exact h.closing t g' hs
  · intro name g' hl hc
    rw [(hheap g').1] at hc
    exact h.half name g' hl hc
  · intro g' hg' hc hl
    rw [(hheap g').1] at hc
    exact h.lost g' hg' hc hl

end Sound

/-- **The registry and the goroutines go together** in every run. -/
theorem Run.sound {σ₀ : Process} (h₀ : σ₀.Empty) {c : Config process}
    (h : Run Published σ₀ c tr) : Sound tr c.state := by
  refine h.inv (P := protocol) (I := Sound) ⟨.start h₀, ?_, ?_, fun hI _ _ _ => hI.ret, ?_⟩
  · intro tr π t call hI hguard _ hnil
    refine hI.spawn ?_ hnil
    rintro g c rfl
    exact hguard t g c rfl
  · exact fun hI _ hcall hallow hx => hI.act hcall hallow hx
  · exact fun hI _ hx => hI.env hx

/-- The registry has the open groups, each under its own name, and no others. -/
structure Settled (π : Process) : Prop where
  entry : ∀ name g, π.groups.lookup name = some g →
    (π.cfg g).name = name ∧ (π.heap g).closed = false
  other : ∀ g < π.next, π.groups.lookup (π.cfg g).name ≠ some g → (π.heap g).closed = true

/-- How a name loses its group: another one takes its place, or its own `Close` takes it out. -/
inductive Leaves (π : Process) (name : GoString) (g : Nat) : Label process → Process → Prop where
  | replaced {t : Nat} {cfg : Cfg} {σ : State} {i : Inp} {π' : Process} (hname : cfg.name = name)
      (hnew : π'.groups.lookup name = some π.next) :
      Leaves π name g (.act t ⟨.publish cfg σ, i, (π.next, some g)⟩) π'
  | closed {t : Nat} {i : Inp} {π' : Process} (hclosed : (π.heap g).closed = true) :
      Leaves π name g (.act t ⟨.on g .unregister, i, ()⟩) π'

/-- A goroutine with something left to do is running, and runs a call that changes the registry. -/
theorem Run.mutating {σ₀ : Process} (h₀ : σ₀.Empty) {c : Config process}
    (h : Run Published σ₀ c tr) (hs : (dutyOf tr t).stage ≠ .idle) :
    ∃ p call, c.threads t = some p ∧ callOf tr t = some call ∧ call.Mutates := by
  cases hp : c.threads t with
  | none =>
    refine absurd ?_ hs
    rcases h.idle_or_ended protocol hp with hnil | ⟨call, r, hend⟩
    · rw [dutyOf, hnil]
      rfl
    · exact hend
  | some p =>
    obtain ⟨call, hcall, -⟩ := h.thread hp
    exact ⟨p, call, rfl, hcall, (Run.sound h₀ h).mutates t call hcall hs⟩

theorem Run.leaves {σ₀ : Process} (h₀ : σ₀.Empty) {c c' : Config process}
    (h : Run Published σ₀ c tr) {cmd : Cmd process} {ℓ : Label process}
    (hstep : c.step cmd = some (ℓ, c')) {name : GoString}
    (hl : c.state.groups.lookup name = some g) :
    c'.state.groups.lookup name = some g ∨ Leaves c.state name g ℓ c'.state := by
  have hS := Run.sound h₀ h
  cases hsteps : Config.steps_of_step hstep with
  | spawn call => exact Or.inl hl
  | ret ht => exact Or.inl hl
  | raise ht => exact Or.inl hl
  | env hx =>
    obtain ⟨σ, -, rfl⟩ := Option.map_eq_some_iff.1 hx
    exact Or.inl hl
  | @act u o k i a π' ht hx =>
    obtain ⟨call, hcall, hallow, -⟩ := h.of_act protocol hstep
    cases o with
    | publish cfg σ =>
      cases hx
      by_cases hname : name = cfg.name
      · subst hname
        rw [hl]
        exact Or.inr (.replaced rfl (AList.lookup_insert ..))
      · exact Or.inl ((AList.lookup_insert_ne hname).trans hl)
    | lookup name' =>
      cases hx
      exact Or.inl hl
    | snapshot =>
      cases hx
      exact Or.inl hl
    | deref g' =>
      cases hx
      exact Or.inl hl
    | on g' o =>
      obtain ⟨σ, hact, rfl⟩ := exec_on hx
      cases o with
      | unregister =>
        by_cases hg : g = g'
        · subst hg
          exact Or.inr (.closed (hS.closing u g hallow).2)
        · exact Or.inl (hS.lookup_unregister.2 ⟨hl, hg⟩)
      | _ => exact Or.inl hl

/-- **The registry settles.** In any interleaving of `NewGroup`, `Close`, `DestroyGroup` and
`DestroyAllGroups`, and of any other calls of the groups: whenever none of the four is in progress,
the registry has exactly the open groups, each under its own name. A group leaves the registry only
when another one takes its place or when it is closed itself, never with the group that it replaced;
and at any time a group takes itself for registered iff it is. -/
theorem registry_settled {σ₀ : Process} (h₀ : σ₀.Empty) {c : Config process}
    (h : Run Published σ₀ c tr) :
    ((∀ t p call, c.threads t = some p → callOf tr t = some call → ¬ call.Mutates) →
      Settled c.state) ∧
    (∀ cmd ℓ c', c.step cmd = some (ℓ, c') →
      ∀ name g, c.state.groups.lookup name = some g →
        c'.state.groups.lookup name = some g ∨ Leaves c.state name g ℓ c'.state) ∧
    ∀ g < c.state.next, (c.state.heap g).registered = true ↔
      c.state.groups.lookup (c.state.cfg g).name = some g := by
  have hS := Run.sound h₀ h
  refine ⟨fun hrest => ?_, fun cmd ℓ c' hstep name g hl => Run.leaves h₀ h hstep hl,
    hS.registered⟩
  have hidle : ∀ t, (dutyOf tr t).stage = .idle := by
    intro t
    by_contra hs
    obtain ⟨p, call, hp, hcall, hmut⟩ := Run.mutating h₀ h hs
    exact hrest t p call hp hcall hmut
  constructor
  · intro name g hl
    refine ⟨(hS.entry name g hl).2, ?_⟩
    rw [← Bool.not_eq_true]
    intro hc
    obtain ⟨t, ht⟩ := hS.half name g hl hc
    rw [hidle t] at ht
    cases ht
  · intro g hg hl
    by_contra hc
    rw [Bool.not_eq_true] at hc
    obtain ⟨t, ht⟩ := hS.lost g hg hc hl
    rw [hidle t] at ht
    cases ht

/-- A process that has just started. -/
def initial : Process := ⟨∅, fun _ => Cfg.solo, fun _ => State.solo, 0⟩

def publishedB (_ : Trace) (π : Process) : Label process → Bool
  | .spawn _ (.on g _) => g < π.next
  | _ => true

/-- A group is replaced while it is being closed: the `Close` that was called on it marks it first,
takes nothing out of the registry, and the replacement stays. -/
theorem replacement_stays : ∃ (c : Config process) (tr : Trace), Run Published initial c tr ∧
    c.state.groups.lookup (ascii "g") = some 1 ∧ (c.state.heap 0).closed = true ∧
    (c.state.heap 1).closed = false ∧ Settled c.state := by
  let make : Cmd process := .spawn (.newGroup .solo (.newLRU 0) (.newLRU 0) .solo 0)
  let run : Nat → Cmd process := fun t => .run t (.fetch [])
  obtain ⟨c, tr, hsteps, hentry, hold, hnew, hnext, h0, h1, h2⟩ : ∃ c tr,
      (Config.start (M := process) initial).stepsIf publishedB []
        [make, run 0, run 0, make, run 1, .spawn (.on 0 .close), run 2, run 2, run 1, run 1, run 1,
          run 2, run 2, run 2] = some (c, tr) ∧
      c.state.groups.lookup (ascii "g") = some 1 ∧ (c.state.heap 0).closed = true ∧
      (c.state.heap 1).closed = false ∧ c.next = 3 ∧ c.threads 0 = none ∧ c.threads 1 = none ∧
      c.threads 2 = none := ⟨_, _, rfl, rfl, rfl, rfl, rfl, rfl, rfl, rfl⟩
  have hrun : Run Published initial c tr := by
    refine Run.stepsIf ?_ .start hsteps
    rintro tr π ℓ π' hok t g call rfl
    exact of_decide_eq_true hok
  have hdone : ∀ t, c.threads t = none := by
    intro t
    by_cases ht : t < 3
    · rcases t with _ | _ | _ | t
      · exact h0
      · exact h1
      · exact h2
      · omega
    · exact (hrun.unused t (hnext ▸ Nat.not_lt.1 ht)).1
  refine ⟨c, tr, hrun, hentry, hold, hnew, ?_⟩
  refine (registry_settled ⟨rfl, rfl⟩ hrun).1 fun t p call hp _ _ => ?_
  rw [hdone t] at hp
  cases hp

end Locache.Process
