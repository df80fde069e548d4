import Locache.Group.Effects

/-!
# The groups of a process

`NewGroup` puts a group into the registry, which has one group a name, and closes the group whose
place it took; `Close` marks the group before it takes it out of the registry, and only if it is
still there; `DestroyGroup` and `DestroyAllGroups` close what they found in the registry earlier. So
closes and replacements of one name can cross. Between its steps a goroutine may have a group to
close, or one to take out of the registry (`Stage`); when its call ends there is nothing left to do
(`prog_follows`).

Every group runs its own programs, those of `Node.prog`, on its own state.
-/

namespace Locache

open Conc Conc.Prog

/-- The registry, and the groups that were put into it. A group that `NewGroup` is still building is
known to nobody else and not among them. -/
structure Process where
  groups : AList fun _ : GoString => Nat
  cfg : Nat → Cfg
  heap : Nat → State
  next : Nat

namespace Process

/-- The steps of a process: the sections under `groupsMu`, and the actions of the groups. -/
inductive Op where
  /-- The section of `NewGroup`. -/
  | publish (cfg : Cfg) (σ : State)
  | lookup (name : GoString)
  /-- The section of `DestroyAllGroups`. -/
  | snapshot
  /-- Reading the fields of a group that never change. -/
  | deref (g : Nat)
  | on (g : Nat) (o : Locache.Op)

@[reducible] def Op.Ans : Op → Type
  | .publish _ _ => Nat × Option Nat
  | .lookup _ => Option Nat
  | .snapshot => List Nat
  | .deref _ => Cfg
  | .on _ o => o.Ans

@[reducible] def sig : Sig := ⟨Op, Op.Ans, Panic⟩

/-- A group loses its place, and the flag by which its own programs see whether it has one. -/
def displace (old : Option Nat) (heap : Nat → State) : Nat → State :=
  match old with
  | some old => Function.update heap old { heap old with registered := false }
  | none => heap

def publish (cfg : Cfg) (σ : State) (π : Process) : Process where
  groups := π.groups.insert cfg.name π.next
  cfg := Function.update π.cfg π.next cfg
  heap := Function.update (displace (π.groups.lookup cfg.name) π.heap) π.next σ
  next := π.next + 1

/-- The section of `Close`. -/
def unregister (g : Nat) (π : Process) : AList fun _ : GoString => Nat :=
  if π.groups.lookup (π.cfg g).name = some g then π.groups.erase (π.cfg g).name else π.groups

/-- The process after an action of the group `g` that leads to `σ`. -/
def after (g : Nat) (o : Locache.Op) (σ : State) (π : Process) : Process :=
  { π with
    groups := match o with
      | .unregister => π.unregister g
      | _ => π.groups
    heap := Function.update π.heap g σ }

def exec : (o : Op) → Inp → Process → Option (o.Ans × Process)
  | .publish cfg σ, _, π => some ((π.next, π.groups.lookup cfg.name), π.publish cfg σ)
  | .lookup name, _, π => some (π.groups.lookup name, π)
  | .snapshot, i, π => some ((rangeKeys i.order π.groups).filterMap π.groups.lookup, π)
  | .deref g, _, π => some (π.cfg g, π)
  | .on g o, i, π => (Node.exec (π.cfg g) o i (π.heap g)).map fun r => (r.1, π.after g o r.2)

/-- What a group does on its own account. -/
def env (e : Nat × Event) (π : Process) : Option Process :=
  (Node.env e.2 (π.heap e.1)).map fun σ => { π with heap := Function.update π.heap e.1 σ }

/-! ## Programs -/

/-- A program of the group `g`. -/
def on {α : Type} (g : Nat) (p : GoProg α) : Prog sig α :=
  p.mapOps (fun o => Op.on g o : groupSig.Op → sig.Op) (fun _ a => a) id

def close (g : Nat) : Prog sig Unit := do
  let cfg ← op (S := sig) (.deref g)
  on g (Group.close cfg)

/-- `NewGroup`, once the options have been applied. -/
def newGroup (cfg : Cfg) (main near : Cache) (T : Topology) (clock : Time) : Prog sig Nat := do
  let (g, old) ← op (S := sig) (.publish cfg (.new main near T clock))
  match old with
  | some old => if old ≠ g then close old
  | none => pure ()
  return g

def getGroup (name : GoString) : Prog sig (Option Nat) := op (S := sig) (.lookup name)

def destroyGroup (name : GoString) : Prog sig Bool := do
  match (← op (S := sig) (.lookup name) : Option Nat) with
  | none => return false
  | some g =>
    close g
    return true

def closeAll : List Nat → Prog sig Unit
  | [] => return ()
  | g :: gs => do
    close g
    closeAll gs

def destroyAllGroups : Prog sig Unit := do
  closeAll (← op (S := sig) .snapshot)

inductive Call where
  | newGroup (cfg : Cfg) (main near : Cache) (T : Topology) (clock : Time)
  | getGroup (name : GoString)
  | destroyGroup (name : GoString)
  | destroyAllGroups
  | on (g : Nat) (call : Locache.Call)

inductive Res where
  | group (g : Option Nat)
  | destroyed (ok : Bool)
  | unit
  | on (r : Locache.Res)

def prog : Call → Prog sig Res
  | .newGroup cfg main near T clock => do return .group (some (← newGroup cfg main near T clock))
  | .getGroup name => do return .group (← getGroup name)
  | .destroyGroup name => do return .destroyed (← destroyGroup name)
  | .destroyAllGroups => do
    destroyAllGroups
    return .unit
  | .on g call => do
    let cfg ← op (S := sig) (.deref g)
    return .on (← on g (Node.prog cfg call))

end Process

/-- A process as a machine. -/
@[reducible] def process : Machine Process.sig where
  State := Process
  Inp := Inp
  Env := Nat × Event
  Call := Process.Call
  Res := Process.Res
  exec := Process.exec
  env := Process.env
  prog := Process.prog

namespace Process

/-- Nothing has been registered yet. -/
structure Empty (π : Process) : Prop where
  groups : π.groups = ∅
  next : π.next = 0

/-- Whoever calls a method of a group has it from `NewGroup` or from the registry. -/
def Published : Guard process := fun _ π ℓ _ =>
  ∀ t g call, ℓ = .spawn t (.on g call) → g < π.next

/-- The calls that change the registry. -/
def Call.Mutates : Call → Prop
  | .newGroup _ _ _ _ _ | .destroyGroup _ | .destroyAllGroups | .on _ .close => True
  | .getGroup _ | .on _ _ => False

/-! ## What a goroutine has still to do -/

inductive Stage where
  | idle
  /-- It took the place of `g` and has yet to close it. -/
  | displaced (g : Nat)
  /-- It has marked `g` as closed and has yet to take it out of the registry. -/
  | closing (g : Nat)

/-- What is left to a goroutine, and the groups that it has from the registry. -/
structure Duty where
  stage : Stage
  known : List Nat

namespace Duty

def step (d : Duty) : Ev sig Inp → Duty
  | ⟨.publish _ _, _, (g, some old)⟩ => ⟨if old = g then .idle else .displaced old, [old]⟩
  | ⟨.publish _ _, _, (_, none)⟩ => ⟨.idle, []⟩
  | ⟨.lookup _, _, g⟩ => { d with known := g.toList }
  | ⟨.snapshot, _, gs⟩ => { d with known := gs }
  | ⟨.on g .casClosed, _, won⟩ => { d with stage := if won then .closing g else .idle }
  | ⟨.on _ .unregister, _, _⟩ => { d with stage := .idle }
  | _ => d

end Duty

abbrev History := List (Ev sig Inp)

def duty : History → Duty
  | [] => ⟨.idle, []⟩
  | e :: h => (duty h).step e

/-- What a goroutine that runs `call` and did `h` may do next. -/
def Allowed (call : Call) (h : History) : Op → Prop
  | .publish _ σ =>
    call.Mutates ∧ (duty h).stage = .idle ∧ σ.closed = false ∧ σ.registered = true
  | .on g .casClosed =>
    call.Mutates ∧ ((duty h).stage = .idle ∨ (duty h).stage = .displaced g) ∧
      (call = .on g .close ∨ g ∈ (duty h).known)
  | .on g .unregister => (duty h).stage = .closing g
  | _ => True

section Follows

variable {call : Call} {h : History} {g : Nat} {o : Locache.Op}

theorem allowed_on (hcas : o ≠ .casClosed) (hunreg : o ≠ .unregister) :
    Allowed call h (.on g o) := by
  cases o with
  | casClosed => exact absurd rfl hcas
  | unregister => exact absurd rfl hunreg
  | _ => trivial

theorem Duty.step_on (d : Duty) (hcas : o ≠ .casClosed) (hunreg : o ≠ .unregister) (i : Inp)
    (a : o.Ans) : d.step ⟨.on g o, i, a⟩ = d := by
  cases o with
  | casClosed => exact absurd rfl hcas
  | unregister => exact absurd rfl hunreg
  | _ => rfl

/-- **`Close`** does what there was to do about its group. -/
theorem on_close_follows (cfg : Cfg) (hmut : call.Mutates)
    (hstage : (duty h).stage = .idle ∨ (duty h).stage = .displaced g)
    (hg : call = .on g .close ∨ g ∈ (duty h).known) :
    (on g (Group.close cfg)).Follows (Allowed call)
      (fun h' _ => (duty h').stage = .idle ∧ (duty h').known = (duty h).known) h := by
  refine ⟨⟨hmut, hstage, hg⟩, fun i won => ?_⟩
  cases won with
  | false => exact ⟨rfl, rfl⟩
  | true =>
    refine ⟨trivial, fun j _ => ?_⟩
    change (on g (if cfg.nearCache = true then _ else _)).Follows _ _ _
    split
    · exact ⟨trivial, fun _ _ => ⟨rfl, fun _ _ => ⟨rfl, rfl⟩⟩⟩
    · exact ⟨rfl, fun _ _ => ⟨rfl, rfl⟩⟩

theorem close_follows (hmut : call.Mutates)
    (hstage : (duty h).stage = .idle ∨ (duty h).stage = .displaced g)
    (hg : g ∈ (duty h).known) :
    (close g).Follows (Allowed call)
      (fun h' _ => (duty h').stage = .idle ∧ (duty h').known = (duty h).known) h :=
  Follows.op_bind trivial fun _ cfg => on_close_follows cfg hmut hstage (Or.inr hg)

theorem closeAll_follows {gs : List Nat} (hmut : call.Mutates) (hstage : (duty h).stage = .idle)
    (hgs : ∀ g ∈ gs, g ∈ (duty h).known) :
    (closeAll gs).Follows (Allowed call) (fun h' _ => (duty h').stage = .idle) h := by
  induction gs generalizing h with
  | nil => exact hstage
  | cons g gs ih =>
    have hclose := close_follows hmut (Or.inl hstage) (hgs g List.mem_cons_self)
    refine hclose.bind (fun h' _ _ hd => ih hd.1 ?_) fun h' _ _ hd => hd.1
    intro g' hg'
    rw [hd.2]
    exact hgs g' (List.mem_cons_of_mem _ hg')

theorem newGroup_follows {cfg : Cfg} {main near : Cache} {T : Topology} {clock : Time}
    (hmut : call.Mutates) (hidle : (duty h).stage = .idle) :
    (newGroup cfg main near T clock).Follows (Allowed call)
      (fun h' _ => (duty h').stage = .idle) h := by
  refine Follows.op_bind ⟨hmut, hidle, rfl, rfl⟩ fun i ans => ?_
  obtain ⟨g, old⟩ := ans
  cases old with
  | none => rfl
  | some old =>
    change (if old ≠ g then _ else _ : Prog sig Nat).Follows _ _ _
    split
    · next hne =>
      have hstage : (duty (⟨.publish cfg (.new main near T clock), i, (g, some old)⟩ :: h)).stage =
          .displaced old := if_neg hne
      have hclose := close_follows hmut (Or.inr hstage) List.mem_cons_self
      exact hclose.bind (fun _ _ _ hd => hd.1) fun _ _ _ hd => hd.1
    · next heq => exact if_pos (not_not.1 heq)

theorem destroyGroup_follows {name : GoString} (hmut : call.Mutates)
    (hstage : (duty h).stage = .idle) :
    (destroyGroup name).Follows (Allowed call) (fun h' _ => (duty h').stage = .idle) h := by
  refine Follows.op_bind trivial fun i found => ?_
  cases found with
  | none => exact hstage
  | some g =>
    have hidle : (duty (⟨.lookup name, i, some g⟩ :: h)).stage = .idle := hstage
    have hclose := close_follows hmut (Or.inl hidle) List.mem_cons_self
    exact hclose.bind (fun _ _ _ hd => hd.1) fun _ _ _ hd => hd.1

theorem destroyAllGroups_follows (hmut : call.Mutates) (hstage : (duty h).stage = .idle) :
    destroyAllGroups.Follows (Allowed call) (fun h' _ => (duty h').stage = .idle) h :=
  Follows.op_bind trivial fun _ _ => closeAll_follows hmut hstage fun _ hg => hg

/-- The other programs of a group leave the registry alone. -/
theorem on_follows {cfg : Cfg} {c : Locache.Call} (hc : c ≠ .close) :
    (on g (Node.prog cfg c)).Follows (Allowed call) (fun h' _ => duty h' = duty h) h := by
  have hop : ∀ (h : Locache.History) o, Locache.Allowed cfg c h o →
      o ≠ .casClosed ∧ o ≠ .unregister := by
    intro h o hallow
    constructor
    · rintro rfl
      exact hc hallow
    · rintro rfl
      exact hc hallow
  refine ((protocol cfg).follows c).mapOps (fun _ h' => duty h' = duty h) rfl ?_ ?_ ?_
  · exact fun h' _ o _ hallow => allowed_on (hop h' o hallow).1 (hop h' o hallow).2
  · intro h' g' o i a hd hallow
    exact ((duty g').step_on (hop h' o hallow).1 (hop h' o hallow).2 i a).trans hd
  · exact fun _ _ _ hd _ => hd

end Follows

/-- **What a goroutine had to do about a group is done when its call ends.** -/
theorem prog_follows (call : Call) :
    (prog call).Follows (Allowed call) (fun h _ => (duty h).stage = .idle) [] := by
  -- the call only wraps the result of a program that has done what it had to
  have hwrap : ∀ {α : Type} {p : Prog sig α} {f : α → Res} {h : History},
      p.Follows (Allowed call) (fun h _ => (duty h).stage = .idle) h →
      (p.bind fun a => .ret (f a)).Follows (Allowed call) (fun h _ => (duty h).stage = .idle) h :=
    fun hp => hp.bind (fun _ _ _ hd => hd) fun _ _ _ hd => hd
  cases call with
  | newGroup cfg main near T clock => exact hwrap (newGroup_follows trivial rfl)
  | getGroup name => exact ⟨trivial, fun _ _ => rfl⟩
  | destroyGroup name => exact hwrap (destroyGroup_follows trivial rfl)
  | destroyAllGroups => exact hwrap (destroyAllGroups_follows trivial rfl)
  | on g c =>
    refine Follows.op_bind trivial fun i cfg => hwrap ?_
    by_cases hc : c = .close
    · subst hc
      change (on g (Prog.bind (Group.close cfg) _)).Follows _ _ _
      unfold on
      rw [mapOps_bind]
      have hmut : Call.Mutates (.on g .close) := trivial
      have hclose := on_close_follows (h := [⟨.deref g, i, cfg⟩]) cfg hmut (Or.inl rfl)
        (Or.inl rfl)
      exact hclose.bind (fun _ _ _ hd => hd.1) fun _ _ _ hd => hd.1
    · exact (on_follows hc).mono (fun _ _ _ hallow => hallow) fun _ _ _ hd =>
        congrArg Duty.stage hd

@[reducible] def protocol : Protocol process where
  allows := Allowed
  ends _ h _ := (duty h).stage = .idle
  follows := prog_follows

end Process

end Locache
