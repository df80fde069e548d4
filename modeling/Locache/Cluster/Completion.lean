import Locache.Cluster
import Locache.Group.Completion
import Locache.Group.Direct
import Locache.Group.Requests

/-!
# No deadlock across nodes

A goroutine that waits for the reply of a peer holds nothing another goroutine could wait for, and a
handler never calls a peer. So a chain of waiting goroutines is short: a caller waits for a handler,
a handler waits for the leader of a load, and a leader waits for the Getter only. In a network that
loses nothing, where every request is served and every reply arrives, all calls on all nodes
therefore return, with no timeout to help (`cluster_completes`).

That the calls come to an end is shown by a measure in three parts: what is left of the callers, the
number of requests that no handler has taken up, and what is left of the handlers.
-/

namespace Locache

open Conc

/-- What the caller is told when the handler has ended with `r`. -/
inductive Answers : Except Panic Res → Except Err Resp → Prop where
  | reply (resp : Resp) : Answers (.ok (.reply (.ok resp))) (.ok resp)
  | error {r : Except Panic Res} (hr : ∀ resp, r ≠ .ok (.reply (.ok resp))) (err : Err) :
      Answers r (.error err)

theorem exists_answers (r : Except Panic Res) : ∃ reply, Answers r reply := by
  by_cases hr : ∃ resp, r = .ok (.reply (.ok resp))
  · obtain ⟨resp, rfl⟩ := hr
    exact ⟨_, .reply resp⟩
  · exact ⟨.error .canceled, .error (not_exists.1 hr) _⟩

def Call.isServe : Call → Bool
  | .serve _ _ => true
  | _ => false

namespace Cluster

variable {ι : Type}

/-- A network that loses nothing: a request is served once, and a call ends when its handler has
ended, or fails if no node has the address. -/
structure Prompt (C : Cluster ι) (tr : C.Log) (a : ι) (ℓ : Label (C.machine a)) : Prop where
  admits : C.admits tr a ℓ = true
  once : ∀ t t' src req, ℓ = .spawn t (.serve src req) → ⟨a, .spawn t' (.serve src req)⟩ ∉ tr
  answered : ∀ t id i reply, ℓ = .act t ⟨.rpcEnd id, i, reply⟩ →
    ∃ addr req j, ⟨a, .act t ⟨.rpcStart addr req, j, id⟩⟩ ∈ tr ∧
      ((∀ b, C.addr b ≠ addr) ∧ (∃ err, reply = .error err) ∨
        ∃ b s r, C.addr b = addr ∧ ⟨b, .spawn s (.serve (C.addr a, id) req)⟩ ∈ tr ∧
          ⟨b, .ret s r⟩ ∈ tr ∧ Answers r reply)

/-- The same as a condition on steps. -/
abbrev Reliable (C : Cluster ι) : NetGuard C.machine := fun tr a _ ℓ _ => C.Prompt tr a ℓ

/-- The nodes of a cluster and what has happened so far. -/
abbrev World (C : Cluster ι) := (∀ a, Config (C.machine a)) × C.Log

variable [DecidableEq ι] {C : Cluster ι} {σ : ι → State} {x x' : C.World} {a b : ι} {t : Nat}

/-- A running goroutine makes a step, or a request is taken up by a handler. -/
def Moves (x x' : C.World) : Prop :=
  ∃ a cmd ℓ c', (x.1 a).step cmd = some (ℓ, c') ∧ C.Prompt x.2 a ℓ ∧
    (ℓ.works = true ∨ ∃ t src req, ℓ = .spawn t (.serve src req)) ∧
    x' = (Function.update x.1 a c', ⟨a, ℓ⟩ :: x.2)

/-- A node learns of another membership, or sweeps a shard. -/
def Drifts (x x' : C.World) : Prop :=
  ∃ a cmd e c', (x.1 a).step cmd = some (.env e, c') ∧
    x' = (Function.update x.1 a c', ⟨a, .env e⟩ :: x.2)

/-- No call is running anywhere. -/
def Quiet (x : C.World) : Prop := ∀ a, (x.1 a).Quiet

/-- The calls that are running come to an end if no others are started. -/
abbrev Completes (x : C.World) : Prop := Conc.Completes (Drifts (C := C)) Moves Quiet x

/-! ## The measure -/

/-- What is left of the programs of all nodes. -/
def running (x : C.World) : ι × Nat → Option (GoProg Res) := fun p => (x.1 p.1).threads p.2

/-- What is left of the calls that are not handlers. -/
def callers (x : C.World) : ι × Nat → Option (GoProg Res) := fun p =>
  if (callOf (localTrace p.1 x.2) p.2).any Call.isServe then none else running x p

/-- A handler has been started for the request. -/
def takenUp (C : Cluster ι) (tr : C.Log) (src : GoString × Nat) (addr : GoString) (req : Req) :
    Bool :=
  tr.any fun y => C.addr y.1 = addr && (startedIn src req y.2).isSome

/-- The request that was sent in a step has not been taken up. -/
def waiting (C : Cluster ι) (tr : C.Log) (y : NetLabel C.machine) : Bool :=
  (sentIn y.2).any fun s => !C.takenUp tr (C.addr y.1, s.id) s.addr s.req

/-- The number of requests that have not been taken up. -/
def pending (C : Cluster ι) (tr : C.Log) : Nat := tr.countP (C.waiting tr)

/-- What every step lowers. -/
def measure (x : C.World) :
    (ι × Nat → Option (GoProg Res)) × Nat × (ι × Nat → Option (GoProg Res)) :=
  (callers x, C.pending x.2, running x)

theorem running_update {c' : Config (C.machine a)} {q : Option (GoProg Res)}
    (hc : c'.threads = Function.update (x.1 a).threads t q) (tr : C.Log) :
    running (C := C) (Function.update x.1 a c', tr) = Function.update (running x) (a, t) q := by
  funext ⟨b, u⟩
  show (Function.update x.1 a c' b).threads u = _
  by_cases hba : b = a
  · subst hba
    rw [Function.update_self, hc]
    by_cases hut : u = t
    · subst hut
      rw [Function.update_self, Function.update_self]
    · rw [Function.update_of_ne hut, Function.update_of_ne (by simp [hut])]
      rfl
  · rw [Function.update_of_ne hba, Function.update_of_ne (by simp [hba])]
    rfl

theorem finite_running [Finite ι] {N : NetGuard C.machine} (h : NetRun N σ x.1 x.2) :
    {p | running x p ≠ none}.Finite := by
  have hnode : ∀ a, ((fun t => (a, t)) '' {t | (x.1 a).threads t ≠ none} : Set (ι × Nat)).Finite :=
    fun a => (Run.finite_threads (run_node h a)).image _
  refine (Set.finite_iUnion hnode).subset ?_
  rintro ⟨a, t⟩ hp
  exact Set.mem_iUnion.2 ⟨a, t, hp, rfl⟩

omit [DecidableEq ι] in
/-- A step that neither sends a request nor takes one up leaves the requests as they are. -/
theorem pending_cons {tr : C.Log} {ℓ : Label (C.machine a)} (hsent : sentIn ℓ = none)
    (hstart : ∀ t src req, ℓ ≠ .spawn t (.serve src req)) :
    C.pending (⟨a, ℓ⟩ :: tr) = C.pending tr := by
  have htaken : ∀ src addr req,
      C.takenUp (⟨a, ℓ⟩ :: tr) src addr req = C.takenUp tr src addr req := by
    intro src addr req
    have hnone : startedIn src req ℓ = none := by
      cases hs : startedIn src req ℓ with
      | none => rfl
      | some s => exact absurd (startedIn_eq_some hs) (hstart _ _ _)
    simp [takenUp, hnone]
  have hwaiting : C.waiting (⟨a, ℓ⟩ :: tr) = C.waiting tr := by
    funext y
    simp only [waiting, htaken]
  rw [pending, hwaiting, List.countP_cons_of_neg]
  · rfl
  · simp [waiting, hsent]

omit [DecidableEq ι] in
/-- A request that is taken up is one less. -/
theorem pending_spawn {tr : C.Log} {src : GoString × Nat} {req : Req}
    (hsent : C.wasSent tr src a req = true)
    (honce : ∀ t', ⟨a, .spawn t' (.serve src req)⟩ ∉ tr) :
    C.pending (⟨a, .spawn t (.serve src req)⟩ :: tr) < C.pending tr := by
  generalize hℓ : (⟨a, .spawn t (.serve src req)⟩ : NetLabel C.machine) = ℓ
  -- what waits afterwards waited before
  have hmono : ∀ y, C.waiting (ℓ :: tr) y = true → C.waiting tr y = true := by
    intro y hy
    obtain ⟨s, hs, hnot⟩ := (Option.any_eq_true _ _).1 hy
    refine (Option.any_eq_true _ _).2 ⟨s, hs, ?_⟩
    simp only [takenUp, List.any_cons, Bool.not_or, Bool.and_eq_true] at hnot
    exact hnot.2
  obtain ⟨b, u, i, hb, hm⟩ := exists_of_wasSent hsent
  have hold : C.waiting tr ⟨b, .act u ⟨.rpcStart (C.addr a) req, i, src.2⟩⟩ = true := by
    simp only [waiting, sentIn, Option.any_some, Bool.not_eq_eq_eq_not, Bool.not_true]
    rw [hb]
    by_contra htaken
    rw [Bool.not_eq_false] at htaken
    obtain ⟨⟨b', ℓ'⟩, hm', hy⟩ := List.any_eq_true.1 htaken
    simp only [Bool.and_eq_true, decide_eq_true_eq] at hy
    obtain ⟨s, hs⟩ := Option.isSome_iff_exists.1 hy.2
    obtain rfl := C.addr_injective hy.1
    obtain rfl := startedIn_eq_some hs
    exact honce s hm'
  have hnew : C.waiting (ℓ :: tr) ⟨b, .act u ⟨.rpcStart (C.addr a) req, i, src.2⟩⟩ = false := by
    simp only [waiting, sentIn, Option.any_some, Bool.not_eq_eq_eq_not, Bool.not_false]
    rw [hb]
    exact List.any_eq_true.2 ⟨ℓ, List.mem_cons_self, by subst hℓ; simp [startedIn]⟩
  obtain ⟨A, B, rfl⟩ := List.append_of_mem hm
  have hhead : C.waiting (ℓ :: (A ++ ⟨b, .act u ⟨.rpcStart (C.addr a) req, i, src.2⟩⟩ :: B)) ℓ
      = false := by
    subst hℓ
    rfl
  have hA := List.countP_mono_left (l := A) fun y _ => hmono y
  have hB := List.countP_mono_left (l := B) fun y _ => hmono y
  unfold pending
  rw [List.countP_cons_of_neg (by rw [hhead]; simp), List.countP_append, List.countP_append,
    List.countP_cons_of_neg (by rw [hnew]; simp), List.countP_cons_of_pos hold]
  omega

/-- A step that starts no goroutine tells nothing new about what the goroutines run. -/
theorem callOf_cons {tr : C.Log} {ℓ : Label (C.machine a)} (hℓ : ∀ t call, ℓ ≠ .spawn t call)
    (b : ι) (u : Nat) : callOf (localTrace b (⟨a, ℓ⟩ :: tr)) u = callOf (localTrace b tr) u := by
  by_cases hab : a = b
  · subst hab
    rw [localTrace_self]
    cases ℓ with
    | spawn t call => exact absurd rfl (hℓ t call)
    | _ => rfl
  · rw [localTrace_ne hab]

/-- A handler sends no request. -/
theorem sentIn_handler {N : NetGuard C.machine} (h : NetRun N σ x.1 x.2) {cmd : Cmd (C.machine a)}
    {ℓ : Label (C.machine a)} {c' : Config (C.machine a)} (hstep : (x.1 a).step cmd = some (ℓ, c'))
    {s : Sent} (hs : sentIn ℓ = some s) :
    (callOf (localTrace a x.2) s.thread).any Call.isServe = false := by
  obtain ⟨i, rfl⟩ := sentIn_eq_some hs
  obtain ⟨call, hcall, hallow, -⟩ := (run_node h a).of_act (protocol (C.cfg a)) hstep
  rw [hcall, Option.any_some]
  cases call with
  | serve src req => cases hallow
  | _ => rfl

omit [DecidableEq ι] in
/-- The goroutine a step is made by, and what is left of it. -/
theorem after_of_works {c c' : Config (C.machine a)} {ℓ : Label (C.machine a)}
    (h : Steps c ℓ c') (hℓ : ℓ.works = true) : ∃ t q, After q (c.threads t) ∧
      c'.threads = Function.update c.threads t q ∧ ∀ s, sentIn ℓ = some s → s.thread = t := by
  cases h with
  | spawn call => cases hℓ
  | @act t o k i ans σ ht hx =>
    refine ⟨t, some (k ans), ht ▸ .act ans, rfl, ?_⟩
    intro s hs
    obtain ⟨j, heq⟩ := sentIn_eq_some hs
    cases heq
    rfl
  | @ret t r ht => exact ⟨t, none, ht ▸ .ended _, rfl, fun s hs => by cases hs⟩
  | @raise t e ht => exact ⟨t, none, ht ▸ .ended _, rfl, fun s hs => by cases hs⟩
  | env hx => cases hℓ

/-- A handler is no caller. -/
theorem callers_spawn {N : NetGuard C.machine} (h : NetRun N σ x.1 x.2) {cmd : Cmd (C.machine a)}
    {c' : Config (C.machine a)} {src : GoString × Nat} {req : Req}
    (hstep : (x.1 a).step cmd = some (.spawn t (.serve src req), c')) :
    callers (C := C) (Function.update x.1 a c', ⟨a, .spawn t (.serve src req)⟩ :: x.2) =
      callers x := by
  obtain ⟨rfl, hthreads⟩ : t = (x.1 a).next ∧ c'.threads = Function.update (x.1 a).threads t
      (some (Node.prog (C.cfg a) (.serve src req))) := by
    cases Config.steps_of_step hstep with
    | spawn call => exact ⟨rfl, rfl⟩
  obtain ⟨hnone, hcall, -⟩ := (run_node h a).unused _ (Nat.le_refl _)
  funext ⟨b, u⟩
  simp only [callers, running_update hthreads]
  by_cases hbu : (b, u) = (a, (x.1 a).next)
  · cases hbu
    simp [hcall, Call.isServe, running, hnone]
  · rw [Function.update_of_ne hbu]
    by_cases hba : a = b
    · subst hba
      rw [localTrace_self, callOf_spawn_ne]
      rintro rfl
      exact hbu rfl
    · rw [localTrace_ne hba]

/-- **Every step lowers the measure.** -/
theorem Moves.lower [Finite ι] {N : NetGuard C.machine} (h : NetRun N σ x.1 x.2)
    (hm : Moves x x') : Prod.Lex Shrinks (Prod.Lex (· < ·) Shrinks) (measure x') (measure x) := by
  obtain ⟨a, cmd, ℓ, c', hstep, hprompt, hkind, rfl⟩ := hm
  have hfin := finite_running h
  rcases hkind with hworks | ⟨t, src, req, rfl⟩
  · obtain ⟨t, q, hafter, hthreads, hsender⟩ := after_of_works (Config.steps_of_step hstep) hworks
    have hrunning := running_update (x := x) hthreads (⟨a, ℓ⟩ :: x.2)
    have hspawn : ∀ t call, ℓ ≠ .spawn t call := by
      rintro t call rfl
      cases hworks
    by_cases hserve : (callOf (localTrace a x.2) t).any Call.isServe = true
    · -- a handler makes a step: the callers and the requests are as before
      have hcallers : callers (C := C) (Function.update x.1 a c', ⟨a, ℓ⟩ :: x.2) = callers x := by
        funext ⟨b, u⟩
        simp only [callers, callOf_cons hspawn, hrunning]
        by_cases hbu : (b, u) = (a, t)
        · cases hbu
          simp [hserve]
        · rw [Function.update_of_ne hbu]
      have hpending : C.pending (⟨a, ℓ⟩ :: x.2) = C.pending x.2 := by
        refine pending_cons ?_ fun t src req => hspawn t _
        cases hs : sentIn ℓ with
        | none => rfl
        | some s =>
          have hnot := sentIn_handler h hstep hs
          rw [hsender s hs, hserve] at hnot
          cases hnot
      simp only [measure, hcallers, hpending, hrunning]
      exact .right _ (.right _ (.update hfin hafter))
    · -- a caller makes a step
      refine .left _ _ ⟨?_, (a, t), ?_, ?_⟩
      · refine hfin.subset ?_
        intro p hp hnone
        refine hp ?_
        simp only [callers, hnone, ite_self]
      · simp only [callers, callOf_cons hspawn, hrunning, hserve, Function.update_self]
        exact hafter
      · rintro ⟨b, u⟩ hbu
        simp only [callers, callOf_cons hspawn, hrunning]
        rw [Function.update_of_ne hbu]
  · -- a request is taken up
    have hpending := pending_spawn (t := t) hprompt.admits
      fun t' => hprompt.once t t' src req rfl
    have hcallers := callers_spawn h hstep
    simp only [measure, hcallers]
    exact .right _ (.left _ _ hpending)

/-! ## Who waits, and for whom -/

section Waits

variable {id : Nat} {i : Inp} {k : Except Err Resp → GoProg Res}

omit [DecidableEq ι] in
/-- A step of a goroutine that is not the end of a remote call meets no obstacle. -/
theorem prompt_of_works {tr : C.Log} {ℓ : Label (C.machine a)} (hℓ : ℓ.works = true)
    (hrpc : ∀ u id i reply, ℓ ≠ .act u ⟨.rpcEnd id, i, reply⟩) : C.Prompt tr a ℓ := by
  refine ⟨?_, ?_, ?_⟩
  · unfold admits
    split
    · cases hℓ
    · exact absurd rfl (hrpc _ _ _ _)
    · rfl
  · rintro t t' src req rfl
    cases hℓ
  · rintro t id i reply rfl
    exact absurd rfl (hrpc t id i reply)

omit [DecidableEq ι] in
theorem prompt_env {tr : C.Log} (e : Event) : C.Prompt tr a (.env e) :=
  ⟨rfl, (fun _ _ _ _ heq => by cases heq), (fun _ _ _ _ heq => by cases heq)⟩

/-- The turn of a goroutine that does not wait for a reply. -/
theorem moves_of_step {out : Label (C.machine a) × Config (C.machine a)}
    (hstep : (x.1 a).step (.run t i) = some out)
    (hrpc : ∀ id k, (x.1 a).threads t ≠ some (.act (.rpcEnd id) k)) : ∃ x', Moves x x' := by
  obtain ⟨ℓ, c'⟩ := out
  obtain ⟨hworks, hop⟩ := Config.works_of_run hstep
  refine ⟨_, a, _, ℓ, c', hstep, prompt_of_works hworks ?_, Or.inl hworks, rfl⟩
  intro u id j reply heq
  obtain ⟨k, hk⟩ := hop u _ heq
  exact hrpc id k hk

omit [DecidableEq ι] in
/-- A goroutine that waits for a reply can take any. -/
theorem step_rpcEnd {c : Config (C.machine a)} (ht : c.threads t = some (.act (.rpcEnd id) k))
    (reply : Except Err Resp) :
    ∃ i c', c.step (.run t i) = some (.act t ⟨.rpcEnd id, i, reply⟩, c') := by
  refine ⟨{ Inp.fetch [] with now := c.state.clock, reply := reply }, ?_⟩
  unfold Config.step
  simp only [ht, Node.exec, Group.act, lt_irrefl, if_false, Option.map_some]
  exact ⟨_, rfl⟩

section Reached

variable {N : NetGuard C.machine} (h : NetRun N σ x.1 x.2)

include h

/-- A goroutine that waits for a reply is at rest and has sent the request. -/
theorem posted_of_rpcEnd (ht : (x.1 a).threads t = some (.act (.rpcEnd id) k)) :
    (locOf (localTrace a x.2) t).Idle ∧
      ∃ addr req j, ⟨a, .act t ⟨.rpcStart addr req, j, id⟩⟩ ∈ x.2 := by
  obtain ⟨call, -, hleads⟩ := (run_node h a).thread ht
  obtain ⟨hidle, addr, req, j, hm⟩ :=
    (((postedProtocol (C.cfg a)).follows call).of_leads hleads).1
  exact ⟨hidle, addr, req, j, mem_localTrace.1 (mem_hist.1 hm)⟩

/-- A handler does not wait for a reply. -/
theorem handler_not_rpcEnd {src : GoString × Nat} {req : Req}
    (hs : ⟨a, .spawn t (.serve src req)⟩ ∈ x.2) :
    (x.1 a).threads t ≠ some (.act (.rpcEnd id) k) := by
  intro ht
  obtain ⟨-, addr, req', j, hm⟩ := posted_of_rpcEnd h ht
  obtain ⟨X, Y, hsplit⟩ := List.append_of_mem (mem_hist.2 (mem_localTrace.2 hm))
  obtain ⟨call, hcall, hallow⟩ :=
    (run_node h a).allowed (protocol (C.cfg a)) t _ Y ⟨X, hsplit.symm⟩
  rw [(run_node h a).callOf_spawn (mem_localTrace.2 hs)] at hcall
  cases hcall
  cases hallow

/-- A goroutine that waits for no reply can go on, or the leader it waits for can. -/
theorem moves_of_running (h₀ : ∀ a, (σ a).Fresh) {p : GoProg Res}
    (ht : (x.1 a).threads t = some p)
    (hrpc : ∀ id k, (x.1 a).threads t ≠ some (.act (.rpcEnd id) k)) : ∃ x', Moves x x' := by
  let i : Inp := { Inp.fetch [] with now := (x.1 a).state.clock }
  have hclock : (x.1 a).state.clock ≤ i.now := le_refl _
  cases hstep : (x.1 a).step (.run t i) with
  | some out => exact moves_of_step hstep hrpc
  | none =>
    obtain ⟨u, key, c, -, howns, henabled⟩ :=
      helped_of_blocked (h₀ a) (run_node h a) ht hclock hstep
    obtain ⟨out, hout⟩ := henabled i hclock
    refine moves_of_step hout ?_
    intro id k hu
    obtain ⟨s, hheld, -⟩ := howns
    rw [(posted_of_rpcEnd h hu).1.1] at hheld
    cases hheld

/-- The reply of a handler that has ended is admitted. -/
theorem admits_reply {reply : Except Err Resp} {r : Except Panic Res} {s : Nat} {req : Req}
    {j : Inp} (hm : ⟨a, .act t ⟨.rpcStart (C.addr b) req, j, id⟩⟩ ∈ x.2)
    (hs : ⟨b, .spawn s (.serve (C.addr a, id) req)⟩ ∈ x.2) (hr : ⟨b, .ret s r⟩ ∈ x.2)
    (hans : Answers r reply) : C.admits x.2 a (.act t ⟨.rpcEnd id, i, reply⟩) = true := by
  cases hans with
  | error _ err => rfl
  | reply resp =>
    refine List.all_eq_true.2 ?_
    rintro ⟨b', ℓ⟩ hy
    refine (Option.all_eq_true _ _).2 ?_
    intro sent hsent
    have hsent : sentIn ℓ = some sent := hsent
    obtain ⟨j', rfl⟩ := sentIn_eq_some hsent
    rw [Bool.or_eq_true]
    by_cases hsame : C.addr b' = C.addr a ∧ sent.id = id
    · -- the numbers of the requests of a node are its own
      obtain ⟨haddr, hid⟩ := hsame
      obtain rfl := C.addr_injective haddr
      rw [hid] at hy
      obtain ⟨-, haddr', hreq⟩ := (Run.numbered (run_node h b')).unique _ _ _ _ _ _ _ _ _
        (mem_localTrace.2 hy) (mem_localTrace.2 hm)
      refine Or.inr (List.any_eq_true.2 ⟨_, hs, ?_⟩)
      rw [haddr', hreq]
      simp only [decide_true, startedIn, and_self, if_true, Option.any_some, Bool.true_and]
      exact List.any_eq_true.2 ⟨_, hr, by simp [repliesIn]⟩
    · left
      simp only [Bool.not_eq_eq_eq_not, Bool.not_true, Bool.and_eq_false_iff,
        decide_eq_false_iff_not]
      tauto

/-- What a goroutine waits for that waits for a reply: a handler to start, the handler to end, or
nothing. -/
theorem moves_of_rpcEnd (h₀ : ∀ a, (σ a).Fresh)
    (ht : (x.1 a).threads t = some (.act (.rpcEnd id) k)) : ∃ x', Moves x x' := by
  obtain ⟨-, addr, req, j, hm⟩ := posted_of_rpcEnd h ht
  by_cases hb : ∃ b, C.addr b = addr
  · obtain ⟨b, rfl⟩ := hb
    by_cases hs : ∃ s, ⟨b, .spawn s (.serve (C.addr a, id) req)⟩ ∈ x.2
    · obtain ⟨s, hs⟩ := hs
      rcases (run_node h b).running_or_ended (mem_localTrace.2 hs) with ⟨p, hp⟩ | ⟨r, hr⟩
      · exact moves_of_running h h₀ hp fun id k => handler_not_rpcEnd h hs
      · have hr := mem_localTrace.1 hr
        obtain ⟨reply, hans⟩ := exists_answers r
        obtain ⟨i, c', hstep⟩ := step_rpcEnd ht reply
        refine ⟨_, a, _, _, c', hstep, ⟨admits_reply h hm hs hr hans, ?_, ?_⟩, Or.inl rfl, rfl⟩
        · intro _ _ _ _ heq
          cases heq
        · rintro _ _ _ _ ⟨⟩
          exact ⟨_, req, j, hm, Or.inr ⟨b, s, r, rfl, hs, hr, hans⟩⟩
    · -- the request can be taken up
      refine ⟨_, b, .spawn (.serve (C.addr a, id) req), _, _, rfl, ⟨?_, ?_, ?_⟩,
        Or.inr ⟨_, _, _, rfl⟩, rfl⟩
      · exact List.any_eq_true.2 ⟨_, hm, by simp [sentIn]⟩
      · rintro _ t' _ _ ⟨⟩ hm'
        exact hs ⟨t', hm'⟩
      · intro _ _ _ _ heq
        cases heq
  · obtain ⟨i, c', hstep⟩ := step_rpcEnd ht (.error .canceled)
    refine ⟨_, a, _, _, c', hstep, ⟨rfl, ?_, ?_⟩, Or.inl rfl, rfl⟩
    · intro _ _ _ _ heq
      cases heq
    · rintro _ _ _ _ ⟨⟩
      exact ⟨addr, req, j, hm, Or.inl ⟨fun b hb' => hb ⟨b, hb'⟩, _, rfl⟩⟩

/-- **As long as a call is running somewhere, some node can go on.** -/
theorem exists_moves (h₀ : ∀ a, (σ a).Fresh) (hq : ¬ Quiet x) : ∃ x', Moves x x' := by
  obtain ⟨a, ha⟩ := not_forall.1 hq
  obtain ⟨t, ht⟩ := not_forall.1 ha
  obtain ⟨p, hp⟩ := Option.ne_none_iff_exists'.1 ht
  by_cases hrpc : ∃ id k, (x.1 a).threads t = some (.act (.rpcEnd id) k)
  · obtain ⟨id, k, hrpc⟩ := hrpc
    exact moves_of_rpcEnd h h₀ hrpc
  · exact moves_of_running h h₀ hp fun id k hk => hrpc ⟨id, k, hk⟩

end Reached

end Waits

/-- What a node does on its own account leaves the measure alone. -/
theorem Drifts.measure_eq (hd : Drifts x x') : measure x' = measure x ∧ running x' = running x := by
  obtain ⟨a, cmd, e, c', hstep, rfl⟩ := hd
  have hspawn : ∀ t call, (.env e : Label (C.machine a)) ≠ .spawn t call :=
    fun _ _ heq => by cases heq
  have hrunning : running (C := C) (Function.update x.1 a c', ⟨a, .env e⟩ :: x.2) = running x := by
    funext ⟨b, u⟩
    show (Function.update x.1 a c' b).threads u = (x.1 b).threads u
    by_cases hba : b = a
    · subst hba
      rw [Function.update_self, (Config.drifts_eq ⟨cmd, e, hstep⟩).1]
    · rw [Function.update_of_ne hba]
  have hcallers : callers (C := C) (Function.update x.1 a c', ⟨a, .env e⟩ :: x.2) = callers x := by
    funext p
    simp only [callers, hrunning, callOf_cons hspawn]
  have hpending : C.pending (⟨a, .env e⟩ :: x.2) = C.pending x.2 :=
    pending_cons rfl fun t src req => hspawn t _
  exact ⟨by simp only [measure, hcallers, hpending, hrunning], hrunning⟩

end Cluster

section

variable {ι : Type} [DecidableEq ι] [Finite ι] {C : Cluster ι} {σ : ι → State}

/-- **No call waits forever.** In a network that loses nothing, whatever the nodes have done so far
and however the goroutines are scheduled from now on, while memberships change and caches are swept,
all the calls that are running on all the nodes return. -/
theorem cluster_completes (h₀ : ∀ a, (σ a).Fresh) {c : ∀ a, Config (C.machine a)} {tr : C.Log}
    (h : NetRun C.Reliable σ c tr) : Cluster.Completes (C := C) (c, tr) := by
  refine Descent.completes (r := Prod.Lex Shrinks (Prod.Lex (· < ·) Shrinks)) (μ := Cluster.measure)
    (I := fun x : C.World => NetRun C.Reliable σ x.1 x.2) ⟨?_, ?_, ?_, ?_, ?_, ?_⟩ ?_ h
  · rintro x x' h ⟨a, cmd, e, c', hstep, rfl⟩
    exact .step cmd h hstep (Cluster.prompt_env e)
  · intro x x' _ hd
    exact hd.measure_eq.1
  · intro x x' _ hd hq a t
    have hrunning := congrFun hd.measure_eq.2 (a, t)
    exact hrunning.symm.trans (hq a t)
  · rintro x x' h ⟨a, cmd, ℓ, c', hstep, hprompt, -, rfl⟩
    exact .step cmd h hstep hprompt
  · intro x x' h hm
    exact hm.lower h
  · intro x h hq
    exact Cluster.exists_moves h h₀ hq
  · exact wellFounded_shrinks.prod_lex (Nat.lt_wfRel.wf.prod_lex wellFounded_shrinks)

end

/-- A check of single steps that no reply has yet to come for. -/
def Cluster.unanswered (C : Cluster Bool) (tr : C.Log) (a : Bool) (_ : State)
    (ℓ : Label (C.machine a)) : Bool :=
  match ℓ with
  | .spawn _ (.serve src req) => C.wasSent tr src a req && !C.takenUp tr src (C.addr a) req
  | .act _ ⟨.rpcEnd _, _, _⟩ => false
  | _ => true

theorem Cluster.prompt_of_unanswered {C : Cluster Bool} (tr : C.Log) (a : Bool) (s : State)
    (ℓ : Label (C.machine a)) (s' : State) (h : C.unanswered tr a s ℓ = true) :
    C.Reliable tr a s ℓ s' := by
  refine ⟨?_, ?_, ?_⟩
  · unfold Cluster.admits
    split
    · exact (Bool.and_eq_true_iff.1 h).1
    · cases h
    · rfl
  · rintro t t' src req rfl hm
    have hnot := (Bool.and_eq_true_iff.1 h).2
    rw [Bool.not_eq_eq_eq_not, Bool.not_true] at hnot
    have htaken : C.takenUp tr src (C.addr a) req = true :=
      List.any_eq_true.2 ⟨_, hm, by simp [startedIn]⟩
    rw [hnot] at htaken
    cases htaken
  · rintro t id i reply rfl
    cases h

/-- Node `a` reads a key of node `b` and waits for the reply; a handler of node `b` has started a
load and another one waits for it. -/
def waitingRead : List ((x : Bool) × Cmd (Cluster.pair.machine x)) :=
  ⟨true, .spawn (.get (ascii "k"))⟩ :: List.replicate 5 ⟨true, .run 0 (.fetch [])⟩ ++
    ⟨true, .spawn (.get (ascii "k"))⟩ :: List.replicate 5 ⟨true, .run 1 (.fetch [])⟩ ++
    ⟨false, .spawn (.serve (ascii "a", 0) (.get (ascii "g") (ascii "k")))⟩ ::
      List.replicate 9 ⟨false, .run 0 (.fetch [])⟩ ++
    ⟨false, .spawn (.serve (ascii "a", 1) (.get (ascii "g") (ascii "k")))⟩ ::
      List.replicate 8 ⟨false, .run 1 (.fetch [])⟩

theorem waitingRead_completes :
    ∃ (c : ∀ x, Config (Cluster.pair.machine x)) (tr : Cluster.pair.Log),
    NetRun Cluster.pair.Reliable State.two c tr ∧
    (c false).step (.run 1 (.fetch [])) = none ∧
    Cluster.Completes (C := Cluster.pair) (c, tr) := by
  obtain ⟨c, tr, hsteps, hblocked⟩ : ∃ c tr, netSteps Cluster.pair.unanswered
      (fun x => .start (State.two x)) [] waitingRead = some (c, tr) ∧
      (c false).step (.run 1 (.fetch [])) = none := ⟨_, _, rfl, rfl⟩
  have hrun := NetRun.steps (N := Cluster.pair.Reliable) Cluster.prompt_of_unanswered .start hsteps
  exact ⟨c, tr, hrun, hblocked, cluster_completes State.fresh_two hrun⟩

end Locache
