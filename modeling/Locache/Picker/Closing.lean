import Mathlib.Data.List.Perm.Basic
import Locache.Conc.Progress
import Locache.Picker.Clients
import Locache.Picker.Watch

/-!
# Closing a picker

`Close` runs beside the goroutine that watches the registry. It cancels the context, waits for that
goroutine or for two seconds, takes the clients out of the map and closes them, while the goroutine
may be anywhere: inside a response, between the removal of a member and the call that closes its
client, or about to apply a snapshot. Here both take steps of their own, and a client is closed in
another step than the one that takes it out of the map. What the picker counts as closed is then
closed or in the hands of one of the two, and of one of them only (`Books`).

Whatever the goroutine does, `Close` comes to an end. If it did not run into the timeout, all
clients that were ever made are closed, each of them once, and nothing moves any more
(`picker_closes`). If it did, the goroutine goes on, and nobody closes what it makes from then on.
-/

namespace Locache.Closing

open Conc

/-- Where `watchServiceChanges` is. -/
inductive Phase where
  /-- Before the check of the context. -/
  | head
  /-- In the range over the watch channel. -/
  | receiving
  /-- Inside a response, with these events to go. -/
  | applying (events : List (Change GoString GoString))
  /-- `removeMember` has released the lock and is about to close the client. -/
  | dropping (client : Nat) (events : List (Change GoString GoString))
  /-- The channel is closed, or the watch has failed. -/
  | interrupted
  | refreshing
  /-- `refreshSnapshot` has got the keys. -/
  | fetched (kvs : List (GoString × GoString))
  /-- Before the deferred `close(p.watchDone)`. -/
  | returning
  | done

/-- The errors of `Close`. -/
inductive CloseErr where
  | timeout
  | client (c : Nat)
  | etcd
  deriving DecidableEq, Repr

/-- Where the function of `closeOnce` is; `err` is `closeErr`, which keeps the first error. -/
inductive Body where
  | idle
  | entered
  | waiting
  | locking (err : Option CloseErr)
  | closing (err : Option CloseErr) (clients : List Nat)
  /-- `Close` returns `err` to the caller that ran the function, and nil to all others. -/
  | finished (err : Option CloseErr)

structure State where
  picker : ClientPicker
  /-- The clients that `Client.Close` was called on, newest first. -/
  closes : List Nat
  cancelled : Bool
  phase : Phase
  body : Body
  etcdClosed : Bool

/-- What the loop over the events does after an event that took `client` out of the map. -/
def afterEvent (client : Option Nat) (events : List (Change GoString GoString)) : Phase :=
  match client with
  | some c => .dropping c events
  | none => .applying events

/-- A step of the goroutine that watches the registry, whatever etcd answers. -/
inductive Watch (svcName : GoString) : State → State → Prop where
  | enter {s : State} (hphase : s.phase = .head) (hctx : s.cancelled = false) :
      Watch svcName s { s with phase := .receiving }
  | exit {s : State} (hphase : s.phase = .head ∨ s.phase = .interrupted)
      (hctx : s.cancelled = true) : Watch svcName s { s with phase := .returning }
  | response {s : State} (hphase : s.phase = .receiving)
      (events : List (Change GoString GoString)) :
      Watch svcName s { s with phase := .applying events }
  | interrupt {s : State} (hphase : s.phase = .receiving) :
      Watch svcName s { s with phase := .interrupted }
  /-- The part of `addMember` or `removeMember` that holds the lock. -/
  | event {s : State} {e : Change GoString GoString} {events : List (Change GoString GoString)}
      (hphase : s.phase = .applying (e :: events)) (newClient : GoString → Bool)
      {client : Option Nat}
      (hclient : (s.picker.handle newClient svcName e).closed = client.toList ++ s.picker.closed) :
      Watch svcName s { s with
        picker := s.picker.handle newClient svcName e
        phase := afterEvent client events }
  | dropped {s : State} {c : Nat} {events : List (Change GoString GoString)}
      (hphase : s.phase = .dropping c events) :
      Watch svcName s { s with closes := c :: s.closes, phase := .applying events }
  | applied {s : State} (hphase : s.phase = .applying []) :
      Watch svcName s { s with phase := .receiving }
  | refresh {s : State} (hphase : s.phase = .interrupted) (hctx : s.cancelled = false) :
      Watch svcName s { s with phase := .refreshing }
  | refreshFailed {s : State} (hphase : s.phase = .refreshing) :
      Watch svcName s { s with phase := .head }
  | fetch {s : State} (hphase : s.phase = .refreshing) (kvs : List (GoString × GoString)) :
      Watch svcName s { s with phase := .fetched kvs }
  /-- `replaceMembership` closes the clients that it drops while it holds the lock. -/
  | replace {s : State} {kvs : List (GoString × GoString)} (hphase : s.phase = .fetched kvs)
      (newClient : GoString → Bool) (order₁ order₂ : List GoString) {clients : List Nat}
      (hclients : (s.picker.refreshSnapshot newClient order₁ order₂ svcName kvs).closed =
        clients ++ s.picker.closed) :
      Watch svcName s { s with
        picker := s.picker.refreshSnapshot newClient order₁ order₂ svcName kvs
        closes := clients ++ s.closes
        phase := .head }
  | signal {s : State} (hphase : s.phase = .returning) :
      Watch svcName s { s with phase := .done }

/-- A step of the function of `closeOnce`. -/
inductive Close : State → State → Prop where
  | cancel {s : State} (hbody : s.body = .entered) :
      Close s { s with cancelled := true, body := .waiting }
  | stopped {s : State} (hbody : s.body = .waiting) (hphase : s.phase = .done) :
      Close s { s with body := .locking none }
  | timeout {s : State} (hbody : s.body = .waiting) :
      Close s { s with body := .locking (some .timeout) }
  | take {s : State} {err : Option CloseErr} (hbody : s.body = .locking err)
      (order : List GoString) {clients : List Nat}
      (hclients : (s.picker.close order).closed = clients.reverse ++ s.picker.closed) :
      Close s { s with picker := s.picker.close order, body := .closing err clients }
  | close {s : State} {err : Option CloseErr} {c : Nat} {clients : List Nat}
      (hbody : s.body = .closing err (c :: clients)) (failed : Bool) :
      Close s { s with
        closes := c :: s.closes
        body := .closing (err.or (if failed then some (.client c) else none)) clients }
  | finish {s : State} {err : Option CloseErr} (hbody : s.body = .closing err []) (failed : Bool) :
      Close s { s with
        etcdClosed := true
        body := .finished (err.or (if failed then some .etcd else none)) }

/-- What may happen next; the first caller of `Close` enters the function of `closeOnce`. -/
inductive Step (svcName : GoString) : State → State → Prop where
  | watch {s s' : State} (h : Watch svcName s s') : Step svcName s s'
  | once {s : State} (hbody : s.body = .idle) : Step svcName s { s with body := .entered }
  | close {s s' : State} (h : Close s s') : Step svcName s s'

/-- `NewClientPicker` has taken its snapshot, `p` is the picker, and the goroutine starts. -/
def start (p : ClientPicker) : State := ⟨p, p.closed, false, .head, .idle, false⟩

variable {svcName : GoString} {s s' : State} {p : ClientPicker}

/-! ## What a step does to the picker -/

theorem addMember_closed (newClient : GoString → Bool) (addr : GoString) :
    (p.addMember newClient addr).closed = p.closed := by
  unfold ClientPicker.addMember
  dsimp only
  split_ifs <;> rfl

theorem removeMember_closed (addr : GoString) :
    ∃ client : Option Nat, (p.removeMember addr).closed = client.toList ++ p.closed := by
  unfold ClientPicker.removeMember
  split
  · exact ⟨none, rfl⟩
  · split
    · exact ⟨none, rfl⟩
    · exact ⟨_, rfl⟩

theorem handle_closed (newClient : GoString → Bool) (e : Change GoString GoString) :
    ∃ client : Option Nat,
      (p.handle newClient svcName e).closed = client.toList ++ p.closed := by
  cases e with
  | put key value => exact ⟨none, addMember_closed _ _⟩
  | delete key prev => exact removeMember_closed _

theorem refreshSnapshot_closed (newClient : GoString → Bool) (order₁ order₂ : List GoString)
    (kvs : List (GoString × GoString)) : ∃ clients,
      (p.refreshSnapshot newClient order₁ order₂ svcName kvs).closed = clients ++ p.closed := by
  simp only [ClientPicker.refreshSnapshot, ClientPicker.replaceMembership]
  split_ifs
  · exact ⟨[], rfl⟩
  · exact ⟨_, rfl⟩

theorem close_closed (order : List GoString) :
    ∃ clients : List Nat, (p.close order).closed = clients.reverse ++ p.closed := by
  simp only [ClientPicker.close]
  split_ifs
  · exact ⟨[], rfl⟩
  · exact ⟨_, rfl⟩

theorem handle_closeOnce (newClient : GoString → Bool) (e : Change GoString GoString) :
    (p.handle newClient svcName e).closeOnce = p.closeOnce := by
  cases e with
  | put key value =>
    simp only [ClientPicker.handle, ClientPicker.addMember]
    split_ifs <;> rfl
  | delete key prev =>
    simp only [ClientPicker.handle, ClientPicker.removeMember]
    split_ifs <;> rfl

theorem refreshSnapshot_closeOnce (newClient : GoString → Bool) (order₁ order₂ : List GoString)
    (kvs : List (GoString × GoString)) :
    (p.refreshSnapshot newClient order₁ order₂ svcName kvs).closeOnce = p.closeOnce := by
  simp only [ClientPicker.refreshSnapshot, ClientPicker.replaceMembership]
  split_ifs <;> rfl

theorem close_of_open (h : p.closeOnce = false) (order : List GoString) :
    (p.close order).closeOnce = true ∧ (p.close order).clients = ∅ := by
  simp only [ClientPicker.close, h]
  exact ⟨rfl, rfl⟩

theorem reachable_of_step {q : ClientPicker} (h : p.Reachable) (hs : ClientPicker.Step p q) :
    q.Reachable := by
  obtain ⟨self, hself, config, replicas, hreplicas, hsteps⟩ := h
  exact ⟨self, hself, config, replicas, hreplicas, hsteps.tail hs⟩

/-! ## The books -/

/-- The client that the goroutine is about to close. -/
@[simp] def Phase.hands : Phase → List Nat
  | .dropping c _ => [c]
  | _ => []

/-- The clients that `Close` is about to close. -/
@[simp] def Body.hands : Body → List Nat
  | .closing _ clients => clients
  | _ => []

/-- How far the function of `closeOnce` has got. -/
@[simp] def Body.stage : Body → Nat
  | .idle => 0
  | .entered => 1
  | .waiting => 2
  | .locking _ => 3
  | .closing _ _ => 4
  | .finished _ => 5

/-- The function of `closeOnce` did not wait for the goroutine to the end. -/
@[simp] def Body.timedOut : Body → Prop
  | .locking err | .closing err _ | .finished err => err = some .timeout
  | _ => False

/-- A client that has left the map is closed or in the hands of one of the two; the goroutine has
ended when `Close` goes on without a timeout. -/
structure Books (s : State) : Prop where
  reachable : s.picker.Reachable
  hands : s.picker.closed.Perm (s.phase.hands ++ (s.body.hands ++ s.closes))
  taken : s.picker.closeOnce = true ↔ 4 ≤ s.body.stage
  cancelled : s.cancelled = true ↔ 2 ≤ s.body.stage
  etcd : s.etcdClosed = true ↔ s.body.stage = 5
  stopped : 3 ≤ s.body.stage → ¬ s.body.timedOut → s.phase = .done
  empty : 4 ≤ s.body.stage → ¬ s.body.timedOut → s.picker.clients = ∅

theorem books_start (h : p.Reachable) (hopen : p.closeOnce = false) : Books (start p) := by
  refine ⟨h, List.Perm.refl _, ?_, ?_, ?_, ?_, ?_⟩ <;> simp [start, Body.stage, hopen]

theorem hands_afterEvent (client : Option Nat) (events : List (Change GoString GoString)) :
    (afterEvent client events).hands = client.toList := by
  cases client <;> rfl

/-- The goroutine is running, so `Close` has not gone on, or has run into the timeout. -/
theorem Books.running (h : Books s) (hphase : s.phase ≠ .done) (hstage : 3 ≤ s.body.stage) :
    s.body.timedOut := by
  by_contra hnot
  exact hphase (h.stopped hstage hnot)

/-- What the goroutine has to see to in a step of it. -/
theorem Books.watched (h : Books s) (hphase : s.phase ≠ .done) {q : ClientPicker}
    (hq : q.Reachable) (honce : q.closeOnce = s.picker.closeOnce) {closes : List Nat}
    {phase : Phase} (hhands : q.closed.Perm (phase.hands ++ (s.body.hands ++ closes))) :
    Books { s with picker := q, closes := closes, phase := phase } := by
  refine ⟨hq, hhands, ?_, h.cancelled, h.etcd, ?_, ?_⟩
  · rw [honce]
    exact h.taken
  · intro hstage hnot
    exact absurd (h.running hphase hstage) hnot
  · intro hstage hnot
    exact absurd (h.running hphase (Nat.le_of_succ_le hstage)) hnot

theorem Books.watch (h : Books s) (hs : Watch svcName s s') : Books s' := by
  have hstay : ∀ phase : Phase, s.phase ≠ .done → s.phase.hands = [] → phase.hands = [] →
      Books { s with phase := phase } := by
    intro phase hne h₀ h₁
    refine h.watched hne h.reachable rfl ?_
    rw [h₁, ← h₀]
    exact h.hands
  have hhands := h.hands
  cases hs with
  | enter hphase => exact hstay _ (by simp [hphase]) (by simp [hphase, Phase.hands]) rfl
  | exit hphase =>
    rcases hphase with hphase | hphase <;>
      exact hstay _ (by simp [hphase]) (by simp [hphase, Phase.hands]) rfl
  | response hphase => exact hstay _ (by simp [hphase]) (by simp [hphase, Phase.hands]) rfl
  | interrupt hphase => exact hstay _ (by simp [hphase]) (by simp [hphase, Phase.hands]) rfl
  | applied hphase => exact hstay _ (by simp [hphase]) (by simp [hphase, Phase.hands]) rfl
  | refresh hphase => exact hstay _ (by simp [hphase]) (by simp [hphase, Phase.hands]) rfl
  | refreshFailed hphase => exact hstay _ (by simp [hphase]) (by simp [hphase, Phase.hands]) rfl
  | fetch hphase => exact hstay _ (by simp [hphase]) (by simp [hphase, Phase.hands]) rfl
  | signal hphase =>
    exact hstay _ (by simp [hphase]) (by simp [hphase, Phase.hands]) rfl
  | event hphase newClient hclient =>
    refine h.watched (by simp [hphase]) (reachable_of_step h.reachable (s.picker.step_handle _ _))
      (handle_closeOnce _ _) ?_
    rw [hclient, hands_afterEvent]
    rw [hphase] at hhands
    exact hhands.append_left _
  | @dropped c events hphase =>
    refine h.watched (by simp [hphase]) h.reachable rfl ?_
    rw [hphase] at hhands
    calc s.picker.closed
      _ |>.Perm (c :: (s.body.hands ++ s.closes)) := hhands
      _ |>.Perm (s.body.hands ++ c :: s.closes) := List.perm_middle.symm
  | @replace kvs hphase newClient order₁ order₂ clients hclients =>
    refine h.watched (by simp [hphase])
      (reachable_of_step h.reachable ClientPicker.step_refreshSnapshot)
      (refreshSnapshot_closeOnce _ _ _ _) ?_
    rw [hclients]
    rw [hphase] at hhands
    calc clients ++ s.picker.closed
      _ |>.Perm (clients ++ (s.body.hands ++ s.closes)) := hhands.append_left _
      _ |>.Perm (s.body.hands ++ (clients ++ s.closes)) := List.perm_append_comm_assoc ..

theorem Books.close (h : Books s) (hs : Close s s') : Books s' := by
  obtain ⟨picker, closes, cancelled, phase, body, etcdClosed⟩ := s
  obtain ⟨hreach, hhands, htaken, hcancelled, hetcd, hstopped, hempty⟩ := h
  cases hs with
  | cancel hbody =>
    obtain rfl : body = .entered := hbody
    refine ⟨hreach, hhands, ?_, ?_, ?_, ?_, ?_⟩ <;> simp_all
  | stopped hbody hphase =>
    obtain rfl : body = .waiting := hbody
    refine ⟨hreach, hhands, ?_, ?_, ?_, ?_, ?_⟩ <;> simp_all
  | timeout hbody =>
    obtain rfl : body = .waiting := hbody
    refine ⟨hreach, hhands, ?_, ?_, ?_, ?_, ?_⟩ <;> simp_all
  | @take err hbody order clients hclients =>
    obtain rfl : body = .locking err := hbody
    have hopen : picker.closeOnce = false := by
      simpa using htaken
    obtain ⟨h₁, h₂⟩ := close_of_open hopen order
    refine ⟨reachable_of_step hreach (.close order), ?_, ?_, ?_, ?_, ?_, ?_⟩
    · rw [hclients]
      calc clients.reverse ++ picker.closed
        _ |>.Perm (clients ++ (phase.hands ++ closes)) := clients.reverse_perm.append hhands
        _ |>.Perm (phase.hands ++ (clients ++ closes)) := List.perm_append_comm_assoc ..
    all_goals simp_all
  | @close err c clients hbody failed =>
    obtain rfl : body = .closing err (c :: clients) := hbody
    refine ⟨hreach, ?_, ?_, ?_, ?_, ?_, ?_⟩
    · exact hhands.trans (List.perm_middle.symm.append_left _)
    all_goals simp_all
  | @finish err hbody failed =>
    obtain rfl : body = .closing err [] := hbody
    refine ⟨hreach, hhands, ?_, ?_, ?_, ?_, ?_⟩ <;> simp_all

theorem Books.step (h : Books s) (hs : Step svcName s s') : Books s' := by
  cases hs with
  | watch hs => exact h.watch hs
  | close hs => exact h.close hs
  | once hbody =>
    obtain ⟨picker, closes, cancelled, phase, body, etcdClosed⟩ := s
    obtain ⟨hreach, hhands, htaken, hcancelled, hetcd, hstopped, hempty⟩ := h
    obtain rfl : body = .idle := hbody
    refine ⟨hreach, hhands, ?_, ?_, ?_, ?_, ?_⟩ <;> simp_all

theorem books (hp : p.Reachable) (hopen : p.closeOnce = false)
    (hrun : Relation.ReflTransGen (Step svcName) (start p) s) : Books s := by
  induction hrun with
  | refl => exact books_start hp hopen
  | tail _ hs ih => exact ih.step hs

theorem Books.nodup (h : Books s) : (s.phase.hands ++ (s.body.hands ++ s.closes)).Nodup :=
  h.hands.nodup_iff.1 h.reachable.clients.once

theorem Books.unclosed (h : Books s) {a : GoString} {c : Nat}
    (hc : s.picker.clients.lookup a = some c) : c ∉ s.closes := by
  intro hclosed
  apply h.reachable.clients.unclosed a c hc
  rw [h.hands.mem_iff]
  exact List.mem_append_right _ (List.mem_append_right _ hclosed)

theorem Books.kept (h : Books s) {c : Nat} (hc : c < s.picker.nextClient) :
    (∃ a, s.picker.clients.lookup a = some c) ∨
      c ∈ s.phase.hands ∨ c ∈ s.body.hands ∨ c ∈ s.closes := by
  have hleft := h.reachable.clients.left c hc
  rwa [h.hands.mem_iff, List.mem_append, List.mem_append] at hleft

/-! ## The end of `Close` -/

theorem Watch.body_eq (h : Watch svcName s s') : s'.body = s.body := by
  cases h <;> rfl

theorem Watch.not_done (h : Watch svcName s s') : s.phase ≠ .done := by
  cases h with
  | exit hphase => rcases hphase with hphase | hphase <;> simp [hphase]
  | _ => simp_all

/-- The stages come in order, and the clients are closed one by one. -/
theorem Close.lower (h : Close s s') : Prod.Lex (· < ·) (· < ·)
    (5 - s'.body.stage, s'.body.hands.length) (5 - s.body.stage, s.body.hands.length) := by
  cases h with
  | cancel hbody => exact .left _ _ (by simp [hbody])
  | stopped hbody => exact .left _ _ (by simp [hbody])
  | timeout hbody => exact .left _ _ (by simp [hbody])
  | take hbody => exact .left _ _ (by simp [hbody])
  | finish hbody => exact .left _ _ (by simp [hbody])
  | close hbody =>
    rw [hbody]
    exact .right _ (Nat.lt_succ_self _)

theorem Close.not_idle (h : Close s s') : s'.body ≠ .idle := by
  cases h <;> simp

theorem Close.not_finished {err : Option CloseErr} (h : Close s s') : s.body ≠ .finished err := by
  cases h <;> simp_all

theorem Close.ready (hidle : s.body ≠ .idle) (hrest : ¬ ∃ err, s.body = .finished err) :
    ∃ s', Close s s' := by
  cases hbody : s.body with
  | idle => exact absurd hbody hidle
  | entered => exact ⟨_, .cancel hbody⟩
  | waiting => exact ⟨_, .timeout hbody⟩
  | locking err =>
    obtain ⟨clients, hclients⟩ := close_closed (p := s.picker) []
    exact ⟨_, .take hbody [] hclients⟩
  | closing err clients =>
    cases clients with
    | nil => exact ⟨_, .finish hbody false⟩
    | cons c clients => exact ⟨_, .close hbody false⟩
  | finished err => exact absurd ⟨err, hbody⟩ hrest

theorem close_completes (hidle : s.body ≠ .idle) :
    Completes (Watch svcName) Close (fun s => ∃ err, s.body = .finished err) s := by
  refine Descent.completes (I := fun s => s.body ≠ .idle) (r := Prod.Lex (· < ·) (· < ·))
    (μ := fun s => (5 - s.body.stage, s.body.hands.length)) ⟨?_, ?_, ?_, ?_, ?_, ?_⟩
    (WellFounded.prod_lex Nat.lt_wfRel.wf Nat.lt_wfRel.wf) hidle
  · intro s s' h hs
    rwa [hs.body_eq]
  · intro s s' _ hs
    rw [hs.body_eq]
  · intro s s' _ hs hrest
    rwa [hs.body_eq] at hrest
  · intro s s' _ hs
    exact hs.not_idle
  · intro s s' _ hs
    exact hs.lower
  · intro s hidle hrest
    exact Close.ready hidle hrest

/-- The clients that `Close` has taken are closed, if no call fails. -/
theorem closing_ends {err : Option CloseErr} {clients : List Nat}
    (hbody : s.body = .closing err clients) : Relation.ReflTransGen Close s { s with
      closes := clients.reverse ++ s.closes, etcdClosed := true, body := .finished err } := by
  induction clients generalizing s with
  | nil =>
    have hs := Close.finish hbody false
    simp only [Bool.false_eq_true, ↓reduceIte, Option.or_none] at hs
    exact .single hs
  | cons c clients ih =>
    have hs := Close.close hbody false
    simp only [Bool.false_eq_true, ↓reduceIte, Option.or_none] at hs
    rw [List.reverse_cons, List.append_assoc]
    exact .head hs (ih rfl)

/-- The goroutine can come to its end. -/
def Stops (svcName : GoString) (s : State) : Prop :=
  ∃ s', Relation.ReflTransGen (Watch svcName) s s' ∧ s'.phase = .done

theorem Stops.of_step (hs : Watch svcName s s') (h : Stops svcName s') : Stops svcName s := by
  obtain ⟨s'', hsteps, hdone⟩ := h
  exact ⟨s'', .head hs hsteps, hdone⟩

theorem stops_of_checking (hphase : s.phase = .head ∨ s.phase = .interrupted)
    (hctx : s.cancelled = true) : Stops svcName s :=
  ⟨_, .head (.exit hphase hctx) (.single (.signal rfl)), rfl⟩

theorem stops_of_receiving (hphase : s.phase = .receiving) (hctx : s.cancelled = true) :
    Stops svcName s :=
  .of_step (.interrupt hphase) (stops_of_checking (Or.inr rfl) hctx)

theorem stops_of_applying {events : List (Change GoString GoString)}
    (hphase : s.phase = .applying events) (hctx : s.cancelled = true) : Stops svcName s := by
  induction events generalizing s with
  | nil => exact .of_step (.applied hphase) (stops_of_receiving rfl hctx)
  | cons e events ih =>
    obtain ⟨client, hclient⟩ := @handle_closed svcName s.picker (fun _ => true) e
    apply Stops.of_step (.event hphase _ hclient)
    cases client with
    | none => exact ih rfl hctx
    | some c => exact .of_step (.dropped rfl) (ih rfl hctx)

/-- Nothing but etcd can keep the goroutine from its end once the context is cancelled. -/
theorem stops (hctx : s.cancelled = true) : Stops svcName s := by
  cases hphase : s.phase with
  | head => exact stops_of_checking (Or.inl hphase) hctx
  | receiving => exact stops_of_receiving hphase hctx
  | applying events => exact stops_of_applying hphase hctx
  | dropping c events => exact .of_step (.dropped hphase) (stops_of_applying rfl hctx)
  | interrupted => exact stops_of_checking (Or.inr hphase) hctx
  | refreshing => exact .of_step (.refreshFailed hphase) (stops_of_checking (Or.inl rfl) hctx)
  | fetched kvs =>
    obtain ⟨clients, hclients⟩ :=
      @refreshSnapshot_closed svcName s.picker (fun _ => true) [] [] kvs
    exact .of_step (.replace hphase _ _ _ hclients) (stops_of_checking (Or.inl rfl) hctx)
  | returning => exact ⟨_, .single (.signal hphase), rfl⟩
  | done => exact ⟨s, .refl, hphase⟩

/-- A `Close` that waits may get what it waits for, and then nothing has to fail. -/
theorem waiting_ends (hbody : s.body = .waiting) (hctx : s.cancelled = true) :
    ∃ s', Relation.ReflTransGen (Step svcName) s s' ∧ s'.body = .finished none := by
  obtain ⟨s₁, hwatch, hdone⟩ := @stops svcName s hctx
  have hbody₁ : s₁.body = .waiting := by
    rw [← hbody]
    clear hdone
    induction hwatch with
    | refl => rfl
    | tail _ hs ih => exact hs.body_eq.trans ih
  obtain ⟨clients, hclients⟩ := close_closed (p := s₁.picker) []
  have hclose : Relation.ReflTransGen Close s₁ _ := .head (.stopped hbody₁ hdone)
    (.head (.take rfl [] hclients) (closing_ends rfl))
  exact ⟨_, (hwatch.lift id fun _ _ => .watch).trans (hclose.lift id fun _ _ => .close), rfl⟩

theorem Books.unforced (h : Books s) (hstage : s.body.stage ≤ 2) :
    ∃ s', Relation.ReflTransGen (Step svcName) s s' ∧ s'.body = .finished none := by
  cases hbody : s.body with
  | idle =>
    obtain ⟨s', hsteps, hend⟩ :=
      @waiting_ends svcName { s with cancelled := true, body := .waiting } rfl rfl
    exact ⟨s', .head (.once hbody) (.head (.close (.cancel rfl)) hsteps), hend⟩
  | entered =>
    obtain ⟨s', hsteps, hend⟩ :=
      @waiting_ends svcName { s with cancelled := true, body := .waiting } rfl rfl
    exact ⟨s', .head (.close (.cancel hbody)) hsteps, hend⟩
  | waiting =>
    refine waiting_ends hbody (h.cancelled.2 ?_)
    rw [hbody]
    exact Nat.le_refl 2
  | locking err => simp [hbody] at hstage
  | closing err clients => simp [hbody] at hstage
  | finished err => simp [hbody] at hstage

/-- Nothing moves after a `Close` that has waited for the goroutine. -/
theorem Books.final (h : Books s) {err : Option CloseErr} (hbody : s.body = .finished err)
    (herr : err ≠ some .timeout) : s.phase = .done ∧ s.picker.clients = ∅ ∧ s.etcdClosed = true ∧
      (∀ c < s.picker.nextClient, c ∈ s.closes) ∧ ∀ s', ¬ Step svcName s s' := by
  have hstage : s.body.stage = 5 := by
    rw [hbody]
    rfl
  have hnot : ¬ s.body.timedOut := by
    rw [hbody]
    exact herr
  have hdone := h.stopped (by omega) hnot
  have hempty := h.empty (by omega) hnot
  refine ⟨hdone, hempty, h.etcd.2 hstage, ?_, ?_⟩
  · intro c hc
    have hkept := h.kept hc
    rw [hempty, hdone, hbody] at hkept
    rcases hkept with ⟨a, ha⟩ | hc | hc | hc
    · cases ha
    · cases hc
    · cases hc
    · exact hc
  · intro s' hs
    cases hs with
    | watch hs => exact hs.not_done hdone
    | once hidle => simp [hbody] at hidle
    | close hs => exact hs.not_finished hbody

/-- What can be said of the clients and of `Close` at any time. -/
structure Accounted (svcName : GoString) (s : State) : Prop where
  /-- No client is closed twice, and none will be. -/
  once : (s.phase.hands ++ (s.body.hands ++ s.closes)).Nodup
  /-- The clients that the picker hands out are open. -/
  unclosed : ∀ a c, s.picker.clients.lookup a = some c → c ∉ s.closes
  /-- No client is forgotten. -/
  kept : ∀ c < s.picker.nextClient, (∃ a, s.picker.clients.lookup a = some c) ∨
    c ∈ s.phase.hands ∨ c ∈ s.body.hands ∨ c ∈ s.closes
  /-- `Close` comes to an end, whatever the goroutine does in the meantime. -/
  completes : s.body ≠ .idle →
    Completes (Watch svcName) Close (fun s => ∃ err, s.body = .finished err) s
  /-- It is not bound to run into the timeout. -/
  unforced : s.body.stage ≤ 2 →
    ∃ s', Relation.ReflTransGen (Step svcName) s s' ∧ s'.body = .finished none
  /-- If it does not, then the goroutine has ended, everything is closed, and nothing changes. -/
  final : ∀ err, s.body = .finished err → err ≠ some .timeout → s.phase = .done ∧
    s.picker.clients = ∅ ∧ s.etcdClosed = true ∧ (∀ c < s.picker.nextClient, c ∈ s.closes) ∧
    ∀ s', ¬ Step svcName s s'

/-- **A picker closes every client once.** This holds however the steps of `Close` and of the
goroutine that watches the registry are interleaved. -/
theorem picker_closes (hp : p.Reachable) (hopen : p.closeOnce = false)
    (hrun : Relation.ReflTransGen (Step svcName) (start p) s) : Accounted svcName s := by
  have h := books hp hopen hrun
  exact ⟨h.nodup, fun _ _ hc => h.unclosed hc, fun _ hc => h.kept hc, close_completes, h.unforced,
    fun _ hbody herr => h.final hbody herr⟩

/-- The watch has taken a member away when `Close` is called, and closes its client meanwhile. -/
theorem removed_while_closing : ∃ s, Relation.ReflTransGen (Step (ascii "locache"))
    (start (twoPickers true)) s ∧ s.body = .finished none ∧ s.closes = [0] ∧
      Accounted (ascii "locache") s := by
  have hp : (twoPickers true).Reachable :=
    ⟨ascii "a:1", addr_ne_nil, .default, 100, by decide, .single (.addMember (fun _ => true)
      (ascii "b:1"))⟩
  have hclient : ((twoPickers true).handle (fun _ => true) (ascii "locache")
      (.delete (serviceKey (ascii "locache") (ascii "b:1")) none)).closed =
        (some 0).toList ++ (twoPickers true).closed := by
    decide
  have hrun : Relation.ReflTransGen (Step (ascii "locache")) (start (twoPickers true)) _ :=
    .head (.watch (.enter rfl rfl)) <|
    .head (.watch (.response rfl [.delete (serviceKey (ascii "locache") (ascii "b:1")) none])) <|
    .head (.watch (.event rfl (fun _ => true) hclient)) <|
    .head (.once rfl) <|
    .head (.close (.cancel rfl)) <|
    .head (.watch (.dropped rfl)) <|
    .head (.watch (.applied rfl)) <|
    .head (.watch (.interrupt rfl)) <|
    .head (.watch (.exit (Or.inr rfl) rfl)) <|
    .head (.watch (.signal rfl)) <|
    .head (.close (.stopped rfl rfl)) <|
    .head (.close (@Close.take _ none rfl [] [] (by decide))) <|
    .single (.close (.finish rfl false))
  exact ⟨_, hrun, rfl, by decide, picker_closes hp rfl hrun⟩

/-- **After a timeout a client may stay open**: one that the goroutine makes after `Close` has taken
the clients is closed by nobody. -/
theorem timeout_leaves_open {addr : GoString} (hne : addr ≠ []) (hp : p.Reachable)
    (hnew : addr ∉ p.members) : ∃ s, Relation.ReflTransGen (Step svcName) (start p) s ∧
      s.body = .finished (some .timeout) ∧ s.picker.clients.lookup addr = some p.nextClient ∧
      p.nextClient ∉ s.closes ∧ ∀ s', ¬ Step svcName s s' := by
  obtain ⟨clients, hclients⟩ := @close_closed p []
  have hfresh : p.nextClient ∉ clients.reverse ++ p.closed := by
    rw [← hclients]
    intro hmem
    have hlt := (reachable_of_step hp (.close [])).clients.closed _ hmem
    simp only [ClientPicker.close] at hlt
    split_ifs at hlt <;> exact Nat.lt_irrefl _ hlt
  have hadd : (p.close []).handle (fun _ => true) svcName (register svcName addr) =
      (p.close []).addMember (fun _ => true) addr := by
    simp [ClientPicker.handle, register, hne]
  have hlookup : ((p.close []).addMember (fun _ => true) addr).clients.lookup addr =
      some p.nextClient := by
    have hself : addr ≠ p.selfAddr := by
      rintro rfl
      exact hnew hp.inv.self
    simp only [ClientPicker.close]
    split_ifs <;> simp only [ClientPicker.addMember, hne, hnew, hself, ne_eq, not_false_eq_true,
      and_self, ↓reduceIte] <;> exact AList.lookup_insert _
  -- `Close` runs to its end inside a response that holds the registration
  have hclose : Relation.ReflTransGen (Step svcName) (start p) ⟨p.close [],
      clients.reverse ++ p.closed, true, .applying [register svcName addr],
      .finished (some .timeout), true⟩ :=
    .head (.watch (.enter rfl rfl)) <|
    .head (.watch (.response rfl [register svcName addr])) <|
    .head (.once rfl) <|
    .head (.close (.cancel rfl)) <|
    .head (.close (.timeout rfl)) <|
    .head (.close (.take rfl [] hclients)) <|
    (closing_ends rfl).lift id fun _ _ => .close
  have hevent := @Watch.event svcName ⟨p.close [], clients.reverse ++ p.closed, true,
    .applying [register svcName addr], .finished (some .timeout), true⟩ _ _ rfl (fun _ => true) none
    (by rw [hadd, addMember_closed]; rfl)
  rw [hadd] at hevent
  refine ⟨_, hclose.trans (.head (.watch hevent) <| .head (.watch (.applied rfl)) <|
    .head (.watch (.interrupt rfl)) <| .head (.watch (.exit (Or.inr rfl) rfl)) <|
    .single (.watch (.signal rfl))), rfl, hlookup, hfresh, ?_⟩
  intro s' hs
  cases hs with
  | watch hs => exact hs.not_done rfl
  | once hidle => cases hidle
  | close hs => exact hs.not_finished rfl

end Locache.Closing
