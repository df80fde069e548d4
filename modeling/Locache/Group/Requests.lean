import Locache.Group.Protocol

/-!
# Where a goroutine calls a peer

A goroutine that sends a request or waits for a reply holds no mutation state and is in no
singleflight call, and it waits only for the replies to requests it has sent (`Posted`). The
owner's side of the operations, which takes mutation states and enters singleflight calls, makes no
remote call at all (`Silent`); the requester's side is at rest whenever it makes one (`Posts`).
-/

namespace Locache

open Conc Prog

variable {g : Cfg} {call : Call} {h : History} {key : GoString} {value : Bytes} {α β : Type}

/-- The start and the end of a remote call. -/
def Op.isRpc : Op → Bool
  | .rpcStart _ _ | .rpcEnd _ => true
  | _ => false

/-- Where a goroutine that did `h` may make a remote call. -/
def Posted (h : History) : Op → Prop
  | .rpcStart _ _ => (loc h).Idle
  | .rpcEnd id =>
    (loc h).Idle ∧ ∃ addr req i, (⟨.rpcStart addr req, i, id⟩ : Ev groupSig Inp) ∈ h
  | _ => True

/-! ## The owner's side -/

/-- No remote call is made. -/
abbrev Silent (p : GoProg α) : Prop := p.Keeps fun (_ : History) o => o.isRpc = false

theorem Silent.op {o : Op} {f : o.Ans → GoProg β} (ho : o.isRpc = false)
    (hf : ∀ a, Silent (f a)) : Silent ((perform o).bind f) :=
  .op_bind (fun _ => ho) hf

theorem Silent.rethrow (r : Except Panic α) : Silent (rethrow r : GoProg α) :=
  Keeps.rethrow (S := groupSig) r

theorem prepareLocalOwner_silent : Silent (Group.prepareLocalOwner g key) := by
  unfold Group.prepareLocalOwner
  split
  · exact .ret _
  · refine Silent.op rfl fun p => ?_
    split
    · exact .ret _
    split
    · exact .ret _
    · exact Silent.op rfl fun _ => .ret _

theorem invalidateNearKey_silent : Silent (Group.invalidateNearKey g key) := by
  unfold Group.invalidateNearKey
  split
  · exact .ret _
  split
  · exact Silent.op rfl fun e => Silent.op rfl fun _ => .ret _
  · exact .ret _

theorem load_silent (epoch state : Nat) : Silent (Group.load g key epoch state) := by
  have hstill : Silent (Group.stillOwner g key epoch) := by
    unfold Group.stillOwner
    split
    · exact .ret _
    · exact Silent.op rfl fun p => .ret _
  refine Silent.op rfl fun begun => ?_
  cases begun with
  | hit view => exact .ret _
  | generation n =>
    refine Silent.op rfl fun _ => Silent.op rfl fun id => Silent.op rfl fun out => ?_
    refine .bind (Silent.rethrow out) fun fetched => ?_
    cases fetched with
    | error err => exact Silent.op rfl fun _ => .ret _
    | ok bytes =>
      refine .bind hstill fun still => ?_
      split
      · exact .ret _
      · refine Silent.op rfl fun commit => ?_
        cases commit <;> exact .ret _

theorem doFlight_silent {fn : GoProg (Except Err ByteView)} (hfn : Silent fn) :
    Silent (doFlight key fn) := by
  refine Silent.op rfl fun entry => ?_
  cases entry with
  | join c => exact Silent.op rfl fun r => Silent.rethrow r
  | lead c =>
    refine .bind hfn.recover fun r => ?_
    exact Silent.op rfl fun _ => Silent.op rfl fun _ => Silent.rethrow r

theorem getLocal_silent : Silent (Group.getLocal g key) := by
  refine Silent.op rfl fun closed => ?_
  split
  · exact .ret _
  refine .bind prepareLocalOwner_silent fun prepared => ?_
  cases prepared with
  | error err => exact .ret _
  | ok epoch =>
    refine Silent.op rfl fun s => ?_
    refine .bind (Keeps.recover ?_) fun r => Silent.op rfl fun _ => Silent.rethrow r
    refine Silent.op rfl fun found => ?_
    cases found with
    | some view => exact Silent.op rfl fun _ => .ret _
    | none =>
      refine Silent.op rfl fun _ => ?_
      split
      · exact .ret _
      · refine .bind (doFlight_silent (load_silent epoch s)) fun r => ?_
        cases r <;> exact .ret _

theorem setLocal_silent : Silent (Group.setLocal g key value) := by
  refine Silent.op rfl fun closed => ?_
  split
  · exact .ret _
  refine .bind prepareLocalOwner_silent fun prepared => ?_
  split
  · exact .ret _
  · refine Silent.op rfl fun s => Silent.op rfl fun _ => ?_
    refine .bind invalidateNearKey_silent fun _ => ?_
    exact Silent.op rfl fun _ => .ret _

theorem deleteLocal_silent : Silent (Group.deleteLocal g key) := by
  refine Silent.op rfl fun s => Silent.op rfl fun _ => ?_
  refine .bind invalidateNearKey_silent fun _ => ?_
  exact Silent.op rfl fun _ => .ret _

theorem deleteOwnerLocal_silent : Silent (Group.deleteOwnerLocal g key) := by
  refine Silent.op rfl fun closed => ?_
  split
  · exact .ret _
  refine .bind prepareLocalOwner_silent fun prepared => ?_
  split
  · exact .ret _
  · exact .bind deleteLocal_silent fun _ => .ret _

/-- A handler makes no remote call. -/
theorem handle_silent (req : Req) : Silent (Server.handle g req) := by
  cases req with
  | get group key =>
    refine Silent.op rfl fun found => ?_
    split
    · refine .bind getLocal_silent fun r => ?_
      cases r <;> exact .ret _
    · exact .ret _
  | set group key value =>
    refine Silent.op rfl fun found => ?_
    split
    · refine .bind setLocal_silent fun r => ?_
      cases r <;> exact .ret _
    · exact .ret _
  | delete group key =>
    refine Silent.op rfl fun found => ?_
    split
    · refine .bind deleteOwnerLocal_silent fun r => ?_
      cases r <;> exact .ret _
    · exact .ret _
  | invalidate group key =>
    refine Silent.op rfl fun found => ?_
    split
    · exact .bind deleteLocal_silent fun _ => .ret _
    · exact .ret _

/-! ## The requester's side -/

/-- Started at rest, the program is at rest whenever it makes a remote call, and when it ends. -/
def Posts (p : GoProg α) : Prop :=
  ∀ h, (loc h).Idle → p.Follows Posted (fun h' _ => (loc h').Idle) h

theorem idle_cons (hl : (loc h).Idle) (o : Op) (ho : o.moves = false) (i : Inp) (a : o.Ans) :
    (loc (⟨o, i, a⟩ :: h)).Idle := by
  obtain ⟨hheld, hst⟩ := hl
  cases o with
  | pickOwner site key =>
    refine ⟨hheld, ?_⟩
    cases site <;> simp [Loc.next, Loc.nextStage, hst]
  | _ => first
    | exact ⟨hheld, hst⟩
    | cases ho

namespace Posts

theorem ret (a : α) : Posts (ret a) := fun _ hl => hl

theorem op {o : Op} {f : o.Ans → GoProg β} (hm : o.moves = false) (ho : o.isRpc = false)
    (hf : ∀ a, Posts (f a)) : Posts ((perform o).bind f) := by
  intro h hl
  refine Follows.op_bind ?_ ?_
  · cases o <;> trivial
  · intro i a
    exact hf a _ (idle_cons hl o hm i a)

theorem bind {p : GoProg α} {f : α → GoProg β} (hp : Posts p) (hf : ∀ a, Posts (f a)) :
    Posts (p.bind f) := by
  intro h hl
  refine (hp h hl).bind ?_ ?_
  · intro h' a _ hl'
    exact hf a h' hl'
  · intro h' e _ hl'
    exact hl'

/-- The owner's side, which comes back to rest. -/
theorem silent {p : GoProg α} (hs : Silent p)
    (hf : ∀ h ro, Rests ro h → p.Follows (Allowed g call) (fun h' _ => Rests ro h') h) :
    Posts p := by
  intro h hl
  have hrests : Rests (loc h).route h := by
    obtain ⟨hheld, hst⟩ := hl
    refine ⟨(loc h).epoch, (loc h).out, ?_⟩
    rw [← hheld, ← hst]
  refine ((hf h _ hrests).and (hs h)).mono ?_ ?_
  · intro h' o _ hJ
    have ho := hJ.2
    cases o <;> trivial
  · intro h' r _ hF
    exact hF.1.idle

end Posts

theorem getLocal_posts : Posts (Group.getLocal g key) := by
  have hr : Call.Reads (.get key) key := rfl
  apply Posts.silent getLocal_silent
  rintro h ro ⟨eo, ou, hl⟩
  refine (getLocal_follows hr hl).mono (fun _ _ _ hJ => hJ) ?_
  rintro h' r - ⟨eo', ou', hl', -⟩
  exact ⟨eo', ou', hl'⟩

theorem setLocal_posts : Posts (Group.setLocal g key value) := by
  have hw : Call.Writes (.set key value) key value := ⟨rfl, rfl⟩
  apply Posts.silent setLocal_silent
  intro h ro hl
  exact (setLocal_follows hw hl).mono (fun _ _ _ hJ => hJ) fun h' r _ hF => hF.1

theorem deleteLocal_posts : Posts (Group.deleteLocal g key) := by
  have hd : Call.Deletes (.delete key) key := rfl
  apply Posts.silent deleteLocal_silent
  intro h ro hl
  exact (deleteLocal_follows hd hl).mono (fun _ _ _ hJ => hJ) fun h' r _ hF => hF.1

theorem Client.call_posts {c : Option Client} {what : GoString} {req : Req} :
    Posts (Client.call c what req) := by
  intro h hl
  cases c with
  | none => exact hl
  | some c =>
    refine Follows.op_bind hl ?_
    intro i id
    have hl₁ : (loc (⟨.rpcStart c.addr req, i, id⟩ :: h)).Idle :=
      idle_cons hl (.rpcStart c.addr req) rfl i id
    refine Follows.op_bind ⟨hl₁, c.addr, req, i, List.mem_cons_self⟩ ?_
    intro j reply
    have hl₂ : (loc (⟨.rpcEnd id, j, reply⟩ :: ⟨.rpcStart c.addr req, i, id⟩ :: h)).Idle :=
      idle_cons hl₁ (.rpcEnd id) rfl j reply
    cases reply with
    | ok resp => exact hl₂
    | error err => exact hl₂

theorem Client.startInvalidates_posts (group : GoString) (cs : List Client) (h : History)
    (hl : (loc h).Idle) : (Client.startInvalidates group key cs).Follows Posted (fun h' r =>
      (loc h').Idle ∧ ∃ calls, r = .ok calls ∧ ∀ x ∈ calls, ∃ i,
        (⟨.rpcStart x.1.addr (.invalidate group key), i, x.2⟩ : Ev groupSig Inp) ∈ h') h := by
  induction cs generalizing h with
  | nil => exact ⟨hl, [], rfl, by simp⟩
  | cons c cs ih =>
    refine Follows.op_bind hl ?_
    intro i id
    have hl₁ : (loc (⟨.rpcStart c.addr (.invalidate group key), i, id⟩ :: h)).Idle :=
      idle_cons hl (.rpcStart c.addr (.invalidate group key)) rfl i id
    refine (ih _ hl₁).bind ?_ ?_
    · rintro h' calls hsuf ⟨hl', _, ⟨⟩, hmem⟩
      refine ⟨hl', (c, id) :: calls, rfl, ?_⟩
      refine List.forall_mem_cons.2 ⟨⟨i, ?_⟩, hmem⟩
      exact hsuf.subset List.mem_cons_self
    · rintro h' e - ⟨-, _, hr, -⟩
      cases hr

theorem Client.waitInvalidates_posts {group : GoString} (calls : List (Client × Nat)) (h : History)
    (hl : (loc h).Idle) (hc : ∀ x ∈ calls, ∃ i,
      (⟨.rpcStart x.1.addr (.invalidate group key), i, x.2⟩ : Ev groupSig Inp) ∈ h) :
    (Client.waitInvalidates calls).Follows Posted (fun h' _ => (loc h').Idle) h := by
  induction calls generalizing h with
  | nil => exact hl
  | cons x calls ih =>
    obtain ⟨i, hi⟩ := hc x List.mem_cons_self
    refine Follows.op_bind ⟨hl, _, _, i, hi⟩ ?_
    intro j reply
    have hrest : ∀ y ∈ calls, ∃ i, (⟨.rpcStart y.1.addr (.invalidate group key), i, y.2⟩ :
        Ev groupSig Inp) ∈ (⟨.rpcEnd x.2, j, reply⟩ : Ev groupSig Inp) :: h := by
      intro y hy
      obtain ⟨i, hi⟩ := hc y (List.mem_cons_of_mem _ hy)
      exact ⟨i, List.mem_cons_of_mem _ hi⟩
    refine (ih _ (idle_cons hl (.rpcEnd x.2) rfl j reply) hrest).bind ?_ ?_
    · intro h' errs _ hl'
      cases reply <;> exact hl'
    · intro h' e _ hl'
      exact hl'

theorem invalidatePeerCopies_posts (owner : GoString) :
    Posts (Group.invalidatePeerCopies g key owner) := by
  unfold Group.invalidatePeerCopies
  split
  · exact .ret _
  refine .bind ?_ ?_
  · refine Posts.op (o := .invalidateTargets owner) rfl rfl ?_
    intro targets h hl
    refine (Client.startInvalidates_posts g.name targets h hl).bind ?_ ?_
    · rintro h' calls - ⟨hl', _, ⟨⟩, hmem⟩
      exact Client.waitInvalidates_posts calls h' hl' hmem
    · rintro h' e - ⟨hl', -⟩
      exact hl'
  · intro errs
    split
    · exact Posts.op (o := .count .invalidationFailures) rfl rfl fun _ => .ret _
    · exact .ret _

theorem invalidateNearKey_posts : Posts (Group.invalidateNearKey g key) := by
  unfold Group.invalidateNearKey
  split
  · exact .ret _
  split
  · exact Posts.op (o := .epoch) rfl rfl fun e => Posts.op rfl rfl fun _ => .ret _
  · exact .ret _

theorem invalidateLocalCopies_posts : Posts (Group.invalidateLocalCopies g key) := by
  unfold Group.invalidateLocalCopies
  split
  · refine Posts.op (o := .pickOwner .copies key) rfl rfl fun p => ?_
    split
    · exact Posts.op (o := .mainDelete key) rfl rfl fun _ => invalidateNearKey_posts
    · exact invalidateNearKey_posts
  · exact invalidateNearKey_posts

theorem addNear_posts {nearKey : GoString} {v : ByteView} : Posts (Group.addNear g nearKey v) :=
  Posts.op (o := .now) rfl rfl fun _ => Posts.op (o := .until _) rfl rfl fun _ =>
    Posts.op (o := .nearSet _ _ _) rfl rfl fun _ => .ret _

theorem getNear_posts {p : Pick} : Posts (Group.getNear g key p) := by
  unfold Group.getNear
  split
  · exact .ret _
  refine Posts.op (o := .nearGet _) rfl rfl fun found => ?_
  cases found with
  | none => exact Posts.op (o := .count _) rfl rfl fun _ => .ret _
  | some view =>
    refine Posts.op (o := .pickOwner .nearHit key) rfl rfl fun q => ?_
    split
    · exact Posts.op (o := .count _) rfl rfl fun _ => .ret _
    · exact Posts.op (o := .nearDelete _) rfl rfl fun _ =>
        Posts.op (o := .count _) rfl rfl fun _ => .ret _

/-- The answer to a failed call of the owner. -/
theorem retry_posts {refused : Bool} {left epoch : Nat} {exhausted other : α}
    {next : Option Err → GoProg α} (hnext : ∀ waited, Posts (next waited)) :
    Posts (if refused then
        if left = 0 then pure exhausted else perform (.waitTopology epoch) >>= next
      else pure other) := by
  split
  · split
    · exact .ret _
    · exact Posts.op (o := .waitTopology epoch) rfl rfl hnext
  · exact .ret _

theorem getAttempts_posts (left : Nat) : Posts (Group.getAttempts g key left) := by
  induction left with
  | zero => exact .ret _
  | succ left ih =>
    refine Posts.op (o := .pickOwner .route key) rfl rfl fun p => ?_
    split
    · exact .ret _
    split
    · refine .bind getLocal_posts fun r => ?_
      cases r with
      | ok view => exact .ret _
      | error err =>
        change Posts (if _ then _ else _)
        split
        · exact ih
        · exact .ret _
    · split
      · exact .ret _
      refine .bind getNear_posts fun found => ?_
      cases found with
      | some view => exact .ret _
      | none =>
        refine .bind (.bind Client.call_posts fun _ => .ret _) fun r => ?_
        cases r with
        | error err =>
          refine Posts.op (o := .count _) rfl rfl fun _ => ?_
          apply retry_posts
          intro waited
          cases waited with
          | none => exact ih
          | some e => exact .ret _
        | ok bytes =>
          refine Posts.op (o := .pickOwner .verify key) rfl rfl fun q => ?_
          split
          · exact ih
          · refine Posts.op (o := .count _) rfl rfl fun _ => ?_
            split
            · exact .bind addNear_posts fun _ => .ret _
            · exact .ret _

theorem get_posts : Posts (Group.get g key) := by
  refine Posts.op (o := .loadClosed) rfl rfl fun closed => ?_
  split
  · exact .ret _
  split
  · exact .ret _
  split
  · exact getLocal_posts
  · exact getAttempts_posts 4

theorem checkOwner_posts {p : Pick} {left : Nat} {finish retry : GoProg (Option Err)}
    (hf : Posts finish) (hr : Posts retry) :
    Posts (Group.checkOwner key p left finish retry) := by
  refine Posts.op (o := .pickOwner .verify key) rfl rfl fun q => ?_
  split
  · exact hf
  split
  · exact .ret _
  · exact hr

theorem finishSet_posts (owner : GoString) (epoch : Nat) :
    Posts (Group.finishSet g key value owner epoch) := by
  refine Posts.op (o := .count _) rfl rfl fun _ => ?_
  refine .bind invalidateLocalCopies_posts fun _ => ?_
  refine .bind (invalidatePeerCopies_posts owner) fun _ => ?_
  split
  · refine Posts.op (o := .pickOwner .refresh key) rfl rfl fun q => ?_
    split
    · exact .bind addNear_posts fun _ => .ret _
    · exact .ret _
  · exact .ret _

theorem setAttempts_posts (left : Nat) (owner : GoString) :
    Posts (Group.setAttempts g key value left owner) := by
  induction left generalizing owner with
  | zero => exact finishSet_posts owner 0
  | succ left ih =>
    refine Posts.op (o := .pickOwner .route key) rfl rfl fun p => ?_
    split
    · exact .ret _
    split
    · refine .bind setLocal_posts fun r => ?_
      cases r with
      | some err =>
        change Posts (if _ then _ else _)
        split
        · exact ih _
        · exact .ret _
      | none => exact checkOwner_posts (finishSet_posts _ _) (ih _)
    · split
      · exact .ret _
      refine .bind ?_ fun r => ?_
      · refine .bind Client.call_posts fun r => ?_
        cases r <;> exact .ret _
      cases r with
      | some err =>
        apply retry_posts
        intro waited
        cases waited with
        | none => exact ih _
        | some e => exact .ret _
      | none => exact checkOwner_posts (finishSet_posts _ _) (ih _)

theorem set_posts : Posts (Group.set g key value) := by
  refine Posts.op (o := .loadClosed) rfl rfl fun closed => ?_
  split
  · exact .ret _
  split
  · exact .ret _
  split
  · exact .ret _
  split
  · refine .bind setLocal_posts fun r => ?_
    cases r with
    | some err => exact .ret _
    | none => exact finishSet_posts _ _
  · exact setAttempts_posts 4 []

theorem finishDelete_posts (owner : GoString) : Posts (Group.finishDelete g key owner) := by
  refine Posts.op (o := .count _) rfl rfl fun _ => ?_
  refine .bind invalidateLocalCopies_posts fun _ => ?_
  exact .bind (invalidatePeerCopies_posts owner) fun _ => .ret _

theorem deleteAttempts_posts (left : Nat) (owner : GoString) :
    Posts (Group.deleteAttempts g key left owner) := by
  induction left generalizing owner with
  | zero => exact finishDelete_posts owner
  | succ left ih =>
    refine Posts.op (o := .pickOwner .route key) rfl rfl fun p => ?_
    split
    · exact .ret _
    split
    · exact .bind deleteLocal_posts fun _ => checkOwner_posts (finishDelete_posts _) (ih _)
    · split
      · exact .ret _
      refine .bind (.bind Client.call_posts fun _ => .ret _) fun r => ?_
      cases r with
      | error err =>
        apply retry_posts
        intro waited
        cases waited with
        | none => exact ih _
        | some e => exact .ret _
      | ok removed => exact checkOwner_posts (finishDelete_posts _) (ih _)

theorem delete_posts : Posts (Group.delete g key) := by
  refine Posts.op (o := .loadClosed) rfl rfl fun closed => ?_
  split
  · exact .ret _
  split
  · exact .ret _
  split
  · exact .bind deleteLocal_posts fun _ => finishDelete_posts _
  · exact deleteAttempts_posts 4 []

theorem clear_posts : Posts (Group.clear g) := by
  have hmain : ∀ n i, Posts (Group.clearMainFrom i n) := by
    intro n
    induction n with
    | zero => exact fun _ => .ret _
    | succ n ih => exact fun i => Posts.op (o := .mainClear i) rfl rfl fun _ => ih (i + 1)
  have hnear : ∀ n i, Posts (Group.clearNearFrom i n) := by
    intro n
    induction n with
    | zero => exact fun _ => .ret _
    | succ n ih => exact fun i => Posts.op (o := .nearClear i) rfl rfl fun _ => ih (i + 1)
  refine Posts.op (o := .loadClosed) rfl rfl fun closed => ?_
  split
  · exact .ret _
  refine .bind (hmain _ _) fun _ => ?_
  split
  · exact hnear _ _
  · exact .ret _

theorem close_posts : Posts (Group.close g) := by
  refine Posts.op (o := .casClosed) rfl rfl fun won => ?_
  split
  · exact .ret _
  refine Posts.op (o := .mainClose) rfl rfl fun _ => ?_
  split
  · exact Posts.op (o := .nearClose) rfl rfl fun _ => Posts.op (o := .unregister) rfl rfl fun _ =>
      .ret _
  · exact Posts.op (o := .unregister) rfl rfl fun _ => .ret _

/-- Every program of a node makes its remote calls at rest. -/
def postedProtocol (g : Cfg) : Protocol (node g) where
  allows := fun _ => Posted
  ends := fun _ _ _ => True
  follows := by
    intro call
    have hidle : (loc []).Idle := ⟨rfl, rfl⟩
    suffices hs : (Node.prog g call).Follows Posted (fun _ _ => True) [] from hs
    have hend : ∀ {p : GoProg Res}, Posts p → p.Follows Posted (fun _ _ => True) [] := by
      intro p hp
      exact (hp [] hidle).mono (fun _ _ _ hJ => hJ) fun _ _ _ _ => trivial
    cases call with
    | get key => exact hend (.bind get_posts fun _ => .ret _)
    | set key value => exact hend (.bind set_posts fun _ => .ret _)
    | delete key => exact hend (.bind delete_posts fun _ => .ret _)
    | clear => exact hend (.bind clear_posts fun _ => .ret _)
    | close => exact hend (.bind close_posts fun _ => .ret _)
    | serve src req =>
      have hs : Silent (Node.prog g (.serve src req)) := .bind (handle_silent req) fun _ => .ret _
      refine (hs []).mono ?_ fun _ _ _ _ => trivial
      intro h o _ ho
      cases o <;> trivial

end Locache
