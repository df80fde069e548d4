import Locache.Group.Attempts
import Locache.Group.Flight

/-!
# Errors across the wire

An error of the owner reaches the requester through two translations: `mapGroupError` makes a status
of it, and `classifyRPCError` makes a sentinel of the status that arrives. Sentinels survive both
(`class_relayed`). Everything else passes the first translation as it is, so the code of a status
error that the Getter returned is read by the second one as if the group had chosen it.

`class_preserved_iff` says when the requester's error is in the class of the owner's.
-/

namespace Locache

open Conc Prog

/-! ## Classes -/

inductive ErrClass where
  | miss
  | topology
  | other
  deriving DecidableEq, Repr

namespace Err

/-- What a caller can tell of an error by `errors.Is`. -/
def errClass (err : Err) : ErrClass :=
  if err.is .cacheMiss then .miss
  else if err.is .notOwner || err.is .topologyChanged || err.is .noOwner then .topology
  else .other

/-- The error is or wraps a status error. -/
def hasStatus : Err → Bool
  | .status _ _ => true
  | .wrap _ inner _ => inner.hasStatus
  | _ => false

/-- An error that wraps none of the package's own. -/
def Foreign (err : Err) : Prop := ∀ s, err.is s = false

/-- An error that is or wraps one of the package's own. -/
def Own (err : Err) : Prop := ∃ s, err.is s = true

/-- The client would take the code of this error for one that the group sent. -/
def Confusable (err : Err) : Prop := err.code = .notFound ∨ err.code = .failedPrecondition

/-- What arrives at the client when a handler returns this error: a status error with the code of
the status error it is or wraps. Any other error travels as `Unknown`, `Canceled` or
`DeadlineExceeded`. -/
inductive Travels (err : Err) : Err → Prop where
  | status (msg : GoString) (h : err.hasStatus = true) : Travels err (.status err.code msg)
  | plain (code : Code) (msg : GoString) (h : err.hasStatus = false)
      (hcode : code = .unknown ∨ code = .canceled ∨ code = .deadlineExceeded) :
      Travels err (.status code msg)

variable {err err' : Err}

@[simp] theorem errClass_wrap (pre post : GoString) (err : Err) :
    (Err.wrap pre err post).errClass = err.errClass := rfl

/-- An error that is one of the package's own is no other of them, and has no status. -/
theorem is_eq {s : Sentinel} (h : err.is s = true) (s' : Sentinel) :
    err.is s' = decide (s = s') := by
  induction err with
  | sentinel s'' =>
    obtain rfl : s'' = s := by simpa using h
    rfl
  | wrap pre inner post ih => exact ih h
  | _ => cases h

theorem code_of_is {s : Sentinel} (h : err.is s = true) : err.code = .unknown := by
  induction err with
  | sentinel s' => rfl
  | wrap pre inner post ih => exact ih h
  | _ => cases h

theorem Foreign.errClass (h : err.Foreign) : err.errClass = .other := by
  simp [Err.errClass, h _]

theorem code_of_not_hasStatus (h : err.hasStatus = false) : err.code = .unknown := by
  induction err with
  | status code msg => cases h
  | wrap pre inner post ih => exact ih h
  | _ => rfl

/-- The class the client gives to a status error. -/
theorem errClass_classify (code : Code) (msg : GoString) :
    (Client.classifyRPCError (.status code msg)).errClass =
      match code with
      | .failedPrecondition => .topology
      | .notFound => .miss
      | _ => .other := by
  cases code <;> rfl

end Err

open Err

/-- A status that the group sends arrives in the class of its code. -/
theorem class_of_status {code : Code} {text : GoString} {w : Err}
    (h : Travels (.status code text) w) : ∃ msg, w = .status code msg := by
  cases h with
  | status msg _ => exact ⟨msg, rfl⟩
  | plain _ _ hno _ => cases hno

/-- An error that passes `mapGroupError` as it is arrives with its own code, if that matters. -/
theorem class_of_default {err w : Err} (h : Travels err w) :
    (Client.classifyRPCError w).errClass = .other ↔ ¬err.Confusable := by
  cases h with
  | status msg _ =>
    rw [errClass_classify]
    unfold Err.Confusable
    cases err.code <;> simp
  | plain code msg hno hcode =>
    have hnot : ¬err.Confusable := by
      unfold Err.Confusable
      rw [code_of_not_hasStatus hno]
      simp
    rw [errClass_classify]
    rcases hcode with rfl | rfl | rfl <;> exact iff_of_true rfl hnot

/-- **An error and its translations.** The class of an error survives both translations unless the
error is none of the package's own and has a code that the group uses itself. -/
theorem class_relayed {err w : Err} (h : Travels (Server.mapGroupError err) w) :
    (Client.classifyRPCError w).errClass = err.errClass ↔ ¬(err.Foreign ∧ err.Confusable) := by
  by_cases hf : err.Foreign
  · have hmap : Server.mapGroupError err = err := by simp [Server.mapGroupError, hf _]
    rw [hmap] at h
    rw [hf.errClass, class_of_default h]
    simp [hf]
  · refine iff_of_true ?_ fun hno => hf hno.1
    obtain ⟨s, hs⟩ : ∃ s, err.is s = true := by simpa [Err.Foreign] using hf
    have hnot : ¬err.Confusable := by
      unfold Err.Confusable
      rw [code_of_is hs]
      simp
    -- the sentinel decides both translations
    cases s <;> simp only [Server.mapGroupError, Err.errClass, is_eq hs, reduceCtorEq,
      decide_true, decide_false, Bool.or_true, Bool.or_false, if_true, if_false,
      Bool.false_eq_true] at h ⊢
    case cacheMiss | groupClosed | notOwner | topologyChanged | noOwner =>
      obtain ⟨msg, rfl⟩ := class_of_status h
      rfl
    all_goals exact (class_of_default h).2 hnot

/-! ## What the owner returns -/

section Owner

variable {g : Cfg} {key : GoString} {h : History}

/-- The result `e` of a load that failed: the Getter's error or that of the load it joined. -/
def LoadFailed (h : History) (e : Err) : Prop :=
  (∃ id i, (⟨.getterEnd id, i, .ok (.error e)⟩ : Ev groupSig Inp) ∈ h) ∨
    ∃ c i, (⟨.doWait c, i, .ok (.error e)⟩ : Ev groupSig Inp) ∈ h

/-- An error of `getLocal` is one of the package's own, or what it makes of the error of a load. -/
def LocalErr (g : Cfg) (key : GoString) (h : History) (r : Except Panic (Except Err ByteView)) :
    Prop :=
  ∀ err, r = .ok (.error err) → err.Own ∨ ∃ e, LoadFailed h e ∧ err = Group.loadError g key e

theorem LoadFailed.mono {h h' : History} {e : Err} (he : LoadFailed h e) (hs : h <:+ h') :
    LoadFailed h' e := by
  rcases he with ⟨id, i, hm⟩ | ⟨c, i, hm⟩
  · exact Or.inl ⟨id, i, hs.subset hm⟩
  · exact Or.inr ⟨c, i, hs.subset hm⟩

/-- The error of a load is one of the package's own or one it was given. -/
def LoadErr (h : History) (r : Except Panic (Except Err ByteView)) : Prop :=
  ∀ e, r = .ok (.error e) → e.Own ∨ LoadFailed h e

theorem LoadErr.of_ok {v : ByteView} : LoadErr h (.ok (.ok v)) := by
  intro e he
  cases he

theorem LoadErr.sentinel (s : Sentinel) : LoadErr h (.ok (.error (.sentinel s))) := by
  intro e he
  cases he
  exact Or.inl ⟨s, decide_eq_true rfl⟩

theorem load_fails (epoch state : Nat) :
    (Group.load g key epoch state).Follows (fun _ _ => True) LoadErr h := by
  unfold Group.load
  refine Follows.op_bind trivial fun i begin_ => ?_
  cases begin_ with
  | hit view => exact LoadErr.of_ok
  | generation start =>
    refine Follows.op_bind trivial fun _ _ => Follows.op_bind trivial fun _ id => ?_
    refine Follows.op_bind trivial fun j out => ?_
    cases out with
    | error p =>
      intro e he
      cases he
    | ok loaded =>
      cases loaded with
      | error err =>
        refine Follows.op_bind trivial fun _ _ => ?_
        intro e he
        cases he
        exact Or.inr (Or.inl ⟨id, j, List.mem_cons_of_mem _ List.mem_cons_self⟩)
      | ok bytes =>
        change (Prog.bind (Group.stillOwner g key epoch) _).Follows _ _ _
        refine Follows.bind (Q := fun _ _ => True) (.of_end fun _ _ _ => trivial) ?_ ?_
        · intro h' still _ _
          split
          · exact LoadErr.sentinel .topologyChanged
          · refine Follows.op_bind trivial fun _ commit => ?_
            cases commit with
            | stored view => exact LoadErr.of_ok
            | existing view => exact LoadErr.of_ok
            | miss => exact LoadErr.sentinel .cacheMiss
        · intro h' p _ _ e he
          cases he

theorem doFlight_fails {fn : GoProg (Except Err ByteView)}
    (hfn : ∀ h, fn.Follows (fun _ _ => True) LoadErr h) :
    (doFlight key fn).Follows (fun _ _ => True) LoadErr h := by
  unfold doFlight
  refine Follows.op_bind trivial fun i entry => ?_
  cases entry with
  | join c =>
    refine Follows.op_bind trivial fun j r => ?_
    refine follows_rethrow.2 ?_
    intro e he
    subst he
    exact Or.inr (Or.inr ⟨c, j, List.mem_cons_self⟩)
  | lead c =>
    refine Follows.recover_bind (hfn _) fun h' r _ hr => ?_
    refine Follows.op_bind trivial fun _ _ => Follows.op_bind trivial fun _ _ => ?_
    refine follows_rethrow.2 ?_
    intro e he
    refine (hr e he).imp_right fun hload => ?_
    exact hload.mono ((List.suffix_cons _ _).trans (List.suffix_cons _ _))

theorem prepareLocalOwner_fails : (Group.prepareLocalOwner g key).Follows (fun _ _ => True)
    (fun _ r => ∀ err, r = .ok (.error err) → err.Own) h := by
  unfold Group.prepareLocalOwner
  split
  · intro err he
    cases he
  · refine Follows.op_bind trivial fun i p => ?_
    split
    · intro err he
      cases he
      exact ⟨.noOwner, rfl⟩
    · split
      · intro err he
        cases he
        exact ⟨.notOwner, rfl⟩
      · refine Follows.op_bind trivial fun j _ => ?_
        intro err he
        cases he

theorem getHeld_fails (epoch state : Nat) :
    (Group.getHeld g key epoch state).Follows (fun _ _ => True) (LocalErr g key) h := by
  unfold Group.getHeld
  refine Follows.op_bind trivial fun i found => ?_
  cases found with
  | some view =>
    refine Follows.op_bind trivial fun _ _ => ?_
    intro err he
    cases he
  | none =>
    refine Follows.op_bind trivial fun _ _ => ?_
    split
    · intro err he
      cases he
      exact Or.inl ⟨.cacheMiss, rfl⟩
    · refine (doFlight_fails (fun _ => load_fails epoch state)).bind ?_ ?_
      · intro h' r _ hr
        cases r with
        | ok view =>
          intro err he
          cases he
        | error e =>
          intro err he
          cases he
          rcases hr e rfl with ⟨s, hs⟩ | hload
          · refine Or.inl ⟨s, ?_⟩
            unfold Group.loadError
            split <;> exact hs
          · exact Or.inr ⟨e, hload, rfl⟩
      · intro h' p _ _ err he
        cases he

theorem getLocal_fails :
    (Group.getLocal g key).Follows (fun _ _ => True) (LocalErr g key) h := by
  unfold Group.getLocal
  refine Follows.op_bind trivial fun i closed => ?_
  split
  · intro err he
    cases he
    exact Or.inl ⟨.groupClosed, rfl⟩
  · refine prepareLocalOwner_fails.bind ?_ ?_
    · intro h' r _ hr
      cases r with
      | error err' =>
        intro err he
        cases he
        exact Or.inl (hr _ rfl)
      | ok epoch =>
        refine Follows.op_bind trivial fun _ state => ?_
        refine Follows.recover_bind (getHeld_fails epoch state) fun h'' r _ hr' => ?_
        refine Follows.op_bind trivial fun _ _ => ?_
        refine follows_rethrow.2 ?_
        intro err he
        refine (hr' err he).imp_right fun ⟨e, hload, heq⟩ => ?_
        exact ⟨e, hload.mono (List.suffix_cons _ _), heq⟩
    · intro h' p _ _ err he
      cases he

/-- The errors of a mutation are its own: they come from the closed flag and from the check. -/
theorem checked_fails {α : Type} {closed : α} {fails : α → Err → Prop}
    {rest : Except Err Nat → GoProg α} (hclosed : ∀ err, fails closed err → err.Own)
    (hrest : ∀ x (h : History), (rest x).Follows (fun _ _ => True)
      (fun _ r => ∀ a err, r = .ok a → fails a err → x = .error err) h) :
    ((perform .loadClosed).bind fun isClosed : Bool =>
      if isClosed then ret closed else (Group.prepareLocalOwner g key).bind rest).Follows
        (fun _ _ => True) (fun _ r => ∀ a err, r = .ok a → fails a err → err.Own) h := by
  refine Follows.op_bind trivial fun i isClosed => ?_
  split
  · intro a err ha he
    cases ha
    exact hclosed err he
  · refine prepareLocalOwner_fails.bind ?_ ?_
    · intro h' x _ hx
      refine (hrest x h').mono (fun _ _ _ hJ => hJ) ?_
      intro _ r _ hsame a err ha he
      exact hx err (congrArg Except.ok (hsame a err ha he))
    · intro h' p _ _ a err ha
      cases ha

theorem setLocal_fails (value : Bytes) : (Group.setLocal g key value).Follows (fun _ _ => True)
    (fun _ r => ∀ a err, r = .ok a → a = some err → err.Own) h := by
  refine checked_fails ?_ ?_
  · intro err he
    cases he
    exact ⟨.groupClosed, rfl⟩
  intro x h
  split
  · intro a err ha he
    cases ha
    cases he
    rfl
  · refine Follows.op_bind trivial fun _ state => Follows.op_bind trivial fun _ _ => ?_
    refine Follows.bind (Q := fun _ _ => True) (.of_end fun _ _ _ => trivial) ?_ ?_
    · intro h' _ _ _
      refine Follows.op_bind trivial fun _ _ => ?_
      intro a err ha he
      cases ha
      cases he
    · intro h' p _ _ a err ha
      cases ha

theorem deleteOwnerLocal_fails : (Group.deleteOwnerLocal g key).Follows (fun _ _ => True)
    (fun _ r => ∀ a err, r = .ok a → a = .error err → err.Own) h := by
  refine checked_fails ?_ ?_
  · intro err he
    cases he
    exact ⟨.groupClosed, rfl⟩
  intro x h
  split
  · intro a err ha he
    cases ha
    cases he
    rfl
  · refine Follows.bind (Q := fun _ _ => True) (.of_end fun _ _ _ => trivial) ?_ ?_
    · intro h' removed _ _ a err ha he
      cases ha
      cases he
    · intro h' p _ _ a err ha
      cases ha

end Owner

/-! ## Runs of the owner -/

section Runs

variable {g : Cfg} {σ₀ : State} {c : Config (node g)} {tr : Trace g} {t : Nat}

/-- A call of the Getter returned the error `e`. -/
def GetterFailed (tr : Trace g) (e : Err) : Prop :=
  ∃ u id i, .act u ⟨.getterEnd id, i, .ok (.error e)⟩ ∈ tr

theorem GetterFailed.cons {e : Err} {ℓ : Label (node g)} (h : GetterFailed tr e) :
    GetterFailed (ℓ :: tr) e := by
  obtain ⟨u, id, i, hm⟩ := h
  exact ⟨u, id, i, List.mem_cons_of_mem _ hm⟩

/-- The result that a stage of a load carries. -/
def Stage.result? : Stage → Option FlightResult
  | .decided _ r | .removed _ r => some r
  | _ => none

/-- The action in which a load fails. -/
theorem result_next {o : Op} {a : o.Ans} {ep : Option Nat} {st : Stage} {e : Err}
    (hr : (Loc.nextStage ep o a st).result? = some (.ok (.error e))) :
    st.result? = some (.ok (.error e)) ∨ e.Own ∨
      ∃ id, (⟨o, a⟩ : (o : Op) × o.Ans) = ⟨.getterEnd id, .ok (.error e)⟩ := by
  cases o with
  | loadBegin s key => cases a <;> cases st <;> first | exact Or.inl hr | cases hr
  | getterStart key => cases st <;> exact Or.inl hr
  | getterEnd id =>
    cases st with
    | loading c n id' =>
      match a, hr with
      | .ok (.error _), rfl => exact Or.inr (Or.inr ⟨id, rfl⟩)
    | _ =>
      match a with
      | .error p | .ok (.error err) | .ok (.ok b) => exact Or.inl hr
  | loadCommit s key n b =>
    cases st with
    | loaded c n' b' =>
      match a, hr with
      | .miss, rfl => exact Or.inr (Or.inl ⟨.cacheMiss, rfl⟩)
    | _ => cases a <;> exact Or.inl hr
  | pickOwner site key =>
    cases site with
    | load =>
      cases st with
      | loaded c n b =>
        dsimp only [Loc.nextStage] at hr
        split at hr
        · cases hr
        · cases hr
          exact Or.inr (Or.inl ⟨.topologyChanged, rfl⟩)
      | _ => exact Or.inl hr
    | _ => exact Or.inl hr
  | doEnter key => cases a <;> cases hr
  | doWait c => cases hr
  | doRemove key c => cases st <;> exact Or.inl hr
  | doDone c r => cases hr
  | _ => exact Or.inl hr

/-- A load fails with one of the package's own errors or with what its Getter call returned. -/
theorem result_of_history {h : History} {e : Err}
    (hr : (loc h).stage.result? = some (.ok (.error e))) :
    e.Own ∨ ∃ id i, (⟨.getterEnd id, i, .ok (.error e)⟩ : Ev groupSig Inp) ∈ h := by
  induction h with
  | nil => cases hr
  | cons ev h ih =>
    obtain ⟨o, i, a⟩ := ev
    rcases result_next hr with hold | hown | ⟨id, heq⟩
    · refine (ih hold).imp_right ?_
      rintro ⟨id, j, hm⟩
      exact ⟨id, j, List.mem_cons_of_mem _ hm⟩
    · exact Or.inl hown
    · cases heq
      exact Or.inr ⟨id, i, List.mem_cons_self⟩

/-- The error that a finished call left for those that joined it. -/
theorem Run.call_error (h₀ : σ₀.Fresh) (h : Run Free σ₀ c tr) :
    ∀ n e, c.state.calls n = some (.ok (.error e)) → e.Own ∨ GetterFailed tr e := by
  refine h.inv (P := protocol g) (I := fun tr σ => ∀ n e, σ.calls n = some (.ok (.error e)) →
    e.Own ∨ GetterFailed tr e) ⟨?_, ?_, ?_, ?_, ?_⟩
  · intro n e hn
    rw [h₀.calls] at hn
    cases hn
  · intro tr σ u call hI _ _ _ n e hn
    exact (hI n e hn).imp_right .cons
  · intro tr σ u call o i a σ' hI _ _ hallow hx n e hn
    rcases calls_of_exec hx hn with hold | rfl
    · exact (hI n e hold).imp_right .cons
    · obtain ⟨_, _, -, hstage⟩ := hallow
      have hresult : (loc (hist tr u)).stage.result? = some (.ok (.error e)) := by rw [hstage]; rfl
      refine (result_of_history hresult).imp_right ?_
      rintro ⟨id, j, hm⟩
      exact ⟨u, id, j, List.mem_cons_of_mem _ (mem_hist.1 hm)⟩
  · intro tr σ u call r hI _ _ _ n e hn
    exact (hI n e hn).imp_right .cons
  · intro tr σ ev σ' hI _ hx n e hn
    rw [(env_frame hx).flights.2.1] at hn
    exact (hI n e hn).imp_right .cons

/-- What a load failed with was the error of a Getter call, if it is none of the package's own. -/
theorem Run.loadFailed (h₀ : σ₀.Fresh) (h : Run Free σ₀ c tr) {e : Err}
    (he : LoadFailed (hist tr t) e) : e.Own ∨ GetterFailed tr e := by
  rcases he with ⟨id, i, hm⟩ | ⟨n, i, hm⟩
  · exact Or.inr ⟨t, id, i, mem_hist.1 hm⟩
  · obtain ⟨A, B, rfl⟩ := List.append_of_mem (mem_hist.1 hm)
    obtain ⟨c₁, cmd, c₂, hrun, hstep, -⟩ := h.split
    obtain ⟨-, -, -, hx⟩ := hrun.of_act (protocol g) hstep
    obtain ⟨-, σ₁, hact, -⟩ := exec_eq_some.1 hx
    have hcall : c₁.state.calls n = some (.ok (.error e)) := by
      obtain ⟨r, hr, heq⟩ := Option.map_eq_some_iff.1 hact
      cases heq
      exact hr
    refine (Run.call_error h₀ hrun n e hcall).imp_right ?_
    rintro ⟨u, id, j, hm⟩
    exact ⟨u, id, j, List.mem_append_right A (List.mem_cons_of_mem _ hm)⟩

end Runs

/-! ## From the owner to the requester -/

namespace Req

def group : Req → GoString
  | .get group _ | .set group _ _ | .delete group _ | .invalidate group _ => group

def key : Req → GoString
  | .get _ key | .set _ key _ | .delete _ key | .invalidate _ key => key

end Req

/-- The local operation that a request asks for did `h` and returned `err`. -/
def LocalFails (g : Cfg) (h : History) (err : Err) : Req → Prop
  | .get _ key => (Group.getLocal g key).Ends h (.ok (.error err))
  | .set _ key value => (Group.setLocal g key value).Ends h (.ok (some err))
  | .delete _ key => (Group.deleteOwnerLocal g key).Ends h (.ok (.error err))
  | .invalidate _ _ => False

/-- The method of the client that sends a request did `h` and returned `err`. -/
def Client.Fails (cl : Client) (h : History) (err : Err) : Req → Prop
  | .get group key => (Client.get (some cl) group key).Ends h (.ok (.error err))
  | .set group key value => (Client.set (some cl) group key value).Ends h (.ok (some err))
  | .delete group key => (Client.delete (some cl) group key).Ends h (.ok (.error err))
  | .invalidate _ _ => False

/-- A goroutine of the owner served the request, its local operation returned `err`, the error of
the handler travelled to the client, and the client's method returned `err'`. -/
def Relayed {g : Cfg} (tr : Trace g) (req : Req) (err err' : Err) : Prop :=
  ∃ t src h i w w' cl h' id j, .spawn t (.serve src req) ∈ tr ∧
    hist tr t = h ++ [⟨.getGroup req.group, i, true⟩] ∧ LocalFails g h err req ∧
    .ret t (.ok (.reply (.error w))) ∈ tr ∧ Travels w w' ∧
    Client.Fails cl h' err' req ∧ (⟨.rpcEnd id, j, .error w'⟩ : Ev groupSig Inp) ∈ h'

section Relayed

variable {g : Cfg} {req : Req} {h : History} {err err' : Err}

/-- The path of a handler: it finds the group, and its local operation fails. -/
theorem withGroup_ends {α : Type} {group : GoString} {p : GoProg α} {a : α}
    {reply : α → GoProg (Except Err Resp)} {r : Except Err Resp} (hp : p.Ends h (.ok a))
    (hreply : reply a = ret r) (i : Inp) :
    (Prog.bind (Server.withGroup group (p.bind reply)) fun r => ret (Res.reply r)).Ends
      (h ++ [⟨.getGroup group, i, true⟩]) (.ok (.reply r)) := by
  have hgroup : (perform (.getGroup group)).Ends [⟨.getGroup group, i, true⟩] (.ok true) :=
    Ends.op (S := groupSig) _ _ _
  have hend : (reply a).Ends ([] : History) (.ok r) := by
    rw [hreply]
    exact .ret .refl
  have hrest : (p.bind reply).Ends h (.ok r) := hp.bind hend
  have hhandler : (Server.withGroup group (p.bind reply)).Ends
      (h ++ [⟨.getGroup group, i, true⟩]) (.ok r) := Ends.bind hgroup hrest
  have hres : (ret (Res.reply r) : GoProg Res).Ends ([] : History) (.ok (.reply r)) := .ret .refl
  exact hhandler.bind (f := fun r => ret (Res.reply r)) hres

theorem handle_ends (hlocal : LocalFails g h err req) (src : GoString × Nat) (i : Inp) :
    (Node.prog g (.serve src req)).Ends (h ++ [⟨.getGroup req.group, i, true⟩])
      (.ok (.reply (.error (Server.mapGroupError err)))) := by
  cases req with
  | get group key => exact withGroup_ends hlocal rfl i
  | set group key value => exact withGroup_ends hlocal rfl i
  | delete group key => exact withGroup_ends (p := Group.deleteOwnerLocal g key) hlocal rfl i
  | invalidate group key => exact hlocal.elim

/-- The error is the client's reading of the reply. -/
def FromReply (h : History) (err : Err) : Prop :=
  ∃ w pre, err = .wrap pre (Client.classifyRPCError w) [] ∧
    ∀ id i x, (⟨.rpcEnd id, i, x⟩ : Ev groupSig Inp) ∈ h → x = .error w

theorem Client.call_fails {cl : Client} {what : GoString} :
    (Client.call (some cl) what req).Follows (fun _ _ => True)
      (fun h r => ∀ err, r = .ok (.error err) → FromReply h err) [] := by
  unfold Client.call
  refine Follows.op_bind trivial fun i id => Follows.op_bind trivial fun j reply => ?_
  cases reply with
  | ok resp =>
    intro err he
    cases he
  | error w =>
    intro err he
    cases he
    refine ⟨w, _, rfl, ?_⟩
    intro id' i' x hm
    rcases List.mem_cons.1 hm with heq | hm
    · cases heq
      rfl
    · rcases List.mem_cons.1 hm with heq | hm
      · cases heq
      · cases hm

/-- What a method makes of the reply keeps its error. -/
theorem Client.method_fails {α : Type} {cl : Client} {what : GoString} (fails : α → Err → Prop)
    {f : Except Err Resp → GoProg α}
    (hf : ∀ r, ∃ a, f r = ret a ∧ ∀ err, fails a err → r = .error err)
    {a : α} (hends : ((Client.call (some cl) what req).bind f).Ends h (.ok a)) (ha : fails a err) :
    FromReply h err := by
  have hspec : ((Client.call (some cl) what req).bind f).Follows (fun _ _ => True)
      (fun h r => ∀ a err, r = .ok a → fails a err → FromReply h err) [] := by
    refine Client.call_fails.bind ?_ ?_
    · intro h' r _ hr
      obtain ⟨a, heq, hback⟩ := hf r
      rw [heq]
      intro a' err ha' hfail
      cases ha'
      exact hr err (congrArg Except.ok (hback err hfail))
    · intro h' p _ _ a err ha
      cases ha
  exact hspec.of_ends hends a err rfl ha

theorem Client.Fails.fromReply {cl : Client} (hf : Client.Fails cl h err req) :
    FromReply h err := by
  cases req with
  | get group key =>
    refine Client.method_fails (fun a err => a = .error err) ?_ hf rfl
    intro r
    refine ⟨_, rfl, ?_⟩
    intro err he
    cases r <;> cases he
    rfl
  | set group key value =>
    refine Client.method_fails (fun a err => a = some err) ?_ hf rfl
    intro r
    cases r with
    | ok resp => exact ⟨_, rfl, fun err he => by cases he⟩
    | error err => exact ⟨_, rfl, fun _ he => by cases he; rfl⟩
  | delete group key =>
    refine Client.method_fails (fun a err => a = .error err) ?_ hf rfl
    intro r
    refine ⟨_, rfl, ?_⟩
    intro err he
    cases r <;> cases he
    rfl
  | invalidate group key => exact hf.elim

/-- An error of a local operation that is none of the package's own is the error of a load. -/
theorem LocalFails.own_or_load (hf : LocalFails g h err req) :
    err.Own ∨ ∃ e, LoadFailed h e ∧ err = Group.loadError g req.key e := by
  cases req with
  | get group key => exact getLocal_fails.of_ends hf err rfl
  | set group key value => exact Or.inl ((setLocal_fails value).of_ends hf _ err rfl rfl)
  | delete group key => exact Or.inl (deleteOwnerLocal_fails.of_ends hf _ err rfl rfl)
  | invalidate group key => exact hf.elim

theorem loadError_is (key : GoString) (e : Err) (s : Sentinel) :
    (Group.loadError g key e).is s = e.is s := by
  unfold Group.loadError
  split <;> rfl

theorem loadError_code (key : GoString) (e : Err) : (Group.loadError g key e).code = e.code := by
  unfold Group.loadError
  split <;> rfl

/-- **What becomes of the owner's error.** If no Getter call returned an error that wraps one of the
package's own, the error that the client returns is in the class of the one that the local operation
returned exactly if this is not a Getter's error with the code `NotFound` or `FailedPrecondition`.
-/
theorem class_preserved_iff {σ₀ : State} {c : Config (node g)} {tr : Trace g} (h₀ : σ₀.Fresh)
    (hrun : Run Free σ₀ c tr) (hforeign : ∀ e, GetterFailed tr e → e.Foreign)
    (hrel : Relayed tr req err err') :
    err'.errClass = err.errClass ↔
      ∀ e, GetterFailed tr e → err = Group.loadError g req.key e → ¬e.Confusable := by
  obtain ⟨t, src, h, i, w, w', cl, h', id, j, hspawn, hhist, hlocal, hret, htravel, hclient,
    hmem⟩ := hrel
  have hw : w = Server.mapGroupError err := by
    have hends := hrun.ends hspawn hret
    rw [hhist] at hends
    cases hends.unique (handle_ends hlocal src i)
    rfl
  subst hw
  obtain ⟨w'', pre, rfl, hreply⟩ := hclient.fromReply
  cases hreply id j _ hmem
  rw [errClass_wrap, class_relayed htravel]
  constructor
  · intro hnot e hfail heq hconf
    apply hnot
    subst heq
    refine ⟨fun s => (loadError_is _ e s).trans (hforeign e hfail s), ?_⟩
    unfold Err.Confusable
    rw [loadError_code]
    exact hconf
  · rintro hnot ⟨hf, hconf⟩
    rcases hlocal.own_or_load with ⟨s, hs⟩ | ⟨e, hload, rfl⟩
    · rw [hf s] at hs
      cases hs
    · have hload' : LoadFailed (hist tr t) e := by
        rcases hload with ⟨id, i, hm⟩ | ⟨n, i, hm⟩
        · exact Or.inl ⟨id, i, hhist ▸ List.mem_append_left _ hm⟩
        · exact Or.inr ⟨n, i, hhist ▸ List.mem_append_left _ hm⟩
      rcases Run.loadFailed h₀ hrun hload' with ⟨s, hs⟩ | hfail
      · rw [← loadError_is (g := g) req.key e s, hf s] at hs
        cases hs
      · refine hnot e hfail rfl ?_
        unfold Err.Confusable at hconf ⊢
        rwa [loadError_code] at hconf

end Relayed

/-! ## A Getter that returns a status error -/

/-- What `getLocal` does when its load fails with `e`. -/
def failedLoad (e : Err) : History :=
  let i := Inp.failing e
  let k := ascii "k"
  [⟨.releaseKeyState k 0, i, ()⟩, ⟨.doDone 0 (.ok (.error e)), i, ()⟩, ⟨.doRemove k 0, i, ()⟩,
    ⟨.count .sourceErrors, i, ()⟩, ⟨.getterEnd 0, i, .ok (.error e)⟩, ⟨.getterStart k, i, 0⟩,
    ⟨.count .sourceLoads, i, ()⟩, ⟨.loadBegin 0 k, i, .generation 0⟩, ⟨.doEnter k, i, .lead 0⟩,
    ⟨.count .localMisses, i, ()⟩, ⟨.mainGet k, i, none⟩, ⟨.acquireKeyState k, i, 0⟩,
    ⟨.ownerEpoch 1, i, ()⟩, ⟨.pickOwner .prepare k, i, pickSelf 1⟩, ⟨.loadClosed, i, false⟩]

/-- The answers of an environment whose Getter fails with `e` and whose peers reply with `w`. -/
def failing (e w : Err) (h : History) : (o : Op) → o.Ans
  | .getterEnd _ => .ok (.error e)
  | .rpcEnd _ => .error w
  | o => scripted (fun _ _ => pickSelf 1) h o

theorem ends_failedLoad (e : Err) : (Group.getLocal Cfg.pair (ascii "k")).Ends (failedLoad e)
    (.ok (.error (Group.loadError Cfg.pair (ascii "k") e))) :=
  ends_answer (Inp.failing e) (failing e e) (Group.getLocal Cfg.pair (ascii "k"))

/-- The request of a peer. -/
def peerRead : Req := .get Cfg.pair.name (ascii "k")

/-- The owner serves a Get whose load fails with `e`, and the client gets what travels. -/
theorem relays_failedLoad {e w : Err}
    (hw : Travels (Server.mapGroupError (Group.loadError Cfg.pair (ascii "k") e)) w) :
    ∃ c : Config (node Cfg.pair), ∃ tr err', Run Free State.pair c tr ∧ GetterFailed tr e ∧
      (∀ e', GetterFailed tr e' → e' = e) ∧
      Relayed tr peerRead (Group.loadError Cfg.pair (ascii "k") e) err' ∧
      err'.errClass = (Client.classifyRPCError w).errClass := by
  obtain ⟨c, tr, hsteps, hnext, hspawn, hret, hhist⟩ : ∃ c tr,
      (Config.start (M := node Cfg.pair) State.pair).steps []
        (.spawn (.serve (ascii "b", 0) peerRead) ::
          List.replicate 17 (.run 0 (Inp.failing e))) = some (c, tr) ∧ c.next = 1 ∧
      tr.reverse[0]? = some (.spawn 0 (.serve (ascii "b", 0) peerRead)) ∧
      tr.reverse[17]? = some (.ret 0 (.ok (.reply (.error
        (Server.mapGroupError (Group.loadError Cfg.pair (ascii "k") e)))))) ∧
      hist tr 0 = failedLoad e ++ [⟨.getGroup peerRead.group, Inp.failing e, true⟩] :=
    ⟨_, _, rfl, rfl, rfl, rfl, rfl⟩
  have hrun := Run.steps .start hsteps
  have honly : ∀ e', GetterFailed tr e' → e' = e := by
    rintro e' ⟨u, id, i, hm⟩
    have hmem := mem_hist.2 hm
    have hu : u = 0 := by
      by_contra hne
      rw [(hrun.unused u (by omega)).2.2] at hmem
      cases hmem
    subst hu
    rw [hhist] at hmem
    obtain ⟨-, -, heq⟩ : id = 0 ∧ i = Inp.failing e ∧ e' = e := by simpa [failedLoad] using hmem
    exact heq
  have hclient := ends_answer (Inp.failing e) (failing e w)
    (Client.get (some ⟨ascii "a"⟩) Cfg.pair.name (ascii "k"))
  refine ⟨c, tr, _, hrun, ⟨0, 0, Inp.failing e, ?_⟩, honly, ⟨0, _, failedLoad e, _, _, w, _, _, 0,
    Inp.failing e, List.mem_reverse.1 (List.mem_of_getElem? hspawn), hhist, ends_failedLoad e,
    List.mem_reverse.1 (List.mem_of_getElem? hret), hw, hclient, List.mem_cons_self⟩, rfl⟩
  rw [← mem_hist, hhist]
  simp [failedLoad]

/-- A plain error of the Getter reaches the requester as what it is. -/
theorem plain_error_relayed : ∃ c : Config (node Cfg.pair), ∃ tr err err',
    Run Free State.pair c tr ∧ GetterFailed tr (.other (ascii "boom")) ∧
      Relayed tr peerRead err err' ∧ err'.errClass = err.errClass := by
  have hw : Travels (Server.mapGroupError
      (Group.loadError Cfg.pair (ascii "k") (.other (ascii "boom")))) (.status .unknown []) :=
    .plain .unknown [] rfl (Or.inl rfl)
  obtain ⟨c, tr, err', hrun, hfailed, honly, hrel, -⟩ := relays_failedLoad hw
  refine ⟨c, tr, _, err', hrun, hfailed, hrel, ?_⟩
  refine (class_preserved_iff State.fresh_pair hrun ?_ hrel).2 ?_
  · intro e he s
    rw [honly e he]
    rfl
  · intro e he _ hconf
    rw [honly e he] at hconf
    rcases hconf with hcode | hcode <;> cases hcode

/-- The Getter reports that its source has no such row as the status `NotFound`. On the owner this
is no cache miss; the requester gets `ErrCacheMiss`. -/
theorem notFound_becomes_miss : ∃ c : Config (node Cfg.pair), ∃ tr err err',
    Run Free State.pair c tr ∧ (∀ e, GetterFailed tr e → e.Foreign) ∧
      Relayed tr peerRead err err' ∧ err.errClass = .other ∧ err'.errClass = .miss := by
  have hw : Travels (Server.mapGroupError
      (Group.loadError Cfg.pair (ascii "k") (.status .notFound (ascii "no row"))))
      (.status .notFound []) := .status [] rfl
  obtain ⟨c, tr, err', hrun, -, honly, hrel, hclass⟩ := relays_failedLoad hw
  refine ⟨c, tr, _, err', hrun, ?_, hrel, rfl, hclass⟩
  intro e he s
  rw [honly e he]
  rfl

end Locache
