import Mathlib.Logic.Function.Basic

/-!
# Programs of atomic actions

A program is a tree of atomic actions: it returns, raises an exception, or issues one action and
goes on with the answer it gets (`Prog`). The meaning of an action is left open, so one program
text can be run against a scripted environment, against a shared state, or as one of many threads.

`Prog.Follows J F h p` is the program logic: started after the actions `h` (newest first), `p`
issues an action `o` only when `J` allows it after what was done so far, and ends only in a way `F`
allows, whatever the answers are. It is computed through the constructors and through `bind` and
`recover` (`follows_bind`, `follows_recover`), so the verification condition of a straight-line
program is what `simp` leaves of it. `Prog.Leads` is the path itself: the actions and answers that
take a program to what is left of it, and `Follows` holds along every path
(`Prog.Follows.of_leads`). A program of a part can be run as a program of the whole (`mapOps`), and
what it follows carries over (`Prog.Follows.mapOps`).
-/

namespace Conc

/-- The actions a program may issue, the answers they get, and the values it may raise. -/
structure Sig where
  Op : Type
  Ans : Op → Type
  Exn : Type

/-- A program over a signature. -/
inductive Prog (S : Sig) (α : Type) : Type where
  | ret (a : α)
  | raise (e : S.Exn)
  | act (o : S.Op) (k : S.Ans o → Prog S α)

/-- One performed action: what was asked, what the environment put in, and the answer. -/
structure Ev (S : Sig) (I : Type) where
  op : S.Op
  inp : I
  ans : S.Ans op

namespace Prog

variable {S : Sig} {I α β γ : Type}

/-- Sequencing; an exception skips the rest. -/
def bind : Prog S α → (α → Prog S β) → Prog S β
  | ret a, f => f a
  | raise e, _ => raise e
  | act o k, f => act o fun a => (k a).bind f

instance : Monad (Prog S) where
  pure := ret
  bind := bind

/-- Issue one action and return its answer. -/
def op (o : S.Op) : Prog S (S.Ans o) := act o ret

/-- Run a program to its end and hand back what it raised, as `recover` in a deferred call does. -/
def recover : Prog S α → Prog S (Except S.Exn α)
  | ret a => ret (.ok a)
  | raise e => ret (.error e)
  | act o k => act o fun a => (k a).recover

/-- Raise again what `recover` caught. -/
def rethrow : Except S.Exn α → Prog S α
  | .ok a => ret a
  | .error e => raise e

@[simp] theorem pure_eq (a : α) : (Pure.pure a : Prog S α) = ret a := rfl

@[simp] theorem bind_eq (p : Prog S α) (f : α → Prog S β) : (p >>= f) = p.bind f := rfl

@[simp] theorem ret_bind (a : α) (f : α → Prog S β) : (ret a).bind f = f a := rfl

@[simp] theorem raise_bind (e : S.Exn) (f : α → Prog S β) : (raise e).bind f = raise e := rfl

@[simp] theorem act_bind (o : S.Op) (k : S.Ans o → Prog S α) (f : α → Prog S β) :
    (act o k).bind f = act o fun a => (k a).bind f := rfl

@[simp] theorem op_bind (o : S.Op) (f : S.Ans o → Prog S β) : (op o).bind f = act o f := rfl

/-! ## The program logic -/

/-- After the actions `h`, every action `p` issues is allowed by `J` and every end by `F`. -/
def Follows (J : List (Ev S I) → S.Op → Prop) (F : List (Ev S I) → Except S.Exn α → Prop) :
    Prog S α → List (Ev S I) → Prop
  | ret a, h => F h (.ok a)
  | raise e, h => F h (.error e)
  | act o k, h => J h o ∧ ∀ i a, (k a).Follows J F (⟨o, i, a⟩ :: h)

section Follows

variable {J J' : List (Ev S I) → S.Op → Prop} {h : List (Ev S I)}

@[simp] theorem follows_ret {F : List (Ev S I) → Except S.Exn α → Prop} {a : α} :
    (ret a : Prog S α).Follows J F h ↔ F h (.ok a) := Iff.rfl

@[simp] theorem follows_raise {F : List (Ev S I) → Except S.Exn α → Prop} {e : S.Exn} :
    (raise e : Prog S α).Follows J F h ↔ F h (.error e) := Iff.rfl

@[simp] theorem follows_act {F : List (Ev S I) → Except S.Exn α → Prop} {o : S.Op}
    {k : S.Ans o → Prog S α} :
    (act o k).Follows J F h ↔ J h o ∧ ∀ i a, (k a).Follows J F (⟨o, i, a⟩ :: h) := Iff.rfl

@[simp] theorem follows_op {o : S.Op} {F : List (Ev S I) → Except S.Exn (S.Ans o) → Prop} :
    (op o).Follows J F h ↔ J h o ∧ ∀ i a, F (⟨o, i, a⟩ :: h) (.ok a) := Iff.rfl

/-- What the rest of a program has to establish, as a postcondition of its first part. -/
def andThen (J : List (Ev S I) → S.Op → Prop) (F : List (Ev S I) → Except S.Exn β → Prop)
    (f : α → Prog S β) (h : List (Ev S I)) : Except S.Exn α → Prop
  | .ok a => (f a).Follows J F h
  | .error e => F h (.error e)

@[simp] theorem andThen_ok {F : List (Ev S I) → Except S.Exn β → Prop} {f : α → Prog S β} {a : α} :
    andThen J F f h (.ok a) ↔ (f a).Follows J F h := Iff.rfl

@[simp] theorem andThen_error {F : List (Ev S I) → Except S.Exn β → Prop} {f : α → Prog S β}
    {e : S.Exn} : andThen J F f h (.error e) ↔ F h (.error e) := Iff.rfl

theorem follows_bind {F : List (Ev S I) → Except S.Exn β → Prop} {p : Prog S α}
    {f : α → Prog S β} : (p.bind f).Follows J F h ↔ p.Follows J (andThen J F f) h := by
  induction p generalizing h with
  | ret a => rfl
  | raise e => rfl
  | act o k ih =>
    simp only [act_bind, follows_act]
    exact and_congr Iff.rfl (forall_congr' fun i => forall_congr' fun a => ih a)

theorem follows_recover {F : List (Ev S I) → Except S.Exn (Except S.Exn α) → Prop}
    {p : Prog S α} :
    p.recover.Follows J F h ↔ p.Follows J (fun h r => F h (.ok r)) h := by
  induction p generalizing h with
  | ret a => rfl
  | raise e => rfl
  | act o k ih =>
    simp only [recover, follows_act]
    exact and_congr Iff.rfl (forall_congr' fun i => forall_congr' fun a => ih a)

@[simp] theorem follows_rethrow {F : List (Ev S I) → Except S.Exn α → Prop}
    {r : Except S.Exn α} : (rethrow r).Follows J F h ↔ F h r := by
  cases r <;> rfl

/-- Weakening of what is allowed and of what is promised, along the histories that extend `h`. -/
theorem Follows.mono {F F' : List (Ev S I) → Except S.Exn α → Prop} {p : Prog S α}
    (hp : p.Follows J F h) (hJ : ∀ g o, h <:+ g → J g o → J' g o)
    (hF : ∀ g r, h <:+ g → F g r → F' g r) : p.Follows J' F' h := by
  induction p generalizing h with
  | ret a => exact hF h _ (List.suffix_refl h) hp
  | raise e => exact hF h _ (List.suffix_refl h) hp
  | act o k ih =>
    refine ⟨hJ h o (List.suffix_refl h) hp.1, fun i a => ih a (hp.2 i a) ?_ ?_⟩
    · exact fun g o hg => hJ g o ((List.suffix_cons _ h).trans hg)
    · exact fun g r hg => hF g r ((List.suffix_cons _ h).trans hg)

/-- Two specifications of one program. -/
theorem Follows.and {F F' : List (Ev S I) → Except S.Exn α → Prop} {p : Prog S α}
    (hp : p.Follows J F h) (hp' : p.Follows J' F' h) :
    p.Follows (fun g o => J g o ∧ J' g o) (fun g r => F g r ∧ F' g r) h := by
  induction p generalizing h with
  | ret a => exact ⟨hp, hp'⟩
  | raise e => exact ⟨hp, hp'⟩
  | act o k ih =>
    refine ⟨⟨hp.1, hp'.1⟩, ?_⟩
    intro i a
    exact ih a (hp.2 i a) (hp'.2 i a)

/-- What every allowed action keeps holds at the end. -/
theorem Follows.keep {F : List (Ev S I) → Except S.Exn α → Prop} {p : Prog S α}
    (P : List (Ev S I) → Prop) (hp : p.Follows J F h) (hP : P h)
    (hstep : ∀ g o i a, J g o → P g → P (⟨o, i, a⟩ :: g)) :
    p.Follows J (fun g r => F g r ∧ P g) h := by
  induction p generalizing h with
  | ret a => exact ⟨hp, hP⟩
  | raise e => exact ⟨hp, hP⟩
  | act o k ih => exact ⟨hp.1, fun i a => ih a (hp.2 i a) (hstep h o i a hp.1 hP)⟩

/-- The actions of a program that only issues actions with `P`. -/
theorem Follows.added {F : List (Ev S I) → Except S.Exn α → Prop} {P : S.Op → Prop} {p : Prog S α}
    (hp : p.Follows (fun _ o => P o) F h) :
    p.Follows (fun _ o => P o)
      (fun g r => F g r ∧ ∃ added, g = added ++ h ∧ ∀ e ∈ added, P e.op) h := by
  refine hp.keep (fun g => ∃ added, g = added ++ h ∧ ∀ e ∈ added, P e.op) ⟨[], rfl, ?_⟩ ?_
  · simp
  · rintro g o i a ho ⟨added, rfl, hadded⟩
    exact ⟨⟨o, i, a⟩ :: added, rfl, List.forall_mem_cons.2 ⟨ho, hadded⟩⟩

/-- What holds at every end after `h` needs no look at the program. -/
theorem Follows.of_end {F : List (Ev S I) → Except S.Exn α → Prop} {p : Prog S α}
    (hF : ∀ g r, h <:+ g → F g r) : p.Follows (fun _ _ => True) F h := by
  induction p generalizing h with
  | ret a => exact hF h _ (List.suffix_refl h)
  | raise e => exact hF h _ (List.suffix_refl h)
  | act o k ih =>
    refine ⟨trivial, fun i a => ih a ?_⟩
    exact fun g r hg => hF g r ((List.suffix_cons _ h).trans hg)

/-- The rule for an action with a continuation. -/
theorem Follows.op_bind {F : List (Ev S I) → Except S.Exn β → Prop} {o : S.Op}
    {f : S.Ans o → Prog S β} (hJ : J h o) (hf : ∀ i a, (f a).Follows J F (⟨o, i, a⟩ :: h)) :
    ((op o).bind f).Follows J F h := ⟨hJ, hf⟩

/-- The sequencing rule: a specification of the first part, then the rest from what it promises. -/
theorem Follows.bind {Q : List (Ev S I) → Except S.Exn α → Prop}
    {F : List (Ev S I) → Except S.Exn β → Prop} {p : Prog S α} {f : α → Prog S β}
    (hp : p.Follows J Q h) (hok : ∀ g a, h <:+ g → Q g (.ok a) → (f a).Follows J F g)
    (herr : ∀ g e, h <:+ g → Q g (.error e) → F g (.error e)) : (p.bind f).Follows J F h := by
  rw [follows_bind]
  refine hp.mono (fun _ _ _ hJ => hJ) fun g r hg hQ => ?_
  cases r with
  | ok a => exact hok g a hg hQ
  | error e => exact herr g e hg hQ

/-- The rule for a deferred call: it goes on however the first part ended. -/
theorem Follows.recover_bind {Q : List (Ev S I) → Except S.Exn α → Prop}
    {F : List (Ev S I) → Except S.Exn β → Prop} {p : Prog S α} {f : Except S.Exn α → Prog S β}
    (hp : p.Follows J Q h) (hf : ∀ g r, h <:+ g → Q g r → (f r).Follows J F g) :
    (p.recover.bind f).Follows J F h := by
  rw [follows_bind, follows_recover]
  exact hp.mono (fun _ _ _ hJ => hJ) hf

/-- What `Q` says of the end, on the paths whose actions were all answered as `P` says. -/
def Whenever (P : Ev S I → Prop) (Q : Except S.Exn α → Prop) (h : List (Ev S I))
    (r : Except S.Exn α) : Prop := (∀ e ∈ h, P e) → Q r

section Whenever

variable {P : Ev S I → Prop} {Q : Except S.Exn β → Prop}

/-- One action: only the answers with `P` are to be followed. -/
theorem Follows.whenever_op {o : S.Op} {f : S.Ans o → Prog S β}
    (hf : ∀ i a, P ⟨o, i, a⟩ →
      (f a).Follows (fun _ _ => True) (Whenever P Q) (⟨o, i, a⟩ :: h)) :
    ((op o).bind f).Follows (fun _ _ => True) (Whenever P Q) h := by
  refine Follows.op_bind trivial fun i a => ?_
  by_cases hP : P ⟨o, i, a⟩
  · exact hf i a hP
  · exact Follows.of_end fun g r hg hall => absurd (hall _ (hg.subset List.mem_cons_self)) hP

/-- Two parts: the second one starts from what the first one promises. -/
theorem Follows.whenever_bind {Q₁ : Except S.Exn α → Prop} {p : Prog S α} {f : α → Prog S β}
    (hp : p.Follows (fun _ _ => True) (Whenever P Q₁) h)
    (hok : ∀ g a, Q₁ (.ok a) → (f a).Follows (fun _ _ => True) (Whenever P Q) g)
    (herr : ∀ e, Q₁ (.error e) → Q (.error e)) :
    (p.bind f).Follows (fun _ _ => True) (Whenever P Q) h := by
  refine hp.bind (fun g a _ hQ => ?_) fun g e _ hQ hall => herr e (hQ hall)
  by_cases hall : ∀ e ∈ g, P e
  · exact hok g a (hQ hall)
  · exact Follows.of_end fun g' r hg h' => absurd (fun e he => h' e (hg.subset he)) hall

/-- A deferred call: it goes on however the first part ended. -/
theorem Follows.whenever_recover {Q₁ : Except S.Exn α → Prop} {p : Prog S α}
    {f : Except S.Exn α → Prog S β} (hp : p.Follows (fun _ _ => True) (Whenever P Q₁) h)
    (hf : ∀ g r, Q₁ r → (f r).Follows (fun _ _ => True) (Whenever P Q) g) :
    (p.recover.bind f).Follows (fun _ _ => True) (Whenever P Q) h := by
  refine hp.recover_bind fun g r _ hQ => ?_
  by_cases hall : ∀ e ∈ g, P e
  · exact hf g r (hQ hall)
  · exact Follows.of_end fun g' r hg h' => absurd (fun e he => h' e (hg.subset he)) hall

end Whenever

end Follows

/-- `Follows`, on the paths whose actions were all answered as `P` says. -/
def FollowsOn (P : Ev S I → Prop) (J : List (Ev S I) → S.Op → Prop)
    (F : List (Ev S I) → Except S.Exn α → Prop) (p : Prog S α) (h : List (Ev S I)) : Prop :=
  p.Follows (fun g o => (∀ e ∈ g, P e) → J g o) (fun g r => (∀ e ∈ g, P e) → F g r) h

namespace FollowsOn

variable {P : Ev S I → Prop} {J : List (Ev S I) → S.Op → Prop} {h : List (Ev S I)}

/-- After another answer there is nothing to show. -/
theorem of_not {F : List (Ev S I) → Except S.Exn α → Prop} {p : Prog S α}
    (hh : ¬∀ e ∈ h, P e) : p.FollowsOn P J F h := by
  refine (Follows.of_end fun g r hg hall => ?_).mono (fun g o hg _ hall => ?_) fun _ _ _ hF => hF
  · exact absurd (fun e he => hall e (hg.subset he)) hh
  · exact absurd (fun e he => hall e (hg.subset he)) hh

theorem ret {F : List (Ev S I) → Except S.Exn α → Prop} {a : α} (hF : F h (.ok a)) :
    (ret a : Prog S α).FollowsOn P J F h := fun _ => hF

theorem rethrow {F : List (Ev S I) → Except S.Exn α → Prop} {r : Except S.Exn α} (hF : F h r) :
    (rethrow r : Prog S α).FollowsOn P J F h := follows_rethrow.2 fun _ => hF

/-- One action: only the answers with `P` are to be followed. -/
theorem op_bind {F : List (Ev S I) → Except S.Exn β → Prop} {o : S.Op} {f : S.Ans o → Prog S β}
    (hJ : J h o) (hf : ∀ i a, P ⟨o, i, a⟩ → (f a).FollowsOn P J F (⟨o, i, a⟩ :: h)) :
    ((op o).bind f).FollowsOn P J F h := by
  refine Follows.op_bind (fun _ => hJ) fun i a => ?_
  by_cases hP : P ⟨o, i, a⟩
  · exact hf i a hP
  · exact of_not fun hall => hP (hall _ List.mem_cons_self)

/-- A specification of the first part, then the rest from what it promises. -/
theorem bind {Q : List (Ev S I) → Except S.Exn α → Prop}
    {F : List (Ev S I) → Except S.Exn β → Prop} {p : Prog S α} {f : α → Prog S β}
    (hp : p.FollowsOn P J Q h) (hok : ∀ g a, h <:+ g → Q g (.ok a) → (f a).FollowsOn P J F g)
    (herr : ∀ g e, h <:+ g → Q g (.error e) → F g (.error e)) : (p.bind f).FollowsOn P J F h := by
  refine Follows.bind hp (fun g a hg hQ => ?_) fun g e hg hQ hall => herr g e hg (hQ hall)
  by_cases hall : ∀ e ∈ g, P e
  · exact hok g a hg (hQ hall)
  · exact of_not hall

/-- A deferred call: it goes on however the first part ended. -/
theorem recover_bind {Q : List (Ev S I) → Except S.Exn α → Prop}
    {F : List (Ev S I) → Except S.Exn β → Prop} {p : Prog S α} {f : Except S.Exn α → Prog S β}
    (hp : p.FollowsOn P J Q h) (hf : ∀ g r, h <:+ g → Q g r → (f r).FollowsOn P J F g) :
    (p.recover.bind f).FollowsOn P J F h := by
  refine Follows.recover_bind hp fun g r hg hQ => ?_
  by_cases hall : ∀ e ∈ g, P e
  · exact hf g r hg (hQ hall)
  · exact of_not hall

theorem mono {J' : List (Ev S I) → S.Op → Prop} {F F' : List (Ev S I) → Except S.Exn α → Prop}
    {p : Prog S α} (hp : p.FollowsOn P J F h) (hJ : ∀ g o, h <:+ g → J g o → J' g o)
    (hF : ∀ g r, h <:+ g → F g r → F' g r) : p.FollowsOn P J' F' h :=
  Follows.mono hp (fun g o hg hJg hall => hJ g o hg (hJg hall))
    fun g r hg hFg hall => hF g r hg (hFg hall)

end FollowsOn

/-- Wherever it is started, `p` issues only actions that `J` allows. -/
def Keeps (J : List (Ev S I) → S.Op → Prop) (p : Prog S α) : Prop :=
  ∀ h, p.Follows J (fun _ _ => True) h

namespace Keeps

variable {J : List (Ev S I) → S.Op → Prop} {p : Prog S α}

theorem ret (a : α) : (ret a : Prog S α).Keeps J := fun _ => trivial

theorem rethrow (r : Except S.Exn α) : (rethrow r : Prog S α).Keeps J := by
  intro h
  rw [follows_rethrow]
  trivial

theorem op_bind {o : S.Op} {f : S.Ans o → Prog S β} (hJ : ∀ h, J h o) (hf : ∀ a, (f a).Keeps J) :
    ((op o).bind f).Keeps J := fun h => Follows.op_bind (hJ h) fun _ a => hf a _

theorem bind {f : α → Prog S β} (hp : p.Keeps J) (hf : ∀ a, (f a).Keeps J) :
    (p.bind f).Keeps J := by
  intro h
  exact (hp h).bind (fun g a _ _ => hf a g) fun _ _ _ _ => trivial

theorem recover (hp : p.Keeps J) : p.recover.Keeps J := by
  intro h
  rw [follows_recover]
  exact hp h

end Keeps

/-! ## Other signatures -/

section MapOps

variable {S' : Sig}

/-- The same program over another signature, which has an action for each of its actions and gives
the answers that it understands. -/
def mapOps (f : S.Op → S'.Op) (answer : ∀ o, S'.Ans (f o) → S.Ans o) (exn : S.Exn → S'.Exn) :
    Prog S α → Prog S' α
  | ret a => ret a
  | raise e => raise (exn e)
  | act o k => act (f o) fun a => (k (answer o a)).mapOps f answer exn

theorem mapOps_bind {f : S.Op → S'.Op} {answer : ∀ o, S'.Ans (f o) → S.Ans o}
    {exn : S.Exn → S'.Exn} (p : Prog S α) (q : α → Prog S β) :
    (p.bind q).mapOps f answer exn =
      (p.mapOps f answer exn).bind fun a => (q a).mapOps f answer exn := by
  induction p with
  | ret a => rfl
  | raise e => rfl
  | act o k ih =>
    rw [act_bind, mapOps, mapOps, act_bind]
    congr 1
    funext a
    exact ih (answer o a)

/-- What holds of a program holds of its image, where `R` tells which histories go together. -/
theorem Follows.mapOps {f : S.Op → S'.Op} {answer : ∀ o, S'.Ans (f o) → S.Ans o}
    {exn : S.Exn → S'.Exn} {J : List (Ev S I) → S.Op → Prop} {J' : List (Ev S' I) → S'.Op → Prop}
    {F : List (Ev S I) → Except S.Exn α → Prop} {F' : List (Ev S' I) → Except S'.Exn α → Prop}
    (R : List (Ev S I) → List (Ev S' I) → Prop) {p : Prog S α} {h : List (Ev S I)}
    {h' : List (Ev S' I)} (hp : p.Follows J F h) (hR : R h h')
    (hJ : ∀ g g' o, R g g' → J g o → J' g' (f o))
    (hstep : ∀ g g' o i a, R g g' → J g o → R (⟨o, i, answer o a⟩ :: g) (⟨f o, i, a⟩ :: g'))
    (hF : ∀ g g' r, R g g' → F g r → F' g' (r.mapError exn)) :
    (p.mapOps f answer exn).Follows J' F' h' := by
  induction p generalizing h h' with
  | ret a => exact hF h h' _ hR hp
  | raise e => exact hF h h' _ hR hp
  | act o k ih =>
    refine ⟨hJ h h' o hR hp.1, fun i a => ?_⟩
    exact ih (answer o a) (hp.2 i (answer o a)) (hstep h h' o i a hR hp.1)

end MapOps

/-! ## Paths -/

/-- The actions `h` (newest first), answered as recorded, take `p` to what is left of it. -/
inductive Leads (p : Prog S α) : List (Ev S I) → Prog S α → Prop where
  | refl : Leads p [] p
  | step {h : List (Ev S I)} {o : S.Op} {k : S.Ans o → Prog S α} (i : I) (a : S.Ans o)
      (prior : Leads p h (act o k)) : Leads p (⟨o, i, a⟩ :: h) (k a)

/-- The whole path of a program that ended: its actions and how it ended. -/
inductive Ends (p : Prog S α) : List (Ev S I) → Except S.Exn α → Prop where
  | ret {h : List (Ev S I)} {a : α} (path : Leads p h (ret a)) : Ends p h (.ok a)
  | raise {h : List (Ev S I)} {e : S.Exn} (path : Leads p h (raise e)) : Ends p h (.error e)

section Paths

variable {J : List (Ev S I) → S.Op → Prop} {F : List (Ev S I) → Except S.Exn α → Prop}

theorem Follows.of_leads {p q : Prog S α} {h : List (Ev S I)} (hp : p.Follows J F [])
    (hl : Leads p h q) : q.Follows J F h := by
  induction hl with
  | refl => exact hp
  | step i a _ ih => exact ih.2 i a

theorem Follows.of_ends {p : Prog S α} {h : List (Ev S I)} {r : Except S.Exn α}
    (hp : p.Follows J F []) (he : Ends p h r) : F h r := by
  cases he with
  | ret path => exact hp.of_leads path
  | raise path => exact hp.of_leads path

variable {h h' : List (Ev S I)} {p q r : Prog S α}

/-- What is left of a program is determined by its actions and their answers. -/
theorem Leads.unique (hq : Leads p h q) (hr : Leads p h r) : q = r := by
  induction hq generalizing r with
  | refl =>
    cases hr
    rfl
  | step i a prior ih =>
    cases hr with
    | step _ _ prior' =>
      cases ih prior'
      rfl

theorem Leads.trans (hq : Leads p h q) (hr : Leads q h' r) : Leads p (h' ++ h) r := by
  induction hr with
  | refl => exact hq
  | step i a _ ih => exact .step i a ih

theorem Leads.bind (hq : Leads p h q) (f : α → Prog S β) : Leads (p.bind f) h (q.bind f) := by
  induction hq with
  | refl => exact .refl
  | step i a _ ih => exact .step i a ih

theorem Ends.unique {x y : Except S.Exn α} (hx : Ends p h x) (hy : Ends p h y) : x = y := by
  cases hx with
  | ret path =>
    cases hy with
    | ret path' =>
      cases path.unique path'
      rfl
    | raise path' => cases path.unique path'
  | raise path =>
    cases hy with
    | ret path' => cases path.unique path'
    | raise path' =>
      cases path.unique path'
      rfl

/-- A path of the first part and a path of the rest. -/
theorem Ends.bind {a : α} {f : α → Prog S β} {x : Except S.Exn β} (hp : Ends p h (.ok a))
    (hf : Ends (f a) h' x) : Ends (p.bind f) (h' ++ h) x := by
  cases hp with
  | ret path =>
    have hbind : Leads (p.bind f) h (f a) := path.bind f
    cases hf with
    | ret path' => exact .ret (hbind.trans path')
    | raise path' => exact .raise (hbind.trans path')

theorem Ends.op (o : S.Op) (i : I) (a : S.Ans o) :
    Ends (Prog.op o : Prog S (S.Ans o)) [⟨o, i, a⟩] (.ok a) := .ret (.step i a .refl)

theorem Leads.follows_ends (hq : Leads p h q) : q.Follows (fun _ _ => True) (Ends p) h := by
  induction q generalizing h with
  | ret a => exact .ret hq
  | raise e => exact .raise hq
  | act o k ih => exact ⟨trivial, fun i a => ih a (.step i a hq)⟩

end Paths

/-- What a program does, after the actions `h`, when the environment answers by `f`, which sees what
was done before. -/
def answer (i : I) (f : List (Ev S I) → ∀ o, S.Ans o) :
    Prog S α → List (Ev S I) → List (Ev S I) × Except S.Exn α
  | ret a, h => (h, .ok a)
  | raise e, h => (h, .error e)
  | act o k, h => (k (f h o)).answer i f (⟨o, i, f h o⟩ :: h)

theorem Leads.answer {i : I} {f : List (Ev S I) → ∀ o, S.Ans o} {p q : Prog S α}
    {h : List (Ev S I)} (hl : Leads p h q) : p.Ends (q.answer i f h).1 (q.answer i f h).2 := by
  induction q generalizing h with
  | ret a => exact .ret hl
  | raise e => exact .raise hl
  | act o k ih => exact ih (f h o) (.step i (f h o) hl)

theorem ends_answer (i : I) (f : List (Ev S I) → ∀ o, S.Ans o) (p : Prog S α) :
    p.Ends (p.answer i f []).1 (p.answer i f []).2 := Leads.answer .refl

end Prog

end Conc
