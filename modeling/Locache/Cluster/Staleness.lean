import Locache.Cluster
import Locache.Group.Freshness

/-!
# How stale a near copy can be

A near copy was inserted by the node itself, after a call of its own to the owner of the key, and it
is served for at most the near TTL after that. What the owner returned to the call it had found in
its main cache or loaded with its Getter. So near copies are not made from near copies, and their
ages do not add up.
-/

namespace Locache

open Conc
open Store (Expired)

variable {ι : Type} [DecidableEq ι] {C : Cluster ι} {N : NetGuard C.machine} {σ : ι → State}
  {c : ∀ a, Config (C.machine a)} {tr : C.Log} {a : ι} {k : GoString} {v : ByteView}

/-- How node `a` came by the bytes of `v`: a goroutine that did `h` wrote them to the owner of `k`,
which set them in its main cache, or it read them from the owner, which found them in its main cache
or loaded them with its Getter. -/
inductive Origin (C : Cluster ι) (tr : C.Log) (a : ι) (k : GoString) (v : ByteView) (h : History) :
    Prop where
  | wrote {p : Pick} {resp : Resp} {b : ι} {s id : Nat} {A B : Trace (C.cfg b)}
      (hcall : Called k p (.set (C.cfg a).name k v.b) resp h) (howner : C.addr b = p.owner)
      (hspawn : ⟨b, .spawn s (.serve (C.addr a, id) (.set (C.cfg a).name k v.b))⟩ ∈ tr)
      (hret : localTrace b tr = A ++ .ret s (.ok (.reply (.ok resp))) :: B)
      (hset : ∃ x i, (⟨.setSection x k v.b, i, ()⟩ : Ev groupSig Inp) ∈ hist B s)
  | read {p : Pick} {resp : Resp} {b : ι} {s id : Nat} {A B : Trace (C.cfg b)}
      (hcall : Called k p (.get (C.cfg a).name k) resp h) (hvalue : resp.value = v.b)
      (howner : C.addr b = p.owner)
      (hspawn : ⟨b, .spawn s (.serve (C.addr a, id) (.get (C.cfg a).name k))⟩ ∈ tr)
      (hret : localTrace b tr = A ++ .ret s (.ok (.reply (.ok resp))) :: B)
      (hread : LocalRead (locOf B s).out k v) (hknown : FreshSince k v B)

/-- What a peer call brought has such an origin. -/
theorem origin_of_peerCall (hN : ∀ tr a s ℓ s', N tr a s ℓ s' → C.admits tr a ℓ = true)
    (h₀ : ∀ a, (σ a).Fresh) (h : NetRun N σ c tr) {u : Nat} {p q : Pick} {g : History}
    (hg : g <:+ hist (localTrace a tr) u) (hcall : PeerCall (C.cfg a) k p q v g) :
    Origin C tr a k v g := by
  rcases hcall.called with ⟨resp, hvalue, hcall⟩ | ⟨resp, hcall⟩
  · obtain ⟨b, s, id, howner, hspawn, hret⟩ := Cluster.owner_served hN h₀ h (hcall.mono hg)
    obtain ⟨A, B, c', hsplit, hrun, -, hread⟩ := (Cluster.run_node h b).finished
      (protocol (C.cfg b)) (mem_localTrace.2 hspawn) (mem_localTrace.2 hret)
    change LocalRead (locOf B s).out k ⟨resp.value⟩ at hread
    rw [hvalue] at hread
    exact .read hcall hvalue howner hspawn hsplit hread (Run.local_read_known (h₀ b) hrun hread)
  · obtain ⟨b, s, id, howner, hspawn, hret⟩ := Cluster.owner_served hN h₀ h (hcall.mono hg)
    obtain ⟨A, B, c', hsplit, -, -, hset⟩ := (Cluster.run_node h b).finished
      (protocol (C.cfg b)) (mem_localTrace.2 hspawn) (mem_localTrace.2 hret)
    exact .wrote hcall howner hspawn hsplit hset

/-- What a lookup in the near cache finds was inserted less than the near TTL before, with such an
origin, and not deleted since. -/
theorem near_hit_origin (hN : ∀ tr a s ℓ s', N tr a s ℓ s' → C.admits tr a ℓ = true)
    (h₀ : ∀ a, (σ a).Fresh) (h : NetRun N σ c tr) {A B : Trace (C.cfg a)} {t e : Nat} {i : Inp}
    (hhit : localTrace a tr = A ++ .act t ⟨.nearGet (Group.nearKey e k), i, some v⟩ :: B) :
    ∃ (B₁ B₂ : Trace (C.cfg a)) (u : Nat) (ttl : Duration) (j : Inp),
      B = B₁ ++ .act u ⟨.nearSet (Group.nearKey e k) v ttl, j, ()⟩ :: B₂ ∧
      (∀ t j b, .act t ⟨.nearDelete (Group.nearKey e k), j, b⟩ ∉ B₁) ∧
      i.now < j.now + (C.cfg a).nearTTL ∧ Origin C tr a k v (hist B₂ u) := by
  have hrun := Cluster.run_node h a
  rw [hhit] at hrun
  obtain ⟨B₁, B₂, u, ttl, j, _, rfl, hno, hnow, p, q, -, -, -, -, hcall⟩ :=
    Run.near_hit_called (h₀ a) hrun
  refine ⟨B₁, B₂, u, ttl, j, rfl, hno, hnow, ?_⟩
  refine origin_of_peerCall hN h₀ h (u := u) ?_ hcall
  rw [hhit]
  refine hist_suffix ?_ u
  exact ((List.suffix_cons _ _).trans (List.suffix_append _ _)).trans
    ((List.suffix_cons _ _).trans (List.suffix_append _ _))

/-- What a `Get` returned was set or loaded on its own node, or has such an origin. -/
theorem get_origin (hN : ∀ tr a s ℓ s', N tr a s ℓ s' → C.admits tr a ℓ = true)
    (h₀ : ∀ a, (σ a).Fresh) (h : NetRun N σ c tr) {t : Nat} (hget : ⟨a, .spawn t (.get k)⟩ ∈ tr)
    (hret : ⟨a, .ret t (.ok (.view (.ok v)))⟩ ∈ tr) :
    FreshSince k v (localTrace a tr) ∨ ∃ g, Origin C tr a k v g := by
  obtain ⟨A, B, c', hsplit, hrun, -, hread⟩ := (Cluster.run_node h a).finished (protocol (C.cfg a))
    (mem_localTrace.2 hget) (mem_localTrace.2 hret)
  rcases hread with ⟨-, hlocal⟩ | ⟨-, p, -, hremote⟩
  · left
    rw [hsplit]
    refine (Run.local_read_known (h₀ a) hrun hlocal).mono ?_
    exact fun ℓ hℓ => List.mem_append_right A (List.mem_cons_of_mem _ hℓ)
  · right
    cases hremote with
    | near q i₁ i₂ i₃ hsame hh =>
      obtain ⟨A', B', rfl, -, -⟩ := exists_lookup hh
      have hhit : localTrace a tr = (A ++ .ret t (.ok (.view (.ok v))) :: A') ++
          .act t ⟨.nearGet (Group.nearKey p.epoch k), i₂, some v⟩ :: B' := by
        rw [hsplit]
        simp
      obtain ⟨B₁, B₂, u, ttl, j, -, -, -, horigin⟩ := near_hit_origin hN h₀ h hhit
      exact ⟨_, horigin⟩
    | peer q hsame hq hcall =>
      refine ⟨_, origin_of_peerCall hN h₀ h (u := t) ?_ hcall⟩
      rw [hsplit]
      exact hist_suffix ((List.suffix_cons _ _).trans (List.suffix_append _ _)) t

/-- **A near hit is not older than the near TTL.** Whenever a lookup of `k` in the near cache of a
node finds `v`, at the clock reading `i.now`, the node had inserted `v` itself, less than the near
TTL before, after a call to the owner of `k` that wrote or returned the bytes. -/
theorem near_hit_bounded (hN : ∀ tr a s ℓ s', N tr a s ℓ s' → C.admits tr a ℓ = true)
    (h₀ : ∀ a, (σ a).Fresh) (h : NetRun N σ c tr) {A B : Trace (C.cfg a)} {t e : Nat} {i : Inp}
    (hhit : localTrace a tr = A ++ .act t ⟨.nearGet (Group.nearKey e k), i, some v⟩ :: B) :
    ∃ (B₁ B₂ : Trace (C.cfg a)) (u : Nat) (ttl : Duration) (j : Inp),
      B = B₁ ++ .act u ⟨.nearSet (Group.nearKey e k) v ttl, j, ()⟩ :: B₂ ∧
      i.now < j.now + (C.cfg a).nearTTL ∧ Origin C tr a k v (hist B₂ u) := by
  obtain ⟨B₁, B₂, u, ttl, j, hB, -, hnow, horigin⟩ := near_hit_origin hN h₀ h hhit
  exact ⟨B₁, B₂, u, ttl, j, hB, hnow, horigin⟩

/-- Node `a` reads the key from its owner, then reads it again. -/
def readTwice : List ((x : Bool) × Cmd (Cluster.pair.machine x)) :=
  ⟨true, .spawn (.get (ascii "k"))⟩ :: List.replicate 5 ⟨true, .run 0 (Inp.both [7])⟩ ++
    ⟨false, .spawn (.serve (ascii "a", 0) (.get (ascii "g") (ascii "k")))⟩ ::
      List.replicate 18 ⟨false, .run 0 (Inp.both [7])⟩ ++
    List.replicate 7 ⟨true, .run 0 (Inp.both [7])⟩ ++
    ⟨true, .spawn (.get (ascii "k"))⟩ :: List.replicate 3 ⟨true, .run 1 (Inp.both [7])⟩

/-- The second read finds the copy that the first one inserted. -/
theorem second_read_bounded : ∃ (c : ∀ x, Config (Cluster.pair.machine x)) (tr : Cluster.pair.Log)
    (B₁ B₂ : Trace Cfg.pairNear) (u : Nat) (ttl : Duration) (j : Inp),
    NetRun Cluster.pair.Network State.two c tr ∧
    localTrace true tr =
      .act 1 ⟨.nearGet (Group.nearKey 1 (ascii "k")), Inp.both [7], some ⟨[7]⟩⟩ :: (B₁ ++
        .act u ⟨.nearSet (Group.nearKey 1 (ascii "k")) ⟨[7]⟩ ttl, j, ()⟩ :: B₂) ∧
    (0 : Time) < j.now + 100 ∧
    Origin Cluster.pair tr true (ascii "k") ⟨[7]⟩ (hist B₂ u) := by
  obtain ⟨c, tr, hsteps, B, hhit⟩ : ∃ c tr, netSteps (fun tr x _ ℓ => Cluster.pair.admits tr x ℓ)
      (fun x => .start (State.two x)) [] readTwice = some (c, tr) ∧ ∃ B, localTrace true tr =
      .act 1 ⟨.nearGet (Group.nearKey 1 (ascii "k")), Inp.both [7], some ⟨[7]⟩⟩ :: B :=
    ⟨_, _, rfl, _, rfl⟩
  have hrun : NetRun Cluster.pair.Network State.two c tr :=
    NetRun.steps (fun _ _ _ _ _ h => h) .start hsteps
  obtain ⟨B₁, B₂, u, ttl, j, rfl, hnow, horigin⟩ :=
    near_hit_bounded (C := Cluster.pair) (a := true) (A := []) (fun _ _ _ _ _ h => h)
      State.fresh_two hrun hhit
  exact ⟨c, tr, B₁, B₂, u, ttl, j, hrun, hhit, hnow, horigin⟩

end Locache
