import Locache.ConsistentHash

/-!
# Histories of a ring and the owners it names

Whatever calls of `Add` and `Remove` a ring has seen, its points are the points of its nodes, each
once, in the strict order of `sortPoints` (`ring_canonical`). The owner of a hash is the first point
at or after it, or the first point of the ring when there is none (`owner`). A ring with fewer nodes
has the points of the larger one less those of the missing nodes, so it names the same owner
wherever the larger one names a node that is in both (`owner_filter`): keys move only to nodes that
were added, and only away from nodes that were removed (`keys_move_minimally`). As the points are
sorted, the first one at or after a hash is the least one (`get_least`).
-/

namespace Locache.ConsistentHash

namespace Map

/-- A call that changes a ring. -/
inductive Call where
  | add (nodes : List GoString)
  | remove (node : GoString)

def Call.run : Call → Map → Map
  | .add nodes, m => (m.add nodes).2
  | .remove node, m => (m.remove node).2

/-- The ring after the calls, in order. -/
def runs (calls : List Call) (m : Map) : Map := calls.foldl (fun m call => call.run m) m

variable {m m' : Map} {key node : GoString} {nodes : List GoString}

theorem WF.run (hm : m.WF) (call : Call) : (call.run m).WF := by
  cases call with
  | add nodes => exact hm.add nodes
  | remove node => exact hm.remove node

theorem config_run (hm : m.WF) (call : Call) : (call.run m).config = m.config := by
  cases call with
  | add nodes => exact config_add hm
  | remove node => exact config_remove

/-- The empty address never becomes a node. -/
theorem nil_notMem_run (hm : m.WF) (hnil : [] ∉ m.nodes) (call : Call) :
    [] ∉ (call.run m).nodes := by
  cases call with
  | add nodes =>
    intro hmem
    rcases (mem_add hm).1 hmem with hmem | ⟨hne, -⟩
    · exact hnil hmem
    · exact hne rfl
  | remove node =>
    by_cases hne : node = []
    · subst hne
      exact hnil
    · intro hmem
      exact hnil ((mem_remove hne).1 hmem).1

/-- A history keeps the ring well formed and its configuration as it is. -/
theorem WF.runs (hm : m.WF) (hnil : [] ∉ m.nodes) (calls : List Call) : (Map.runs calls m).WF ∧
    (Map.runs calls m).config = m.config ∧ [] ∉ (Map.runs calls m).nodes := by
  induction calls generalizing m with
  | nil => exact ⟨hm, rfl, hnil⟩
  | cons call calls ih =>
    obtain ⟨hwf, hconfig, hnil⟩ := ih (hm.run call) (nil_notMem_run hm hnil call)
    exact ⟨hwf, hconfig.trans (config_run hm call), hnil⟩

/-! ## The canonical form -/

theorem mem_configPoints {c : Config} {p : Point} : p ∈ c.points node ↔
    p.node = node ∧ p.replica < c.replicas ∧
      p.hash = c.hashFunc (node ++ ascii "#" ++ formatUint p.replica) := by
  unfold Config.points
  rw [List.mem_map]
  constructor
  · rintro ⟨i, hi, rfl⟩
    exact ⟨rfl, List.mem_range.1 hi, rfl⟩
  · intro ⟨hnode, hreplica, hhash⟩
    refine ⟨p.replica, List.mem_range.2 hreplica, ?_⟩
    rw [← hhash, ← hnode]

theorem WF.mem_points (hm : m.WF) {p : Point} : p ∈ m.points ↔ p.node ∈ m.nodes ∧
    p.replica < m.config.replicas ∧
      p.hash = m.config.hashFunc (p.node ++ ascii "#" ++ formatUint p.replica) := by
  rw [hm.points.mem_iff, List.mem_flatMap]
  constructor
  · rintro ⟨node, hnode, hp⟩
    obtain ⟨rfl, hrest⟩ := mem_configPoints.1 hp
    exact ⟨hnode, hrest⟩
  · intro ⟨hnode, hrest⟩
    exact ⟨p.node, hnode, mem_configPoints.2 ⟨rfl, hrest⟩⟩

theorem nodup_configPoints (c : Config) (node : GoString) : (c.points node).Nodup := by
  apply List.Nodup.map _ List.nodup_range
  intro i j hij
  exact congrArg Point.replica hij

theorem WF.nodup (hm : m.WF) : m.points.Nodup := by
  rw [hm.points.nodup_iff, List.nodup_flatMap]
  refine ⟨fun node _ => nodup_configPoints m.config node, ?_⟩
  apply m.nodes.keys_nodup.imp
  intro a b hab p hpa hpb
  exact hab ((mem_configPoints.1 hpa).1.symm.trans (mem_configPoints.1 hpb).1)

/-- No two points are equal, so each is strictly before the next ones. -/
theorem WF.strict (hm : m.WF) : m.points.Pairwise fun p q => p.less q = true := by
  apply (hm.sorted.and hm.nodup).imp
  intro p q ⟨hbefore, hne⟩
  cases hless : p.less q with
  | true => rfl
  | false => exact absurd (comparison_point.connected hless hbefore) hne

theorem erase_insert_of_notMem {α : Type} {β : α → Type} [DecidableEq α] {s : AList β} {a : α}
    {b : β a} (h : a ∉ s) : (s.insert a b).erase a = s := by
  apply AList.ext
  rw [AList.insert_of_notMem h]
  show List.kerase a (⟨a, b⟩ :: s.entries) = s.entries
  exact List.kerase_cons_eq rfl

/-- A new node that is removed again leaves no trace. -/
theorem WF.remove_add (hm : m.WF) (hne : node ≠ []) (hnew : node ∉ m.nodes) :
    ((m.add [node]).2.remove node).2 = m := by
  have hwf := (hm.add [node]).remove node
  have hconfig : ((m.add [node]).2.remove node).2.config = m.config :=
    config_remove.trans (config_add hm)
  have hnodes : ((m.add [node]).2.remove node).2.nodes = m.nodes := by
    simp only [Map.add, Map.remove, addNodes, hne, hnew, List.cons_ne_nil, ↓reduceIte,
      AList.mem_insert, true_or, not_true_eq_false]
    exact erase_insert_of_notMem hnew
  have hpoints : ((m.add [node]).2.remove node).2.points = m.points :=
    points_eq hwf hm hconfig fun a => by rw [hnodes]
  revert hconfig hnodes hpoints
  generalize ((m.add [node]).2.remove node).2 = m'
  intro hconfig hnodes hpoints
  cases m
  cases m'
  simp only at hconfig hnodes hpoints
  rw [hconfig, hnodes, hpoints]

/-! ## Owners -/

/-- The point that owns a hash: the first one at or after it, or else the first one of the ring. -/
def owner (h : UInt32) (points : List Point) : Option Point :=
  (points.find? fun p => h ≤ p.hash).or points.head?

/-- A point that owns a hash still owns it when other points are taken away. -/
theorem owner_filter {h : UInt32} {points : List Point} {p : Point} {keep : Point → Bool}
    (hp : owner h points = some p) (hkeep : keep p = true) :
    owner h (points.filter keep) = some p := by
  unfold owner at hp ⊢
  cases hfind : points.find? fun p => h ≤ p.hash with
  | some q =>
    rw [hfind] at hp
    cases hp
    have hfirst : (points.filter keep).find? (fun p => h ≤ p.hash) = some p := by
      rw [List.find?_filter]
      obtain ⟨hhash, before, after, rfl, hbefore⟩ := List.find?_eq_some_iff_append.1 hfind
      rw [List.find?_eq_some_iff_append]
      refine ⟨by simp [hkeep, hhash], before, after, rfl, ?_⟩
      intro q hq
      have := hbefore q hq
      simp_all
    rw [hfirst]
    rfl
  | none =>
    -- the hash lies after every point, before as after
    rw [hfind] at hp
    have hnone : (points.filter keep).find? (fun p => h ≤ p.hash) = none := by
      rw [List.find?_eq_none] at hfind ⊢
      intro q hq
      exact hfind q (List.mem_of_mem_filter hq)
    rw [hnone]
    obtain ⟨rest, rfl⟩ : ∃ rest, points = p :: rest := by
      cases points with
      | nil => cases hp
      | cons q rest =>
        cases hp
        exact ⟨rest, rfl⟩
    rw [List.filter_cons_of_pos hkeep]
    rfl

/-- A smaller hash comes first. -/
theorem WF.hash_le (hm : m.WF) : m.points.Pairwise fun p q => p.hash ≤ q.hash := by
  apply hm.sorted.imp
  intro p q hbefore
  unfold Sorting.Before Point.less at hbefore
  split at hbefore
  · exact UInt32.not_lt.1 (by simpa using hbefore)
  · next heq => exact UInt32.le_of_eq (not_not.1 heq).symm

/-- `Get` returns the node of the point that owns the hash of the key. -/
theorem WF.get_eq_owner (hm : m.WF) (hkey : key ≠ []) :
    m.get key = ((owner (m.config.hashFunc key) m.points).map Point.node).getD [] := by
  have hsearch := Sorting.search_eq_findIdx (p := fun p : Point =>
    decide (m.config.hashFunc key ≤ p.hash)) (l := m.points) (by
      apply hm.hash_le.imp
      intro p q hpq hp
      simp only [decide_eq_true_eq] at hp ⊢
      exact UInt32.le_trans hp hpq)
  unfold Map.get
  rw [if_neg hkey]
  split
  · next hnil => simp [hnil, owner]
  · dsimp only
    rw [hsearch]
    unfold owner
    rw [List.find?_eq_getElem?_findIdx]
    split
    · next hlen => rw [hlen, List.getElem?_eq_none (Nat.le_refl _), List.head?_eq_getElem?]; rfl
    · next hlen =>
      have hlt : m.points.findIdx (fun p => decide (m.config.hashFunc key ≤ p.hash)) <
          m.points.length := Nat.lt_of_le_of_ne List.findIdx_le_length hlen
      rw [List.getElem?_eq_getElem hlt]
      rfl

/-- A ring with fewer nodes has the points of these nodes. -/
theorem WF.points_of_subset (hm : m.WF) (hm' : m'.WF) (hconfig : m'.config = m.config)
    (hsub : ∀ a, a ∈ m'.nodes → a ∈ m.nodes) :
    m'.points = m.points.filter fun p => p.node ∈ m'.nodes := by
  apply Sorting.eq_of_sorted comparison_point hm'.sorted (hm.sorted.filter _)
  rw [List.perm_ext_iff_of_nodup hm'.nodup (hm.nodup.filter _)]
  intro p
  rw [List.mem_filter, hm'.mem_points, hm.mem_points, hconfig, decide_eq_true_eq]
  constructor
  · intro ⟨hnode, hrest⟩
    exact ⟨⟨hsub _ hnode, hrest⟩, hnode⟩
  · intro ⟨⟨_, hrest⟩, hnode⟩
    exact ⟨hnode, hrest⟩

/-- A ring with fewer nodes names the same owner, if that is one of its nodes. -/
theorem WF.get_of_subset (hm : m.WF) (hm' : m'.WF) (hconfig : m'.config = m.config)
    (hsub : ∀ a, a ∈ m'.nodes → a ∈ m.nodes) (hkey : key ≠ []) (hmem : m.get key ∈ m'.nodes) :
    m'.get key = m.get key := by
  have hpoints := hm.points_of_subset hm' hconfig hsub
  rw [hm.get_eq_owner hkey] at hmem ⊢
  rw [hm'.get_eq_owner hkey, hconfig, hpoints]
  cases howner : owner (m.config.hashFunc key) m.points with
  | some p =>
    rw [howner] at hmem
    rw [owner_filter howner (decide_eq_true hmem)]
  | none =>
    have hnil : m.points = [] := by
      cases hp : m.points with
      | nil => rfl
      | cons p points =>
        rw [hp] at howner
        simp [owner] at howner
    rw [hnil]
    rfl

end Map

open Map

/-- The ring `New` returns, after a history. -/
def Map.built (config : Config) (replicas : Int) (calls : List Call) : Map :=
  (Map.new config replicas).runs calls

section Built

variable (config : Config) (replicas : Int) (calls : List Call)

theorem built_spec : (built config replicas calls).WF ∧
    (built config replicas calls).config = (Map.new config replicas).config ∧
    [] ∉ (built config replicas calls).nodes := by
  apply (wf_new config replicas).runs
  intro hmem
  cases hmem

theorem built_hashFunc : (built config replicas calls).config.hashFunc = config.hashFunc := by
  rw [(built_spec config replicas calls).2.1]
  unfold Map.new
  split <;> rfl

/-- A ring has points for its nodes. -/
theorem built_replicas_pos (hreplicas : 0 < config.replicas) :
    0 < (built config replicas calls).config.replicas := by
  rw [(built_spec config replicas calls).2.1]
  unfold Map.new
  split
  · next h => exact Int.lt_toNat.2 h
  · exact hreplicas

/-- **The ring is canonical.** After any history the points are the points of the nodes, strictly
sorted; rings of one configuration with the same nodes have the same points and name the same
owners; and a new node that is removed again leaves the ring as it was. -/
theorem ring_canonical :
    (built config replicas calls).points.Pairwise (fun p q => p.less q = true) ∧
    (built config replicas calls).points.Nodup ∧
    (∀ p, p ∈ (built config replicas calls).points ↔ p.node ∈ (built config replicas calls).nodes ∧
      p.replica < (Map.new config replicas).config.replicas ∧
      p.hash = config.hashFunc (p.node ++ ascii "#" ++ formatUint p.replica)) ∧
    (∀ calls', (∀ a, a ∈ (built config replicas calls').nodes ↔
        a ∈ (built config replicas calls).nodes) →
      (built config replicas calls').points = (built config replicas calls).points ∧
      ∀ key, (built config replicas calls').get key = (built config replicas calls).get key) ∧
    ∀ node, node ≠ [] → node ∉ (built config replicas calls).nodes →
      (((built config replicas calls).add [node]).2.remove node).2 =
        built config replicas calls := by
  obtain ⟨hwf, hconfig, -⟩ := built_spec config replicas calls
  refine ⟨hwf.strict, hwf.nodup, ?_, ?_, ?_⟩
  · intro p
    rw [hwf.mem_points, built_hashFunc, hconfig]
  · intro calls' hnodes
    obtain ⟨hwf', hconfig', -⟩ := built_spec config replicas calls'
    have heq := hconfig'.trans hconfig.symm
    exact ⟨points_eq hwf' hwf heq hnodes, fun key => get_eq hwf' hwf heq hnodes⟩
  · intro node hne hnew
    exact hwf.remove_add hne hnew

end Built

/-- A ring of two replicas whose hash function sends every text to its length. -/
def Config.short : Config := ⟨2, fun text => UInt32.ofNat text.length⟩

/-- Two histories that end with the node `b`, where all points have the same hash. -/
theorem short_ring_canonical :
    (built .short 0 [.add [ascii "a", ascii "b"], .remove (ascii "a")]).points =
      (built .short 0 [.add [ascii "b"]]).points ∧
    (((built .short 0 [.add [ascii "b"]]).add [ascii "c"]).2.remove (ascii "c")).2 =
      built .short 0 [.add [ascii "b"]] := by
  obtain ⟨-, -, -, hsame, hback⟩ := ring_canonical .short 0 [.add [ascii "b"]]
  refine ⟨?_, hback (ascii "c") (by decide) (by decide)⟩
  exact (hsame [.add [ascii "a", ascii "b"], .remove (ascii "a")] fun a => Iff.rfl).1

/-- **Keys move as little as they can.** When nodes are added, a key keeps its owner or moves to one
of the new nodes. When a node is removed, the keys of the other nodes stay where they are, and its
own keys move to nodes that remain. -/
theorem keys_move_minimally (config : Config) (hreplicas : 0 < config.replicas) (replicas : Int)
    (calls : List Call) (key : GoString) (hkey : key ≠ []) (member : GoString)
    (hmember : member ∈ (built config replicas calls).nodes) :
    (∀ nodes, ((built config replicas calls).add nodes).2.get key =
        (built config replicas calls).get key ∨
      ((built config replicas calls).add nodes).2.get key ∈ nodes ∧
        ((built config replicas calls).add nodes).2.get key ∉ (built config replicas calls).nodes) ∧
    ∀ node ∈ (built config replicas calls).nodes,
      (∃ other ∈ (built config replicas calls).nodes, other ≠ node) →
      ((built config replicas calls).get key ≠ node →
        ((built config replicas calls).remove node).2.get key =
          (built config replicas calls).get key) ∧
      ((built config replicas calls).get key = node →
        ((built config replicas calls).remove node).2.get key ∈
          (built config replicas calls).nodes ∧
        ((built config replicas calls).remove node).2.get key ≠ node) := by
  obtain ⟨hwf, hconfig, hnil⟩ := built_spec config replicas calls
  have hpos := built_replicas_pos config replicas calls hreplicas
  generalize built config replicas calls = m at *
  refine ⟨?_, ?_⟩
  · intro nodes
    have hadd := hwf.add nodes
    have hposAdd : 0 < (m.add nodes).2.config.replicas := by
      rw [config_add hwf]
      exact hpos
    by_cases hold : (m.add nodes).2.get key ∈ m.nodes
    · left
      symm
      apply hadd.get_of_subset hwf (config_add hwf).symm _ hkey hold
      intro a ha
      exact (mem_add hwf).2 (Or.inl ha)
    · right
      have howner := get_mem hadd hposAdd hkey ((mem_add hwf).2 (Or.inl hmember))
      rcases (mem_add hwf).1 howner with hmem | ⟨-, hmem⟩
      · exact absurd hmem hold
      · exact ⟨hmem, hold⟩
  · intro node hnode ⟨other, hother, hne⟩
    have hnodeNe : node ≠ [] := by
      rintro rfl
      exact hnil hnode
    have hremove := hwf.remove node
    have hsub : ∀ a, a ∈ (m.remove node).2.nodes → a ∈ m.nodes := by
      intro a ha
      exact ((mem_remove hnodeNe).1 ha).1
    refine ⟨?_, ?_⟩
    · intro howner
      apply hwf.get_of_subset hremove config_remove hsub hkey
      exact (mem_remove hnodeNe).2 ⟨get_mem hwf hpos hkey hmember, howner⟩
    · intro _
      have hposRemove : 0 < (m.remove node).2.config.replicas := by
        rw [config_remove]
        exact hpos
      have howner := get_mem hremove hposRemove hkey ((mem_remove hnodeNe).2 ⟨hother, hne⟩)
      exact (mem_remove hnodeNe).1 howner

/-- The owner of `key` in a ring of two nodes stays when another node is removed. -/
theorem short_ring_moves :
    ((built .short 0 [.add [ascii "a", ascii "b"]]).remove (ascii "b")).2.get (ascii "key") =
      ascii "a" := by
  have howner : (built .short 0 [.add [ascii "a", ascii "b"]]).get (ascii "key") = ascii "a" := by
    decide +kernel
  obtain ⟨-, hremove⟩ := keys_move_minimally .short (by decide) 0
    [.add [ascii "a", ascii "b"]] (ascii "key") (by decide) (ascii "a") (by decide)
  obtain ⟨hstays, -⟩ := hremove (ascii "b") (by decide) ⟨ascii "a", by decide, by decide⟩
  exact (hstays (by rw [howner]; decide)).trans howner

/-! ## The owner as a least point -/

/-- The order of hash, node and replica. -/
def Point.Lt (p q : Point) : Prop :=
  p.hash < q.hash ∨ p.hash = q.hash ∧ (p.node < q.node ∨ p.node = q.node ∧ p.replica < q.replica)

theorem Point.lt_of_less {p q : Point} (h : p.less q = true) : p.Lt q := by
  unfold Point.less at h
  split at h
  · exact Or.inl (of_decide_eq_true h)
  · next hhash =>
    refine Or.inr ⟨not_not.1 hhash, ?_⟩
    split at h
    · exact Or.inl (of_decide_eq_true h)
    · next hnode => exact Or.inr ⟨not_not.1 hnode, of_decide_eq_true h⟩

/-- The owner of a hash is the least point at or after it, or the least of all if there is none. -/
theorem Map.WF.owner_least {m : Map} (hm : m.WF) {h : UInt32} {p : Point}
    (hp : owner h m.points = some p) :
    ((∃ q ∈ m.points, h ≤ q.hash) →
      Sorting.Least Point.Lt (fun q => q ∈ m.points ∧ h ≤ q.hash) p) ∧
    ((∀ q ∈ m.points, ¬ h ≤ q.hash) → Sorting.Least Point.Lt (fun q => q ∈ m.points) p) := by
  have hsorted : m.points.Pairwise Point.Lt := hm.strict.imp Point.lt_of_less
  unfold owner at hp
  cases hfind : m.points.find? fun p => h ≤ p.hash with
  | some q =>
    rw [hfind] at hp
    cases hp
    have hleast := Sorting.find?_least hsorted hfind
    simp only [decide_eq_true_eq] at hleast
    refine ⟨fun _ => hleast, ?_⟩
    intro hnone
    exact absurd hleast.holds.2 (hnone p hleast.holds.1)
  | none =>
    rw [hfind] at hp
    rw [List.find?_eq_none] at hfind
    refine ⟨?_, fun _ => Sorting.head?_least hsorted hp⟩
    intro ⟨q, hq, hle⟩
    exact absurd (decide_eq_true hle) (hfind q hq)

/-- **`Get` finds the least point.** In a ring with a member a key is owned by the node of the least
point, in the order of hash, node and replica, among those at or after its hash, or of the least
point of all when there is none. That node is a member, so the answer is empty only for an empty
key or an empty ring. -/
theorem get_least (config : Config) (hreplicas : 0 < config.replicas) (replicas : Int)
    (calls : List Call) (key : GoString) :
    (key ≠ [] → ∀ member ∈ (built config replicas calls).nodes,
      (∃ p, (built config replicas calls).get key = p.node ∧
        ((∃ q ∈ (built config replicas calls).points, config.hashFunc key ≤ q.hash) →
          Sorting.Least Point.Lt (fun q => q ∈ (built config replicas calls).points ∧
            config.hashFunc key ≤ q.hash) p) ∧
        ((∀ q ∈ (built config replicas calls).points, ¬ config.hashFunc key ≤ q.hash) →
          Sorting.Least Point.Lt (fun q => q ∈ (built config replicas calls).points) p)) ∧
      (built config replicas calls).get key ∈ (built config replicas calls).nodes) ∧
    ((built config replicas calls).get key = [] →
      key = [] ∨ ∀ a, a ∉ (built config replicas calls).nodes) := by
  obtain ⟨hwf, -, hnil⟩ := built_spec config replicas calls
  have hpos := built_replicas_pos config replicas calls hreplicas
  have hhash := built_hashFunc config replicas calls
  generalize built config replicas calls = m at *
  refine ⟨?_, ?_⟩
  · intro hkey member hmember
    have hmem := get_mem hwf hpos hkey hmember
    refine ⟨?_, hmem⟩
    have howner := hwf.get_eq_owner hkey
    rw [hhash] at howner
    cases hp : owner (config.hashFunc key) m.points with
    | none =>
      rw [howner, hp] at hmem
      exact absurd hmem hnil
    | some p =>
      rw [hp] at howner
      exact ⟨p, howner, hwf.owner_least hp⟩
  · intro hempty
    by_contra hne
    rw [not_or, not_forall_not] at hne
    obtain ⟨hkey, member, hmember⟩ := hne
    exact hnil (hempty ▸ get_mem hwf hpos hkey hmember)

/-- Every hash of the ring is at most that of the key, so its owner has the least of all points. -/
theorem short_ring_least :
    (built .short 0 [.add [ascii "b", ascii "a"]]).get (ascii "long") ∈
      (built .short 0 [.add [ascii "b", ascii "a"]]).nodes ∧
    ∃ p, (built .short 0 [.add [ascii "b", ascii "a"]]).get (ascii "long") = p.node ∧
      Sorting.Least Point.Lt
        (fun q => q ∈ (built .short 0 [.add [ascii "b", ascii "a"]]).points) p := by
  obtain ⟨hget, -⟩ := get_least .short (by decide) 0 [.add [ascii "b", ascii "a"]] (ascii "long")
  obtain ⟨⟨p, hp, -, hleast⟩, hmem⟩ := hget (by decide) (ascii "a") (by decide)
  exact ⟨hmem, p, hp, hleast (by decide +kernel)⟩

end Locache.ConsistentHash
