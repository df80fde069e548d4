import Locache.Go
import Locache.Sorting
import Mathlib.Data.List.Perm.Basic

/-!
# The consistent hash ring

A ring holds a fixed number of virtual points for each of its nodes, sorted by hash, node and
replica. The points are those of the nodes, in the one sorted order (`Map.WF`), however the ring was
built: rings of one configuration with the same nodes are the same list of points
(`Map.points_eq`), also when hashes collide.
-/

namespace Locache

/-- A `map[string]struct{}`. -/
abbrev GoSet := AList fun _ : GoString => Unit

namespace ConsistentHash

/-- One step of the IEEE checksum for one bit. -/
def crcBit (crc : UInt32) : UInt32 :=
  if crc &&& 1 = 1 then (crc >>> 1) ^^^ 0xedb88320 else crc >>> 1

/-- `crc32.ChecksumIEEE`. -/
def checksumIEEE (data : Bytes) : UInt32 :=
  data.foldl (fun crc b =>
    Nat.repeat crcBit 8 (crc ^^^ b.toUInt32)) 0xffffffff ^^^ 0xffffffff

example : checksumIEEE (ascii "123456789") = 0xcbf43926 := by decide +kernel

structure Config where
  replicas : Nat
  hashFunc : Bytes → UInt32

def Config.default : Config := ⟨100, checksumIEEE⟩

structure Point where
  hash : UInt32
  node : GoString
  replica : Nat
  deriving DecidableEq, Repr

structure Map where
  config : Config
  points : List Point
  nodes : GoSet

/-- `New(WithReplicas(replicas))` with the hash function of `config`. -/
def Map.new (config : Config) (replicas : Int) : Map where
  config := if 0 < replicas then { config with replicas := replicas.toNat } else config
  points := []
  nodes := ∅

/-- The order `sortPoints` sorts by. -/
def Point.less (p q : Point) : Bool :=
  if p.hash ≠ q.hash then p.hash < q.hash
  else if p.node ≠ q.node then p.node < q.node
  else p.replica < q.replica

def sortPoints (points : List Point) : List Point := Sorting.slice Point.less points

/-- The virtual points of a node. -/
def Config.points (c : Config) (node : GoString) : List Point :=
  (List.range c.replicas).map fun i => ⟨c.hashFunc (node ++ ascii "#" ++ formatUint i), node, i⟩

namespace Map

/-- The loop of `Add`, and whether it changed anything. -/
def addNodes : List GoString → Map → Bool × Map
  | [], m => (false, m)
  | node :: nodes, m =>
    if node = [] then addNodes nodes m
    else if node ∈ m.nodes then addNodes nodes m
    else
      (true, (addNodes nodes
        { m with nodes := m.nodes.insert node (), points := m.points ++ m.config.points node }).2)

def add (nodes : List GoString) (m : Map) : Option Err × Map :=
  if nodes = [] then (some (.other (ascii "no nodes provided")), m)
  else
    let r := addNodes nodes m
    (none, if r.1 then { r.2 with points := sortPoints r.2.points } else r.2)

def remove (node : GoString) (m : Map) : Option Err × Map :=
  if node = [] then (some (.other (ascii "invalid node")), m)
  else if node ∉ m.nodes then (some (.other (ascii "node " ++ node ++ ascii " not found")), m)
  else
    (none, { m with points := m.points.filter fun p => p.node ≠ node, nodes := m.nodes.erase node })

def get (key : GoString) (m : Map) : GoString :=
  if key = [] then []
  else if m.points = [] then []
  else
    let h := m.config.hashFunc key
    let idx := Sorting.search m.points.length fun i =>
      (m.points[i]?).any fun p => h ≤ p.hash
    let idx := if idx = m.points.length then 0 else idx
    ((m.points[idx]?).map Point.node).getD []

end Map

/-! ## The order of the points -/

theorem comparison_uint32 : Sorting.Comparison fun a b : UInt32 => decide (a < b) := by
  refine ⟨?_, ?_, ?_⟩
  · intro a
    simp
  · intro a b c hab hbc
    simp only [decide_eq_true_eq] at *
    exact UInt32.lt_trans hab hbc
  · intro a b hab hba
    simp only [decide_eq_false_iff_not, UInt32.not_lt] at *
    exact UInt32.le_antisymm hba hab

theorem comparison_string : Sorting.Comparison fun a b : GoString => decide (a < b) := by
  refine ⟨?_, ?_, ?_⟩
  · intro a
    simp
  · intro a b c hab hbc
    simp only [decide_eq_true_eq] at *
    exact List.lt_trans hab hbc
  · intro a b hab hba
    simp only [decide_eq_false_iff_not] at *
    exact List.le_antisymm hba hab

theorem comparison_nat : Sorting.Comparison fun a b : Nat => decide (a < b) := by
  refine ⟨?_, ?_, ?_⟩
  · intro a
    simp
  · intro a b c hab hbc
    simp only [decide_eq_true_eq] at *
    omega
  · intro a b hab hba
    simp only [decide_eq_false_iff_not] at *
    omega

/-- Points are compared by hash, then node, then replica. -/
theorem comparison_point : Sorting.Comparison Point.less := by
  have hinj : Function.Injective fun p : Point => (p.hash, p.node, p.replica) := by
    intro p q hpq
    cases p
    cases q
    simp only [Prod.mk.injEq] at hpq
    obtain ⟨rfl, rfl, rfl⟩ := hpq
    rfl
  exact (comparison_uint32.lex (comparison_string.lex comparison_nat)).on hinj

/-! ## Rings built in any way -/

theorem keys_insert_of_notMem {α : Type} {β : α → Type} [DecidableEq α] {s : AList β} {a : α}
    {b : β a} (h : a ∉ s) : (s.insert a b).keys = a :: s.keys := by
  rw [AList.keys_insert, List.erase_of_not_mem h]

theorem keys_erase_eq_filter {α : Type} {β : α → Type} [DecidableEq α] (s : AList β) (a : α) :
    (s.erase a).keys = s.keys.filter fun x => x ≠ a := by
  rw [AList.keys_erase, s.keys_nodup.erase_eq_filter]
  exact List.filter_congr fun x _ => by simp [bne, BEq.beq]

/-- The points of a ring are those of its nodes, sorted. -/
structure Map.WF (m : Map) : Prop where
  points : m.points.Perm (m.nodes.keys.flatMap m.config.points)
  sorted : m.points.Pairwise (Sorting.Before Point.less)

namespace Map

variable {m m' : Map} {node key : GoString} {nodes : List GoString}

theorem wf_new (config : Config) (replicas : Int) : (new config replicas).WF :=
  ⟨List.Perm.refl _, List.Pairwise.nil⟩

/-- The points are those of the nodes, in any order. -/
def Holds (m : Map) : Prop := m.points.Perm (m.nodes.keys.flatMap m.config.points)

theorem addNodes_spec (nodes : List GoString) (hm : m.Holds) : (addNodes nodes m).2.Holds ∧
    (addNodes nodes m).2.config = m.config ∧
    (∀ a, a ∈ (addNodes nodes m).2.nodes ↔ a ∈ m.nodes ∨ a ≠ [] ∧ a ∈ nodes) ∧
    ((addNodes nodes m).1 = false → (addNodes nodes m).2 = m) := by
  fun_induction addNodes nodes m with
  | case1 m => exact ⟨hm, rfl, by simp, fun _ => rfl⟩
  | case2 nodes m ih =>
    obtain ⟨h₁, h₂, h₃, h₄⟩ := ih hm
    refine ⟨h₁, h₂, ?_, h₄⟩
    intro a
    rw [h₃ a, List.mem_cons]
    tauto
  | case3 node nodes m hne hin ih =>
    obtain ⟨h₁, h₂, h₃, h₄⟩ := ih hm
    refine ⟨h₁, h₂, ?_, h₄⟩
    intro a
    rw [h₃ a, List.mem_cons]
    constructor
    · tauto
    · rintro (ha | ⟨ha, rfl | hmem⟩)
      · exact Or.inl ha
      · exact Or.inl hin
      · exact Or.inr ⟨ha, hmem⟩
  | case4 node nodes m hne hin ih =>
    have hkeys : (m.nodes.insert node ()).keys = node :: m.nodes.keys := keys_insert_of_notMem hin
    obtain ⟨h₁, h₂, h₃, -⟩ := ih (by
      unfold Holds
      simp only [hkeys, List.flatMap_cons]
      exact (hm.append_right _).trans List.perm_append_comm)
    refine ⟨h₁, h₂, ?_, fun h => by cases h⟩
    intro a
    rw [h₃ a, AList.mem_insert, List.mem_cons]
    constructor
    · rintro ((rfl | ha) | ⟨ha, hmem⟩)
      · exact Or.inr ⟨hne, Or.inl rfl⟩
      · exact Or.inl ha
      · exact Or.inr ⟨ha, Or.inr hmem⟩
    · tauto

theorem config_add (hm : m.WF) : (m.add nodes).2.config = m.config := by
  unfold add
  split
  · rfl
  · dsimp only
    split <;> exact (addNodes_spec nodes hm.points).2.1

theorem mem_add (hm : m.WF) {a : GoString} :
    a ∈ (m.add nodes).2.nodes ↔ a ∈ m.nodes ∨ a ≠ [] ∧ a ∈ nodes := by
  unfold add
  split
  · next h => simp [h]
  · dsimp only
    split <;> exact (addNodes_spec nodes hm.points).2.2.1 a

theorem WF.add (hm : m.WF) (nodes : List GoString) : (m.add nodes).2.WF := by
  unfold Map.add
  split
  · exact hm
  · obtain ⟨h₁, -, -, h₄⟩ := addNodes_spec nodes hm.points
    dsimp only
    split
    · exact ⟨(Sorting.slice_perm _ _).trans h₁, Sorting.slice_sorted comparison_point _⟩
    · next h =>
      rw [h₄ (by simpa using h)]
      exact hm

theorem config_remove : (m.remove node).2.config = m.config := by
  unfold remove
  split
  · rfl
  · split <;> rfl

theorem mem_remove {a : GoString} (hne : node ≠ []) :
    a ∈ (m.remove node).2.nodes ↔ a ∈ m.nodes ∧ a ≠ node := by
  unfold remove
  rw [if_neg hne]
  split
  · next h =>
    refine ⟨fun ha => ⟨ha, ?_⟩, fun ha => ha.1⟩
    rintro rfl
    exact h ha
  · rw [AList.mem_erase, and_comm]

theorem WF.remove (hm : m.WF) (node : GoString) : (m.remove node).2.WF := by
  unfold Map.remove
  split
  · exact hm
  · split
    · exact hm
    · refine ⟨?_, hm.sorted.filter _⟩
      have hfilter : (m.nodes.keys.flatMap m.config.points).filter (fun p => p.node ≠ node) =
          (m.nodes.erase node).keys.flatMap m.config.points := by
        rw [keys_erase_eq_filter]
        induction m.nodes.keys with
        | nil => rfl
        | cons a as ih =>
          rw [List.flatMap_cons, List.filter_append, ih]
          by_cases ha : a = node
          · subst ha
            rw [List.filter_eq_nil_iff.2 (by simp [Config.points])]
            simp
          · rw [List.filter_eq_self.2 (by simp [Config.points, ha])]
            simp [ha]
      simp only
      rw [← hfilter]
      exact hm.points.filter _

/-- **Rings with the same nodes are the same.** -/
theorem points_eq (hm : m.WF) (hm' : m'.WF) (hc : m.config = m'.config)
    (hn : ∀ a, a ∈ m.nodes ↔ a ∈ m'.nodes) : m.points = m'.points := by
  have hkeys : m.nodes.keys.Perm m'.nodes.keys := by
    rw [List.perm_ext_iff_of_nodup m.nodes.keys_nodup m'.nodes.keys_nodup]
    exact hn
  have hpoints : m.points.Perm m'.points :=
    calc m.points.Perm (m.nodes.keys.flatMap m.config.points) := hm.points
      List.Perm _ (m'.nodes.keys.flatMap m.config.points) := hkeys.flatMap_right _
      List.Perm _ m'.points := by rw [hc]; exact hm'.points.symm
  exact Sorting.eq_of_sorted comparison_point hm.sorted hm'.sorted hpoints

theorem get_eq (hm : m.WF) (hm' : m'.WF) (hc : m.config = m'.config)
    (hn : ∀ a, a ∈ m.nodes ↔ a ∈ m'.nodes) : m.get key = m'.get key := by
  unfold get
  rw [points_eq hm hm' hc hn, hc]

/-- The owner of a key is a node of the ring. -/
theorem get_mem (hm : m.WF) (hr : 0 < m.config.replicas) (hkey : key ≠ []) (hn : node ∈ m.nodes) :
    m.get key ∈ m.nodes := by
  have hmem : ∀ p ∈ m.points, p.node ∈ m.nodes := by
    intro p hp
    obtain ⟨a, ha, hpa⟩ := List.mem_flatMap.1 (hm.points.subset hp)
    obtain ⟨i, -, rfl⟩ := List.mem_map.1 hpa
    exact ha
  have hne : m.points ≠ [] := by
    intro hnil
    have hpoint : (⟨m.config.hashFunc (node ++ ascii "#" ++ formatUint 0), node, 0⟩ : Point) ∈
        m.nodes.keys.flatMap m.config.points :=
      List.mem_flatMap.2 ⟨node, hn, List.mem_map.2 ⟨0, by simpa using hr, rfl⟩⟩
    have := hm.points.symm.subset hpoint
    rw [hnil] at this
    cases this
  have hidx : ∀ i, i < m.points.length → ((m.points[i]?).map Point.node).getD [] ∈ m.nodes := by
    intro i hi
    rw [List.getElem?_eq_getElem hi]
    exact hmem _ (List.getElem_mem hi)
  unfold get
  rw [if_neg hkey, if_neg hne]
  apply hidx
  have hlen : 0 < m.points.length := List.length_pos_iff.2 hne
  split
  · exact hlen
  · next h =>
    have hle := Sorting.search_le m.points.length fun i =>
      (m.points[i]?).any fun p => m.config.hashFunc key ≤ p.hash
    omega

end Map

end ConsistentHash

end Locache
