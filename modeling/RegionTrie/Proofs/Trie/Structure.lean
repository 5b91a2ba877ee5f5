import RegionTrie.Proofs.Trie.Run

/-!
# The structure of a trie

In memory a trie is a set of cells that name each other by index. Node 0 is the root, and from
there on the links form a binary tree: following them never leads to one node in two ways, and
every child names the node that links it. The nodes that were ever handed out are those of the
tree and those on the stack, and the numbers that a trie reports count what they say they count.

## Main definitions

* `Trie.reach`: the node at the end of a path of links from the root
* `Trie.IsTree`: the links form a tree and the counts are right

## Main results

* `Trie.WellFormed.isTree`: what makes a trie well formed makes its links a tree
* `Trie.isTree_run`: so the links form a tree after every run
-/

namespace RegionTrie.Trie

variable {K V σ : Type}

/-- The node that links lead to along a path from node 0. -/
def reach (t : Trie K V) (path : List Bool) : Option Nat :=
  Cell.follow t.root.cells path 0

/-- The links of a trie form a binary tree with node 0 as its root, every node ever handed out is
either linked or free, and the counts that the trie keeps are right. -/
structure IsTree [PrefixKey K] (t : Trie K V) : Prop where
  /-- Node 0 is linked and has no parent. -/
  root : ∃ c, Cell.find? t.root.cells 0 = some c ∧ c.parent = none
  /-- Every other node is linked by the one that it names as its parent. -/
  parent : ∀ path bit j, t.reach (path ++ [bit]) = some j →
    ∃ i c d, t.reach path = some i ∧ Cell.find? t.root.cells i = some c ∧ c.child bit = some j ∧
      Cell.find? t.root.cells j = some d ∧ d.parent = some i
  /-- The linked nodes are those that can be reached. -/
  reached : ∀ i, i ∈ t.root.indices ↔ ∃ path, t.reach path = some i
  /-- No node is reached twice. -/
  once : ∀ p q i, t.reach p = some i → t.reach q = some i → p = q
  /-- No node lies deeper than keys are wide. -/
  shallow : ∀ path i, t.reach path = some i → path.length ≤ PrefixKey.width K
  /-- Every node ever handed out is linked or free, once. -/
  accounted : (t.root.indices ++ t.nodes.free).Perm (List.range t.nodes.handedOut)
  /-- The number of linked nodes is found without going below zero. -/
  counted : t.nodes.remaining + t.freeCount ≤ t.nodes.capacity
  nodeCount_eq : t.nodeCount = t.root.indices.length
  size_eq : t.size = t.root.cells.countP fun c => c.value.isSome

/-! ## Links and branches -/

section Links

variable {t : Trie K V}

theorem reach_eq_index_after (hnd : t.root.indices.Nodup) (hroot : t.Rooted) (path : List Bool) :
    t.reach path = (t.root.after path).index? :=
  Branch.follow_eq_index_after hnd (List.Subset.refl _) hroot path

/-- The cell of a node that is reached. -/
theorem exists_cell_of_reach (hnd : t.root.indices.Nodup) (hroot : t.Rooted) {path : List Bool}
    {i : Nat} (h : t.reach path = some i) :
    ∃ c, Cell.find? t.root.cells i = some c ∧
      (∀ up, (t.root.after path).Linked up → c.parent = up) ∧
      ∀ bit, c.child bit = t.reach (path ++ [bit]) := by
  rw [reach_eq_index_after hnd hroot] at h
  obtain ⟨c, hc, rfl, hparent, hchild⟩ := Branch.exists_cell_of_index h
  refine ⟨c, ?_, hparent, ?_⟩
  · exact Cell.find?_index_of_mem hnd (Branch.cells_after_subset t.root path hc)
  · intro bit
    rw [hchild, reach_eq_index_after hnd hroot, Branch.after_append, Branch.after_cons,
      Branch.after_nil]

theorem parent_of_reach (hnd : t.root.indices.Nodup) (hroot : t.Rooted)
    (hlinked : t.root.Linked none) {path : List Bool} {bit : Bool} {j : Nat}
    (h : t.reach (path ++ [bit]) = some j) :
    ∃ i c d, t.reach path = some i ∧ Cell.find? t.root.cells i = some c ∧ c.child bit = some j ∧
      Cell.find? t.root.cells j = some d ∧ d.parent = some i := by
  have hholds : t.root.Holds (path ++ [bit]) := by
    rw [Branch.holds_iff_index, ← reach_eq_index_after hnd hroot]
    exact ⟨j, h⟩
  -- a node is reached only through the node before it
  obtain ⟨i, hi⟩ := Branch.holds_iff_index.mp hholds.of_append
  have hreach : t.reach path = some i := by
    rw [reach_eq_index_after hnd hroot]
    exact hi
  obtain ⟨c, hc, -, hchild⟩ := exists_cell_of_reach hnd hroot hreach
  obtain ⟨d, hd, hparent, -⟩ := exists_cell_of_reach hnd hroot h
  refine ⟨i, c, d, hreach, hc, ?_, hd, ?_⟩
  · rw [hchild, h]
  · exact hparent _ (Branch.linked_after hlinked hi bit)

end Links

/-! ## Trees -/

variable [PrefixKey K]

/-- No number is handed out twice, so none is linked twice. -/
theorem WellFormed.nodup_indices {t : Trie K V} (ht : t.WellFormed) : t.root.indices.Nodup :=
  (List.nodup_append.mp (ht.accounts.nodup_iff.mpr List.nodup_range)).1

/-- Links lead where the branches of a well-formed trie lead. -/
theorem WellFormed.reach_eq {t : Trie K V} (ht : t.WellFormed ∧ t.Rooted) (path : List Bool) :
    t.reach path = (t.root.after path).index? :=
  reach_eq_index_after ht.1.nodup_indices ht.2 path

/-- The links of a well-formed trie form a tree. -/
theorem WellFormed.isTree {t : Trie K V} (ht : t.WellFormed) (hroot : t.Rooted) : t.IsTree := by
  have hnd := ht.nodup_indices
  have hlen : t.root.indices.length + t.nodes.free.length = t.nodes.handedOut := by
    have hperm := ht.accounts.length_eq
    rwa [List.length_append, List.length_range] at hperm
  have hle := ht.store.remaining_le
  constructor
  case root =>
    have hzero : t.reach [] = some 0 := rfl
    obtain ⟨c, hc, hparent, -⟩ := exists_cell_of_reach hnd hroot hzero
    refine ⟨c, hc, hparent none ?_⟩
    rw [Branch.after_nil]
    exact ht.linked
  case parent =>
    intro path bit j h
    exact parent_of_reach hnd hroot ht.linked h
  case reached =>
    intro i
    simp only [reach_eq_index_after hnd hroot]
    exact ⟨Branch.exists_path_of_mem_indices, fun ⟨_, h⟩ => Branch.mem_indices_of_after h⟩
  case once =>
    intro p q i hp hq
    rw [reach_eq_index_after hnd hroot] at hp hq
    exact Branch.path_unique hnd hp hq
  case shallow =>
    intro path i h
    rw [reach_eq_index_after hnd hroot] at h
    exact ht.shallow path (Branch.holds_iff_index.mpr ⟨i, h⟩)
  case accounted => exact ht.accounts
  case counted =>
    -- the nodes handed out are those linked and those free
    unfold NodeStore.handedOut at hlen
    unfold freeCount
    omega
  case nodeCount_eq =>
    unfold NodeStore.handedOut at hlen
    unfold nodeCount NodeStore.linked
    omega
  case size_eq => exact ht.size_eq

variable [RawSource σ]

/-- **The links of a trie form a tree after every run**, whatever memory was granted, and every
node that was linked at some moment of the run is linked or free afterwards, once. -/
theorem isTree_run {value : Layout} {p : Preallocation} {r₀ r₁ : Region σ} {t : Trie K V}
    (h : create value p r₀ = (.ok t, r₁)) (r : Region σ) (before after : List (TrieTurn K V σ)) :
    (t.run r (before ++ after)).2.1.IsTree ∧
      ∀ i ∈ (t.run r before).2.1.root.indices,
        ((t.run r (before ++ after)).2.1.root.indices ++
          (t.run r (before ++ after)).2.1.nodes.free).count i = 1 := by
  have hcreated := (wellFormed_create h).1
  have hbefore := WellFormed.run hcreated r before
  have hafter := WellFormed.run hcreated r (before ++ after)
  have hle := handedOut_le_run hbefore (t.run r before).2.2 after
  refine ⟨hafter.1.isTree hafter.2, ?_⟩
  intro i hi
  -- a node linked before was handed out before, and so it still is
  have hout : i < (t.run r before).2.1.nodes.handedOut :=
    List.mem_range.mp (hbefore.1.accounts.subset (List.mem_append_left _ hi))
  rw [hafter.1.accounts.count_eq, List.nodup_range.count, if_pos]
  rw [List.mem_range, run_append]
  exact Nat.lt_of_lt_of_le hout hle

/-- The links form a tree, for instance, where a value was stored and removed again over a
numbered source. -/
theorem isTree_run_tracked :
    ∃ (t : Trie UInt32 Nat) (r : Region Tracker),
      create ⟨8, 8⟩ (.depth 1) (trackedRegion 1024) = (.ok t, r) ∧
      (t.run r ([⟨id, .insert 0 0xC0000000 7⟩] ++ [⟨id, .delete 0 0xC0000000⟩])).2.1.IsTree := by
  rcases h : create (K := UInt32) (V := Nat) ⟨8, 8⟩ (.depth 1) (trackedRegion 1024) with
    ⟨fault | t, r⟩
  · have hok : (create (K := UInt32) (V := Nat) ⟨8, 8⟩ (.depth 1) (trackedRegion 1024)).1.toBool :=
      by decide +kernel
    rw [h] at hok
    cases hok
  · exact ⟨t, r, rfl, (isTree_run h r _ _).1⟩

end RegionTrie.Trie
