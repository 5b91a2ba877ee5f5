import RegionTrie.Proofs.Trie.Cascade
import RegionTrie.Proofs.Trie.Structure

/-!
# Deletions

A deletion clears the value of one cell, or recycles it with what has no other purpose above it, or
finds nothing and leaves trie and region alone. Which of these it does is decided by the cell at the
end of the path of its prefix.

## Main definitions

* `Trie.cellAt`: the cell at the end of a path of links from the root
* `Trie.Cleared`, `Trie.Collapsed`: the two kinds of change that a deletion makes

## Main results

* `Trie.reach_of_cascade`: how deep the recycled nodes lie
* `Trie.unlink_exact`: what a removal does to a well-formed trie and its region
* `Trie.delete_exact`: what a deletion does after a run
-/

namespace RegionTrie.Trie

open Branch

variable {K V σ : Type}

/-- The cell at the end of a path of links from the root. -/
def cellAt (t : Trie K V) (path : List Bool) : Option (Cell V) :=
  (t.reach path).bind (Cell.find? t.root.cells)

/-- One node has lost its value, and nothing else has happened. -/
structure Cleared (before after : Trie K V) (node : Nat) : Prop where
  cells : after.root.cells = before.root.cells.map (Cell.clear node)
  nodes : after.nodes = before.nodes
  size : after.size + 1 = before.size

/-- Nodes were recycled, one after the other: they are on the stack in that order, the survivor has
lost its link to the last one, the size has gone down by the value of the first one, and nothing
else has happened. -/
structure Collapsed (before after : Trie K V) (gone : List Nat) (top survivor : Nat)
    (value : Option V) : Prop where
  cells : after.root.cells = before.root.cells.filterMap (Cell.collapse gone top survivor)
  nodes : after.nodes = { before.nodes with free := gone.reverse ++ before.nodes.free }
  size : after.size + value.isSome.toNat = before.size

/-- The diagnostics for recycled nodes name each of them with its depth. -/
theorem recycledEvents_eq (depth : Nat) (gone : List Nat) :
    recycledEvents depth gone = gone.mapIdx fun k i => .nodeRecycled i (depth - k) := by
  induction gone generalizing depth with
  | nil => rfl
  | cons index gone ih =>
    rw [recycledEvents, ih, List.mapIdx_cons]
    simp only [Nat.sub_zero, Nat.sub_sub, Nat.add_comm]

section Places

variable {t : Trie K V} [PrefixKey K]

theorem cellAt_eq (ht : t.WellFormed ∧ t.Rooted) (path : List Bool) :
    t.cellAt path = (t.root.after path).cell? := by
  have hnd := ht.1.nodup_indices
  rw [cellAt, WellFormed.reach_eq ht]
  cases hnode : t.root.after path with
  | absent => rfl
  | node i up v zero one =>
    have hcell : (t.root.after path).cell? = some ⟨i, up, v, zero.index?, one.index?⟩ := by
      rw [hnode]
      rfl
    exact find?_of_cell? hnd (cells_after_subset t.root path) hcell

/-- The root is node 0, and the one node without a parent. -/
theorem parent_eq_none_iff (ht : t.WellFormed ∧ t.Rooted) :
    ∀ c ∈ t.root.cells, c.parent = none ↔ c.index = 0 := by
  have hnd := ht.1.nodup_indices
  have hlinked := ht.1.linked
  have hrooted := ht.2
  unfold Rooted at hrooted
  cases hroot : t.root with
  | absent => intro c hc; cases hc
  | node i up v zero one =>
    rw [hroot] at hnd hlinked hrooted
    obtain rfl := Option.some.inj hrooted
    obtain rfl : up = none := hlinked.1
    intro c hc
    rcases List.mem_cons.mp hc with rfl | hc
    · exact ⟨fun _ => rfl, fun _ => rfl⟩
    · -- below the root every node has a parent, and index 0 does not occur again
      have hbelow : ∃ bit, c ∈ ((node 0 none v zero one).child bit).cells :=
        (List.mem_append.mp hc).elim (⟨false, ·⟩) (⟨true, ·⟩)
      obtain ⟨bit, hc⟩ := hbelow
      have hparent := isSome_parent_of_linked (linked_child hlinked bit) c hc
      refine iff_of_false (fun hnone => ?_) fun hzero => ?_
      · rw [hnone] at hparent
        cases hparent
      · exact (nodup_child hnd bit).1 (hzero ▸ index_mem_indices_of_mem hc)

/-- The nodes of a walk lie one above the other on the path to the first of them. -/
theorem reach_of_cascade (ht : t.IsTree) {path : List Bool} {target top survivor : Nat}
    {gone : List Nat} (hreach : t.reach path = some target)
    (h : Cell.Cascade t.root.cells target gone top survivor) :
    ∀ k i, gone[k]? = some i → t.reach (path.take (path.length - k)) = some i := by
  induction h generalizing path with
  | @stop node up c p hnode hparent hup hneeded =>
    rintro (_ | k) i hi
    · obtain rfl := Option.some.inj hi
      rwa [Nat.sub_zero, List.take_length]
    · cases hi
  | @climb node up top survivor gone c p hnode hparent hup hidle habove ih =>
    rintro (_ | k) i hi
    · obtain rfl := Option.some.inj hi
      rwa [Nat.sub_zero, List.take_length]
    · -- the node has a parent, so it is not the root, and the parent is at the path before it
      rcases List.eq_nil_or_concat' path with rfl | ⟨front, bit, rfl⟩
      · obtain ⟨c₀, hc₀, hnone⟩ := ht.root
        obtain rfl : 0 = node := Option.some.inj hreach
        obtain rfl := Option.some.inj (hnode.symm.trans hc₀)
        rw [hnone] at hparent
        cases hparent
      · obtain ⟨i', -, d, hfront, -, -, hd, hd'⟩ := ht.parent front bit node hreach
        obtain rfl := Option.some.inj (hnode.symm.trans hd)
        obtain rfl := Option.some.inj (hparent.symm.trans hd')
        have hrest := ih hfront k i (by simpa using hi)
        rw [List.length_append, List.length_singleton, Nat.add_sub_add_right,
          List.take_append_of_le_length (Nat.sub_le _ _)]
        exact hrest

/-! ## Deletions -/

/-- A removal that recycles no node takes away the value of the node at the end of its path. -/
theorem cleared_of_erase (ht : t.WellFormed) {path : List Bool} {e : Erasure V}
    (h : t.root.erase path = some e) (hnone : e.recycled = []) {c : Cell V}
    (hc : (t.root.after path).cell? = some c) (hvalue : c.value.isSome) :
    t.Cleared { nodes := t.nodes.recycle e.recycled, root := e.branch,
                size := t.size - e.valued.toNat } c.index where
  cells := by
    have hcells := cells_erase_of_recycled_nil h hnone ht.nodup_indices (index?_of_cell? hc)
    rwa [List.filterMap_eq_map'] at hcells
  nodes := by rw [NodeStore.recycle, hnone, List.reverse_nil, List.nil_append]
  size := by
    have hvalued := valued_erase_add h
    rw [valued_erase h, get_eq_value hc, hvalue, ← ht.size_eq] at hvalued
    rw [valued_erase h, get_eq_value hc, hvalue]
    show t.size - 1 + 1 = t.size
    have hone : e.branch.valued + 1 = t.size := hvalued
    omega

/-- A removal that recycles nodes recycles those of the walk from the end of its path. -/
theorem collapsed_of_erase (ht : t.WellFormed ∧ t.Rooted) {path : List Bool} {e : Erasure V}
    (h : t.root.erase path = some e) (hsome : e.recycled ≠ []) {c : Cell V}
    (hc : (t.root.after path).cell? = some c) :
    ∃ top survivor, Cell.Cascade t.root.cells c.index e.recycled top survivor ∧
      t.Collapsed { nodes := t.nodes.recycle e.recycled, root := e.branch,
                    size := t.size - e.valued.toNat } e.recycled top survivor c.value := by
  -- the root stays
  have hstays : e.branch ≠ absent := by
    have hrooted := ht.2
    have hlinked := ht.1.linked
    unfold Rooted at hrooted
    cases hroot : t.root with
    | absent => rw [hroot] at hrooted; cases hrooted
    | node i up v zero one =>
      rw [hroot] at h hlinked
      obtain rfl : up = none := hlinked.1
      have hindex := index_erase_of_root h
      intro habsent
      rw [habsent] at hindex
      cases hindex
  have hnd := ht.1.nodup_indices
  obtain ⟨target, top, survivor, htarget, hwalk, -, hcells⟩ :=
    cascade_of_erase hnd (parent_eq_none_iff ht) h hstays hsome (List.Subset.refl _) hnd
      ht.1.linked
  obtain rfl := Option.some.inj ((index?_of_cell? hc).symm.trans htarget)
  refine ⟨top, survivor, hwalk, hcells, rfl, ?_⟩
  have hvalued := valued_erase_add h
  rw [← ht.1.size_eq, valued_erase h, get_eq_value hc] at hvalued
  rw [valued_erase h, get_eq_value hc]
  show t.size - c.value.isSome.toNat + c.value.isSome.toNat = t.size
  omega

/-- What a removal does to a trie and its region: nothing if there is no cell at the end of the
path, or if that cell has no value and has to stay. Otherwise a cell that has to stay loses its
value, and one that does not is recycled, with what has no other purpose above it. -/
theorem unlink_exact (ht : t.WellFormed ∧ t.Rooted) (r : Region σ) (path : List Bool) :
    ((t.unlink r path).1 = .ok () ↔
      ∃ c, t.cellAt path = some c ∧ (c.value.isSome ∨ c.Childless ∧ c.index ≠ 0)) ∧
    ((t.unlink r path).1 ≠ .ok () → t.unlink r path = (.error .notFound, t, r)) ∧
    ∀ c, t.cellAt path = some c → (t.unlink r path).1 = .ok () →
      (¬ (c.Childless ∧ c.index ≠ 0) →
        t.Cleared (t.unlink r path).2.1 c.index ∧ (t.unlink r path).2.2 = r) ∧
      (c.Childless ∧ c.index ≠ 0 → ∃ gone top survivor,
        Cell.Cascade t.root.cells c.index gone top survivor ∧
        (∀ k i, gone[k]? = some i → t.reach (path.take (path.length - k)) = some i) ∧
        t.Collapsed (t.unlink r path).2.1 gone top survivor c.value ∧
        (t.unlink r path).2.2 =
          (gone.mapIdx fun k i => .nodeRecycled i (path.length - k)).foldl Region.note r) := by
  -- the root is the one node without a parent
  have hroot : ∀ c, (t.root.after path).cell? = some c → (c.parent.isSome ↔ c.index ≠ 0) := by
    intro c hc
    have hmem := cells_after_subset t.root path (mem_cells_of_cell? hc)
    rw [Option.isSome_iff_ne_none, ne_eq, parent_eq_none_iff ht c hmem]
  have hsome : (t.root.erase path).isSome ↔
      ∃ c, (t.root.after path).cell? = some c ∧ (c.value.isSome ∨ c.Childless ∧ c.index ≠ 0) := by
    rw [isSome_erase_iff]
    refine exists_congr fun c => and_congr_right fun hc => ?_
    rw [hroot c hc]
  rw [cellAt_eq ht, ← hsome]
  unfold unlink
  cases herase : t.root.erase path with
  | none => simp
  | some e =>
    refine ⟨by simp, fun hnot => absurd rfl hnot, fun c hc _ => ?_⟩
    obtain ⟨c', hc', hend⟩ := recycled_erase herase
    obtain rfl := Option.some.inj (hc.symm.trans hc')
    rw [← hroot c hc]
    dsimp only
    rcases hend with ⟨hnone, -, hvalue, hstays⟩ | ⟨hgone, hleaves⟩
    · refine ⟨fun _ => ⟨cleared_of_erase ht.1 herase hnone hc hvalue, ?_⟩,
        fun hleaves => absurd hleaves hstays⟩
      rw [hnone]
      rfl
    · refine ⟨fun hstays => absurd hleaves hstays, fun _ => ?_⟩
      obtain ⟨top, survivor, hwalk, hcollapsed⟩ := collapsed_of_erase ht herase hgone hc
      refine ⟨e.recycled, top, survivor, hwalk, ?_, hcollapsed, by rw [recycledEvents_eq]⟩
      refine reach_of_cascade (ht.1.isTree ht.2) ?_ hwalk
      rw [WellFormed.reach_eq ht]
      exact index?_of_cell? hc

end Places

/-! ## Runs -/

variable [PrefixKey K] [RawSource σ]

/-- **What a deletion does, exactly**, to a trie that any run has left. It succeeds where the prefix
has a cell that holds a value, or that is not the root and has no children; otherwise nothing is
found, and the trie and its region are as before. If the cell has children or is the root, only its
value is cleared. Otherwise it is recycled, and then each next cell above it that is not the root
and has neither a value nor another child, up to the first that is or has: they go on the stack in
that order, each is named in a note with its index and the depth at which it lay, the size goes down
by the value of the first one, and of the cells that stay only the last one met has changed, which
has lost its link to the one before it. -/
theorem delete_exact {value : Layout} {p : Preallocation} {r₀ r₁ : Region σ} {t : Trie K V}
    (h : create value p r₀ = (.ok t, r₁)) (r : Region σ) (turns : List (TrieTurn K V σ))
    (r' : Region σ) (key mask : K) :
    let before := (t.run r turns).2.1
    let path := (PrefixKey.bits key).take (PrefixKey.maskLength mask)
    let ended := before.delete r' key mask
    (ended.1 = .ok () ↔
      ∃ c, before.cellAt path = some c ∧ (c.value.isSome ∨ c.Childless ∧ c.index ≠ 0)) ∧
    (ended.1 ≠ .ok () → ended = (.error .notFound, before, r')) ∧
    ∀ c, before.cellAt path = some c → ended.1 = .ok () →
      (¬ (c.Childless ∧ c.index ≠ 0) → before.Cleared ended.2.1 c.index ∧ ended.2.2 = r') ∧
      (c.Childless ∧ c.index ≠ 0 → ∃ gone top survivor,
        Cell.Cascade before.root.cells c.index gone top survivor ∧
        (∀ k i, gone[k]? = some i → before.reach (path.take (path.length - k)) = some i) ∧
        before.Collapsed ended.2.1 gone top survivor c.value ∧
        ended.2.2 =
          (gone.mapIdx fun k i => .nodeRecycled i (path.length - k)).foldl Region.note r') := by
  intro before path ended
  have hafter := WellFormed.run (wellFormed_create h).1 r turns
  have hexact := unlink_exact hafter r' path
  have hended : ended = before.unlink r' path := by
    show before.unlink r' (PrefixKey.selected key mask) = _
    rw [PrefixKey.selected_eq_take]
  rw [hended]
  exact hexact

/-- A chain is recycled, for instance, where one value was stored in a trie over a numbered source
and is removed again. -/
theorem delete_exact_tracked :
    ∃ (t : Trie UInt32 Nat) (r : Region Tracker) (turns : List (TrieTurn UInt32 Nat Tracker)),
      create ⟨8, 8⟩ .none (trackedRegion 1024) = (.ok t, r) ∧
      turns = [⟨id, .insert 0 0xE0000000 7⟩] ∧
      ∃ gone top survivor, Cell.Cascade (t.run r turns).2.1.root.cells 3 gone top survivor ∧
        (t.run r turns).2.1.Collapsed ((t.run r turns).2.1.delete r 0 0xE0000000).2.1
          gone top survivor (some 7) := by
  obtain ⟨turns, hturns⟩ : ∃ turns : List (TrieTurn UInt32 Nat Tracker),
      turns = [⟨id, .insert 0 0xE0000000 7⟩] := ⟨_, rfl⟩
  have hcheck : (match create (K := UInt32) (V := Nat) ⟨8, 8⟩ .none (trackedRegion 1024) with
      | (.ok t, r) =>
        ((t.run r turns).2.1.cellAt ((PrefixKey.bits (0 : UInt32)).take
          (PrefixKey.maskLength (0xE0000000 : UInt32)))).map
            fun c => (c.index, c.value, c.zero, c.one)
      | (.error _, _) => none) = some (3, some 7, none, none) := by
    rw [hturns]
    decide +kernel
  rcases h : create (K := UInt32) (V := Nat) ⟨8, 8⟩ .none (trackedRegion 1024) with
    ⟨fault | t, r⟩ <;> rw [h] at hcheck
  · cases hcheck
  · obtain ⟨⟨index, parent, value, zero, one⟩, hc, heq⟩ := Option.map_eq_some_iff.mp hcheck
    cases heq
    -- the cell has a value, so the deletion succeeds, and no child, so the cell is recycled
    obtain ⟨hok, -, hdone⟩ := delete_exact h r turns r 0 0xE0000000
    obtain ⟨gone, top, survivor, hwalk, -, hcollapsed, -⟩ :=
      (hdone _ hc (hok.mpr ⟨_, hc, .inl rfl⟩)).2 ⟨⟨rfl, rfl⟩, Nat.succ_ne_zero 2⟩
    exact ⟨t, r, turns, rfl, hturns, gone, top, survivor, hwalk, hcollapsed⟩

end RegionTrie.Trie
