import Mathlib.Order.Bounds.Basic
import RegionTrie.Proofs.Trie.Tracked

/-!
# Where nodes lie

A slab is the least number of whole pages that holds a node, and nodes are put into it one after the
other. The number of a node says in which slab it lies and where, and every node that was ever
handed out lies in a slab that was taken, entirely. So nodes of different numbers lie apart as soon
as the slabs do.

## Main definitions

* `SlabShape.Paged`: slabs of this shape are the least number of whole pages that holds a node
* `NodeStore.slabBuffers`: the slabs as buffers
* `NodeStore.nodes`: where the nodes lie that were ever handed out

## Main results

* `SlabShape.Paged.isLeast`, `SlabShape.Paged.perSlab_pos`: the size of a slab
* `NodeStore.Sound.address?_eq_some`: every node lies in a slab
* `NodeStore.Sound.pairwise_nodes`: and apart from the others
-/

namespace RegionTrie

/-- Rounding up does not pass any multiple. -/
theorem alignUp_le_of_dvd {n m align : Nat} (hpos : 0 < align) (hdvd : align ∣ m) (hle : n ≤ m) :
    alignUp n align ≤ m := by
  obtain ⟨k, rfl⟩ := hdvd
  have hlt : (n + align - 1) / align < k + 1 := by
    refine (Nat.div_lt_iff_lt_mul hpos).mpr ?_
    rw [Nat.add_mul, Nat.mul_comm k, Nat.one_mul]
    omega
  unfold alignUp
  rw [Nat.mul_comm align]
  exact Nat.mul_le_mul_right align (Nat.le_of_lt_succ hlt)

namespace SlabShape

/-- Nodes have some bytes, and a slab is the least number of whole pages that holds one, aligned to
pages. -/
structure Paged (s : SlabShape) (pageSize : Nat) : Prop where
  page : pageSize.isPowerOfTwo
  node : 0 < s.nodeSize
  slabSize_eq : s.slabSize = alignUp (max pageSize s.nodeSize) pageSize
  slabAlign_eq : s.slabAlign = pageSize

theorem paged_ofValue (value : Layout) {pageSize : Nat} (h : pageSize.isPowerOfTwo) :
    (ofValue value pageSize).Paged pageSize where
  page := h
  node := nodeSize_pos value pageSize
  slabSize_eq := rfl
  slabAlign_eq := rfl

variable {s : SlabShape} {pageSize : Nat}

theorem Paged.page_pos (h : s.Paged pageSize) : 0 < pageSize := by
  obtain ⟨k, rfl⟩ := h.page
  exact Nat.two_pow_pos k

/-- **A slab is the least positive number of pages that holds a node.** -/
theorem Paged.isLeast (h : s.Paged pageSize) :
    IsLeast {size | 0 < size ∧ pageSize ∣ size ∧ s.nodeSize ≤ size} s.slabSize := by
  have hle := le_alignUp (max pageSize s.nodeSize) h.page_pos
  rw [h.slabSize_eq]
  refine ⟨⟨?_, dvd_alignUp _ _, le_trans (le_max_right _ _) hle⟩, ?_⟩
  · exact lt_of_lt_of_le h.page_pos (le_trans (le_max_left _ _) hle)
  · rintro size ⟨hpos, hdvd, hnode⟩
    exact alignUp_le_of_dvd h.page_pos hdvd (max_le (Nat.le_of_dvd hpos hdvd) hnode)

theorem Paged.perSlab_pos (h : s.Paged pageSize) : 1 ≤ s.perSlab :=
  Nat.div_pos h.isLeast.1.2.2 h.node

/-- A node ends before its slab does. -/
theorem Paged.offset_le (h : s.Paged pageSize) (i : Nat) :
    i % s.perSlab * s.nodeSize + s.nodeSize ≤ s.slabSize := by
  have hmod : i % s.perSlab + 1 ≤ s.perSlab := Nat.mod_lt i h.perSlab_pos
  calc i % s.perSlab * s.nodeSize + s.nodeSize
      = (i % s.perSlab + 1) * s.nodeSize := by rw [Nat.add_mul, Nat.one_mul]
    _ ≤ s.perSlab * s.nodeSize := Nat.mul_le_mul_right _ hmod
    _ ≤ s.slabSize := Nat.div_mul_le_self _ _

end SlabShape

namespace NodeStore

open SlabShape

/-- The slabs as buffers. -/
def slabBuffers (s : NodeStore) : List Buffer :=
  s.slabs.toList.map (⟨·, s.shape.slabLayout⟩)

/-- Where a node lies. -/
def extent? (s : NodeStore) (index : Nat) : Option Extent :=
  (s.address? index).map (⟨·, s.shape.nodeSize⟩)

/-- Where the nodes lie that were ever handed out, by their numbers. -/
def nodes (s : NodeStore) : List Extent :=
  (List.range s.handedOut).filterMap s.extent?

variable {s : NodeStore} {i j pageSize : Nat} {e f : Extent}

/-- A node that was handed out belongs to a slab that was taken. -/
theorem div_lt_size (h : i < s.handedOut) : i / s.shape.perSlab < s.slabs.size := by
  have hlt : i < s.slabs.size * s.shape.perSlab := lt_of_lt_of_le h (Nat.sub_le _ _)
  have hpos : 0 < s.shape.perSlab := by
    refine Nat.pos_of_ne_zero fun hzero => ?_
    rw [hzero, Nat.mul_zero] at hlt
    exact Nat.not_lt_zero i hlt
  exact (Nat.div_lt_iff_lt_mul hpos).mpr hlt

/-- Every node that was handed out has its place in a slab. -/
theorem exists_slab (h : i < s.handedOut) :
    ∃ slab, s.slabs.toList[i / s.shape.perSlab]? = some slab ∧
      s.extent? i = some ⟨slab + i % s.shape.perSlab * s.shape.nodeSize, s.shape.nodeSize⟩ := by
  have hlt := div_lt_size h
  refine ⟨s.slabs[i / s.shape.perSlab], ?_, ?_⟩
  · rw [Array.getElem?_toList, Array.getElem?_eq_getElem hlt]
  · simp only [extent?, address?, Array.getElem?_eq_getElem hlt, Option.map_some]

/-- Where a node lies says which slab it belongs to. -/
theorem slab_of_extent? (h : s.extent? i = some e) :
    ∃ slab, s.slabs.toList[i / s.shape.perSlab]? = some slab ∧
      e = ⟨slab + i % s.shape.perSlab * s.shape.nodeSize, s.shape.nodeSize⟩ := by
  simp only [extent?, address?, Option.map_eq_some_iff] at h
  obtain ⟨_, ⟨slab, hslab, rfl⟩, rfl⟩ := h
  exact ⟨slab, by rw [Array.getElem?_toList, hslab], rfl⟩

/-- A node lies in one of the slabs. -/
theorem exists_slab_of_mem (hpaged : s.shape.Paged pageSize) (h : e ∈ s.nodes) :
    ∃ b ∈ s.slabBuffers, b.base ≤ e.start ∧ e.stop ≤ b.extent.stop := by
  obtain ⟨i, -, hi⟩ := List.mem_filterMap.mp h
  obtain ⟨slab, hslab, rfl⟩ := slab_of_extent? hi
  refine ⟨⟨slab, s.shape.slabLayout⟩, List.mem_map_of_mem (List.mem_of_getElem? hslab),
    Nat.le_add_right _ _, ?_⟩
  show slab + i % s.shape.perSlab * s.shape.nodeSize + s.shape.nodeSize ≤ slab + s.shape.slabSize
  have hoffset := hpaged.offset_le i
  omega

/-- What lies in ranges that lie apart lies apart. -/
theorem apart_of_within {b c : Buffer} (h : b.extent.Apart c.extent) (he : b.base ≤ e.start)
    (he' : e.stop ≤ b.extent.stop) (hf : c.base ≤ f.start) (hf' : f.stop ≤ c.extent.stop) :
    e.Apart f := by
  rcases h with hle | hle
  · exact .inl (le_trans he' (le_trans hle hf))
  · exact .inr (le_trans hf' (le_trans hle he))

/-- Two nodes of one slab lie apart, the one with the smaller number first. -/
theorem offset_add_le (h : i < j) (hsame : i / s.shape.perSlab = j / s.shape.perSlab) :
    i % s.shape.perSlab * s.shape.nodeSize + s.shape.nodeSize ≤
      j % s.shape.perSlab * s.shape.nodeSize := by
  have hlt : i % s.shape.perSlab + 1 ≤ j % s.shape.perSlab := by
    have hi := Nat.div_add_mod i s.shape.perSlab
    have hj := Nat.div_add_mod j s.shape.perSlab
    rw [hsame] at hi
    omega
  calc i % s.shape.perSlab * s.shape.nodeSize + s.shape.nodeSize
      = (i % s.shape.perSlab + 1) * s.shape.nodeSize := by rw [Nat.add_mul, Nat.one_mul]
    _ ≤ j % s.shape.perSlab * s.shape.nodeSize := Nat.mul_le_mul_right _ hlt

/-- **Nodes of different numbers lie apart**, if the slabs do. -/
theorem pairwise_nodes (hpaged : s.shape.Paged pageSize)
    (hslabs : s.slabBuffers.Pairwise fun b c => b.extent.Apart c.extent) :
    s.nodes.Pairwise Extent.Apart := by
  refine List.pairwise_filterMap.mpr (List.pairwise_lt_range.imp ?_)
  intro i j hlt e he f hf
  obtain ⟨slab, hslab, rfl⟩ := slab_of_extent? he
  obtain ⟨slab', hslab', rfl⟩ := slab_of_extent? hf
  rcases (Nat.div_le_div_right hlt.le).lt_or_eq with hbefore | hsame
  · -- they belong to different slabs
    obtain ⟨hi, rfl⟩ := List.getElem?_eq_some_iff.mp hslab
    obtain ⟨hj, rfl⟩ := List.getElem?_eq_some_iff.mp hslab'
    have hapart := List.pairwise_iff_getElem.mp (List.pairwise_map.mp hslabs) _ _ hi hj hbefore
    have hoffset := hpaged.offset_le i
    have hoffset' := hpaged.offset_le j
    refine apart_of_within hapart (Nat.le_add_right _ _) ?_ (Nat.le_add_right _ _) ?_
    · simp only [Extent.stop, Buffer.extent, slabLayout]
      omega
    · simp only [Extent.stop, Buffer.extent, slabLayout]
      omega
  · -- they belong to the same one
    rw [hsame, hslab'] at hslab
    cases hslab
    have hoffset := offset_add_le (s := s) hlt hsame
    left
    simp only [Extent.stop]
    omega

/-! ## Slabs that are tracked -/

variable {σ : Type} {s' : NodeStore} {r r' : Region σ} {taken : List Nat}

/-- Slabs that are obtained are tracked together with what was tracked before. -/
theorem Obtains.subperm (h : s.Obtains r s' r' taken) {others : List Buffer}
    (hsubperm : (s.slabBuffers ++ others).Subperm (LargeRecord.buffers r.pool.large)) :
    (s'.slabBuffers ++ others).Subperm (LargeRecord.buffers r'.pool.large) := by
  have hslabs : s'.slabBuffers = s.slabBuffers ++ taken.map (⟨·, s.shape.slabLayout⟩) := by
    unfold slabBuffers
    rw [h.slabs_eq, h.shape_eq, List.map_append]
  -- new slabs come last in the trie and first among the records
  have hperm : (s'.slabBuffers ++ others).Perm
      ((taken.map (⟨·, s.shape.slabLayout⟩)).reverse ++ (s.slabBuffers ++ others)) := by
    rw [hslabs, ← List.append_assoc]
    refine List.Perm.append_right _ (List.perm_append_comm.trans ?_)
    exact List.Perm.append_right _ (List.reverse_perm _).symm
  refine (List.Perm.subperm_left h.gains).mpr (hperm.subperm_right.mpr ?_)
  exact (List.subperm_append_left _).mpr hsubperm

end NodeStore

end RegionTrie
