import RegionTrie.Pool.Basic
import RegionTrie.Proofs.Heap.Ledger

/-!
# Where ranges lie in blocks

A block hands its bytes out from low to high addresses, so a range handed out lies between the
header of its block and the first free byte, and after every range handed out before it. This is
said here about a list of blocks and the ranges served from them, and kept when a block of the
list serves a range, when a block is appended, and when all blocks are rewound.

## Main definitions

* `Placement`: ranges lie inside blocks, as aligned as requested, and apart from each other

## Main results

* `Placement.serve?`, `Placement.append`, `Placement.rewind`: what a chain does keeps ranges in
  their places
* `addresses_occupy?`, `addresses_vacate?`: large records stay where they are
-/

namespace RegionTrie

theorem alignUp_eq_of_dvd {n align : Nat} (hpos : 0 < align) (h : align ∣ n) :
    alignUp n align = n := by
  obtain ⟨k, rfl⟩ := h
  rw [alignUp, Nat.add_sub_assoc hpos, Nat.mul_add_div hpos, Nat.div_eq_of_lt (by omega),
    Nat.add_zero, Nat.mul_comm]

theorem blockAlign_dvd_header : blockAlign ∣ blockHeaderSize := by decide

theorem pos_of_dvd_blockAlign {align : Nat} (h : align ∣ blockAlign) : 0 < align :=
  Nat.pos_of_dvd_of_pos h (by decide)

namespace Block

/-- Where a block starts, where its first free byte is, and where it ends. -/
def span (b : Block) : Nat × Nat × Nat :=
  (b.base, b.last, b.stop)

theorem span_eq_iff {b c : Block} :
    b.span = c.span ↔ b.base = c.base ∧ b.last = c.last ∧ b.stop = c.stop := by
  simp [span]

theorem serve?_eq_some {b b' : Block} {size align start : Nat}
    (h : b.serve? size align = some (start, b')) :
    start = b.next align ∧ b' = b.bump size align ∧ b.next align + size ≤ b.stop := by
  unfold serve? at h
  split at h
  · next hroom =>
    cases h
    exact ⟨rfl, rfl, hroom⟩
  · cases h

/-- A new block serves right behind its header. -/
theorem next_fresh {base size align : Nat} (hbase : blockAlign ∣ base)
    (halign : align ∣ blockAlign) :
    (fresh base size).next align = base + blockHeaderSize := by
  refine alignUp_eq_of_dvd (pos_of_dvd_blockAlign halign) ?_
  exact Nat.dvd_trans halign (Nat.dvd_add hbase blockAlign_dvd_header)

end Block

/-- The ranges served from a list of blocks, each with the alignment asked for, lie in their
places. -/
structure Placement (blockSize : Nat) (blocks : List Block) (ranges : List (Extent × Nat)) :
    Prop where
  base_dvd : ∀ b ∈ blocks, blockAlign ∣ b.base
  bounds : ∀ b ∈ blocks, b.base + blockHeaderSize ≤ b.last ∧ b.last ≤ b.stop ∧
    b.stop = b.base + blockSize
  apart : blocks.Pairwise fun b c => b.stop ≤ c.base ∨ c.stop ≤ b.base
  inside : ∀ s ∈ ranges, s.2 ∣ s.1.start ∧
    ∃ b ∈ blocks, b.base + blockHeaderSize ≤ s.1.start ∧ s.1.stop ≤ b.last
  disjoint : ranges.Pairwise fun s t => s.1.Apart t.1

namespace Placement

variable {blockSize size align start : Nat} {blocks : List Block} {ranges : List (Extent × Nat)}

/-- Only where blocks start, end, and have their first free byte matters. -/
theorem congr {blocks' : List Block} (h : Placement blockSize blocks ranges)
    (heq : blocks'.map Block.span = blocks.map Block.span) :
    Placement blockSize blocks' ranges := by
  have hold : ∀ b' ∈ blocks', ∃ b ∈ blocks, b.span = b'.span := by
    intro b' hb'
    rw [← List.mem_map, ← heq]
    exact List.mem_map_of_mem hb'
  have hnew : ∀ b ∈ blocks, ∃ b' ∈ blocks', b'.span = b.span := by
    intro b hb
    rw [← List.mem_map, heq]
    exact List.mem_map_of_mem hb
  constructor
  case base_dvd =>
    intro b' hb'
    obtain ⟨b, hb, hspan⟩ := hold b' hb'
    obtain ⟨hbase, -⟩ := Block.span_eq_iff.mp hspan
    rw [← hbase]
    exact h.base_dvd b hb
  case bounds =>
    intro b' hb'
    obtain ⟨b, hb, hspan⟩ := hold b' hb'
    obtain ⟨hbase, hlast, hstop⟩ := Block.span_eq_iff.mp hspan
    rw [← hbase, ← hlast, ← hstop]
    exact h.bounds b hb
  case apart =>
    -- being apart is about spans alone, so it goes from one list to the other
    have hspans : (blocks.map Block.span).Pairwise fun s t => s.2.2 ≤ t.1 ∨ t.2.2 ≤ s.1 :=
      List.pairwise_map.mpr h.apart
    rw [← heq] at hspans
    exact List.pairwise_map.mp hspans
  case inside =>
    intro s hs
    obtain ⟨hdvd, b, hb, hstart, hend⟩ := h.inside s hs
    obtain ⟨b', hb', hspan⟩ := hnew b hb
    obtain ⟨hbase, hlast, -⟩ := Block.span_eq_iff.mp hspan
    exact ⟨hdvd, b', hb', by rwa [hbase], by rwa [hlast]⟩
  case disjoint => exact h.disjoint

/-- A block that has room serves the next range. -/
theorem bump {front back : List Block} {b b' : Block} {size align start : Nat}
    (h : Placement blockSize (front ++ b :: back) ranges) (halign : align ∣ blockAlign)
    (hserve : b.serve? size align = some (start, b')) :
    Placement blockSize (front ++ b' :: back) ((⟨start, size⟩, align) :: ranges) := by
  obtain ⟨rfl, rfl, hroom⟩ := Block.serve?_eq_some hserve
  have hbounds := h.bounds b (by simp)
  -- the range starts behind everything that this block served before
  have hnext : b.last ≤ b.next align := le_alignUp b.last (pos_of_dvd_blockAlign halign)
  have hothers : ∀ x ∈ front ++ back, x.stop ≤ b.base ∨ b.stop ≤ x.base := by
    have hapart := h.apart
    rw [List.pairwise_append, List.pairwise_cons] at hapart
    obtain ⟨-, ⟨hback, -⟩, hfront⟩ := hapart
    intro x hx
    rcases List.mem_append.mp hx with hx | hx
    · exact hfront x hx b List.mem_cons_self
    · exact (hback x hx).symm
  -- every block but this one is as it was
  have hmem : ∀ {x c : Block}, x ∈ front ++ c :: back → x = c ∨ x ∈ front ++ back :=
    fun hx => List.mem_cons.mp (List.perm_middle.mem_iff.mp hx)
  have hold : ∀ {x c : Block}, x ∈ front ++ back → x ∈ front ++ c :: back :=
    fun hx => List.perm_middle.mem_iff.mpr (List.mem_cons_of_mem _ hx)
  constructor
  case base_dvd =>
    intro x hx
    rcases hmem hx with rfl | hx
    · exact h.base_dvd b (by simp)
    · exact h.base_dvd x (hold hx)
  case bounds =>
    intro x hx
    rcases hmem hx with rfl | hx
    · simp only [Block.bump]
      omega
    · exact h.bounds x (hold hx)
  case apart =>
    have hapart := h.apart
    simp only [List.pairwise_append, List.pairwise_cons, List.mem_cons, forall_eq_or_imp,
      Block.bump] at hapart ⊢
    exact hapart
  case inside =>
    intro s hs
    rcases List.mem_cons.mp hs with rfl | hs
    · -- the new range ends where the first free byte is now
      refine ⟨dvd_alignUp b.last align, b.bump size align, by simp, ?_, Nat.le_refl _⟩
      exact Nat.le_trans hbounds.1 hnext
    · obtain ⟨hdvd, x, hx, hstart, hend⟩ := h.inside s hs
      refine ⟨hdvd, ?_⟩
      rcases hmem hx with rfl | hx
      · refine ⟨x.bump size align, by simp, hstart, ?_⟩
        simp only [Block.bump]
        omega
      · exact ⟨x, hold hx, hstart, hend⟩
  case disjoint =>
    refine List.pairwise_cons.mpr ⟨?_, h.disjoint⟩
    intro s hs
    obtain ⟨-, x, hx, hstart, hend⟩ := h.inside s hs
    have hx' := h.bounds x hx
    simp only [Extent.Apart, Extent.stop] at hend ⊢
    -- a range in this block came before, and one in another block is as far away as that
    rcases hmem hx with rfl | hx
    · omega
    · have hapart := hothers x hx
      omega

theorem serve? {c c' : Chain} (h : Placement blockSize c.blocks ranges)
    (halign : align ∣ blockAlign) (hserve : c.serve? size align = some (start, c')) :
    Placement blockSize c'.blocks ((⟨start, size⟩, align) :: ranges) := by
  simp only [Chain.serve?, Option.map_eq_some_iff] at hserve
  obtain ⟨⟨start', ahead⟩, hfirst, heq⟩ := hserve
  obtain ⟨rfl, rfl⟩ := Prod.mk.inj heq
  obtain ⟨front, b, b', back, hbefore, rfl, -, hb⟩ := Chain.serveFirst?_eq_some hfirst
  rw [Chain.blocks, hbefore, ← List.append_assoc] at h
  rw [Chain.blocks, ← List.append_assoc]
  exact h.bump halign hb

/-- A new block is apart from all others and has served nothing yet. -/
theorem grow {base : Nat} (h : Placement blockSize blocks ranges) (hbase : blockAlign ∣ base)
    (hapart : ∀ b ∈ blocks, b.stop ≤ base ∨ base + blockSize ≤ b.base)
    (hsize : blockHeaderSize ≤ blockSize) :
    Placement blockSize (blocks ++ [.fresh base blockSize]) ranges where
  base_dvd := by
    rintro b hb
    rcases List.mem_append.mp hb with hb | hb
    · exact h.base_dvd b hb
    · rw [List.mem_singleton.mp hb]
      exact hbase
  bounds := by
    intro b hb
    rcases List.mem_append.mp hb with hb | hb
    · exact h.bounds b hb
    · rw [List.mem_singleton.mp hb]
      exact ⟨Nat.le_refl _, Nat.add_le_add_left hsize base, rfl⟩
  apart := by
    refine List.pairwise_append.mpr ⟨h.apart, List.pairwise_singleton _ _, ?_⟩
    intro b hb c hc
    rw [List.mem_singleton.mp hc]
    exact hapart b hb
  inside := by
    intro s hs
    obtain ⟨hdvd, b, hb, hin⟩ := h.inside s hs
    exact ⟨hdvd, b, List.mem_append_left _ hb, hin⟩
  disjoint := h.disjoint

/-- A new block serves its first range, and the blocks searched before have only missed. -/
theorem append {c : Chain} {base : Nat} (h : Placement blockSize c.blocks ranges)
    (hbase : blockAlign ∣ base)
    (hapart : ∀ b ∈ c.blocks, b.stop ≤ base ∨ base + blockSize ≤ b.base)
    (halign : align ∣ blockAlign) (hsize : blockHeaderSize + size ≤ blockSize) (tolerance : Nat) :
    Placement blockSize (c.append tolerance ((Block.fresh base blockSize).bump size align)).blocks
      ((⟨(Block.fresh base blockSize).next align, size⟩, align) :: ranges) := by
  -- the new block comes in empty and serves at once, without a look at its room
  have hgrown := h.grow hbase hapart (Nat.le_trans (Nat.le_add_right _ size) hsize)
  have hserve : (Block.fresh base blockSize).serve? size align =
      some ((Block.fresh base blockSize).next align,
        (Block.fresh base blockSize).bump size align) := by
    have hroom : (Block.fresh base blockSize).next align + size ≤
        (Block.fresh base blockSize).stop := by
      rw [Block.next_fresh hbase halign, Nat.add_assoc]
      exact Nat.add_le_add_left hsize base
    rw [Block.serve?, if_pos hroom]
  refine (hgrown.bump halign hserve).congr ?_
  have hmiss : Block.span ∘ Block.miss = Block.span := rfl
  rw [Chain.blocks_append, Chain.blocks]
  simp only [List.map_append, List.map_map, hmiss]

/-- Nothing is left of the ranges when blocks are rewound. -/
theorem rewind {c : Chain} (h : Placement blockSize c.blocks ranges)
    (hsize : blockHeaderSize ≤ blockSize) : Placement blockSize c.rewind.blocks [] := by
  rw [Chain.blocks_rewind]
  constructor
  case base_dvd =>
    rw [List.forall_mem_map]
    exact h.base_dvd
  case bounds =>
    rw [List.forall_mem_map]
    intro b hb
    obtain ⟨-, -, hstop⟩ := h.bounds b hb
    refine ⟨Nat.le_refl _, ?_, hstop⟩
    show b.base + blockHeaderSize ≤ b.stop
    omega
  case apart => exact List.pairwise_map.mpr h.apart
  case inside =>
    intro s hs
    cases hs
  case disjoint => exact List.Pairwise.nil

end Placement

/-! ## Large records -/

namespace LargeRecord

theorem addresses_occupy? {b : Buffer} {probes : Nat} {records after : List LargeRecord}
    (h : occupy? b probes records = some after) :
    after.map LargeRecord.address = records.map LargeRecord.address := by
  induction records generalizing probes after with
  | nil => cases probes <;> cases h
  | cons record rest ih =>
    cases probes with
    | zero => cases h
    | succ n =>
      cases hheld : record.held with
      | none =>
        simp only [occupy?, hheld, Option.some.injEq] at h
        rw [← h]
        rfl
      | some c =>
        simp only [occupy?, hheld, Option.map_eq_some_iff] at h
        obtain ⟨tail, htail, rfl⟩ := h
        rw [List.map_cons, List.map_cons, ih htail]

theorem addresses_vacate? {address : Nat} {b : Buffer} {records after : List LargeRecord}
    (h : vacate? address records = some (b, after)) :
    after.map LargeRecord.address = records.map LargeRecord.address := by
  induction records generalizing after with
  | nil => cases h
  | cons record rest ih =>
    unfold vacate? at h
    split at h
    · split at h
      · cases h
        rfl
      · obtain ⟨⟨c, tail⟩, htail, heq⟩ := Option.map_eq_some_iff.mp h
        cases heq
        rw [List.map_cons, List.map_cons, ih htail]
    · obtain ⟨⟨c, tail⟩, htail, heq⟩ := Option.map_eq_some_iff.mp h
      cases heq
      rw [List.map_cons, List.map_cons, ih htail]

end LargeRecord

end RegionTrie
