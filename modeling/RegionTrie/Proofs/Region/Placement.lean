import RegionTrie.Proofs.Pool.Placement
import RegionTrie.Proofs.Region.Ledger

/-!
# Where the ranges of a region lie

As long as the source grants what it should, every range that a region has served since its last
reset lies inside one of its blocks, apart from all the others, and the records of large buffers
and of cleanups lie in ranges served for them. Every step keeps it so.

## Main definitions

* `Region.Filed`: a cleanup record lies in a served range, and so does its payload if it is small
* `Region.Placed`: served ranges are in their places, and records in served ranges

## Main results

* `Region.Placed.reserve`: a range is served in its place, from an old block or from a new one
* `Region.Placed.step`: every step keeps everything in its place
* `Region.Placed.steps`: and so do any number of them
-/

namespace RegionTrie.Region

open Journal

variable {σ : Type}

/-- A cleanup record lies in a served range, and so does its payload if it is small. -/
def Filed (r : Region σ) (record : CleanupRecord) : Prop :=
  (⟨record.address, cleanupRecordSize⟩, wordAlign) ∈ served r.heap.journal ∧
    (0 < record.payload.size → record.payload.size ≤ r.pool.largestSmall →
      (record.payload, wordAlign) ∈ served r.heap.journal)

/-- Served ranges are in their places in blocks, records are in served ranges, and what counts as
small has room in a new block. -/
structure Placed (r : Region σ) : Prop where
  size : leastPoolSize ≤ r.pool.config.size
  small : blockHeaderSize + r.pool.largestSmall ≤ r.pool.config.size
  placement : Placement r.pool.config.size r.pool.chain.blocks (served r.heap.journal)
  large : ∀ address ∈ r.pool.large.map LargeRecord.address,
    (⟨address, largeRecordSize⟩, wordAlign) ∈ served r.heap.journal
  cleanups : ∀ record ∈ r.pool.cleanups, r.Filed record

namespace Placed

variable {r : Region σ}

/-- What is served from blocks has room in a new one. -/
theorem room (h : r.Placed) {size : Nat}
    (hsize : size ≤ r.pool.largestSmall ∨ size ≤ cleanupRecordSize) :
    blockHeaderSize + size ≤ r.pool.config.size := by
  have hleast := h.size
  have hsmall := h.small
  simp only [leastPoolSize, blockHeaderSize, cleanupRecordSize, largeRecordSize, blockAlign,
    alignUp] at hleast hsmall hsize ⊢
  omega

/-- Only the pool and the served ranges matter. -/
theorem congr {r' : Region σ} (h : r.Placed) (hpool : r'.pool = r.pool)
    (hserved : served r'.heap.journal = served r.heap.journal) : r'.Placed := by
  constructor <;> try unfold Filed
  all_goals rw [hpool]
  · exact h.size
  · exact h.small
  all_goals rw [hserved]
  · exact h.placement
  · exact h.large
  · exact h.cleanups

/-- Records stay in served ranges when more is served from other blocks. -/
theorem serve {chain : Chain} {heap : Heap σ} {range : Extent × Nat} (h : r.Placed)
    (hplacement : Placement r.pool.config.size chain.blocks (range :: served r.heap.journal))
    (hserved : served heap.journal = range :: served r.heap.journal) :
    Placed { pool := { r.pool with chain }, heap } where
  size := h.size
  small := h.small
  placement := by rwa [hserved]
  large := by
    intro address haddress
    rw [hserved]
    exact List.mem_cons_of_mem _ (h.large address haddress)
  cleanups := by
    intro record hrecord
    obtain ⟨haddress, hpayload⟩ := h.cleanups record hrecord
    unfold Filed
    rw [hserved]
    refine ⟨List.mem_cons_of_mem _ haddress, fun hpos hle => ?_⟩
    exact List.mem_cons_of_mem _ (hpayload hpos hle)

end Placed

variable [RawSource σ] {flight : List Buffer}

/-- A block granted lawfully is aligned, and apart from every block that the pool has. -/
theorem Balanced.apart_of_grant {r : Region σ} (hb : r.Balanced flight) (hp : r.Placed)
    {base : Nat} {heap : Heap σ}
    (hgrant : r.heap.allocate r.pool.config.blockLayout = (some base, heap))
    (hlawful : Lawful heap.journal) :
    blockAlign ∣ base ∧ ∀ b ∈ r.pool.chain.blocks,
      b.stop ≤ base ∨ base + r.pool.config.size ≤ b.base := by
  rcases r.heap.allocate_cases r.pool.config.blockLayout with
    ⟨base', source, heq⟩ | ⟨source, heq⟩ <;> rw [heq] at hgrant <;> cases hgrant
  obtain ⟨hdvd, hapart, -⟩ := hlawful
  refine ⟨hdvd, ?_⟩
  intro b hb'
  -- every block is held, so it is live, so it was outstanding when the new one was granted
  have hheld : (⟨b.base, r.pool.config.blockLayout⟩ : Buffer) ∈ flight ++ r.pool.held := by
    refine List.mem_append_right _ (List.mem_append_left _ ?_)
    exact List.mem_map_of_mem (List.mem_map_of_mem hb')
  have hlive := hb.ledger.perm.symm.subset hheld
  rw [hb.ledger.live_eq] at hlive
  have hboth := hapart _ hlive
  obtain ⟨-, -, hstop⟩ := hp.placement.bounds b hb'
  simp only [Extent.Apart, Extent.stop, Buffer.extent, PoolConfig.blockLayout] at hboth
  omega

namespace Placed

variable {r : Region σ}

/-- A range is served in its place, from an old block or from a new one. -/
theorem reserve (h : r.Placed) (hb : r.Balanced flight) {size align : Nat}
    (hsize : size ≤ r.pool.largestSmall ∨ size ≤ cleanupRecordSize) (halign : align ∣ blockAlign)
    (hlawful : Lawful (r.reserve size align).2.heap.journal) : (r.reserve size align).2.Placed := by
  have hsame := r.heap.served_allocate r.pool.config.blockLayout
  rcases reserve_cases r size align with
    ⟨start, chain, hserve, heq⟩ | ⟨base, heap, -, hgrant, heq⟩ | ⟨heap, -, hdecline, heq⟩ <;>
    rw [heq] at hlawful ⊢
  · exact h.serve (h.placement.serve? halign hserve) rfl
  · -- a new block has room for whatever is served from blocks
    rw [hgrant] at hsame
    obtain ⟨hdvd, hapart⟩ := hb.apart_of_grant h hgrant hlawful
    refine h.serve (h.placement.append hdvd hapart halign (h.room hsize) _) ?_
    show (_, align) :: served heap.journal = _
    rw [hsame]
  · rw [hdecline] at hsame
    exact h.congr rfl hsame

/-- A new record of a large buffer lies in a range served for it. -/
theorem link {b : Buffer} (h : r.Placed) (hb : r.Balanced flight)
    (hlawful : Lawful (r.link b).2.heap.journal) : (r.link b).2.Placed := by
  have hsize : largeRecordSize ≤ r.pool.largestSmall ∨ largeRecordSize ≤ cleanupRecordSize :=
    .inr (by decide)
  have hplaced := h.reserve hb hsize wordAlign_dvd
  rcases link_cases r b with ⟨address, r', hop, heq⟩ | ⟨fault, r', hop, heq⟩ <;>
    rw [hop] at hplaced <;> rw [heq] at hlawful ⊢
  · have hr' := hplaced hlawful
    refine ⟨hr'.size, hr'.small, hr'.placement, ?_, hr'.cleanups⟩
    intro a ha
    rcases List.mem_cons.mp ha with rfl | ha
    · -- the range served last is that of the new record
      show _ ∈ served r'.heap.journal
      rw [served_of_reserve hop]
      exact List.mem_cons_self
    · exact hr'.large a ha
  · exact (hplaced hlawful).congr rfl rfl

theorem allocateLarge (h : r.Placed) (hb : r.Balanced flight) {l : Layout} (hsize : 0 < l.size)
    (hvalid : l.Valid) (hlawful : Lawful (r.allocateLarge l).2.heap.journal) :
    (r.allocateLarge l).2.Placed := by
  have hsame := r.heap.served_allocate l
  rcases allocateLarge_cases r l with
    ⟨heap, hop, heq⟩ | ⟨base, heap, large, hop, hoccupy, heq⟩ | ⟨base, heap, hop, heq⟩ <;>
    rw [hop] at hsame <;> rw [heq] at hlawful ⊢
  · exact h.congr rfl hsame
  · -- the record that takes the buffer stays where it is
    have hheap : Placed { r with heap := heap.note (.largeReused base l.size) } := h.congr rfl hsame
    refine ⟨hheap.size, hheap.small, hheap.placement, ?_, hheap.cleanups⟩
    show ∀ address ∈ large.map LargeRecord.address, _
    rw [LargeRecord.addresses_occupy? hoccupy]
    exact hheap.large
  · have hheap : Placed { r with heap } := h.congr rfl hsame
    exact hheap.link (hb.grant hsize hvalid hop) hlawful

theorem allocateAligned (h : r.Placed) (hb : r.Balanced flight) {size align : Nat}
    (hlawful : Lawful (r.allocateAligned size align).2.heap.journal) :
    (r.allocateAligned size align).2.Placed := by
  have hsame := r.heap.served_allocate ⟨size, align⟩
  rcases allocateAligned_cases r size align with
    ⟨-, heq⟩ | ⟨heap, -, -, hop, heq⟩ | ⟨base, heap, hsize, hvalid, hop, heq⟩ <;>
    rw [heq] at hlawful ⊢
  · exact h
  · rw [hop] at hsame
    exact h.congr rfl hsame
  · rw [hop] at hsame
    have hheap : Placed { r with heap } := h.congr rfl hsame
    exact hheap.link (hb.grant hsize hvalid hop) hlawful

theorem free (h : r.Placed) (address : Nat) : (r.free address).2.Placed := by
  rcases free_cases r address with ⟨-, heq⟩ | ⟨b, large, hvacate, heq⟩ <;> rw [heq]
  · exact h
  · refine ⟨h.size, h.small, h.placement, ?_, h.cleanups⟩
    show ∀ address ∈ large.map LargeRecord.address, _
    rw [LargeRecord.addresses_vacate? hvacate]
    exact h.large

/-- After a reset nothing is served, and no record is left. -/
theorem reset (h : r.Placed) : r.reset.Placed := by
  have hheader : blockHeaderSize ≤ r.pool.config.size :=
    Nat.le_trans (Nat.le_add_right _ _) h.small
  constructor <;> rw [pool_reset]
  · exact h.size
  · exact h.small
  · exact h.placement.rewind hheader
  · intro address haddress
    cases haddress
  · intro record hrecord
    cases hrecord

/-- Every step keeps everything in its place. -/
theorem step {r r' : Region σ} (h : r.Placed) (hb : r.Balanced []) (hstep : Step r r')
    (hlawful : Lawful r'.heap.journal) : r'.Placed := by
  cases hstep with
  | reserve hsize halign => exact h.reserve hb hsize halign hlawful
  | allocateLarge hsize hvalid => exact h.allocateLarge hb hsize hvalid hlawful
  | allocateAligned size align => exact h.allocateAligned hb hlawful
  | free address => exact h.free address
  | reset => exact h.reset
  | store => exact h.congr rfl rfl
  | note hevent => exact h.congr rfl (served_noted hevent _)
  | enlist record haddress hpayload =>
    refine ⟨h.size, h.small, h.placement, h.large, ?_⟩
    intro record' hrecord'
    rcases List.mem_cons.mp hrecord' with rfl | hrecord'
    · exact ⟨haddress, hpayload⟩
    · exact h.cleanups record' hrecord'
  | arm c handler =>
    refine ⟨h.size, h.small, h.placement, h.large, ?_⟩
    intro record hrecord
    -- the record lies where it lay before, with the payload that it had
    obtain ⟨record', hrecord', rfl⟩ := List.mem_map.mp hrecord
    have hfiled := h.cleanups record' hrecord'
    split
    · exact hfiled
    · exact hfiled
  | discard handler =>
    refine h.congr (pool_discard r handler) ?_
    cases handler <;> rfl
  | runHandler record =>
    refine h.congr (pool_runHandler r record) ?_
    unfold Region.runHandler
    cases record.handler <;> rfl
  | adjust f => exact h.congr rfl rfl

/-- Any number of steps keep everything in its place. -/
theorem steps {r r' : Region σ} (hb : r.Balanced []) (hp : Lawful r.heap.journal → r.Placed)
    (hsteps : Steps r r') (hlawful : Lawful r'.heap.journal) : r'.Placed := by
  -- what is lawful in the end was lawful before every step, as no step takes an entry back
  induction hsteps with
  | refl => exact hp hlawful
  | tail hsteps hstep ih =>
    have hbefore := hlawful.of_suffix hstep.suffix
    exact (ih hbefore).step (hb.steps hsteps) hstep hlawful

end Placed

end RegionTrie.Region
