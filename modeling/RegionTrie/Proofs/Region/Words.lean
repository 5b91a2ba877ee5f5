import RegionTrie.Proofs.Pool.Words
import RegionTrie.Proofs.Region.Errands
import RegionTrie.Proofs.Region.Placement
import RegionTrie.Proofs.Heap.Fresh

/-!
# Requests for memory in machine words

Everything that a request for memory computes is computed in words here: which sizes are small, what
forms a layout, where a range starts in a block, and how often blocks have missed. A request has no
result if any word overflows on the way. In a region whose blocks fit, over a source that grants no
block at the very end of the address space, every request has its result in words, and it is the one
over numbers.

## Main definitions

* `Checked.create`, `Checked.supply`: a new pool, and a request for memory, in words
* `Journal.Unwrapped`: no block was granted at the very end of the address space
* `Region.Fits`: all blocks of a region fit

## Main results

* `Checked.create_eq`: no word overflows in creating a pool
* `Checked.supply_eq`: no word overflows in a request for memory
-/

namespace RegionTrie

open Journal

/-- Of the buffers granted for a layout none lies so close to the end of the address space that
rounding its end up would leave it. -/
def Journal.Unwrapped (l : Layout) (j : List Effect) : Prop :=
  ∀ b ∈ grants j, b.layout = l → b.extent.stop + l.align < wordBound

instance (l : Layout) (j : List Effect) : Decidable (Journal.Unwrapped l j) :=
  inferInstanceAs (Decidable (∀ b ∈ grants j, _))

theorem Journal.Unwrapped.of_suffix {l : Layout} {j older : List Effect} (h : Unwrapped l j)
    (hsuffix : older <:+ j) : Unwrapped l older :=
  fun b hb => h b (grants_subset_of_suffix hsuffix hb)

/-- All numbers that the request names are words. -/
def Allocation.InWords : Allocation → Prop
  | .bytes size | .packed size | .zeroed size => size < wordBound
  | .layout l => l.size < wordBound ∧ l.align < wordBound
  | .aligned size align => size < wordBound ∧ align < wordBound

instance : (a : Allocation) → Decidable a.InWords
  | .bytes _ | .packed _ | .zeroed _ => inferInstanceAs (Decidable (_ < _))
  | .layout _ | .aligned _ _ => inferInstanceAs (Decidable (_ ∧ _))

/-- All blocks fit. -/
def Region.Fits {σ : Type} (r : Region σ) : Prop :=
  ∀ b ∈ r.pool.chain.blocks, b.Fits

namespace Checked

open Region

variable {σ : Type} [RawSource σ]

/-! ## Requests in words -/

/-- Create a pool with one block taken from the heap. -/
def create (c : PoolConfig) (h : Heap σ) : Option (Except Fault Pool × Heap σ) :=
  if c.size < leastPoolSize then some (.error (.poolTooSmall c.size leastPoolSize), h)
  else do
    if ← isLayout c.blockLayout then
      match h.allocate c.blockLayout with
      | (none, h) => return (.error (.exhausted c.size blockAlign), h)
      | (some base, h) =>
        let block ← fresh base c.size
        let room ← sub c.size blockHeaderSize
        let page ← sub h.pageSize 1
        let largestSmall := min room page
        return (.ok { config := c, chain := ⟨[], [block]⟩, largestSmall },
          h.note (.poolCreated base c.size largestSmall))
    else return (.error (.invalidLayout c.size blockAlign), h)

/-- Append a block and serve a range from it. -/
def grow (r : Region σ) (size align : Nat) : Option (Except Fault Nat × Region σ) :=
  let layout := r.pool.config.blockLayout
  match r.heap.allocate layout with
  | (none, heap) => some (.error (.exhausted layout.size layout.align), { r with heap })
  | (some base, heap) => do
    let (start, block) ← (fresh base layout.size).bind fun block => bump block size align
    let chain ← append r.pool.chain r.pool.config.skipAfterFailures block
    return (.ok start,
      { pool := { r.pool with chain }
        heap := (heap.record (.served ⟨start, size⟩ align)).note (.poolGrown base layout.size) })

/-- Serve a range from the first block that has room for it, from the current one on, or else from
a new block. -/
def reserve (r : Region σ) (size align : Nat) : Option (Except Fault Nat × Region σ) := do
  match ← search? r.pool.chain size align with
  | some (start, chain) =>
    return (.ok start,
      { pool := { r.pool with chain }, heap := r.heap.record (.served ⟨start, size⟩ align) })
  | none => grow r size align

/-- Track a buffer by a new record. -/
def link (r : Region σ) (b : Buffer) : Option (Except Fault Nat × Region σ) := do
  match ← reserve r largeRecordSize wordAlign with
  | (.error fault, r) => return (.error fault, r.release b)
  | (.ok address, r) =>
    let large := ⟨address, some b⟩ :: r.pool.large
    return (.ok b.base,
      { r with pool := { r.pool with large } }.note
        (.largeLinked b.base b.layout.size b.layout.align))

/-- Obtain a large buffer. -/
def allocateLarge (r : Region σ) (l : Layout) : Option (Except Fault Nat × Region σ) :=
  match r.heap.allocate l with
  | (none, heap) => some (.error (.exhausted l.size l.align), { r with heap })
  | (some base, heap) =>
    match LargeRecord.occupy? ⟨base, l⟩ r.pool.config.largeReuseProbes r.pool.large with
    | some large =>
      some (.ok base, { pool := { r.pool with large }, heap := heap.note (.largeReused base l.size) })
    | none => link { r with heap } ⟨base, l⟩

/-- So many bytes: a range of the given alignment, or a large buffer at word alignment. -/
def allocate (r : Region σ) (size align : Nat) : Option (Except Fault Nat × Region σ) :=
  if size ≤ r.pool.largestSmall then reserve r size align
  else do
    if ← isLayout ⟨size, wordAlign⟩ then allocateLarge r ⟨size, wordAlign⟩
    else return (.error (.invalidLayout size wordAlign), r)

/-- So many bytes at word alignment, all of them zero. -/
def allocateZeroed (r : Region σ) (size : Nat) : Option (Except Fault Nat × Region σ) := do
  match ← allocate r size wordAlign with
  | (.ok start, r) => return (.ok start, r.store start (Array.replicate size 0))
  | (.error fault, r) => return (.error fault, r)

/-- A large buffer of its own. -/
def allocateAligned (r : Region σ) (size align : Nat) : Option (Except Fault Nat × Region σ) := do
  if 0 < size ∧ (← isLayout ⟨size, align⟩) = true then
    match r.heap.allocate ⟨size, align⟩ with
    | (none, heap) => return (.error (.exhausted size align), { r with heap })
    | (some base, heap) => link { r with heap } ⟨base, ⟨size, align⟩⟩
  else return (.error (.invalidLayout size align), r)

/-- Memory for a layout. -/
def allocateLayout (r : Region σ) (l : Layout) : Option (Except Fault Nat × Region σ) :=
  if l.size = 0 then some (.ok l.align, r)
  else if l.size ≤ r.pool.largestSmall ∧ l.align ≤ blockAlign then reserve r l.size l.align
  else do
    if ← isLayout (l.alignTo wordAlign) then allocateLarge r (l.alignTo wordAlign)
    else return (.error (.invalidLayout l.size l.align), r)

/-- Obtain memory. -/
def supply (r : Region σ) : Allocation → Option (Except Fault (Option Nat) × Region σ)
  | .bytes size => (allocate r size wordAlign).map found
  | .packed size => (allocate r size 1).map found
  | .zeroed size => (allocateZeroed r size).map found
  | .layout l =>
    (allocateLayout r l).map fun op =>
      (op.1.map fun start => if l.size = 0 then none else some start, op.2)
  | .aligned size align => (allocateAligned r size align).map found

/-! ## They have their results -/

/-- **No word overflows in creating a pool.** -/
theorem create_eq {c : PoolConfig} {h : Heap σ} (hpage : 0 < (h.allocate c.blockLayout).2.pageSize)
    (hunwrapped : Unwrapped c.blockLayout (Pool.create c h).2.journal) :
    create c h = some (Pool.create c h) := by
  unfold create Pool.create at *
  by_cases hsize : c.size < leastPoolSize
  · rw [if_pos hsize, if_pos hsize]
  rw [if_neg hsize] at hunwrapped ⊢
  rw [if_neg hsize, isLayout_eq (by decide : blockAlign < wordBound), Option.bind_eq_bind,
    Option.bind_some]
  by_cases hvalid : c.blockLayout.Valid
  · rw [if_neg (not_not_intro hvalid)] at hunwrapped ⊢
    rw [if_pos (decide_eq_true hvalid)]
    rcases hop : h.allocate c.blockLayout with ⟨_ | base, heap⟩
    · rfl
    -- the block was granted away from the end of the address space, and has a header
    rw [hop] at hunwrapped hpage
    have hstop : base + c.size + blockAlign < wordBound := by
      refine hunwrapped ⟨base, c.blockLayout⟩ ?_ rfl
      show _ ∈ grants heap.journal
      rw [Heap.journal_of_grant hop]
      exact List.mem_cons_self
    have hheader : blockHeaderSize ≤ c.size := Nat.le_trans (by decide) (Nat.le_of_not_lt hsize)
    have hfresh : fresh base c.size = some (Block.fresh base c.size) := by
      rw [fresh, add_eq (by omega), Option.bind_eq_bind, Option.bind_some, add_eq (by omega)]
      rfl
    have hone : 1 ≤ heap.pageSize := hpage
    simp only [hfresh, sub_eq hheader, sub_eq hone, Option.bind_eq_bind, Option.bind_some]
    rfl
  · rw [if_pos hvalid, if_neg (by simpa using hvalid)]
    rfl

variable {r : Region σ} {size align : Nat} {b : Buffer}

/-- A range is served in words from blocks that fit, or from a new one. -/
theorem reserve_eq (hfits : r.Fits) (hroom : blockHeaderSize + size ≤ r.pool.config.size)
    (halign : align ∣ blockAlign) (hlawful : Lawful (r.reserve size align).2.heap.journal)
    (hunwrapped : Unwrapped r.pool.config.blockLayout (r.reserve size align).2.heap.journal) :
    reserve r size align = some (r.reserve size align) := by
  have hahead : ∀ b ∈ r.pool.chain.ahead, b.Fits := fun b hb =>
    hfits b (List.mem_append_right _ hb)
  rw [reserve, search?_eq halign hahead, Option.bind_eq_bind, Option.bind_some]
  rcases reserve_cases r size align with
    ⟨start, chain, hserve, heq⟩ | ⟨base, heap, hserve, hgrant, heq⟩ |
    ⟨heap, hserve, hdecline, heq⟩ <;> rw [hserve, heq] <;> dsimp only
  · rfl
  · rw [heq] at hlawful hunwrapped
    have hjournal := Heap.journal_of_grant hgrant
    -- the new block is aligned, and away from the end of the address space
    have hbase : blockAlign ∣ base := by
      have hnew : Lawful heap.journal := hlawful
      rw [hjournal] at hnew
      exact hnew.1
    have hstop : base + r.pool.config.size + blockAlign < wordBound := by
      refine hunwrapped ⟨base, r.pool.config.blockLayout⟩ ?_ rfl
      show _ ∈ grants heap.journal
      rw [hjournal]
      exact List.mem_cons_self
    rw [grow, hgrant]
    dsimp only [PoolConfig.blockLayout]
    rw [bump_fresh_eq hbase halign hroom hstop, Option.bind_eq_bind, Option.bind_some,
      append_eq hahead]
    rfl
  · rw [grow, hdecline]
    rfl

theorem link_eq (hfits : r.Fits) (hsize : leastPoolSize ≤ r.pool.config.size)
    (hlawful : Lawful (r.link b).2.heap.journal)
    (hunwrapped : Unwrapped r.pool.config.blockLayout (r.link b).2.heap.journal) :
    link r b = some (r.link b) := by
  -- what is new in the journal beyond the range of the record calls for no block
  have hsuffix : (r.reserve largeRecordSize wordAlign).2.heap.journal <:+
      (r.link b).2.heap.journal := by
    rcases link_cases r b with ⟨address, r', hop, heq⟩ | ⟨fault, r', hop, heq⟩ <;> rw [hop, heq] <;>
      exact List.suffix_cons _ _
  have hroom : blockHeaderSize + largeRecordSize ≤ r.pool.config.size :=
    Nat.le_trans (by decide) hsize
  rw [link, reserve_eq hfits hroom wordAlign_dvd (hlawful.of_suffix hsuffix)
    (hunwrapped.of_suffix hsuffix), Option.bind_eq_bind, Option.bind_some]
  unfold Region.link
  rcases r.reserve largeRecordSize wordAlign with ⟨fault | address, r'⟩ <;> rfl

theorem allocateLarge_eq {l : Layout} (hfits : r.Fits) (hsize : leastPoolSize ≤ r.pool.config.size)
    (hlawful : Lawful (r.allocateLarge l).2.heap.journal)
    (hunwrapped : Unwrapped r.pool.config.blockLayout (r.allocateLarge l).2.heap.journal) :
    allocateLarge r l = some (r.allocateLarge l) := by
  unfold allocateLarge
  rcases allocateLarge_cases r l with
    ⟨heap, hop, heq⟩ | ⟨base, heap, large, hop, hoccupy, heq⟩ | ⟨base, heap, hop, heq⟩ <;>
    rw [hop, heq] <;> dsimp only
  · rw [hoccupy]
  · cases hoccupy : LargeRecord.occupy? ⟨base, l⟩ r.pool.config.largeReuseProbes r.pool.large with
    | some large =>
      -- then the record was found, too
      rw [← heq, Region.allocateLarge, hop]
      simp only [hoccupy]
    | none =>
      rw [heq] at hlawful hunwrapped
      exact link_eq (r := { r with heap }) hfits hsize hlawful hunwrapped

theorem allocateAligned_eq (hfits : r.Fits) (hsize : leastPoolSize ≤ r.pool.config.size)
    (hword : align < wordBound) (hlawful : Lawful (r.allocateAligned size align).2.heap.journal)
    (hunwrapped :
      Unwrapped r.pool.config.blockLayout (r.allocateAligned size align).2.heap.journal) :
    allocateAligned r size align = some (r.allocateAligned size align) := by
  rw [allocateAligned, isLayout_eq hword, Option.bind_eq_bind, Option.bind_some]
  rcases allocateAligned_cases r size align with
    ⟨hinvalid, heq⟩ | ⟨heap, hpos, hvalid, hop, heq⟩ | ⟨base, heap, hpos, hvalid, hop, heq⟩
  · rw [if_neg (by simpa using hinvalid), heq]
    rfl
  · rw [if_pos ⟨hpos, decide_eq_true hvalid⟩, hop, heq]
    rfl
  · rw [heq] at hlawful hunwrapped ⊢
    rw [if_pos ⟨hpos, decide_eq_true hvalid⟩, hop]
    exact link_eq (r := { r with heap }) hfits hsize hlawful hunwrapped

/-- So many bytes are had in words, small or not. -/
theorem allocate_eq (hplaced : r.Placed) (hfits : r.Fits) (halign : align ∣ blockAlign)
    {op : Except Fault Nat × Region σ}
    (hop : op = if size ≤ r.pool.largestSmall then r.reserve size align
      else r.allocateOversize size)
    (hlawful : Lawful op.2.heap.journal)
    (hunwrapped : Unwrapped r.pool.config.blockLayout op.2.heap.journal) :
    allocate r size align = some op := by
  subst hop
  unfold allocate
  by_cases hsmall : size ≤ r.pool.largestSmall
  · rw [if_pos hsmall] at hlawful hunwrapped ⊢
    rw [if_pos hsmall]
    exact reserve_eq hfits (hplaced.room (.inl hsmall)) halign hlawful hunwrapped
  · rw [if_neg hsmall] at hlawful hunwrapped ⊢
    rw [if_neg hsmall, isLayout_eq (by decide : wordAlign < wordBound), Option.bind_eq_bind,
      Option.bind_some]
    unfold allocateOversize at *
    by_cases hvalid : (⟨size, wordAlign⟩ : Layout).Valid
    · simp only [if_pos hvalid, decide_eq_true hvalid] at hlawful hunwrapped ⊢
      exact allocateLarge_eq hfits hplaced.size hlawful hunwrapped
    · simp only [if_neg hvalid, decide_eq_false hvalid]
      rfl

theorem allocateLayout_eq {l : Layout} (hplaced : r.Placed) (hfits : r.Fits)
    (hpower : l.align.isPowerOfTwo) (hword : l.align < wordBound)
    (hlawful : Lawful (r.allocateLayout l).2.heap.journal)
    (hunwrapped : Unwrapped r.pool.config.blockLayout (r.allocateLayout l).2.heap.journal) :
    allocateLayout r l = some (r.allocateLayout l) := by
  unfold allocateLayout Region.allocateLayout at *
  by_cases hzero : l.size = 0
  · rw [if_pos hzero, if_pos hzero]
  rw [if_neg hzero] at hlawful hunwrapped ⊢
  rw [if_neg hzero]
  by_cases hsmall : l.size ≤ r.pool.largestSmall ∧ l.align ≤ blockAlign
  · rw [if_pos hsmall] at hlawful hunwrapped ⊢
    rw [if_pos hsmall]
    exact reserve_eq hfits (hplaced.room (.inl hsmall.1)) (dvd_blockAlign hpower hsmall.2) hlawful
      hunwrapped
  rw [if_neg hsmall] at hlawful hunwrapped ⊢
  have hraised : (l.alignTo wordAlign).align < wordBound := max_lt hword (by decide)
  rw [if_neg hsmall, isLayout_eq hraised, Option.bind_eq_bind, Option.bind_some]
  by_cases hvalid : (l.alignTo wordAlign).Valid
  · rw [if_pos hvalid] at hlawful hunwrapped ⊢
    rw [if_pos (decide_eq_true hvalid)]
    exact allocateLarge_eq hfits hplaced.size hlawful hunwrapped
  · rw [if_neg hvalid, if_neg (by simpa using hvalid)]
    rfl

/-- **No word overflows in a request for memory**, in a region whose blocks fit and over a source
that keeps blocks away from the end of the address space. -/
theorem supply_eq {a : Allocation} (hplaced : r.Placed) (hfits : r.Fits) (ha : a.WellFormed)
    (hwords : a.InWords) (hlawful : Lawful (r.supply a).2.heap.journal)
    (hunwrapped : Unwrapped r.pool.config.blockLayout (r.supply a).2.heap.journal) :
    supply r a = some (r.supply a) := by
  cases a with
  | bytes size =>
    rw [supply, allocate_eq hplaced hfits wordAlign_dvd rfl hlawful hunwrapped]
    rfl
  | packed size =>
    rw [supply, allocate_eq hplaced hfits (Nat.one_dvd _) rfl hlawful hunwrapped]
    rfl
  | zeroed size =>
    -- storing zeros is nothing to the journal
    have hsame : (r.allocateZeroed size).2.heap.journal = (r.allocate size).2.heap.journal := by
      unfold Region.allocateZeroed
      rcases r.allocate size with ⟨fault | start, r'⟩ <;> rfl
    have hop : allocate r size wordAlign = some (r.allocate size) :=
      allocate_eq hplaced hfits wordAlign_dvd rfl (hsame ▸ hlawful) (hsame ▸ hunwrapped)
    rw [supply, allocateZeroed, hop, Option.bind_eq_bind, Option.bind_some, Region.supply,
      Region.allocateZeroed]
    rcases r.allocate size with ⟨fault | start, r'⟩ <;> rfl
  | layout l =>
    rw [supply, allocateLayout_eq hplaced hfits ha hwords.2 hlawful hunwrapped]
    rfl
  | aligned size align =>
    rw [supply, allocateAligned_eq hfits hplaced.size hwords.2 hlawful hunwrapped]
    rfl

end Checked

end RegionTrie
