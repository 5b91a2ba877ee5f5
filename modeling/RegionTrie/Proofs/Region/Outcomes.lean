import RegionTrie.Region.Lifecycle

/-!
# Outcomes of operations on regions

Each operation of a region can end in a few ways. For each of them this module lists all the ways,
with the region that is left, so that later arguments go through the ways and never through the
definitions.

## Main results

* `Heap.allocate_cases`: the source grants or declines
* `Region.reserve_cases`: an old block serves, a new block does, or none can be had
* `Region.link_cases`, `Region.allocateLarge_cases`, `Region.allocateAligned_cases`: how a large
  buffer comes to be tracked, and what happens if it cannot be
* `Region.free_cases`: a buffer goes back, or nothing happens
-/

namespace RegionTrie

variable {σ : Type} [RawSource σ]

/-- The source grants a buffer, which is live from then on, or it declines. -/
theorem Heap.allocate_cases (h : Heap σ) (l : Layout) :
    (∃ base source, h.allocate l =
      (some base, { h with source, live := ⟨base, l⟩ :: h.live,
                           journal := .granted ⟨base, l⟩ :: h.journal })) ∨
      ∃ source, h.allocate l =
        (none, { h with source, journal := .declined l :: h.journal }) := by
  unfold Heap.allocate
  split
  · next base source _ => exact .inl ⟨base, source, rfl⟩
  · next source _ => exact .inr ⟨source, rfl⟩

/-- A buffer that was granted is the newest entry of the journal. -/
theorem Heap.journal_of_grant {h heap : Heap σ} {l : Layout} {base : Nat}
    (hgrant : h.allocate l = (some base, heap)) :
    heap.journal = .granted ⟨base, l⟩ :: h.journal := by
  rcases h.allocate_cases l with ⟨base', source, heq⟩ | ⟨source, heq⟩ <;> rw [heq] at hgrant <;>
    cases hgrant
  rfl

/-- So is a request that was declined. -/
theorem Heap.journal_of_decline {h heap : Heap σ} {l : Layout}
    (hdecline : h.allocate l = (none, heap)) : heap.journal = .declined l :: h.journal := by
  rcases h.allocate_cases l with ⟨base, source, heq⟩ | ⟨source, heq⟩ <;> rw [heq] at hdecline <;>
    cases hdecline
  rfl

namespace Region

/-- A range is served by a block of the chain, or by a new block, or the source declines to give
one and nothing else changes. -/
theorem reserve_cases (r : Region σ) (size align : Nat) :
    (∃ start chain, r.pool.chain.serve? size align = some (start, chain) ∧
      r.reserve size align = (.ok start,
        { pool := { r.pool with chain }, heap := r.heap.record (.served ⟨start, size⟩ align) })) ∨
    (∃ base heap, r.pool.chain.serve? size align = none ∧
      r.heap.allocate r.pool.config.blockLayout = (some base, heap) ∧
      r.reserve size align = (.ok ((Block.fresh base r.pool.config.size).next align),
        { pool :=
            { r.pool with
              chain := r.pool.chain.append r.pool.config.skipAfterFailures
                ((Block.fresh base r.pool.config.size).bump size align) }
          heap :=
            (heap.record
              (.served ⟨(Block.fresh base r.pool.config.size).next align, size⟩ align)).note
                (.poolGrown base r.pool.config.size) })) ∨
    (∃ heap, r.pool.chain.serve? size align = none ∧
      r.heap.allocate r.pool.config.blockLayout = (none, heap) ∧
      r.reserve size align =
        (.error (.exhausted r.pool.config.size blockAlign), { r with heap })) := by
  unfold reserve
  cases hserve : r.pool.chain.serve? size align with
  | some served => exact .inl ⟨served.1, served.2, rfl, rfl⟩
  | none =>
    refine .inr ?_
    simp only [grow]
    rcases r.heap.allocate r.pool.config.blockLayout with ⟨_ | base, heap⟩
    · exact .inr ⟨heap, trivial, rfl, rfl⟩
    · exact .inl ⟨base, heap, trivial, rfl, rfl⟩

/-- Serving a range leaves the large buffers alone. -/
theorem large_reserve (r : Region σ) (size align : Nat) :
    (r.reserve size align).2.pool.large = r.pool.large := by
  rcases reserve_cases r size align with
    ⟨start, chain, -, heq⟩ | ⟨base, heap, -, -, heq⟩ | ⟨heap, -, -, heq⟩ <;> rw [heq]

/-- A range that cannot be served is refused for want of a block. -/
theorem fault_of_reserve {r r' : Region σ} {size align : Nat} {fault : Fault}
    (h : r.reserve size align = (.error fault, r')) :
    fault = .exhausted r.pool.config.size blockAlign := by
  rcases reserve_cases r size align with
    ⟨start, chain, -, heq⟩ | ⟨base, heap, -, -, heq⟩ | ⟨heap, -, -, heq⟩ <;>
    rw [heq] at h <;> cases h
  rfl

/-- A buffer is tracked by a new record, or goes back because there is no room for one. -/
theorem link_cases (r : Region σ) (b : Buffer) :
    (∃ address r', r.reserve largeRecordSize wordAlign = (.ok address, r') ∧
      r.link b = (.ok b.base,
        { r' with pool := { r'.pool with large := ⟨address, some b⟩ :: r'.pool.large } }.note
          (.largeLinked b.base b.layout.size b.layout.align))) ∨
    (∃ fault r', r.reserve largeRecordSize wordAlign = (.error fault, r') ∧
      r.link b = (.error fault, r'.release b)) := by
  unfold link
  rcases r.reserve largeRecordSize wordAlign with ⟨fault | address, r'⟩
  · exact .inr ⟨fault, r', rfl, rfl⟩
  · exact .inl ⟨address, r', rfl, rfl⟩

/-- A large buffer is refused by the source, or tracked by an old record, or linked. -/
theorem allocateLarge_cases (r : Region σ) (l : Layout) :
    (∃ heap, r.heap.allocate l = (none, heap) ∧
      r.allocateLarge l = (.error (.exhausted l.size l.align), { r with heap })) ∨
    (∃ base heap large, r.heap.allocate l = (some base, heap) ∧
      LargeRecord.occupy? ⟨base, l⟩ r.pool.config.largeReuseProbes r.pool.large = some large ∧
      r.allocateLarge l =
        (.ok base,
          { pool := { r.pool with large }, heap := heap.note (.largeReused base l.size) })) ∨
    (∃ base heap, r.heap.allocate l = (some base, heap) ∧
      r.allocateLarge l = { r with heap }.link ⟨base, l⟩) := by
  unfold allocateLarge
  rcases r.heap.allocate l with ⟨_ | base, heap⟩
  · exact .inl ⟨heap, rfl, rfl⟩
  · refine .inr ?_
    cases hlarge : LargeRecord.occupy? ⟨base, l⟩ r.pool.config.largeReuseProbes r.pool.large with
    | some large => exact .inl ⟨base, heap, large, rfl, hlarge, by simp only [hlarge]⟩
    | none => exact .inr ⟨base, heap, rfl, by simp only [hlarge]⟩

/-- A buffer of its own is refused as no layout, or by the source, or linked. -/
theorem allocateAligned_cases (r : Region σ) (size align : Nat) :
    (¬ (0 < size ∧ (⟨size, align⟩ : Layout).Valid) ∧
      r.allocateAligned size align = (.error (.invalidLayout size align), r)) ∨
    (∃ heap, 0 < size ∧ (⟨size, align⟩ : Layout).Valid ∧
      r.heap.allocate ⟨size, align⟩ = (none, heap) ∧
      r.allocateAligned size align = (.error (.exhausted size align), { r with heap })) ∨
    (∃ base heap, 0 < size ∧ (⟨size, align⟩ : Layout).Valid ∧
      r.heap.allocate ⟨size, align⟩ = (some base, heap) ∧
      r.allocateAligned size align = { r with heap }.link ⟨base, ⟨size, align⟩⟩) := by
  unfold allocateAligned
  by_cases hvalid : 0 < size ∧ (⟨size, align⟩ : Layout).Valid
  · refine .inr ?_
    simp only [if_pos hvalid]
    rcases r.heap.allocate ⟨size, align⟩ with ⟨_ | base, heap⟩
    · exact .inl ⟨heap, hvalid.1, hvalid.2, rfl, rfl⟩
    · exact .inr ⟨base, heap, hvalid.1, hvalid.2, rfl, rfl⟩
  · exact .inl ⟨hvalid, if_neg hvalid⟩

/-- A buffer of its own is granted only for a layout. -/
theorem layout_of_allocateAligned {r r' : Region σ} {size align base : Nat}
    (h : r.allocateAligned size align = (.ok base, r')) :
    0 < size ∧ (⟨size, align⟩ : Layout).Valid := by
  rcases allocateAligned_cases r size align with
    ⟨-, heq⟩ | ⟨heap, -, -, -, heq⟩ | ⟨_, heap, hsize, hvalid, -, -⟩
  · rw [heq] at h; cases h
  · rw [heq] at h; cases h
  · exact ⟨hsize, hvalid⟩

/-- A buffer of its own for a layout is refused only for want of memory. -/
theorem fault_of_allocateAligned {r r' : Region σ} {size align : Nat} {fault : Fault}
    (hsize : 0 < size) (hvalid : (⟨size, align⟩ : Layout).Valid)
    (h : r.allocateAligned size align = (.error fault, r')) :
    ∃ size align, fault = .exhausted size align := by
  rcases allocateAligned_cases r size align with
    ⟨hno, -⟩ | ⟨heap, -, -, -, heq⟩ | ⟨base, heap, -, -, -, heq⟩
  · exact absurd ⟨hsize, hvalid⟩ hno
  · rw [heq] at h
    cases h
    exact ⟨size, align, rfl⟩
  · -- the buffer was granted, so it is its record for which there was no memory
    rw [heq] at h
    rcases link_cases { r with heap } ⟨base, ⟨size, align⟩⟩ with
      ⟨address, r₁, -, hlink⟩ | ⟨fault', r₁, hreserve, hlink⟩
    · rw [hlink] at h; cases h
    · rw [hlink] at h
      cases h
      exact ⟨_, _, fault_of_reserve hreserve⟩

/-- A buffer goes back, or nothing happens. -/
theorem free_cases (r : Region σ) (address : Nat) :
    (LargeRecord.vacate? address r.pool.large = none ∧
      r.free address = (.error .invalidFree, r)) ∨
    (∃ b large, LargeRecord.vacate? address r.pool.large = some (b, large) ∧
      r.free address = (.ok (),
        ({ r with pool := { r.pool with large } }.note (.largeFreed address)).release b)) := by
  unfold free
  cases hvacate : LargeRecord.vacate? address r.pool.large with
  | none => exact .inl ⟨rfl, rfl⟩
  | some vacated => exact .inr ⟨vacated.1, vacated.2, rfl, rfl⟩

end Region

end RegionTrie
