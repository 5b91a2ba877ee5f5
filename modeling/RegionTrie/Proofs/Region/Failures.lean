import RegionTrie.Proofs.Region.Ledger

/-!
# How requests for memory fail

A request for memory fails in one of three ways. There is no such layout, and nothing happens at
all. Or the source declines, be it the buffer or the block that was needed, and nothing else
happens. Or the source grants a large buffer and then declines the block that its record needs, and
the buffer goes back. In each of them the pool, the live buffers and the contents of memory are what
they were before.

## Main definitions

* `Region.Fails`: the three ways

## Main results

* `Region.Fails.pool_eq`, `Region.Fails.live_eq`, `Region.Fails.memory_eq`: what a failure leaves
  alone
* `Region.fails_of_allocate`, `Region.fails_of_allocateLayout` and others: a refused request for
  memory failed in one of the three ways
* `Region.addCleanup_fails`: so did a refused cleanup, perhaps after its record was reserved
-/

namespace RegionTrie.Region

variable {σ : Type}

/-- The ways in which a request for memory fails, with the fault that it answers. -/
inductive Fails (r : Region σ) : Fault → Region σ → Prop
  /-- There is no such layout. -/
  | invalid (size align : Nat) : Fails r (.invalidLayout size align) r
  /-- The source declines. -/
  | declined (l : Layout) (source : σ) :
      Fails r (.exhausted l.size l.align)
        { r with heap := { r.heap with source, journal := .declined l :: r.heap.journal } }
  /-- The source grants a buffer and declines the block for its record, so the buffer goes back. -/
  | returned (b : Buffer) (source : σ) :
      Fails r (.exhausted r.pool.config.size blockAlign)
        { r with
          heap :=
            { r.heap with
              source
              journal :=
                .released b :: .declined r.pool.config.blockLayout :: .granted b ::
                  r.heap.journal } }

namespace Fails

variable {r r' : Region σ} {fault : Fault}

theorem pool_eq (h : r.Fails fault r') : r'.pool = r.pool := by
  cases h <;> rfl

theorem live_eq (h : r.Fails fault r') : r'.heap.live = r.heap.live := by
  cases h <;> rfl

theorem memory_eq (h : r.Fails fault r') : r'.heap.memory = r.heap.memory := by
  cases h <;> rfl

end Fails

variable [RawSource σ] {r r' : Region σ} {fault : Fault}

theorem fails_of_decline {l : Layout} {heap : Heap σ} (h : r.heap.allocate l = (none, heap)) :
    r.Fails (.exhausted l.size l.align) { r with heap } := by
  rcases r.heap.allocate_cases l with ⟨base, source, heq⟩ | ⟨source, heq⟩ <;>
    rw [heq] at h <;> cases h
  exact .declined l source

/-- A range that cannot be served leaves a refusal in the journal and no other trace. -/
theorem declined_of_reserve {size align : Nat} (h : r.reserve size align = (.error fault, r')) :
    ∃ source, r' =
      { r with
        heap :=
          { r.heap with
            source, journal := .declined r.pool.config.blockLayout :: r.heap.journal } } := by
  rcases reserve_cases r size align with
    ⟨start, chain, -, heq⟩ | ⟨base, heap, -, -, heq⟩ | ⟨heap, -, hdecline, heq⟩ <;>
    rw [heq] at h <;> cases h
  rcases r.heap.allocate_cases r.pool.config.blockLayout with
    ⟨base, source, heq⟩ | ⟨source, heq⟩ <;> rw [heq] at hdecline <;> cases hdecline
  exact ⟨source, rfl⟩

theorem fails_of_reserve {size align : Nat} (h : r.reserve size align = (.error fault, r')) :
    r.Fails fault r' := by
  obtain ⟨source, rfl⟩ := declined_of_reserve h
  rw [fault_of_reserve h]
  exact .declined r.pool.config.blockLayout source

/-- A buffer for whose record there is no room is live for a moment only. -/
theorem fails_of_link {l : Layout} {base : Nat} {heap : Heap σ}
    (hgrant : r.heap.allocate l = (some base, heap))
    (h : ({ r with heap } : Region σ).link ⟨base, l⟩ = (.error fault, r')) : r.Fails fault r' := by
  rcases link_cases { r with heap } ⟨base, l⟩ with
    ⟨address, r₁, -, heq⟩ | ⟨fault', r₁, hreserve, heq⟩ <;> rw [heq] at h <;> cases h
  rcases r.heap.allocate_cases l with ⟨base', source, hop⟩ | ⟨source, hop⟩ <;>
    rw [hop] at hgrant <;> cases hgrant
  obtain ⟨source', rfl⟩ := declined_of_reserve hreserve
  rw [fault_of_reserve hreserve]
  -- the buffer is the first of the live ones, and taking it out leaves those from before
  have hfails := Fails.returned (r := r) ⟨base, l⟩ (RawSource.release source' ⟨base, l⟩)
  simpa only [release, Heap.release, Heap.record, List.erase_cons_head] using hfails

theorem fails_of_allocateLarge {l : Layout} (h : r.allocateLarge l = (.error fault, r')) :
    r.Fails fault r' := by
  rcases allocateLarge_cases r l with
    ⟨heap, hdecline, heq⟩ | ⟨base, heap, large, -, -, heq⟩ | ⟨base, heap, hgrant, heq⟩ <;>
    rw [heq] at h
  · cases h
    exact fails_of_decline hdecline
  · cases h
  · exact fails_of_link hgrant h

theorem fails_of_allocateAligned {size align : Nat}
    (h : r.allocateAligned size align = (.error fault, r')) : r.Fails fault r' := by
  rcases allocateAligned_cases r size align with
    ⟨-, heq⟩ | ⟨heap, -, -, hdecline, heq⟩ | ⟨base, heap, -, -, hgrant, heq⟩ <;> rw [heq] at h
  · cases h
    exact .invalid size align
  · cases h
    exact fails_of_decline hdecline
  · exact fails_of_link hgrant h

theorem fails_of_allocateOversize {size : Nat} (h : r.allocateOversize size = (.error fault, r')) :
    r.Fails fault r' := by
  unfold allocateOversize at h
  dsimp only at h
  split at h
  · exact fails_of_allocateLarge h
  · cases h
    exact .invalid size wordAlign

theorem fails_of_allocate {size : Nat} (h : r.allocate size = (.error fault, r')) :
    r.Fails fault r' := by
  unfold allocate at h
  split at h
  · exact fails_of_reserve h
  · exact fails_of_allocateOversize h

theorem fails_of_allocatePacked {size : Nat} (h : r.allocatePacked size = (.error fault, r')) :
    r.Fails fault r' := by
  unfold allocatePacked at h
  split at h
  · exact fails_of_reserve h
  · exact fails_of_allocateOversize h

theorem fails_of_allocateZeroed {size : Nat} (h : r.allocateZeroed size = (.error fault, r')) :
    r.Fails fault r' := by
  unfold allocateZeroed at h
  rcases hop : r.allocate size with ⟨fault' | start, r₁⟩ <;> rw [hop] at h <;> cases h
  exact fails_of_allocate hop

theorem fails_of_allocateLayout {l : Layout} (h : r.allocateLayout l = (.error fault, r')) :
    r.Fails fault r' := by
  unfold allocateLayout at h
  split at h
  · cases h
  split at h
  · exact fails_of_reserve h
  split at h
  · exact fails_of_allocateLarge h
  · cases h
    exact .invalid l.size l.align

theorem fails_of_allocateCopy {align : Nat} {bytes : List UInt8}
    (h : r.allocateCopy align bytes = (.error fault, r')) : r.Fails fault r' := by
  unfold allocateCopy at h
  rcases hop : r.allocateLayout ⟨bytes.length, align⟩ with ⟨fault' | start, r₁⟩ <;>
    rw [hop] at h <;> cases h
  exact fails_of_allocateLayout hop

/-! ## Cleanups -/

theorem fails_of_allocatePayload {size : Nat} (h : r.allocatePayload size = (.error fault, r')) :
    r.Fails fault r' := by
  unfold allocatePayload at h
  split at h
  · cases h
  · exact fails_of_allocateZeroed h

/-- What serving a range does to a pool: its chain changes, by one block at most, which is live from
then on. -/
theorem pool_reserve {size align start : Nat} (h : r.reserve size align = (.ok start, r')) :
    r'.pool = { r.pool with chain := r'.pool.chain } ∧
      (r'.pool.blockCount = r.pool.blockCount ∧ r'.heap.live = r.heap.live ∨
        ∃ base, r'.pool.blockCount = r.pool.blockCount + 1 ∧
          r'.heap.live = ⟨base, r.pool.config.blockLayout⟩ :: r.heap.live) := by
  rcases reserve_cases r size align with
    ⟨start', chain, hserve, heq⟩ | ⟨base, heap, -, hgrant, heq⟩ | ⟨heap, -, -, heq⟩ <;>
    rw [heq] at h <;> cases h
  · -- the blocks are where they were, so there are as many
    have hbases := congrArg List.length (Chain.bases_serve? hserve)
    simp only [Chain.bases, List.length_map] at hbases
    exact ⟨rfl, .inl ⟨hbases, rfl⟩⟩
  · refine ⟨rfl, .inr ⟨base, Chain.length_blocks_append _ _ _, ?_⟩⟩
    rcases r.heap.allocate_cases r.pool.config.blockLayout with
      ⟨base', source, hop⟩ | ⟨source, hop⟩ <;> rw [hop] at hgrant <;> cases hgrant
    rfl

/-- A refused cleanup failed at once, or after its record was reserved. -/
theorem addCleanup_fails {size : Nat} (h : r.addCleanup size = (.error fault, r')) :
    r.Fails fault r' ∨
      ∃ address r₁, r.reserve cleanupRecordSize wordAlign = (.ok address, r₁) ∧
        r₁.Fails fault r' := by
  unfold addCleanup at h
  rcases hrecord : r.reserve cleanupRecordSize wordAlign with ⟨fault' | address, r₁⟩ <;>
    rw [hrecord] at h
  · cases h
    exact .inl (fails_of_reserve hrecord)
  · refine .inr ⟨address, r₁, rfl, ?_⟩
    dsimp only at h
    rcases hpayload : r₁.allocatePayload size with ⟨fault' | start, r₂⟩ <;>
      rw [hpayload] at h <;> cases h
    exact fails_of_allocatePayload hpayload

end RegionTrie.Region
