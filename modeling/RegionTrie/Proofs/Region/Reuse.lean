import RegionTrie.Proofs.Region.Tracked

/-!
# Records are used again

A record that was left without its buffer stays in the list, and the first few records are asked
before a new one is linked. So a new record is linked only where the first few all have buffers, and
where the list is no longer than what is asked, only where all of them have. A large request that
links no record takes nothing from any block.

## Main definitions

* `Region.Attends`: what a request for memory does to the records
* `Region.Recycles`: a record is linked at most where none of the first few is empty

## Main results

* `Region.attends_allocate`, `Region.attends_allocateLayout` and others: requests for memory, except
  those for buffers of their own, ask the records first
* `Region.Recycles.full`: in a short list a record is linked only if there is no empty one
-/

namespace RegionTrie

namespace LargeRecord

variable {records after : List LargeRecord} {b : Buffer} {probes address : Nat}

theorem length_occupy? (h : occupy? b probes records = some after) :
    after.length = records.length := by
  induction records generalizing probes after with
  | nil => cases probes <;> simp [occupy?] at h
  | cons record rest ih =>
    cases probes with
    | zero => simp [occupy?] at h
    | succ n =>
      cases hheld : record.held with
      | none =>
        simp only [occupy?, hheld, Option.some.injEq] at h
        rw [← h]
        rfl
      | some c =>
        simp only [occupy?, hheld, Option.map_eq_some_iff] at h
        obtain ⟨tail, htail, rfl⟩ := h
        rw [List.length_cons, ih htail, List.length_cons]

/-- No record takes a buffer exactly if the first few all have one. -/
theorem occupy?_eq_none_iff :
    occupy? b probes records = none ↔ ∀ record ∈ records.take probes, record.held.isSome := by
  induction records generalizing probes with
  | nil => cases probes <;> simp [occupy?]
  | cons record rest ih =>
    cases probes with
    | zero => simp [occupy?]
    | succ n =>
      cases hheld : record.held with
      | none => simp [occupy?, hheld]
      | some c => simpa [occupy?, hheld] using ih

theorem length_vacate? (h : vacate? address records = some (b, after)) :
    after.length = records.length := by
  obtain ⟨front, record, back, -, rfl, rfl⟩ := exists_of_vacate? h
  simp

theorem length_buffers_le (records : List LargeRecord) :
    (buffers records).length ≤ records.length :=
  List.length_filterMap_le _ records

/-- Where all records have buffers, there are as many of either. -/
theorem length_buffers_of_full (h : ∀ record ∈ records, record.held.isSome) :
    (buffers records).length = records.length :=
  List.filterMap_length_eq_length.mpr h

end LargeRecord

namespace Region

variable {σ : Type} {r r₁ r₂ r' : Region σ} {l : Layout}

/-! ## Requests for memory -/

/-- A record is linked at most where none of the first few is empty. -/
inductive Recycles (r r' : Region σ) : Prop
  /-- There are as many records as before. -/
  | kept (hlength : r'.pool.large.length = r.pool.large.length)
  /-- There is a new one, in front of the others. -/
  | linked (address : Nat) (b : Buffer)
    (hlarge : r'.pool.large = ⟨address, some b⟩ :: r.pool.large)
    (hfull : ∀ record ∈ r.pool.large.take r.pool.config.largeReuseProbes, record.held.isSome)

theorem recycles_of_large_eq (h : r'.pool.large = r.pool.large) : r.Recycles r' :=
  .kept (congrArg List.length h)

/-- Only records and the configuration matter. -/
theorem Recycles.congr (h : r₁.Recycles r₂) (hbefore : r₁.pool.large = r.pool.large)
    (hconfig : r₁.pool.config = r.pool.config) (hafter : r'.pool.large = r₂.pool.large) :
    r.Recycles r' := by
  cases h with
  | kept hlength => exact .kept (by rw [hafter, hlength, hbefore])
  | linked address b hlarge hfull =>
    rw [hbefore] at hlarge hfull
    rw [hconfig] at hfull
    exact .linked address b (hafter.trans hlarge) hfull

/-- **A record is linked only if it is needed.** Where there are no more records than are asked, a
new one is linked only if all of them have buffers. -/
theorem Recycles.full (h : r.Recycles r')
    (hfew : r.pool.large.length ≤ r.pool.config.largeReuseProbes) :
    r'.pool.large.length = r.pool.large.length ∨
      (r'.pool.large.length = r.pool.large.length + 1 ∧
        r'.pool.largeCount = r'.pool.large.length) := by
  cases h with
  | kept hlength => exact .inl hlength
  | linked address b hlarge hfull =>
    rw [List.take_of_length_le hfew] at hfull
    refine .inr ⟨by rw [hlarge, List.length_cons], ?_⟩
    refine LargeRecord.length_buffers_of_full ?_
    rw [hlarge, List.forall_mem_cons]
    exact ⟨rfl, hfull⟩

variable [RawSource σ]

theorem recycles_free (r : Region σ) (address : Nat) : r.Recycles (r.free address).2 := by
  rcases free_cases r address with ⟨-, heq⟩ | ⟨b, large, hvacate, heq⟩ <;> rw [heq]
  · exact recycles_of_large_eq rfl
  · exact .kept (LargeRecord.length_vacate? hvacate)

theorem recycles_allocateLarge (r : Region σ) (l : Layout) : r.Recycles (r.allocateLarge l).2 := by
  rcases hop : r.allocateLarge l with ⟨fault | start, r'⟩
  · exact recycles_of_large_eq (congrArg Pool.large (fails_of_allocateLarge hop).pool_eq)
  unfold allocateLarge at hop
  split at hop
  · cases hop
  next base heap hgrant =>
  split at hop
  · next large hoccupy =>
    cases hop
    exact .kept (LargeRecord.length_occupy? hoccupy)
  · next hnone =>
    obtain ⟨-, address, hlarge⟩ := large_link_of_ok hop
    exact .linked address _ hlarge (LargeRecord.occupy?_eq_none_iff.mp hnone)

/-- If a large request links no record, it changes nothing in the chain of blocks. -/
theorem chain_allocateLarge
    (h : (r.allocateLarge l).2.pool.large.length = r.pool.large.length) :
    (r.allocateLarge l).2.pool.chain = r.pool.chain := by
  rcases hop : r.allocateLarge l with ⟨fault | start, r'⟩
  · exact congrArg Pool.chain (fails_of_allocateLarge hop).pool_eq
  rcases allocateLarge_cases r l with
    ⟨heap, -, heq⟩ | ⟨base, heap, large, -, -, heq⟩ | ⟨base, heap, -, heq⟩
  · rw [heq] at hop
    cases hop
  · rw [heq] at hop
    cases hop
    rfl
  · -- a record more would have been linked
    rw [heq] at hop
    obtain ⟨-, address, hlarge⟩ := large_link_of_ok hop
    rw [heq, hop, hlarge, List.length_cons] at h
    exact absurd h (Nat.succ_ne_self _)

/-- What a request for memory does to the records, given the layout for which the source is to be
asked if the request is large: nothing if it is small, and else what a large buffer does, or nothing
if there is no such layout. -/
inductive Attends (r : Region σ) : Option Layout → Region σ → Prop
  | small {r' : Region σ} (hlarge : r'.pool.large = r.pool.large) : Attends r none r'
  | invalid {r' : Region σ} {l : Layout} (hpool : r'.pool = r.pool) : Attends r (some l) r'
  | large {r' : Region σ} {l : Layout} (hpool : r'.pool = (r.allocateLarge l).2.pool) :
    Attends r (some l) r'

/-- Only what becomes of the pool matters. -/
theorem Attends.congr {l? : Option Layout} (h : r.Attends l? r₁) (hpool : r₂.pool = r₁.pool) :
    r.Attends l? r₂ := by
  cases h with
  | small hlarge => exact .small ((congrArg Pool.large hpool).trans hlarge)
  | invalid hsame => exact .invalid (hpool.trans hsame)
  | large hsame => exact .large (hpool.trans hsame)

theorem Attends.recycles {l? : Option Layout} (h : r.Attends l? r') : r.Recycles r' := by
  cases h with
  | small hlarge => exact recycles_of_large_eq hlarge
  | invalid hpool => exact recycles_of_large_eq (congrArg Pool.large hpool)
  | large hpool => exact (r.recycles_allocateLarge _).congr rfl rfl (congrArg Pool.large hpool)

/-- A large request that links no record takes nothing from any block. -/
theorem Attends.chain_eq (h : r.Attends (some l) r')
    (hlength : r'.pool.large.length = r.pool.large.length) : r'.pool.chain = r.pool.chain := by
  cases h with
  | invalid hpool => exact congrArg Pool.chain hpool
  | large hpool =>
    rw [hpool] at hlength ⊢
    exact chain_allocateLarge hlength

theorem attends_allocateOversize (r : Region σ) (size : Nat) :
    r.Attends (some ⟨size, wordAlign⟩) (r.allocateOversize size).2 := by
  unfold allocateOversize
  dsimp only
  split
  · exact .large rfl
  · exact .invalid rfl

theorem attends_of_size {size align : Nat} {op : Except Fault Nat × Region σ}
    (h : op = if size ≤ r.pool.largestSmall then r.reserve size align
      else r.allocateOversize size) :
    r.Attends (r.pool.layoutOf? size) op.2 := by
  unfold Pool.layoutOf?
  by_cases hsmall : size ≤ r.pool.largestSmall
  · rw [h, if_pos hsmall, if_pos hsmall]
    exact .small (large_reserve r size align)
  · rw [h, if_neg hsmall, if_neg hsmall]
    exact r.attends_allocateOversize size

theorem attends_allocate (r : Region σ) (size : Nat) :
    r.Attends (r.pool.layoutOf? size) (r.allocate size).2 :=
  attends_of_size rfl

theorem attends_allocatePacked (r : Region σ) (size : Nat) :
    r.Attends (r.pool.layoutOf? size) (r.allocatePacked size).2 :=
  attends_of_size rfl

theorem attends_allocateZeroed (r : Region σ) (size : Nat) :
    r.Attends (r.pool.layoutOf? size) (r.allocateZeroed size).2 := by
  have hattends := r.attends_allocate size
  unfold allocateZeroed
  rcases hop : r.allocate size with ⟨fault | start, r'⟩ <;> rw [hop] at hattends
  · exact hattends
  · exact hattends.congr rfl

theorem attends_allocateLayout (r : Region σ) (l : Layout) :
    r.Attends (r.pool.layoutFor? l) (r.allocateLayout l).2 := by
  unfold allocateLayout Pool.layoutFor?
  by_cases hzero : l.size = 0
  · rw [if_pos hzero, if_pos (.inl hzero)]
    exact .small rfl
  by_cases hsmall : l.size ≤ r.pool.largestSmall ∧ l.align ≤ blockAlign
  · rw [if_neg hzero, if_pos hsmall, if_pos (.inr hsmall)]
    exact .small (large_reserve r l.size l.align)
  · rw [if_neg hzero, if_neg hsmall, if_neg (not_or.mpr ⟨hzero, hsmall⟩)]
    split
    · exact .large rfl
    · exact .invalid rfl

theorem attends_allocateCopy (r : Region σ) (align : Nat) (bytes : List UInt8) :
    r.Attends (r.pool.layoutFor? ⟨bytes.length, align⟩) (r.allocateCopy align bytes).2 := by
  have hattends := r.attends_allocateLayout ⟨bytes.length, align⟩
  unfold allocateCopy
  rcases hop : r.allocateLayout ⟨bytes.length, align⟩ with ⟨fault | start, r'⟩ <;>
    rw [hop] at hattends
  · exact hattends
  · exact hattends.congr rfl

/-! ## Cleanups -/

theorem recycles_allocatePayload (r : Region σ) (size : Nat) :
    r.Recycles (r.allocatePayload size).2 := by
  unfold allocatePayload
  split
  · exact recycles_of_large_eq rfl
  · exact (r.attends_allocateZeroed size).recycles

/-- The record of a cleanup comes from a block, and its payload may ask the records of large
buffers. -/
theorem recycles_addCleanup (r : Region σ) (size : Nat) : r.Recycles (r.addCleanup size).2 := by
  have hlarge := large_reserve r cleanupRecordSize wordAlign
  have hconfig := (config_reserve r cleanupRecordSize wordAlign).1
  unfold addCleanup
  rcases hrecord : r.reserve cleanupRecordSize wordAlign with ⟨fault | address, r₁⟩ <;>
    rw [hrecord] at hlarge hconfig
  · exact recycles_of_large_eq hlarge
  have hpayload := r₁.recycles_allocatePayload size
  dsimp only
  rcases hop : r₁.allocatePayload size with ⟨fault | start, r₂⟩ <;> rw [hop] at hpayload <;>
    exact hpayload.congr hlarge hconfig rfl

end Region

end RegionTrie
