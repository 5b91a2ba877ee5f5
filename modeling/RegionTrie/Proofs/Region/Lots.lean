import RegionTrie.Proofs.Region.Failures
import RegionTrie.Proofs.Region.Placement

/-!
# What is handed out

The lots of a region are the ranges served since the last reset and the large buffers that are still
there. A request for memory adds lots, for what it hands out and for the records that it needs, and
stores bytes only in what it hands out.

## Main definitions

* `Region.lots`: the ranges and buffers handed out
* `Region.records`: where the records of large buffers and of cleanups lie
* `Journal.fates`: what became of handlers
* `Region.Provides`: ranges are handed out, and nothing happens to the contents of others
* `Region.Supplies`: nor to cleanups
* `Region.Lends`: how a request for memory ends

## Main results

* `Region.supplies_reserve`, `Region.supplies_allocateLarge` and others: requests for memory supply
  what they answer with
* `Region.Fails.supplies`: a failure supplies nothing
* `Region.free_eq_ok`, `Region.lots_reset`: how lots go
-/

namespace RegionTrie

namespace Journal

/-- The runs and disposals of handlers, newest first. -/
def fates : List Effect → List Effect
  | [] => []
  | .ran id payload :: older => .ran id payload :: fates older
  | .discarded id :: older => .discarded id :: fates older
  | _ :: older => fates older

end Journal

namespace Extent

/-- Those of the given ranges that have any bytes. -/
def solid (es : List Extent) : List Extent :=
  es.filter fun e => 0 < e.size

theorem mem_solid {es : List Extent} {e : Extent} : e ∈ solid es ↔ e ∈ es ∧ 0 < e.size := by
  simp [solid]

theorem Covers.size_pos {e : Extent} {address : Nat} (h : e.Covers address) : 0 < e.size := by
  unfold Covers stop at h
  omega

end Extent

/-! ## Contents of ranges -/

namespace Memory

variable {m m' : Memory}

theorem read_congr {start size : Nat}
    (h : ∀ address, start ≤ address → address < start + size →
      m'.byteAt address = m.byteAt address) : m'.read start size = m.read start size := by
  rw [read_eq_map_byteAt, read_eq_map_byteAt]
  refine List.map_congr_left fun address haddress => ?_
  rw [List.mem_range'_1] at haddress
  exact h address haddress.1 haddress.2

/-- A range shows what was just stored in it. -/
theorem read_write (m : Memory) (start : Nat) (bytes : List UInt8) :
    (m.write start bytes.toArray).read start bytes.length = bytes := by
  rw [read_eq_map_byteAt]
  refine List.ext_getElem (by simp) fun i _ hi => ?_
  rw [List.getElem_map, List.getElem_range', Nat.one_mul,
    byteAt_write_of_covers m (by omega) (by simpa using hi)]
  simp

end Memory

/-- The source stores nothing and disposes of no handler. -/
theorem Heap.memory_allocate {σ : Type} [RawSource σ] (h : Heap σ) (l : Layout) :
    (h.allocate l).2.memory = h.memory ∧
      Journal.fates (h.allocate l).2.journal = Journal.fates h.journal := by
  rcases h.allocate_cases l with ⟨base, source, heq⟩ | ⟨source, heq⟩ <;> rw [heq]
  · exact ⟨rfl, rfl⟩
  · exact ⟨rfl, rfl⟩

namespace Region

open Journal

variable {σ : Type}

/-- The ranges served since the last reset, and the large buffers. -/
def lots (r : Region σ) : List Extent :=
  (served r.heap.journal).map Prod.fst ++ (LargeRecord.buffers r.pool.large).map Buffer.extent

/-- Where the records of large buffers and of cleanups lie. -/
def records (r : Region σ) : List Extent :=
  r.pool.large.map (fun record => ⟨record.address, largeRecordSize⟩) ++
    r.pool.cleanups.map fun record => ⟨record.address, cleanupRecordSize⟩

/-- From one region to another, the given ranges and those of new records came to the lots, and
bytes were stored in the given ranges at most. -/
structure Provides (r r' : Region σ) (new : List Extent) : Prop where
  count_le : ∀ e, new.count e + r'.records.count e + r.lots.count e ≤
    r'.lots.count e + r.records.count e
  byteAt_eq : ∀ address, (∀ e ∈ new, ¬ e.Covers address) →
    r'.heap.memory.byteAt address = r.heap.memory.byteAt address

/-- The given ranges were provided, and nothing happened to cleanups and their handlers. -/
structure Supplies (r r' : Region σ) (new : List Extent) : Prop extends Provides r r' new where
  cleanups_eq : r'.pool.cleanups = r.pool.cleanups
  fates_eq : fates r'.heap.journal = fates r.heap.journal

variable {r r₁ r₂ : Region σ} {new more : List Extent}

/-- Nothing is provided by what moves no lot and no record, and stores nothing. -/
theorem provides_nothing (hlots : r₁.lots = r.lots) (hrecords : r₁.records = r.records)
    (hmemory : r₁.heap.memory = r.heap.memory) : r.Provides r₁ [] where
  count_le e := by
    rw [hlots, hrecords, List.count_nil]
    omega
  byteAt_eq address _ := by rw [hmemory]

namespace Provides

theorem trans (h : r.Provides r₁ new) (h₁ : r₁.Provides r₂ more) :
    r.Provides r₂ (new ++ more) where
  count_le e := by
    have hcount := h.count_le e
    have hcount₁ := h₁.count_le e
    rw [List.count_append]
    omega
  byteAt_eq address haddress := by
    rw [h₁.byteAt_eq address fun e he => haddress e (List.mem_append_right _ he),
      h.byteAt_eq address fun e he => haddress e (List.mem_append_left _ he)]

/-- Storing bytes in what was provided provides it still. -/
theorem store (h : r.Provides r₁ new) {start : Nat} {bytes : Array UInt8}
    (hnew : ∀ i < bytes.size, ∃ e ∈ new, e.Covers (start + i)) :
    r.Provides (r₁.store start bytes) new where
  count_le := h.count_le
  byteAt_eq address haddress := by
    refine (Memory.byteAt_write_of_not_covers _ ?_).trans (h.byteAt_eq address haddress)
    refine Decidable.by_contra fun hcovers => ?_
    obtain ⟨e, he, hcovered⟩ := hnew (address - start) (by omega)
    rw [Nat.add_sub_cancel' (by omega)] at hcovered
    exact haddress e he hcovered

/-- A range without bytes need not be provided. -/
theorem solid (h : r.Provides r₁ new) : r.Provides r₁ (Extent.solid new) where
  count_le e := by
    have hcount := h.count_le e
    have hle : (Extent.solid new).count e ≤ new.count e := List.filter_sublist.count_le e
    omega
  byteAt_eq address haddress := by
    refine h.byteAt_eq address fun e he hcovers => ?_
    exact haddress e (Extent.mem_solid.mpr ⟨he, hcovers.size_pos⟩) hcovers

end Provides

namespace Supplies

theorem refl (r : Region σ) : r.Supplies r [] :=
  ⟨provides_nothing rfl rfl rfl, rfl, rfl⟩

theorem trans (h : r.Supplies r₁ new) (h₁ : r₁.Supplies r₂ more) : r.Supplies r₂ (new ++ more) :=
  ⟨h.toProvides.trans h₁.toProvides, h₁.cleanups_eq.trans h.cleanups_eq,
    h₁.fates_eq.trans h.fates_eq⟩

/-- A new heap that shows the same supplies nothing. -/
theorem of_heap {heap : Heap σ} (hserved : served heap.journal = served r.heap.journal)
    (hmemory : heap.memory = r.heap.memory) (hfates : fates heap.journal = fates r.heap.journal) :
    r.Supplies { r with heap } [] :=
  ⟨provides_nothing (by simp only [lots, hserved]) rfl hmemory, rfl, hfates⟩

theorem note (h : r.Supplies r₁ new) {event : Event} (hevent : ∀ n, event ≠ .poolReset n) :
    r.Supplies (r₁.note event) new := by
  have hnote : r₁.Supplies (r₁.note event) [] := of_heap (served_noted hevent _) rfl rfl
  simpa using h.trans hnote

theorem store (h : r.Supplies r₁ new) {start : Nat} {bytes : Array UInt8}
    (hnew : ∀ i < bytes.size, ∃ e ∈ new, e.Covers (start + i)) :
    r.Supplies (r₁.store start bytes) new :=
  ⟨h.toProvides.store hnew, h.cleanups_eq, h.fates_eq⟩

theorem solid (h : r.Supplies r₁ new) : r.Supplies r₁ (Extent.solid new) :=
  ⟨h.toProvides.solid, h.cleanups_eq, h.fates_eq⟩

end Supplies

variable {r' : Region σ} {fault : Fault}

/-- A failure supplies nothing. -/
theorem Fails.supplies (h : r.Fails fault r') : r.Supplies r' [] := by
  cases h with
  | invalid => exact .refl r
  | declined => exact .of_heap rfl rfl rfl
  | returned => exact .of_heap rfl rfl rfl

/-- What a request for memory answers with was supplied, and shows certain bytes. -/
def Lends (r : Region σ) (op : Except Fault Nat × Region σ) (bytes : Nat → List UInt8) : Prop :=
  match op.1 with
  | .error _ => r.Supplies op.2 []
  | .ok start => r.Supplies op.2 (Extent.solid [⟨start, (bytes start).length⟩]) ∧
      op.2.contents ⟨start, (bytes start).length⟩ = bytes start

/-- Memory that is not written shows what happens to be there. -/
theorem lends_contents {op : Except Fault Nat × Region σ} {size : Nat}
    (herror : ∀ fault r', op = (.error fault, r') → r.Fails fault r')
    (hok : ∀ start r', op = (.ok start, r') → r.Supplies r' (Extent.solid [⟨start, size⟩])) :
    r.Lends op fun start => op.2.contents ⟨start, size⟩ := by
  rcases op with ⟨fault | start, r'⟩
  · exact (herror fault r' rfl).supplies
  · have hlength : (r'.contents ⟨start, size⟩).length = size := Memory.length_read _ _ _
    simp only [Lends, hlength]
    exact ⟨hok start r' rfl, trivial⟩

variable [RawSource σ]

/-! ## Requests for memory -/

/-- A buffer is no lot as long as no record tracks it. -/
theorem supplies_grant (r : Region σ) (l : Layout) :
    r.Supplies { r with heap := (r.heap.allocate l).2 } [] :=
  .of_heap (r.heap.served_allocate l) (r.heap.memory_allocate l).1 (r.heap.memory_allocate l).2

/-- Serving a range stores nothing and disposes of no handler. -/
theorem heap_reserve (r : Region σ) (size align : Nat) :
    (r.reserve size align).2.heap.memory = r.heap.memory ∧
      fates (r.reserve size align).2.heap.journal = fates r.heap.journal := by
  have hallocate := r.heap.memory_allocate r.pool.config.blockLayout
  rcases reserve_cases r size align with
    ⟨start, chain, -, heq⟩ | ⟨base, heap, -, hop, heq⟩ | ⟨heap, -, hop, heq⟩ <;> rw [heq]
  · exact ⟨rfl, rfl⟩
  all_goals
    rw [hop] at hallocate
    exact hallocate

/-- A range that is served comes to the lots. -/
theorem lots_of_reserve {size align start : Nat} (h : r.reserve size align = (.ok start, r')) :
    r'.lots = ⟨start, size⟩ :: r.lots ∧ r'.records = r.records := by
  obtain ⟨hpool, -⟩ := pool_reserve h
  unfold lots records
  rw [served_of_reserve h, hpool]
  exact ⟨rfl, rfl⟩

theorem supplies_reserve {size align start : Nat} (h : r.reserve size align = (.ok start, r')) :
    r.Supplies r' [⟨start, size⟩] := by
  obtain ⟨hlots, hrecords⟩ := lots_of_reserve h
  obtain ⟨hpool, -⟩ := pool_reserve h
  have hheap := heap_reserve r size align
  rw [h] at hheap
  refine ⟨⟨fun e => ?_, fun address _ => by rw [hheap.1]⟩, by rw [hpool], hheap.2⟩
  simp only [hlots, hrecords, List.count_cons, List.count_nil]
  omega

/-- A buffer is a lot once it is tracked. -/
theorem supplies_link {b : Buffer} {base : Nat} (h : r.link b = (.ok base, r')) :
    base = b.base ∧ r.Supplies r' [b.extent] := by
  rcases link_cases r b with ⟨address, r₁, hop, heq⟩ | ⟨fault, r₁, -, heq⟩ <;>
    rw [heq] at h <;> cases h
  have hheap := heap_reserve r largeRecordSize wordAlign
  obtain ⟨hlots, hrecords⟩ := lots_of_reserve hop
  obtain ⟨hpool, -⟩ := pool_reserve hop
  rw [hop] at hheap
  have hlinked : r.Supplies
      { r₁ with pool := { r₁.pool with large := ⟨address, some b⟩ :: r₁.pool.large } }
      [b.extent] := by
    refine ⟨⟨fun e => ?_, fun a _ => ?_⟩, ?_, hheap.2⟩
    · -- the buffer and its record come to the lots, and the record to the records
      have hlots' := congrArg (List.count e) hlots
      have hrecords' := congrArg (List.count e) hrecords
      simp only [lots, records, LargeRecord.buffers, List.map_cons, List.filterMap_cons,
        List.cons_append, List.count_append, List.count_cons, List.count_nil] at hlots' hrecords' ⊢
      omega
    · exact congrArg (Memory.byteAt · a) hheap.1
    · show r₁.pool.cleanups = _
      rw [hpool]
  exact ⟨rfl, hlinked.note fun _ => Event.noConfusion⟩

theorem supplies_allocateLarge {l : Layout} {base : Nat}
    (h : r.allocateLarge l = (.ok base, r')) : r.Supplies r' [⟨base, l.size⟩] := by
  have hgrant := supplies_grant r l
  rcases allocateLarge_cases r l with
    ⟨heap, -, heq⟩ | ⟨base', heap, large, hop, hoccupy, heq⟩ | ⟨base', heap, hop, heq⟩ <;>
    rw [heq] at h
  · cases h
  · -- an empty record takes the buffer, and stays where it is
    cases h
    rw [hop] at hgrant
    obtain ⟨front, back, hbefore, hafter⟩ := LargeRecord.buffers_occupy? hoccupy
    have haddresses := congrArg (List.map (⟨·, largeRecordSize⟩ : Nat → Extent))
      (LargeRecord.addresses_occupy? hoccupy)
    rw [List.map_map, List.map_map] at haddresses
    have hheld : r.Supplies { pool := { r.pool with large }, heap } [⟨base, l.size⟩] := by
      refine ⟨⟨fun e => ?_, fun a _ => hgrant.byteAt_eq a (by simp)⟩, rfl, hgrant.fates_eq⟩
      have hcount := hgrant.count_le e
      have haddresses' := congrArg (List.count e) haddresses
      simp only [lots, records, hbefore, hafter, Function.comp_def, List.map_append,
        List.map_cons, List.count_append, List.count_cons, List.count_nil, Buffer.extent]
        at hcount haddresses' ⊢
      omega
    exact hheld.note fun _ => Event.noConfusion
  · rw [hop] at hgrant
    obtain ⟨rfl, hlink⟩ := supplies_link h
    exact hgrant.trans hlink

theorem supplies_allocateAligned {size align base : Nat}
    (h : r.allocateAligned size align = (.ok base, r')) : r.Supplies r' [⟨base, size⟩] := by
  have hgrant := supplies_grant r ⟨size, align⟩
  rcases allocateAligned_cases r size align with
    ⟨-, heq⟩ | ⟨heap, -, -, -, heq⟩ | ⟨base', heap, -, -, hop, heq⟩ <;> rw [heq] at h
  · cases h
  · cases h
  · rw [hop] at hgrant
    obtain ⟨rfl, hlink⟩ := supplies_link h
    exact hgrant.trans hlink

theorem supplies_allocateOversize {size start : Nat}
    (h : r.allocateOversize size = (.ok start, r')) : r.Supplies r' [⟨start, size⟩] := by
  unfold allocateOversize at h
  dsimp only at h
  split at h
  · exact supplies_allocateLarge h
  · cases h

theorem supplies_allocate {size start : Nat} (h : r.allocate size = (.ok start, r')) :
    r.Supplies r' [⟨start, size⟩] := by
  unfold allocate at h
  split at h
  · exact supplies_reserve h
  · exact supplies_allocateOversize h

theorem supplies_allocatePacked {size start : Nat} (h : r.allocatePacked size = (.ok start, r')) :
    r.Supplies r' [⟨start, size⟩] := by
  unfold allocatePacked at h
  split at h
  · exact supplies_reserve h
  · exact supplies_allocateOversize h

/-- Zeros are stored in the whole range that is handed out, and nowhere else. -/
theorem supplies_allocateZeroed {size start : Nat} (h : r.allocateZeroed size = (.ok start, r')) :
    r.Supplies r' [⟨start, size⟩] ∧ r'.contents ⟨start, size⟩ = List.replicate size 0 := by
  unfold allocateZeroed at h
  rcases hop : r.allocate size with ⟨fault | start', r₁⟩ <;> rw [hop] at h <;> cases h
  constructor
  · refine (supplies_allocate hop).store fun i hi => ⟨_, List.mem_singleton_self _, ?_⟩
    rw [Array.size_replicate] at hi
    exact ⟨Nat.le_add_right _ _, Nat.add_lt_add_left hi _⟩
  · have hread := r₁.heap.memory.read_write start (List.replicate size 0)
    rw [List.length_replicate, List.toArray_replicate] at hread
    exact hread

/-- Memory for a layout is a lot, unless there are no bytes to it. -/
theorem supplies_allocateLayout {l : Layout} {start : Nat}
    (h : r.allocateLayout l = (.ok start, r')) :
    r.Supplies r' (Extent.solid [⟨start, l.size⟩]) := by
  unfold allocateLayout at h
  split at h
  · next hzero =>
    cases h
    rw [hzero]
    exact .refl r
  split at h
  · exact (supplies_reserve h).solid
  split at h
  · exact (supplies_allocateLarge (l := l.alignTo wordAlign) h).solid
  · cases h

/-- The given bytes are stored in the whole range that is handed out, and nowhere else. -/
theorem supplies_allocateCopy {align start : Nat} {bytes : List UInt8}
    (h : r.allocateCopy align bytes = (.ok start, r')) :
    r.Supplies r' (Extent.solid [⟨start, bytes.length⟩]) ∧
      r'.contents ⟨start, bytes.length⟩ = bytes := by
  unfold allocateCopy at h
  rcases hop : r.allocateLayout ⟨bytes.length, align⟩ with ⟨fault | start', r₁⟩ <;>
    rw [hop] at h <;> cases h
  refine ⟨(supplies_allocateLayout hop).store fun i hi => ?_, Memory.read_write _ _ _⟩
  rw [List.size_toArray] at hi
  refine ⟨⟨start, bytes.length⟩, ?_, Nat.le_add_right _ _, Nat.add_lt_add_left hi _⟩
  exact Extent.mem_solid.mpr ⟨List.mem_singleton_self _, Nat.zero_lt_of_lt hi⟩

theorem lends_allocateZeroed (r : Region σ) (size : Nat) :
    r.Lends (r.allocateZeroed size) fun _ => List.replicate size 0 := by
  unfold Lends
  rcases hop : r.allocateZeroed size with ⟨fault | start, r'⟩
  · exact (fails_of_allocateZeroed hop).supplies
  · obtain ⟨hsupplies, hzeros⟩ := supplies_allocateZeroed hop
    simp only [List.length_replicate]
    exact ⟨hsupplies.solid, hzeros⟩

theorem lends_allocateCopy (r : Region σ) (align : Nat) (bytes : List UInt8) :
    r.Lends (r.allocateCopy align bytes) fun _ => bytes := by
  unfold Lends
  rcases hop : r.allocateCopy align bytes with ⟨fault | start, r'⟩
  · exact (fails_of_allocateCopy hop).supplies
  · exact supplies_allocateCopy hop

theorem supplies_allocatePayload {size start : Nat}
    (h : r.allocatePayload size = (.ok start, r')) :
    r.Supplies r' (Extent.solid [⟨start, size⟩]) ∧
      r'.contents ⟨start, size⟩ = List.replicate size 0 := by
  unfold allocatePayload at h
  split at h
  · next hzero =>
    cases h
    rw [hzero]
    exact ⟨.refl r, rfl⟩
  · obtain ⟨hsupplies, hzeros⟩ := supplies_allocateZeroed h
    exact ⟨hsupplies.solid, hzeros⟩

/-! ## How lots go -/

/-- A large buffer that is freed is no lot any more. -/
theorem free_eq_ok {address : Nat} (h : r.free address = (.ok (), r')) :
    ∃ b ∈ LargeRecord.buffers r.pool.large, b.base = address ∧
      (∀ e, r.lots.count e = [b.extent].count e + r'.lots.count e) ∧
      r'.records = r.records ∧ r'.heap.memory = r.heap.memory ∧
      r'.pool.cleanups = r.pool.cleanups ∧ fates r'.heap.journal = fates r.heap.journal := by
  rcases free_cases r address with ⟨-, heq⟩ | ⟨b, large, hvacate, heq⟩ <;> rw [heq] at h <;>
    cases h
  obtain ⟨hbase, front, back, hbefore, hafter⟩ := LargeRecord.buffers_vacate? hvacate
  have haddresses := congrArg (List.map (⟨·, largeRecordSize⟩ : Nat → Extent))
    (LargeRecord.addresses_vacate? hvacate)
  rw [List.map_map, List.map_map] at haddresses
  refine ⟨b, by simp [hbefore], hbase, fun e => ?_, ?_, rfl, rfl, rfl⟩
  · show List.count e (_ ++ (LargeRecord.buffers r.pool.large).map Buffer.extent) =
      _ + List.count e (List.map _ (served r.heap.journal) ++
        (LargeRecord.buffers large).map Buffer.extent)
    simp only [hbefore, hafter, List.map_append, List.map_cons, List.count_append, List.count_cons,
      List.count_nil]
    omega
  · show List.map _ large ++ _ = _
    rw [show List.map (fun record => (⟨record.address, largeRecordSize⟩ : Extent)) large = _ from
      haddresses]
    rfl

theorem free_eq_error {address : Nat} (h : r.free address = (.error fault, r')) : r' = r := by
  rcases free_cases r address with ⟨-, heq⟩ | ⟨b, large, -, heq⟩ <;> rw [heq] at h <;> cases h
  rfl

/-- Nothing is handed out after a reset. -/
theorem lots_reset (r : Region σ) : r.reset.lots = [] ∧ r.reset.records = [] := by
  unfold lots records
  rw [pool_reset]
  exact ⟨rfl, rfl⟩

end Region

end RegionTrie
