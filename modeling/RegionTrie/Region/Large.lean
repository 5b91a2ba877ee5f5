import RegionTrie.Region.Basic

/-!
# Large buffers

Requests that do not fit into blocks go to the raw source one by one, and each buffer is tracked
by a record so that it can be freed early, and is never forgotten.

## Main definitions

* `Region.link`: track a buffer by a new record
* `Region.allocateLarge`: a large buffer, tracked by a free record if one is near
* `Region.free`: give a large buffer back early
* `Region.releaseLarge`: give all of them back
-/

namespace RegionTrie.Region

variable {σ : Type} [RawSource σ]

/-- Track a buffer by a new record. If there is no room for the record, the buffer goes back. -/
def link (r : Region σ) (b : Buffer) : Except Fault Nat × Region σ :=
  match r.reserve largeRecordSize wordAlign with
  | (.error fault, r) => (.error fault, r.release b)
  | (.ok address, r) =>
    let large := ⟨address, some b⟩ :: r.pool.large
    (.ok b.base,
      { r with pool := { r.pool with large } }.note
        (.largeLinked b.base b.layout.size b.layout.align))

/-- Obtain a large buffer. A record left without a buffer tracks it if one is among the first
few, else a new record does. -/
def allocateLarge (r : Region σ) (l : Layout) : Except Fault Nat × Region σ :=
  match r.heap.allocate l with
  | (none, heap) => (.error (.exhausted l.size l.align), { r with heap })
  | (some base, heap) =>
    match LargeRecord.occupy? ⟨base, l⟩ r.pool.config.largeReuseProbes r.pool.large with
    | some large =>
      (.ok base, { pool := { r.pool with large }, heap := heap.note (.largeReused base l.size) })
    | none => { r with heap }.link ⟨base, l⟩

/-- Give the large buffer that starts at `address` back before the region goes away. -/
def free (r : Region σ) (address : Nat) : Except Fault Unit × Region σ :=
  match LargeRecord.vacate? address r.pool.large with
  | none => (.error .invalidFree, r)
  | some (b, large) =>
    (.ok (), ({ r with pool := { r.pool with large } }.note (.largeFreed address)).release b)

/-- Give every large buffer back, in the order of the records, and forget the records. -/
def releaseLarge (r : Region σ) : Region σ :=
  let heap := (LargeRecord.buffers r.pool.large).foldl
    (fun heap b => (heap.note (.largeFreed b.base)).release b) r.heap
  { pool := { r.pool with large := [] }, heap }

end RegionTrie.Region
