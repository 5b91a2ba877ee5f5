import RegionTrie.Pool.Basic

/-!
# Regions

A region is a pool together with the heap that it takes memory from. Every operation maps a region
to its answer, an address or a fault, and the region afterwards.

## Main definitions

* `Region`: pool and heap
* `Region.reserve`: a range inside a block, from an old block or from a new one
* `Region.store`, `Region.contents`: writing and reading bytes
-/

namespace RegionTrie

/-- A pool with the heap underneath it. -/
structure Region (σ : Type) where
  pool : Pool
  heap : Heap σ

namespace Region

variable {σ : Type}

/-- Write a diagnostic into the journal. -/
def note (r : Region σ) (e : Event) : Region σ :=
  { r with heap := r.heap.note e }

/-- Store bytes from an address on. -/
def store (r : Region σ) (start : Nat) (bytes : Array UInt8) : Region σ :=
  { r with heap := r.heap.store start bytes }

/-- The bytes of a range. -/
def contents (r : Region σ) (e : Extent) : List UInt8 :=
  r.heap.memory.read e.start e.size

variable [RawSource σ]

/-- Give a buffer back to the raw source. -/
def release (r : Region σ) (b : Buffer) : Region σ :=
  { r with heap := r.heap.release b }

/-- Append a block and serve a range from it. -/
def grow (r : Region σ) (size align : Nat) : Except Fault Nat × Region σ :=
  let layout := r.pool.config.blockLayout
  match r.heap.allocate layout with
  | (none, heap) => (.error (.exhausted layout.size layout.align), { r with heap })
  | (some base, heap) =>
    let block := Block.fresh base layout.size
    let chain := r.pool.chain.append r.pool.config.skipAfterFailures (block.bump size align)
    let start := block.next align
    (.ok start,
      { pool := { r.pool with chain }
        heap := (heap.record (.served ⟨start, size⟩ align)).note (.poolGrown base layout.size) })

/-- Serve a range from the first block that has room for it, from the current one on, or else from
a new block. -/
def reserve (r : Region σ) (size align : Nat) : Except Fault Nat × Region σ :=
  match r.pool.chain.serve? size align with
  | some (start, chain) =>
    (.ok start,
      { pool := { r.pool with chain }, heap := r.heap.record (.served ⟨start, size⟩ align) })
  | none => r.grow size align

end Region

end RegionTrie
