import RegionTrie.Fault
import RegionTrie.Heap.Basic
import RegionTrie.Pool.Chain
import RegionTrie.Pool.Large
import RegionTrie.Pool.Cleanup

/-!
# Pools

A pool is the state of a region allocator: a chain of blocks for small requests, records of large
buffers, and records of cleanups. It says nothing about the contents of memory.

## Main definitions

* `Pool`: configuration, chain, large records and cleanup records
* `Pool.create`: a pool with its first block
* `Pool.blockCount`, `Pool.largeCount`, `Pool.cleanupCount`: what it holds
-/

namespace RegionTrie

/-- The state of a region allocator. -/
structure Pool where
  config : PoolConfig
  chain : Chain
  /-- Records of large buffers, newest first. -/
  large : List LargeRecord := []
  /-- Cleanup records, newest first. -/
  cleanups : List CleanupRecord := []
  /-- The largest request that is served from blocks. -/
  largestSmall : Nat
deriving DecidableEq

namespace Pool

/-- The number of blocks. -/
def blockCount (p : Pool) : Nat :=
  p.chain.blocks.length

/-- The number of live large buffers. -/
def largeCount (p : Pool) : Nat :=
  (LargeRecord.buffers p.large).length

/-- The number of cleanup records. -/
def cleanupCount (p : Pool) : Nat :=
  p.cleanups.length

/-- The size of every block, header included. -/
def blockSize (p : Pool) : Nat :=
  p.config.size

/-- The pool as a record. -/
def inspect (p : Pool) : String :=
  Text.record "Pool"
    [("block_size", toString p.blockSize), ("max", toString p.largestSmall),
      ("blocks", toString p.blockCount), ("large", toString p.largeCount),
      ("cleanups", toString p.cleanupCount)]

variable {σ : Type} [RawSource σ]

/-- Create a pool with one block taken from the heap. Requests of up to the room in a fresh block,
and of less than a page, count as small. -/
def create (c : PoolConfig) (h : Heap σ) : Except Fault Pool × Heap σ :=
  if c.size < leastPoolSize then (.error (.poolTooSmall c.size leastPoolSize), h)
  else if ¬ c.blockLayout.Valid then (.error (.invalidLayout c.size blockAlign), h)
  else
    match h.allocate c.blockLayout with
    | (none, h) => (.error (.exhausted c.size blockAlign), h)
    | (some base, h) =>
      let largestSmall := min (c.size - blockHeaderSize) (h.pageSize - 1)
      (.ok { config := c, chain := ⟨[], [.fresh base c.size]⟩, largestSmall },
        h.note (.poolCreated base c.size largestSmall))

end Pool

end RegionTrie
