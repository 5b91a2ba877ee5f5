import RegionTrie.Text.Record
import RegionTrie.Layout

/-!
# Pool configuration

The tuning knobs of a pool, and the fixed sizes of its bookkeeping.

## Main definitions

* `PoolConfig`: block size and the two search heuristics
* `blockHeaderSize`, `largeRecordSize`, `cleanupRecordSize`: the bytes that bookkeeping takes
* `leastPoolSize`: the size of the smallest block that can hold its own bookkeeping
-/

namespace RegionTrie

/-- Every block is aligned to this, and no request for more is served from a block. -/
def blockAlign : Nat := 16

/-- The alignment of ordinary requests: one machine word. -/
def wordAlign : Nat := 8

/-- The bytes at the start of every block that are never handed out. -/
def blockHeaderSize : Nat := 32

/-- The bytes that the record of a large buffer takes. -/
def largeRecordSize : Nat := 32

/-- The bytes that a cleanup record takes. -/
def cleanupRecordSize : Nat := 40

/-- A block must hold its header and one bookkeeping record of either kind. -/
def leastPoolSize : Nat :=
  blockHeaderSize + alignUp (max largeRecordSize cleanupRecordSize) blockAlign

/-- The tuning knobs of a pool. -/
structure PoolConfig where
  /-- The size of every block, header included. -/
  size : Nat
  /-- A block stops being the start of searches once it has missed more often than this. -/
  skipAfterFailures : Nat := 4
  /-- How many large records are looked at for a free one before another is linked. -/
  largeReuseProbes : Nat := 5
deriving DecidableEq

namespace PoolConfig

/-- The block size used when none is given. -/
def defaultSize : Nat := 16 * 1024

/-- The default heuristics with the given block size. -/
def withSize (size : Nat) : PoolConfig :=
  { size }

instance : Inhabited PoolConfig :=
  ⟨withSize defaultSize⟩

/-- The layout of every block. -/
def blockLayout (c : PoolConfig) : Layout :=
  ⟨c.size, blockAlign⟩

/-- The configuration as a record. -/
def inspect (c : PoolConfig) : String :=
  Text.record "PoolConfig"
    [("size", toString c.size), ("skip_after_failures", toString c.skipAfterFailures),
      ("large_reuse_probes", toString c.largeReuseProbes)]

end PoolConfig

end RegionTrie
