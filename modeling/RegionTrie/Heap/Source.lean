import RegionTrie.Layout

/-!
# Raw sources

The supplier of memory underneath a region. A region asks it for blocks, for large buffers and
for nothing else, so any supplier that keeps track of its own state can stand here: the system's
heap, a numbered store, or one that declines on purpose.

## Main definitions

* `RawSource`: granting, taking back, and the page size
* `fallbackPageSize`: the page size of a platform that reports none
-/

namespace RegionTrie

/-- A supplier of raw memory with states in `σ`. -/
class RawSource (σ : Type) where
  /-- Answer a request: the base address of the memory granted, or `none` for a refusal. Either
  may change what the source does next. -/
  allocate : σ → Layout → Option Nat × σ
  /-- Take a granted buffer back. -/
  release : σ → Buffer → σ
  /-- The page size that the source works with. -/
  pageSize : σ → Nat

/-- The page size assumed where the platform reports none. -/
def fallbackPageSize : Nat := 4096

end RegionTrie
