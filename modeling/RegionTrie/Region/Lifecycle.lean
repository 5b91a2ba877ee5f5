import RegionTrie.Region.Cleanup

/-!
# The end of a region

A region can be emptied and used again, or closed. Emptying keeps the blocks and runs no handler;
closing runs the handlers and gives everything back.

## Main definitions

* `Region.reset`: forget every allocation and keep the blocks
* `Region.close`: run the cleanups and give all memory back
-/

namespace RegionTrie.Region

variable {σ : Type} [RawSource σ]

/-- Forget every allocation. Large buffers go back to the source, handlers are disposed of without
running, and every block is rewound. -/
def reset (r : Region σ) : Region σ :=
  let r := r.releaseLarge.discardCleanups
  let chain := r.pool.chain.rewind
  { r with pool := { r.pool with chain } }.note (.poolReset chain.blocks.length)

/-- Give every block back, in the order of the chain. -/
def releaseBlocks (r : Region σ) : Heap σ :=
  r.pool.chain.blocks.foldl
    (fun heap b =>
      (heap.note (.blockFreed b.base b.unused)).release ⟨b.base, r.pool.config.blockLayout⟩)
    r.heap

/-- Run every armed handler, newest first, then give back the large buffers and the blocks. -/
def close (r : Region σ) : Heap σ :=
  r.runCleanups.releaseLarge.releaseBlocks.note .poolDestroyed

end RegionTrie.Region
