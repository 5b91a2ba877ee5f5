import RegionTrie.Pool.Config

/-!
# Blocks

A block hands out its bytes from low to high addresses. It never takes single ranges back; it can
only be rewound as a whole.

## Main definitions

* `Block`: base address, first free byte, end, and the number of searches it has missed
* `Block.fresh`, `Block.rewind`: a block from which nothing is handed out
* `Block.serve?`: hand out a range if it fits
-/

namespace RegionTrie

/-- A block of memory. Bytes below `last` are taken, those from `last` up to `stop` are free. -/
structure Block where
  base : Nat
  last : Nat
  stop : Nat
  /-- Searches that this block could not satisfy since it was created or rewound. -/
  missed : Nat
deriving DecidableEq

namespace Block

/-- The block in memory of the given size from `base` on, nothing handed out yet. -/
def fresh (base size : Nat) : Block :=
  ⟨base, base + blockHeaderSize, base + size, 0⟩

/-- The block with nothing handed out. -/
def rewind (b : Block) : Block :=
  { b with last := b.base + blockHeaderSize, missed := 0 }

/-- The block after one more search that it could not satisfy. -/
def miss (b : Block) : Block :=
  { b with missed := b.missed + 1 }

/-- The bytes never handed out. -/
def unused (b : Block) : Nat :=
  b.stop - b.last

/-- Where the next range of the given alignment would start. -/
def next (b : Block) (align : Nat) : Nat :=
  alignUp b.last align

/-- The block after the next range of this size and alignment was handed out. -/
def bump (b : Block) (size align : Nat) : Block :=
  { b with last := b.next align + size }

/-- Hand out a range if it fits: its start and the block that is left. -/
def serve? (b : Block) (size align : Nat) : Option (Nat × Block) :=
  if b.next align + size ≤ b.stop then some (b.next align, b.bump size align) else none

end Block

end RegionTrie
