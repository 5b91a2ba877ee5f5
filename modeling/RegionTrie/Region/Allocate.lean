import RegionTrie.Region.Large

/-!
# Allocation

The requests that a user of a region makes. Small ones are served from blocks, the others become
large buffers.

## Main definitions

* `Region.allocate`, `Region.allocatePacked`, `Region.allocateZeroed`: bytes at word alignment,
  bytes at no particular one, and bytes that are zero
* `Region.allocateAligned`: a buffer of its own at any alignment
* `Region.allocateLayout`: whatever suits a layout
-/

namespace RegionTrie.Region

variable {σ : Type} [RawSource σ]

/-- A large buffer of so many bytes at word alignment. -/
def allocateOversize (r : Region σ) (size : Nat) : Except Fault Nat × Region σ :=
  let layout : Layout := ⟨size, wordAlign⟩
  if layout.Valid then r.allocateLarge layout else (.error (.invalidLayout size wordAlign), r)

/-- So many bytes at word alignment. -/
def allocate (r : Region σ) (size : Nat) : Except Fault Nat × Region σ :=
  if size ≤ r.pool.largestSmall then r.reserve size wordAlign else r.allocateOversize size

/-- So many bytes; small requests are packed without regard to alignment. -/
def allocatePacked (r : Region σ) (size : Nat) : Except Fault Nat × Region σ :=
  if size ≤ r.pool.largestSmall then r.reserve size 1 else r.allocateOversize size

/-- So many bytes at word alignment, all of them zero. -/
def allocateZeroed (r : Region σ) (size : Nat) : Except Fault Nat × Region σ :=
  match r.allocate size with
  | (.ok start, r) => (.ok start, r.store start (Array.replicate size 0))
  | (.error fault, r) => (.error fault, r)

/-- A large buffer of its own, whatever its size, tracked by a new record. -/
def allocateAligned (r : Region σ) (size align : Nat) : Except Fault Nat × Region σ :=
  let layout : Layout := ⟨size, align⟩
  if 0 < size ∧ layout.Valid then
    match r.heap.allocate layout with
    | (none, heap) => (.error (.exhausted size align), { r with heap })
    | (some base, heap) => { r with heap }.link ⟨base, layout⟩
  else (.error (.invalidLayout size align), r)

/-- Memory for a layout. No bytes at all are found at any multiple of the alignment; the alignment
itself is one. -/
def allocateLayout (r : Region σ) (l : Layout) : Except Fault Nat × Region σ :=
  if l.size = 0 then (.ok l.align, r)
  else if l.size ≤ r.pool.largestSmall ∧ l.align ≤ blockAlign then r.reserve l.size l.align
  else if (l.alignTo wordAlign).Valid then r.allocateLarge (l.alignTo wordAlign)
  else (.error (.invalidLayout l.size l.align), r)

/-- Memory for a layout, holding the given bytes. -/
def allocateCopy (r : Region σ) (align : Nat) (bytes : List UInt8) : Except Fault Nat × Region σ :=
  match r.allocateLayout ⟨bytes.length, align⟩ with
  | (.ok start, r) => (.ok start, r.store start bytes.toArray)
  | (.error fault, r) => (.error fault, r)

end RegionTrie.Region
