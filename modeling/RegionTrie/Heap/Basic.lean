import RegionTrie.Heap.Source
import RegionTrie.Heap.Journal
import RegionTrie.Memory

/-!
# The heap

A heap is a raw source seen from above: the source's state, the buffers that it has granted and
not taken back, the contents of memory, and the journal of what happened so far.

## Main definitions

* `Heap`: source, live buffers, memory and journal
* `Heap.allocate`, `Heap.release`: the two calls of the source
* `Heap.record`, `Heap.note`: entries of the journal that call nothing
* `Heap.effectsSince`: what was written into the journal from some moment on
-/

namespace RegionTrie

/-- A raw source with its live buffers, the contents of memory, and the journal, newest entry
first. -/
structure Heap (σ : Type) where
  source : σ
  live : List Buffer := []
  memory : Memory := {}
  journal : List Effect := []

namespace Heap

variable {σ : Type}

/-- Write an entry into the journal. -/
def record (h : Heap σ) (e : Effect) : Heap σ :=
  { h with journal := e :: h.journal }

/-- Write a diagnostic into the journal. -/
def note (h : Heap σ) (e : Event) : Heap σ :=
  h.record (.noted e)

/-- Store bytes from an address on. -/
def store (h : Heap σ) (start : Nat) (bytes : Array UInt8) : Heap σ :=
  { h with memory := h.memory.write start bytes }

/-- The entries of the journal after the first `n`, in order. -/
def effectsSince (h : Heap σ) (n : Nat) : List Effect :=
  (h.journal.take (h.journal.length - n)).reverse

variable [RawSource σ]

/-- The page size of the source. -/
def pageSize (h : Heap σ) : Nat :=
  RawSource.pageSize h.source

/-- Ask the source for memory. A granted buffer is live from then on. -/
def allocate (h : Heap σ) (l : Layout) : Option Nat × Heap σ :=
  match RawSource.allocate h.source l with
  | (some base, source) =>
    (some base, { h with source, live := ⟨base, l⟩ :: h.live }.record (.granted ⟨base, l⟩))
  | (none, source) => (none, { h with source }.record (.declined l))

/-- Give a buffer back to the source. -/
def release (h : Heap σ) (b : Buffer) : Heap σ :=
  { h with source := RawSource.release h.source b, live := h.live.erase b }.record (.released b)

end Heap

end RegionTrie
