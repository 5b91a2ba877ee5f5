import RegionTrie.Heap.Source

/-!
# A numbered source

A raw source that numbers the buffers it grants, never uses an address twice, and declines as
told: above a limit on size and alignment, or once a budget of grants is spent.

## Main definitions

* `Tracker`: the state of such a source
* `Tracker.withBudget`: change how many grants are left
* `Tracker.locate`: an address as a buffer's number and an offset in it
-/

namespace RegionTrie

/-- The size and the alignment above which such a source declines unless it is told otherwise. -/
def Tracker.defaultLimit : Nat := 1 <<< 20

/-- The state of a numbered source. -/
structure Tracker where
  pageSize : Nat := fallbackPageSize
  /-- How many more requests are granted; `none` sets no bound. -/
  budget : Option Nat := none
  limit : Nat := Tracker.defaultLimit
  /-- Every buffer granted so far with its number, newest first. -/
  issued : List (Nat × Buffer) := []
  /-- The first address after the newest buffer. -/
  frontier : Nat := 0

namespace Tracker

/-- Every buffer is aligned to at least this. -/
def leastAlign : Nat := 64

/-- Addresses left unused between two buffers, so that no arithmetic on one leads to another. -/
def gap : Nat := 1 <<< 32

/-- The number of addresses there are. -/
def addressSpace : Nat := 1 <<< 64

/-- The number of the next buffer. -/
def nextNumber (t : Tracker) : Nat :=
  match t.issued with
  | [] => 0
  | (n, _) :: _ => n + 1

/-- Where the next buffer for a layout starts. -/
def nextBase (t : Tracker) (l : Layout) : Nat :=
  alignUp (t.frontier + gap) (max l.align leastAlign)

/-- The source declines what passes its limit or the address space, and everything once the
budget is spent. -/
def declines (t : Tracker) (l : Layout) : Bool :=
  t.budget == some 0 || t.limit < l.size || t.limit < l.align ||
    addressSpace < t.nextBase l + l.size

/-- Grant the next buffer, if the source does not decline. -/
def allocate (t : Tracker) (l : Layout) : Option Nat × Tracker :=
  if t.declines l then (none, t)
  else
    let base := t.nextBase l
    (some base,
      { t with
        budget := t.budget.map (· - 1)
        issued := (t.nextNumber, ⟨base, l⟩) :: t.issued
        frontier := base + l.size })

instance : RawSource Tracker where
  allocate := Tracker.allocate
  release t _ := t
  pageSize := Tracker.pageSize

/-- Change how many grants are left before everything is declined; `none` sets no bound. -/
def withBudget (t : Tracker) (budget : Option Nat) : Tracker :=
  { t with budget }

/-- The number of the buffer to which an address belongs, and the offset of the address in it. The
first address after a buffer counts as its own. -/
def locate (t : Tracker) (address : Nat) : Option (Nat × Nat) :=
  (t.issued.find? fun (_, b) => b.base ≤ address && address ≤ b.extent.stop).map
    fun (n, b) => (n, address - b.base)

end Tracker

end RegionTrie
