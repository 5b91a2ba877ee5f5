/-!
# Memory

The contents of all addresses, kept as the writes made so far. An address shows the byte of the
newest write that covers it; one that was never written shows the backdrop, a byte about which
nothing is promised.

## Main definitions

* `Memory`: a backdrop and the writes, newest first
* `Memory.byteAt`, `Memory.read`: the contents of an address and of a range
* `Memory.write`, `Memory.fill`: storing bytes

## Main results

* `byteAt_write_of_covers`, `byteAt_write_of_not_covers`: a write is seen inside its range, and
  nowhere else
* `read_eq_map_byteAt`: a range shows what its addresses show
-/

namespace RegionTrie

/-- Bytes stored from the address `start` on. -/
structure Write where
  start : Nat
  bytes : Array UInt8

/-- The write covers some of the `size` addresses from `start` on. -/
def Write.meets (w : Write) (start size : Nat) : Bool :=
  w.start < start + size && start < w.start + w.bytes.size

/-- The contents of memory: what the writes made so far, newest first, left on a backdrop. -/
structure Memory where
  backdrop : UInt8 := 0
  writes : List Write := []

namespace Memory

/-- The byte that a list of writes, newest first, shows at an address. -/
def lookup (backdrop : UInt8) (writes : List Write) (address : Nat) : UInt8 :=
  match writes with
  | [] => backdrop
  | w :: older =>
    if w.start ≤ address then
      match w.bytes[address - w.start]? with
      | some byte => byte
      | none => lookup backdrop older address
    else lookup backdrop older address

/-- The contents of one address. -/
def byteAt (m : Memory) (address : Nat) : UInt8 :=
  lookup m.backdrop m.writes address

/-- The contents of `size` addresses from `start` on. Only writes that cover some of them are
looked at. -/
def read (m : Memory) (start size : Nat) : List UInt8 :=
  (List.range' start size).map (lookup m.backdrop (m.writes.filter fun w => w.meets start size))

/-- Store bytes from `start` on. -/
def write (m : Memory) (start : Nat) (bytes : Array UInt8) : Memory :=
  { m with writes := ⟨start, bytes⟩ :: m.writes }

/-- Store `size` copies of one byte from `start` on. -/
def fill (m : Memory) (start size : Nat) (byte : UInt8) : Memory :=
  m.write start (Array.replicate size byte)

theorem byteAt_write_of_covers (m : Memory) {start address : Nat} {bytes : Array UInt8}
    (hle : start ≤ address) (hlt : address - start < bytes.size) :
    (m.write start bytes).byteAt address = bytes[address - start] := by
  simp [byteAt, write, lookup, hle, hlt]

theorem byteAt_write_of_not_covers (m : Memory) {start address : Nat} {bytes : Array UInt8}
    (h : address < start ∨ start + bytes.size ≤ address) :
    (m.write start bytes).byteAt address = m.byteAt address := by
  simp only [byteAt, write, lookup]
  split
  · next hle =>
    rw [Array.getElem?_eq_none (by omega)]
  · rfl

theorem lookup_filter_meets (backdrop : UInt8) (writes : List Write) {start size address : Nat}
    (hle : start ≤ address) (hlt : address < start + size) :
    lookup backdrop (writes.filter fun w => w.meets start size) address =
      lookup backdrop writes address := by
  induction writes with
  | nil => rfl
  | cons w older ih =>
    by_cases hmeets : w.meets start size = true
    · rw [List.filter_cons, if_pos hmeets, lookup, lookup, ih]
    · rw [List.filter_cons, if_neg hmeets, ih, lookup]
      split
      · next hstart =>
        have hsize : w.bytes.size ≤ address - w.start := by
          simp only [Write.meets, Bool.and_eq_true, decide_eq_true_eq, not_and] at hmeets
          omega
        rw [Array.getElem?_eq_none hsize]
      · rfl

theorem read_eq_map_byteAt (m : Memory) (start size : Nat) :
    m.read start size = (List.range' start size).map m.byteAt := by
  refine List.map_congr_left fun address h => ?_
  rw [List.mem_range'_1] at h
  exact lookup_filter_meets m.backdrop m.writes h.1 h.2

theorem length_read (m : Memory) (start size : Nat) : (m.read start size).length = size := by
  simp [read]

end Memory

end RegionTrie
