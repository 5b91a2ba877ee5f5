/-!
# Ranges of addresses and memory layouts

Addresses are natural numbers. A layout asks for a number of bytes at an alignment; it is valid
when the alignment is a power of two and the bytes, rounded up to it, stay below half of the
address space. A buffer is a base address together with the layout it was granted for.

## Main definitions

* `alignUp`: rounding up to a multiple
* `Extent`: a range of addresses
* `Layout`, `Layout.Valid`: what a request for memory says, and when it makes sense
* `Buffer`: a granted request

## Main results

* `le_alignUp`, `alignUp_lt`, `dvd_alignUp`: `alignUp n a` is the least multiple of `a` from `n` on
-/

namespace RegionTrie

/-- The least multiple of `align` that is at least `n`. -/
def alignUp (n align : Nat) : Nat :=
  (n + align - 1) / align * align

theorem dvd_alignUp (n align : Nat) : align ∣ alignUp n align :=
  Nat.dvd_mul_left align _

theorem le_alignUp (n : Nat) {align : Nat} (h : 0 < align) : n ≤ alignUp n align := by
  have hdiv := Nat.div_add_mod (n + align - 1) align
  have hmod := Nat.mod_lt (n + align - 1) h
  rw [Nat.mul_comm] at hdiv
  unfold alignUp
  omega

theorem alignUp_lt (n : Nat) {align : Nat} (h : 0 < align) : alignUp n align < n + align := by
  have hle := Nat.div_mul_le_self (n + align - 1) align
  unfold alignUp
  omega

/-- The range of `size` addresses from `start` on. -/
structure Extent where
  start : Nat
  size : Nat
deriving DecidableEq

/-- The first address after the range. -/
def Extent.stop (e : Extent) : Nat :=
  e.start + e.size

/-- The address lies in the range. -/
def Extent.Covers (e : Extent) (address : Nat) : Prop :=
  e.start ≤ address ∧ address < e.stop

instance (e : Extent) (address : Nat) : Decidable (e.Covers address) :=
  inferInstanceAs (Decidable (_ ∧ _))

/-- A request for `size` bytes whose first address is a multiple of `align`. -/
structure Layout where
  size : Nat
  align : Nat
deriving DecidableEq

namespace Layout

/-- The size of the largest layout with alignment one, plus one: half of a 64-bit address space. -/
def bound : Nat := 1 <<< 63

/-- The alignment is a power of two, and the size rounded up to it does not pass `bound`. -/
def Valid (l : Layout) : Prop :=
  l.align.isPowerOfTwo ∧ l.size + l.align ≤ bound

instance (l : Layout) : Decidable l.Valid :=
  inferInstanceAs (Decidable (_ ∧ _))

/-- The same request with its alignment raised to at least `align`. -/
def alignTo (l : Layout) (align : Nat) : Layout :=
  { l with align := max l.align align }

end Layout

/-- Memory granted for a layout, from the address `base` on. -/
structure Buffer where
  base : Nat
  layout : Layout
deriving DecidableEq

/-- The addresses of a buffer. -/
def Buffer.extent (b : Buffer) : Extent :=
  ⟨b.base, b.layout.size⟩

end RegionTrie
