/-!
# Keys

A key is a bit string of fixed width, read from its most significant bit on. Keys serve as masks
too: a mask selects the prefix of a key that lies under the leading one bits of the mask, and
whatever follows the first clear bit of a mask means nothing.

## Main definitions

* `PrefixKey`: keys of a type, with `bit`, `ofPrefix` and `mask`
* `PrefixKey.bits`: all bits of a key in order
* `PrefixKey.maskLength`: the number of leading one bits of a mask
* `PrefixKey.selected`: the prefix of a key selected by a mask
* `PrefixKey.significant`: a walk along the bits of a key goes on at a depth
* `ofPrefixBits`, `maskBits`: the arithmetic of prefixes on bit vectors
-/

namespace RegionTrie

/-- Bit strings of a fixed width. -/
class PrefixKey (K : Type) where
  /-- The number of bits of every key. -/
  width : Nat
  /-- A bit of a key, counted from the most significant one. -/
  bit : K → Nat → Bool
  /-- The key that starts with the low `len` bits of a number and is zero after them. -/
  ofPrefix : (number len : Nat) → K
  /-- The mask with `len` leading one bits, all ones from the width on. -/
  mask : (len : Nat) → K
  /-- The key whose bits read as this number. -/
  ofNat : Nat → K
  /-- The number that the bits of a key read as. -/
  toNat : K → Nat

namespace PrefixKey

variable {K : Type} [PrefixKey K]

/-- The bits of a key, the most significant one first. -/
def bits (key : K) : List Bool :=
  (List.range (width K)).map (bit key)

/-- The number of leading one bits of a mask. -/
def maskLength (mask : K) : Nat :=
  ((List.range (width K)).takeWhile (bit mask)).length

/-- The bits of a key that lie under the leading one bits of a mask. -/
def selected (key mask : K) : List Bool :=
  (List.range (maskLength mask)).map (bit key)

/-- The key has a bit at a depth, and the mask a one. A walk along the bits of a key tests this
depth by depth, from zero on. -/
def significant (mask : K) (depth : Nat) : Bool :=
  decide (depth < width K) && bit mask depth

theorem lt_width_of_significant {mask : K} {depth : Nat} (h : significant mask depth = true) :
    depth < width K := by
  rw [significant, Bool.and_eq_true, decide_eq_true_iff] at h
  exact h.1

theorem length_bits (key : K) : (bits key).length = width K := by
  simp [bits]

theorem maskLength_le (mask : K) : maskLength mask ≤ width K := by
  have h := (List.takeWhile_sublist (l := List.range (width K)) (bit mask)).length_le
  simpa [maskLength] using h

theorem selected_eq_take (key mask : K) : selected key mask = (bits key).take (maskLength mask) := by
  simp [selected, bits, ← List.map_take, List.take_range, Nat.min_eq_left (maskLength_le mask)]

theorem length_selected (key mask : K) : (selected key mask).length = maskLength mask := by
  simp [selected]

end PrefixKey

/-- The low `len` bits of a number, moved to the most significant end of `w` bits. Higher bits of
the number are lost where they do not fit, and `len` counts as `limit` if it is larger. -/
def ofPrefixBits (w limit number len : Nat) : BitVec w :=
  if len = 0 then 0 else BitVec.ofNat w number <<< (w - min len limit)

/-- The bit vector with `len` leading ones. -/
def maskBits (w len : Nat) : BitVec w :=
  BitVec.allOnes w <<< (w - len)

end RegionTrie
