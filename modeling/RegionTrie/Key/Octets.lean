import RegionTrie.Key.Basic

/-!
# Keys of sixteen octets

Strings of sixteen octets, the most significant one first, and IPv6 addresses, which are such
strings in another guise.

## Main definitions

* `Octets`: sixteen octets
* `Octets.ofBits`, `Octets.toNat`: from a bit vector, and as a number
* the `PrefixKey` instances of `Octets` and of `V6`
-/

namespace RegionTrie

/-- Sixteen octets, the most significant one first. -/
structure Octets where
  bytes : Vector UInt8 16
deriving DecidableEq

namespace Octets

/-- The octets of a bit vector. -/
def ofBits (b : BitVec 128) : Octets :=
  ⟨Vector.ofFn fun i => ⟨b.extractLsb' (8 * (15 - i)) 8⟩⟩

/-- The octets, read as a number. -/
def toNat (o : Octets) : Nat :=
  o.bytes.toList.foldl (fun n byte => n * 256 + byte.toNat) 0

/-- A bit of the octets: the octet that holds it, then the bit inside that octet, both counted from
the most significant one. -/
def bit (o : Octets) (i : Nat) : Bool :=
  match o.bytes[i / 8]? with
  | some byte => byte.toBitVec.getMsbD (i % 8)
  | none => false

end Octets

instance : PrefixKey Octets where
  width := 128
  bit := Octets.bit
  ofPrefix number len := Octets.ofBits (ofPrefixBits 128 64 number len)
  mask len := Octets.ofBits (maskBits 128 len)
  ofNat n := Octets.ofBits (BitVec.ofNat 128 n)
  toNat := Octets.toNat

/-- An IPv6 address. -/
structure V6 where
  octets : Octets
deriving DecidableEq

instance : PrefixKey V6 where
  width := PrefixKey.width Octets
  bit key := PrefixKey.bit key.octets
  ofPrefix number len := ⟨PrefixKey.ofPrefix number len⟩
  mask len := ⟨PrefixKey.mask len⟩
  ofNat n := ⟨PrefixKey.ofNat n⟩
  toNat key := PrefixKey.toNat key.octets

end RegionTrie
