import RegionTrie.Key.Basic

/-!
# Keys of one word

Plain 32-bit numbers, and IPv4 addresses, which are such numbers in another guise.

## Main definitions

* the `PrefixKey` instances of `UInt32` and of `V4`
-/

namespace RegionTrie

instance : PrefixKey UInt32 where
  width := 32
  bit key i := key.toBitVec.getMsbD i
  ofPrefix number len := ⟨ofPrefixBits 32 32 number len⟩
  mask len := ⟨maskBits 32 len⟩
  ofNat n := UInt32.ofNat n
  toNat key := key.toNat

/-- An IPv4 address. -/
structure V4 where
  word : UInt32
deriving DecidableEq

instance : PrefixKey V4 where
  width := PrefixKey.width UInt32
  bit key := PrefixKey.bit key.word
  ofPrefix number len := ⟨PrefixKey.ofPrefix number len⟩
  mask len := ⟨PrefixKey.mask len⟩
  ofNat n := ⟨PrefixKey.ofNat n⟩
  toNat key := PrefixKey.toNat key.word

end RegionTrie
