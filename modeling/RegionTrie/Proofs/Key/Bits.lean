import Mathlib.Data.BitVec
import RegionTrie.Key.Octets
import RegionTrie.Key.Word

/-!
# Keys as bit strings

The arithmetic that makes keys and masks from numbers is that of bit strings, for words, which are
shifted, as well as for octets, which are taken apart byte by byte. So what a trie does with a key
depends on the bits alone, and a word behaves as the octets that begin with it and go on with zeros.

## Main definitions

* `LawfulPrefixKey`: what keys and masks made from numbers are as bit strings
* `numberBits`, `bitsNumber`: the bits of a number, and the number that bits read as
* `Octets.ofWord`: a word followed by zeros

## Main results

* the `LawfulPrefixKey` instances of `UInt32`, `V4`, `Octets` and `V6`
* `bitsNumber_numberBits`, `numberBits_bitsNumber`: the two are inverse to each other
* `PrefixKey.selected_ofPrefix`: the bits of a prefix made from a number are those of the number
* `Octets.selected_ofWord`: a word and a mask select the same bits with zeros after them
-/

namespace RegionTrie

/-! ## Bit vectors -/

/-- A mask has ones up to its length, and zeros from there on. -/
theorem getMsbD_maskBits {w len i : Nat} (hi : i < w) :
    (maskBits w len).getMsbD i = decide (i < len) := by
  rw [maskBits, BitVec.getMsbD_shiftLeft, BitVec.getMsbD_allOnes]
  exact decide_eq_decide.mpr (by omega)

/-- A prefix starts with the low bits of its number, the most significant of them first, and goes
on with zeros. -/
theorem getMsbD_ofPrefixBits {w limit number len i : Nat} (hlimit : limit ≤ w)
    (hlen : len ≤ limit) :
    (ofPrefixBits w limit number len).getMsbD i =
      (decide (i < len) && number.testBit (len - 1 - i)) := by
  unfold ofPrefixBits
  by_cases hzero : len = 0
  · simp [hzero]
  · rw [if_neg hzero, BitVec.getMsbD_shiftLeft, Nat.min_eq_left hlen, BitVec.getMsbD_eq_getLsbD,
      BitVec.getLsbD_ofNat]
    by_cases hin : i < len
    · have hplace : w - 1 - (i + (w - len)) = len - 1 - i := by omega
      have hlow : len - 1 - i < w := by omega
      have hshift : i + (w - len) < w := by omega
      simp [hplace, hlow, hshift, hin]
    · have hshift : ¬ i + (w - len) < w := by omega
      simp [hshift, hin]

/-! ## Lawful keys -/

/-- Keys and masks made from numbers are the bit strings that they are meant to be. -/
class LawfulPrefixKey (K : Type) [PrefixKey K] : Prop where
  bit_mask (len i : Nat) : i < PrefixKey.width K →
    PrefixKey.bit (PrefixKey.mask len : K) i = decide (i < len)
  /-- Numbers have 64 bits, so no prefix is longer than that. -/
  bit_ofPrefix (number len i : Nat) : len ≤ min (PrefixKey.width K) 64 → i < PrefixKey.width K →
    PrefixKey.bit (PrefixKey.ofPrefix number len : K) i =
      (decide (i < len) && number.testBit (len - 1 - i))

instance : LawfulPrefixKey UInt32 where
  bit_mask _ _ hi := getMsbD_maskBits hi
  bit_ofPrefix _ _ _ hlen _ :=
    getMsbD_ofPrefixBits (Nat.le_refl 32) (Nat.le_trans hlen (Nat.min_le_left _ _))

instance : LawfulPrefixKey V4 where
  bit_mask := LawfulPrefixKey.bit_mask (K := UInt32)
  bit_ofPrefix := LawfulPrefixKey.bit_ofPrefix (K := UInt32)

/-- The bits of the octets of a bit vector are those of the vector. -/
theorem Octets.bit_ofBits (b : BitVec 128) {i : Nat} (hi : i < 128) :
    (Octets.ofBits b).bit i = b.getMsbD i := by
  have hbyte : i / 8 < 16 := by omega
  have hfits : 8 * (15 - i / 8) + 8 - i % 8 ≤ 128 := by omega
  have hplace : 128 - (8 * (15 - i / 8) + 8 - i % 8) = i := by omega
  have hbit : i % 8 < 8 := Nat.mod_lt i (by decide)
  simp [Octets.bit, Octets.ofBits, hbyte, BitVec.getMsbD_extractLsb', hbit, hfits, hplace]

instance : LawfulPrefixKey Octets where
  bit_mask _ _ hi := (Octets.bit_ofBits _ hi).trans (getMsbD_maskBits hi)
  bit_ofPrefix _ _ _ hlen hi := (Octets.bit_ofBits _ hi).trans
    (getMsbD_ofPrefixBits (by decide) (Nat.le_trans hlen (Nat.min_le_right _ _)))

instance : LawfulPrefixKey V6 where
  bit_mask := LawfulPrefixKey.bit_mask (K := Octets)
  bit_ofPrefix := LawfulPrefixKey.bit_ofPrefix (K := Octets)

/-! ## Numbers and their bits -/

/-- The low bits of a number, the most significant of them first. -/
def numberBits (number len : Nat) : List Bool :=
  (List.range len).map fun i => number.testBit (len - 1 - i)

/-- The number that bits read as, the most significant one first. -/
def bitsNumber (bits : List Bool) : Nat :=
  bits.foldl (fun number bit => 2 * number + bit.toNat) 0

@[simp] theorem length_numberBits (number len : Nat) : (numberBits number len).length = len := by
  simp [numberBits]

theorem numberBits_succ (number len : Nat) :
    numberBits number (len + 1) = numberBits (number / 2) len ++ [number.testBit 0] := by
  rw [numberBits, List.range_succ, List.map_append]
  refine congrArg₂ (· ++ ·) (List.map_congr_left fun i hi => ?_) (by simp)
  have hi : i < len := List.mem_range.mp hi
  have hplace : len + 1 - 1 - i = (len - 1 - i) + 1 := by omega
  rw [hplace, Nat.testBit_succ]

theorem bitsNumber_concat (bits : List Bool) (bit : Bool) :
    bitsNumber (bits ++ [bit]) = 2 * bitsNumber bits + bit.toNat := by
  rw [bitsNumber, List.foldl_append]
  rfl

theorem bitsNumber_lt (bits : List Bool) : bitsNumber bits < 2 ^ bits.length := by
  induction bits using List.reverseRecOn with
  | nil => exact Nat.one_pos
  | append_singleton bits bit ih =>
    have hbit := Bool.toNat_lt bit
    rw [bitsNumber_concat, List.length_append, List.length_singleton, Nat.pow_succ]
    omega

/-- Numbers of so many bits are read back from their bits. -/
theorem bitsNumber_numberBits {number len : Nat} (h : number < 2 ^ len) :
    bitsNumber (numberBits number len) = number := by
  induction len generalizing number with
  | zero =>
    obtain rfl : number = 0 := by simpa using h
    rfl
  | succ len ih =>
    have hhalf : number / 2 < 2 ^ len := by
      rw [Nat.pow_succ] at h
      omega
    have hsplit := Nat.div_add_mod number 2
    rw [numberBits_succ, bitsNumber_concat, ih hhalf, Nat.testBit_zero]
    rcases Nat.mod_two_eq_zero_or_one number with hlow | hlow <;> simp [hlow] <;> omega

/-- Bits are those of the number that they read as. -/
theorem numberBits_bitsNumber (bits : List Bool) :
    numberBits (bitsNumber bits) bits.length = bits := by
  induction bits using List.reverseRecOn with
  | nil => rfl
  | append_singleton bits bit ih =>
    have hhalf : (2 * bitsNumber bits + bit.toNat) / 2 = bitsNumber bits := by
      have hbit := Bool.toNat_lt bit
      omega
    have hlow : (2 * bitsNumber bits + bit.toNat).testBit 0 = bit := by
      rw [Nat.testBit_zero]
      cases bit <;> simp
    rw [bitsNumber_concat, List.length_append, List.length_singleton, numberBits_succ, hhalf, ih,
      hlow]

/-! ## Masks and what they select -/

namespace PrefixKey

variable {K : Type} [PrefixKey K]

/-- The length of a mask is read off its bits. -/
theorem maskLength_eq_bits (mask : K) : maskLength mask = ((bits mask).takeWhile id).length := by
  rw [bits, List.takeWhile_map, List.length_map]
  rfl

/-- A mask is as long as its leading ones. -/
theorem maskLength_eq {mask : K} {len : Nat} (hlen : len ≤ width K)
    (hones : ∀ i, i < len → bit mask i = true) (hstop : len < width K → bit mask len = false) :
    maskLength mask = len := by
  obtain ⟨rest, hrest⟩ := Nat.exists_eq_add_of_le hlen
  rw [maskLength, hrest, List.range_add,
    List.takeWhile_append_of_pos fun i hi => hones i (List.mem_range.mp hi), List.length_append,
    List.length_range]
  cases rest with
  | zero => simp
  | succ rest => simp [List.range_succ_eq_map, hstop (by omega)]

variable [LawfulPrefixKey K]

theorem maskLength_mask {len : Nat} (hlen : len ≤ width K) : maskLength (mask len : K) = len := by
  apply maskLength_eq hlen
  · intro i hi
    rw [LawfulPrefixKey.bit_mask len i (Nat.lt_of_lt_of_le hi hlen), decide_eq_true hi]
  · intro hlt
    rw [LawfulPrefixKey.bit_mask len len hlt, decide_eq_false (Nat.lt_irrefl len)]

/-- A prefix made from a number has the bits of that number, whatever type the key is of. -/
theorem selected_ofPrefix {number len : Nat} (hlen : len ≤ min (width K) 64) :
    selected (ofPrefix number len : K) (mask len) = numberBits number len := by
  have hwidth : len ≤ width K := Nat.le_trans hlen (Nat.min_le_left _ _)
  rw [selected, maskLength_mask hwidth]
  refine List.map_congr_left fun i hi => ?_
  have hi := List.mem_range.mp hi
  rw [LawfulPrefixKey.bit_ofPrefix number len i hlen (Nat.lt_of_lt_of_le hi hwidth),
    decide_eq_true hi, Bool.true_and]

end PrefixKey

/-! ## Words among octets -/

/-- The octets that begin with a word and are zero after it. -/
def Octets.ofWord (word : UInt32) : Octets :=
  Octets.ofBits (word.toBitVec ++ 0#96)

namespace Octets

open PrefixKey

theorem bit_ofWord (word : UInt32) {i : Nat} (hi : i < 128) :
    (ofWord word).bit i = if 32 ≤ i then false else PrefixKey.bit word i := by
  refine (bit_ofBits _ hi).trans ?_
  rw [BitVec.getMsbD_append, BitVec.getMsbD_zero]
  rfl

theorem bits_ofWord (word : UInt32) :
    bits (ofWord word) = bits word ++ List.replicate 96 false := by
  show (List.range (32 + 96)).map (ofWord word).bit = (List.range 32).map (PrefixKey.bit word) ++ _
  rw [List.range_add, List.map_append, List.map_map]
  refine congrArg₂ (· ++ ·) ?_ ?_
  · refine List.map_congr_left fun i hi => ?_
    have hi : i < 32 := List.mem_range.mp hi
    rw [bit_ofWord word (by omega), if_neg (Nat.not_le.mpr hi)]
  · refine List.eq_replicate_iff.mpr ⟨by simp, ?_⟩
    intro b hb
    obtain ⟨i, hi, rfl⟩ := List.mem_map.mp hb
    have hi : i < 96 := List.mem_range.mp hi
    rw [Function.comp_apply, bit_ofWord word (by omega), if_pos (Nat.le_add_right 32 i)]

/-- Zeros after a mask do not change its length. -/
theorem maskLength_ofWord (mask : UInt32) : maskLength (ofWord mask) = maskLength mask := by
  rw [maskLength_eq_bits, maskLength_eq_bits, bits_ofWord, List.takeWhile_append]
  split
  case isTrue hall => simp [hall]
  case isFalse => rfl

/-- Zeros after a key and a mask do not change what the mask selects. -/
theorem selected_ofWord (key mask : UInt32) :
    selected (ofWord key) (ofWord mask) = selected key mask := by
  rw [selected_eq_take, selected_eq_take, bits_ofWord, maskLength_ofWord,
    List.take_append_of_le_length]
  rw [length_bits]
  exact maskLength_le mask

end Octets

end RegionTrie
