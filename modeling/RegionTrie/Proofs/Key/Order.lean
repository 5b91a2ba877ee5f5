import Mathlib.Data.Set.Function
import RegionTrie.Key.Kind
import RegionTrie.Proofs.Key.Bits

/-!
# Prefixes in order

A key reads as a number, most significant bit first, and its bits are those of that number. So the
prefixes of one length are numbered: each of them is made from one number of so many bits, and the
order of the numbers is the order of the prefixes, where the first bit that differs decides.

## Main definitions

* `NumericPrefixKey`: the bits of a key are those of the number that it reads as

## Main results

* the `NumericPrefixKey` instances of `UInt32`, `V4`, `Octets` and `V6`
* `bitsNumber_lt_bitsNumber_iff`: bits of one length are ordered as the numbers that they read as
* `PrefixKey.bijOn_ofPrefix`, `PrefixKey.bits_ofPrefix_lt_iff`: the prefixes of a length are
  numbered, in their order
* `KeyKind.reads_as_bits`: masks, prefixes and keys of every kind are the bits that they stand for
-/

namespace RegionTrie

/-! ## Keys as numbers -/

/-- A key is no more than its bits, and these are the bits of the number that it reads as. -/
class NumericPrefixKey (K : Type) [PrefixKey K] : Prop where
  ext (key other : K) :
    (∀ i, i < PrefixKey.width K → PrefixKey.bit key i = PrefixKey.bit other i) → key = other
  bit_eq_testBit (key : K) (i : Nat) : i < PrefixKey.width K →
    PrefixKey.bit key i = (PrefixKey.toNat key).testBit (PrefixKey.width K - 1 - i)

/-- The bits of a vector, from the most significant one on, are those of its number. -/
theorem getMsbD_eq_testBit {w i : Nat} (b : BitVec w) (hi : i < w) :
    b.getMsbD i = b.toNat.testBit (w - 1 - i) := by
  rw [BitVec.getMsbD_eq_getLsbD, decide_eq_true hi, Bool.true_and]
  rfl

instance : NumericPrefixKey UInt32 where
  ext _ _ h := UInt32.toBitVec_inj.mp (BitVec.eq_of_getMsbD_eq h)
  bit_eq_testBit key _ hi := getMsbD_eq_testBit key.toBitVec hi

instance : NumericPrefixKey V4 where
  ext key other h := congrArg V4.mk (NumericPrefixKey.ext key.word other.word h)
  bit_eq_testBit key := NumericPrefixKey.bit_eq_testBit key.word

/-- The number that bytes read as, the most significant one first. -/
def bytesNumber (bytes : List UInt8) : Nat :=
  bytes.foldl (fun n byte => n * 256 + byte.toNat) 0

theorem bytesNumber_concat (bytes : List UInt8) (byte : UInt8) :
    bytesNumber (bytes ++ [byte]) = 2 ^ 8 * bytesNumber bytes + byte.toNat := by
  rw [bytesNumber, List.foldl_append, Nat.mul_comm]
  rfl

/-- A byte stands eight bits further up in the number for every byte that follows it. -/
theorem testBit_bytesNumber (front : List UInt8) (byte : UInt8) (back : List UInt8) {j : Nat}
    (hj : j < 8) :
    (bytesNumber (front ++ byte :: back)).testBit (8 * back.length + j) = byte.toNat.testBit j := by
  induction back using List.reverseRecOn with
  | nil =>
    rw [bytesNumber_concat, Nat.testBit_two_pow_mul_add _ byte.toNat_lt, List.length_nil,
      Nat.mul_zero, Nat.zero_add, if_pos hj]
  | append_singleton back last ih =>
    -- the last byte moves all others up
    have hlength : (back ++ [last]).length = back.length + 1 := by simp
    have hplace : 8 * (back.length + 1) + j - 8 = 8 * back.length + j := by omega
    have hhigh : ¬ 8 * (back.length + 1) + j < 8 := by omega
    rw [← List.cons_append, ← List.append_assoc, bytesNumber_concat,
      Nat.testBit_two_pow_mul_add _ last.toNat_lt, hlength, if_neg hhigh, hplace, ih]

namespace Octets

/-- The octets read as a number whose bits they are. -/
theorem bit_eq_testBit (o : Octets) {i : Nat} (hi : i < 128) :
    o.bit i = o.toNat.testBit (127 - i) := by
  have hbyte : i / 8 < o.bytes.toList.length := by
    rw [Vector.length_toList]
    omega
  have hsplit : o.toNat = bytesNumber (o.bytes.toList.take (i / 8) ++
      o.bytes.toList[i / 8] :: o.bytes.toList.drop (i / 8 + 1)) := by
    rw [List.getElem_cons_drop, List.take_append_drop]
    rfl
  have hplace : 127 - i = 8 * (o.bytes.toList.drop (i / 8 + 1)).length + (8 - 1 - i % 8) := by
    rw [List.length_drop, Vector.length_toList]
    omega
  have hfound : o.bytes[i / 8]? = some o.bytes.toList[i / 8] := by
    rw [← Vector.getElem?_toList, List.getElem?_eq_getElem]
  have hlow : i % 8 < 8 := Nat.mod_lt i (by decide)
  rw [hsplit, hplace, testBit_bytesNumber _ _ _ (by omega), bit, hfound]
  exact getMsbD_eq_testBit _ hlow

/-- Octets with the same bits are the same, byte by byte. -/
theorem ext_bit {o o' : Octets} (h : ∀ i, i < 128 → o.bit i = o'.bit i) : o = o' := by
  refine congrArg Octets.mk (Vector.ext fun k hk => ?_)
  refine UInt8.toBitVec_inj.mp (BitVec.eq_of_getMsbD_eq fun j hj => ?_)
  -- the bit of this byte is found among all bits
  have hdiv : (8 * k + j) / 8 = k := by omega
  have hmod : (8 * k + j) % 8 = j := by omega
  have hbit := h (8 * k + j) (by omega)
  simpa only [bit, hdiv, hmod, Vector.getElem?_eq_getElem hk] using hbit

end Octets

instance : NumericPrefixKey Octets where
  ext _ _ h := Octets.ext_bit h
  bit_eq_testBit o _ hi := o.bit_eq_testBit hi

instance : NumericPrefixKey V6 where
  ext key other h := congrArg V6.mk (NumericPrefixKey.ext key.octets other.octets h)
  bit_eq_testBit key := NumericPrefixKey.bit_eq_testBit key.octets

/-! ## Bits in order -/

theorem bitsNumber_append (bits more : List Bool) :
    bitsNumber (bits ++ more) = bitsNumber bits * 2 ^ more.length + bitsNumber more := by
  induction more using List.reverseRecOn with
  | nil => simp [bitsNumber]
  | append_singleton more bit ih =>
    rw [← List.append_assoc, bitsNumber_concat, ih, bitsNumber_concat, List.length_append,
      List.length_singleton, Nat.pow_succ, ← Nat.mul_assoc]
    omega

theorem bitsNumber_cons (bit : Bool) (bits : List Bool) :
    bitsNumber (bit :: bits) = bit.toNat * 2 ^ bits.length + bitsNumber bits := by
  have hone : bitsNumber [bit] = bit.toNat := by cases bit <;> rfl
  rw [← hone, ← bitsNumber_append, List.singleton_append]

theorem bitsNumber_replicate (n : Nat) : bitsNumber (List.replicate n false) = 0 := by
  induction n with
  | zero => rfl
  | succ n ih => rw [List.replicate_succ, bitsNumber_cons, ih, Bool.toNat_false, Nat.zero_mul]

/-- **Bits of one length are ordered as the numbers that they read as.** -/
theorem bitsNumber_lt_bitsNumber_iff {bits other : List Bool} (h : bits.length = other.length) :
    bitsNumber bits < bitsNumber other ↔ bits < other := by
  induction bits generalizing other with
  | nil =>
    obtain rfl := List.eq_nil_of_length_eq_zero h.symm
    simp
  | cons bit bits ih =>
    cases other with
    | nil => cases h
    | cons bit' other =>
      have hlen : bits.length = other.length := Nat.succ.inj h
      have hlow := bitsNumber_lt bits
      have hlow' := bitsNumber_lt other
      rw [← hlen] at hlow'
      rw [bitsNumber_cons, bitsNumber_cons, ← hlen, List.cons_lt_cons_iff, ← ih hlen, Bool.lt_iff]
      -- the first bit weighs more than all others together
      cases bit <;> cases bit'
      case false.false | true.true => simp
      case false.true =>
        refine iff_of_true ?_ (.inl ⟨rfl, rfl⟩)
        rw [Bool.toNat_false, Bool.toNat_true]
        omega
      case true.false =>
        refine iff_of_false ?_ (by simp)
        rw [Bool.toNat_false, Bool.toNat_true]
        omega

/-! ## Prefixes -/

namespace PrefixKey

variable {K : Type} [PrefixKey K] [LawfulPrefixKey K] {number other len : Nat}

/-- A prefix made from a number goes on with zeros. -/
theorem bits_ofPrefix (hlen : len ≤ min (width K) 64) :
    bits (ofPrefix number len : K) =
      numberBits number len ++ List.replicate (width K - len) false := by
  have hwidth : len ≤ width K := Nat.le_trans hlen (Nat.min_le_left _ _)
  obtain ⟨rest, hrest⟩ := Nat.exists_eq_add_of_le hwidth
  have hbit : ∀ i, i < len + rest → bit (ofPrefix number len : K) i =
      (decide (i < len) && number.testBit (len - 1 - i)) := fun i hi =>
    LawfulPrefixKey.bit_ofPrefix number len i hlen (hrest ▸ hi)
  rw [bits, hrest, List.range_add, List.map_append, List.map_map, Nat.add_sub_cancel_left]
  refine congrArg₂ (· ++ ·) (List.map_congr_left fun i hi => ?_)
    (List.eq_replicate_iff.mpr ⟨by simp, ?_⟩)
  · have hi : i < len := List.mem_range.mp hi
    rw [hbit i (by omega), decide_eq_true hi, Bool.true_and]
  · intro b hb
    obtain ⟨i, hi, rfl⟩ := List.mem_map.mp hb
    have hi : i < rest := List.mem_range.mp hi
    rw [Function.comp_apply, hbit (len + i) (by omega), decide_eq_false (by omega),
      Bool.false_and]

/-- **The prefixes of a length are ordered as their numbers.** -/
theorem bits_ofPrefix_lt_iff (hlen : len ≤ min (width K) 64) (hnumber : number < 2 ^ len)
    (hother : other < 2 ^ len) :
    bits (ofPrefix number len : K) < bits (ofPrefix other len : K) ↔ number < other := by
  rw [← bitsNumber_lt_bitsNumber_iff (by rw [length_bits, length_bits]), bits_ofPrefix hlen,
    bits_ofPrefix hlen, bitsNumber_append, bitsNumber_append, bitsNumber_replicate,
    bitsNumber_numberBits hnumber, bitsNumber_numberBits hother, Nat.add_zero, Nat.add_zero]
  exact Nat.mul_lt_mul_right (Nat.two_pow_pos _)

/-- **The prefixes of a length are numbered.** From every number of so many bits one of them is
made, and from different numbers different ones. -/
theorem bijOn_ofPrefix [NumericPrefixKey K] (hlen : len ≤ min (width K) 64) :
    Set.BijOn (fun number => (ofPrefix number len : K)) {number | number < 2 ^ len}
      {key | ∀ i, len ≤ i → i < width K → bit key i = false} := by
  have hwidth : len ≤ width K := Nat.le_trans hlen (Nat.min_le_left _ _)
  refine ⟨?_, ?_, ?_⟩
  · intro number _ i hle hi
    show bit (ofPrefix number len : K) i = false
    rw [LawfulPrefixKey.bit_ofPrefix number len i hlen hi, decide_eq_false (Nat.not_lt.mpr hle),
      Bool.false_and]
  · -- the number is read back from what a mask selects
    intro number hnumber other hother heq
    have hselected := congrArg (fun key : K => bitsNumber (selected key (mask len))) heq
    simp only [selected_ofPrefix hlen] at hselected
    rwa [bitsNumber_numberBits hnumber, bitsNumber_numberBits hother] at hselected
  · intro key hkey
    have hlength : (selected key (mask len)).length = len := by
      rw [length_selected, maskLength_mask hwidth]
    have hlt := bitsNumber_lt (selected key (mask len))
    rw [hlength] at hlt
    have hselected : selected key (mask len) = (List.range len).map (bit key) := by
      rw [selected, maskLength_mask hwidth]
    have hread : numberBits (bitsNumber (selected key (mask len))) len =
        (List.range len).map (bit key) := by
      rw [← hselected]
      have hbits := numberBits_bitsNumber (selected key (mask len))
      rwa [hlength] at hbits
    refine ⟨bitsNumber (selected key (mask len)), hlt, NumericPrefixKey.ext _ _ fun i hi => ?_⟩
    show bit (ofPrefix (bitsNumber (selected key (mask len))) len : K) i = bit key i
    rw [LawfulPrefixKey.bit_ofPrefix _ len i hlen hi]
    by_cases hin : i < len
    · rw [decide_eq_true hin, Bool.true_and]
      exact List.map_inj_left.mp hread i (List.mem_range.mpr hin)
    · rw [decide_eq_false hin, Bool.false_and, hkey i (Nat.le_of_not_lt hin) hi]

end PrefixKey

/-! ## All kinds of keys -/

namespace KeyKind

open PrefixKey

instance : (kind : KeyKind) → LawfulPrefixKey kind.Carrier
  | word => inferInstanceAs (LawfulPrefixKey UInt32)
  | v4 => inferInstanceAs (LawfulPrefixKey V4)
  | octets => inferInstanceAs (LawfulPrefixKey Octets)
  | v6 => inferInstanceAs (LawfulPrefixKey V6)

instance : (kind : KeyKind) → NumericPrefixKey kind.Carrier
  | word => inferInstanceAs (NumericPrefixKey UInt32)
  | v4 => inferInstanceAs (NumericPrefixKey V4)
  | octets => inferInstanceAs (NumericPrefixKey Octets)
  | v6 => inferInstanceAs (NumericPrefixKey V6)

/-- **Keys are the bits that they stand for**, in every kind of keys, of 32 bits or of 128. A mask
has ones up to its length and zeros from there on. A prefix made from a number has the low bits of
that number up to its length, whatever bits the number has above them, and zeros from there on. A
key has the bits of the number that it reads as, which for octets is the one with their bytes as
digits. So the prefixes of a length, which are zero from there on, are numbered by the numbers of so
many bits, and the order of the numbers is that of the prefixes. -/
theorem reads_as_bits (kind : KeyKind) :
    width kind.Carrier = (if kind = .word ∨ kind = .v4 then 32 else 128) ∧
      (∀ len i, i < width kind.Carrier →
        (bit (mask len : kind.Carrier) i = true ↔ i < len)) ∧
      (∀ number len i, len ≤ min (width kind.Carrier) 64 → i < width kind.Carrier →
        (bit (ofPrefix number len : kind.Carrier) i = true ↔
          i < len ∧ number.testBit (len - 1 - i) = true)) ∧
      (∀ (key : kind.Carrier) i, i < width kind.Carrier →
        bit key i = (toNat key).testBit (width kind.Carrier - 1 - i)) ∧
      (∀ key : Octets, toNat key = bytesNumber key.bytes.toList) ∧
      ∀ len, len ≤ min (width kind.Carrier) 64 →
        Set.BijOn (fun number => (ofPrefix number len : kind.Carrier)) {number | number < 2 ^ len}
          {key | ∀ i, len ≤ i → i < width kind.Carrier → bit key i = false} ∧
        ∀ number < 2 ^ len, ∀ other < 2 ^ len,
          (bits (ofPrefix number len : kind.Carrier) < bits (ofPrefix other len : kind.Carrier) ↔
            number < other) := by
  refine ⟨by cases kind <;> rfl, ?_, ?_, NumericPrefixKey.bit_eq_testBit, fun _ => rfl, ?_⟩
  · intro len i hi
    rw [LawfulPrefixKey.bit_mask len i hi, decide_eq_true_iff]
  · intro number len i hlen hi
    rw [LawfulPrefixKey.bit_ofPrefix number len i hlen hi, Bool.and_eq_true, decide_eq_true_iff]
  · intro len hlen
    exact ⟨bijOn_ofPrefix hlen, fun number hnumber other hother =>
      bits_ofPrefix_lt_iff hlen hnumber hother⟩

/-- Octets and addresses of either width have the bits that they stand for, for instance, at the
ends of a mask, where a number has more bits than its prefix is long, and in a byte in the middle. -/
theorem reads_as_bits_both_widths :
    (bit (mask 12 : Octets) 11 = true ∧ bit (mask 12 : Octets) 12 = false) ∧
      (bit (ofPrefix 0x1ff05 8 : V4) 7 = true ∧ bit (ofPrefix 0x1ff05 8 : V4) 6 = false) ∧
      bit (PrefixKey.ofNat (2 ^ 50) : Octets) 77 =
        (toNat (PrefixKey.ofNat (2 ^ 50) : Octets)).testBit 50 ∧
      bits (ofPrefix 5 32 : V6) < bits (ofPrefix 0x80000000 32 : V6) := by
  obtain ⟨-, hmask, -, hread, -⟩ := reads_as_bits .octets
  obtain ⟨-, -, hmade, -⟩ := reads_as_bits .v4
  obtain ⟨-, -, -, -, -, hnumbered⟩ := reads_as_bits .v6
  refine ⟨⟨?_, ?_⟩, ⟨?_, ?_⟩, ?_, ?_⟩
  · exact (hmask 12 11 (by decide)).mpr (by decide)
  · exact Bool.eq_false_iff.mpr fun h => absurd ((hmask 12 12 (by decide)).mp h) (by decide)
  · exact (hmade 0x1ff05 8 7 (by decide) (by decide)).mpr (by decide)
  · exact Bool.eq_false_iff.mpr fun h =>
      absurd ((hmade 0x1ff05 8 6 (by decide) (by decide)).mp h) (by decide)
  · exact hread (PrefixKey.ofNat (2 ^ 50)) 77 (by decide)
  · exact ((hnumbered 32 (by decide)).2 5 (by decide) 0x80000000 (by decide)).mpr (by decide)

end KeyKind

end RegionTrie
