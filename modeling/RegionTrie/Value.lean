import RegionTrie.Layout

/-!
# Values

The kinds of fixed-size values that are copied into a region, with their layouts and the bytes
that represent them. A value is a number; every kind says which numbers it can represent.

## Main definitions

* `ValueKind`: the kinds
* `ValueKind.layout`: size and alignment
* `ValueKind.encode`, `ValueKind.decode`: a value as bytes, and back

## Main results

* `length_encode`: the bytes of a value are as many as its layout says
-/

namespace RegionTrie

/-- The kinds of values. -/
inductive ValueKind where
  /-- The one value without any bytes. -/
  | unit
  /-- Numbers of so many bytes, aligned to their size. -/
  | unsigned (bytes : Nat)
  /-- A byte at the start of 64 bytes, aligned to 64. -/
  | wide
  /-- A byte repeated so many times, without alignment. -/
  | repeated (count : Nat)
deriving DecidableEq

/-- The low `count` bytes of a number, the least significant one first. -/
def littleEndian (value : Nat) : (count : Nat) → List UInt8
  | 0 => []
  | count + 1 => UInt8.ofNat value :: littleEndian (value / 256) count

/-- The number represented by bytes, the least significant one first. -/
def ofLittleEndian : List UInt8 → Nat
  | [] => 0
  | byte :: rest => byte.toNat + 256 * ofLittleEndian rest

namespace ValueKind

/-- Size and alignment of the values of a kind. -/
def layout : ValueKind → Layout
  | unit => ⟨0, 1⟩
  | unsigned bytes => ⟨bytes, bytes⟩
  | wide => ⟨64, 64⟩
  | repeated count => ⟨count, 1⟩

/-- The bytes that represent a value. -/
def encode : ValueKind → Nat → List UInt8
  | unit, _ => []
  | unsigned bytes, value => littleEndian value bytes
  | wide, value => UInt8.ofNat value :: List.replicate 63 0
  | repeated count, value => List.replicate count (UInt8.ofNat value)

/-- The value that bytes represent. -/
def decode : ValueKind → List UInt8 → Nat
  | unsigned bytes, data => ofLittleEndian (data.take bytes)
  | unit, _ => 0
  | wide, data | repeated _, data => ofLittleEndian (data.take 1)

/-- The bytes of values that follow each other. -/
def encodeAll (kind : ValueKind) (values : List Nat) : List UInt8 :=
  values.flatMap kind.encode

/-- The first `count` values in a sequence of bytes. -/
def decodeAll (kind : ValueKind) (data : List UInt8) : (count : Nat) → List Nat
  | 0 => []
  | count + 1 =>
    kind.decode data :: kind.decodeAll (data.drop kind.layout.size) count

end ValueKind

theorem length_littleEndian (value count : Nat) : (littleEndian value count).length = count := by
  induction count generalizing value with
  | zero => rfl
  | succ count ih => simp [littleEndian, ih]

theorem ValueKind.length_encode (kind : ValueKind) (value : Nat) :
    (kind.encode value).length = kind.layout.size := by
  cases kind with
  | unit => rfl
  | unsigned bytes => exact length_littleEndian value bytes
  | wide => simp [encode, layout]
  | repeated count => simp [encode, layout]

end RegionTrie
