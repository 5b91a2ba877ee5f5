import RegionTrie.Value
import RegionTrie.Region.Allocate

/-!
# Copies of values

Single values, sequences of them and text are copied into a region and read back from there.

## Main definitions

* `Region.allocateValue`, `Region.allocateSlice`, `Region.allocateText`: memory that holds a copy
* `Region.value`, `Region.slice`, `Region.text`: what such memory holds
-/

namespace RegionTrie.Region

variable {σ : Type}

/-- The value of a kind at an address. -/
def value (r : Region σ) (kind : ValueKind) (start : Nat) : Nat :=
  kind.decode (r.contents ⟨start, kind.layout.size⟩)

/-- The values of a kind from an address on. -/
def slice (r : Region σ) (kind : ValueKind) (start count : Nat) : List Nat :=
  kind.decodeAll (r.contents ⟨start, kind.layout.size * count⟩) count

/-- The text whose encoding takes the given range. -/
def text (r : Region σ) (e : Extent) : String :=
  (String.fromUTF8? ⟨(r.contents e).toArray⟩).getD ""

variable [RawSource σ]

/-- Memory that holds a value. -/
def allocateValue (r : Region σ) (kind : ValueKind) (value : Nat) : Except Fault Nat × Region σ :=
  r.allocateCopy kind.layout.align (kind.encode value)

/-- Memory that holds values next to each other. -/
def allocateSlice (r : Region σ) (kind : ValueKind) (values : List Nat) :
    Except Fault Nat × Region σ :=
  r.allocateCopy kind.layout.align (kind.encodeAll values)

/-- Memory that holds a text. -/
def allocateText (r : Region σ) (text : String) : Except Fault Nat × Region σ :=
  r.allocateCopy 1 text.toUTF8.toList

end RegionTrie.Region
