import RegionTrie.Trie.Basic

/-!
# Preallocation

A new trie can be laid out in advance as a complete tree of some depth, level by level, so that
short prefixes are stored later without asking for memory.

## Main definitions

* `Preallocation`: how much to lay out
* `Preallocation.ofSigned`: the convention that packs the choices into one signed number
* `Trie.create`: a trie with its root and the levels asked for
-/

namespace RegionTrie

/-- How much of a new trie is laid out in advance. -/
inductive Preallocation where
  /-- Only the root. -/
  | none
  /-- A complete tree that fills about one page. -/
  | default
  /-- A complete tree of this depth. -/
  | depth (levels : Nat)
deriving DecidableEq

namespace Preallocation

/-- Depths that can be named by a number are smaller than this. -/
def depthBound : Nat := 1 <<< 32

/-- Zero stands for the root alone, minus one for the default depth, and a positive number for
itself. -/
def ofSigned (n : Int) : Except Fault Preallocation :=
  if n = 0 then .ok .none
  else if n = -1 then .ok .default
  else if 0 < n ∧ n < depthBound then .ok (.depth n.toNat)
  else .error (.invalidDepth n)

/-- The depth that is meant, given the shape of slabs. -/
def levels (p : Preallocation) (shape : SlabShape) : Nat :=
  match p with
  | none => 0
  | default => shape.defaultDepth
  | depth levels => levels

/-- The choice as a record. -/
def inspect : Preallocation → String
  | none => "None"
  | default => "Default"
  | depth levels => Text.wrap "Depth" (toString levels)

end Preallocation

/-- No trie is laid out in advance to more levels than this. -/
def deepestPreallocation : Nat := 32

namespace Trie

variable {K V σ : Type} [PrefixKey K] [RawSource σ]

/-- Link `count` prefixes of one length, from the number `first` on. -/
def linkLevel (t : Trie K V) (r : Region σ) (length first : Nat) :
    (count : Nat) → Except Fault Unit × Trie K V × Region σ
  | 0 => (.ok (), t, r)
  | count + 1 =>
    let key : K := PrefixKey.ofPrefix first length
    match t.link r (PrefixKey.selected key (PrefixKey.mask length)) none with
    | (.error fault, t, r) => (.error fault, t, r)
    | (.ok (), t, r) => t.linkLevel r length (first + 1) count

/-- Link all prefixes of `count` lengths, from the length `first` on. -/
def linkLevels (t : Trie K V) (r : Region σ) (first : Nat) :
    (count : Nat) → Except Fault Unit × Trie K V × Region σ
  | 0 => (.ok (), t, r)
  | count + 1 =>
    match t.linkLevel r first 0 (1 <<< first) with
    | (.error fault, t, r) => (.error fault, t, r)
    | (.ok (), t, r) => t.linkLevels r (first + 1) count

/-- Create a trie for values of the given layout, with its root and the levels asked for. Slabs
that a failed creation took stay with the region. -/
def create (value : Layout) (p : Preallocation) (r : Region σ) :
    Except Fault (Trie K V) × Region σ :=
  let shape := SlabShape.ofValue value r.heap.pageSize
  let depth := p.levels shape
  if min (PrefixKey.width K) deepestPreallocation < depth then
    (.error (.invalidDepth depth), r)
  else
    let bare : Trie K V := { nodes := { shape } }
    match bare.link r [] none with
    | (.error fault, _, r) => (.error fault, r)
    | (.ok (), t, r) =>
      match t.linkLevels r 1 depth with
      | (.error fault, _, r) => (.error fault, r)
      | (.ok (), t, r) =>
        (.ok t, if depth = 0 then r else r.note (.triePreallocated depth t.nodeCount))

end Trie

end RegionTrie
