import RegionTrie.Trie.Slab
import RegionTrie.Region.Allocate

/-!
# The store of nodes

A trie takes the memory of its nodes from slabs and never gives it back. Nodes are numbered in the
order in which they are carved out. Those that the trie no longer links are kept on a stack and are
used again before any fresh one.

## Main definitions

* `NodeStore`: slabs, what is left of the newest one, and the stack of free nodes
* `NodeStore.take`, `NodeStore.takeMany`: nodes to be linked
* `NodeStore.recycle`: nodes that were unlinked
* `NodeStore.address?`: where a node lies
-/

namespace RegionTrie

/-- The memory of the nodes of one trie. -/
structure NodeStore where
  shape : SlabShape
  /-- The addresses of the slabs in the order in which they were taken. -/
  slabs : Array Nat := #[]
  /-- Nodes of the newest slab that were never used. -/
  remaining : Nat := 0
  /-- Nodes to be used again, the last unlinked one first. -/
  free : List Nat := []

/-- What came of asking for several nodes: those obtained, in order, and the fault that ended it
early, if any. -/
structure Taken where
  indices : List Nat
  fault : Option Fault

namespace NodeStore

/-- Node indices are smaller than this. -/
def indexBound : Nat := 1 <<< 32

/-- The nodes carved out so far or still to be carved out of the slabs at hand. -/
def capacity (s : NodeStore) : Nat :=
  s.slabs.size * s.shape.perSlab

/-- The nodes that the trie links. -/
def linked (s : NodeStore) : Nat :=
  s.capacity - s.remaining - s.free.length

/-- The address of a node. -/
def address? (s : NodeStore) (index : Nat) : Option Nat :=
  s.slabs[index / s.shape.perSlab]?.map (· + index % s.shape.perSlab * s.shape.nodeSize)

/-- Put nodes on the stack, the first of the list lowest. -/
def recycle (s : NodeStore) (indices : List Nat) : NodeStore :=
  { s with free := indices.reverse ++ s.free }

variable {σ : Type} [RawSource σ]

/-- Obtain a slab if the newest one is used up. -/
def replenish (s : NodeStore) (r : Region σ) : Except Fault Unit × NodeStore × Region σ :=
  if s.remaining = 0 then
    match r.allocateAligned s.shape.slabSize s.shape.slabAlign with
    | (.error fault, r) => (.error fault, s, r)
    | (.ok slab, r) =>
      (.ok (), { s with slabs := s.slabs.push slab, remaining := s.shape.perSlab },
        r.note (.slabTaken slab s.shape.perSlab))
  else (.ok (), s, r)

/-- A node never used before. -/
def carve (s : NodeStore) (r : Region σ) : Except Fault Nat × NodeStore × Region σ :=
  match s.replenish r with
  | (.error fault, s, r) => (.error fault, s, r)
  | (.ok (), s, r) =>
    let index := s.capacity - s.remaining
    if index < indexBound then (.ok index, { s with remaining := s.remaining - 1 }, r)
    else (.error (.exhausted s.shape.nodeSize s.shape.nodeAlign), s, r)

/-- A node to be linked: the last one unlinked, or else one never used before. -/
def take (s : NodeStore) (r : Region σ) : Except Fault Nat × NodeStore × Region σ :=
  match s.free with
  | index :: free => (.ok index, { s with free }, r)
  | [] => s.carve r

/-- So many nodes, or as many of them as can be had. -/
def takeMany (s : NodeStore) (r : Region σ) : Nat → Taken × NodeStore × Region σ
  | 0 => (⟨[], none⟩, s, r)
  | n + 1 =>
    match s.take r with
    | (.error fault, s, r) => (⟨[], some fault⟩, s, r)
    | (.ok index, s, r) =>
      match s.takeMany r n with
      | (taken, s, r) => ({ taken with indices := index :: taken.indices }, s, r)

end NodeStore

end RegionTrie
