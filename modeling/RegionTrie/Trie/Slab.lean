import RegionTrie.Layout

/-!
# Slabs

Nodes are carved out of slabs, which are whole pages. How large a node is follows from the layout
of the values that it may carry.

## Main definitions

* `SlabShape`: the sizes of nodes and slabs
* `SlabShape.ofValue`: the shape for values of a layout, on pages of a size
* `SlabShape.defaultDepth`: the depth of a complete trie that fills about one page
-/

namespace RegionTrie

/-- The sizes of nodes and of the slabs that they are carved from. -/
structure SlabShape where
  nodeSize : Nat
  nodeAlign : Nat
  slabSize : Nat
  slabAlign : Nat
deriving DecidableEq

namespace SlabShape

/-- The bytes that the links of a node to its children and its parent take. -/
def linkSize : Nat := 24

/-- The alignment of a link. -/
def linkAlign : Nat := 4

/-- The shape for values of the given layout. A node holds its links, a mark that says whether
there is a value, padded to the value's alignment, and the value; a slab is the least number of
pages that holds one node. Some types have a value to spare that says that there is none, such as
characters, numbers other than zero and references: there is no mark for them, and values of
`size` bytes take as much as others of the layout `⟨size - align, align⟩` would. -/
def ofValue (value : Layout) (pageSize : Nat) : SlabShape :=
  let nodeAlign := max linkAlign value.align
  let nodeSize := alignUp (linkSize + value.align + value.size) nodeAlign
  { nodeSize, nodeAlign, slabSize := alignUp (max pageSize nodeSize) pageSize,
    slabAlign := pageSize }

/-- The number of nodes in a slab. -/
def perSlab (s : SlabShape) : Nat :=
  s.slabSize / s.nodeSize

/-- The depth of a complete trie that fills about one page, for the usual numbers of nodes in a
page. -/
def defaultDepth (s : SlabShape) : Nat :=
  match s.slabAlign / s.nodeSize with
  | 128 => 6
  | 256 => 7
  | _ => 8

end SlabShape

end RegionTrie
