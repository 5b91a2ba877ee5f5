import RegionTrie.Trie.Preallocate

/-!
# Tries in memory

In memory a trie is an arena of nodes that name each other by their indices. A node links its
children and its parent. Calls walk along these links and write to one node at a time: a node that
is handed out is written over, whatever its memory held before, and a node that is recycled is cut
off from the node above it and keeps what it holds. Nothing in an arena says that the links form a
tree.

A walk down a key tests the mask, and reads the key, at each depth that it comes to.

## Main definitions

* `Node`: what memory holds for a node
* `Arena`: the memory of a trie, its store of nodes, its root, and its size
* `Arena.allocate`: hand out a node
* `Arena.seek`, `Arena.descend`, `Arena.findFrom`: walks down a key
* `Arena.extend`, `Arena.climb`: walks that link nodes on the way down, and recycle them on the
  way up
* `Arena.insert`, `Arena.delete`, `Arena.get`, `Arena.find`, `Arena.create`: the calls
-/

namespace RegionTrie

/-- What memory holds for a node: links to its children and to its parent, and its value. -/
structure Node (V : Type) where
  zero : Option Nat := none
  one : Option Nat := none
  parent : Option Nat := none
  value : Option V := none

namespace Node

variable {V : Type}

/-- The link to the child for one value of the next bit. -/
def child (n : Node V) (bit : Bool) : Option Nat :=
  if bit then n.one else n.zero

/-- The node with a link to a child for one value of the next bit. -/
def setChild (n : Node V) (bit : Bool) (index : Nat) : Node V :=
  if bit then { n with one := some index } else { n with zero := some index }

/-- The node without its link to one of its children. -/
def cut (n : Node V) (index : Nat) : Node V :=
  if n.one = some index then { n with one := none } else { n with zero := none }

/-- The node links a child. -/
def hasChildren (n : Node V) : Bool :=
  n.zero.isSome || n.one.isSome

/-- Memory after one node was written to. -/
def overwrite (memory : Nat → Node V) (index : Nat) (n : Node V) : Nat → Node V :=
  fun i => if i = index then n else memory i

end Node

/-- A trie from prefixes of keys in `K` to values in `V`, as it lies in memory. -/
structure Arena (K V : Type) where
  nodes : NodeStore
  /-- What memory holds for each node. For one that was never handed out this is anything. -/
  memory : Nat → Node V
  /-- The index of the root. -/
  root : Nat := 0
  /-- The number of stored prefixes. -/
  size : Nat := 0

namespace Arena

variable {K V : Type}

/-- No prefix is stored. -/
def isEmpty (a : Arena K V) : Bool :=
  a.size == 0

/-- Write to a node. -/
def write (a : Arena K V) (index : Nat) (n : Node V) : Arena K V :=
  { a with memory := Node.overwrite a.memory index n }

/-! ## Walks up -/

/-- Recycle a node that lies at a depth, and after it, from below, each node above it that is
neither the root nor has a value or a child left. There is no result if a node at depth 0 has a
parent, in which case the links lead nowhere. -/
def climb {σ : Type} (a : Arena K V) (r : Region σ) (node : Nat) :
    (depth : Nat) → Option (Arena K V × Region σ)
  | 0 => if (a.memory node).parent.isNone then some (a, r) else none
  | depth + 1 =>
    match (a.memory node).parent with
    | none => some (a, r)
    | some parent =>
      let cut := a.write parent ((a.memory parent).cut node)
      let a := { cut with nodes := cut.nodes.recycle [node] }
      let r := r.note (.nodeRecycled node (depth + 1))
      let n := a.memory parent
      if n.hasChildren || n.value.isSome || n.parent.isNone then some (a, r)
      else a.climb r parent depth

section Growing

variable {σ : Type} [RawSource σ]

/-- Hand out a node with a parent, and without children and a value. -/
def allocate (a : Arena K V) (r : Region σ) (parent : Option Nat) :
    Except Fault Nat × Arena K V × Region σ :=
  match a.nodes.take r with
  | (.error fault, nodes, r) => (.error fault, { a with nodes }, r)
  | (.ok index, nodes, r) => (.ok index, { a with nodes }.write index { parent }, r)

end Growing

section Keyed

open PrefixKey

variable [PrefixKey K]

/-! ## Walks down -/

/-- Go down from a node at a depth, along the bits of a key that a mask selects: the node where they
end, with its depth, if all nodes on the way are there. -/
def seek (a : Arena K V) (key mask : K) (node depth : Nat) : Option (Nat × Nat) :=
  if significant mask depth then
    match (a.memory node).child (bit key depth) with
    | none => none
    | some next => a.seek key mask next (depth + 1)
  else some (node, depth)
termination_by width K - depth
decreasing_by
  have hlt := lt_width_of_significant ‹_›
  omega

/-- Go down from a node at a depth, along the bits of a key that a mask selects, as far as there are
nodes: the last one, with its depth. -/
def descend (a : Arena K V) (key mask : K) (node depth : Nat) : Nat × Nat :=
  if significant mask depth then
    match (a.memory node).child (bit key depth) with
    | none => (node, depth)
    | some next => a.descend key mask next (depth + 1)
  else (node, depth)
termination_by width K - depth
decreasing_by
  have hlt := lt_width_of_significant ‹_›
  omega

/-- Go down from a node at a depth, along all bits of a key, as far as there are nodes: the value
passed last, or else the given one. -/
def findFrom (a : Arena K V) (key : K) (node depth : Nat) (value : Option V) : Option V :=
  let passed := (a.memory node).value.or value
  if depth < width K then
    match (a.memory node).child (bit key depth) with
    | none => passed
    | some next => a.findFrom key next (depth + 1) passed
  else passed
termination_by width K - depth

/-- The value of the longest stored prefix of a key. -/
def find (a : Arena K V) (key : K) : Option V :=
  a.findFrom key a.root 0 none

/-- The value stored at exactly the prefix of a key selected by a mask. -/
def get (a : Arena K V) (key mask : K) : Option V :=
  (a.seek key mask a.root 0).bind fun place => (a.memory place.1).value

/-- Remove the value at the prefix of a key selected by a mask. A node without children, other than
the root, is recycled. -/
def delete {σ : Type} (a : Arena K V) (r : Region σ) (key mask : K) :
    Option (Except Fault Unit × Arena K V × Region σ) :=
  match a.seek key mask a.root 0 with
  | none => some (.error .notFound, a, r)
  | some (node, depth) =>
    let n := a.memory node
    if n.hasChildren || node == a.root then
      if n.value.isNone then some (.error .notFound, a, r)
      else some (.ok (), { a.write node { n with value := none } with size := a.size - 1 }, r)
    else
      let cleared :=
        { a.write node { n with value := none } with size := a.size - n.value.isSome.toNat }
      (cleared.climb r node depth).map fun (a, r) => (.ok (), a, r)

variable {σ : Type} [RawSource σ]

/-- Go down from a node at a depth, along the bits of a key that a mask selects, and link a new node
for each of them: the last one. -/
def extend (a : Arena K V) (r : Region σ) (key mask : K) (node depth : Nat) :
    Except Fault Nat × Arena K V × Region σ :=
  if significant mask depth then
    match a.allocate r (some node) with
    | (.error fault, a, r) => (.error fault, a, r)
    | (.ok next, a, r) =>
      (a.write node ((a.memory node).setChild (bit key depth) next)).extend r key mask next
        (depth + 1)
  else (.ok node, a, r)
termination_by width K - depth
decreasing_by
  have hlt := lt_width_of_significant ‹_›
  omega

/-- Set the value of a node. -/
def setValue (a : Arena K V) (node : Nat) (value : Option V) : Arena K V :=
  { a.write node { a.memory node with value } with size := a.size + value.isSome.toNat }

/-- Link the nodes that lead to the prefix of a key selected by a mask, and set the value there. A
value that is there already is left alone. -/
def link (a : Arena K V) (r : Region σ) (key mask : K) (value : Option V) :
    Except Fault Unit × Arena K V × Region σ :=
  match a.descend key mask a.root 0 with
  | (node, depth) =>
    if significant mask depth then
      match a.extend r key mask node depth with
      | (.error fault, a, r) => (.error fault, a, r)
      | (.ok last, a, r) => (.ok (), a.setValue last value, r)
    else if (a.memory node).value.isSome then (.error .busy, a, r)
    else (.ok (), a.setValue node value, r)

/-- Store a value at the prefix of a key selected by a mask, where none is stored yet. -/
def insert (a : Arena K V) (r : Region σ) (key mask : K) (value : V) :
    Except Fault Unit × Arena K V × Region σ :=
  a.link r key mask (some value)

/-! ## Creation -/

/-- Link `count` prefixes of one length, from the number `first` on. -/
def linkLevel (a : Arena K V) (r : Region σ) (length first : Nat) :
    (count : Nat) → Except Fault Unit × Arena K V × Region σ
  | 0 => (.ok (), a, r)
  | count + 1 =>
    match a.link r (ofPrefix first length) (mask length) none with
    | (.error fault, a, r) => (.error fault, a, r)
    | (.ok (), a, r) => a.linkLevel r length (first + 1) count

/-- Link all prefixes of `count` lengths, from the length `first` on. -/
def linkLevels (a : Arena K V) (r : Region σ) (first : Nat) :
    (count : Nat) → Except Fault Unit × Arena K V × Region σ
  | 0 => (.ok (), a, r)
  | count + 1 =>
    match a.linkLevel r first 0 (1 <<< first) with
    | (.error fault, a, r) => (.error fault, a, r)
    | (.ok (), a, r) => a.linkLevels r (first + 1) count

/-- Create a trie for values of the given layout, with its root and the levels asked for, in memory
that holds anything. -/
def create (memory : Nat → Node V) (value : Layout) (p : Preallocation) (r : Region σ) :
    Except Fault (Arena K V) × Region σ :=
  let shape := SlabShape.ofValue value r.heap.pageSize
  let depth := p.levels shape
  if min (width K) deepestPreallocation < depth then (.error (.invalidDepth depth), r)
  else
    let bare : Arena K V := { nodes := { shape }, memory }
    match bare.allocate r none with
    | (.error fault, _, r) => (.error fault, r)
    | (.ok root, a, r) =>
      match { a with root }.linkLevels r 1 depth with
      | (.error fault, _, r) => (.error fault, r)
      | (.ok (), a, r) =>
        (.ok a, if depth = 0 then r else r.note (.triePreallocated depth a.nodes.linked))

end Keyed

end Arena

end RegionTrie
