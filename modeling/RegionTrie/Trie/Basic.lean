import RegionTrie.Key.Basic
import RegionTrie.Trie.Branch
import RegionTrie.Trie.Store

/-!
# Tries

A trie maps prefixes of keys to values and finds the longest stored prefix of a key. Every prefix
has its place at the end of a path of bits from the root; the nodes on the way may carry values of
their own. Node memory comes from a region. In memory the nodes are an `Arena`, which calls change
node by node; a trie is what they amount to.

## Main definitions

* `Trie`: root branch, node store, and the number of stored prefixes
* `Trie.insert`, `Trie.delete`: change the value at a prefix
* `Trie.find`, `Trie.get`: the longest stored prefix of a key, and exactly one prefix
* `Trie.link`: put a node, with or without a value, at the end of a path
-/

namespace RegionTrie

/-- A trie from prefixes of keys in `K` to values in `V`. -/
structure Trie (K V : Type) where
  nodes : NodeStore
  root : Branch V := .absent
  /-- The number of stored prefixes. -/
  size : Nat := 0

namespace Trie

variable {K V : Type}

/-- No prefix is stored. -/
def isEmpty (t : Trie K V) : Bool :=
  t.size == 0

/-- The nodes that are linked, the root included. -/
def nodeCount (t : Trie K V) : Nat :=
  t.nodes.linked

/-- The nodes waiting to be used again. -/
def freeCount (t : Trie K V) : Nat :=
  t.nodes.free.length

/-- The slabs obtained so far. -/
def slabCount (t : Trie K V) : Nat :=
  t.nodes.slabs.size

/-- The diagnostics for unlinked nodes, deepest first, the first one at the given depth. -/
def recycledEvents (depth : Nat) : List Nat → List Event
  | [] => []
  | index :: rest => .nodeRecycled index depth :: recycledEvents (depth - 1) rest

/-- Remove the value at the end of a path, with the nodes that serve no purpose any more. -/
def unlink {σ : Type} (t : Trie K V) (r : Region σ) (path : List Bool) :
    Except Fault Unit × Trie K V × Region σ :=
  match t.root.erase path with
  | none => (.error .notFound, t, r)
  | some e =>
    (.ok (),
      { nodes := t.nodes.recycle e.recycled, root := e.branch,
        size := t.size - e.valued.toNat },
      (recycledEvents path.length e.recycled).foldl Region.note r)

section Growing

variable {σ : Type} [RawSource σ]

/-- Link the nodes that a path lacks, one by one from the root on, and set the value at its end. A
value that is there already is left alone. When memory runs out, the nodes obtained until then stay
linked without a value. -/
def link (t : Trie K V) (r : Region σ) (path : List Bool) (value : Option V) :
    Except Fault Unit × Trie K V × Region σ :=
  if (t.root.get path).isSome then (.error .busy, t, r)
  else
    match t.nodes.takeMany r (t.root.missing path) with
    | (taken, nodes, r) =>
      let root := t.root.graft value none path taken.indices
      match taken.fault with
      | some fault => (.error fault, { t with nodes, root }, r)
      | none => (.ok (), { nodes, root, size := t.size + value.isSome.toNat }, r)

end Growing

section Keyed

variable [PrefixKey K]

/-- The value of the longest stored prefix of a key. -/
def find (t : Trie K V) (key : K) : Option V :=
  t.root.find (PrefixKey.bits key)

/-- The value stored at exactly the prefix of a key selected by a mask. -/
def get (t : Trie K V) (key mask : K) : Option V :=
  t.root.get (PrefixKey.selected key mask)

/-- Remove the value at the prefix of a key selected by a mask. -/
def delete {σ : Type} (t : Trie K V) (r : Region σ) (key mask : K) :
    Except Fault Unit × Trie K V × Region σ :=
  t.unlink r (PrefixKey.selected key mask)

/-- Store a value at the prefix of a key selected by a mask, where none is stored yet. -/
def insert {σ : Type} [RawSource σ] (t : Trie K V) (r : Region σ) (key mask : K) (value : V) :
    Except Fault Unit × Trie K V × Region σ :=
  t.link r (PrefixKey.selected key mask) (some value)

/-- The trie as a record. -/
def inspect (t : Trie K V) : String :=
  Text.record "RadixTree"
    [("key_bits", toString (PrefixKey.width K)), ("len", toString t.size),
      ("nodes", toString t.nodeCount), ("free", toString t.freeCount),
      ("slabs", toString t.slabCount)]

end Keyed

end Trie

end RegionTrie
