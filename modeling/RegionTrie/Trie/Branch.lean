/-!
# Branches

A branch is the part of a trie from one bit position on: absent, or a node with a branch for
either next bit. A node carries the index of its memory, the index of its parent, and perhaps a
value. The root is the one node without a parent.

## Main definitions

* `Branch`: the inductive type
* `Branch.get`, `Branch.find`: the value at a path, and the value deepest on a path
* `Branch.missing`, `Branch.graft`: the nodes that a path lacks, and putting them in
* `Branch.erase`: removing what a path leads to, and the nodes that become useless by it
-/

namespace RegionTrie

/-- A subtree of a trie of values in `V`. -/
inductive Branch (V : Type) where
  | absent
  | node (index : Nat) (parent : Option Nat) (value : Option V) (zero one : Branch V)

namespace Branch

variable {V : Type}

/-- Nothing is here. -/
def isAbsent : Branch V → Bool
  | absent => true
  | node .. => false

/-- A node with the branch for one value of the next bit replaced. -/
def setChild : Branch V → Bool → Branch V → Branch V
  | absent, _, _ => absent
  | node i up v _ one, false, b => node i up v b one
  | node i up v zero _, true, b => node i up v zero b

/-- The value at the end of a path. -/
def get : Branch V → List Bool → Option V
  | absent, _ => none
  | node _ _ v _ _, [] => v
  | node _ _ _ zero one, bit :: path => (if bit then one else zero).get path

/-- The value passed last on the way along a path. -/
def find : Branch V → List Bool → Option V
  | absent, _ => none
  | node _ _ v _ _, [] => v
  | node _ _ v zero one, bit :: path => ((if bit then one else zero).find path).or v

/-- The number of nodes on a path, its start and its end included, that are not there. -/
def missing : Branch V → List Bool → Nat
  | absent, path => path.length + 1
  | node .., [] => 0
  | node _ _ _ zero one, bit :: path => (if bit then one else zero).missing path

/-- Put nodes with the given indices into the missing places of a path, from the start on, until
the indices are used up, and set the value at the end of the path if that is reached. `up` is the
index of the node above. -/
def graft (value : Option V) : Branch V → Option Nat → List Bool → List Nat → Branch V
  | absent, _, _, [] => absent
  | absent, up, [], i :: _ => node i up value absent absent
  | absent, up, false :: path, i :: fresh =>
    node i up none (graft value absent (some i) path fresh) absent
  | absent, up, true :: path, i :: fresh =>
    node i up none absent (graft value absent (some i) path fresh)
  | node i up _ zero one, _, [], _ => node i up value zero one
  | node i up v zero one, _, false :: path, fresh =>
    node i up v (graft value zero (some i) path fresh) one
  | node i up v zero one, _, true :: path, fresh =>
    node i up v zero (graft value one (some i) path fresh)

/-- What is left of a branch after a removal: the branch, the indices of the nodes that became
useless, deepest first, and whether a value was removed. -/
structure Erasure (V : Type) where
  branch : Branch V
  recycled : List Nat
  valued : Bool

/-- The node serves no purpose: it has no value and no child, and is not the root. -/
def isIdle : Branch V → Bool
  | node _ (some _) none absent absent => true
  | _ => false

/-- Remove the value at the end of a path. A node without children, other than the root, goes with
it, and so does every node above that is left without value and children, up to the root. There is
nothing to remove where the path is not there, and where a node that has to stay has no value. -/
def erase : Branch V → List Bool → Option (Erasure V)
  | absent, _ => none
  | node i up v zero one, [] =>
    if up.isSome && zero.isAbsent && one.isAbsent then some ⟨absent, [i], v.isSome⟩
    else if v.isSome then some ⟨node i up none zero one, [], true⟩
    else none
  | node i up v zero one, bit :: path =>
    ((if bit then one else zero).erase path).map fun e =>
      let here := (node i up v zero one).setChild bit e.branch
      if e.branch.isAbsent && here.isIdle then ⟨absent, e.recycled ++ [i], e.valued⟩
      else { e with branch := here }

end Branch

end RegionTrie
