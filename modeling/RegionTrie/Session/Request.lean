import RegionTrie.Key.Kind
import RegionTrie.Value
import RegionTrie.Trie.Preallocate

/-!
# Requests

What can be asked of a session: one constructor for every operation on the region, its cleanups
and its tries. Allocations, cleanups and tries are known by numbers that the asker chooses.

## Main definitions

* `Request`: the requests
* `MaskChoice`, `DepthChoice`: the ways to name a mask and a preallocation
-/

namespace RegionTrie

/-- A mask, by the number of its leading one bits or by all its bits. -/
inductive MaskChoice where
  | length (n : Nat)
  | pattern (bits : Nat)

/-- The mask that is meant. -/
def MaskChoice.mask {K : Type} [PrefixKey K] : MaskChoice → K
  | length n => PrefixKey.mask n
  | pattern bits => PrefixKey.ofNat bits

/-- A preallocation, as such or in its signed form. -/
inductive DepthChoice where
  | plain (p : Preallocation)
  | signed (n : Int)

/-- The preallocation that is meant. -/
def DepthChoice.resolve : DepthChoice → Except Fault Preallocation
  | plain p => .ok p
  | signed n => Preallocation.ofSigned n

/-- One step of a session. In requests for memory, `keep` is the number under which the range is
to be known. -/
inductive Request where
  | allocate (keep : Option Nat) (size : Nat)
  | allocatePacked (keep : Option Nat) (size : Nat)
  | allocateZeroed (keep : Option Nat) (size : Nat)
  | allocateAligned (keep : Option Nat) (size align : Nat)
  | allocateLayout (keep : Option Nat) (layout : Layout)
  | allocateValue (keep : Option Nat) (kind : ValueKind) (value : Nat)
  | allocateSlice (keep : Option Nat) (kind : ValueKind) (values : List Nat)
  | allocateText (keep : Option Nat) (text : String)
  | free (range offset : Nat)
  | fill (range : Nat) (byte : UInt8)
  | read (range : Nat)
  | summary
  | reset
  | addCleanup (cleanup size : Nat) (handler : Option Nat)
  | setHandler (cleanup handler : Nat)
  | disarm (cleanup : Nat)
  | writePayload (cleanup offset : Nat) (bytes : List UInt8)
  | readPayload (cleanup : Nat)
  | runNow (cleanup : Nat)
  | createTrie (trie : Nat) (keys : KeyKind) (values : ValueKind) (depth : DepthChoice)
  | insert (trie key : Nat) (mask : MaskChoice) (value : Nat)
  | delete (trie key : Nat) (mask : MaskChoice)
  | get (trie key : Nat) (mask : MaskChoice)
  | find (trie key : Nat)
  | findMany (trie : Nat) (keys : List Nat)
  | trieSummary (trie : Nat)
  | dropTrie (trie : Nat)

/-- The trie that a request is about. -/
def Request.trie? : Request → Option Nat
  | createTrie trie .. | insert trie .. | delete trie .. | get trie .. | find trie _
  | findMany trie _ | trieSummary trie | dropTrie trie => some trie
  | _ => none

end RegionTrie
