import RegionTrie.Value
import RegionTrie.Heap.Journal
import RegionTrie.Pool.Config
import RegionTrie.Fault

/-!
# Answers

What a session says to a request.

## Main definitions

* `Answer`: the results of requests that were carried out
* `Refusal`: why a request was not, with `Refusal.kind` and `Refusal.message`
* `Response`: the outcome together with what can be observed from outside
-/

namespace RegionTrie

/-- Where something lies. What has no bytes lies nowhere, except that its address would be a
multiple of the alignment. -/
inductive Place where
  | dangling (align : Nat)
  | address (start : Nat)
deriving DecidableEq

/-- A region from outside. -/
structure RegionSummary where
  largestSmall : Nat
  blockSize : Nat
  pageSize : Nat
  config : PoolConfig
  /-- The number of buffers that the raw source has granted and not got back. -/
  live : Nat
  text : String

/-- A trie from outside. -/
structure TrieSummary where
  isEmpty : Bool
  text : String
  /-- The number of blocks of the region. -/
  blocks : Nat

/-- The result of a request that was carried out. -/
inductive Answer where
  | done
  | place (p : Place)
  | value (p : Place) (kind : ValueKind) (value : Nat)
  | slice (p : Place) (kind : ValueKind) (values : List Nat)
  | text (p : Place) (text : String)
  | bytes (bytes : List UInt8)
  | flag (b : Bool)
  | payload (armed : Bool) (bytes : List UInt8)
  | found (kind : ValueKind) (value : Option Nat)
  | foundMany (kind : ValueKind) (values : List (Option Nat))
  | region (summary : RegionSummary)
  | trie (summary : TrieSummary)

/-- Why a request was not carried out. -/
inductive Refusal where
  | fault (f : Fault)
  | noTrie
  | noRange
  | noCleanup

namespace Refusal

/-- The name of the cause. -/
def kind : Refusal → String
  | fault f => f.kind
  | noTrie | noRange | noCleanup => "BadInput"

/-- The sentence that explains the refusal. -/
def message : Refusal → String
  | fault f => f.message
  | noTrie => "no such tree"
  | noRange => "no such handle"
  | noCleanup => "no such cleanup"

end Refusal

/-- The numbers of a trie that show from outside. -/
structure TrieCounts where
  size : Nat
  nodes : Nat
  free : Nat
  slabs : Nat

/-- The outcome of a request, what the pool holds afterwards, the trie that the request was about
if it exists then, and the part of the journal that was written meanwhile, in order. -/
structure Response where
  outcome : Except Refusal Answer
  blocks : Nat
  large : Nat
  cleanups : Nat
  trie : Option TrieCounts
  effects : List Effect

end RegionTrie
