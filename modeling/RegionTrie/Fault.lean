import RegionTrie.Text.Record

/-!
# Faults

Why an operation on a region or a trie was refused.

## Main definitions

* `Fault`: the causes, with the numbers that explain them
* `Fault.message`: the sentence shown to a user
* `Fault.inspect`: the cause and its numbers as a record
-/

namespace RegionTrie

/-- The reasons for which an operation is refused. -/
inductive Fault where
  /-- The raw source declined a request for memory. -/
  | exhausted (size align : Nat)
  /-- The prefix already carries a value. -/
  | busy
  /-- The prefix carries nothing that could be removed. -/
  | notFound
  /-- The address is not the start of a live large buffer. -/
  | invalidFree
  /-- Blocks of this size cannot hold their own bookkeeping. -/
  | poolTooSmall (size least : Nat)
  /-- Size and alignment do not form a layout. -/
  | invalidLayout (size align : Nat)
  /-- The number does not name a depth to which a trie can be laid out in advance. -/
  | invalidDepth (depth : Int)
deriving DecidableEq

namespace Fault

/-- The sentence that explains the fault. -/
def message : Fault → String
  | exhausted size align =>
    "raw allocator could not provide " ++ toString size ++ " bytes aligned to " ++ toString align
  | busy => "prefix already holds a value"
  | notFound => "prefix not found"
  | invalidFree => "pointer is not a tracked large allocation"
  | poolTooSmall size least =>
    "pool size " ++ toString size ++ " is smaller than the minimum of " ++ toString least ++ " bytes"
  | invalidLayout size align =>
    "invalid layout: " ++ toString size ++ " bytes aligned to " ++ toString align
  | invalidDepth depth => "invalid preallocation depth " ++ toString depth

/-- The name of the cause. -/
def kind : Fault → String
  | exhausted .. => "Exhausted"
  | busy => "Busy"
  | notFound => "NotFound"
  | invalidFree => "InvalidFree"
  | poolTooSmall .. => "PoolTooSmall"
  | invalidLayout .. => "InvalidLayout"
  | invalidDepth .. => "InvalidDepth"

/-- The cause with its numbers, as a record. -/
def inspect (f : Fault) : String :=
  match f with
  | exhausted size align | invalidLayout size align =>
    Text.record f.kind [("size", toString size), ("align", toString align)]
  | poolTooSmall size least =>
    Text.record f.kind [("size", toString size), ("min", toString least)]
  | invalidDepth depth => Text.wrap f.kind (toString depth)
  | busy | notFound | invalidFree => f.kind

end Fault

end RegionTrie
