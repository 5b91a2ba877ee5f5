import RegionTrie.Layout

/-!
# The journal

Everything a region does to the world outside its own state is written down in the order in which
it happens: calls of the raw source, ranges handed out inside blocks, the fate of cleanup
handlers, and the diagnostics meant for a reader of logs.

## Main definitions

* `Event`: a diagnostic, with `Event.level`, `Event.message` and `Event.fields`
* `Effect`: one entry of the journal
-/

namespace RegionTrie

/-- How much a diagnostic matters. -/
inductive Level where
  | debug
  | trace
deriving DecidableEq

/-- The name of a level. -/
def Level.name : Level → String
  | debug => "DEBUG"
  | trace => "TRACE"

/-- The diagnostics of regions and tries. -/
inductive Event where
  /-- A pool was created with its first block. -/
  | poolCreated (block size largestSmall : Nat)
  /-- A block was appended to the chain. -/
  | poolGrown (block size : Nat)
  /-- All allocations were forgotten; this many blocks remain. -/
  | poolReset (blocks : Nat)
  /-- The pool is gone. -/
  | poolDestroyed
  /-- A large buffer is tracked by a new record. -/
  | largeLinked (address size align : Nat)
  /-- A large buffer is tracked by a record whose former buffer was freed. -/
  | largeReused (address size : Nat)
  /-- A large buffer goes back to the raw source. -/
  | largeFreed (address : Nat)
  /-- A block goes back to the raw source with this many bytes never handed out. -/
  | blockFreed (block unused : Nat)
  /-- A cleanup record was added. -/
  | cleanupAdded (cleanup size : Nat)
  /-- The handler of a cleanup record runs. -/
  | cleanupRun (cleanup : Nat)
  /-- A trie obtained a slab with room for this many nodes. -/
  | slabTaken (slab nodes : Nat)
  /-- A trie was laid out in advance down to this depth. -/
  | triePreallocated (depth nodes : Nat)
  /-- A node at this depth was unlinked and can be used again. -/
  | nodeRecycled (node depth : Nat)
deriving DecidableEq

/-- The value of one field of a diagnostic. -/
inductive Event.Field where
  | address (value : Nat)
  | number (value : Nat)

namespace Event

/-- How much the diagnostic matters. -/
def level : Event → Level
  | poolCreated .. | poolGrown .. | poolReset .. | poolDestroyed => .debug
  | largeLinked .. | largeReused .. | largeFreed .. | blockFreed .. => .trace
  | cleanupAdded .. => .debug
  | cleanupRun .. => .trace
  | slabTaken .. | triePreallocated .. => .debug
  | nodeRecycled .. => .trace

/-- The text of the diagnostic. -/
def message : Event → String
  | poolCreated .. => "pool created"
  | poolGrown .. => "pool grown"
  | poolReset .. => "pool reset"
  | poolDestroyed => "pool destroyed"
  | largeLinked .. => "large"
  | largeReused .. => "large reused record"
  | largeFreed .. => "free large"
  | blockFreed .. => "free block"
  | cleanupAdded .. => "add cleanup"
  | cleanupRun .. => "run cleanup"
  | slabTaken .. => "radix slab"
  | triePreallocated .. => "radix tree preallocated"
  | nodeRecycled .. => "radix node recycled"

/-- The labelled values of the diagnostic. -/
def fields : Event → List (String × Field)
  | poolCreated block size largest =>
    [("block", .address block), ("size", .number size), ("max", .number largest)]
  | poolGrown block size => [("block", .address block), ("size", .number size)]
  | poolReset blocks => [("blocks", .number blocks)]
  | poolDestroyed => []
  | largeLinked address size align =>
    [("ptr", .address address), ("size", .number size), ("align", .number align)]
  | largeReused address size => [("ptr", .address address), ("size", .number size)]
  | largeFreed address => [("ptr", .address address)]
  | blockFreed block unused => [("block", .address block), ("unused", .number unused)]
  | cleanupAdded cleanup size => [("cleanup", .address cleanup), ("size", .number size)]
  | cleanupRun cleanup => [("cleanup", .address cleanup)]
  | slabTaken slab nodes => [("slab", .address slab), ("nodes", .number nodes)]
  | triePreallocated depth nodes => [("depth", .number depth), ("nodes", .number nodes)]
  | nodeRecycled node depth => [("node", .number node), ("depth", .number depth)]

end Event

/-- One entry of the journal. -/
inductive Effect where
  /-- The raw source granted a buffer. -/
  | granted (buffer : Buffer)
  /-- The raw source declined a request. -/
  | declined (layout : Layout)
  /-- A buffer went back to the raw source. -/
  | released (buffer : Buffer)
  /-- A range inside a block was handed out to a request with this alignment. -/
  | served (extent : Extent) (align : Nat)
  /-- A cleanup handler ran and saw this payload. -/
  | ran (handler : Nat) (payload : List UInt8)
  /-- A cleanup handler was disposed of without running. -/
  | discarded (handler : Nat)
  /-- A diagnostic was emitted. -/
  | noted (event : Event)
deriving DecidableEq

end RegionTrie
