import RegionTrie.Region.Allocate

/-!
# Cleanups

Deferred actions of a region. A cleanup has a payload of its own, zero at first, and at most one
handler, which runs on the payload when the region is closed, or earlier on demand.

## Main definitions

* `Region.addCleanup`, `Region.addCleanupWith`: register a cleanup, without and with a handler
* `Region.setHandler`, `Region.disarm`: install and remove a handler
* `Region.isArmed`, `Region.payload`, `Region.writePayload`: what a handle can see and change
* `Region.runNow`: run the handler at once
* `Region.runCleanups`, `Region.discardCleanups`: what becomes of all of them in the end
-/

namespace RegionTrie.Region

variable {σ : Type}

/-- A handler is disposed of without running. -/
def discard (r : Region σ) (handler : Option Nat) : Region σ :=
  match handler with
  | none => r
  | some id => { r with heap := r.heap.record (.discarded id) }

/-- The handler of a record, if there is one, runs on the payload. -/
def runHandler (r : Region σ) (record : CleanupRecord) : Region σ :=
  match record.handler with
  | none => r
  | some id =>
    { r with
      heap := (r.heap.note (.cleanupRun record.address)).record
        (.ran id (r.contents record.payload)) }

/-- The record that a handle names. -/
def cleanup? (r : Region σ) (c : Cleanup) : Option CleanupRecord :=
  CleanupRecord.find? r.pool.cleanups c

/-- Change the handler in the record that a handle names. -/
def arm (r : Region σ) (c : Cleanup) (handler : Option Nat) : Region σ :=
  { r with pool := { r.pool with cleanups := CleanupRecord.setHandler r.pool.cleanups c handler } }

/-- The handler that a handle's record has. -/
def handler? (r : Region σ) (c : Cleanup) : Option Nat :=
  (r.cleanup? c).bind CleanupRecord.handler

/-- A handler is armed. -/
def isArmed (r : Region σ) (c : Cleanup) : Bool :=
  (r.handler? c).isSome

/-- The bytes of a cleanup's payload. -/
def payload (r : Region σ) (c : Cleanup) : List UInt8 :=
  match r.cleanup? c with
  | none => []
  | some record => r.contents record.payload

/-- Store bytes in a cleanup's payload from `offset` on. Bytes past its end are dropped. -/
def writePayload (r : Region σ) (c : Cleanup) (offset : Nat) (bytes : List UInt8) : Region σ :=
  match r.cleanup? c with
  | none => r
  | some record =>
    r.store (record.payload.start + offset) (bytes.take (record.payload.size - offset)).toArray

/-- Install a handler, disposing of the one before. -/
def setHandler (r : Region σ) (c : Cleanup) (id : Nat) : Region σ :=
  (r.discard (r.handler? c)).arm c (some id)

/-- Remove the handler, disposing of it. -/
def disarm (r : Region σ) (c : Cleanup) : Region σ :=
  (r.discard (r.handler? c)).arm c none

/-- Run the handler now, and remove it. The answer says whether there was one. -/
def runNow (r : Region σ) (c : Cleanup) : Bool × Region σ :=
  match r.cleanup? c with
  | none => (false, r)
  | some record => (record.handler.isSome, (r.runHandler record).arm c none)

/-- Run every armed handler, newest record first, and forget the records. -/
def runCleanups (r : Region σ) : Region σ :=
  let r := r.pool.cleanups.foldl runHandler r
  { r with pool := { r.pool with cleanups := [] } }

/-- Dispose of every armed handler, newest record first, and forget the records. -/
def discardCleanups (r : Region σ) : Region σ :=
  let r := r.pool.cleanups.foldl (fun r record => r.discard record.handler) r
  { r with pool := { r.pool with cleanups := [] } }

variable [RawSource σ]

/-- Memory for a payload: no bytes are found at address one, others are allocated as zeros. -/
def allocatePayload (r : Region σ) (size : Nat) : Except Fault Nat × Region σ :=
  if size = 0 then (.ok 1, r) else r.allocateZeroed size

/-- Register a cleanup with a payload of `size` bytes and no handler yet. -/
def addCleanup (r : Region σ) (size : Nat) : Except Fault Cleanup × Region σ :=
  match r.reserve cleanupRecordSize wordAlign with
  | (.error fault, r) => (.error fault, r)
  | (.ok address, r) =>
    match r.allocatePayload size with
    | (.error fault, r) => (.error fault, r)
    | (.ok start, r) =>
      let serial := r.pool.cleanups.length
      let record : CleanupRecord := ⟨serial, address, ⟨start, size⟩, none⟩
      (.ok ⟨serial⟩,
        { r with pool := { r.pool with cleanups := record :: r.pool.cleanups } }.note
          (.cleanupAdded address size))

/-- Register a cleanup with a handler. If that fails, the handler is disposed of. -/
def addCleanupWith (r : Region σ) (size id : Nat) : Except Fault Cleanup × Region σ :=
  match r.addCleanup size with
  | (.error fault, r) => (.error fault, r.discard (some id))
  | (.ok c, r) => (.ok c, r.setHandler c id)

end RegionTrie.Region
