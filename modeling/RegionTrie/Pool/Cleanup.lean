import RegionTrie.Layout

/-!
# Cleanup records

A cleanup record couples a payload, a range of bytes, with a handler that is to run on it when the
pool goes away. Records live inside blocks and are listed newest first. Handlers are known by
number.

## Main definitions

* `CleanupRecord`: where the record lies, its payload and its handler, if one is armed
* `Cleanup`: a handle that names a record
* `CleanupRecord.find?`, `CleanupRecord.setHandler`: looking a record up, and changing its handler
-/

namespace RegionTrie

/-- The record of a deferred action. `serial` counts the records added before it. -/
structure CleanupRecord where
  serial : Nat
  address : Nat
  payload : Extent
  handler : Option Nat
deriving DecidableEq

/-- A handle that names the record with this serial number. -/
structure Cleanup where
  serial : Nat
deriving DecidableEq

namespace CleanupRecord

/-- The record that a handle names. -/
def find? (records : List CleanupRecord) (c : Cleanup) : Option CleanupRecord :=
  records.find? fun record => record.serial == c.serial

/-- Change the handler of the record that a handle names. -/
def setHandler (records : List CleanupRecord) (c : Cleanup) (handler : Option Nat) :
    List CleanupRecord :=
  records.map fun record => if record.serial = c.serial then { record with handler } else record

end CleanupRecord

end RegionTrie
