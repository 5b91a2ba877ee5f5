import RegionTrie.Proofs.Region.Lots
import RegionTrie.Proofs.Trie.Slabs
import RegionTrie.Proofs.Session.Turns

/-!
# What the users of a session keep

A session hands out memory and takes handlers, and its users rely on both. This module keeps the
books of the users: the bytes last stored through every allocation that is still theirs, the
cleanups since the last reset with their payloads and handlers, the handlers ever supplied, and what
became of those disposed of. The books are kept from requests, and from what their answers give
access to. They say nothing about blocks, records or slabs.

Users act by taking turns and by storing bytes through the ranges that they know by number. The
session acts too: it writes block headers, records and nodes into memory that is its own. As the
contents of its bookkeeping are no part of the model, these writes may store anything there.

## Main definitions

* `Holding`: the bytes kept in a range
* `Registration`: a cleanup as its user knows it
* `Custody`: the books
* `Session.Act`, `Session.act`: turns, stores through a range, and writes of the session itself
* `Custody.after`: the books after an act
* `Session.Private`: an address that is the session's own
* `Session.Careful`: acts that use only what is still there

## Main results

* `Session.steps_act`: an act comes down to steps of the region
-/

namespace RegionTrie

/-- Bytes kept in a range. -/
structure Holding where
  start : Nat
  bytes : List UInt8

namespace Holding

/-- Where the bytes lie. -/
def extent (h : Holding) : Extent :=
  ⟨h.start, h.bytes.length⟩

/-- There are bytes, and they start at this address. -/
def startsAt (h : Holding) (address : Nat) : Bool :=
  h.start == address && !h.bytes.isEmpty

/-- Other bytes are stored from an offset on. Those past the end are dropped. -/
def store (h : Holding) (offset : Nat) (bytes : List UInt8) : Holding :=
  { h with
    bytes := h.bytes.mapIdx fun i byte =>
      if offset ≤ i then (bytes[i - offset]?).getD byte else byte }

/-- Bytes are stored if this is the holding that lies in the given range. -/
def storeAt (h : Holding) (e : Extent) (offset : Nat) (bytes : List UInt8) : Holding :=
  if h.extent = e then h.store offset bytes else h

@[simp] theorem extent_store (h : Holding) (offset : Nat) (bytes : List UInt8) :
    (h.store offset bytes).extent = h.extent := by
  simp [extent, store]

@[simp] theorem extent_storeAt (h : Holding) (e : Extent) (offset : Nat) (bytes : List UInt8) :
    (h.storeAt e offset bytes).extent = h.extent := by
  unfold storeAt
  split
  · exact extent_store h offset bytes
  · rfl

end Holding

/-- A cleanup as its user knows it. -/
structure Registration where
  serial : Nat
  payload : Holding
  handler : Option Nat
  /-- The payload was not freed on its own. -/
  kept : Bool := true

/-- The cleanup with another handler, if it is the one with this serial number. -/
def Registration.arm (g : Registration) (serial : Nat) (handler : Option Nat) : Registration :=
  if g.serial = serial then { g with handler } else g

/-- The books that the users of a session keep. -/
structure Custody where
  /-- The allocations that were not freed since the last reset. -/
  ranges : List Holding := []
  /-- The cleanups since the last reset, newest first. -/
  roll : List Registration := []
  /-- The handlers ever supplied. -/
  supplied : List Nat := []
  /-- The runs and disposals of handlers, newest first. -/
  fates : List Effect := []

/-- Where the memory that an answer is about starts, if there is any. -/
def Answer.start? : Answer → Option Nat
  | place (.address start) | value (.address start) _ _ | slice (.address start) _ _
  | text (.address start) _ => some start
  | _ => none

namespace Custody

/-- Everything that its holders can rely on: allocations, and payloads of cleanups. -/
def live (c : Custody) : List Holding :=
  c.ranges ++ (c.roll.filter (·.kept)).map (·.payload)

theorem mem_live_of_mem_roll {c : Custody} {g : Registration} (hg : g ∈ c.roll) (hkept : g.kept) :
    g.payload ∈ c.live :=
  List.mem_append_right _ (List.mem_map_of_mem (List.mem_filter.mpr ⟨hg, hkept⟩))

/-- The cleanup with a serial number. -/
def registration? (c : Custody) (serial : Nat) : Option Registration :=
  c.roll.find? (·.serial == serial)

/-- The handlers that are armed, newest cleanup first. -/
def armed (c : Custody) : List Nat :=
  c.roll.filterMap (·.handler)

/-- Where memory was handed out, these bytes are kept there. -/
def gain (c : Custody) (outcome : Except Refusal Answer) (bytes : Nat → List UInt8) : Custody :=
  match outcome with
  | .error _ => c
  | .ok answer =>
    match answer.start? with
    | none => c
    | some start => { c with ranges := ⟨start, bytes start⟩ :: c.ranges }

/-- What starts at this address is no longer kept. -/
def lose (c : Custody) (address : Nat) : Custody :=
  { c with
    ranges := c.ranges.filter fun h => !h.startsAt address
    roll := c.roll.map fun g => { g with kept := g.kept && !g.payload.startsAt address } }

/-- Bytes are stored through the allocation that lies in this range. -/
def store (c : Custody) (e : Extent) (offset : Nat) (bytes : List UInt8) : Custody :=
  { c with
    ranges := c.ranges.map (·.storeAt e offset bytes)
    roll := c.roll.map fun g => { g with payload := g.payload.storeAt e offset bytes } }

/-- A cleanup is registered with a payload of zeros, and perhaps with a handler. -/
def register (c : Custody) (start size : Nat) (handler : Option Nat) : Custody :=
  { c with
    roll := ⟨c.roll.length, ⟨start, List.replicate size 0⟩, handler, true⟩ :: c.roll
    supplied := handler.toList ++ c.supplied }

/-- A handler is supplied in vain. -/
def refuse (c : Custody) (handler : Option Nat) : Custody :=
  { c with
    supplied := handler.toList ++ c.supplied
    fates := handler.toList.map .discarded ++ c.fates }

/-- The handler of a cleanup, if it has one, comes to its end, and perhaps another is installed. -/
def rearm (c : Custody) (serial : Nat) (fate : List UInt8 → Nat → Effect)
    (handler : Option Nat) : Custody :=
  { c with
    roll := c.roll.map (·.arm serial handler)
    supplied := handler.toList ++ c.supplied
    fates :=
      ((c.registration? serial).bind fun g => g.handler.map (fate g.payload.bytes)).toList ++
        c.fates }

/-- Everything is given up, and armed handlers are disposed of without running. -/
def reset (c : Custody) : Custody :=
  { c with ranges := [], roll := [], fates := (c.armed.map .discarded).reverse ++ c.fates }

end Custody

namespace Session

variable {σ : Type} [RawSource σ]

/-- What users and the session itself do. -/
inductive Act (σ : Type) where
  /-- A user takes a turn. -/
  | turn (t : Turn σ)
  /-- A user stores bytes through a range, from an offset on and up to its end. -/
  | write (range offset : Nat) (bytes : List UInt8)
  /-- The session writes into memory of its own. -/
  | disturb (start : Nat) (bytes : List UInt8)

/-- The session after an act. -/
def act (s : Session σ) : Act σ → Session σ
  | .turn t => s.take t
  | .write range offset bytes =>
    match s.ranges.get? range with
    | none => s
    | some e =>
      { s with
        region := s.region.store (e.start + offset) (bytes.take (e.size - offset)).toArray }
  | .disturb start bytes => { s with region := s.region.store start bytes.toArray }

/-- Where the slabs of all tries lie. -/
def slabs (s : Session σ) : List Extent :=
  s.tries.entries.flatMap fun entry => entry.2.trie.nodes.slabExtents

/-- The address is the session's own: it lies in a slab, in a record or in the header of a block, or
outside of all live buffers. -/
def Private (s : Session σ) (address : Nat) : Prop :=
  (∃ e ∈ s.slabs ++ s.region.records, e.Covers address) ∨
    (∃ b ∈ s.region.pool.chain.blocks, (⟨b.base, blockHeaderSize⟩ : Extent).Covers address) ∨
    ∀ b ∈ s.region.heap.live, ¬ b.extent.Covers address

instance (s : Session σ) (address : Nat) : Decidable (s.Private address) :=
  inferInstanceAs (Decidable (_ ∨ _ ∨ _))

end Session

namespace Custody

open Session

variable {σ : Type} [RawSource σ]

/-- The books after the large buffer at an address was to be given back. -/
def afterFree (c : Custody) (r : Region σ) (address : Nat) : Custody :=
  match (r.free address).1 with
  | .error _ => c
  | .ok () => c.lose address

/-- The books after something was done to a range, if that is known. -/
def withRange (c : Custody) (range : Option Extent) (f : Extent → Custody) : Custody :=
  match range with
  | none => c
  | some e => f e

/-- The books after something was done to the cleanup that a handle names, if there is one. -/
def withHandle (c : Custody) (handle : Option Cleanup) (f : Nat → Custody) : Custody :=
  match handle with
  | none => c
  | some handle => f handle.serial

/-- The books after bytes were stored in the payload of a cleanup. -/
def afterPayload (c : Custody) (serial offset : Nat) (bytes : List UInt8) : Custody :=
  match c.registration? serial with
  | none => c
  | some g => c.store g.payload.extent offset bytes

/-- The books after a cleanup was to be registered. -/
def afterAdd (c : Custody) (outcome : Except Refusal Answer) (r : Region σ) (size : Nat)
    (handler : Option Nat) : Custody :=
  match outcome with
  | .error _ => c.refuse handler
  | .ok _ =>
    let start := (r.pool.cleanups.head?.map fun record => record.payload.start).getD 0
    c.register start size handler

/-- The books after a request. What is handed out without being written shows what happens to be
there. -/
def afterRequest (c : Custody) (s : Session σ) (q : Request) : Custody :=
  let op := s.perform q
  match q with
  | .allocate _ size | .allocatePacked _ size | .allocateAligned _ size _ =>
    c.gain op.1 fun start => op.2.region.contents ⟨start, size⟩
  | .allocateLayout _ l => c.gain op.1 fun start => op.2.region.contents ⟨start, l.size⟩
  | .allocateZeroed _ size => c.gain op.1 fun _ => List.replicate size 0
  | .allocateValue _ kind value => c.gain op.1 fun _ => kind.encode value
  | .allocateSlice _ kind values => c.gain op.1 fun _ => kind.encodeAll values
  | .allocateText _ text => c.gain op.1 fun _ => text.toUTF8.toList
  | .free range offset =>
    c.withRange (s.ranges.get? range) fun e => c.afterFree s.region (e.start + offset)
  | .fill range byte =>
    c.withRange (s.ranges.get? range) fun e => c.store e 0 (List.replicate e.size byte)
  | .reset => c.reset
  | .addCleanup _ size handler => c.afterAdd op.1 op.2.region size handler
  | .setHandler cleanup id =>
    c.withHandle (s.cleanups.get? cleanup) fun serial =>
      c.rearm serial (fun _ => .discarded) (some id)
  | .disarm cleanup =>
    c.withHandle (s.cleanups.get? cleanup) fun serial => c.rearm serial (fun _ => .discarded) none
  | .writePayload cleanup offset bytes =>
    c.withHandle (s.cleanups.get? cleanup) fun serial => c.afterPayload serial offset bytes
  | .runNow cleanup =>
    c.withHandle (s.cleanups.get? cleanup) fun serial =>
      c.rearm serial (fun payload id => .ran id payload) none
  | _ => c

/-- The books after an act. -/
def after (c : Custody) (s : Session σ) : Act σ → Custody
  | .turn (.ask q _) => c.afterRequest s q
  | .turn (.free address) => c.afterFree s.region address
  | .turn (.adjust _) => c
  | .write range offset bytes => c.withRange (s.ranges.get? range) fun e => c.store e offset bytes
  | .disturb _ _ => c

/-- The range is one that is still kept. -/
def Keeps (c : Custody) (e : Extent) : Prop :=
  ∃ h ∈ c.live, h.extent = e

instance (c : Custody) (e : Extent) : Decidable (c.Keeps e) :=
  inferInstanceAs (Decidable (∃ h ∈ c.live, h.extent = e))

/-- The cleanup with a serial number has a payload still. -/
def KeepsPayload (c : Custody) (serial : Nat) : Prop :=
  ∀ g ∈ c.roll, g.serial = serial → g.kept

instance (c : Custody) (serial : Nat) : Decidable (c.KeepsPayload serial) :=
  inferInstanceAs (Decidable (∀ g ∈ c.roll, g.serial = serial → g.kept))

end Custody

namespace Session

variable {σ : Type} [RawSource σ]

/-- The act uses only what is still there, and keeps to what it may use: bytes are stored through
ranges and payloads that were not given up, handlers are run at once only on such payloads, slabs of
tries are not freed, and the session writes only where memory is its own. -/
def Allowed (s : Session σ) (c : Custody) : Act σ → Prop
  | .turn (.ask (.fill range _) _) | .write range _ _ =>
    ∀ e ∈ s.ranges.get? range, c.Keeps e
  | .turn (.ask (.writePayload cleanup _ _) _) | .turn (.ask (.runNow cleanup) _) =>
    ∀ handle ∈ s.cleanups.get? cleanup, c.KeepsPayload handle.serial
  | .turn (.ask (.free range offset) _) =>
    ∀ e ∈ s.ranges.get? range, ∀ slab ∈ s.slabs, slab.start ≠ e.start + offset
  | .turn (.free address) => ∀ slab ∈ s.slabs, slab.start ≠ address
  | .disturb start bytes => ∀ i < bytes.length, s.Private (start + i)
  | _ => True

instance Allowed.decidable (s : Session σ) (c : Custody) : (a : Act σ) → Decidable (s.Allowed c a)
  | .turn (.ask (.fill range _) _) | .write range _ _ =>
    inferInstanceAs (Decidable (∀ e ∈ s.ranges.get? range, c.Keeps e))
  | .turn (.ask (.writePayload cleanup _ _) _) | .turn (.ask (.runNow cleanup) _) =>
    inferInstanceAs
      (Decidable (∀ handle ∈ s.cleanups.get? cleanup, c.KeepsPayload handle.serial))
  | .turn (.ask (.free range offset) _) =>
    inferInstanceAs
      (Decidable (∀ e ∈ s.ranges.get? range, ∀ slab ∈ s.slabs, slab.start ≠ e.start + offset))
  | .turn (.free address) => inferInstanceAs (Decidable (∀ slab ∈ s.slabs, slab.start ≠ address))
  | .disturb start bytes =>
    inferInstanceAs (Decidable (∀ i < bytes.length, s.Private (start + i)))
  | .turn (.adjust _) => isTrue trivial
  | .turn (.ask (.allocate ..) _) | .turn (.ask (.allocatePacked ..) _)
  | .turn (.ask (.allocateZeroed ..) _) | .turn (.ask (.allocateAligned ..) _)
  | .turn (.ask (.allocateLayout ..) _) | .turn (.ask (.allocateValue ..) _)
  | .turn (.ask (.allocateSlice ..) _) | .turn (.ask (.allocateText ..) _)
  | .turn (.ask (.read _) _) | .turn (.ask .summary _) | .turn (.ask .reset _)
  | .turn (.ask (.addCleanup ..) _) | .turn (.ask (.setHandler ..) _)
  | .turn (.ask (.disarm _) _) | .turn (.ask (.readPayload _) _)
  | .turn (.ask (.createTrie ..) _) | .turn (.ask (.insert ..) _) | .turn (.ask (.delete ..) _)
  | .turn (.ask (.get ..) _) | .turn (.ask (.find ..) _) | .turn (.ask (.findMany ..) _)
  | .turn (.ask (.trieSummary _) _) | .turn (.ask (.dropTrie _) _) => isTrue trivial

/-- The session and the books after several acts. -/
def attend (s : Session σ) (c : Custody) : List (Act σ) → Session σ × Custody
  | [] => (s, c)
  | a :: rest => (s.act a).attend (c.after s a) rest

/-- Every one of several acts is allowed where it is done. -/
def Careful (s : Session σ) (c : Custody) : List (Act σ) → Prop
  | [] => True
  | a :: rest => s.Allowed c a ∧ (s.act a).Careful (c.after s a) rest

instance Careful.decidable (s : Session σ) (c : Custody) :
    (acts : List (Act σ)) → Decidable (s.Careful c acts)
  | [] => isTrue trivial
  | a :: rest =>
    have := Careful.decidable (s.act a) (c.after s a) rest
    inferInstanceAs (Decidable (_ ∧ _))

open Region

/-- An act comes down to steps of the region. -/
theorem steps_act (s : Session σ) (a : Act σ) : Steps s.region (s.act a).region := by
  cases a with
  | turn t => exact s.steps_take t
  | write range offset bytes =>
    simp only [act]
    rcases s.ranges.get? range with _ | e
    · exact .refl
    · exact (Step.store s.region _ _).steps
  | disturb start bytes => exact (Step.store s.region _ _).steps

theorem steps_attend (s : Session σ) (c : Custody) (acts : List (Act σ)) :
    Steps s.region (s.attend c acts).1.region := by
  induction acts generalizing s c with
  | nil => exact .refl
  | cons a rest ih => exact (s.steps_act a).trans (ih (s.act a) (c.after s a))

end Session

end RegionTrie
