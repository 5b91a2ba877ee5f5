import RegionTrie.Heap.Basic
import RegionTrie.Pool.Block
import Mathlib.Data.List.Basic

/-!
# Reading the log

The log of a region is what its journal has in diagnostics. Someone who sees nothing else can still
count the blocks, list the large buffers and count the cleanups. This module says how the log is
read, and when it tells the truth about the buffers that went back to the source: the log said so
just before, or the buffer was granted just before and no room was found for its record, so that the
log never heard of it.

## Main definitions

* `Journal.log`: the diagnostics in a journal
* `Reading`, `Reading.heed`, `Journal.reading`: what a reader of the log knows
* `Journal.Matched`: what the log says was freed was announced before, and not freed since
* `Journal.Explained`: every buffer given back is explained by what comes before
* `Journal.Shows`: the log shows so many blocks, these large buffers and so many cleanups

## Main results

* `Journal.Shows.quiet` and others: what the log shows after one more entry
* `Journal.Shows.foldl_largeFreed`, `Journal.Shows.foldl_blockFreed`: and after many buffers went
-/

namespace RegionTrie

/-- The diagnostic that an entry of the journal is, if it is one. -/
def Effect.event? : Effect → Option Event
  | .noted event => some event
  | _ => none

/-- What a reader of the log knows. -/
structure Reading where
  /-- How many blocks there are besides the first one. -/
  grown : Nat := 0
  /-- Where the large buffers start that were announced and not freed since. -/
  pending : List Nat := []
  /-- How many cleanups were added since the last reset. -/
  cleanups : Nat := 0

/-- What the reader knows after one more diagnostic. -/
def Reading.heed (k : Reading) : Event → Reading
  | .poolGrown .. => { k with grown := k.grown + 1 }
  | .largeLinked address .. | .largeReused address _ => { k with pending := address :: k.pending }
  | .largeFreed address => { k with pending := k.pending.erase address }
  | .cleanupAdded .. => { k with cleanups := k.cleanups + 1 }
  | .poolReset _ => { k with cleanups := 0 }
  | _ => k

namespace Journal

/-- The diagnostics in a journal. -/
def log (j : List Effect) : List Event :=
  j.filterMap Effect.event?

/-- What a reader knows who read the log from its first diagnostic, which comes last, to its newest
one. -/
def reading (j : List Effect) : Reading :=
  (log j).foldr (fun event k => k.heed event) {}

/-- Whatever large buffer the log says was freed was pending then. -/
def Matched : List Effect → Prop
  | [] => True
  | .noted (.largeFreed address) :: older => address ∈ (reading older).pending ∧ Matched older
  | _ :: older => Matched older

/-- What comes right before a buffer is given back: the log says that it is freed, as a large buffer
or as a block, or it was granted and the block for its record was declined. -/
inductive Explains (b : Buffer) : List Effect → Prop
  | large (older : List Effect) : Explains b (.noted (.largeFreed b.base) :: older)
  | block (unused : Nat) (older : List Effect) :
      Explains b (.noted (.blockFreed b.base unused) :: older)
  | untracked (l : Layout) (older : List Effect) :
      Explains b (.declined l :: .granted b :: older)

/-- Whenever a buffer was given back, what came right before explains it. -/
def Explained : List Effect → Prop
  | [] => True
  | .released b :: older => Explains b older ∧ Explained older
  | _ :: older => Explained older

end Journal

/-! ## Entries that tell nothing about the pool -/

/-- The diagnostic changes nothing about what a reader knows. -/
def Event.Quiet : Event → Prop
  | .poolGrown .. | .poolReset _ | .largeLinked .. | .largeReused .. | .largeFreed _
  | .cleanupAdded .. => False
  | _ => True

/-- The entry is no diagnostic that changes what a reader knows, and gives no buffer back. -/
def Effect.Quiet : Effect → Prop
  | .released _ => False
  | .noted event => event.Quiet
  | _ => True

/-- The diagnostic says that a large buffer starts at the address from now on. -/
inductive Event.Announces (address : Nat) : Event → Prop
  | linked (size align : Nat) : Announces address (.largeLinked address size align)
  | reused (size : Nat) : Announces address (.largeReused address size)

namespace Journal

@[simp]
theorem log_noted (event : Event) (j : List Effect) : log (.noted event :: j) = event :: log j :=
  rfl

theorem log_append (j older : List Effect) : log (j ++ older) = log j ++ log older :=
  List.filterMap_append

theorem log_reverse (j : List Effect) : log j.reverse = (log j).reverse :=
  List.filterMap_reverse

/-- The log shows so many blocks, large buffers that start at these addresses, and so many cleanups.
It says of no other buffer that it is freed, and explains every one that was given back. -/
structure Shows (j : List Effect) (blocks : Nat) (large : List Nat) (cleanups : Nat) : Prop where
  blocks_eq : 1 + (reading j).grown = blocks
  perm : (reading j).pending.Perm large
  cleanups_eq : (reading j).cleanups = cleanups
  matched : Matched j
  explained : Explained j

namespace Shows

variable {j : List Effect} {blocks cleanups : Nat} {large : List Nat} {b : Buffer}

theorem trans_perm (h : Shows j blocks large cleanups) {large' : List Nat}
    (hperm : large.Perm large') : Shows j blocks large' cleanups :=
  { h with perm := h.perm.trans hperm }

/-! ## One entry -/

theorem quiet (h : Shows j blocks large cleanups) {e : Effect} (he : e.Quiet) :
    Shows (e :: j) blocks large cleanups := by
  obtain ⟨hblocks, hperm, hcleanups, hmatched, hexplained⟩ := h
  cases e with
  | released b => exact he.elim
  | noted event =>
    cases event with
    | poolGrown | poolReset | largeLinked | largeReused | largeFreed | cleanupAdded =>
      exact he.elim
    | _ => exact ⟨hblocks, hperm, hcleanups, hmatched, hexplained⟩
  | _ => exact ⟨hblocks, hperm, hcleanups, hmatched, hexplained⟩

theorem grown (h : Shows j blocks large cleanups) (block size : Nat) :
    Shows (.noted (.poolGrown block size) :: j) (blocks + 1) large cleanups where
  blocks_eq := congrArg (· + 1) h.blocks_eq
  perm := h.perm
  cleanups_eq := h.cleanups_eq
  matched := h.matched
  explained := h.explained

theorem announced (h : Shows j blocks large cleanups) {address : Nat} {event : Event}
    (hevent : event.Announces address) :
    Shows (.noted event :: j) blocks (address :: large) cleanups := by
  cases hevent with
  | linked size align =>
    exact ⟨h.blocks_eq, h.perm.cons address, h.cleanups_eq, h.matched, h.explained⟩
  | reused size =>
    exact ⟨h.blocks_eq, h.perm.cons address, h.cleanups_eq, h.matched, h.explained⟩

theorem registered (h : Shows j blocks large cleanups) (address size : Nat) :
    Shows (.noted (.cleanupAdded address size) :: j) blocks large (cleanups + 1) where
  blocks_eq := h.blocks_eq
  perm := h.perm
  cleanups_eq := congrArg (· + 1) h.cleanups_eq
  matched := h.matched
  explained := h.explained

theorem reset (h : Shows j blocks large cleanups) (n : Nat) :
    Shows (.noted (.poolReset n) :: j) blocks large 0 :=
  ⟨h.blocks_eq, h.perm, rfl, h.matched, h.explained⟩

/-! ## Buffers that go -/

theorem largeFreed (h : Shows j blocks (b.base :: large) cleanups) :
    Shows (.released b :: .noted (.largeFreed b.base) :: j) blocks large cleanups where
  blocks_eq := h.blocks_eq
  perm := by
    show ((reading j).pending.erase b.base).Perm large
    have hperm := h.perm.erase b.base
    rwa [List.erase_cons_head] at hperm
  cleanups_eq := h.cleanups_eq
  matched := ⟨h.perm.symm.subset List.mem_cons_self, h.matched⟩
  explained := ⟨.large j, h.explained⟩

theorem blockFreed (h : Shows j blocks large cleanups) (unused : Nat) :
    Shows (.released b :: .noted (.blockFreed b.base unused) :: j) blocks large cleanups where
  blocks_eq := h.blocks_eq
  perm := h.perm
  cleanups_eq := h.cleanups_eq
  matched := h.matched
  explained := ⟨.block unused j, h.explained⟩

/-- A buffer that cannot be tracked comes and goes, and the log never hears of it. -/
theorem untracked (h : Shows j blocks large cleanups) (l : Layout) :
    Shows (.released b :: .declined l :: .granted b :: j) blocks large cleanups where
  blocks_eq := h.blocks_eq
  perm := h.perm
  cleanups_eq := h.cleanups_eq
  matched := h.matched
  explained := ⟨.untracked l j, h.explained⟩

variable {σ : Type} [RawSource σ]

/-- Large buffers are freed one after the other. -/
theorem foldl_largeFreed (buffers : List Buffer) {h : Heap σ}
    (hshows : Shows h.journal blocks (buffers.map Buffer.base ++ large) cleanups) :
    Shows (buffers.foldl (fun heap b => (Heap.note heap (.largeFreed b.base)).release b) h).journal
      blocks large cleanups := by
  induction buffers generalizing h with
  | nil => exact hshows
  | cons b buffers ih => exact ih hshows.largeFreed

/-- So are blocks, which leaves the large buffers that the log shows. -/
theorem foldl_blockFreed (items : List Block) (layout : Layout) {h : Heap σ}
    (hshows : Shows h.journal blocks large cleanups) :
    Shows (items.foldl (fun heap b =>
      (Heap.note heap (.blockFreed b.base b.unused)).release ⟨b.base, layout⟩) h).journal
      blocks large cleanups := by
  induction items generalizing h with
  | nil => exact hshows
  | cons b items ih => exact ih (hshows.blockFreed b.unused)

end Shows

end Journal

/-- What was written since some moment is what came on top of the journal. -/
theorem Heap.effectsSince_of_append {σ : Type} {h : Heap σ} {new older : List Effect}
    (hjournal : h.journal = new ++ older) : h.effectsSince older.length = new.reverse := by
  unfold Heap.effectsSince
  rw [hjournal, List.length_append, Nat.add_sub_cancel, List.take_left]

end RegionTrie
