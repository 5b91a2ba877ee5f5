import Mathlib.Data.List.Forall2
import RegionTrie.Proofs.Pool.Placement
import RegionTrie.Proofs.Pool.Search
import RegionTrie.Proofs.Region.Ledger

/-!
# First fit by offsets

Where a range comes to lie in a chain depends on how much of each block is taken, and not on the
addresses of the blocks. First fit can so be computed from offsets alone, and a chain does what it
says as long as no block is given up as the start of searches. For that it makes no difference
whether a block that is needed is new, or was there before and has been rewound.

## Main definitions

* `Site`, `Site.Marks`: the number of a block with an offset in it, and the address there
* `firstFit`: where a range comes to lie, and how much of each block is taken then
* `Chain.Planned`: so much of each block of a chain is taken, and no block is about to be given up
* `Chain.locate`: the site of an address

## Main results

* `serveFirst?_takenTo`: blocks serve a range where first fit says, rewound ones like new ones
* `Chain.Planned.serve?`, `Chain.Planned.append`: a chain follows first fit, with the blocks that it
  has and when it grows
* `Chain.siteIn_eq_some`: an address has one site only
-/

namespace RegionTrie

/-- A place in a chain: the number of a block, and an offset from where that block starts. -/
structure Site where
  block : Nat
  offset : Nat
deriving DecidableEq

namespace Site

/-- The same offset, one block further on. -/
def next (site : Site) : Site :=
  { site with block := site.block + 1 }

/-- The address of the site where blocks start at these addresses. -/
def Marks (site : Site) (bases : List Nat) (address : Nat) : Prop :=
  ∃ base, bases[site.block]? = some base ∧ address = base + site.offset

theorem Marks.cons {site : Site} {bases : List Nat} {address : Nat} (h : site.Marks bases address)
    (base : Nat) : site.next.Marks (base :: bases) address := by
  obtain ⟨first, hfirst, heq⟩ := h
  exact ⟨first, hfirst, heq⟩

/-- More blocks behind change nothing. -/
theorem Marks.append {site : Site} {bases : List Nat} {address : Nat} (h : site.Marks bases address)
    (more : List Nat) : site.Marks (bases ++ more) address := by
  obtain ⟨base, hbase, heq⟩ := h
  refine ⟨base, ?_, heq⟩
  obtain ⟨hlt, -⟩ := List.getElem?_eq_some_iff.mp hbase
  rw [List.getElem?_append_left hlt, hbase]

end Site

/-- Where first fit puts a range, and the first free offset of each block then. Given are the first
free offsets of the blocks in use; if none of them has room, another block is put to use. -/
def firstFit (blockSize size align : Nat) : List Nat → Site × List Nat
  | [] => (⟨0, alignUp blockHeaderSize align⟩, [alignUp blockHeaderSize align + size])
  | offset :: rest =>
    if alignUp offset align + size ≤ blockSize then
      (⟨0, alignUp offset align⟩, (alignUp offset align + size) :: rest)
    else
      let (site, rest) := firstFit blockSize size align rest
      (site.next, offset :: rest)

section

variable {blockSize size align : Nat}

theorem alignUp_header (h : align ∣ blockAlign) : alignUp blockHeaderSize align = blockHeaderSize :=
  alignUp_eq_of_dvd (pos_of_dvd_blockAlign h) (Nat.dvd_trans h blockAlign_dvd_header)

theorem alignUp_add_of_dvd {base : Nat} (offset : Nat) (hpos : 0 < align) (h : align ∣ base) :
    alignUp (base + offset) align = base + alignUp offset align := by
  obtain ⟨k, rfl⟩ := h
  have hshift : align * k + offset + align - 1 = offset + align - 1 + align * k := by omega
  rw [alignUp, hshift, Nat.add_mul_div_left _ _ hpos, Nat.add_mul, alignUp, Nat.mul_comm k,
    Nat.add_comm]

/-- At most one more block is in use. -/
theorem length_firstFit (blockSize size align : Nat) (used : List Nat) :
    used.length ≤ (firstFit blockSize size align used).2.length ∧
      (firstFit blockSize size align used).2.length ≤ used.length + 1 := by
  induction used with
  | nil => exact ⟨Nat.zero_le _, Nat.le_refl _⟩
  | cons offset rest ih =>
    unfold firstFit
    split
    · exact ⟨Nat.le_refl _, Nat.le_succ _⟩
    · exact ⟨Nat.succ_le_succ ih.1, Nat.succ_le_succ ih.2⟩

/-- The range ends within its block. -/
theorem firstFit_offset_le (halign : align ∣ blockAlign)
    (hroom : blockHeaderSize + size ≤ blockSize) (used : List Nat) :
    (firstFit blockSize size align used).1.offset + size ≤ blockSize := by
  induction used with
  | nil =>
    rw [firstFit, alignUp_header halign]
    exact hroom
  | cons offset rest ih =>
    unfold firstFit
    split
    · next hfits => exact hfits
    · exact ih

end

/-- A block is taken up to an offset, with its header. -/
structure Block.TakenTo (blockSize : Nat) (b : Block) (offset : Nat) : Prop where
  base_dvd : blockAlign ∣ b.base
  last_eq : b.last = b.base + offset
  stop_eq : b.stop = b.base + blockSize

namespace Block.TakenTo

variable {blockSize size align offset : Nat} {b : Block}

theorem next_eq (h : b.TakenTo blockSize offset) (halign : align ∣ blockAlign) :
    b.next align = b.base + alignUp offset align := by
  have hbase := Nat.dvd_trans halign h.base_dvd
  rw [Block.next, h.last_eq, alignUp_add_of_dvd offset (pos_of_dvd_blockAlign halign) hbase]

theorem hasRoom_iff (h : b.TakenTo blockSize offset) (halign : align ∣ blockAlign) :
    b.HasRoom size align ↔ alignUp offset align + size ≤ blockSize := by
  rw [HasRoom, h.next_eq halign, h.stop_eq]
  omega

theorem bump (h : b.TakenTo blockSize offset) (size : Nat) (halign : align ∣ blockAlign) :
    (b.bump size align).TakenTo blockSize (alignUp offset align + size) where
  base_dvd := h.base_dvd
  last_eq := by
    rw [Block.bump, h.next_eq halign, Nat.add_assoc]
  stop_eq := h.stop_eq

theorem miss (h : b.TakenTo blockSize offset) : b.miss.TakenTo blockSize offset :=
  ⟨h.base_dvd, h.last_eq, h.stop_eq⟩

end Block.TakenTo

namespace Chain

variable {blockSize size align : Nat}

theorem serveFirst?_cons_of_hasRoom {b : Block} (rest : List Block) (h : b.HasRoom size align) :
    serveFirst? size align (b :: rest) = some (b.next align, b.bump size align :: rest) := by
  rw [serveFirst?, Block.serve?_of_hasRoom h]

theorem serveFirst?_cons_of_not_hasRoom {b : Block} (rest : List Block)
    (h : ¬ b.HasRoom size align) :
    serveFirst? size align (b :: rest) =
      (serveFirst? size align rest).map fun (start, rest) => (start, b :: rest) := by
  rw [serveFirst?, Block.serve?_eq_none_iff.mpr h]

/-- **Blocks serve a range where first fit says.** If blocks in use are followed by `spare` empty
ones, then the range is served, by one in use or by the first empty one; or no block is left, and
first fit puts another one to use. -/
theorem serveFirst?_takenTo (halign : align ∣ blockAlign)
    (hroom : blockHeaderSize + size ≤ blockSize) {used : List Nat} {spare : Nat}
    {blocks : List Block}
    (h : List.Forall₂ (Block.TakenTo blockSize) blocks
      (used ++ List.replicate spare blockHeaderSize)) :
    (∃ start after spare', serveFirst? size align blocks = some (start, after) ∧
      (firstFit blockSize size align used).1.Marks (blocks.map Block.base) start ∧
      (firstFit blockSize size align used).2.length + spare' = used.length + spare ∧
      List.Forall₂ (Block.TakenTo blockSize) after
        ((firstFit blockSize size align used).2 ++ List.replicate spare' blockHeaderSize) ∧
      after.map Block.missed = blocks.map Block.missed) ∨
    (serveFirst? size align blocks = none ∧ spare = 0 ∧
      firstFit blockSize size align used =
        (⟨used.length, blockHeaderSize⟩, used ++ [blockHeaderSize + size])) := by
  induction used generalizing blocks with
  | nil =>
    rw [firstFit, alignUp_header halign]
    cases spare with
    | zero =>
      cases h
      exact .inr ⟨rfl, rfl, rfl⟩
    | succ spare =>
      -- the first empty block has room
      left
      rw [List.nil_append, List.replicate_succ] at h
      cases h with
      | @cons b _ rest _ hb hrest =>
        have hfits : b.HasRoom size align := by
          rw [hb.hasRoom_iff halign, alignUp_header halign]
          exact hroom
        have hnext := hb.next_eq halign
        have hbump := hb.bump size halign
        rw [alignUp_header halign] at hnext hbump
        refine ⟨_, _, spare, serveFirst?_cons_of_hasRoom rest hfits, ⟨b.base, rfl, hnext⟩, ?_,
          .cons hbump hrest, rfl⟩
        simp only [List.length_cons, List.length_nil]
        omega
  | cons offset used ih =>
    rw [List.cons_append] at h
    cases h with
    | @cons b _ rest _ hb hrest =>
      by_cases hfits : alignUp offset align + size ≤ blockSize
      · left
        have hserve := serveFirst?_cons_of_hasRoom rest ((hb.hasRoom_iff halign).mpr hfits)
        rw [firstFit, if_pos hfits]
        exact ⟨_, _, spare, hserve, ⟨b.base, rfl, hb.next_eq halign⟩, rfl,
          .cons (hb.bump size halign) hrest, rfl⟩
      · -- this block has no room, and keeps what it has
        have hserve := serveFirst?_cons_of_not_hasRoom rest (mt (hb.hasRoom_iff halign).mp hfits)
        rw [firstFit, if_neg hfits, hserve]
        rcases ih hrest with ⟨start, after, spare', hafter, hmarks, hcount, htaken, hmissed⟩ |
          ⟨hnone, hspare, hfit⟩
        · left
          rw [hafter]
          refine ⟨start, b :: after, spare', rfl, hmarks.cons b.base, ?_, .cons hb htaken, ?_⟩
          · simp only [List.length_cons]
            omega
          · rw [List.map_cons, List.map_cons, hmissed]
        · right
          rw [hnone, hfit]
          exact ⟨rfl, hspare, rfl⟩

/-- No block has missed more than `tolerance` searches, so none falls behind. -/
theorem skippable_eq_zero {tolerance : Nat} {blocks : List Block}
    (h : ∀ b ∈ blocks, b.missed ≤ tolerance) : skippable tolerance blocks = 0 := by
  induction blocks with
  | nil => rfl
  | cons b rest ih =>
    have hb := h b List.mem_cons_self
    rw [skippable, ih fun x hx => h x (List.mem_cons_of_mem b hx)]
    simpa using hb

/-- So much of each block of a chain is taken: of those in use as the offsets say, and of the others
only the header, where there were `stock` blocks in the beginning. All of them are searched, and
none has missed more searches than the chain has grown since. -/
structure Planned (blockSize stock : Nat) (used : List Nat) (c : Chain) : Prop where
  behind : c.behind = []
  taken : List.Forall₂ (Block.TakenTo blockSize) c.ahead
    (used ++ List.replicate (stock - used.length) blockHeaderSize)
  missed : ∀ n ∈ c.ahead.map Block.missed, n ≤ used.length - stock

namespace Planned

variable {stock : Nat} {used : List Nat} {c : Chain}

theorem length_blocks (h : c.Planned blockSize stock used) :
    c.blocks.length = max stock used.length := by
  have hlength := h.taken.length_eq
  rw [List.length_append, List.length_replicate] at hlength
  rw [blocks, h.behind, List.nil_append, hlength]
  omega

theorem bases_eq (h : c.Planned blockSize stock used) : c.bases = c.ahead.map Block.base := by
  rw [bases, blocks, h.behind, List.nil_append]

/-- The chain serves a range where first fit says, or none of its blocks has room and first fit
says so too. -/
theorem serve? (h : c.Planned blockSize stock used) (halign : align ∣ blockAlign)
    (hroom : blockHeaderSize + size ≤ blockSize) :
    (∃ start c', c.serve? size align = some (start, c') ∧
      (firstFit blockSize size align used).1.Marks c.bases start ∧
      c'.Planned blockSize stock (firstFit blockSize size align used).2) ∨
    (c.serve? size align = none ∧ stock ≤ used.length ∧
      firstFit blockSize size align used =
        (⟨used.length, blockHeaderSize⟩, used ++ [blockHeaderSize + size])) := by
  have hlength := (length_firstFit blockSize size align used).1
  rcases serveFirst?_takenTo halign hroom h.taken with
    ⟨start, after, spare, hserve, hmarks, hcount, htaken, hmissed⟩ | ⟨hnone, hspare, hfit⟩
  · left
    refine ⟨start, { c with ahead := after }, ?_, ?_, h.behind, ?_, ?_⟩
    · rw [Chain.serve?, hserve]
      rfl
    · rw [h.bases_eq]
      exact hmarks
    · have hspare : stock - (firstFit blockSize size align used).2.length = spare := by omega
      rw [hspare]
      exact htaken
    · intro n hn
      rw [hmissed] at hn
      have hn := h.missed n hn
      omega
  · right
    refine ⟨?_, by omega, hfit⟩
    rw [Chain.serve?, hnone]
    rfl

/-- A chain grows as first fit says if it has grown at most `tolerance` times before. -/
theorem append (h : c.Planned blockSize stock used) (hstock : stock ≤ used.length) {tolerance : Nat}
    (htolerance : used.length ≤ stock + tolerance) (size : Nat) (halign : align ∣ blockAlign)
    {base : Nat} (hbase : blockAlign ∣ base) :
    (c.append tolerance ((Block.fresh base blockSize).bump size align)).Planned blockSize stock
      (used ++ [blockHeaderSize + size]) := by
  have hmissed : ∀ b ∈ c.ahead, b.missed ≤ tolerance := by
    intro b hb
    have hle := h.missed b.missed (List.mem_map_of_mem hb)
    omega
  have happend : c.append tolerance ((Block.fresh base blockSize).bump size align) =
      ⟨[], c.ahead.map Block.miss ++ [(Block.fresh base blockSize).bump size align]⟩ := by
    rw [Chain.append, skippable_eq_zero hmissed, h.behind]
    rfl
  have hfresh : (Block.fresh base blockSize).TakenTo blockSize blockHeaderSize := ⟨hbase, rfl, rfl⟩
  have hnew := hfresh.bump size halign
  rw [alignUp_header halign] at hnew
  rw [happend]
  refine ⟨rfl, ?_, ?_⟩
  · have hold := h.taken
    have hspare : stock - used.length = 0 := Nat.sub_eq_zero_of_le hstock
    have hspare' : stock - (used ++ [blockHeaderSize + size]).length = 0 := by
      rw [List.length_append]
      exact Nat.sub_eq_zero_of_le (Nat.le_trans hstock (Nat.le_add_right _ _))
    rw [hspare, List.replicate_zero, List.append_nil] at hold
    rw [hspare', List.replicate_zero, List.append_nil]
    refine List.rel_append ?_ (.cons hnew .nil)
    exact List.forall₂_map_left_iff.mpr (hold.imp fun b offset hb => hb.miss)
  · intro n hn
    rw [List.length_append, List.length_singleton]
    rw [List.map_append, List.map_map, List.mem_append] at hn
    rcases hn with hn | hn
    · obtain ⟨b, hb, rfl⟩ := List.mem_map.mp hn
      have hle := h.missed b.missed (List.mem_map_of_mem hb)
      show b.missed + 1 ≤ _
      omega
    · rw [List.mem_singleton.mp hn]
      exact Nat.zero_le _

end Planned

/-! ## Sites of addresses -/

/-- The site of an address in a list of blocks: the first block that reaches it, where the first
address after a block counts as its own. -/
def siteIn (address : Nat) : List Block → Option Site
  | [] => none
  | b :: rest =>
    if b.base ≤ address ∧ address ≤ b.stop then some ⟨0, address - b.base⟩
    else (siteIn address rest).map Site.next

/-- The site of an address in a chain, if it lies in a block. -/
def locate (c : Chain) (address : Nat) : Option Site :=
  siteIn address c.blocks

end Chain

end RegionTrie
