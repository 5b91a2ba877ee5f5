import Mathlib.Data.Nat.Prime.Basic
import RegionTrie.Proofs.Pool.Placement

/-!
# Blocks in machine words

Addresses, sizes and counters are natural numbers here, and a machine has words for them. What a
block computes is computed once more, by operations on words that have no result where a word
overflows or where a difference would be negative. As long as rounding up from the end of a block
stays in the address space, every such operation has a result, and it is the one over numbers.

## Main definitions

* `wordBound`: the number of machine words
* `Checked.add`, `Checked.sub`: sums and differences that are words
* `Checked.roundUp`, `Checked.isLayout`: rounding up by masks, and what forms a layout
* `Checked.serve?`, `Checked.search?`, `Checked.append`: what blocks and chains do, in words
* `Block.Fits`: a block about which everything can be computed in words

## Main results

* `Checked.roundUp_eq`: rounding up by masks is rounding up
* `Checked.isLayout_eq`: no word overflows in telling what forms a layout
* `Checked.search?_eq`, `Checked.append_eq`: neither does one in searching blocks that fit, and
  in appending one
-/

namespace RegionTrie

/-- Addresses, sizes, alignments and counters are smaller than this. -/
def wordBound : Nat := 1 <<< 64

/-- Everything about the block can be computed in words: its free bytes, rounding up from any
address up to its end, and one more miss. -/
structure Block.Fits (b : Block) : Prop where
  last_le : b.last ≤ b.stop
  stop_lt : b.stop + blockAlign < wordBound
  missed_lt : b.missed + 1 < wordBound

namespace Checked

/-- A sum, unless it overflows. -/
def add (m n : Nat) : Option Nat :=
  if m + n < wordBound then some (m + n) else none

/-- A difference, unless it would be negative. -/
def sub (m n : Nat) : Option Nat :=
  if n ≤ m then some (m - n) else none

/-- Rounding up to a multiple, for powers of two: the low bits of the last address that a multiple
could have are cleared. -/
def roundUp (n align : Nat) : Option Nat := do
  let past ← add n align
  let last ← sub past 1
  let low ← sub align 1
  return last &&& (wordBound - 1 - low)

/-- Size and alignment form a layout: the size is compared with the largest one that there is for
the alignment. -/
def isLayout (l : Layout) : Option Bool :=
  if l.align.isPowerOfTwo then do
    let largest ← sub Layout.bound l.align
    return decide (l.size ≤ largest)
  else some false

theorem add_eq {m n : Nat} (h : m + n < wordBound) : add m n = some (m + n) :=
  if_pos h

theorem sub_eq {m n : Nat} (h : n ≤ m) : sub m n = some (m - n) :=
  if_pos h

/-- Clearing the low bits of a word goes down to a multiple. -/
theorem and_clear_low {n k : Nat} (hn : n < wordBound) (hk : 2 ^ k ≤ wordBound) :
    n &&& (wordBound - 1 - (2 ^ k - 1)) = n / 2 ^ k * 2 ^ k := by
  have hbound : wordBound = 2 ^ 64 := rfl
  have hpos := Nat.two_pow_pos k
  have hmask : wordBound - 1 - (2 ^ k - 1) = 2 ^ 64 - ((2 ^ k - 1) + 1) := by omega
  rw [hmask]
  refine Nat.eq_of_testBit_eq fun i => ?_
  -- low bits are clear on both sides, and words have no bits beyond those of the mask
  rw [Nat.testBit_and, Nat.testBit_two_pow_sub_succ (by omega), Nat.testBit_two_pow_sub_one,
    Nat.testBit_mul_two_pow, Nat.testBit_div_two_pow]
  by_cases hlow : k ≤ i
  · have hnot : ¬ i < k := Nat.not_lt.mpr hlow
    rw [Nat.sub_add_cancel hlow]
    by_cases hi : i < 64
    · simp [hlow, hnot, hi]
    · have hhigh : n.testBit i = false :=
        Nat.testBit_lt_two_pow (Nat.lt_of_lt_of_le (hbound ▸ hn)
          (Nat.pow_le_pow_right (by decide) (by omega)))
      simp [hhigh]
  · have hlt : i < k := by omega
    simp [hlow, hlt]

/-- **Rounding up by masks is rounding up**, if the sum that it starts with is a word. -/
theorem roundUp_eq {n align : Nat} (halign : align.isPowerOfTwo) (h : n + align < wordBound) :
    roundUp n align = some (alignUp n align) := by
  obtain ⟨k, rfl⟩ := halign
  have hpos := Nat.two_pow_pos k
  rw [roundUp, add_eq h, Option.bind_eq_bind, Option.bind_some, sub_eq (by omega), Option.bind_some,
    sub_eq hpos, Option.bind_some, and_clear_low (by omega) (by omega)]
  rfl

/-- No word overflows in telling whether size and alignment form a layout. -/
theorem isLayout_eq {l : Layout} (h : l.align < wordBound) :
    isLayout l = some (decide l.Valid) := by
  unfold isLayout
  by_cases hpower : l.align.isPowerOfTwo
  · rw [if_pos hpower]
    -- the largest power of two among words is just small enough
    have hle : l.align ≤ Layout.bound := by
      obtain ⟨k, hk⟩ := hpower
      rw [hk] at h ⊢
      exact Nat.pow_le_pow_right (by decide)
        (Nat.le_of_lt_succ ((Nat.pow_lt_pow_iff_right (by decide)).mp h) : k ≤ 63)
    rw [sub_eq hle, Option.bind_eq_bind, Option.bind_some]
    refine congrArg some (decide_eq_decide.mpr ⟨fun hsize => ⟨hpower, ?_⟩, fun hvalid => ?_⟩)
    · omega
    · have := hvalid.2
      omega
  · rw [if_neg hpower, decide_eq_false fun hvalid => hpower hvalid.1]

/-! ## Blocks -/

/-- The block in memory of the given size from `base` on. -/
def fresh (base size : Nat) : Option Block := do
  let last ← add base blockHeaderSize
  let stop ← add base size
  return ⟨base, last, stop, 0⟩

/-- Where the next range of the given alignment would start. -/
def next (b : Block) (align : Nat) : Option Nat := do
  let rounded ← roundUp b.last align
  let gap ← sub rounded b.last
  add b.last gap

/-- Hand out the next range: its start and the block that is left. -/
def bump (b : Block) (size align : Nat) : Option (Nat × Block) := do
  let start ← next b align
  let last ← add start size
  return (start, { b with last })

/-- Hand out a range if it fits. The room in a block is a difference, which there is none of if
rounding up has passed the end. -/
def serve? (b : Block) (size align : Nat) : Option (Option (Nat × Block)) := do
  let start ← next b align
  match sub b.stop start with
  | none => return none
  | some room =>
    if size ≤ room then
      let last ← add start size
      return some (start, { b with last })
    else return none

/-- The block after one more search that it could not satisfy. -/
def miss (b : Block) : Option Block := do
  let missed ← add b.missed 1
  return { b with missed }

variable {b : Block} {base size align : Nat}

/-- A divisor of the alignment of blocks is a power of two. -/
theorem isPowerOfTwo_of_dvd_blockAlign (h : align ∣ blockAlign) : align.isPowerOfTwo := by
  obtain ⟨k, -, rfl⟩ := (Nat.dvd_prime_pow Nat.prime_two (m := 4)).mp h
  exact ⟨k, rfl⟩

/-- Rounding up in a block stays in the address space. -/
theorem next_eq (hb : b.Fits) (halign : align ∣ blockAlign) :
    next b align = some (b.next align) := by
  have hpos := pos_of_dvd_blockAlign halign
  have hle : align ≤ blockAlign := Nat.le_of_dvd (by decide) halign
  have hlast := hb.last_le
  have hstop := hb.stop_lt
  have hrounded : b.last ≤ alignUp b.last align := le_alignUp b.last hpos
  have hlt : alignUp b.last align < b.last + align := alignUp_lt b.last hpos
  have hgap : b.last + (alignUp b.last align - b.last) = alignUp b.last align :=
    Nat.add_sub_of_le hrounded
  rw [next, roundUp_eq (isPowerOfTwo_of_dvd_blockAlign halign) (by omega), Option.bind_eq_bind,
    Option.bind_some, sub_eq hrounded, Option.bind_some, add_eq (by omega), hgap]
  rfl

theorem serve?_eq (hb : b.Fits) (halign : align ∣ blockAlign) :
    serve? b size align = some (b.serve? size align) := by
  have hstop := hb.stop_lt
  rw [serve?, next_eq hb halign, Option.bind_eq_bind, Option.bind_some]
  unfold Block.serve?
  by_cases hpast : b.next align ≤ b.stop
  · rw [sub_eq hpast]
    dsimp only
    by_cases hroom : b.next align + size ≤ b.stop
    · rw [if_pos (by omega), if_pos hroom, add_eq (by omega)]
      rfl
    · rw [if_neg (by omega), if_neg hroom]
      rfl
  · -- rounding up has passed the end
    rw [sub, if_neg hpast, if_neg (by omega)]
    rfl

theorem miss_eq (hb : b.Fits) : miss b = some b.miss := by
  rw [miss, add_eq hb.missed_lt]
  rfl

/-- A new block can be computed if rounding up from its end can, and serves behind its header. -/
theorem bump_fresh_eq (hbase : blockAlign ∣ base) (halign : align ∣ blockAlign) {room : Nat}
    (hroom : blockHeaderSize + size ≤ room) (hstop : base + room + blockAlign < wordBound) :
    ((fresh base room).bind fun b => bump b size align) =
      some ((Block.fresh base room).next align, (Block.fresh base room).bump size align) := by
  have hfresh : fresh base room = some (Block.fresh base room) := by
    rw [fresh, add_eq (by omega), Option.bind_eq_bind, Option.bind_some, add_eq (by omega)]
    rfl
  have hfits : (Block.fresh base room).Fits := by
    refine ⟨?_, hstop, (by decide : 0 + 1 < wordBound)⟩
    show base + blockHeaderSize ≤ base + room
    omega
  rw [hfresh, Option.bind_some, bump, next_eq hfits halign, Option.bind_eq_bind, Option.bind_some,
    Block.next_fresh hbase halign, add_eq (by omega)]
  show some (_, _) = some (_, _)
  rw [Block.bump, Block.next_fresh hbase halign]

/-! ## Chains -/

/-- The first block with room for a range hands it out. -/
def serveFirst? (size align : Nat) : List Block → Option (Option (Nat × List Block))
  | [] => some none
  | b :: rest => do
    match ← serve? b size align with
    | some (start, b) => return some (start, b :: rest)
    | none =>
      let served ← serveFirst? size align rest
      return served.map fun (start, rest) => (start, b :: rest)

/-- Hand out a range from the first block, from the current one on, that has room for it. -/
def search? (c : Chain) (size align : Nat) : Option (Option (Nat × Chain)) := do
  let served ← serveFirst? size align c.ahead
  return served.map fun (start, ahead) => (start, { c with ahead })

/-- Append a block after a search that no block could satisfy. -/
def append (c : Chain) (tolerance : Nat) (b : Block) : Option Chain := do
  let searched ← c.ahead.mapM miss
  let n := Chain.skippable tolerance c.ahead
  return ⟨c.behind ++ searched.take n, searched.drop n ++ [b]⟩

/-- A search through blocks that fit is a search over numbers. -/
theorem serveFirst?_eq (halign : align ∣ blockAlign) {blocks : List Block}
    (h : ∀ b ∈ blocks, b.Fits) :
    serveFirst? size align blocks = some (Chain.serveFirst? size align blocks) := by
  induction blocks with
  | nil => rfl
  | cons b rest ih =>
    obtain ⟨hb, hrest⟩ := List.forall_mem_cons.mp h
    rw [serveFirst?, serve?_eq hb halign, Chain.serveFirst?, Option.bind_eq_bind, Option.bind_some]
    cases b.serve? size align with
    | some served => rfl
    | none =>
      dsimp only
      rw [ih hrest]
      rfl

theorem search?_eq (halign : align ∣ blockAlign) {c : Chain} (h : ∀ b ∈ c.ahead, b.Fits) :
    search? c size align = some (c.serve? size align) := by
  rw [search?, serveFirst?_eq halign h]
  rfl

/-- Blocks that fit can miss once more. -/
theorem append_eq {c : Chain} (h : ∀ b ∈ c.ahead, b.Fits) (tolerance : Nat) (b : Block) :
    append c tolerance b = some (c.append tolerance b) := by
  have hmiss : c.ahead.mapM miss = some (c.ahead.map Block.miss) := by
    generalize c.ahead = blocks at h
    induction blocks with
    | nil => rfl
    | cons b rest ih =>
      obtain ⟨hb, hrest⟩ := List.forall_mem_cons.mp h
      rw [List.mapM_cons, miss_eq hb, ih hrest]
      rfl
  rw [append, hmiss]
  rfl

end Checked

end RegionTrie
