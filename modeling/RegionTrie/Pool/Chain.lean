import RegionTrie.Pool.Block

/-!
# The chain of blocks

A pool's blocks form a chain. Searches for room start at the current block and take the first one
from there on that has it. When none has, a block is appended; every block searched has then
missed once more, and those that have missed too often fall behind the start of later searches.

## Main definitions

* `Chain`: the blocks before the current one, and those from it on
* `Chain.serve?`: a range in the first block that has room
* `Chain.skippable`: how many blocks fall behind when a block is appended
* `Chain.append`, `Chain.rewind`: growing the chain, and starting over

## Main results

* `serveFirst?_eq_some`, `serveFirst?_eq_none_iff`: the first block with room serves, and there is
  none exactly if no block has room
* `blocks_append`, `blocks_rewind`: what growing and starting over do to the sequence of blocks
-/

namespace RegionTrie

/-- A chain of blocks in order of creation, cut before the current block. -/
structure Chain where
  behind : List Block
  ahead : List Block
deriving DecidableEq

namespace Chain

/-- All blocks in order of creation. -/
def blocks (c : Chain) : List Block :=
  c.behind ++ c.ahead

/-- The first block with room for a range hands it out. -/
def serveFirst? (size align : Nat) : List Block → Option (Nat × List Block)
  | [] => none
  | b :: rest =>
    match b.serve? size align with
    | some (start, b) => some (start, b :: rest)
    | none => (serveFirst? size align rest).map fun (start, rest) => (start, b :: rest)

/-- Hand out a range from the first block, from the current one on, that has room for it. -/
def serve? (c : Chain) (size align : Nat) : Option (Nat × Chain) :=
  (serveFirst? size align c.ahead).map fun (start, ahead) => (start, { c with ahead })

/-- The number of blocks up to and including the last one that has missed more than `tolerance`
searches. -/
def skippable (tolerance : Nat) : List Block → Nat
  | [] => 0
  | b :: rest =>
    match skippable tolerance rest with
    | 0 => if tolerance < b.missed then 1 else 0
    | n + 1 => n + 2

/-- Append a block after a search that no block could satisfy. Every block searched has missed
once more, and the ones that had already missed more than `tolerance` searches fall behind,
together with those before them. -/
def append (c : Chain) (tolerance : Nat) (b : Block) : Chain :=
  let n := skippable tolerance c.ahead
  let searched := c.ahead.map Block.miss
  ⟨c.behind ++ searched.take n, searched.drop n ++ [b]⟩

/-- Hand nothing out any more and search from the first block on. -/
def rewind (c : Chain) : Chain :=
  ⟨[], c.blocks.map Block.rewind⟩

theorem serveFirst?_eq_some {size align start : Nat} {blocks after : List Block}
    (h : serveFirst? size align blocks = some (start, after)) :
    ∃ front b b' back, blocks = front ++ b :: back ∧ after = front ++ b' :: back ∧
      (∀ x ∈ front, x.serve? size align = none) ∧ b.serve? size align = some (start, b') := by
  induction blocks generalizing after with
  | nil => simp [serveFirst?] at h
  | cons b rest ih =>
    cases hb : b.serve? size align with
    | some served =>
      obtain ⟨p, b'⟩ := served
      simp only [serveFirst?, hb, Option.some.injEq] at h
      obtain ⟨rfl, rfl⟩ := Prod.mk.inj h
      exact ⟨[], b, b', rest, rfl, rfl, by simp, hb⟩
    | none =>
      simp only [serveFirst?, hb, Option.map_eq_some_iff] at h
      obtain ⟨⟨p, tail⟩, htail, heq⟩ := h
      obtain ⟨rfl, rfl⟩ := Prod.mk.inj heq
      obtain ⟨front, c, c', back, rfl, rfl, hfront, hc⟩ := ih htail
      refine ⟨b :: front, c, c', back, rfl, rfl, ?_, hc⟩
      intro x hx
      rcases List.mem_cons.mp hx with rfl | hx
      · exact hb
      · exact hfront x hx

theorem serveFirst?_eq_none_iff {size align : Nat} {blocks : List Block} :
    serveFirst? size align blocks = none ↔ ∀ b ∈ blocks, b.serve? size align = none := by
  induction blocks with
  | nil => simp [serveFirst?]
  | cons b rest ih =>
    cases hb : b.serve? size align with
    | some served => simp [serveFirst?, hb]
    | none => simpa [serveFirst?, hb] using ih

theorem blocks_append (c : Chain) (tolerance : Nat) (b : Block) :
    (c.append tolerance b).blocks = c.behind ++ c.ahead.map Block.miss ++ [b] := by
  simp only [append, blocks, List.append_assoc, ← List.append_assoc (List.take _ _),
    List.take_append_drop]

theorem length_blocks_append (c : Chain) (tolerance : Nat) (b : Block) :
    (c.append tolerance b).blocks.length = c.blocks.length + 1 := by
  rw [blocks_append]
  simp [blocks, Nat.add_assoc]

theorem blocks_rewind (c : Chain) : c.rewind.blocks = c.blocks.map Block.rewind := by
  simp [rewind, blocks]

end Chain

end RegionTrie
