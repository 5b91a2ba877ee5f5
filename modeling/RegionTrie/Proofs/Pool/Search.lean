import Mathlib.Data.List.Pairwise
import Mathlib.Data.List.TakeWhile
import RegionTrie.Pool.Config
import RegionTrie.Pool.Chain

/-!
# Where searches start

A block that keeps missing requests is given up as the start of searches. How often each block has
missed is counted, and the counters never increase along the chain from the current block on: all
blocks searched miss together, and a new block starts from zero behind them. This is why the search
start can be moved behind the last block that has missed too often, as if it were the first that
has not.

## Main definitions

* `Block.HasRoom`: a range fits into what is left of a block
* `Chain.Searched`: how the counters of a chain relate to its search start
* `Chain.Advance`: a range is served by the first block with room, or by a new block

## Main results

* `Chain.serve?_cases`: the first block with room serves, and otherwise none has room
* `Chain.Searched.behind_eq`: the current block is the first one that has not missed too often
* `Chain.Searched.advance`, `Chain.Searched.rewind`: every change of a chain keeps it so
* `Chain.Advance.behind_prefix`: the search start never moves back
-/

namespace RegionTrie

namespace Block

/-- A range of this size and alignment fits into what is left of the block. -/
def HasRoom (b : Block) (size align : Nat) : Prop :=
  b.next align + size ≤ b.stop

theorem serve?_of_hasRoom {b : Block} {size align : Nat} (h : b.HasRoom size align) :
    b.serve? size align = some (b.next align, b.bump size align) :=
  if_pos h

theorem serve?_eq_none_iff {b : Block} {size align : Nat} :
    b.serve? size align = none ↔ ¬ b.HasRoom size align := by
  unfold serve? HasRoom
  split <;> simp_all

end Block

namespace Chain

/-- Either the first block with room serves, from the current one on, or none of them has room. -/
theorem serve?_cases (c : Chain) (size align : Nat) :
    (∃ front b back, c.ahead = front ++ b :: back ∧ (∀ x ∈ front, ¬ x.HasRoom size align) ∧
      b.HasRoom size align ∧
      c.serve? size align =
        some (b.next align, { c with ahead := front ++ b.bump size align :: back })) ∨
    ((∀ b ∈ c.ahead, ¬ b.HasRoom size align) ∧ c.serve? size align = none) := by
  cases hserve : serveFirst? size align c.ahead with
  | none =>
    right
    rw [serveFirst?_eq_none_iff] at hserve
    refine ⟨fun b hb => Block.serve?_eq_none_iff.mp (hserve b hb), ?_⟩
    rw [serve?, serveFirst?_eq_none_iff.mpr hserve]
    rfl
  | some served =>
    obtain ⟨start, after⟩ := served
    obtain ⟨front, b, b', back, hahead, rfl, hfront, hb⟩ := serveFirst?_eq_some hserve
    have hroom : b.HasRoom size align := by
      by_contra hno
      rw [Block.serve?_eq_none_iff.mpr hno] at hb
      cases hb
    rw [Block.serve?_of_hasRoom hroom] at hb
    cases hb
    left
    refine ⟨front, b, back, hahead, ?_, hroom, ?_⟩
    · exact fun x hx => Block.serve?_eq_none_iff.mp (hfront x hx)
    · rw [serve?, hserve]
      rfl

/-- The counters of a chain in which blocks are given up after more than `tolerance` misses. -/
structure Searched (tolerance : Nat) (c : Chain) : Prop where
  /-- Only blocks that have missed too often are behind the search start. -/
  behind : ∀ n ∈ c.behind.map Block.missed, tolerance + 1 < n
  /-- No block from the search start on has missed too often. -/
  ahead : ∀ n ∈ c.ahead.map Block.missed, n ≤ tolerance + 1
  /-- From the search start on, counters never increase. -/
  antitone : (c.ahead.map Block.missed).Pairwise fun n later => later ≤ n
  /-- The last block has missed nothing. -/
  last : (c.ahead.map Block.missed).getLast? = some 0

/-- A range is served by the first block with room, from the current one on, or none of them has
room and a new block serves it. -/
inductive Advance (config : PoolConfig) : Chain → Chain → Prop
  | serve {c : Chain} {front back : List Block} {b : Block} {size align : Nat}
      (hahead : c.ahead = front ++ b :: back) (hfront : ∀ x ∈ front, ¬ x.HasRoom size align)
      (hroom : b.HasRoom size align) :
      Advance config c { c with ahead := front ++ b.bump size align :: back }
  | grow {c : Chain} {size align : Nat} (base : Nat)
      (hnone : ∀ b ∈ c.ahead, ¬ b.HasRoom size align) :
      Advance config c
        (c.append config.skipAfterFailures ((Block.fresh base config.size).bump size align))

/-- If counters never increase, the blocks that fall behind are exactly the leading ones that have
missed more than `tolerance` searches. -/
theorem skippable_eq_length_takeWhile {tolerance : Nat} {blocks : List Block}
    (h : (blocks.map Block.missed).Pairwise fun n later => later ≤ n) :
    skippable tolerance blocks =
      (blocks.takeWhile fun b => decide (tolerance < b.missed)).length := by
  induction blocks with
  | nil => rfl
  | cons b rest ih =>
    rw [List.map_cons, List.pairwise_cons] at h
    obtain ⟨hb, hrest⟩ := h
    have hcount := ih hrest
    unfold skippable
    by_cases hmissed : tolerance < b.missed
    · rw [List.takeWhile_cons_of_pos (by simpa using hmissed), List.length_cons, ← hcount]
      cases skippable tolerance rest with
      | zero => simp [hmissed]
      | succ n => rfl
    · -- no later block has missed more often than this one
      have hnone : rest.takeWhile (fun b => decide (tolerance < b.missed)) = [] := by
        cases rest with
        | nil => rfl
        | cons x rest =>
          have hx := hb x.missed List.mem_cons_self
          apply List.takeWhile_cons_of_neg
          simp only [decide_eq_true_eq]
          omega
      rw [hnone, List.length_nil] at hcount
      rw [hcount, List.takeWhile_cons_of_neg (by simpa using hmissed)]
      simp [hmissed]

namespace Searched

variable {tolerance : Nat} {c c' : Chain}

/-- Only the counters matter. -/
theorem congr (h : c.Searched tolerance)
    (hbehind : c'.behind.map Block.missed = c.behind.map Block.missed)
    (hahead : c'.ahead.map Block.missed = c.ahead.map Block.missed) : c'.Searched tolerance := by
  constructor
  · rw [hbehind]
    exact h.behind
  · rw [hahead]
    exact h.ahead
  · rw [hahead]
    exact h.antitone
  · rw [hahead]
    exact h.last

/-- Blocks that have missed nothing, the first of them current. -/
theorem of_forall_eq_zero (hbehind : c.behind = []) (hne : c.ahead ≠ [])
    (h : ∀ b ∈ c.ahead, b.missed = 0) : c.Searched tolerance := by
  have hzero : ∀ n ∈ c.ahead.map Block.missed, n = 0 := by
    rw [List.forall_mem_map]
    exact h
  constructor
  · rw [hbehind]
    intro n hn
    cases hn
  · intro n hn
    rw [hzero n hn]
    exact Nat.zero_le _
  · apply List.pairwise_of_forall_mem_list
    intro n hn later hlater
    rw [hzero later hlater]
    exact Nat.zero_le n
  · have hmap : c.ahead.map Block.missed ≠ [] := by simpa using hne
    rw [List.getLast?_eq_some_getLast hmap, hzero _ (List.getLast_mem hmap)]

/-- There is a current block. -/
theorem ahead_ne_nil (h : c.Searched tolerance) : c.ahead ≠ [] := by
  intro hnil
  have hlast := h.last
  rw [hnil] at hlast
  cases hlast

/-- **The current block is the first one of the chain that has not missed too often.** -/
theorem behind_eq (h : c.Searched tolerance) :
    c.behind = c.blocks.takeWhile fun b => decide (tolerance + 1 < b.missed) := by
  have hbehind : ∀ b ∈ c.behind, decide (tolerance + 1 < b.missed) = true := by
    intro b hb
    exact decide_eq_true (h.behind _ (List.mem_map_of_mem hb))
  rw [blocks, List.takeWhile_append_of_pos hbehind]
  cases hahead : c.ahead with
  | nil => exact absurd hahead h.ahead_ne_nil
  | cons b rest =>
    have hb := h.ahead b.missed (by rw [hahead]; exact List.mem_cons_self)
    rw [List.takeWhile_cons_of_neg (by simpa using hb), List.append_nil]

/-- Never do all blocks fall behind at once. -/
theorem skippable_lt (h : c.Searched tolerance) : skippable tolerance c.ahead < c.ahead.length := by
  rw [skippable_eq_length_takeWhile h.antitone]
  -- the last block has missed nothing, so it is not among those that fall behind
  have hzero : (c.ahead.getLast h.ahead_ne_nil).missed = 0 := by
    have hlast := h.last
    rw [List.getLast?_map, List.getLast?_eq_some_getLast h.ahead_ne_nil] at hlast
    exact Option.some.inj hlast
  apply lt_of_le_of_ne (List.takeWhile_sublist _).length_le
  intro hall
  have hsame := (List.takeWhile_prefix (p := fun b : Block => decide (tolerance < b.missed))
    (l := c.ahead)).eq_of_length hall
  have hmissed := List.takeWhile_eq_self_iff.mp hsame _ (List.getLast_mem h.ahead_ne_nil)
  rw [hzero, decide_eq_true_eq] at hmissed
  exact Nat.not_lt_zero _ hmissed

/-- When a block is appended, the leading blocks that had missed more than `tolerance` searches
fall behind, and all others stay ahead. -/
theorem append_eq (h : c.Searched tolerance) (b : Block) :
    c.append tolerance b =
      ⟨c.behind ++ (c.ahead.takeWhile fun b => decide (tolerance < b.missed)).map Block.miss,
        (c.ahead.dropWhile fun b => decide (tolerance < b.missed)).map Block.miss ++ [b]⟩ := by
  have hsplit : c.ahead.map Block.miss =
      (c.ahead.takeWhile fun b => decide (tolerance < b.missed)).map Block.miss ++
        (c.ahead.dropWhile fun b => decide (tolerance < b.missed)).map Block.miss := by
    rw [← List.map_append, List.takeWhile_append_dropWhile]
  have hcount : skippable tolerance c.ahead =
      ((c.ahead.takeWhile fun b => decide (tolerance < b.missed)).map Block.miss).length := by
    rw [List.length_map, skippable_eq_length_takeWhile h.antitone]
  rw [append, hsplit, hcount, List.take_left, List.drop_left]

/-- The blocks that stay ahead have missed no more searches than they may. -/
theorem missed_le_of_mem_dropWhile (h : c.Searched tolerance) {x : Block}
    (hx : x ∈ c.ahead.dropWhile fun b => decide (tolerance < b.missed)) : x.missed ≤ tolerance := by
  have hsublist := List.dropWhile_sublist (fun b : Block => decide (tolerance < b.missed))
    (l := c.ahead)
  have hanti := h.antitone.sublist (hsublist.map Block.missed)
  cases hdrop : c.ahead.dropWhile (fun b => decide (tolerance < b.missed)) with
  | nil =>
    rw [hdrop] at hx
    cases hx
  | cons first rest =>
    -- the first of them stays, and the later ones have missed no more than it has
    have hfirst : first.missed ≤ tolerance := by
      have hhead := List.head_dropWhile_not (fun b : Block => decide (tolerance < b.missed))
        (l := c.ahead) (by rw [hdrop]; exact List.cons_ne_nil _ _)
      simp only [hdrop, List.head_cons] at hhead
      exact Nat.le_of_not_lt (of_decide_eq_false hhead)
    rw [hdrop, List.map_cons, List.pairwise_cons] at hanti
    rw [hdrop] at hx
    rcases List.mem_cons.mp hx with rfl | hx
    · exact hfirst
    · exact Nat.le_trans (hanti.1 x.missed (List.mem_map_of_mem hx)) hfirst

/-- After a search that all blocks missed, a new block is appended. -/
theorem append (h : c.Searched tolerance) {b : Block} (hb : b.missed = 0) :
    (c.append tolerance b).Searched tolerance := by
  have hsublist := List.dropWhile_sublist (fun b : Block => decide (tolerance < b.missed))
    (l := c.ahead)
  have hmiss : Block.missed ∘ Block.miss = (· + 1) ∘ Block.missed := rfl
  rw [h.append_eq b]
  constructor
  · intro n hn
    simp only [List.map_append, List.map_map, List.mem_append] at hn
    rcases hn with hn | hn
    · exact h.behind n hn
    · obtain ⟨x, hx, rfl⟩ := List.mem_map.mp hn
      have hmissed := List.mem_takeWhile_imp hx
      simp only [decide_eq_true_eq] at hmissed
      show tolerance + 1 < x.missed + 1
      omega
  · intro n hn
    simp only [List.map_append, List.map_map, List.map_cons, List.map_nil, List.mem_append,
      List.mem_singleton] at hn
    rcases hn with hn | rfl
    · obtain ⟨x, hx, rfl⟩ := List.mem_map.mp hn
      exact Nat.succ_le_succ (h.missed_le_of_mem_dropWhile hx)
    · rw [hb]
      exact Nat.zero_le _
  · simp only [List.map_append, List.map_map, hmiss, List.map_cons, List.map_nil, hb]
    rw [← List.map_map]
    refine List.pairwise_append.mpr ⟨?_, List.pairwise_singleton _ _, ?_⟩
    · apply List.pairwise_map.mpr
      apply (h.antitone.sublist (hsublist.map Block.missed)).imp
      intro n later hle
      exact Nat.succ_le_succ hle
    · intro n _ later hlater
      rw [List.mem_singleton.mp hlater]
      exact Nat.zero_le n
  · simp [hb]

/-- Serving a range, from an old block or from a new one, keeps the counters right. -/
theorem advance {config : PoolConfig} (h : c.Searched config.skipAfterFailures)
    (hadvance : c.Advance config c') : c'.Searched config.skipAfterFailures := by
  cases hadvance with
  | serve hahead hfront hroom =>
    refine h.congr rfl ?_
    rw [hahead]
    simp [Block.bump]
  | grow base hnone => exact h.append rfl

/-- So does starting over. -/
theorem rewind (h : c.Searched tolerance) : c.rewind.Searched tolerance := by
  apply of_forall_eq_zero rfl
  · simp [Chain.rewind, blocks, h.ahead_ne_nil]
  · intro b hb
    obtain ⟨x, -, rfl⟩ := List.mem_map.mp hb
    rfl

end Searched

/-- The blocks before the search start stay what they are, and the search start never moves back. -/
theorem Advance.behind_prefix {config : PoolConfig} {c c' : Chain} (h : c.Advance config c') :
    c.behind <+: c'.behind := by
  cases h with
  | serve hahead hfront hroom => exact List.prefix_rfl
  | grow base hnone => exact List.prefix_append _ _

end Chain

end RegionTrie
