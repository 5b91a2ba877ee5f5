import Mathlib.Data.List.Perm.Subperm
import RegionTrie.Heap.Tracker
import RegionTrie.Proofs.Region.Limits
import RegionTrie.Proofs.Region.Words
import RegionTrie.Proofs.Session.Placement

/-!
# Sizes at the limits

In a session that was played for any number of turns, all blocks fit into machine words: they lie
where the source granted them, they do not share addresses, so there are fewer of them than words,
and none has missed more often than blocks were appended. So no request for memory overflows a word,
however large its size and its alignment are. Which fault a request answers with is decided by its
size and its alignment where they come to no layout, and otherwise by the call of the source that
was declined.

## Main results

* `Region.counted_steps`: no block has missed as often as there are blocks
* `Region.Placed.fits`: blocks in their places fit into words
* `Session.faults_at_limits`: requests for memory compute in words, and why they fail
-/

namespace RegionTrie

open Journal

namespace Chain

/-- No block has missed as often as there are blocks. -/
def Counted (c : Chain) : Prop :=
  ∀ n ∈ c.blocks.map Block.missed, n < c.blocks.length

variable {c c' : Chain}

/-- Only the counters matter. -/
theorem Counted.congr (h : c.Counted)
    (heq : c'.blocks.map Block.missed = c.blocks.map Block.missed) :
    c'.Counted := by
  have hlength := congrArg List.length heq
  rw [List.length_map, List.length_map] at hlength
  unfold Counted
  rw [heq, hlength]
  exact h

/-- When a block is appended, the others have missed once more at most. -/
theorem Counted.append (h : c.Counted) (tolerance : Nat) {b : Block} (hb : b.missed = 0) :
    (c.append tolerance b).Counted := by
  intro n hn
  rw [length_blocks_append]
  rw [blocks_append, List.map_append, List.map_append, List.map_map] at hn
  rcases List.mem_append.mp hn with hold | hnew
  · rcases List.mem_append.mp hold with hbehind | hahead
    · -- blocks behind the search start are not searched
      exact Nat.lt_succ_of_lt (h n (by
        rw [blocks, List.map_append]
        exact List.mem_append_left _ hbehind))
    · obtain ⟨x, hx, rfl⟩ := List.mem_map.mp hahead
      exact Nat.succ_lt_succ (h x.missed (List.mem_map_of_mem (List.mem_append_right _ hx)))
  · rw [List.map_singleton, List.mem_singleton] at hnew
    rw [hnew, hb]
    exact Nat.succ_pos _

theorem Counted.advance {config : PoolConfig} (h : c.Counted) (hadvance : c.Advance config c') :
    c'.Counted := by
  cases hadvance with
  | serve hahead hfront hroom =>
    refine h.congr ?_
    rw [blocks, blocks, hahead]
    simp [Block.bump]
  | grow base hnone => exact h.append _ rfl

theorem Counted.rewind (h : c.Counted) : c.rewind.Counted := by
  intro n hn
  rw [blocks_rewind, List.map_map] at hn
  obtain ⟨x, hx, rfl⟩ := List.mem_map.mp hn
  rw [blocks_rewind, List.length_map]
  exact Nat.lt_of_le_of_lt (Nat.zero_le _) (h x.missed (List.mem_map_of_mem hx))

end Chain

/-- Different numbers that are all smaller than `n` are no more than `n`. -/
theorem length_le_of_nodup {l : List Nat} {n : Nat} (hnodup : l.Nodup) (h : ∀ m ∈ l, m < n) :
    l.length ≤ n := by
  have hsubset : l ⊆ List.range n := fun m hm => List.mem_range.mpr (h m hm)
  have hle := (List.subperm_of_subset hnodup hsubset).length_le
  rwa [List.length_range] at hle

namespace Region

variable {σ : Type} {r r' : Region σ}

/-- A block was granted, away from the end of the address space. -/
theorem Balanced.stop_lt (hbalanced : r.Balanced []) (hplaced : r.Placed)
    (hunwrapped : Unwrapped r.pool.config.blockLayout r.heap.journal) {b : Block}
    (hb : b ∈ r.pool.chain.blocks) : b.stop + blockAlign < wordBound := by
  obtain ⟨-, -, hstop⟩ := hplaced.placement.bounds b hb
  have hheld : (⟨b.base, r.pool.config.blockLayout⟩ : Buffer) ∈ r.pool.held :=
    List.mem_append_left _ (List.mem_map_of_mem (List.mem_map_of_mem hb))
  have hlive := hbalanced.ledger.perm.symm.subset hheld
  rw [hbalanced.ledger.live_eq] at hlive
  have hend := hunwrapped _ ((outstanding_sublist_grants _).subset hlive) rfl
  rw [hstop]
  exact hend

/-- Blocks that do not share addresses are fewer than there are words. -/
theorem Placed.blockCount_lt (h : r.Placed)
    (hstop : ∀ b ∈ r.pool.chain.blocks, b.stop + blockAlign < wordBound) :
    r.pool.blockCount < wordBound := by
  have hheader := h.small
  have hpos : 0 < blockHeaderSize := by decide
  have hbase : ∀ b ∈ r.pool.chain.blocks, b.base + blockHeaderSize ≤ b.stop := by
    intro b hb
    obtain ⟨-, -, hsize⟩ := h.placement.bounds b hb
    omega
  -- blocks start at different addresses, and none at the last one
  have hnodup : (r.pool.chain.blocks.map Block.base).Nodup := by
    refine List.pairwise_map.mpr (h.placement.apart.imp_of_mem ?_)
    intro b c hb hc hapart heq
    have hb' := hbase b hb
    have hc' := hbase c hc
    omega
  have hle := length_le_of_nodup hnodup (n := wordBound - 1) <| by
    intro base hmem
    obtain ⟨b, hb, rfl⟩ := List.mem_map.mp hmem
    have hb' := hbase b hb
    have hend := hstop b hb
    omega
  rw [List.length_map] at hle
  exact Nat.lt_of_le_of_lt hle (by decide)

/-- **Blocks in their places fit into words.** -/
theorem Placed.fits (h : r.Placed) (hbalanced : r.Balanced []) (hcounted : r.pool.chain.Counted)
    (hunwrapped : Unwrapped r.pool.config.blockLayout r.heap.journal) : r.Fits := by
  have hstop : ∀ b ∈ r.pool.chain.blocks, b.stop + blockAlign < wordBound := fun b hb =>
    hbalanced.stop_lt h hunwrapped hb
  have hcount := h.blockCount_lt hstop
  intro b hb
  have hmissed := hcounted b.missed (List.mem_map_of_mem hb)
  exact ⟨(h.placement.bounds b hb).2.1, hstop b hb, Nat.lt_of_le_of_lt hmissed hcount⟩

variable [RawSource σ]

/-- Steps keep the counters below the number of blocks. -/
theorem counted_steps (h : r.pool.chain.Counted) (hsteps : Steps r r') :
    r'.pool.chain.Counted := by
  induction hsteps with
  | refl => exact h
  | tail _ hstep ih =>
    rcases hstep.chain_cases with hsame | hadvance | rfl
    · rwa [hsame]
    · exact ih.advance hadvance
    · rw [pool_reset]
      exact ih.rewind

end Region

namespace Session

open Region

variable {σ : Type} [RawSource σ] {c : PoolConfig} {source : σ} {s : Session σ}

theorem counted_create (h : create c { source } = .ok s) : s.region.pool.chain.Counted := by
  obtain ⟨base, heap, largestSmall, -, -, -, -, rfl⟩ := create_ok h
  intro n hn
  rw [List.mem_singleton.mp hn]
  exact Nat.one_pos

/-- Whatever counts as small is far from the largest size that there is. -/
theorem largestSmall_le (h : create c { source } = .ok s) (turns : List (Turn σ)) :
    (s.play turns).region.pool.largestSmall ≤ Layout.bound - wordAlign := by
  rw [(Steps.config_eq (s.steps_play turns)).2]
  obtain ⟨base, heap, largestSmall, -, hvalid, -, hsmall, rfl⟩ := create_ok h
  have hbound : c.size + blockAlign ≤ Layout.bound := hvalid.2
  have hword : wordAlign ≤ blockAlign := by decide
  dsimp only
  omega

/-- **Requests for memory at the limits.** Over any source that grants blocks apart from each other,
and so that rounding up from their ends stays in the address space, no word overflows and no
difference is negative, neither when a pool is created nor, after any number of turns, in a request
for memory of any size and alignment. So many bytes are refused for their layout exactly if they are
more than half of the address space less a word, bytes at an alignment exactly if they are none or
the two form no layout, and memory for a layout exactly if it has less than word alignment and more
than that many bytes. Then nothing happens at all. Whatever else is refused was refused because one
call of the source was declined, and the fault names its layout: the one of the large buffer, at
word alignment at least unless the alignment was asked for, or the one of a block, if a small range
needed that or the record of the large buffer did. -/
theorem faults_at_limits (c : PoolConfig) (source : σ) :
    ((({ source } : Heap σ).allocate c.blockLayout).2.pageSize.isPowerOfTwo →
      Unwrapped c.blockLayout (Pool.create c { source }).2.journal →
        Checked.create c { source } = some (Pool.create c { source })) ∧
    ∀ s, create c { source } = .ok s → ∀ turns : List (Turn σ), ∀ a : Allocation, a.Valid →
      let r := (s.play turns).region
      (a.InWords → Lawful (r.supply a).2.heap.journal →
        Unwrapped ⟨c.size, blockAlign⟩ (r.supply a).2.heap.journal →
          Checked.supply r a = some (r.supply a)) ∧
      (a.Unlayable ↔ ∃ size align, (r.supply a).1 = .error (.invalidLayout size align)) ∧
      (a.Unlayable →
        r.supply a = (.error (.invalidLayout a.named.size a.named.align), r)) ∧
      ∀ fault r', r.supply a = (.error fault, r') → ¬ a.Unlayable →
        ∃ l new, r.Wants a l new ∧ (l = a.own ∨ l = ⟨c.size, blockAlign⟩) ∧
          fault = .exhausted l.size l.align ∧ r'.heap.journal = new ++ r.heap.journal := by
  refine ⟨fun hpage hunwrapped => Checked.create_eq ?_ hunwrapped, ?_⟩
  · obtain ⟨k, hk⟩ := hpage
    rw [hk]
    exact Nat.two_pow_pos k
  intro s hs turns a ha
  have hsmall := largestSmall_le hs turns
  have hsteps := s.steps_play turns
  have hconfig : (s.play turns).region.pool.config = c := by
    rw [(Steps.config_eq hsteps).1]
    obtain ⟨base, heap, largestSmall, -, -, -, -, rfl⟩ := create_ok hs
    rfl
  refine ⟨?_, ⟨fun h => ?_, ?_⟩, fun h => supply_of_unlayable ha hsmall h, ?_⟩
  · intro hwords hlawful hunwrapped
    -- what was lawful after the request was lawful before it
    have hsuffix := Steps.suffix (steps_supply (s.play turns).region ha.wellFormed)
    have hplaced := placed_play hs turns (hlawful.of_suffix hsuffix)
    change Unwrapped c.blockLayout _ at hunwrapped
    rw [← hconfig] at hunwrapped
    have hfits := hplaced.fits (balanced_play hs turns) (counted_steps (counted_create hs) hsteps)
      (hunwrapped.of_suffix hsuffix)
    exact Checked.supply_eq hplaced hfits ha.wellFormed hwords hlawful hunwrapped
  · rw [supply_of_unlayable ha hsmall h]
    exact ⟨_, _, rfl⟩
  · rintro ⟨size, align, hfault⟩
    exact unlayable_of_supply ha hsmall (Prod.ext hfault rfl)
  · intro fault r' hop hlayable
    obtain ⟨l, new, hwants, hfault, hjournal⟩ := wants_of_supply ha hsmall hlayable hop
    refine ⟨l, new, hwants, ?_, hfault, hjournal⟩
    rw [← hconfig]
    cases hwants with
    | block | record => exact .inr rfl
    | buffer => exact .inl rfl

/-- Requests for memory at the limits, for instance, in a pool whose block is almost full, over a
source that grants one buffer more: a large buffer is granted, but there is no block for its record.
A layout that is one byte too large for word alignment is refused at once. -/
theorem faults_at_limits_tracked :
    ∃ s turns a b, create (.withSize 256) { source := ({} : Tracker) } = .ok s ∧
      turns = [.ask (.allocate none 200) trivial, .adjust (·.withBudget (some 1))] ∧
      a = .bytes 300 ∧ b = .layout ⟨2 ^ 63 - 7, 4⟩ ∧
      let r := (s.play turns).region
      Checked.create (.withSize 256) { source := ({} : Tracker) } =
          some (Pool.create (.withSize 256) { source := {} }) ∧
        Checked.supply r a = some (r.supply a) ∧
        (∃ l new, r.Wants a l new ∧ (r.supply a).1 = .error (.exhausted l.size l.align) ∧
          l = ⟨256, 16⟩) ∧
        r.supply b = (.error (.invalidLayout (2 ^ 63 - 7) 4), r) := by
  obtain ⟨a, ha⟩ : ∃ a : Allocation, a = .bytes 300 := ⟨_, rfl⟩
  obtain ⟨b, hb⟩ : ∃ b : Allocation, b = .layout ⟨2 ^ 63 - 7, 4⟩ := ⟨_, rfl⟩
  obtain ⟨turns, hturns⟩ : ∃ turns : List (Turn Tracker),
      turns = [.ask (.allocate none 200) trivial, .adjust (·.withBudget (some 1))] := ⟨_, rfl⟩
  have hcheck : (match create (.withSize 256) { source := ({} : Tracker) } with
      | .ok s =>
        let op := (s.play turns).region.supply a
        decide (Lawful op.2.heap.journal ∧ Unwrapped ⟨256, blockAlign⟩ op.2.heap.journal ∧
          op.1 = .error (.exhausted 256 16))
      | .error _ => false) = true := by
    rw [hturns, ha]
    decide +kernel
  obtain ⟨hcreate, hplay⟩ := faults_at_limits (.withSize 256) ({} : Tracker)
  rcases h : create (.withSize 256) { source := ({} : Tracker) } with ⟨fault, heap⟩ | s <;>
    rw [h] at hcheck
  · cases hcheck
  obtain ⟨hlawful, hunwrapped, hanswer⟩ := of_decide_eq_true hcheck
  have hvalid : a.Valid := by rw [ha]; trivial
  have hvalid' : b.Valid := by rw [hb]; exact ⟨⟨2, rfl⟩, by decide⟩
  obtain ⟨hwords, -, -, hwants⟩ := hplay s h turns a hvalid
  obtain ⟨-, -, hrefused, -⟩ := hplay s h turns b hvalid'
  refine ⟨s, turns, a, b, rfl, hturns, ha, hb, ?_, ?_, ?_, ?_⟩
  · exact hcreate ⟨12, by decide +kernel⟩ (by decide +kernel)
  · exact hwords (by rw [ha]; decide) hlawful hunwrapped
  · obtain ⟨l, new, hwant, -, hexhausted, -⟩ :=
      hwants _ _ (Prod.ext hanswer rfl) (by rw [ha]; decide)
    obtain ⟨hsize, halign⟩ := Fault.exhausted.inj hexhausted
    refine ⟨l, new, hwant, hanswer.trans (congrArg _ hexhausted), ?_⟩
    rw [hsize, halign]
  · have hrefuse := hrefused (by rw [hb]; decide)
    rwa [hb] at hrefuse ⊢

end Session

end RegionTrie
