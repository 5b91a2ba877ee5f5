import RegionTrie.Proofs.Pool.Search
import RegionTrie.Proofs.Region.Steps

/-!
# How a region searches its blocks

Every range inside a block, whatever it is for, is looked for in one way: from the current block on
the first one with room serves it, and only if none has room the source is asked for a block. So
every step of a region leaves the chain alone, serves one range in this way, or rewinds all blocks,
and the counters that decide where searches start stay right.

## Main definitions

* `Region.ServesFirst`: a range is served by the first block with room, or the source is asked

## Main results

* `Region.servesFirst`: every range is looked for in this way
* `Region.Step.chain_cases`: what a step does to the chain
* `Region.searched_steps`: counters and search start stay right
* `Region.behind_prefix_steps`: what is behind the search start stays behind it until a reset
-/

namespace RegionTrie.Region

open Journal

variable {σ : Type} [RawSource σ] {r r' : Region σ}

/-- A range of this size and alignment is served by the first block with room, from the current one
on, without a call of the source, or none of these blocks has room and the source is asked for a
block. -/
def ServesFirst (r : Region σ) (size align : Nat) : Prop :=
  (∃ front b back, r.pool.chain.ahead = front ++ b :: back ∧
    (∀ x ∈ front, ¬ x.HasRoom size align) ∧ b.HasRoom size align ∧
    r.reserve size align =
      (.ok (b.next align),
        { pool :=
            { r.pool with
              chain := { r.pool.chain with ahead := front ++ b.bump size align :: back } }
          heap := r.heap.record (.served ⟨b.next align, size⟩ align) })) ∨
    ((∀ b ∈ r.pool.chain.ahead, ¬ b.HasRoom size align) ∧
      r.reserve size align = r.grow size align)

theorem servesFirst (r : Region σ) (size align : Nat) : r.ServesFirst size align := by
  unfold ServesFirst reserve
  rcases r.pool.chain.serve?_cases size align with
    ⟨front, b, back, hahead, hfront, hroom, hserve⟩ | ⟨hnone, hserve⟩ <;> rw [hserve]
  · exact .inl ⟨front, b, back, hahead, hfront, hroom, rfl⟩
  · exact .inr ⟨hnone, rfl⟩

/-! ## Chains over steps -/

theorem chain_reserve (r : Region σ) (size align : Nat) :
    (r.reserve size align).2.pool.chain = r.pool.chain ∨
      r.pool.chain.Advance r.pool.config (r.reserve size align).2.pool.chain := by
  rcases r.servesFirst size align with
    ⟨front, b, back, hahead, hfront, hroom, heq⟩ | ⟨hnone, -⟩
  · right
    rw [heq]
    exact .serve hahead hfront hroom
  · rcases reserve_cases r size align with
      ⟨start, chain, hserve, -⟩ | ⟨base, heap, -, -, heq⟩ | ⟨heap, -, -, heq⟩
    · -- none has room, so none serves
      rcases r.pool.chain.serve?_cases size align with
        ⟨front, b, back, hahead, -, hroom, -⟩ | ⟨-, hserve'⟩
      · have hmem : b ∈ r.pool.chain.ahead := by
          rw [hahead]
          exact List.mem_append_right _ List.mem_cons_self
        exact absurd hroom (hnone b hmem)
      · rw [hserve'] at hserve
        cases hserve
    · right
      rw [heq]
      exact .grow base hnone
    · left
      rw [heq]

theorem chain_link (r : Region σ) (b : Buffer) :
    (r.link b).2.pool.chain = r.pool.chain ∨
      r.pool.chain.Advance r.pool.config (r.link b).2.pool.chain := by
  have hreserve := chain_reserve r largeRecordSize wordAlign
  rcases link_cases r b with ⟨address, r₁, hop, heq⟩ | ⟨fault, r₁, hop, heq⟩ <;>
    rw [hop] at hreserve <;> rw [heq] <;> exact hreserve

/-- A step leaves the chain alone, serves a range from it, or rewinds it. -/
theorem Step.chain_cases (h : Step r r') :
    r'.pool.chain = r.pool.chain ∨ r.pool.chain.Advance r.pool.config r'.pool.chain ∨
      r' = r.reset := by
  cases h with
  | reserve hsize halign => exact (chain_reserve r _ _).imp_right .inl
  | allocateLarge hsize hvalid =>
    rename_i l
    rcases allocateLarge_cases r l with
      ⟨heap, -, heq⟩ | ⟨base, heap, large, -, -, heq⟩ | ⟨base, heap, -, heq⟩ <;> rw [heq]
    · exact .inl rfl
    · exact .inl rfl
    · exact (chain_link { r with heap } _).imp_right .inl
  | allocateAligned size align =>
    rcases allocateAligned_cases r size align with
      ⟨-, heq⟩ | ⟨heap, -, -, -, heq⟩ | ⟨base, heap, -, -, -, heq⟩ <;> rw [heq]
    · exact .inl rfl
    · exact .inl rfl
    · exact (chain_link { r with heap } _).imp_right .inl
  | free address =>
    left
    rcases free_cases r address with ⟨-, heq⟩ | ⟨b, large, -, heq⟩ <;> rw [heq]
    rfl
  | reset => exact .inr (.inr rfl)
  | discard handler =>
    left
    rw [pool_discard]
  | runHandler record =>
    left
    rw [pool_runHandler]
  | store | note | enlist | arm | adjust => exact .inl rfl

/-- Steps keep the counters and the search start right. -/
theorem searched_steps (h : r.pool.chain.Searched r.pool.config.skipAfterFailures)
    (hsteps : Steps r r') : r'.pool.chain.Searched r'.pool.config.skipAfterFailures := by
  induction hsteps with
  | refl => exact h
  | tail _ hstep ih =>
    rw [hstep.config_eq.1]
    rcases hstep.chain_cases with hsame | hadvance | rfl
    · rw [hsame]
      exact ih
    · exact ih.advance hadvance
    · rw [pool_reset]
      exact ih.rewind

/-- As long as no reset is noted, blocks behind the search start stay there, and stay what they
are. -/
theorem behind_prefix_steps (hsteps : Steps r r') {new : List Effect}
    (hjournal : r'.heap.journal = new ++ r.heap.journal)
    (hreset : ∀ n, Effect.noted (.poolReset n) ∉ new) :
    r.pool.chain.behind <+: r'.pool.chain.behind := by
  induction hsteps generalizing new with
  | refl => exact List.prefix_rfl
  | tail hsteps hstep ih =>
    rename_i mid last
    -- the entries before the last step are among the new ones
    obtain ⟨older, holder⟩ := Steps.suffix hsteps
    obtain ⟨latest, hlatest⟩ := hstep.suffix
    have hnew : new = latest ++ older := by
      rw [hjournal, ← holder, ← List.append_assoc] at hlatest
      exact List.append_cancel_right hlatest.symm
    subst hnew
    have hmid := ih holder.symm fun n hn => hreset n (List.mem_append_right _ hn)
    rcases hstep.chain_cases with hsame | hadvance | rfl
    · rwa [hsame]
    · exact hmid.trans hadvance.behind_prefix
    · -- a reset is noted last of all
      obtain ⟨n, between, hnote⟩ := journal_reset mid
      rw [← List.cons_append] at hnote
      rw [hnote] at hlatest
      have hhead : latest = .noted (.poolReset n) :: between := List.append_cancel_right hlatest
      rw [hhead] at hreset
      exact absurd (List.mem_append_left _ List.mem_cons_self) (hreset n)

end RegionTrie.Region
