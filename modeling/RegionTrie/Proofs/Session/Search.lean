import RegionTrie.Proofs.Region.Search
import RegionTrie.Proofs.Session.Ledger

/-!
# Searches start at the right block

Whatever is done to a region, and whichever requests for blocks are declined, the counters of its
blocks never increase from the current block on, the last block has missed nothing, and the current
block is the first one of the chain that has not missed too often. Small requests are answered with
the ranges that are looked for in this way (`Region.supply_of_small`).

## Main results

* `Session.searched_create`: a new region has one block that has missed nothing
* `Session.search_start`: how counters, search start and searches are related in every state
-/

namespace RegionTrie.Session

open Region

variable {σ : Type} [RawSource σ]

theorem config_create {c : PoolConfig} {h : Heap σ} {s : Session σ} (hs : create c h = .ok s) :
    s.region.pool.config = c := by
  obtain ⟨base, heap, largestSmall, -, -, -, -, rfl⟩ := create_ok hs
  rfl

theorem searched_create {c : PoolConfig} {h : Heap σ} {s : Session σ} (hs : create c h = .ok s) :
    s.region.pool.chain.Searched c.skipAfterFailures := by
  obtain ⟨base, heap, largestSmall, -, -, -, -, rfl⟩ := create_ok hs
  apply Chain.Searched.of_forall_eq_zero rfl (List.cons_ne_nil _ _)
  intro b hb
  rw [List.mem_singleton.mp hb]
  rfl

/-- **Searches start at the first block that has not missed too often.** In every state that a
session reaches, in the middle of a request too: from the current block on, counters never increase
along the chain; the last block has missed nothing, so that blocks never fall behind all at once;
and the blocks before the current one are exactly the leading ones that have missed more than
`skipAfterFailures + 1` searches. Every range is served by the first block with room from the
current one on, and the source is asked for a block only if none of them has room. A step does
nothing else to the chain, except that a reset rewinds it, and until then the blocks before the
current one stay there and stay what they are. -/
theorem search_start {c : PoolConfig} {source : σ} {s : Session σ}
    (h : create c { source } = .ok s) (turns : List (Turn σ)) {r : Region σ}
    (hr : Steps (s.play turns).region r) :
    let chain := r.pool.chain
    ((chain.ahead.map Block.missed).Pairwise fun n later => later ≤ n) ∧
      (chain.ahead.map Block.missed).getLast? = some 0 ∧
      Chain.skippable c.skipAfterFailures chain.ahead < chain.ahead.length ∧
      chain.behind =
        chain.blocks.takeWhile (fun b => decide (c.skipAfterFailures + 1 < b.missed)) ∧
      (∀ size align, r.ServesFirst size align) ∧
      (∀ r', Step r r' →
        r'.pool.chain = chain ∨ chain.Advance c r'.pool.chain ∨ r' = r.reset) ∧
      ∀ r' new, Steps r r' → r'.heap.journal = new ++ r.heap.journal →
        (∀ n, Effect.noted (.poolReset n) ∉ new) → chain.behind <+: r'.pool.chain.behind := by
  have hsteps : Steps s.region r := (s.steps_play turns).trans hr
  have hconfig : r.pool.config = c := (Steps.config_eq hsteps).1.trans (config_create h)
  have hsearched : r.pool.chain.Searched c.skipAfterFailures := by
    rw [← hconfig]
    refine searched_steps ?_ hsteps
    rw [config_create h]
    exact searched_create h
  refine ⟨hsearched.antitone, hsearched.last, hsearched.skippable_lt, hsearched.behind_eq,
    fun size align => r.servesFirst size align, ?_, ?_⟩
  · intro r' hstep
    rw [← hconfig]
    exact hstep.chain_cases
  · intro r' new hsteps' hjournal hreset
    exact behind_prefix_steps hsteps' hjournal hreset

/-- Searches start right, for instance, where the first of three blocks was given up although it
still has room, and the source declines a fourth block. -/
theorem search_start_tracked :
    ∃ s turns, create { size := 80, skipAfterFailures := 0 } { source := ({} : Tracker) } = .ok s ∧
      turns = [.ask (.allocate none 40) trivial, .ask (.allocate none 48) trivial,
        .ask (.allocate none 48) trivial, .adjust (·.withBudget (some 0)),
        .ask (.allocate none 48) trivial] ∧
      let chain := (s.play turns).region.pool.chain
      chain.behind = chain.blocks.takeWhile (fun b => decide (0 + 1 < b.missed)) ∧
        chain.behind.map Block.missed = [2] ∧ chain.ahead.map Block.missed = [1, 0] := by
  obtain ⟨turns, hturns⟩ : ∃ turns : List (Turn Tracker),
      turns = [.ask (.allocate none 40) trivial, .ask (.allocate none 48) trivial,
        .ask (.allocate none 48) trivial, .adjust (·.withBudget (some 0)),
        .ask (.allocate none 48) trivial] := ⟨_, rfl⟩
  have hcheck :
      (match create { size := 80, skipAfterFailures := 0 } { source := ({} : Tracker) } with
      | .ok s =>
        decide ((s.play turns).region.pool.chain.behind.map Block.missed = [2] ∧
          (s.play turns).region.pool.chain.ahead.map Block.missed = [1, 0])
      | .error _ => false) = true := by
    rw [hturns]
    decide +kernel
  rcases h : create { size := 80, skipAfterFailures := 0 } { source := ({} : Tracker) } with
    ⟨fault, heap⟩ | s <;> rw [h] at hcheck
  · cases hcheck
  · obtain ⟨-, -, -, hbehind, -⟩ := search_start h turns .refl
    exact ⟨s, turns, rfl, hturns, hbehind, of_decide_eq_true hcheck⟩

end RegionTrie.Session
