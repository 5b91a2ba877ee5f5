import RegionTrie.Heap.Tracker
import RegionTrie.Proofs.Session.Loans

/-!
# What can be freed

Whatever is done in a session, the buffers on loan are those that large records track. So a buffer
can be freed as long as it is on loan, by its start and by no other address, and then it goes back
with its own layout and everything else stays as it is. An address at which no loan starts is
refused without a trace, and one that was freed is refused again until another buffer there is lent.

## Main results

* `Session.perm_take`, `Session.perm_loans`: the buffers on loan are those tracked by large records
* `Session.free_exact`: exactly the buffers on loan can be freed, each once
-/

namespace RegionTrie

namespace Session

open Region

variable {σ : Type} [RawSource σ] {s : Session σ}

/-- **The buffers on loan are those that are tracked**, after a turn if they were before. -/
theorem perm_take {before : List Buffer}
    (hperm : before.Perm (LargeRecord.buffers s.region.pool.large))
    (hnodup : ((LargeRecord.buffers s.region.pool.large).map Buffer.base).Nodup) (turn : Turn σ) :
    (s.lent turn ++ s.retained before turn).Perm
      (LargeRecord.buffers (s.take turn).region.pool.large) := by
  have hfree : ∀ address, (before.filter (·.base ≠ address)).Perm
      (LargeRecord.buffers (s.region.free address).2.pool.large) := fun address =>
    (hperm.filter _).trans (filter_perm_free hnodup address)
  cases turn with
  | free address => exact hfree address
  | adjust f => exact hperm
  | ask q hq =>
    cases q with
    | reset =>
      show List.Perm [] (LargeRecord.buffers s.region.reset.pool.large)
      rw [pool_reset]
      exact .nil
    | free range offset =>
      simp only [retained, take, perform, withRange]
      cases hrange : s.ranges.get? range with
      | none => exact hperm
      | some e => exact hfree (e.start + offset)
    | _ =>
      -- all other requests track what they lend, and take nothing away
      refine List.Perm.trans (hperm.append_left _) (List.Perm.symm ?_)
      refine gains_perform s ?_ ?_
      · exact Request.noConfusion
      · intro range offset
        exact Request.noConfusion

theorem perm_loans {before : List Buffer} (hbalanced : s.region.Balanced [])
    (hperm : before.Perm (LargeRecord.buffers s.region.pool.large)) {turns : List (Turn σ)}
    (hapart : ∀ n, (s.play (turns.take n)).region.heap.live.Pairwise fun b c =>
      b.extent.Apart c.extent) :
    (s.loans before turns).Perm (LargeRecord.buffers (s.play turns).region.pool.large) := by
  induction turns generalizing s before with
  | nil => exact hperm
  | cons turn rest ih =>
    -- that tracked buffers start at different addresses is needed before every turn
    have hnodup := hbalanced.nodup_tracked (hapart 0)
    exact ih (hbalanced.steps (s.steps_take turn)) (perm_take hperm hnodup turn)
      fun n => hapart (n + 1)

/-- A buffer that is tracked after a turn was lent in it or tracked before. -/
theorem mem_tracked_take {turn : Turn σ} {b : Buffer}
    (hb : b ∈ LargeRecord.buffers (s.take turn).region.pool.large) :
    b ∈ s.lent turn ∨ b ∈ LargeRecord.buffers s.region.pool.large := by
  cases turn with
  | free address => exact .inr (buffers_free_subset s.region address hb)
  | adjust f => exact .inr hb
  | ask q hq =>
    cases q with
    | reset =>
      have hnone : b ∈ LargeRecord.buffers s.region.reset.pool.large := hb
      rw [pool_reset] at hnone
      cases hnone
    | free range offset =>
      simp only [take, perform, withRange] at hb
      cases hrange : s.ranges.get? range with
      | none =>
        rw [hrange] at hb
        exact .inr hb
      | some e =>
        rw [hrange] at hb
        exact .inr (buffers_free_subset s.region _ hb)
    | _ =>
      refine List.mem_append.mp ((List.Perm.mem_iff (gains_perform s ?_ ?_)).mp hb)
      · exact Request.noConfusion
      · intro range offset
        exact Request.noConfusion

/-- As long as nothing that starts at an address is lent, nothing that starts there is tracked. -/
theorem untracked_play {address : Nat}
    (h : ∀ b ∈ LargeRecord.buffers s.region.pool.large, b.base ≠ address) {turns : List (Turn σ)}
    (hlent : ∀ b ∈ s.lentDuring turns, b.base ≠ address) :
    ∀ b ∈ LargeRecord.buffers (s.play turns).region.pool.large, b.base ≠ address := by
  induction turns generalizing s with
  | nil => exact h
  | cons turn rest ih =>
    refine ih (s := s.take turn) ?_ fun b hb => hlent b (List.mem_append_right _ hb)
    intro b hb
    rcases mem_tracked_take hb with hnew | hold
    · exact hlent b (List.mem_append_left _ hnew)
    · exact h b hold

/-- A buffer that is tracked can be freed: its record is left without it, it goes back to the source
with its own layout, and there is one large buffer less. -/
theorem free_of_tracked {r : Region σ} (hbalanced : r.Balanced [])
    (hnodup : ((LargeRecord.buffers r.pool.large).map Buffer.base).Nodup) {b : Buffer}
    (hb : b ∈ LargeRecord.buffers r.pool.large) :
    (∃ front record back, record.held = some b ∧ r.pool.large = front ++ record :: back ∧
      r.free b.base =
        (.ok (), ({ r with
          pool := { r.pool with
            large := front ++ { record with held := none } :: back } }.note
              (.largeFreed b.base)).release b)) ∧
    r.heap.live.Perm (b :: (r.free b.base).2.heap.live) ∧
    (r.free b.base).2.pool.largeCount + 1 = r.pool.largeCount := by
  obtain ⟨front, record, back, hrecord, hbefore, heq⟩ := free_tracked hb hnodup
  refine ⟨⟨front, record, back, hrecord, hbefore, heq⟩, ?_, ?_⟩
  · have hheld : b ∈ r.pool.held := List.mem_append_right _ hb
    have hmem : b ∈ r.heap.live := hbalanced.ledger.perm.mem_iff.mpr hheld
    rw [heq]
    exact List.perm_cons_erase hmem
  · have hlength := (perm_buffers_free hb hnodup).length_eq
    rw [List.length_cons] at hlength
    exact hlength.symm

/-- Over a source that grants what it should, live buffers lie apart all the time. -/
theorem live_apart {c : PoolConfig} {source : σ} (h : create c { source } = .ok s)
    {turns : List (Turn σ)} (hlawful : Journal.Lawful (s.play turns).region.heap.journal)
    (n : Nat) :
    (s.play (turns.take n)).region.heap.live.Pairwise fun b c => b.extent.Apart c.extent := by
  have hsteps := (s.play (turns.take n)).steps_play (turns.drop n)
  rw [← play_append, List.take_append_drop] at hsteps
  rw [(balanced_play h (turns.take n)).ledger.live_eq]
  exact (hlawful.of_suffix hsteps.suffix).pairwise_apart

/-- **Exactly the buffers on loan can be freed.** As long as live buffers lie apart, after any
number of turns the buffers on loan are those that are tracked, and an address can be freed exactly
if one of them starts there. Then one record is left without its buffer, that buffer goes back to the
source with its own layout, there is one large buffer less, and nothing else happens. Any other
address is refused, and nothing happens at all. So is an address that was to be freed before, as
long as no large buffer that starts there was handed out since. -/
theorem free_exact {c : PoolConfig} {source : σ} (h : create c { source } = .ok s)
    (turns : List (Turn σ))
    (hapart : ∀ n, (s.play (turns.take n)).region.heap.live.Pairwise fun b c =>
      b.extent.Apart c.extent) :
    let r := (s.play turns).region
    let loans := s.loans [] turns
    loans.Perm (LargeRecord.buffers r.pool.large) ∧
      (∀ address, (r.free address).1 = .ok () ↔ ∃ b ∈ loans, b.base = address) ∧
      (∀ b ∈ loans,
        (∃ front record back, record.held = some b ∧ r.pool.large = front ++ record :: back ∧
          r.free b.base =
            (.ok (), ({ r with
              pool := { r.pool with
                large := front ++ { record with held := none } :: back } }.note
                  (.largeFreed b.base)).release b)) ∧
        r.heap.live.Perm (b :: (r.free b.base).2.heap.live) ∧
        (r.free b.base).2.pool.largeCount + 1 = r.pool.largeCount) ∧
      (∀ address, (∀ b ∈ loans, b.base ≠ address) →
        r.free address = (.error .invalidFree, r)) ∧
      ∀ address more, (∀ b ∈ ((s.play turns).take (.free address)).lentDuring more,
          b.base ≠ address) →
        let after := (((s.play turns).take (.free address)).play more).region
        after.free address = (.error .invalidFree, after) := by
  intro r loans
  have hbalanced : r.Balanced [] := balanced_play h turns
  have hlast : r.heap.live.Pairwise fun b c => b.extent.Apart c.extent := by
    have hall := hapart turns.length
    rwa [List.take_length] at hall
  have hnodup := hbalanced.nodup_tracked hlast
  have hnew : s.region.pool.large = [] := by
    obtain ⟨_, _, _, -, -, -, -, rfl⟩ := create_ok h
    rfl
  have hperm : loans.Perm (LargeRecord.buffers r.pool.large) :=
    perm_loans (balanced_create h) (by rw [hnew]; exact .nil) hapart
  have hrefused : ∀ address, (∀ b ∈ loans, b.base ≠ address) →
      r.free address = (.error .invalidFree, r) := fun address hnone =>
    free_untracked fun b hb => hnone b (hperm.mem_iff.mpr hb)
  refine ⟨hperm, ?_, fun b hb => free_of_tracked hbalanced hnodup (hperm.mem_iff.mp hb),
    hrefused, ?_⟩
  · intro address
    constructor
    · intro hok
      refine Classical.byContradiction fun hnone => ?_
      rw [hrefused address fun b hb heq => hnone ⟨b, hb, heq⟩] at hok
      cases hok
    · rintro ⟨b, hb, rfl⟩
      obtain ⟨front, record, back, -, -, heq⟩ := free_tracked (hperm.mem_iff.mp hb) hnodup
      rw [heq]
  · intro address more hlent
    refine free_untracked (untracked_play ?_ hlent)
    -- right after it was freed, nothing there is tracked
    intro b hb
    have hmem := (filter_perm_free hnodup address).symm.subset hb
    simpa using (List.mem_filter.mp hmem).2

/-- Loans end, for instance, where one of four large buffers was freed among a trie and a cleanup
over a numbered source. The other three can be freed, and not again although another buffer is lent
meanwhile, and the block cannot. -/
theorem free_exact_tracked :
    ∃ s turns more, create (.withSize 256) { source := ({ pageSize := 512 } : Tracker) } = .ok s ∧
      turns = [.ask (.allocate (some 0) 2000) trivial, .ask (.allocate (some 1) 40) trivial,
        .ask (.createTrie 0 .word (.unsigned 4) (.plain .none)) trivial,
        .ask (.addCleanup 0 3000 none) trivial, .ask (.allocateAligned (some 2) 64 64) trivial,
        .ask (.free 0 0) trivial] ∧
      more = [.ask (.allocate none 3000) trivial] ∧
      (s.loans [] turns).map Buffer.layout = [⟨64, 64⟩, ⟨3000, 8⟩, ⟨512, 512⟩] ∧
      (∀ b ∈ s.loans [] turns, ((s.play turns).region.free b.base).1 = .ok () ∧
        ((((s.play turns).take (.free b.base)).play more).region.free b.base).1 =
          .error .invalidFree) ∧
      ∀ block ∈ (s.play turns).region.pool.chain.blocks,
        (s.play turns).region.free block.base =
          (.error .invalidFree, (s.play turns).region) := by
  obtain ⟨turns, hturns⟩ : ∃ turns : List (Turn Tracker),
      turns = [.ask (.allocate (some 0) 2000) trivial, .ask (.allocate (some 1) 40) trivial,
        .ask (.createTrie 0 .word (.unsigned 4) (.plain .none)) trivial,
        .ask (.addCleanup 0 3000 none) trivial, .ask (.allocateAligned (some 2) 64 64) trivial,
        .ask (.free 0 0) trivial] := ⟨_, rfl⟩
  obtain ⟨more, hmore⟩ : ∃ more : List (Turn Tracker),
      more = [.ask (.allocate none 3000) trivial] := ⟨_, rfl⟩
  have hcheck :
      (match create (.withSize 256) { source := ({ pageSize := 512 } : Tracker) } with
      | .ok s => decide (Journal.Lawful (s.play turns).region.heap.journal ∧
          (s.loans [] turns).map Buffer.layout = [⟨64, 64⟩, ⟨3000, 8⟩, ⟨512, 512⟩] ∧
          (∀ b ∈ s.loans [] turns,
            ∀ c ∈ ((s.play turns).take (.free b.base)).lentDuring more, c.base ≠ b.base) ∧
          ∀ block ∈ (s.play turns).region.pool.chain.blocks,
            ∀ b ∈ s.loans [] turns, b.base ≠ block.base)
      | .error _ => false) = true := by
    rw [hturns, hmore]
    decide +kernel
  rcases h : create (.withSize 256) { source := ({ pageSize := 512 } : Tracker) } with
    ⟨fault, heap⟩ | s <;> rw [h] at hcheck
  · cases hcheck
  · obtain ⟨hlawful, hlayouts, hlent, hblocks⟩ := of_decide_eq_true hcheck
    obtain ⟨-, hfreed, -, hrefused, hagain⟩ := free_exact h turns (live_apart h hlawful)
    refine ⟨s, turns, more, rfl, hturns, hmore, hlayouts, ?_, ?_⟩
    · intro b hb
      exact ⟨(hfreed b.base).mpr ⟨b, hb, rfl⟩,
        congrArg Prod.fst (hagain b.base more (hlent b hb))⟩
    · intro block hblock
      exact hrefused block.base (hblocks block hblock)

end Session

end RegionTrie
