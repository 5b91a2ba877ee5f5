import RegionTrie.Heap.Tracker
import RegionTrie.Proofs.Region.Ledger
import RegionTrie.Proofs.Session.Turns

/-!
# No buffer is lost

From the creation of a pool to its end every live buffer is held in exactly one place, every call
of the raw source is in order, and in the end nothing is live. This holds for every order of turns
and every pattern of refusals.

## Main results

* `Session.create_cases`: how a creation can end
* `Session.create_ok`: what a new session is
* `Session.balanced_play`: the books balance after any number of turns
* `Session.no_leak`: live buffers are held and calls are in order all the time, and nothing is left
  in the end
-/

namespace RegionTrie

namespace Journal

/-- Outstanding buffers have some bytes. -/
theorem Orderly.size_pos {j : List Effect} (h : Orderly j) {b : Buffer} (hb : b ∈ outstanding j) :
    0 < b.layout.size := by
  -- every request was for some bytes, and a buffer is of the size requested
  induction j with
  | nil => cases hb
  | cons e j ih =>
    cases e with
    | granted c =>
      rcases List.mem_cons.mp hb with rfl | hb
      · exact h.1
      · exact ih h.2.2 hb
    | declined l => exact ih h.2.2 hb
    | released c => exact ih h.2 (List.mem_of_mem_erase hb)
    | _ => exact ih h hb

/-- Outstanding buffers that lie apart start at different addresses. -/
theorem Orderly.nodup_bases {j : List Effect} (h : Orderly j)
    (hapart : (outstanding j).Pairwise fun b c => b.extent.Apart c.extent) :
    ((outstanding j).map Buffer.base).Nodup := by
  apply List.pairwise_map.mpr
  apply hapart.imp_of_mem
  intro b c hb hc hapart heq
  -- two buffers with bytes that start at one address are not apart
  have hbpos := h.size_pos hb
  have hcpos := h.size_pos hc
  simp only [Extent.Apart, Extent.stop, Buffer.extent] at hapart
  omega

/-- No two outstanding buffers start at one address, if grants are lawful. -/
theorem nodup_bases {j : List Effect} (horderly : Orderly j) (hlawful : Lawful j) :
    ((outstanding j).map Buffer.base).Nodup :=
  horderly.nodup_bases hlawful.pairwise_apart

end Journal

/-- Where live buffers lie apart, those that are tracked start at different addresses. -/
theorem Region.Balanced.nodup_tracked {σ : Type} {r : Region σ} (h : r.Balanced [])
    (hapart : r.heap.live.Pairwise fun b c => b.extent.Apart c.extent) :
    ((LargeRecord.buffers r.pool.large).map Buffer.base).Nodup := by
  rw [h.ledger.live_eq] at hapart
  have hlive := h.ledger.orderly.nodup_bases hapart
  rw [← h.ledger.live_eq] at hlive
  have hheld : (r.pool.held.map Buffer.base).Nodup :=
    (h.ledger.perm.map Buffer.base).nodup_iff.mp hlive
  exact hheld.sublist ((List.sublist_append_right _ _).map Buffer.base)

namespace Session

open Region

variable {σ : Type} [RawSource σ]

/-- A creation fails before the source is asked or because it declines, or a pool with one block
comes out. -/
theorem create_cases (c : PoolConfig) (h : Heap σ) :
    (∃ fault, create c h = .error (fault, h)) ∨
    (∃ fault heap, leastPoolSize ≤ c.size ∧ c.blockLayout.Valid ∧
      h.allocate c.blockLayout = (none, heap) ∧ create c h = .error (fault, heap)) ∨
    (∃ base heap largestSmall, leastPoolSize ≤ c.size ∧ c.blockLayout.Valid ∧
      h.allocate c.blockLayout = (some base, heap) ∧ largestSmall ≤ c.size - blockHeaderSize ∧
      create c h = .ok
        { region :=
            { pool := { config := c, chain := ⟨[], [.fresh base c.size]⟩, largestSmall }
              heap := heap.note (.poolCreated base c.size largestSmall) } }) := by
  unfold create Pool.create
  by_cases hsmall : c.size < leastPoolSize
  · simp only [if_pos hsmall]
    exact .inl ⟨_, rfl⟩
  by_cases hvalid : c.blockLayout.Valid
  · simp only [if_neg hsmall, not_true, hvalid, if_false]
    rcases h.allocate c.blockLayout with ⟨_ | base, heap⟩
    · exact .inr (.inl ⟨_, heap, Nat.le_of_not_lt hsmall, trivial, rfl, rfl⟩)
    · exact .inr (.inr ⟨base, heap, _, Nat.le_of_not_lt hsmall, trivial, rfl, Nat.min_le_left _ _,
        rfl⟩)
  · simp only [if_neg hsmall, hvalid, not_false_eq_true, if_true]
    exact .inl ⟨_, rfl⟩

/-- A new session has a pool with one block, which the source granted, and nothing else. -/
theorem create_ok {c : PoolConfig} {h : Heap σ} {s : Session σ} (hs : create c h = .ok s) :
    ∃ base heap largestSmall, leastPoolSize ≤ c.size ∧ c.blockLayout.Valid ∧
      h.allocate c.blockLayout = (some base, heap) ∧ largestSmall ≤ c.size - blockHeaderSize ∧
      s = { region :=
              { pool := { config := c, chain := ⟨[], [.fresh base c.size]⟩, largestSmall }
                heap := heap.note (.poolCreated base c.size largestSmall) } } := by
  rcases create_cases c h with
    ⟨fault, heq⟩ | ⟨fault, heap, -, -, -, heq⟩ |
    ⟨base, heap, largestSmall, hsize, hvalid, hgrant, hsmall, heq⟩ <;> rw [heq] at hs <;> cases hs
  exact ⟨base, heap, largestSmall, hsize, hvalid, hgrant, hsmall, rfl⟩

theorem balanced_create {c : PoolConfig} {source : σ} {s : Session σ}
    (h : create c { source } = .ok s) : s.region.Balanced [] := by
  obtain ⟨base, heap, largestSmall, hsize, hvalid, hgrant, -, rfl⟩ := create_ok h
  have hpos : 0 < c.blockLayout.size := Nat.lt_of_lt_of_le (by decide) hsize
  exact ⟨hpos, hvalid, ((Heap.ledger_empty source).allocate hpos hvalid hgrant).note _⟩

/-- The books of a session balance after any number of turns. -/
theorem balanced_play {c : PoolConfig} {source : σ} {s : Session σ}
    (h : create c { source } = .ok s) (turns : List (Turn σ)) :
    (s.play turns).region.Balanced [] :=
  (balanced_create h).steps (s.steps_play turns)

/-- **No buffer is lost.** If no pool can be created, nothing is live. Otherwise, after any number
of turns, the live buffers are those that the pool holds, as many as it has blocks and large
buffers and none of them twice; every call of the source was in order; and when the session ends
then, the calls are in order to the end and nothing is live. -/
theorem no_leak (c : PoolConfig) (source : σ) :
    (∀ fault heap, create c { source } = .error (fault, heap) →
      heap.live = [] ∧ Journal.Orderly heap.journal) ∧
    ∀ s, create c { source } = .ok s → ∀ turns : List (Turn σ),
      let r := (s.play turns).region
      r.heap.live = Journal.outstanding r.heap.journal ∧
        r.heap.live.Perm r.pool.held ∧
        r.heap.live.length = r.pool.blockCount + r.pool.largeCount ∧
        (Journal.Lawful r.heap.journal → (r.pool.held.map Buffer.base).Nodup) ∧
        Journal.Orderly r.heap.journal ∧
        (s.play turns).close.live = [] ∧
        Journal.outstanding (s.play turns).close.journal = [] ∧
        Journal.Orderly (s.play turns).close.journal := by
  constructor
  · intro fault heap h
    rcases create_cases c { source } with
      ⟨fault', heq⟩ | ⟨fault', heap', hsize, hvalid, hdecline, heq⟩ |
      ⟨base, heap', largestSmall, -, -, -, -, heq⟩ <;> rw [heq] at h <;> cases h
    · exact ⟨rfl, trivial⟩
    · -- the source was asked once and granted nothing
      have hpos : 0 < c.blockLayout.size := Nat.lt_of_lt_of_le (by decide) hsize
      have hledger := (Heap.ledger_empty source).allocate hpos hvalid hdecline
      exact ⟨hledger.perm.eq_nil, hledger.orderly⟩
  · intro s h turns
    have hbalanced := balanced_play h turns
    have hledger : (s.play turns).region.heap.Ledger (s.play turns).region.pool.held :=
      hbalanced.ledger
    have hclosed : (s.play turns).close.Ledger [] := hbalanced.close
    refine ⟨hledger.live_eq, hledger.perm, ?_, ?_, hledger.orderly, hclosed.perm.eq_nil, ?_,
      hclosed.orderly⟩
    · rw [hledger.perm.length_eq, Pool.length_held]
    · intro hlawful
      have hnodup := Journal.nodup_bases hledger.orderly hlawful
      rw [← hledger.live_eq] at hnodup
      exact (hledger.perm.map Buffer.base).nodup_iff.mp hnodup
    · rw [← hclosed.live_eq]
      exact hclosed.perm.eq_nil

/-- Nothing is lost, for instance, over a numbered source that grants nothing, and over one that
stops granting after a large buffer. -/
theorem no_leak_tracked :
    (∃ fault heap,
      create (.withSize 1024) { source := ({ budget := some 0 } : Tracker) } =
        .error (fault, heap) ∧ heap.live = []) ∧
    ∃ s, create (.withSize 1024) { source := ({} : Tracker) } = .ok s ∧
      let turns : List (Turn Tracker) :=
        [.ask (.allocateAligned none 4096 64) trivial, .adjust (·.withBudget (some 0)),
          .ask (.allocate none 2000) trivial, .free 5, .ask .reset trivial]
      (s.play turns).region.heap.live.Perm (s.play turns).region.pool.held ∧
        (s.play turns).close.live = [] := by
  constructor
  · rcases h : create (.withSize 1024) { source := ({ budget := some 0 } : Tracker) } with
      ⟨fault, heap⟩ | s
    · exact ⟨fault, heap, rfl, ((no_leak _ _).1 fault heap h).1⟩
    · have hfails : (create (.withSize 1024)
          { source := ({ budget := some 0 } : Tracker) }).toBool = false := by decide +kernel
      rw [h] at hfails
      cases hfails
  · rcases h : create (.withSize 1024) { source := ({} : Tracker) } with ⟨fault, heap⟩ | s
    · have hok : (create (.withSize 1024) { source := ({} : Tracker) }).toBool := by
        decide +kernel
      rw [h] at hok
      cases hok
    · obtain ⟨-, hheld, -, -, -, hnone, -⟩ := (no_leak _ _).2 s h
        [.ask (.allocateAligned none 4096 64) trivial, .adjust (·.withBudget (some 0)),
          .ask (.allocate none 2000) trivial, .free 5, .ask .reset trivial]
      exact ⟨s, rfl, hheld, hnone⟩

end Session

end RegionTrie
