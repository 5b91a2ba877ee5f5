import RegionTrie.Proofs.Region.Errands
import RegionTrie.Proofs.Region.Placement
import RegionTrie.Proofs.Session.Ledger

/-!
# Ranges are served safely

Over a source that grants aligned buffers apart from each other, the blocks of a session are in
order and all served ranges lie in their places, after any number of turns: inside one block and
behind its header, as aligned as requested, and apart from each other and from every large buffer.

## Main results

* `Session.placed_play`: everything is in its place after any number of turns
* `Session.supplied_in_place`: what is answered to a small request is a range in its place
* `Session.served_in_place`: what that means for blocks, served ranges, records and large buffers
-/

namespace RegionTrie

namespace Region

open Journal

variable {σ : Type} {r : Region σ}

/-- The buffers that a pool holds lie apart from each other if grants are lawful. -/
theorem Balanced.pairwise_apart (hb : r.Balanced []) (hlawful : Lawful r.heap.journal) :
    r.pool.held.Pairwise fun b c => b.extent.Apart c.extent := by
  have hlive : r.heap.live.Pairwise fun b c => b.extent.Apart c.extent := by
    rw [hb.ledger.live_eq]
    exact hlawful.pairwise_apart
  exact (hb.ledger.perm.pairwise_iff fun hapart => hapart.symm).mp hlive

/-- A range inside a block is apart from every large buffer. -/
theorem Placed.apart_of_large (h : r.Placed) (hb : r.Balanced []) (hlawful : Lawful r.heap.journal)
    {range : Extent × Nat} (hrange : range ∈ served r.heap.journal) {b : Buffer}
    (hbuffer : b ∈ LargeRecord.buffers r.pool.large) : range.1.Apart b.extent := by
  -- a range lies in a block, and a block is apart from every large buffer
  obtain ⟨-, block, hblock, hstart, hend⟩ := h.placement.inside range hrange
  obtain ⟨-, hlast, hstop⟩ := h.placement.bounds block hblock
  have hmem : (⟨block.base, r.pool.config.blockLayout⟩ : Buffer) ∈
      r.pool.chain.bases.map (⟨·, r.pool.config.blockLayout⟩) :=
    List.mem_map_of_mem (List.mem_map_of_mem hblock)
  have hapart := (List.pairwise_append.mp (hb.pairwise_apart hlawful)).2.2 _ hmem b hbuffer
  simp only [Extent.Apart, Extent.stop, Buffer.extent, PoolConfig.blockLayout] at hapart hend ⊢
  omega

end Region

namespace Session

open Region

variable {σ : Type} [RawSource σ]

theorem placed_create {c : PoolConfig} {source : σ} {s : Session σ}
    (h : create c { source } = .ok s) (hlawful : Journal.Lawful s.region.heap.journal) :
    s.region.Placed := by
  obtain ⟨base, heap, largestSmall, hsize, -, hgrant, hsmall, rfl⟩ := create_ok h
  have hheader : blockHeaderSize ≤ c.size := Nat.le_trans (by decide) hsize
  rcases Heap.allocate_cases ({ source } : Heap σ) c.blockLayout with
    ⟨base', source', hop⟩ | ⟨source', hop⟩ <;> rw [hop] at hgrant <;> cases hgrant
  have hfits : blockHeaderSize + largestSmall ≤ c.size := by omega
  refine ⟨hsize, hfits, ?_, ?_, ?_⟩
  · -- one fresh block, and nothing served from it
    have hempty : Placement c.size [] [] :=
      ⟨by simp, by simp, List.Pairwise.nil, by simp, List.Pairwise.nil⟩
    exact hempty.grow hlawful.1 (by simp) hheader
  · intro address haddress
    cases haddress
  · intro record hrecord
    cases hrecord

/-- Everything is in its place after any number of turns. -/
theorem placed_play {c : PoolConfig} {source : σ} {s : Session σ}
    (h : create c { source } = .ok s) (turns : List (Turn σ))
    (hlawful : Journal.Lawful (s.play turns).region.heap.journal) :
    (s.play turns).region.Placed :=
  Placed.steps (balanced_create h) (placed_create h) (s.steps_play turns) hlawful

/-- What is answered to a small request is such a range: it is as aligned as requested, inside one
block, and apart from all ranges that were served before. -/
theorem supplied_in_place {c : PoolConfig} {source : σ} {s : Session σ}
    (h : create c { source } = .ok s) (turns : List (Turn σ)) {r r' : Region σ}
    (hr : r = (s.play turns).region) {a : Allocation} (ha : a.WellFormed) {size align start : Nat}
    (hsmall : a.demand r.pool.largestSmall = .small size align)
    (hsupply : r.supply a = (.ok (some start), r')) (hlawful : Journal.Lawful r'.heap.journal) :
    align ∣ start ∧
      (∃ b ∈ r'.pool.chain.blocks, b.base + blockHeaderSize ≤ start ∧ start + size ≤ b.last) ∧
      ∀ range ∈ Journal.served r.heap.journal, Extent.Apart ⟨start, size⟩ range.1 := by
  have hsteps := r.steps_supply ha
  obtain ⟨-, -, hserved⟩ := r.supply_of_small hsmall
  rw [hsupply] at hsteps hserved
  have hplaced : r'.Placed :=
    Placed.steps (balanced_create h) (placed_create h)
      ((s.steps_play turns).trans (hr ▸ hsteps)) hlawful
  -- the range served last is the one that was answered
  have hnewest := hserved start rfl
  obtain ⟨hdvd, hinside⟩ :=
    hplaced.placement.inside (⟨start, size⟩, align) (hnewest ▸ List.mem_cons_self)
  have hdisjoint := hplaced.placement.disjoint
  rw [hnewest] at hdisjoint
  exact ⟨hdvd, hinside, (List.pairwise_cons.mp hdisjoint).1⟩

/-- **Ranges are served safely.** If the source grants what it should, then after any number of
turns the first free byte of every block lies behind its header and no further than its end, and
no search looks further past the end than blocks are aligned; every range served since the last
reset lies inside one block, behind the header and as aligned as requested, apart from all others
and from every large buffer; and large records, cleanup records and their small payloads lie in
such ranges. -/
theorem served_in_place {c : PoolConfig} {source : σ} {s : Session σ}
    (h : create c { source } = .ok s) (turns : List (Turn σ))
    (hlawful : Journal.Lawful (s.play turns).region.heap.journal) :
    let r := (s.play turns).region
    let ranges := Journal.served r.heap.journal
    (∀ b ∈ r.pool.chain.blocks,
      b.base + blockHeaderSize ≤ b.last ∧ b.last ≤ b.stop ∧ b.stop = b.base + r.pool.blockSize ∧
        ∀ align, align ∣ blockAlign → b.next align < b.stop + blockAlign) ∧
      (∀ range ∈ ranges, range.2 ∣ range.1.start ∧
        ∃ b ∈ r.pool.chain.blocks,
          b.base + blockHeaderSize ≤ range.1.start ∧ range.1.stop ≤ b.stop) ∧
      (ranges.Pairwise fun range other => range.1.Apart other.1) ∧
      (∀ range ∈ ranges, ∀ b ∈ LargeRecord.buffers r.pool.large, range.1.Apart b.extent) ∧
      (∀ record ∈ r.pool.large, (⟨record.address, largeRecordSize⟩, wordAlign) ∈ ranges) ∧
      ∀ record ∈ r.pool.cleanups, r.Filed record := by
  have hplaced := placed_play h turns hlawful
  have hbalanced := balanced_play h turns
  refine ⟨?_, ?_, hplaced.placement.disjoint, ?_, ?_, hplaced.cleanups⟩
  · intro b hb
    obtain ⟨hfirst, hlast, hstop⟩ := hplaced.placement.bounds b hb
    refine ⟨hfirst, hlast, hstop, ?_⟩
    intro align halign
    -- rounding up passes the first free byte by less than the alignment
    have hlt := alignUp_lt b.last (pos_of_dvd_blockAlign halign)
    have hle : align ≤ blockAlign := Nat.le_of_dvd (by decide) halign
    unfold Block.next
    omega
  · intro range hrange
    obtain ⟨hdvd, b, hb, hstart, hend⟩ := hplaced.placement.inside range hrange
    exact ⟨hdvd, b, hb, hstart, Nat.le_trans hend (hplaced.placement.bounds b hb).2.1⟩
  · intro range hrange b hb
    exact hplaced.apart_of_large hbalanced hlawful hrange hb
  · intro record hrecord
    exact hplaced.large _ (List.mem_map_of_mem hrecord)

/-- Ranges are served safely, for instance, where small blocks are filled over a numbered source
that stops granting for a while. -/
theorem served_in_place_tracked :
    ∃ s turns, create (.withSize 128) { source := ({} : Tracker) } = .ok s ∧
      turns = [.ask (.addCleanup 0 20 (some 1)) trivial, .adjust (·.withBudget (some 0)),
        .ask (.allocate none 90) trivial, .adjust (·.withBudget none),
        .ask (.allocate none 90) trivial, .ask (.allocate none 1000) trivial] ∧
      Journal.Lawful (s.play turns).region.heap.journal ∧
        (Journal.served (s.play turns).region.heap.journal).Pairwise fun range other =>
          range.1.Apart other.1 := by
  obtain ⟨turns, hturns⟩ : ∃ turns : List (Turn Tracker),
      turns = [.ask (.addCleanup 0 20 (some 1)) trivial, .adjust (·.withBudget (some 0)),
        .ask (.allocate none 90) trivial, .adjust (·.withBudget none),
        .ask (.allocate none 90) trivial, .ask (.allocate none 1000) trivial] := ⟨_, rfl⟩
  have hcheck : (match create (.withSize 128) { source := ({} : Tracker) } with
      | .ok s => decide (Journal.Lawful (s.play turns).region.heap.journal)
      | .error _ => false) = true := by
    rw [hturns]
    decide +kernel
  rcases h : create (.withSize 128) { source := ({} : Tracker) } with ⟨fault, heap⟩ | s <;>
    rw [h] at hcheck
  · cases hcheck
  · have hlawful : Journal.Lawful (s.play turns).region.heap.journal := of_decide_eq_true hcheck
    have hplaced := served_in_place h turns hlawful
    exact ⟨s, turns, rfl, hturns, hlawful, hplaced.2.2.1⟩

end Session

end RegionTrie
