import RegionTrie.Proofs.Region.Steps

/-!
# Who holds the live buffers

Between two steps the live buffers of a region are the memory of its blocks and the buffers in its
large records, each held in one place. Within a step a buffer may be in flight: granted already and
not yet registered, or taken out of its record and not yet given back.

## Main definitions

* `Pool.held`: the buffers that a pool holds
* `Region.Balanced`: the live buffers are those held and those in flight

## Main results

* `Region.Balanced.reserve`, `Region.Balanced.link`, `Region.Balanced.release`: what happens to a
  buffer in flight
* `Region.Balanced.step`: every step keeps the balance
* `Region.Balanced.close`: closing a region gives every buffer back
-/

namespace RegionTrie

namespace Chain

/-- Where the blocks start. -/
def bases (c : Chain) : List Nat :=
  c.blocks.map Block.base

theorem bases_serve? {c c' : Chain} {size align start : Nat}
    (h : c.serve? size align = some (start, c')) : c'.bases = c.bases := by
  simp only [serve?, Option.map_eq_some_iff] at h
  obtain ⟨⟨start', ahead⟩, hserve, heq⟩ := h
  obtain ⟨rfl, rfl⟩ := Prod.mk.inj heq
  obtain ⟨front, b, b', back, hbefore, rfl, -, hb⟩ := serveFirst?_eq_some hserve
  -- the block that serves stays where it is
  have hbase : b'.base = b.base := by
    unfold Block.serve? at hb
    split at hb
    · cases hb
      rfl
    · cases hb
  simp [bases, blocks, hbefore, hbase]

theorem bases_append (c : Chain) (tolerance : Nat) (b : Block) :
    (c.append tolerance b).bases = c.bases ++ [b.base] := by
  have hmiss : Block.base ∘ Block.miss = Block.base := rfl
  rw [bases, blocks_append, List.map_append, List.map_append, List.map_map, hmiss, bases, blocks,
    List.map_append]
  rfl

theorem bases_rewind (c : Chain) : c.rewind.bases = c.bases := by
  have hrewind : Block.base ∘ Block.rewind = Block.base := rfl
  simp only [bases, blocks_rewind, List.map_map, hrewind]

end Chain

/-- The buffers that a pool holds: the memory of its blocks, and those in its large records. -/
def Pool.held (p : Pool) : List Buffer :=
  p.chain.bases.map (⟨·, p.config.blockLayout⟩) ++ LargeRecord.buffers p.large

theorem Pool.length_held (p : Pool) : p.held.length = p.blockCount + p.largeCount := by
  simp [held, Chain.bases, blockCount, largeCount]

namespace Region

open Journal

variable {σ : Type}

/-- The live buffers are those that the pool holds and those in flight, and blocks can be asked
for. -/
structure Balanced (flight : List Buffer) (r : Region σ) : Prop where
  size_pos : 0 < r.pool.config.blockLayout.size
  valid : r.pool.config.blockLayout.Valid
  ledger : r.heap.Ledger (flight ++ r.pool.held)

variable {flight : List Buffer} {b : Buffer} {r : Region σ}

/-! ## Steps without a call of the source -/

theorem ledger_discard {held : List Buffer} (h : r.heap.Ledger held) (handler : Option Nat) :
    (r.discard handler).heap.Ledger held := by
  cases handler with
  | none => exact h
  | some id => exact h.record trivial

theorem ledger_runHandler {held : List Buffer} (h : r.heap.Ledger held) (record : CleanupRecord) :
    (r.runHandler record).heap.Ledger held := by
  unfold runHandler
  cases record.handler with
  | none => exact h
  | some id => exact (h.note _).record trivial

namespace Balanced

/-- Only the sizes of blocks, the buffers held and the ledger matter. -/
theorem congr {r' : Region σ} (h : r.Balanced flight) (hconfig : r'.pool.config = r.pool.config)
    (hheld : r'.pool.held = r.pool.held) (hledger : r'.heap.Ledger (flight ++ r.pool.held)) :
    r'.Balanced flight where
  size_pos := by rw [hconfig]; exact h.size_pos
  valid := by rw [hconfig]; exact h.valid
  ledger := by rw [hheld]; exact hledger

/-- Disposing of every cleanup changes nothing about buffers. -/
theorem discardCleanups (h : r.Balanced flight) : r.discardCleanups.Balanced flight := by
  have hledger : r.discardCleanups.heap.Ledger (flight ++ r.pool.held) :=
    discardCleanups_induction (P := fun s => s.heap.Ledger (flight ++ r.pool.held))
      (fun _ hs => hs) (fun _ handler hs => ledger_discard hs handler) h.ledger
  apply h.congr _ _ hledger <;> rw [pool_discardCleanups]
  rfl

/-- Neither does running the handlers. -/
theorem runCleanups (h : r.Balanced flight) : r.runCleanups.Balanced flight := by
  have hledger : r.runCleanups.heap.Ledger (flight ++ r.pool.held) :=
    runCleanups_induction (P := fun s => s.heap.Ledger (flight ++ r.pool.held))
      (fun _ hs => hs) (fun _ record hs => ledger_runHandler hs record) h.ledger
  apply h.congr _ _ hledger <;> rw [pool_runCleanups]
  rfl

variable [RawSource σ]

/-! ## Buffers in flight -/

/-- A granted buffer is in flight. -/
theorem grant (h : r.Balanced flight) {l : Layout} (hsize : 0 < l.size) (hvalid : l.Valid)
    {base : Nat} {heap : Heap σ} (hgrant : r.heap.allocate l = (some base, heap)) :
    Balanced (⟨base, l⟩ :: flight) { r with heap } :=
  ⟨h.size_pos, h.valid, h.ledger.allocate hsize hvalid hgrant⟩

/-- After a refusal nothing more is in flight. -/
theorem decline (h : r.Balanced flight) {l : Layout} (hsize : 0 < l.size) (hvalid : l.Valid)
    {heap : Heap σ} (hdecline : r.heap.allocate l = (none, heap)) :
    Balanced flight { r with heap } :=
  ⟨h.size_pos, h.valid, h.ledger.allocate hsize hvalid hdecline⟩

/-- A range is served, and perhaps a block is added to those held. -/
theorem reserve (h : r.Balanced flight) (size align : Nat) :
    (r.reserve size align).2.Balanced flight := by
  rcases reserve_cases r size align with
    ⟨start, chain, hserve, heq⟩ | ⟨base, heap, -, hgrant, heq⟩ | ⟨heap, -, hdecline, heq⟩ <;>
    rw [heq]
  · -- an old block serves, and no buffer moves
    have hheld : Pool.held { r.pool with chain } = r.pool.held := by
      simp only [Pool.held, Chain.bases_serve? hserve]
    exact h.congr rfl hheld (h.ledger.record trivial)
  · -- a new block is held behind the others
    have hledger := (h.grant h.size_pos h.valid hgrant).ledger
    refine ⟨h.size_pos, h.valid, ((hledger.record ?_).note _).trans_perm ?_⟩
    · trivial
    refine List.perm_iff_count.mpr fun a => ?_
    simp only [Pool.held, Chain.bases_append, Block.fresh, Block.bump, List.map_append,
      List.map_cons, List.map_nil, List.count_append, List.count_cons, List.count_nil]
    omega
  · exact h.decline h.size_pos h.valid hdecline

/-- A buffer in flight goes back. -/
theorem release (h : r.Balanced (b :: flight)) : (r.release b).Balanced flight :=
  ⟨h.size_pos, h.valid, h.ledger.release⟩

/-- A buffer in flight is registered, or goes back. -/
theorem link (h : r.Balanced (b :: flight)) : (r.link b).2.Balanced flight := by
  have hreserve := h.reserve largeRecordSize wordAlign
  rcases link_cases r b with ⟨address, r', hop, heq⟩ | ⟨fault, r', hop, heq⟩ <;>
    rw [hop] at hreserve <;> rw [heq]
  · -- the buffer is no longer in flight but in the new record
    refine ⟨hreserve.size_pos, hreserve.valid, (hreserve.ledger.note _).trans_perm ?_⟩
    refine List.perm_iff_count.mpr fun a => ?_
    simp only [Pool.held, LargeRecord.buffers, note, List.filterMap_cons, List.count_append,
      List.count_cons]
    omega
  · exact hreserve.release

theorem allocateLarge (h : r.Balanced flight) {l : Layout} (hsize : 0 < l.size) (hvalid : l.Valid) :
    (r.allocateLarge l).2.Balanced flight := by
  rcases allocateLarge_cases r l with
    ⟨heap, hdecline, heq⟩ | ⟨base, heap, large, hgrant, hoccupy, heq⟩ |
    ⟨base, heap, hgrant, heq⟩ <;> rw [heq]
  · exact h.decline hsize hvalid hdecline
  · -- an empty record takes the buffer
    have hledger := (h.grant hsize hvalid hgrant).ledger
    obtain ⟨front, back, hbefore, hafter⟩ := LargeRecord.buffers_occupy? hoccupy
    refine ⟨h.size_pos, h.valid, (hledger.note _).trans_perm ?_⟩
    refine List.perm_iff_count.mpr fun a => ?_
    simp only [Pool.held, hbefore, hafter, List.count_append, List.count_cons]
    omega
  · exact (h.grant hsize hvalid hgrant).link

theorem allocateAligned (h : r.Balanced flight) (size align : Nat) :
    (r.allocateAligned size align).2.Balanced flight := by
  rcases allocateAligned_cases r size align with
    ⟨-, heq⟩ | ⟨heap, hsize, hvalid, hdecline, heq⟩ | ⟨base, heap, hsize, hvalid, hgrant, heq⟩ <;>
    rw [heq]
  · exact h
  · exact h.decline hsize hvalid hdecline
  · exact (h.grant hsize hvalid hgrant).link

theorem free (h : r.Balanced flight) (address : Nat) : (r.free address).2.Balanced flight := by
  rcases free_cases r address with ⟨-, heq⟩ | ⟨b, large, hvacate, heq⟩ <;> rw [heq]
  · exact h
  · -- the buffer is in flight between its record and the source
    obtain ⟨-, front, back, hbefore, hafter⟩ := LargeRecord.buffers_vacate? hvacate
    refine Balanced.release ⟨h.size_pos, h.valid, (h.ledger.note _).trans_perm ?_⟩
    refine List.perm_iff_count.mpr fun a => ?_
    simp only [Pool.held, hbefore, hafter, note, List.count_append, List.count_cons]
    omega

/-- Every large buffer goes back, and the blocks stay. -/
theorem releaseLarge (h : r.Balanced flight) : r.releaseLarge.Balanced flight := by
  refine ⟨h.size_pos, h.valid, ?_⟩
  refine Heap.Ledger.foldl_release (fun b => b) (fun b => .largeFreed b.base)
    (LargeRecord.buffers r.pool.large) (h.ledger.trans_perm ?_)
  refine List.perm_iff_count.mpr fun a => ?_
  simp only [Pool.held, Region.releaseLarge, LargeRecord.buffers, List.filterMap_nil, List.map_id',
    List.count_append, List.count_nil]
  omega

theorem reset (h : r.Balanced flight) : r.reset.Balanced flight := by
  -- rewinding moves no block
  have hdiscard := h.releaseLarge.discardCleanups
  have hheld : Pool.held { r.releaseLarge.discardCleanups.pool with
      chain := r.releaseLarge.discardCleanups.pool.chain.rewind } =
      r.releaseLarge.discardCleanups.pool.held := by
    simp only [Pool.held, Chain.bases_rewind]
  exact hdiscard.congr rfl hheld (hdiscard.ledger.note _)

/-- Every step keeps the balance. -/
theorem step {r r' : Region σ} (h : r.Balanced flight) (hstep : Step r r') :
    r'.Balanced flight := by
  cases hstep with
  | reserve hsize halign => exact h.reserve _ _
  | allocateLarge hsize hvalid => exact h.allocateLarge hsize hvalid
  | allocateAligned size align => exact h.allocateAligned size align
  | free address => exact h.free address
  | reset => exact h.reset
  | note hevent => exact h.congr rfl rfl (h.ledger.note _)
  | store => exact h.congr rfl rfl ⟨h.ledger.live_eq, h.ledger.orderly, h.ledger.perm⟩
  | enlist => exact h.congr rfl rfl h.ledger
  | arm => exact h.congr rfl rfl h.ledger
  | discard handler =>
    apply h.congr _ _ (ledger_discard h.ledger handler) <;> rw [pool_discard]
  | runHandler record =>
    apply h.congr _ _ (ledger_runHandler h.ledger record) <;> rw [pool_runHandler]
  | adjust f => exact h.congr rfl rfl ⟨h.ledger.live_eq, h.ledger.orderly, h.ledger.perm⟩

theorem steps {r r' : Region σ} (h : r.Balanced flight) (hsteps : Steps r r') :
    r'.Balanced flight := by
  induction hsteps with
  | refl => exact h
  | tail _ hstep ih => exact ih.step hstep

/-! ## The end -/

theorem releaseBlocks (h : r.Balanced []) (hlarge : r.pool.large = []) :
    r.releaseBlocks.Ledger [] := by
  refine Heap.Ledger.foldl_release (fun b : Block => ⟨b.base, r.pool.config.blockLayout⟩)
    (fun b => .blockFreed b.base b.unused) r.pool.chain.blocks (h.ledger.trans_perm ?_)
  have hmap : r.pool.chain.bases.map (fun base => (⟨base, r.pool.config.blockLayout⟩ : Buffer)) =
      r.pool.chain.blocks.map fun b => ⟨b.base, r.pool.config.blockLayout⟩ := by
    rw [Chain.bases, List.map_map]
    rfl
  rw [Pool.held, hlarge, hmap]
  exact List.Perm.refl _

/-- A closed region has given every buffer back. -/
theorem close (h : r.Balanced []) : r.close.Ledger [] := by
  -- handlers run first, then large buffers go back, and the blocks go last
  have hrun : r.runCleanups.Balanced [] := h.runCleanups
  exact (hrun.releaseLarge.releaseBlocks rfl).note _

end Balanced

end Region

end RegionTrie
