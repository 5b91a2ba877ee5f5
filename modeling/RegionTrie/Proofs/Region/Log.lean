import RegionTrie.Proofs.Heap.Log
import RegionTrie.Proofs.Region.Cleanups
import RegionTrie.Proofs.Region.Errands

/-!
# The log of a region

Whatever is done to a region, its log shows its pool: as many blocks as there are, exactly the large
buffers that are tracked, and as many cleanups. Operations that fail leave no trace in the log,
except for a block that was added before. When a region is closed, the log says in order which
handlers run, which large buffers are freed, and which blocks.

## Main definitions

* `Region.Logged`: the log of a region shows its pool
* `Pool.closing`: what the log says when a pool is closed

## Main results

* `Region.Logged.fails`: a failure leaves the log as it was
* `Region.Logged.meet`, `Region.Logged.supply`, `Region.Logged.addCleanup`, `Region.Logged.free`,
  `Region.Logged.reset`: every operation is logged
* `Region.log_close`, `Region.Logged.close`: the log of a closed region
-/

namespace RegionTrie

open Journal

/-- What the log says when a pool is closed: the handlers that run, newest record first, the large
buffers in the order of their records, and the blocks in the order of the chain, each with what was
never handed out of it. -/
def Pool.closing (p : Pool) : List Event :=
  (p.cleanups.filter fun record => record.handler.isSome).map (.cleanupRun ·.address) ++
    (LargeRecord.buffers p.large).map (.largeFreed ·.base) ++
    p.chain.blocks.map (fun b => .blockFreed b.base b.unused) ++ [.poolDestroyed]

namespace Region

variable {σ : Type}

/-- The log shows the pool. -/
def Logged (r : Region σ) : Prop :=
  Shows r.heap.journal r.pool.blockCount
    ((LargeRecord.buffers r.pool.large).map Buffer.base) r.pool.cleanupCount

variable {r r' : Region σ} {fault : Fault} {blocks cleanups : Nat} {large : List Nat}

/-! ## Handlers -/

theorem shows_discard (h : Shows r.heap.journal blocks large cleanups) (handler : Option Nat) :
    Shows (r.discard handler).heap.journal blocks large cleanups := by
  cases handler with
  | none => exact h
  | some id => exact h.quiet trivial

theorem shows_runHandler (h : Shows r.heap.journal blocks large cleanups)
    (record : CleanupRecord) : Shows (r.runHandler record).heap.journal blocks large cleanups := by
  unfold runHandler
  cases record.handler with
  | none => exact h
  | some id =>
    -- the run is noted first, which tells nothing about the pool
    have hnoted := h.quiet (e := .noted (.cleanupRun record.address)) trivial
    exact hnoted.quiet trivial

namespace Logged

/-- Only the pool and the journal matter. -/
theorem congr (h : r.Logged) (hpool : r'.pool = r.pool)
    (hjournal : r'.heap.journal = r.heap.journal) : r'.Logged := by
  unfold Logged
  rw [hpool, hjournal]
  exact h

/-- The live buffers are the memory of the blocks and what is pending. -/
theorem live_perm (h : r.Logged) (hbalanced : r.Balanced []) :
    (r.heap.live.map Buffer.base).Perm
      (r.pool.chain.bases ++ (reading r.heap.journal).pending) := by
  have hheld : r.pool.held.map Buffer.base =
      r.pool.chain.bases ++ (LargeRecord.buffers r.pool.large).map Buffer.base := by
    rw [Pool.held, List.map_append, List.map_map]
    exact congrArg (· ++ _) (List.map_id _)
  have hlive := hbalanced.ledger.perm.map Buffer.base
  rw [List.nil_append, hheld] at hlive
  exact hlive.trans (h.perm.symm.append_left _)

theorem note (h : r.Logged) {event : Event} (hevent : event.Quiet) : (r.note event).Logged :=
  Shows.quiet h hevent

theorem discard (h : r.Logged) (handler : Option Nat) : (r.discard handler).Logged := by
  unfold Logged
  rw [pool_discard]
  exact shows_discard h handler

theorem runHandler (h : r.Logged) (record : CleanupRecord) : (r.runHandler record).Logged := by
  unfold Logged
  rw [pool_runHandler]
  exact shows_runHandler h record

/-- Records keep their number whatever handlers they have. -/
theorem arm (h : r.Logged) (c : Cleanup) (handler : Option Nat) : (r.arm c handler).Logged := by
  have hcount : (r.arm c handler).pool.cleanupCount = r.pool.cleanupCount := List.length_map _
  unfold Logged
  rw [hcount]
  exact h

theorem setHandler (h : r.Logged) (c : Cleanup) (id : Nat) : (r.setHandler c id).Logged :=
  (h.discard _).arm c (some id)

theorem disarm (h : r.Logged) (c : Cleanup) : (r.disarm c).Logged :=
  (h.discard _).arm c none

theorem runNow (h : r.Logged) (c : Cleanup) : (r.runNow c).2.Logged := by
  unfold Region.runNow
  cases r.cleanup? c with
  | none => exact h
  | some record => exact (h.runHandler record).arm c none

theorem writePayload (h : r.Logged) (c : Cleanup) (offset : Nat) (bytes : List UInt8) :
    (r.writePayload c offset bytes).Logged := by
  unfold Region.writePayload
  cases r.cleanup? c with
  | none => exact h
  | some record => exact h.congr rfl rfl

/-! ## Requests for memory -/

/-- **A failure leaves the log as it was.** -/
theorem fails (h : r.Logged) (hfails : r.Fails fault r') : r'.Logged := by
  cases hfails with
  | invalid => exact h
  | declined l source => exact Shows.quiet h trivial
  | returned b source => exact Shows.untracked h r.pool.config.blockLayout

variable [RawSource σ]

/-- A granted buffer is nothing to the log as long as nobody tells of it. -/
theorem granted (h : r.Logged) {l : Layout} {base : Nat} {heap : Heap σ}
    (hgrant : r.heap.allocate l = (some base, heap)) : Logged { r with heap } := by
  unfold Logged
  rw [Heap.journal_of_grant hgrant]
  exact Shows.quiet h trivial

theorem reserve (h : r.Logged) (size align : Nat) : (r.reserve size align).2.Logged := by
  rcases hop : r.reserve size align with ⟨fault | start, r'⟩
  · exact h.fails (fails_of_reserve hop)
  rcases reserve_cases r size align with
    ⟨start', chain, hserve, heq⟩ | ⟨base, heap, -, hgrant, heq⟩ | ⟨heap, -, -, heq⟩ <;>
    rw [heq] at hop <;> cases hop
  · -- an old block serves, and there are as many blocks as before
    have hcount := congrArg List.length (Chain.bases_serve? hserve)
    rw [Chain.bases, List.length_map, Chain.bases, List.length_map] at hcount
    unfold Logged Pool.blockCount
    rw [hcount]
    exact Shows.quiet h trivial
  · -- a new block serves, and is noted after it has served
    let block := Block.fresh base r.pool.config.size
    have hserved := (h.granted hgrant).quiet (e := .served ⟨block.next align, size⟩ align) trivial
    have hcount := Chain.length_blocks_append r.pool.chain r.pool.config.skipAfterFailures
      (block.bump size align)
    unfold Logged Pool.blockCount
    rw [hcount]
    exact hserved.grown base r.pool.config.size

/-- A tracked buffer is announced. -/
theorem link (h : r.Logged) {l : Layout} {base : Nat} {heap : Heap σ}
    (hgrant : r.heap.allocate l = (some base, heap)) :
    (Region.link { r with heap } ⟨base, l⟩).2.Logged := by
  rcases hop : Region.link { r with heap } ⟨base, l⟩ with ⟨fault | start, r'⟩
  · exact h.fails (fails_of_link hgrant hop)
  have hreserve := (h.granted hgrant).reserve largeRecordSize wordAlign
  rcases link_cases { r with heap } ⟨base, l⟩ with
    ⟨address, r₁, hrecord, heq⟩ | ⟨fault, r₁, -, heq⟩ <;> rw [heq] at hop <;> cases hop
  rw [hrecord] at hreserve
  exact Shows.announced hreserve (.linked l.size l.align)

theorem allocateLarge (h : r.Logged) (l : Layout) : (r.allocateLarge l).2.Logged := by
  rcases allocateLarge_cases r l with
    ⟨heap, hdecline, heq⟩ | ⟨base, heap, large, hgrant, hoccupy, heq⟩ |
    ⟨base, heap, hgrant, heq⟩ <;> rw [heq]
  · exact h.fails (fails_of_decline hdecline)
  · -- the buffer is announced first, and stands somewhere among the records
    obtain ⟨front, back, hbefore, hafter⟩ := LargeRecord.buffers_occupy? hoccupy
    have hevent : Event.Announces base (.largeReused base l.size) := .reused l.size
    refine (Shows.announced (h.granted hgrant) hevent).trans_perm ?_
    rw [hbefore, hafter, List.map_append, List.map_append]
    exact List.perm_middle.symm
  · exact h.link hgrant

theorem allocateAligned (h : r.Logged) (size align : Nat) :
    (r.allocateAligned size align).2.Logged := by
  rcases allocateAligned_cases r size align with
    ⟨-, heq⟩ | ⟨heap, -, -, hdecline, heq⟩ | ⟨base, heap, -, -, hgrant, heq⟩ <;> rw [heq]
  · exact h
  · exact h.fails (fails_of_decline hdecline)
  · exact h.link hgrant

theorem meet (h : r.Logged) (d : Demand) : (r.meet d).2.Logged := by
  cases d with
  | nothing => exact h
  | refused fault => exact h
  | small size align => exact h.reserve size align
  | large l reuse =>
    cases reuse with
    | true => exact h.allocateLarge l
    | false => exact h.allocateAligned l.size l.align

/-- What memory holds is nothing to the log, so a request is logged as what it comes down to. -/
theorem supply (h : r.Logged) (a : Allocation) : (r.supply a).2.Logged :=
  have halike := supply_alike r a
  (h.meet _).congr halike.pool halike.journal

theorem allocateCopy (h : r.Logged) (align : Nat) (bytes : List UInt8) :
    (r.allocateCopy align bytes).2.Logged := by
  have hlayout : (r.allocateLayout ⟨bytes.length, align⟩).2.Logged := h.supply (.layout _)
  unfold Region.allocateCopy
  rcases hop : r.allocateLayout ⟨bytes.length, align⟩ with ⟨fault | start, r'⟩ <;>
    rw [hop] at hlayout
  · exact hlayout
  · exact hlayout.congr rfl rfl

/-! ## Cleanups -/

theorem addCleanup (h : r.Logged) (size : Nat) : (r.addCleanup size).2.Logged := by
  have hreserve := h.reserve cleanupRecordSize wordAlign
  unfold Region.addCleanup
  rcases hrecord : r.reserve cleanupRecordSize wordAlign with ⟨fault | address, r₁⟩ <;>
    rw [hrecord] at hreserve
  · exact hreserve
  have hpayload : (r₁.allocatePayload size).2.Logged :=
    have halike := allocatePayload_alike r₁ size
    (hreserve.meet _).congr halike.pool halike.journal
  dsimp only
  rcases hop : r₁.allocatePayload size with ⟨fault | start, r₂⟩ <;> rw [hop] at hpayload
  · -- the record is lost, and the log does not count it
    exact hpayload
  · exact Shows.registered hpayload address size

theorem addCleanupWith (h : r.Logged) (size id : Nat) : (r.addCleanupWith size id).2.Logged := by
  have hadd := h.addCleanup size
  unfold Region.addCleanupWith
  rcases hop : r.addCleanup size with ⟨fault | c, r'⟩ <;> rw [hop] at hadd
  · exact hadd.discard (some id)
  · exact hadd.setHandler c id

/-! ## What goes -/

theorem free (h : r.Logged) (address : Nat) : (r.free address).2.Logged := by
  rcases free_cases r address with ⟨-, heq⟩ | ⟨b, large, hvacate, heq⟩ <;> rw [heq]
  · exact h
  obtain ⟨rfl, front, back, hbefore, hafter⟩ := LargeRecord.buffers_vacate? hvacate
  -- the buffer that goes is put first, to be taken away
  have hfirst : Shows r.heap.journal r.pool.blockCount
      (b.base :: (LargeRecord.buffers large).map Buffer.base) r.pool.cleanupCount := by
    apply Shows.trans_perm h
    rw [hbefore, hafter, List.map_append, List.map_append]
    exact List.perm_middle
  exact hfirst.largeFreed

theorem reset (h : r.Logged) : r.reset.Logged := by
  have hlarge : Shows r.releaseLarge.heap.journal r.pool.blockCount [] r.pool.cleanupCount := by
    apply Shows.foldl_largeFreed
    rw [List.append_nil]
    exact h
  -- disposing of handlers is nothing to the log
  have hdiscard : Shows r.releaseLarge.discardCleanups.heap.journal r.pool.blockCount []
      r.pool.cleanupCount := by
    apply discardCleanups_induction
      (P := fun s => Shows s.heap.journal r.pool.blockCount [] r.pool.cleanupCount)
    · intro s hs
      exact hs
    · intro s handler hs
      exact shows_discard hs handler
    · exact hlarge
  have hreset := hdiscard.reset r.releaseLarge.discardCleanups.pool.chain.rewind.blocks.length
  have hcount : r.pool.chain.rewind.blocks.length = r.pool.blockCount := by
    rw [Chain.blocks_rewind, List.length_map]
    rfl
  unfold Logged
  rw [pool_reset, Pool.blockCount, hcount]
  exact hreset

/-- No large buffer is pending in the log of a closed region. -/
theorem close (h : r.Logged) :
    Shows r.close.journal r.pool.blockCount [] r.pool.cleanupCount := by
  have hruns : Shows r.runCleanups.heap.journal r.pool.blockCount
      ((LargeRecord.buffers r.pool.large).map Buffer.base) r.pool.cleanupCount := by
    apply runCleanups_induction (P := fun s => Shows s.heap.journal r.pool.blockCount
      ((LargeRecord.buffers r.pool.large).map Buffer.base) r.pool.cleanupCount)
    · intro s hs
      exact hs
    · intro s record hs
      exact shows_runHandler hs record
    · exact h
  have hlarge : Shows r.runCleanups.releaseLarge.heap.journal r.pool.blockCount []
      r.pool.cleanupCount := by
    apply Shows.foldl_largeFreed
    rw [List.append_nil, pool_runCleanups]
    exact hruns
  have hblocks := hlarge.foldl_blockFreed r.runCleanups.releaseLarge.pool.chain.blocks
    r.runCleanups.releaseLarge.pool.config.blockLayout
  exact hblocks.quiet trivial

end Logged

/-! ## The log of a closed region -/

/-- The log says of every armed handler that it runs, newest record first. -/
theorem log_runCleanups (r : Region σ) :
    log r.runCleanups.heap.journal =
      ((r.pool.cleanups.filter fun record => record.handler.isSome).map
        (.cleanupRun ·.address)).reverse ++ log r.heap.journal := by
  -- on the records: the newest comes first, so its entry is the deepest
  have hfold : ∀ (records : List CleanupRecord) (s : Region σ),
      log (records.foldl runHandler s).heap.journal =
        ((records.filter fun record => record.handler.isSome).map
          (.cleanupRun ·.address)).reverse ++ log s.heap.journal := by
    intro records
    induction records with
    | nil => exact fun s => rfl
    | cons record records ih =>
      intro s
      rw [List.foldl_cons, ih]
      cases hhandler : record.handler with
      | none => simp [runHandler, hhandler]
      | some id =>
        have hrun : log (s.runHandler record).heap.journal =
            .cleanupRun record.address :: log s.heap.journal := by
          rw [runHandler, hhandler]
          rfl
        simp [hrun, hhandler]
  exact hfold r.pool.cleanups r

/-- What goes back, one after the other, is noted one after the other. -/
theorem log_foldl_release [RawSource σ] {α : Type} (buffer : α → Buffer) (event : α → Event)
    (items : List α) (h : Heap σ) :
    log (items.foldl (fun heap a => (Heap.note heap (event a)).release (buffer a)) h).journal =
      (items.map event).reverse ++ log h.journal := by
  induction items generalizing h with
  | nil => rfl
  | cons a items ih =>
    have hnoted : log ((h.note (event a)).release (buffer a)).journal =
        event a :: log h.journal := rfl
    rw [List.foldl_cons, ih, hnoted]
    simp

/-- **The log of a closed region** says which handlers run, which large buffers are freed and which
blocks, in this order, and last that the pool is gone. -/
theorem log_close [RawSource σ] (r : Region σ) :
    log r.close.journal = r.pool.closing.reverse ++ log r.heap.journal := by
  have hlarge := log_foldl_release (fun b => b) (fun b => .largeFreed b.base)
    (LargeRecord.buffers r.runCleanups.pool.large) r.runCleanups.heap
  have hblocks := log_foldl_release
    (fun b : Block => ⟨b.base, r.runCleanups.pool.config.blockLayout⟩)
    (fun b => .blockFreed b.base b.unused) r.runCleanups.pool.chain.blocks
    r.runCleanups.releaseLarge.heap
  have hlast : log r.close.journal =
      .poolDestroyed :: log r.runCleanups.releaseLarge.releaseBlocks.journal := rfl
  rw [hlast, show log r.runCleanups.releaseLarge.releaseBlocks.journal = _ from hblocks,
    show log r.runCleanups.releaseLarge.heap.journal = _ from hlarge, log_runCleanups,
    pool_runCleanups, Pool.closing]
  simp only [List.reverse_append, List.append_assoc, List.reverse_singleton, List.cons_append,
    List.nil_append]

/-- Closing a region takes no entry out of the journal. -/
theorem suffix_close [RawSource σ] (r : Region σ) : r.heap.journal <:+ r.close.journal := by
  obtain ⟨during, hruns, -⟩ := journal_runCleanups r
  obtain ⟨after, hclose, -⟩ := journal_close r
  rw [hclose, hruns, ← List.append_assoc]
  exact List.suffix_append _ _

end Region

end RegionTrie
