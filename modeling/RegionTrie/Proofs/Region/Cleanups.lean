import RegionTrie.Proofs.Region.Lots

/-!
# What becomes of cleanups

A new cleanup has a record and a payload of its own. Its handler comes to its end by a run or by
being disposed of, and both are found in the journal. This module says what each operation on
cleanups adds to these entries, and that no change of a handler moves a lot or a record or stores
anything.

## Main definitions

* `Effect.handler?`: the handler that came to its end
* `Region.Registers`: a cleanup is registered

## Main results

* `Region.registers_addCleanup`, `Region.registers_addCleanupWith`: how a cleanup is registered
* `Region.fates_discard`, `Region.fates_runHandler`: one handler comes to its end
* `Region.fates_reset`: a reset disposes of every handler that is armed
* `Region.journal_runCleanups`, `Region.journal_close`: closing a region runs them, newest record
  first, and only then gives memory back
-/

namespace RegionTrie

/-- The handler that the entry says came to its end. -/
def Effect.handler? : Effect → Option Nat
  | .ran id _ | .discarded id => some id
  | _ => none

namespace Journal

theorem fates_append (j older : List Effect) : fates (j ++ older) = fates j ++ fates older := by
  induction j with
  | nil => rfl
  | cons e j ih => cases e <;> simp [fates, ih]

end Journal

namespace Region

open Journal

variable {σ : Type}

/-! ## One handler -/

theorem fates_discard (r : Region σ) (handler : Option Nat) :
    fates (r.discard handler).heap.journal =
      handler.toList.map .discarded ++ fates r.heap.journal := by
  cases handler <;> rfl

theorem provides_discard (r : Region σ) (handler : Option Nat) :
    r.Provides (r.discard handler) [] := by
  cases handler <;> exact provides_nothing rfl rfl rfl

/-- A handler that runs sees what its payload shows. -/
theorem fates_runHandler (r : Region σ) (record : CleanupRecord) :
    fates (r.runHandler record).heap.journal =
      record.handler.toList.map (.ran · (r.contents record.payload)) ++ fates r.heap.journal := by
  unfold runHandler
  cases record.handler <;> rfl

theorem provides_runHandler (r : Region σ) (record : CleanupRecord) :
    r.Provides (r.runHandler record) [] := by
  unfold runHandler
  cases record.handler <;> exact provides_nothing rfl rfl rfl

theorem provides_arm (r : Region σ) (c : Cleanup) (handler : Option Nat) :
    r.Provides (r.arm c handler) [] := by
  refine provides_nothing rfl ?_ rfl
  -- a record stays where it is, with whatever handler
  have haddress : (CleanupRecord.setHandler r.pool.cleanups c handler).map CleanupRecord.address =
      r.pool.cleanups.map CleanupRecord.address := by
    unfold CleanupRecord.setHandler
    rw [List.map_map]
    refine List.map_congr_left fun record _ => ?_
    dsimp only [Function.comp_apply]
    split <;> rfl
  have hextent := congrArg (List.map (⟨·, cleanupRecordSize⟩ : Nat → Extent)) haddress
  rw [List.map_map, List.map_map] at hextent
  exact congrArg (_ ++ ·) hextent

/-! ## All handlers -/

/-- Disposing of all handlers leaves one entry for each that is armed. -/
theorem fates_discardCleanups (r : Region σ) :
    fates r.discardCleanups.heap.journal =
      ((r.pool.cleanups.filterMap (·.handler)).map .discarded).reverse ++
        fates r.heap.journal := by
  -- the newest record comes first, so its entry is the deepest
  have hfold (records : List CleanupRecord) (s : Region σ) :
      fates (records.foldl (fun s record => s.discard record.handler) s).heap.journal =
        ((records.filterMap (·.handler)).map .discarded).reverse ++ fates s.heap.journal := by
    induction records generalizing s with
    | nil => rfl
    | cons record records ih =>
      rw [List.foldl_cons, ih, fates_discard]
      cases hhandler : record.handler <;> simp [hhandler]
  exact hfold r.pool.cleanups r

/-- Running all handlers leaves one entry for each that is armed, with what its payload shows, and
gives nothing back. -/
theorem journal_runCleanups (r : Region σ) :
    ∃ during, r.runCleanups.heap.journal = during ++ r.heap.journal ∧
      (∀ b, .released b ∉ during) ∧
      fates during = (r.pool.cleanups.flatMap fun record =>
        record.handler.toList.map (.ran · (r.contents record.payload))).reverse := by
  have hfold (records : List CleanupRecord) (s : Region σ)
      (hmemory : s.heap.memory = r.heap.memory) :
      ∃ during, (records.foldl runHandler s).heap.journal = during ++ s.heap.journal ∧
        (∀ b, .released b ∉ during) ∧
        fates during = (records.flatMap fun record =>
          record.handler.toList.map (.ran · (r.contents record.payload))).reverse := by
    induction records generalizing s with
    | nil => exact ⟨[], rfl, fun b => List.not_mem_nil, rfl⟩
    | cons record records ih =>
      rw [List.foldl_cons]
      cases hhandler : record.handler with
      | none =>
        have hsame : s.runHandler record = s := by simp [runHandler, hhandler]
        obtain ⟨during, hjournal, hnone, hfates⟩ := ih s hmemory
        rw [hsame]
        exact ⟨during, hjournal, hnone, by simpa [hhandler] using hfates⟩
      | some id =>
        -- the run is noted first, and then the handler sees its payload
        have hrun : s.runHandler record =
            { s with
              heap := (s.heap.note (.cleanupRun record.address)).record
                (.ran id (s.contents record.payload)) } := by
          simp [runHandler, hhandler]
        have hpayload : s.contents record.payload = r.contents record.payload := by
          simp only [contents, hmemory]
        rw [hrun, hpayload]
        obtain ⟨during, hjournal, hnone, hfates⟩ := ih
          { s with
            heap := (s.heap.note (.cleanupRun record.address)).record
              (.ran id (r.contents record.payload)) } hmemory
        refine ⟨during ++ [.ran id (r.contents record.payload),
          .noted (.cleanupRun record.address)], ?_, fun b hb => ?_, ?_⟩
        · rw [hjournal, List.append_assoc]
          rfl
        · rcases List.mem_append.mp hb with hb | hb
          · exact hnone b hb
          · simp at hb
        · simp [fates_append, hfates, fates, hhandler]
  exact hfold r.pool.cleanups r rfl

/-! ## A new cleanup -/

/-- A record came to the others, with a payload that is provided and shows zeros. -/
structure Registers (r r' : Region σ) (size : Nat) (handler : Option Nat) (start : Nat) :
    Prop where
  provides : r.Provides r' (Extent.solid [⟨start, size⟩])
  zeros : r'.contents ⟨start, size⟩ = List.replicate size 0
  cleanups_eq : ∃ address, r'.pool.cleanups =
    ⟨r.pool.cleanups.length, address, ⟨start, size⟩, handler⟩ :: r.pool.cleanups
  fates_eq : fates r'.heap.journal = fates r.heap.journal

variable [RawSource σ]

theorem registers_addCleanup {r r' : Region σ} {size : Nat} {c : Cleanup}
    (h : r.addCleanup size = (.ok c, r')) :
    c = ⟨r.pool.cleanups.length⟩ ∧ ∃ start, r.Registers r' size none start := by
  unfold addCleanup at h
  rcases hrecord : r.reserve cleanupRecordSize wordAlign with ⟨fault | address, r₁⟩ <;>
    rw [hrecord] at h
  · cases h
  dsimp only at h
  rcases hop : r₁.allocatePayload size with ⟨fault | start, r₂⟩ <;> rw [hop] at h <;> cases h
  have hrange := supplies_reserve hrecord
  have hmemory := (heap_reserve r cleanupRecordSize wordAlign).1
  rw [hrecord] at hmemory
  obtain ⟨hpayload, hzeros⟩ := supplies_allocatePayload hop
  have hcleanups := hpayload.cleanups_eq.trans hrange.cleanups_eq
  rw [hcleanups]
  refine ⟨rfl, start, ⟨fun e => ?_, fun a ha => ?_⟩, hzeros, ⟨address, rfl⟩, ?_⟩
  · -- the range served for the record comes to the records
    have hcount := hrange.count_le e
    have hcount' := hpayload.count_le e
    simp only [lots, records, note, Heap.note, Heap.record, served, hcleanups, List.map_cons,
      List.count_append, List.count_cons, List.count_nil] at hcount hcount' ⊢
    omega
  · -- and nothing is stored there
    exact (hpayload.byteAt_eq a ha).trans (congrArg (Memory.byteAt · a) hmemory)
  · exact hpayload.fates_eq.trans hrange.fates_eq

/-- If the serial number is new, the handler is installed in the new record and nowhere else. -/
theorem registers_addCleanupWith {r r' : Region σ} {size id : Nat} {c : Cleanup}
    (h : r.addCleanupWith size id = (.ok c, r'))
    (hserials : ∀ record ∈ r.pool.cleanups, record.serial ≠ r.pool.cleanups.length) :
    c = ⟨r.pool.cleanups.length⟩ ∧ ∃ start, r.Registers r' size (some id) start := by
  unfold addCleanupWith at h
  rcases hop : r.addCleanup size with ⟨fault | c', r₁⟩ <;> rw [hop] at h <;> cases h
  obtain ⟨rfl, start, hregisters⟩ := registers_addCleanup hop
  obtain ⟨address, hcleanups⟩ := hregisters.cleanups_eq
  -- there was no handler before
  have hnone : r₁.handler? ⟨r.pool.cleanups.length⟩ = none := by
    simp [handler?, cleanup?, CleanupRecord.find?, hcleanups]
  have hset : r₁.setHandler ⟨r.pool.cleanups.length⟩ id =
      r₁.arm ⟨r.pool.cleanups.length⟩ (some id) := by
    rw [setHandler, hnone]
    rfl
  have hothers : CleanupRecord.setHandler r.pool.cleanups ⟨r.pool.cleanups.length⟩ (some id) =
      r.pool.cleanups := by
    refine (List.map_congr_left fun record hrecord => ?_).trans (List.map_id _)
    exact if_neg (hserials record hrecord)
  rw [hset]
  refine ⟨rfl, start, ?_, hregisters.zeros, ⟨address, ?_⟩, ?_⟩
  · have harm := hregisters.provides.trans (r₁.provides_arm ⟨r.pool.cleanups.length⟩ (some id))
    rwa [List.append_nil] at harm
  · show CleanupRecord.setHandler r₁.pool.cleanups _ _ = _
    rw [hcleanups]
    unfold CleanupRecord.setHandler at hothers ⊢
    rw [List.map_cons, hothers]
    simp
  · exact hregisters.fates_eq

/-- What a refused cleanup leaves behind belongs to nobody. -/
theorem supplies_addCleanup_error {r r' : Region σ} {size : Nat} {fault : Fault}
    (h : r.addCleanup size = (.error fault, r')) : ∃ new, r.Supplies r' new := by
  rcases addCleanup_fails h with hfails | ⟨address, r₁, hreserve, hfails⟩
  · exact ⟨[], hfails.supplies⟩
  · exact ⟨_, (supplies_reserve hreserve).trans hfails.supplies⟩

/-! ## The end -/

theorem fates_foldl_release {α : Type} (buffer : α → Buffer) (event : α → Event) (items : List α)
    (h : Heap σ) :
    ∃ after, (items.foldl (fun heap a => (Heap.note heap (event a)).release (buffer a)) h).journal =
      after ++ h.journal ∧ fates after = [] := by
  induction items generalizing h with
  | nil => exact ⟨[], rfl, rfl⟩
  | cons a items ih =>
    obtain ⟨after, hjournal, hfates⟩ := ih ((h.note (event a)).release (buffer a))
    refine ⟨after ++ [.released (buffer a), .noted (event a)], ?_, ?_⟩
    · rw [List.foldl_cons, hjournal, List.append_assoc]
      rfl
    · simp [fates_append, hfates, fates]

/-- A reset disposes of every handler that is armed, without running it. -/
theorem fates_reset (r : Region σ) :
    fates r.reset.heap.journal =
      ((r.pool.cleanups.filterMap (·.handler)).map .discarded).reverse ++
        fates r.heap.journal := by
  obtain ⟨after, hjournal, hfates⟩ := fates_foldl_release (fun b => b) (fun b => .largeFreed b.base)
    (LargeRecord.buffers r.pool.large) r.heap
  have hlarge : fates r.releaseLarge.heap.journal = fates r.heap.journal := by
    show fates (_ : List Effect) = _
    rw [show r.releaseLarge.heap.journal = _ from hjournal, fates_append, hfates]
    rfl
  show fates r.releaseLarge.discardCleanups.heap.journal = _
  rw [fates_discardCleanups, hlarge]
  rfl

/-- Closing a region runs all handlers before anything is given back, and none after that. -/
theorem journal_close (r : Region σ) :
    ∃ after, r.close.journal = after ++ r.runCleanups.heap.journal ∧ fates after = [] := by
  obtain ⟨large, hlarge, hlargeFates⟩ := fates_foldl_release (fun b => b)
    (fun b => .largeFreed b.base) (LargeRecord.buffers r.runCleanups.pool.large)
    r.runCleanups.heap
  obtain ⟨blocks, hblocks, hblockFates⟩ := fates_foldl_release
    (fun b : Block => ⟨b.base, r.runCleanups.pool.config.blockLayout⟩)
    (fun b => .blockFreed b.base b.unused) r.runCleanups.pool.chain.blocks
    r.runCleanups.releaseLarge.heap
  refine ⟨.noted .poolDestroyed :: (blocks ++ large), ?_, ?_⟩
  · show .noted .poolDestroyed :: r.runCleanups.releaseLarge.releaseBlocks.journal = _
    rw [show r.runCleanups.releaseLarge.releaseBlocks.journal = _ from hblocks,
      show r.runCleanups.releaseLarge.heap.journal = _ from hlarge]
    simp
  · simp [fates, fates_append, hlargeFates, hblockFates]

end Region

end RegionTrie
