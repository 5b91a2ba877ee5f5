import Mathlib.Logic.Relation
import RegionTrie.Proofs.Heap.Ledger

/-!
# Steps of a region

Whatever is done to a region, by its user or by a trie, comes down to a few steps: a range is
served, a large buffer comes or goes, everything is forgotten, bytes are stored, or a cleanup
record is put in or changed. What each of these steps preserves is preserved by everything.

## Main definitions

* `Region.Step`: the steps, with what callers see to
* `Region.Steps`: any number of steps

## Main results

* `Region.steps_allocateLayout`, `Region.steps_addCleanup` and others: the requests of a user come
  down to steps
* `Region.discardCleanups_induction`, `Region.runCleanups_induction`: what all handlers leave true
* `Region.Step.suffix`, `Region.Step.config_eq`: what no step undoes
-/

namespace RegionTrie

/-! ## Journals over steps -/

namespace Journal

/-- Only one diagnostic makes ranges forgotten. -/
theorem served_noted {event : Event} (h : ∀ n, event ≠ .poolReset n) (j : List Effect) :
    served (.noted event :: j) = served j := by
  cases event with
  | poolReset n => exact absurd rfl (h n)
  | _ => rfl

end Journal

/-- The source serves nothing inside blocks. -/
theorem Heap.served_allocate {σ : Type} [RawSource σ] (h : Heap σ) (l : Layout) :
    Journal.served (h.allocate l).2.journal = Journal.served h.journal := by
  rcases h.allocate_cases l with ⟨base, source, heq⟩ | ⟨source, heq⟩ <;> rw [heq] <;> rfl

/-- Asking the source takes no entry out of the journal. -/
theorem Heap.suffix_allocate {σ : Type} [RawSource σ] (h : Heap σ) (l : Layout) :
    h.journal <:+ (h.allocate l).2.journal := by
  rcases h.allocate_cases l with ⟨base, source, heq⟩ | ⟨source, heq⟩ <;> rw [heq] <;>
    exact List.suffix_cons _ _

namespace Region

open Journal

variable {σ : Type}

/-! ## What is nothing to the pool -/

/-- Disposing of handlers is nothing to the pool. -/
theorem pool_discard (r : Region σ) (handler : Option Nat) : (r.discard handler).pool = r.pool := by
  cases handler <;> rfl

theorem pool_runHandler (r : Region σ) (record : CleanupRecord) :
    (r.runHandler record).pool = r.pool := by
  unfold runHandler
  cases record.handler <;> rfl

/-- What disposing of one handler leaves true is true once all are disposed of. -/
theorem discardCleanups_induction {P : Region σ → Prop}
    (hforget : ∀ r, P r → P { r with pool := { r.pool with cleanups := [] } })
    (hdiscard : ∀ r handler, P r → P (r.discard handler)) {r : Region σ} (h : P r) :
    P r.discardCleanups := by
  -- the handlers go first, record by record, and then the list of records
  apply hforget
  refine List.foldlRecOn r.pool.cleanups (fun s record => s.discard record.handler) (b := r)
    (motive := P) h ?_
  intro s hs record _
  exact hdiscard s record.handler hs

/-- What running one handler leaves true is true once all have run. -/
theorem runCleanups_induction {P : Region σ → Prop}
    (hforget : ∀ r, P r → P { r with pool := { r.pool with cleanups := [] } })
    (hrun : ∀ r record, P r → P (r.runHandler record)) {r : Region σ} (h : P r) :
    P r.runCleanups := by
  apply hforget
  refine List.foldlRecOn r.pool.cleanups runHandler (b := r) (motive := P) h ?_
  intro s hs record _
  exact hrun s record hs

theorem pool_discardCleanups (r : Region σ) :
    r.discardCleanups.pool = { r.pool with cleanups := [] } := by
  refine discardCleanups_induction
    (P := fun s => { s.pool with cleanups := [] } = { r.pool with cleanups := [] }) ?_ ?_ rfl
  · intro s h
    exact h
  · intro s handler h
    rw [pool_discard]
    exact h

theorem pool_runCleanups (r : Region σ) :
    r.runCleanups.pool = { r.pool with cleanups := [] } := by
  refine runCleanups_induction
    (P := fun s => { s.pool with cleanups := [] } = { r.pool with cleanups := [] }) ?_ ?_ rfl
  · intro s h
    exact h
  · intro s record h
    rw [pool_runHandler]
    exact h

variable [RawSource σ]

/-! ## Steps -/

/-- The steps that everything done to a region comes down to. Callers see to it that a request
served from blocks is small and not aligned to more than blocks are, that a large buffer has some
bytes and a valid layout, and that a cleanup record lies in a range served for it, as its payload
does if that is small. -/
inductive Step : Region σ → Region σ → Prop
  | reserve (r : Region σ) {size align : Nat}
      (hsize : size ≤ r.pool.largestSmall ∨ size ≤ cleanupRecordSize)
      (halign : align ∣ blockAlign) : Step r (r.reserve size align).2
  | allocateLarge (r : Region σ) {l : Layout} (hsize : 0 < l.size) (hvalid : l.Valid) :
      Step r (r.allocateLarge l).2
  | allocateAligned (r : Region σ) (size align : Nat) : Step r (r.allocateAligned size align).2
  | free (r : Region σ) (address : Nat) : Step r (r.free address).2
  | reset (r : Region σ) : Step r r.reset
  | store (r : Region σ) (start : Nat) (bytes : Array UInt8) : Step r (r.store start bytes)
  | note (r : Region σ) {event : Event} (h : ∀ n, event ≠ .poolReset n) : Step r (r.note event)
  | enlist (r : Region σ) (record : CleanupRecord)
      (haddress : (⟨record.address, cleanupRecordSize⟩, wordAlign) ∈ served r.heap.journal)
      (hpayload : 0 < record.payload.size → record.payload.size ≤ r.pool.largestSmall →
        (record.payload, wordAlign) ∈ served r.heap.journal) :
      Step r { r with pool := { r.pool with cleanups := record :: r.pool.cleanups } }
  | arm (r : Region σ) (c : Cleanup) (handler : Option Nat) : Step r (r.arm c handler)
  | discard (r : Region σ) (handler : Option Nat) : Step r (r.discard handler)
  | runHandler (r : Region σ) (record : CleanupRecord) : Step r (r.runHandler record)
  | adjust (r : Region σ) (f : σ → σ) :
      Step r { r with heap := { r.heap with source := f r.heap.source } }

/-- Any number of steps. -/
abbrev Steps : Region σ → Region σ → Prop :=
  Relation.ReflTransGen Step

theorem Step.steps {r r' : Region σ} (h : Step r r') : Steps r r' :=
  Relation.ReflTransGen.single h

/-! ## Requests of a user -/

theorem wordAlign_dvd : wordAlign ∣ blockAlign := by decide

theorem steps_allocateOversize (r : Region σ) {size : Nat} (h : r.pool.largestSmall < size) :
    Steps r (r.allocateOversize size).2 := by
  unfold allocateOversize
  by_cases hvalid : (⟨size, wordAlign⟩ : Layout).Valid
  · -- what is more than small is not empty
    simp only [if_pos hvalid]
    exact (Step.allocateLarge r (Nat.zero_lt_of_lt h) hvalid).steps
  · simp only [if_neg hvalid]
    exact .refl

theorem steps_allocate (r : Region σ) (size : Nat) : Steps r (r.allocate size).2 := by
  unfold allocate
  by_cases hsmall : size ≤ r.pool.largestSmall
  · rw [if_pos hsmall]
    exact (Step.reserve r (.inl hsmall) wordAlign_dvd).steps
  · rw [if_neg hsmall]
    exact steps_allocateOversize r (Nat.lt_of_not_le hsmall)

theorem steps_allocatePacked (r : Region σ) (size : Nat) : Steps r (r.allocatePacked size).2 := by
  unfold allocatePacked
  by_cases hsmall : size ≤ r.pool.largestSmall
  · rw [if_pos hsmall]
    exact (Step.reserve r (.inl hsmall) (Nat.one_dvd _)).steps
  · rw [if_neg hsmall]
    exact steps_allocateOversize r (Nat.lt_of_not_le hsmall)

theorem steps_allocateZeroed (r : Region σ) (size : Nat) : Steps r (r.allocateZeroed size).2 := by
  have hallocate := steps_allocate r size
  unfold allocateZeroed
  rcases hop : r.allocate size with ⟨fault | start, r'⟩ <;> rw [hop] at hallocate
  · exact hallocate
  · exact hallocate.tail (.store r' start _)

/-- A power of two up to the alignment of blocks divides it. -/
theorem dvd_blockAlign {align : Nat} (h : align.isPowerOfTwo) (hle : align ≤ blockAlign) :
    align ∣ blockAlign := by
  obtain ⟨k, rfl⟩ := h
  show 2 ^ k ∣ 2 ^ 4
  exact Nat.pow_dvd_pow 2 ((Nat.pow_le_pow_iff_right (by decide : 1 < 2)).mp hle)

theorem steps_allocateLayout (r : Region σ) {l : Layout} (h : l.align.isPowerOfTwo) :
    Steps r (r.allocateLayout l).2 := by
  unfold allocateLayout
  by_cases hzero : l.size = 0
  · rw [if_pos hzero]
  rw [if_neg hzero]
  -- a small request that is aligned to more than blocks are is a large one
  by_cases hsmall : l.size ≤ r.pool.largestSmall ∧ l.align ≤ blockAlign
  · rw [if_pos hsmall]
    exact (Step.reserve r (.inl hsmall.1) (dvd_blockAlign h hsmall.2)).steps
  rw [if_neg hsmall]
  by_cases hvalid : (l.alignTo wordAlign).Valid
  · have hsize : 0 < (l.alignTo wordAlign).size := Nat.pos_of_ne_zero hzero
    rw [if_pos hvalid]
    exact (Step.allocateLarge r hsize hvalid).steps
  · rw [if_neg hvalid]

theorem steps_allocateCopy (r : Region σ) {align : Nat} (h : align.isPowerOfTwo)
    (bytes : List UInt8) : Steps r (r.allocateCopy align bytes).2 := by
  have hallocate := steps_allocateLayout r (l := ⟨bytes.length, align⟩) h
  unfold allocateCopy
  rcases hop : r.allocateLayout ⟨bytes.length, align⟩ with ⟨fault | start, r'⟩ <;>
    rw [hop] at hallocate
  · exact hallocate
  · exact hallocate.tail (.store r' start _)

/-! ## Cleanups -/

/-- A range is found in the journal once it is served. -/
theorem served_of_reserve {r r' : Region σ} {size align start : Nat}
    (h : r.reserve size align = (.ok start, r')) :
    served r'.heap.journal = (⟨start, size⟩, align) :: served r.heap.journal := by
  rcases reserve_cases r size align with
    ⟨start', chain, -, heq⟩ | ⟨base, heap, -, hgrant, heq⟩ | ⟨heap, -, -, heq⟩ <;>
    rw [heq] at h <;> cases h
  · rfl
  · -- the grant of a new block comes before the range in the journal
    have hsame := r.heap.served_allocate r.pool.config.blockLayout
    rw [hgrant] at hsame
    show (⟨_, size⟩, align) :: served heap.journal = _
    rw [hsame]

theorem served_subset_reserve (r : Region σ) (size align : Nat) :
    served r.heap.journal ⊆ served (r.reserve size align).2.heap.journal := by
  rcases hop : r.reserve size align with ⟨fault | start, r'⟩
  · rcases reserve_cases r size align with
      ⟨start', chain, -, heq⟩ | ⟨base, heap, -, hgrant, heq⟩ | ⟨heap, -, hdecline, heq⟩ <;>
      rw [heq] at hop <;> cases hop
    have hsame := r.heap.served_allocate r.pool.config.blockLayout
    rw [hdecline] at hsame
    show _ ⊆ served heap.journal
    rw [hsame]
    exact List.Subset.refl _
  · show _ ⊆ served r'.heap.journal
    rw [served_of_reserve hop]
    exact List.subset_cons_self _ _

theorem served_subset_link (r : Region σ) (b : Buffer) :
    served r.heap.journal ⊆ served (r.link b).2.heap.journal := by
  have hreserve := served_subset_reserve r largeRecordSize wordAlign
  rcases link_cases r b with ⟨address, r', hop, heq⟩ | ⟨fault, r', hop, heq⟩ <;>
    rw [hop] at hreserve <;> rw [heq]
  · exact hreserve
  · exact hreserve

theorem served_subset_allocateLarge (r : Region σ) (l : Layout) :
    served r.heap.journal ⊆ served (r.allocateLarge l).2.heap.journal := by
  have hsame := r.heap.served_allocate l
  rcases allocateLarge_cases r l with
    ⟨heap, hgrant, heq⟩ | ⟨base, heap, large, hgrant, -, heq⟩ | ⟨base, heap, hgrant, heq⟩ <;>
    rw [hgrant] at hsame <;> rw [heq, ← hsame]
  · exact List.Subset.refl _
  · exact List.Subset.refl _
  · exact served_subset_link { r with heap } ⟨base, l⟩

/-- Memory for a payload leaves served ranges served, and is served itself if it is small. -/
theorem served_of_allocatePayload {r r' : Region σ} {size start : Nat}
    (h : r.allocatePayload size = (.ok start, r')) :
    served r.heap.journal ⊆ served r'.heap.journal ∧
      (0 < size → size ≤ r.pool.largestSmall →
        (⟨start, size⟩, wordAlign) ∈ served r'.heap.journal) := by
  unfold allocatePayload at h
  by_cases hzero : size = 0
  · -- no bytes, no range
    rw [if_pos hzero] at h
    cases h
    exact ⟨List.Subset.refl _, fun hpos => by omega⟩
  rw [if_neg hzero] at h
  unfold allocateZeroed allocate at h
  by_cases hsmall : size ≤ r.pool.largestSmall
  · simp only [if_pos hsmall] at h
    rcases hop : r.reserve size wordAlign with ⟨fault | start', r₁⟩ <;> rw [hop] at h <;> cases h
    show _ ⊆ served r₁.heap.journal ∧ (_ → _ → _ ∈ served r₁.heap.journal)
    rw [served_of_reserve hop]
    exact ⟨List.subset_cons_self _ _, fun _ _ => List.mem_cons_self⟩
  · -- a payload that is not small lies in a buffer of its own
    simp only [if_neg hsmall] at h
    refine ⟨?_, fun _ hle => absurd hle hsmall⟩
    unfold allocateOversize at h
    by_cases hvalid : (⟨size, wordAlign⟩ : Layout).Valid
    · have hlarge := served_subset_allocateLarge r ⟨size, wordAlign⟩
      simp only [if_pos hvalid] at h
      rcases hop : r.allocateLarge ⟨size, wordAlign⟩ with ⟨fault | start', r₁⟩ <;>
        rw [hop] at h hlarge <;> cases h
      exact hlarge
    · simp only [if_neg hvalid] at h
      cases h

theorem pool_reset (r : Region σ) :
    r.reset.pool = { r.pool with chain := r.pool.chain.rewind, large := [], cleanups := [] } := by
  show { r.releaseLarge.discardCleanups.pool with
    chain := r.releaseLarge.discardCleanups.pool.chain.rewind } = _
  rw [pool_discardCleanups]
  rfl

/-! ## What no step undoes -/

theorem suffix_reserve (r : Region σ) (size align : Nat) :
    r.heap.journal <:+ (r.reserve size align).2.heap.journal := by
  have hsuffix := r.heap.suffix_allocate r.pool.config.blockLayout
  rcases reserve_cases r size align with
    ⟨start, chain, -, heq⟩ | ⟨base, heap, -, hgrant, heq⟩ | ⟨heap, -, hdecline, heq⟩ <;> rw [heq]
  · exact List.suffix_cons _ _
  · rw [hgrant] at hsuffix
    exact (hsuffix.trans (List.suffix_cons _ _)).trans (List.suffix_cons _ _)
  · rw [hdecline] at hsuffix
    exact hsuffix

theorem suffix_link (r : Region σ) (b : Buffer) :
    r.heap.journal <:+ (r.link b).2.heap.journal := by
  have hreserve := suffix_reserve r largeRecordSize wordAlign
  rcases link_cases r b with ⟨address, r', hop, heq⟩ | ⟨fault, r', hop, heq⟩ <;>
    rw [hop] at hreserve <;> rw [heq]
  all_goals exact hreserve.trans (List.suffix_cons _ _)

/-- The note of a reset is the newest entry, and no older one is lost. -/
theorem journal_reset (r : Region σ) :
    ∃ n new, r.reset.heap.journal = .noted (.poolReset n) :: (new ++ r.heap.journal) := by
  -- large buffers go back, then handlers are disposed of, then the reset is noted
  have hlarge : r.heap.journal <:+ r.releaseLarge.heap.journal := by
    refine List.foldlRecOn (LargeRecord.buffers r.pool.large)
      (fun heap b => (Heap.note heap (.largeFreed b.base)).release b) (b := r.heap)
      (motive := fun heap => r.heap.journal <:+ heap.journal) (List.suffix_refl _) ?_
    intro heap hheap b _
    exact (hheap.trans (List.suffix_cons _ _)).trans (List.suffix_cons _ _)
  have hdiscard : r.releaseLarge.heap.journal <:+ r.releaseLarge.discardCleanups.heap.journal := by
    refine discardCleanups_induction
      (P := fun s => r.releaseLarge.heap.journal <:+ s.heap.journal) ?_ ?_ (List.suffix_refl _)
    · intro s hs
      exact hs
    · intro s handler hs
      cases handler with
      | none => exact hs
      | some id => exact hs.trans (List.suffix_cons _ _)
  obtain ⟨new, hnew⟩ := hlarge.trans hdiscard
  refine ⟨r.releaseLarge.discardCleanups.pool.chain.rewind.blocks.length, new, ?_⟩
  rw [hnew]
  rfl

theorem suffix_reset (r : Region σ) : r.heap.journal <:+ r.reset.heap.journal := by
  obtain ⟨n, new, heq⟩ := journal_reset r
  rw [heq]
  exact (List.suffix_append _ _).trans (List.suffix_cons _ _)

/-- No step takes an entry out of the journal. -/
theorem Step.suffix {r r' : Region σ} (h : Step r r') : r.heap.journal <:+ r'.heap.journal := by
  cases h with
  | reserve hsize halign => exact suffix_reserve r _ _
  | allocateLarge hsize hvalid =>
    rename_i l
    have hsuffix := r.heap.suffix_allocate l
    rcases allocateLarge_cases r l with
      ⟨heap, hgrant, heq⟩ | ⟨base, heap, large, hgrant, -, heq⟩ | ⟨base, heap, hgrant, heq⟩ <;>
      rw [hgrant] at hsuffix <;> rw [heq]
    · exact hsuffix
    · exact hsuffix.trans (List.suffix_cons _ _)
    · exact hsuffix.trans (suffix_link { r with heap } _)
  | allocateAligned size align =>
    have hsuffix := r.heap.suffix_allocate ⟨size, align⟩
    rcases allocateAligned_cases r size align with
      ⟨-, heq⟩ | ⟨heap, -, -, hgrant, heq⟩ | ⟨base, heap, -, -, hgrant, heq⟩ <;>
      rewrite [heq]
    · exact List.suffix_refl _
    · rw [hgrant] at hsuffix
      exact hsuffix
    · rw [hgrant] at hsuffix
      exact hsuffix.trans (suffix_link { r with heap } _)
  | free address =>
    rcases free_cases r address with ⟨-, heq⟩ | ⟨b, large, -, heq⟩ <;> rewrite [heq]
    · exact List.suffix_refl _
    · exact (List.suffix_cons _ _).trans (List.suffix_cons _ _)
  | reset => exact suffix_reset r
  | note hevent => exact List.suffix_cons _ _
  | discard handler =>
    cases handler with
    | none => exact List.suffix_refl _
    | some id => exact List.suffix_cons _ _
  | runHandler record =>
    unfold Region.runHandler
    cases record.handler with
    | none => exact List.suffix_refl _
    | some id => exact (List.suffix_cons _ _).trans (List.suffix_cons _ _)
  | store | enlist | arm | adjust => exact List.suffix_refl _

/-- No number of steps takes an entry out of the journal. -/
theorem Steps.suffix {r r' : Region σ} (h : Steps r r') : r.heap.journal <:+ r'.heap.journal := by
  induction h with
  | refl => exact List.suffix_refl _
  | tail _ hstep ih => exact ih.trans hstep.suffix

theorem config_reserve (r : Region σ) (size align : Nat) :
    (r.reserve size align).2.pool.config = r.pool.config ∧
      (r.reserve size align).2.pool.largestSmall = r.pool.largestSmall := by
  rcases reserve_cases r size align with
    ⟨start, chain, -, heq⟩ | ⟨base, heap, -, -, heq⟩ | ⟨heap, -, -, heq⟩ <;> rw [heq]
  all_goals exact ⟨rfl, rfl⟩

theorem config_link (r : Region σ) (b : Buffer) :
    (r.link b).2.pool.config = r.pool.config ∧
      (r.link b).2.pool.largestSmall = r.pool.largestSmall := by
  have hreserve := config_reserve r largeRecordSize wordAlign
  rcases link_cases r b with ⟨address, r', hop, heq⟩ | ⟨fault, r', hop, heq⟩ <;>
    rw [hop] at hreserve <;> rw [heq]
  all_goals exact hreserve

/-- No step changes what a pool was configured with. -/
theorem Step.config_eq {r r' : Region σ} (h : Step r r') :
    r'.pool.config = r.pool.config ∧ r'.pool.largestSmall = r.pool.largestSmall := by
  cases h with
  | reserve hsize halign => exact config_reserve r _ _
  | allocateLarge hsize hvalid =>
    rename_i l
    rcases allocateLarge_cases r l with
      ⟨heap, -, heq⟩ | ⟨base, heap, large, -, -, heq⟩ | ⟨base, heap, -, heq⟩ <;> rw [heq]
    · exact ⟨rfl, rfl⟩
    · exact ⟨rfl, rfl⟩
    · exact config_link _ _
  | allocateAligned size align =>
    rcases allocateAligned_cases r size align with
      ⟨-, heq⟩ | ⟨heap, -, -, -, heq⟩ | ⟨base, heap, -, -, -, heq⟩ <;> rw [heq]
    · exact ⟨rfl, rfl⟩
    · exact ⟨rfl, rfl⟩
    · exact config_link _ _
  | free address =>
    rcases free_cases r address with ⟨-, heq⟩ | ⟨b, large, -, heq⟩ <;> rw [heq]
    all_goals exact ⟨rfl, rfl⟩
  | reset => rw [pool_reset]; exact ⟨rfl, rfl⟩
  | discard handler => rw [pool_discard]; exact ⟨rfl, rfl⟩
  | runHandler record => rw [pool_runHandler]; exact ⟨rfl, rfl⟩
  | store | note | enlist | arm | adjust => exact ⟨rfl, rfl⟩

theorem Steps.config_eq {r r' : Region σ} (h : Steps r r') :
    r'.pool.config = r.pool.config ∧ r'.pool.largestSmall = r.pool.largestSmall := by
  induction h with
  | refl => exact ⟨rfl, rfl⟩
  | tail _ hstep ih => exact ⟨hstep.config_eq.1.trans ih.1, hstep.config_eq.2.trans ih.2⟩

theorem steps_allocatePayload (r : Region σ) (size : Nat) : Steps r (r.allocatePayload size).2 := by
  unfold allocatePayload
  by_cases hzero : size = 0
  · rw [if_pos hzero]
  · rw [if_neg hzero]
    exact steps_allocateZeroed r size

/-- A cleanup record comes into a range of its own, after its payload. -/
theorem steps_addCleanup (r : Region σ) (size : Nat) : Steps r (r.addCleanup size).2 := by
  have hreserve := (Step.reserve r (.inr (Nat.le_refl cleanupRecordSize)) wordAlign_dvd).steps
  unfold addCleanup
  rcases hrecord : r.reserve cleanupRecordSize wordAlign with ⟨fault | address, r₁⟩ <;>
    rw [hrecord] at hreserve
  · exact hreserve
  -- the record has its range, and keeps it whatever becomes of the payload
  have hpayload := steps_allocatePayload r₁ size
  rcases hop : r₁.allocatePayload size with ⟨fault | start, r₂⟩ <;> rw [hop] at hpayload <;>
    simp only [hop]
  · exact hreserve.trans hpayload
  obtain ⟨hsubset, hsmall⟩ := served_of_allocatePayload hop
  refine ((hreserve.trans hpayload).tail (Step.enlist r₂ _ (hsubset ?_) ?_)).tail
    (Step.note _ fun _ => Event.noConfusion)
  · rw [served_of_reserve hrecord]
    exact List.mem_cons_self
  · intro hpos hle
    apply hsmall hpos
    rw [← (Steps.config_eq hpayload).2]
    exact hle

theorem steps_setHandler (r : Region σ) (c : Cleanup) (id : Nat) : Steps r (r.setHandler c id) :=
  (Step.discard r _).steps.tail (.arm _ c _)

theorem steps_disarm (r : Region σ) (c : Cleanup) : Steps r (r.disarm c) :=
  (Step.discard r _).steps.tail (.arm _ c _)

theorem steps_addCleanupWith (r : Region σ) (size id : Nat) :
    Steps r (r.addCleanupWith size id).2 := by
  have hadd := steps_addCleanup r size
  unfold addCleanupWith
  rcases hop : r.addCleanup size with ⟨fault | c, r'⟩ <;> rw [hop] at hadd
  · exact hadd.tail (Step.discard r' (some id))
  · exact hadd.trans (steps_setHandler r' c id)

theorem steps_runNow (r : Region σ) (c : Cleanup) : Steps r (r.runNow c).2 := by
  unfold runNow
  rcases r.cleanup? c with _ | record
  · exact .refl
  · exact (Step.runHandler r record).steps.tail (.arm _ c none)

theorem steps_writePayload (r : Region σ) (c : Cleanup) (offset : Nat) (bytes : List UInt8) :
    Steps r (r.writePayload c offset bytes) := by
  unfold writePayload
  rcases r.cleanup? c with _ | record
  · exact .refl
  · exact (Step.store r _ _).steps

end Region

end RegionTrie
