import Mathlib.Data.List.Nodup
import Mathlib.Data.List.Perm.Basic
import RegionTrie.Proofs.Region.Failures

/-!
# Which buffers are tracked

Buffers of their own come to a region through two operations only, and each of them tracks exactly
what it answers with: the buffer of the layout that the source was asked for, or nothing where it
answers with a fault. So what becomes of the tracked buffers can be read off answers, for every
request for memory. A buffer goes when it is freed by its start, and its record stays, empty.

## Main definitions

* `Pool.layoutOf?`, `Pool.layoutFor?`: the layout for which the source is asked if a request is too
  large for blocks
* `obtained`: the buffer that an answer hands out
* `Region.Gains`: from one region to another, the given buffers came to those that are tracked

## Main results

* `Region.gains_allocate`, `Region.gains_allocateLayout` and others: a request gains what it answers
  with
* `Region.gains_addCleanup`: so does a cleanup with its payload
* `Region.free_tracked`: what is tracked can be freed, and nothing else happens
* `Region.Step.keeps`: a buffer stays tracked over a step that does not give it back
-/

namespace RegionTrie

/-- The layout for which the source is asked when so many bytes are requested, unless a block can
serve them. -/
def Pool.layoutOf? (p : Pool) (size : Nat) : Option Layout :=
  if size ≤ p.largestSmall then none else some ⟨size, wordAlign⟩

/-- The layout for which the source is asked when memory for a layout is requested, unless a block
can serve it or it has no bytes. -/
def Pool.layoutFor? (p : Pool) (l : Layout) : Option Layout :=
  if l.size = 0 ∨ (l.size ≤ p.largestSmall ∧ l.align ≤ blockAlign) then none
  else some (l.alignTo wordAlign)

/-- The buffer that an answer hands out where the source was asked for a layout. -/
def obtained : Option Layout → Except Fault Nat → List Buffer
  | some l, .ok base => [⟨base, l⟩]
  | _, _ => []

@[simp] theorem obtained_none (outcome : Except Fault Nat) : obtained none outcome = [] := by
  cases outcome <;> rfl

@[simp] theorem obtained_error (l? : Option Layout) (fault : Fault) :
    obtained l? (.error fault) = [] := by
  cases l? <;> rfl

@[simp] theorem obtained_ok (l : Layout) (base : Nat) :
    obtained (some l) (.ok base) = [⟨base, l⟩] :=
  rfl

/-- A buffer is taken out of one record, which stays where it is. -/
theorem LargeRecord.exists_of_vacate? {address : Nat} {b : Buffer}
    {records after : List LargeRecord} (h : vacate? address records = some (b, after)) :
    ∃ front record back, record.held = some b ∧ records = front ++ record :: back ∧
      after = front ++ { record with held := none } :: back := by
  induction records generalizing after with
  | nil => simp [vacate?] at h
  | cons record rest ih =>
    -- the buffer is in the first record, or it is taken out of a later one
    have hlater : ∀ tail, vacate? address rest = some (b, tail) → after = record :: tail →
        ∃ front found back, found.held = some b ∧ record :: rest = front ++ found :: back ∧
          after = front ++ { found with held := none } :: back := by
      rintro tail htail rfl
      obtain ⟨front, found, back, hheld, rfl, rfl⟩ := ih htail
      exact ⟨record :: front, found, back, hheld, rfl, rfl⟩
    cases hheld : record.held with
    | none =>
      simp only [vacate?, hheld, Option.map_eq_some_iff] at h
      obtain ⟨⟨c, tail⟩, htail, heq⟩ := h
      obtain ⟨rfl, rfl⟩ := Prod.mk.inj heq
      exact hlater tail htail rfl
    | some c =>
      by_cases hc : c.base = address
      · simp only [vacate?, hheld, if_pos hc, Option.some.injEq] at h
        obtain ⟨rfl, rfl⟩ := Prod.mk.inj h
        exact ⟨[], record, rest, hheld, rfl, rfl⟩
      · simp only [vacate?, hheld, if_neg hc, Option.map_eq_some_iff] at h
        obtain ⟨⟨d, tail⟩, htail, heq⟩ := h
        obtain ⟨rfl, rfl⟩ := Prod.mk.inj heq
        exact hlater tail htail rfl

namespace Region

variable {σ : Type}

/-- From one region to another, the given buffers came to those that are tracked, and none went. -/
def Gains (r r' : Region σ) (new : List Buffer) : Prop :=
  (LargeRecord.buffers r'.pool.large).Perm (new ++ LargeRecord.buffers r.pool.large)

variable {r r₁ r₂ r' : Region σ} {new more : List Buffer} {fault : Fault}

theorem gains_nothing (h : r₁.pool.large = r.pool.large) : r.Gains r₁ [] :=
  List.Perm.of_eq (congrArg LargeRecord.buffers h)

theorem Gains.refl (r : Region σ) : r.Gains r [] :=
  gains_nothing rfl

theorem Gains.trans (h : r.Gains r₁ new) (h₁ : r₁.Gains r₂ more) : r.Gains r₂ (more ++ new) := by
  refine List.Perm.trans h₁ ?_
  rw [List.append_assoc]
  exact List.Perm.append_left more h

/-- What is tracked does not depend on anything but the records. -/
theorem Gains.congr (h : r.Gains r₁ new) (heq : r₂.pool.large = r₁.pool.large) :
    r.Gains r₂ new :=
  List.Perm.trans (List.Perm.of_eq (congrArg LargeRecord.buffers heq)) h

/-- A failure gains nothing. -/
theorem Fails.gains (h : r.Fails fault r') : r.Gains r' [] :=
  gains_nothing (congrArg Pool.large h.pool_eq)

variable [RawSource σ]

theorem gains_reserve (r : Region σ) (size align : Nat) : r.Gains (r.reserve size align).2 [] :=
  gains_nothing (large_reserve r size align)

/-- A buffer that is linked is tracked by a new record in front of the others. -/
theorem large_link_of_ok {b : Buffer} {base : Nat} (h : r.link b = (.ok base, r')) :
    base = b.base ∧ ∃ address, r'.pool.large = ⟨address, some b⟩ :: r.pool.large := by
  have hlarge := large_reserve r largeRecordSize wordAlign
  rcases link_cases r b with ⟨address, r₁, hop, heq⟩ | ⟨fault, r₁, -, heq⟩ <;>
    rw [heq] at h <;> cases h
  rw [hop] at hlarge
  refine ⟨rfl, address, ?_⟩
  rw [← hlarge]
  rfl

theorem gains_link {b : Buffer} {base : Nat} (h : r.link b = (.ok base, r')) :
    base = b.base ∧ r.Gains r' [b] := by
  obtain ⟨hbase, address, hlarge⟩ := large_link_of_ok h
  refine ⟨hbase, List.Perm.of_eq ?_⟩
  rw [hlarge]
  rfl

/-! ## Requests for memory -/

theorem gains_allocateLarge (r : Region σ) (l : Layout) :
    r.Gains (r.allocateLarge l).2 (obtained (some l) (r.allocateLarge l).1) := by
  rcases hop : r.allocateLarge l with ⟨fault | base, r'⟩
  · exact (fails_of_allocateLarge hop).gains
  rcases allocateLarge_cases r l with
    ⟨heap, -, heq⟩ | ⟨base', heap, large, -, hoccupy, heq⟩ | ⟨base', heap, -, heq⟩ <;>
    rw [heq] at hop
  · cases hop
  · -- an empty record takes the buffer, wherever it stands
    cases hop
    obtain ⟨front, back, hbefore, hafter⟩ := LargeRecord.buffers_occupy? hoccupy
    show (LargeRecord.buffers large).Perm (⟨base, l⟩ :: LargeRecord.buffers r.pool.large)
    rw [hbefore, hafter]
    exact List.perm_middle
  · obtain ⟨rfl, hgains⟩ := gains_link hop
    exact hgains

theorem gains_allocateAligned (r : Region σ) (size align : Nat) :
    r.Gains (r.allocateAligned size align).2
      (obtained (some ⟨size, align⟩) (r.allocateAligned size align).1) := by
  rcases hop : r.allocateAligned size align with ⟨fault | base, r'⟩
  · exact (fails_of_allocateAligned hop).gains
  rcases allocateAligned_cases r size align with
    ⟨-, heq⟩ | ⟨heap, -, -, -, heq⟩ | ⟨base', heap, -, -, -, heq⟩ <;> rw [heq] at hop
  · cases hop
  · cases hop
  · obtain ⟨rfl, hgains⟩ := gains_link hop
    exact hgains

theorem gains_allocateOversize (r : Region σ) (size : Nat) :
    r.Gains (r.allocateOversize size).2
      (obtained (some ⟨size, wordAlign⟩) (r.allocateOversize size).1) := by
  unfold allocateOversize
  dsimp only
  split
  · exact r.gains_allocateLarge _
  · exact .refl r

/-- So many bytes come from a block, or else they are a buffer of their own. -/
theorem gains_of_size {size align : Nat} {op : Except Fault Nat × Region σ}
    (h : op = if size ≤ r.pool.largestSmall then r.reserve size align
      else r.allocateOversize size) :
    r.Gains op.2 (obtained (r.pool.layoutOf? size) op.1) := by
  unfold Pool.layoutOf?
  by_cases hsmall : size ≤ r.pool.largestSmall
  · rw [h, if_pos hsmall, if_pos hsmall, obtained_none]
    exact r.gains_reserve size align
  · rw [h, if_neg hsmall, if_neg hsmall]
    exact r.gains_allocateOversize size

theorem gains_allocate (r : Region σ) (size : Nat) :
    r.Gains (r.allocate size).2 (obtained (r.pool.layoutOf? size) (r.allocate size).1) :=
  gains_of_size rfl

theorem gains_allocatePacked (r : Region σ) (size : Nat) :
    r.Gains (r.allocatePacked size).2
      (obtained (r.pool.layoutOf? size) (r.allocatePacked size).1) :=
  gains_of_size rfl

theorem gains_allocateZeroed (r : Region σ) (size : Nat) :
    r.Gains (r.allocateZeroed size).2
      (obtained (r.pool.layoutOf? size) (r.allocateZeroed size).1) := by
  have hgains := r.gains_allocate size
  unfold allocateZeroed
  rcases hop : r.allocate size with ⟨fault | start, r'⟩ <;> rw [hop] at hgains
  · exact hgains
  · exact hgains.congr rfl

theorem gains_allocateLayout (r : Region σ) (l : Layout) :
    r.Gains (r.allocateLayout l).2
      (obtained (r.pool.layoutFor? l) (r.allocateLayout l).1) := by
  unfold allocateLayout Pool.layoutFor?
  by_cases hzero : l.size = 0
  · rw [if_pos hzero, if_pos (.inl hzero)]
    exact .refl r
  by_cases hsmall : l.size ≤ r.pool.largestSmall ∧ l.align ≤ blockAlign
  · rw [if_neg hzero, if_pos hsmall, if_pos (.inr hsmall), obtained_none]
    exact r.gains_reserve l.size l.align
  · rw [if_neg hzero, if_neg hsmall, if_neg (not_or.mpr ⟨hzero, hsmall⟩)]
    split
    · exact r.gains_allocateLarge _
    · exact .refl r

theorem gains_allocateCopy (r : Region σ) (align : Nat) (bytes : List UInt8) :
    r.Gains (r.allocateCopy align bytes).2
      (obtained (r.pool.layoutFor? ⟨bytes.length, align⟩) (r.allocateCopy align bytes).1) := by
  have hgains := r.gains_allocateLayout ⟨bytes.length, align⟩
  unfold allocateCopy
  rcases hop : r.allocateLayout ⟨bytes.length, align⟩ with ⟨fault | start, r'⟩ <;>
    rw [hop] at hgains
  · exact hgains
  · exact hgains.congr rfl

/-! ## Cleanups -/

theorem gains_allocatePayload (r : Region σ) (size : Nat) :
    r.Gains (r.allocatePayload size).2
      (obtained (r.pool.layoutOf? size) (r.allocatePayload size).1) := by
  unfold allocatePayload
  split
  · next hzero =>
    rw [hzero, Pool.layoutOf?, if_pos (Nat.zero_le _)]
    exact .refl r
  · exact r.gains_allocateZeroed size

/-- A cleanup gains its payload, if that is large, and the newest record says where it lies. -/
theorem gains_addCleanup (r : Region σ) (size : Nat) :
    (∃ fault r', r.addCleanup size = (.error fault, r') ∧ r.Gains r' []) ∨
    ∃ c record r', r.addCleanup size = (.ok c, r') ∧ r'.pool.cleanups.head? = some record ∧
      r.Gains r' (obtained (r.pool.layoutOf? size) (.ok record.payload.start)) := by
  have hreserve := r.gains_reserve cleanupRecordSize wordAlign
  have hconfig := (config_reserve r cleanupRecordSize wordAlign).2
  unfold addCleanup
  rcases hrecord : r.reserve cleanupRecordSize wordAlign with ⟨fault | address, r₁⟩ <;>
    rw [hrecord] at hreserve hconfig
  · exact .inl ⟨fault, r₁, rfl, hreserve⟩
  have hpayload := r₁.gains_allocatePayload size
  dsimp only
  rcases hop : r₁.allocatePayload size with ⟨fault | start, r₂⟩ <;> rw [hop] at hpayload
  · refine .inl ⟨fault, r₂, rfl, ?_⟩
    simpa using hreserve.trans hpayload
  · refine .inr ⟨_, _, _, rfl, rfl, ?_⟩
    have hsame : r₁.pool.layoutOf? size = r.pool.layoutOf? size := by
      unfold Pool.layoutOf?
      rw [hconfig]
    rw [hsame] at hpayload
    have hgains := hreserve.trans hpayload
    rw [List.append_nil] at hgains
    exact hgains.congr rfl

/-! ## Buffers that are freed -/

/-- A buffer that is not tracked cannot be freed, and nothing happens. -/
theorem free_untracked {address : Nat}
    (h : ∀ b ∈ LargeRecord.buffers r.pool.large, b.base ≠ address) :
    r.free address = (.error .invalidFree, r) := by
  unfold free
  rw [LargeRecord.vacate?_eq_none_iff.mpr h]

/-- **What is tracked can be freed.** One of the records is left without its buffer, and the buffer
goes back. Nothing else happens. -/
theorem free_tracked {b : Buffer} (hb : b ∈ LargeRecord.buffers r.pool.large)
    (hnodup : ((LargeRecord.buffers r.pool.large).map Buffer.base).Nodup) :
    ∃ front record back, record.held = some b ∧ r.pool.large = front ++ record :: back ∧
      r.free b.base =
        (.ok (), ({ r with
          pool := { r.pool with
            large := front ++ { record with held := none } :: back } }.note
              (.largeFreed b.base)).release b) := by
  rcases free_cases r b.base with ⟨hnone, -⟩ | ⟨c, large, hvacate, heq⟩
  · exact absurd rfl (LargeRecord.vacate?_eq_none_iff.mp hnone b hb)
  -- the buffer that is found has the same start, so it is the same
  obtain ⟨hbase, -⟩ := LargeRecord.buffers_vacate? hvacate
  obtain ⟨front, record, back, hheld, hbefore, rfl⟩ := LargeRecord.exists_of_vacate? hvacate
  have hc : c ∈ LargeRecord.buffers r.pool.large := by
    rw [hbefore]
    exact List.mem_filterMap.mpr ⟨record, by simp, hheld⟩
  obtain rfl : c = b := List.inj_on_of_nodup_map hnodup hc hb hbase
  exact ⟨front, record, back, hheld, hbefore, heq⟩

/-- The other buffers stay tracked. -/
theorem perm_buffers_free {b : Buffer} (hb : b ∈ LargeRecord.buffers r.pool.large)
    (hnodup : ((LargeRecord.buffers r.pool.large).map Buffer.base).Nodup) :
    (LargeRecord.buffers r.pool.large).Perm
      (b :: LargeRecord.buffers (r.free b.base).2.pool.large) := by
  obtain ⟨front, record, back, hheld, hbefore, heq⟩ := free_tracked hb hnodup
  rw [heq, hbefore]
  show (LargeRecord.buffers (front ++ record :: back)).Perm
    (b :: LargeRecord.buffers (front ++ { record with held := none } :: back))
  simp only [LargeRecord.buffers, List.filterMap_append, List.filterMap_cons, hheld]
  exact List.perm_middle

/-- Whatever is freed, what is tracked afterwards are the buffers that start elsewhere. -/
theorem filter_perm_free (hnodup : ((LargeRecord.buffers r.pool.large).map Buffer.base).Nodup)
    (address : Nat) :
    ((LargeRecord.buffers r.pool.large).filter fun b => b.base ≠ address).Perm
      (LargeRecord.buffers (r.free address).2.pool.large) := by
  by_cases h : ∃ b ∈ LargeRecord.buffers r.pool.large, b.base = address
  · obtain ⟨b, hb, rfl⟩ := h
    have hperm := perm_buffers_free hb hnodup
    -- no other buffer starts there
    have hothers : ∀ c ∈ LargeRecord.buffers (r.free b.base).2.pool.large, c.base ≠ b.base := by
      have hbases := (hperm.map Buffer.base).nodup_iff.mp hnodup
      intro c hc heq
      exact (List.nodup_cons.mp hbases).1 (List.mem_map.mpr ⟨c, hc, heq⟩)
    refine (hperm.filter _).trans (List.Perm.of_eq ?_)
    rw [List.filter_cons_of_neg (by simp)]
    exact List.filter_eq_self.mpr fun c hc => decide_eq_true (hothers c hc)
  · have hnone : ∀ b ∈ LargeRecord.buffers r.pool.large, b.base ≠ address := by
      intro b hb heq
      exact h ⟨b, hb, heq⟩
    rw [free_untracked hnone]
    exact List.Perm.of_eq (List.filter_eq_self.mpr fun b hb => decide_eq_true (hnone b hb))

/-- Whatever is freed, nothing comes to what is tracked. -/
theorem buffers_free_subset (r : Region σ) (address : Nat) :
    LargeRecord.buffers (r.free address).2.pool.large ⊆ LargeRecord.buffers r.pool.large := by
  rcases free_cases r address with ⟨-, heq⟩ | ⟨b, large, hvacate, heq⟩ <;> rw [heq]
  · exact List.Subset.refl _
  · obtain ⟨-, front, back, hbefore, hafter⟩ := LargeRecord.buffers_vacate? hvacate
    intro c hc
    have hmem : c ∈ front ++ back := hafter ▸ hc
    rw [hbefore]
    exact List.perm_middle.mem_iff.mpr (List.mem_cons_of_mem _ hmem)

/-! ## Buffers that are given back -/

/-- A reset gives every tracked buffer back. -/
theorem released_of_reset {b : Buffer} (hb : b ∈ LargeRecord.buffers r.pool.large)
    {after : List Effect} (h : r.reset.heap.journal = after ++ r.heap.journal) :
    .released b ∈ after := by
  -- one buffer after the other goes back
  have hrelease : ∀ (buffers : List Buffer) (heap : Heap σ), ∃ after,
      (buffers.foldl (fun heap b => (Heap.note heap (.largeFreed b.base)).release b) heap).journal =
        after ++ heap.journal ∧ ∀ b ∈ buffers, .released b ∈ after := by
    intro buffers
    induction buffers with
    | nil => exact fun heap => ⟨[], rfl, fun b hb => absurd hb List.not_mem_nil⟩
    | cons c buffers ih =>
      intro heap
      obtain ⟨after, hjournal, hall⟩ := ih ((heap.note (.largeFreed c.base)).release c)
      refine ⟨after ++ [.released c, .noted (.largeFreed c.base)], ?_, ?_⟩
      · rw [List.foldl_cons, hjournal, List.append_assoc]
        rfl
      · rw [List.forall_mem_cons]
        exact ⟨by simp, fun b hb => List.mem_append_left _ (hall b hb)⟩
  obtain ⟨released, hjournal, hall⟩ := hrelease (LargeRecord.buffers r.pool.large) r.heap
  replace hjournal : r.releaseLarge.heap.journal = released ++ r.heap.journal := hjournal
  -- and what is written after that takes nothing out
  have hdiscard : r.releaseLarge.heap.journal <:+ r.releaseLarge.discardCleanups.heap.journal :=
    discardCleanups_induction (P := fun s => r.releaseLarge.heap.journal <:+ s.heap.journal)
      (fun s hs => hs) (fun s handler hs => hs.trans (Step.discard s handler).suffix)
      (List.suffix_refl _)
  obtain ⟨discarded, hdiscarded⟩ := hdiscard
  have hreset : r.reset.heap.journal =
      .noted (.poolReset r.releaseLarge.discardCleanups.pool.chain.rewind.blocks.length) ::
        (discarded ++ released) ++ r.heap.journal := by
    rw [List.cons_append, List.append_assoc, ← hjournal, hdiscarded]
    rfl
  rw [List.append_cancel_right (h.symm.trans hreset)]
  exact List.mem_cons_of_mem _ (List.mem_append_right _ (hall b hb))

/-- **A buffer stays tracked** over a step that does not give it back. -/
theorem Step.keeps {b : Buffer} (h : Step r r') (hb : b ∈ LargeRecord.buffers r.pool.large)
    {after : List Effect} (hafter : r'.heap.journal = after ++ r.heap.journal)
    (hkept : .released b ∉ after) : b ∈ LargeRecord.buffers r'.pool.large := by
  have hgains : ∀ {r' : Region σ} {new : List Buffer}, r.Gains r' new →
      b ∈ LargeRecord.buffers r'.pool.large := fun hgains =>
    hgains.mem_iff.mpr (List.mem_append_right _ hb)
  cases h with
  | reserve hsize halign => exact hgains (r.gains_reserve _ _)
  | allocateLarge hsize hvalid => exact hgains (r.gains_allocateLarge _)
  | allocateAligned size align => exact hgains (r.gains_allocateAligned size align)
  | free address =>
    rcases free_cases r address with ⟨-, heq⟩ | ⟨c, large, hvacate, heq⟩ <;> rw [heq] at hafter ⊢
    · exact hb
    · -- the buffer is another one than the one that goes
      obtain ⟨-, front, back, hbefore, hlarge⟩ := LargeRecord.buffers_vacate? hvacate
      replace hafter : [Effect.released c, .noted (.largeFreed address)] ++ r.heap.journal =
        after ++ r.heap.journal := hafter
      have hwritten := List.append_cancel_right hafter
      show b ∈ LargeRecord.buffers large
      rw [hlarge]
      refine (List.mem_cons.mp (List.perm_middle.mem_iff.mp (hbefore ▸ hb))).resolve_left ?_
      rintro rfl
      rw [← hwritten] at hkept
      exact hkept List.mem_cons_self
  | reset => exact absurd (released_of_reset hb hafter) hkept
  | discard handler => rwa [pool_discard]
  | runHandler record => rwa [pool_runHandler]
  | store | note | enlist | arm | adjust => exact hb

end Region

end RegionTrie
