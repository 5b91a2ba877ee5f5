import RegionTrie.Proofs.Region.Errands
import RegionTrie.Proofs.Region.Failures

/-!
# Why requests for memory fail

A request for memory fails because it comes to no layout, which shows in its size and alignment
alone, and then the source is not even asked. Or it fails for want of memory, and then exactly one
call of the source was declined: the one for the large buffer, the one for the block that a small
range needed, or the one for the block that the record of a large buffer needed. The fault names the
layout of that call.

## Main definitions

* `Allocation.Unlayable`: size and alignment come to no layout
* `Allocation.IsSmall`, `Allocation.own`: the request is served from blocks, or else by a buffer of
  this layout
* `Allocation.Settles`: what a request comes down to, as its size and its alignment decide
* `Region.Wants`: a call of the source that was declined, with what else came of the request

## Main results

* `Allocation.settles_demand`: what requests come down to, by their sizes and alignments
* `Region.supply_of_unlayable`, `Region.unlayable_of_supply`: requests fail for their layout exactly
  if they come to none
* `Region.wants_of_supply`: all other failures name the one call that was declined
-/

namespace RegionTrie

namespace Allocation

/-- The size and the alignment that a fault names if they form no layout. -/
def named : Allocation → Layout
  | .bytes size | .packed size | .zeroed size => ⟨size, wordAlign⟩
  | .layout l => l
  | .aligned size align => ⟨size, align⟩

/-- The layout of the large buffer that the request comes to unless it is small. -/
def own : Allocation → Layout
  | .bytes size | .packed size | .zeroed size => ⟨size, wordAlign⟩
  | .layout l => l.alignTo wordAlign
  | .aligned size align => ⟨size, align⟩

/-- Size and alignment come to no layout. A layout that is given may still be too large for the
least alignment of large buffers. -/
def Unlayable : Allocation → Prop
  | .bytes size | .packed size | .zeroed size => Layout.bound - wordAlign < size
  | .layout l => l.align < wordAlign ∧ Layout.bound - wordAlign < l.size
  | .aligned size align => size = 0 ∨ ¬ align.isPowerOfTwo ∨ Layout.bound - align < size

instance : (a : Allocation) → Decidable a.Unlayable
  | .bytes _ | .packed _ | .zeroed _ => inferInstanceAs (Decidable (_ < _))
  | .layout _ => inferInstanceAs (Decidable (_ ∧ _))
  | .aligned _ _ => inferInstanceAs (Decidable (_ ∨ _ ∨ _))

/-- The request is served from blocks. -/
def IsSmall (largestSmall : Nat) : Allocation → Prop
  | .bytes size | .packed size | .zeroed size => size ≤ largestSmall
  | .layout l => l.size ≤ largestSmall ∧ l.align ≤ blockAlign
  | .aligned _ _ => False

/-- If a layout is given, it is one. -/
def Valid : Allocation → Prop
  | .layout l => l.Valid
  | _ => True

theorem Valid.wellFormed {a : Allocation} (h : a.Valid) : a.WellFormed := by
  cases a with
  | layout l => exact And.left h
  | _ => trivial

/-- What the request comes down to, as its size and its alignment decide. -/
inductive Settles (largestSmall : Nat) (a : Allocation) : Demand → Prop
  | refused (h : a.Unlayable) :
      Settles largestSmall a (.refused (.invalidLayout a.named.size a.named.align))
  | nothing (h : ¬ a.Unlayable) : Settles largestSmall a .nothing
  | small (h : ¬ a.Unlayable) (hsmall : a.IsSmall largestSmall) (size align : Nat) :
      Settles largestSmall a (.small size align)
  | large (h : ¬ a.Unlayable) (hlarge : ¬ a.IsSmall largestSmall) (reuse : Bool) :
      Settles largestSmall a (.large a.own reuse)

variable {a : Allocation} {largestSmall size : Nat} {l : Layout}

/-- So many bytes form a layout unless they are too many, and all that is small is not. -/
theorem settles_ofSize (align : Nat) (hsmall : largestSmall ≤ Layout.bound - wordAlign)
    (hunlayable : a.Unlayable ↔ Layout.bound - wordAlign < size)
    (hissmall : a.IsSmall largestSmall ↔ size ≤ largestSmall) (hnamed : a.named = ⟨size, wordAlign⟩)
    (hown : a.own = ⟨size, wordAlign⟩) :
    a.Settles largestSmall (.ofSize largestSmall size align) := by
  unfold Demand.ofSize
  by_cases hle : size ≤ largestSmall
  · rw [if_pos hle]
    have hlayable : ¬ a.Unlayable := fun h => by
      have := hunlayable.mp h
      omega
    exact .small hlayable (hissmall.mpr hle) size align
  rw [if_neg hle]
  have hvalid : (⟨size, wordAlign⟩ : Layout).Valid ↔ ¬ Layout.bound - wordAlign < size := by
    have hword : wordAlign ≤ Layout.bound := by decide
    constructor
    · rintro ⟨-, hsum⟩
      dsimp only at hsum
      omega
    · intro h
      exact ⟨⟨3, rfl⟩, by dsimp only; omega⟩
  by_cases hlarge : Layout.bound - wordAlign < size
  · rw [if_neg fun h => hvalid.mp h hlarge]
    have hrefused : Settles largestSmall a (.refused (.invalidLayout a.named.size a.named.align)) :=
      .refused (hunlayable.mpr hlarge)
    rwa [hnamed] at hrefused
  · rw [if_pos (hvalid.mpr hlarge), ← hown]
    exact .large (fun h => hlarge (hunlayable.mp h)) (fun h => hle (hissmall.mp h)) true

/-- Raising the alignment of a layout leaves a layout unless there is no room for that. -/
theorem valid_alignTo_iff (h : l.Valid) : (l.alignTo wordAlign).Valid ↔
    ¬ (l.align < wordAlign ∧ Layout.bound - wordAlign < l.size) := by
  obtain ⟨hpower, hsum⟩ := h
  have hword : wordAlign ≤ Layout.bound := by decide
  unfold Layout.alignTo Layout.Valid
  rcases Nat.le_total wordAlign l.align with hle | hle
  · rw [Nat.max_eq_left hle]
    exact iff_of_true ⟨hpower, hsum⟩ fun h => by omega
  · rw [Nat.max_eq_right hle]
    have hthree : wordAlign.isPowerOfTwo := ⟨3, rfl⟩
    simp only [hthree, true_and]
    -- an alignment of words is not raised, and the layout is one already
    constructor
    · omega
    · intro hnot
      by_contra hover
      exact hnot ⟨by omega, by omega⟩

theorem settles_ofLayout (h : l.Valid) (hsmall : largestSmall ≤ Layout.bound - wordAlign) :
    (Allocation.layout l).Settles largestSmall (.ofLayout largestSmall l) := by
  unfold Demand.ofLayout
  by_cases hzero : l.size = 0
  · rw [if_pos hzero]
    refine .nothing ?_
    rintro ⟨-, hlarge⟩
    omega
  rw [if_neg hzero]
  by_cases hfits : l.size ≤ largestSmall ∧ l.align ≤ blockAlign
  · rw [if_pos hfits]
    refine Settles.small (a := .layout l) ?_ hfits l.size l.align
    rintro ⟨-, hlarge⟩
    omega
  rw [if_neg hfits]
  by_cases hlayout : (l.alignTo wordAlign).Valid
  · rw [if_pos hlayout]
    exact Settles.large (a := .layout l) ((valid_alignTo_iff h).mp hlayout) hfits true
  · rw [if_neg hlayout]
    exact Settles.refused (a := .layout l) (not_not.mp (mt (valid_alignTo_iff h).mpr hlayout))

theorem settles_ofAligned (size align : Nat) :
    (Allocation.aligned size align).Settles largestSmall (.ofAligned size align) := by
  have hlayout : (0 < size ∧ (⟨size, align⟩ : Layout).Valid) ↔
      ¬ (size = 0 ∨ ¬ align.isPowerOfTwo ∨ Layout.bound - align < size) := by
    unfold Layout.Valid
    by_cases hpower : align.isPowerOfTwo
    · simp only [hpower, true_and, not_true_eq_false, false_or]
      omega
    · simp [hpower]
  unfold Demand.ofAligned
  by_cases hvalid : 0 < size ∧ (⟨size, align⟩ : Layout).Valid
  · rw [if_pos hvalid]
    exact Settles.large (a := .aligned size align) (hlayout.mp hvalid) id false
  · rw [if_neg hvalid]
    exact Settles.refused (a := .aligned size align) (not_not.mp (mt hlayout.mpr hvalid))

/-- **What requests come down to**, by their sizes and alignments. -/
theorem settles_demand (ha : a.Valid) (hsmall : largestSmall ≤ Layout.bound - wordAlign) :
    a.Settles largestSmall (a.demand largestSmall) := by
  cases a with
  | bytes size => exact settles_ofSize wordAlign hsmall .rfl .rfl rfl rfl
  | packed size => exact settles_ofSize 1 hsmall .rfl .rfl rfl rfl
  | zeroed size => exact settles_ofSize wordAlign hsmall .rfl .rfl rfl rfl
  | layout l => exact settles_ofLayout ha hsmall
  | aligned size align => exact settles_ofAligned size align

end Allocation

namespace Region

variable {σ : Type}

/-- A request for memory wants a call of the source that was declined, for this layout. Listed is
what the request left in the journal, newest entry first. -/
inductive Wants (r : Region σ) (a : Allocation) : Layout → List Effect → Prop
  /-- A small range needs a block. -/
  | block (h : a.IsSmall r.pool.largestSmall) :
      Wants r a r.pool.config.blockLayout [.declined r.pool.config.blockLayout]
  /-- The large buffer itself. -/
  | buffer (h : ¬ a.IsSmall r.pool.largestSmall) : Wants r a a.own [.declined a.own]
  /-- The record of the large buffer needs a block, and the buffer goes back. -/
  | record (h : ¬ a.IsSmall r.pool.largestSmall) (base : Nat) :
      Wants r a r.pool.config.blockLayout
        [.released ⟨base, a.own⟩, .declined r.pool.config.blockLayout, .granted ⟨base, a.own⟩]

variable [RawSource σ] {r r' : Region σ} {a : Allocation} {fault : Fault}

/-- A request for memory fails as what it comes down to does. -/
theorem supply_eq_error_iff :
    r.supply a = (.error fault, r') ↔
      r.meet (a.demand r.pool.largestSmall) = (.error fault, r') := by
  cases a with
  | bytes size => rw [supply, allocate_eq_meet]; rfl
  | packed size => rw [supply, allocatePacked_eq_meet]; rfl
  | zeroed size =>
    -- no zeros are stored where nothing was allocated
    show found (r.allocateZeroed size) = _ ↔ r.meet (.ofSize r.pool.largestSmall size wordAlign) = _
    rw [← allocate_eq_meet]
    unfold allocateZeroed
    rcases r.allocate size with ⟨fault' | start, r₁⟩
    · exact Iff.rfl
    · simp [found, Except.map]
  | layout l => rw [allocateLayout_eq_meet]; rfl
  | aligned size align => rw [supply, allocateAligned_eq_meet]; rfl

/-- A request that comes to no layout fails for that reason, and nothing else happens. -/
theorem supply_of_unlayable (ha : a.Valid) (hsmall : r.pool.largestSmall ≤ Layout.bound - wordAlign)
    (h : a.Unlayable) :
    r.supply a = (.error (.invalidLayout a.named.size a.named.align), r) := by
  rw [supply_eq_error_iff]
  have hsettles := Allocation.settles_demand ha hsmall
  generalize a.demand r.pool.largestSmall = demand at hsettles ⊢
  cases hsettles with
  | refused => rfl
  | nothing hlayable | small hlayable | large hlayable => exact absurd h hlayable

/-- The record of a large buffer has no room, and the buffer goes back. -/
theorem journal_of_link {l : Layout} {base : Nat} {heap : Heap σ}
    (hgrant : r.heap.allocate l = (some base, heap))
    (h : ({ r with heap } : Region σ).link ⟨base, l⟩ = (.error fault, r')) :
    fault = .exhausted r.pool.config.blockLayout.size r.pool.config.blockLayout.align ∧
      r'.heap.journal =
        [.released ⟨base, l⟩, .declined r.pool.config.blockLayout, .granted ⟨base, l⟩] ++
          r.heap.journal := by
  rcases link_cases { r with heap } ⟨base, l⟩ with
    ⟨address, r₁, -, heq⟩ | ⟨fault', r₁, hreserve, heq⟩ <;> rw [heq] at h <;> cases h
  rcases r.heap.allocate_cases l with ⟨base', source, hop⟩ | ⟨source, hop⟩ <;>
    rw [hop] at hgrant <;> cases hgrant
  have hfault := fault_of_reserve hreserve
  obtain ⟨source', rfl⟩ := declined_of_reserve hreserve
  exact ⟨hfault, rfl⟩

/-- **Whatever else fails names the one call of the source that was declined.** -/
theorem wants_of_supply (ha : a.Valid) (hsmall : r.pool.largestSmall ≤ Layout.bound - wordAlign)
    (hlayable : ¬ a.Unlayable) (h : r.supply a = (.error fault, r')) :
    ∃ l new, r.Wants a l new ∧ fault = .exhausted l.size l.align ∧
      r'.heap.journal = new ++ r.heap.journal := by
  rw [supply_eq_error_iff] at h
  have hsettles := Allocation.settles_demand ha hsmall
  have hsound := Allocation.sound_demand ha.wellFormed r.pool.largestSmall
  generalize a.demand r.pool.largestSmall = demand at h hsettles hsound
  cases hsettles with
  | refused hunlayable => exact absurd hunlayable hlayable
  | nothing => cases h
  | small _ hissmall size align =>
    -- the range needs a block
    rw [meet] at h
    rcases hop : r.reserve size align with ⟨fault' | start, r₁⟩ <;> rw [hop] at h <;> cases h
    obtain ⟨source, rfl⟩ := declined_of_reserve hop
    exact ⟨_, _, .block hissmall, fault_of_reserve hop, rfl⟩
  | large _ hlarge reuse =>
    -- the buffer or its record is declined, in whichever way it would have been tracked
    have hlink : ∀ {base : Nat} {heap : Heap σ}, r.heap.allocate a.own = (some base, heap) →
        found (({ r with heap } : Region σ).link ⟨base, a.own⟩) = (.error fault, r') →
        ∃ l new, r.Wants a l new ∧ fault = .exhausted l.size l.align ∧
          r'.heap.journal = new ++ r.heap.journal := by
      intro base heap hgrant hfound
      rcases hop : ({ r with heap } : Region σ).link ⟨base, a.own⟩ with ⟨fault' | start, r₁⟩ <;>
        rw [hop] at hfound <;> cases hfound
      obtain ⟨hfault, hjournal⟩ := journal_of_link hgrant hop
      exact ⟨_, _, .record hlarge base, hfault, hjournal⟩
    cases reuse with
    | true =>
      rw [meet] at h
      rcases allocateLarge_cases r a.own with
        ⟨heap, hop, heq⟩ | ⟨base, heap, large, -, -, heq⟩ | ⟨base, heap, hop, heq⟩ <;> rw [heq] at h
      · cases h
        exact ⟨_, _, .buffer hlarge, rfl, Heap.journal_of_decline hop⟩
      · cases h
      · exact hlink hop h
    | false =>
      rw [meet] at h
      rcases allocateAligned_cases r a.own.size a.own.align with
        ⟨hinvalid, -⟩ | ⟨heap, -, -, hop, heq⟩ | ⟨base, heap, -, -, hop, heq⟩
      · exact absurd hsound hinvalid
      · rw [heq] at h
        cases h
        exact ⟨_, _, .buffer hlarge, rfl, Heap.journal_of_decline hop⟩
      · rw [heq] at h
        exact hlink hop h

/-- A request that fails for its layout comes to none. -/
theorem unlayable_of_supply (ha : a.Valid) (hsmall : r.pool.largestSmall ≤ Layout.bound - wordAlign)
    {size align : Nat} (h : r.supply a = (.error (.invalidLayout size align), r')) :
    a.Unlayable := by
  by_contra hlayable
  obtain ⟨l, new, -, hfault, -⟩ := wants_of_supply ha hsmall hlayable h
  cases hfault

end Region

end RegionTrie
