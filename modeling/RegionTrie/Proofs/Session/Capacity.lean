import RegionTrie.Proofs.Region.Plan
import RegionTrie.Proofs.Session.Contents
import RegionTrie.Proofs.Session.Search

/-!
# Capacity after a reset

A reset keeps every block, and searches start at the first block again. When a script of allocations
is run, then reset and run again, the second run packs ranges by first fit over all blocks. The
first run may have packed them differently, if blocks were given up as the start of searches
meanwhile. So the second run needs no further block exactly if first fit over all blocks needs no
more blocks than the first run has left, and this is so whenever the first run did not get as far as
giving blocks up.

## Main definitions

* `Session.Renewed`: a region that was just created or just reset
* `Region.Blank`: blocks from which nothing is handed out, and nothing else

## Main results

* `Session.Renewed.follows`: such a region starts as planned
* `Region.Follows.blockCount_follow`: how many blocks a script needs
* `Session.capacity_kept`: when a second run needs no further block
* `Session.capacity_exceeded`: a second run that needs one
-/

namespace RegionTrie

open Journal

namespace Region

variable {σ : Type}

/-- Nothing is handed out, and every search starts at the first block. -/
structure Blank (r : Region σ) : Prop where
  behind : r.pool.chain.behind = []
  last : ∀ b ∈ r.pool.chain.ahead, b.last = b.base + blockHeaderSize
  missed : ∀ b ∈ r.pool.chain.ahead, b.missed = 0
  large : r.pool.large = []
  cleanups : r.pool.cleanups = []
  served : served r.heap.journal = []

/-- A region from which nothing is handed out is as planned for any script. -/
theorem Blank.follows {r : Region σ} (h : r.Blank) (hsettled : r.Settled) :
    r.Follows r.pool.blockCount (r.pool.blockCount + r.pool.config.skipAfterFailures + 1) []
      r.pool.plan where
  limit_eq := rfl
  config := rfl
  largestSmall := rfl
  size := hsettled.placed.size
  small := hsettled.placed.small
  chain := by
    have hmem : ∀ b ∈ r.pool.chain.ahead, b ∈ r.pool.chain.blocks := fun b hb =>
      List.mem_append_right _ hb
    have hcount : r.pool.blockCount = r.pool.chain.ahead.length := by
      rw [Pool.blockCount, Chain.blocks, h.behind, List.nil_append]
    refine ⟨h.behind, ?_, ?_⟩
    · rw [hcount]
      refine List.forall₂_iff_get.mpr ⟨by simp [Pool.plan], ?_⟩
      intro i hi hi'
      have hb := List.get_mem r.pool.chain.ahead ⟨i, hi⟩
      simp only [Pool.plan, List.nil_append, List.get_eq_getElem, List.getElem_replicate]
      exact ⟨hsettled.placed.placement.base_dvd _ (hmem _ hb), h.last _ hb,
        (hsettled.placed.placement.bounds _ (hmem _ hb)).2.2⟩
    · intro n hn
      obtain ⟨b, hb, rfl⟩ := List.mem_map.mp hn
      rw [h.missed b hb]
      exact Nat.zero_le _
  slots := by
    rw [h.large]
    exact .nil
  cleanups := by
    rw [h.cleanups]
    rfl
  places := by
    rw [h.served]
    exact .nil

variable [RawSource σ]

theorem blank_reset (r : Region σ) : r.reset.Blank := by
  obtain ⟨n, new, hjournal⟩ := journal_reset r
  have hblocks : ∀ b ∈ r.pool.chain.rewind.ahead,
      b.last = b.base + blockHeaderSize ∧ b.missed = 0 := by
    intro b hb
    obtain ⟨x, -, rfl⟩ := List.mem_map.mp hb
    exact ⟨rfl, rfl⟩
  constructor
  case served =>
    rw [hjournal]
    rfl
  all_goals rw [pool_reset]
  · rfl
  · exact fun b hb => (hblocks b hb).1
  · exact fun b hb => (hblocks b hb).2

theorem blockCount_reset (r : Region σ) : r.reset.pool.blockCount = r.pool.blockCount := by
  rw [Pool.blockCount, pool_reset, Chain.blocks_rewind, List.length_map]
  rfl

variable {stock limit : Nat} {r : Region σ} {p : Plan}

/-- A script that frees nothing confuses no addresses. -/
theorem discernible_of_forall_ne_free {names : List (Option Nat)} {script : List Errand}
    (h : ∀ errand ∈ script, ∀ earlier, errand ≠ .free earlier) : r.Discernible names script := by
  induction script generalizing r names with
  | nil => trivial
  | cons errand script ih =>
    rw [List.forall_mem_cons] at h
    exact ⟨fun earlier heq => absurd heq (h.1 earlier), ih h.2⟩

/-- A script needs as many blocks as planned, or more than `limit` as planned. -/
theorem Follows.blockCount_follow (h : r.Follows stock limit [] p) {script : List Errand}
    (hwell : ∀ errand ∈ script, errand.WellFormed) (hclear : r.Discernible [] script)
    (hobliging : Obliging r.heap.journal (r.follow [] script).2.heap.journal) :
    (limit < (r.follow [] script).2.pool.blockCount ∧
      limit < (p.follow 0 script).2.used.length) ∨
    (r.follow [] script).2.pool.blockCount = max stock (p.follow 0 script).2.used.length := by
  rcases h.follow hwell hclear hobliging with hpassed | ⟨⟨names, hfollows⟩, -⟩
  · exact .inl hpassed
  · exact .inr hfollows.blockCount_eq

/-- If the plan needs no more blocks than there are, there are as many all the time. -/
theorem Follows.blockCount_eq_of_mem (h : r.Follows stock limit [] p) {script : List Errand}
    (hwell : ∀ errand ∈ script, errand.WellFormed) (hclear : r.Discernible [] script)
    (hobliging : Obliging r.heap.journal (r.follow [] script).2.heap.journal)
    (hstock : r.pool.blockCount = stock) (hfits : (p.follow 0 script).2.used.length ≤ stock)
    {step : Except Fault (Option Nat) × Region σ} (hstep : step ∈ (r.follow [] script).1) :
    step.2.pool.blockCount = stock := by
  have hlimit := h.limit_eq
  obtain ⟨hbefore, hafter⟩ := steps_of_mem_follow r [] hwell hstep
  have hle := blockCount_le hbefore
  have hle' := blockCount_le hafter
  rcases h.blockCount_follow hwell hclear hobliging with ⟨-, hpassed⟩ | hcount <;> omega

/-- The last region is the one after the last errand. -/
theorem exists_last_of_follow (names : List (Option Nat)) {script : List Errand}
    (h : script ≠ []) :
    ∃ step ∈ (r.follow names script).1, step.2 = (r.follow names script).2 := by
  induction script generalizing r names with
  | nil => exact absurd rfl h
  | cons errand script ih =>
    cases script with
    | nil => exact ⟨_, List.mem_cons_self, rfl⟩
    | cons next script =>
      obtain ⟨step, hstep, heq⟩ := ih (names ++ [told (r.carryOut names errand).1])
        (List.cons_ne_nil next script)
      exact ⟨step, List.mem_cons_of_mem _ hstep, heq⟩

end Region

namespace Session

open Region

variable {σ : Type} [RawSource σ]

/-- A region that was just created, or just reset after whatever was done to it. -/
inductive Renewed (c : PoolConfig) : Region σ → Prop
  | create {source : σ} {s : Session σ} (h : create c { source } = .ok s) : Renewed c s.region
  | reset {source : σ} {s : Session σ} {r : Region σ} (h : Session.create c { source } = .ok s)
    (hsteps : Steps s.region r) : Renewed c r.reset

namespace Renewed

variable {c : PoolConfig} {r r' : Region σ}

theorem settled (h : Renewed c r) (hlawful : Lawful r.heap.journal) : r.Settled := by
  cases h with
  | create h => exact ⟨balanced_create h, placed_create h hlawful, hlawful⟩
  | reset h hsteps =>
    have hall := hsteps.tail (Step.reset _)
    have hfirst := hlawful.of_suffix (Steps.suffix hall)
    have hcreated : Settled _ := ⟨balanced_create h, placed_create h hfirst, hfirst⟩
    exact hcreated.steps hall hlawful

theorem config_eq (h : Renewed c r) : r.pool.config = c := by
  cases h with
  | create h => exact config_create h
  | reset h hsteps =>
    exact (Steps.config_eq (hsteps.tail (Step.reset _))).1.trans (config_create h)

theorem blank (h : Renewed c r) : r.Blank := by
  cases h with
  | reset h hsteps => exact blank_reset _
  | create h =>
    rename_i source s
    obtain ⟨base, heap, largestSmall, -, -, hgrant, -, rfl⟩ := create_ok h
    have hsame := Heap.served_allocate ({ source } : Heap σ) c.blockLayout
    rw [hgrant] at hsame
    exact ⟨rfl, by simp [Block.fresh], by simp [Block.fresh], rfl, rfl, hsame⟩

theorem follows (h : Renewed c r) (hlawful : Lawful r.heap.journal) :
    r.Follows r.pool.blockCount (r.pool.blockCount + c.skipAfterFailures + 1) [] r.pool.plan := by
  rw [← h.config_eq]
  exact h.blank.follows (h.settled hlawful)

/-- A reset renews the region. -/
theorem again (h : Renewed c r) (hsteps : Steps r r') : Renewed c r'.reset := by
  cases h with
  | create h => exact .reset h hsteps
  | reset h hbefore => exact .reset h ((hbefore.tail (Step.reset _)).trans hsteps)

/-- Where a script is run twice, with a reset between, both runs have the same plan, the second one
starts with the blocks that the first has left, and nothing is declined in either if nothing is in
both together. -/
theorem twice (h : Renewed c r) {script : List Errand}
    (hwell : ∀ errand ∈ script, errand.WellFormed)
    {first second : List (Except Fault (Option Nat) × Region σ) × Region σ}
    (hfirst : r.follow [] script = first) (hsecond : first.2.reset.follow [] script = second)
    (hobliging : Obliging r.heap.journal second.2.heap.journal) :
    (r.Follows r.pool.blockCount (r.pool.blockCount + c.skipAfterFailures + 1) [] r.pool.plan ∧
      Obliging r.heap.journal first.2.heap.journal) ∧
    (first.2.reset.Follows first.2.pool.blockCount
        (first.2.pool.blockCount + c.skipAfterFailures + 1) [] r.pool.plan ∧
      Obliging first.2.reset.heap.journal second.2.heap.journal) := by
  have hsteps : Steps r first.2 := hfirst ▸ steps_follow r [] hwell
  have hreset : Steps r first.2.reset := hsteps.tail (Step.reset _)
  have hsteps' : Steps first.2.reset second.2 := hsecond ▸ steps_follow first.2.reset [] hwell
  obtain ⟨hfirst, -⟩ := hobliging.split (Steps.suffix hsteps)
    ((suffix_reset first.2).trans (Steps.suffix hsteps'))
  obtain ⟨hbefore, hsecond⟩ := hobliging.split (Steps.suffix hreset) (Steps.suffix hsteps')
  have hfollows := (h.again hsteps).follows hbefore.lawful
  obtain ⟨hconfig, hlargest⟩ := Steps.config_eq hreset
  have hplan : first.2.reset.pool.plan = r.pool.plan := by
    rw [Pool.plan, hconfig, hlargest]
    rfl
  rw [hplan, blockCount_reset] at hfollows
  exact ⟨⟨h.follows (hbefore.lawful.of_suffix (Steps.suffix hreset)), hfirst⟩, hfollows, hsecond⟩

end Renewed

/-- **When a reset keeps enough blocks.** Let a script of allocations be run on a region that was
just created or just reset, let the region be reset, and let the script be run again, while the
source declines nothing. Then the second run requests no further block, and the number of blocks
never changes, exactly if first fit over all blocks, none of which is ever given up, needs no more
blocks than the first run has left. This is so if the first run has added no more than
`skipAfterFailures + 1` blocks. -/
theorem capacity_kept {c : PoolConfig} {r : Region σ} (hr : Renewed c r) {script : List Allocation}
    (hwell : ∀ a ∈ script, a.WellFormed)
    {first second : List (Except Fault (Option Nat) × Region σ) × Region σ}
    (hfirst : r.follow [] (script.map .allocate) = first)
    (hsecond : first.2.reset.follow [] (script.map .allocate) = second)
    (hobliging : Obliging r.heap.journal second.2.heap.journal) :
    ((∀ step ∈ second.1, step.2.pool.blockCount = first.2.pool.blockCount) ↔
      (r.pool.plan.follow 0 (script.map .allocate)).2.used.length ≤ first.2.pool.blockCount) ∧
    (first.2.pool.blockCount ≤ r.pool.blockCount + (c.skipAfterFailures + 1) →
      ∀ step ∈ second.1, step.2.pool.blockCount = first.2.pool.blockCount) := by
  have hall : ∀ errand ∈ script.map Errand.allocate, errand.WellFormed := by
    rw [List.forall_mem_map]
    exact hwell
  have hclear : ∀ r : Region σ, r.Discernible [] (script.map .allocate) := by
    intro r
    apply discernible_of_forall_ne_free
    rw [List.forall_mem_map]
    intro a _ earlier
    exact Errand.noConfusion
  obtain ⟨⟨hfollows, hone⟩, hagain, htwo⟩ := hr.twice hall hfirst hsecond hobliging
  have hcount := blockCount_reset first.2
  -- if the plan has enough with the blocks that are left, so has the second run
  have henough : (r.pool.plan.follow 0 (script.map .allocate)).2.used.length ≤
      first.2.pool.blockCount → ∀ step ∈ second.1,
        step.2.pool.blockCount = first.2.pool.blockCount := by
    subst hsecond
    intro hfits step hstep
    exact hagain.blockCount_eq_of_mem hall (hclear _) htwo hcount hfits hstep
  refine ⟨⟨?_, henough⟩, ?_⟩
  · intro hsame
    by_contra hfits
    have hne : script.map Errand.allocate ≠ [] := by
      intro hnil
      rw [hnil] at hfits
      exact hfits (Nat.zero_le _)
    -- the second run comes to need the blocks that the plan needs, or even more
    subst hsecond
    obtain ⟨step, hstep, hlast⟩ := exists_last_of_follow (r := first.2.reset) [] hne
    have hlastcount := hsame step hstep
    rw [hlast] at hlastcount
    rcases hagain.blockCount_follow hall (hclear _) htwo with ⟨hpassed, -⟩ | hneeded <;> omega
  · subst hfirst
    intro hgrowth
    apply henough
    rcases hfollows.blockCount_follow hall (hclear r) hone with ⟨hpassed, -⟩ | hneeded <;> omega

/-- Enough blocks are kept, for instance, where the first run adds two blocks, and one of them has
the record of a large buffer. -/
theorem capacity_kept_tracked :
    ∃ s script, create (.withSize 128) { source := ({} : Tracker) } = .ok s ∧
      script = [.bytes 90, .zeroed 90, .packed 5, .layout ⟨24, 16⟩, .bytes 5000] ∧
      let first := s.region.follow [] (script.map .allocate)
      let second := first.2.reset.follow [] (script.map .allocate)
      Obliging s.region.heap.journal second.2.heap.journal ∧ first.2.pool.blockCount = 3 ∧
        ∀ step ∈ second.1, step.2.pool.blockCount = first.2.pool.blockCount := by
  obtain ⟨script, hscript⟩ : ∃ script : List Allocation,
      script = [.bytes 90, .zeroed 90, .packed 5, .layout ⟨24, 16⟩, .bytes 5000] := ⟨_, rfl⟩
  have hwell : ∀ a ∈ script, a.WellFormed := by
    rw [hscript]
    simp only [List.forall_mem_cons, List.not_mem_nil, false_implies, implies_true, and_true]
    exact ⟨trivial, trivial, trivial, ⟨4, rfl⟩, trivial⟩
  have hcheck : (match create (.withSize 128) { source := ({} : Tracker) } with
      | .ok s =>
        let first := s.region.follow [] (script.map .allocate)
        let second := first.2.reset.follow [] (script.map .allocate)
        decide (refusals second.2.heap.journal = refusals s.region.heap.journal ∧
          Lawful second.2.heap.journal ∧ first.2.pool.blockCount = 3 ∧
          s.region.pool.blockCount = 1)
      | .error _ => false) = true := by
    rw [hscript]
    decide +kernel
  rcases h : create (.withSize 128) { source := ({} : Tracker) } with ⟨fault, heap⟩ | s <;>
    rw [h] at hcheck
  · cases hcheck
  · obtain ⟨hrefusals, hlawful, hfirst, hone⟩ := of_decide_eq_true hcheck
    have hkept := capacity_kept (.create h) hwell rfl rfl ⟨hrefusals, hlawful⟩
    refine ⟨s, script, rfl, hscript, ⟨hrefusals, hlawful⟩, hfirst, hkept.2 ?_⟩
    rw [hfirst, hone]
    decide

/-- A reset does not always keep enough blocks. Here the first run has given the first block up when
the requests for 40 bytes come, for which it has room. In the second run one of them is served
there, and what follows is packed in another way, which takes a block more. -/
theorem capacity_exceeded :
    ∃ s script, create (.withSize 272) { source := ({} : Tracker) } = .ok s ∧
      script = ([200, 240, 240, 240, 240, 240, 240, 40, 40, 168, 72, 120, 72, 72, 120].map
        Allocation.bytes) ∧
      let first := s.region.follow [] (script.map .allocate)
      let second := first.2.reset.follow [] (script.map .allocate)
      Obliging s.region.heap.journal second.2.heap.journal ∧ first.2.pool.blockCount = 10 ∧
        second.2.pool.blockCount = 11 ∧
        ¬ ∀ step ∈ second.1, step.2.pool.blockCount = first.2.pool.blockCount := by
  obtain ⟨script, hscript⟩ : ∃ script, script = ([200, 240, 240, 240, 240, 240, 240, 40, 40, 168,
      72, 120, 72, 72, 120].map Allocation.bytes) := ⟨_, rfl⟩
  have hcheck : (match create (.withSize 272) { source := ({} : Tracker) } with
      | .ok s =>
        let first := s.region.follow [] (script.map .allocate)
        let second := first.2.reset.follow [] (script.map .allocate)
        decide (refusals second.2.heap.journal = refusals s.region.heap.journal ∧
          Lawful second.2.heap.journal ∧ first.2.pool.blockCount = 10 ∧
          second.2.pool.blockCount = 11 ∧
          ¬ ∀ step ∈ second.1, step.2.pool.blockCount = first.2.pool.blockCount)
      | .error _ => false) = true := by
    rw [hscript]
    decide +kernel
  rcases h : create (.withSize 272) { source := ({} : Tracker) } with ⟨fault, heap⟩ | s <;>
    rw [h] at hcheck
  · cases hcheck
  · obtain ⟨hrefusals, hlawful, hfirst, hsecond, hno⟩ := of_decide_eq_true hcheck
    exact ⟨s, script, rfl, hscript, ⟨hrefusals, hlawful⟩, hfirst, hsecond, hno⟩

end Session

end RegionTrie
