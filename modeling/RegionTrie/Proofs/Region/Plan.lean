import RegionTrie.Proofs.Heap.Fresh
import RegionTrie.Proofs.Pool.Slots
import RegionTrie.Proofs.Region.Errands
import RegionTrie.Proofs.Region.Placement

/-!
# Regions follow plans

As long as the chain of a region grows at most `skipAfterFailures + 1` times, no block is given up
as the start of searches, so every search starts at the first block and the region does what first
fit over offsets foresees. How many blocks there were in the beginning makes no difference. Once the
chain has grown further the region may leave the plan, but then both need more blocks than that.

## Main definitions

* `Region.Clear`: no two errands were told the address of one large buffer
* `Region.Follows`: a region is as planned
* `Region.Agrees`: an answer is as planned
* `Region.Heeds`: an errand leads from one to the other, or further than the plan is good for

## Main results

* `Region.Follows.reserve`, `Region.Follows.meet`: ranges are where first fit puts them
* `Region.Follows.carryOut`: an errand is carried out as planned
* `Region.Follows.follow`: so is a whole script
-/

namespace RegionTrie

open Journal

namespace Region

variable {σ : Type}

/-- No two errands were told the address of one large buffer. -/
def Clear (names : List (Option Nat)) (r : Region σ) : Prop :=
  ∀ b ∈ LargeRecord.buffers r.pool.large, ∀ i j : Nat,
    names[i]? = some (some b.base) → names[j]? = some (some b.base) → i = j

/-- A range lies at a place in blocks that start at these addresses. -/
def Lies (bases : List Nat) (blockSize : Nat) (range : Extent × Nat) (place : Site × Nat) : Prop :=
  place.1.Marks bases range.1.start ∧ place.1.offset ≤ blockSize ∧ range.1.size = place.2

/-- A region is as planned, where there were `stock` blocks in the beginning and `limit` is the
number of blocks up to which the plan is good. -/
structure Follows (stock limit : Nat) (names : List (Option Nat)) (r : Region σ) (p : Plan) :
    Prop where
  limit_eq : limit = stock + p.config.skipAfterFailures + 1
  config : r.pool.config = p.config
  largestSmall : r.pool.largestSmall = p.largestSmall
  size : leastPoolSize ≤ p.config.size
  small : blockHeaderSize + p.largestSmall ≤ p.config.size
  chain : r.pool.chain.Planned p.config.size stock p.used
  slots : List.Forall₂ (LargeRecord.Tracks names) r.pool.large p.slots
  cleanups : r.pool.cleanups.length = p.cleanups
  places : List.Forall₂ (Lies r.pool.chain.bases p.config.size) (served r.heap.journal) p.places

/-- Region and plan both need more than `limit` blocks. -/
def Passed (limit : Nat) (r : Region σ) (p : Plan) : Prop :=
  limit < r.pool.blockCount ∧ limit < p.used.length

/-- An answer is as planned: no address, the address of a site, that of a large buffer, or the
fault foreseen. -/
inductive Agrees (r : Region σ) : Except Fault (Option Nat) → Except Fault (Option Site) → Prop
  | nothing : Agrees r (.ok none) (.ok none)
  | inside {site : Site} {address : Nat} (hsite : site.Marks r.pool.chain.bases address)
      (hoffset : site.offset ≤ r.pool.config.size) : Agrees r (.ok (some address)) (.ok (some site))
  | outside {b : Buffer} (h : b ∈ LargeRecord.buffers r.pool.large) :
      Agrees r (.ok (some b.base)) (.ok none)
  | refused (fault : Fault) : Agrees r (.error fault) (.error fault)

/-- An answer and the region after it are as planned, or the plan is no longer good. -/
def Heeds (stock limit : Nat) (names : List (Option Nat))
    (step : Except Fault (Option Nat) × Region σ)
    (planned : Except Fault (Option Site) × Plan) : Prop :=
  Passed limit step.2 planned.2 ∨
    (step.2.Follows stock limit (names ++ [told step.1]) planned.2 ∧
      Agrees step.2 step.1 planned.1)

variable {stock limit : Nat} {names : List (Option Nat)} {r : Region σ} {p : Plan}

/-- Only the pool and the served ranges matter. -/
theorem Follows.congr {r' : Region σ} (h : r.Follows stock limit names p)
    (hpool : r'.pool = r.pool) (hserved : served r'.heap.journal = served r.heap.journal) :
    r'.Follows stock limit names p := by
  constructor <;> try rw [hpool]
  · exact h.limit_eq
  · exact h.config
  · exact h.largestSmall
  · exact h.size
  · exact h.small
  · exact h.chain
  · exact h.slots
  · exact h.cleanups
  · rw [hserved]
    exact h.places

/-- What was told in the meantime changes nothing. -/
theorem Follows.tell (h : r.Follows stock limit names p) (more : List (Option Nat)) :
    r.Follows stock limit (names ++ more) p :=
  { h with slots := h.slots.imp fun _ _ htracks => htracks.append more }

/-- A region that follows its plan has as many blocks as there were, or as the plan needs. -/
theorem Follows.blockCount_eq (h : r.Follows stock limit names p) :
    r.pool.blockCount = max stock p.used.length :=
  h.chain.length_blocks

theorem Agrees.congr {r' : Region σ} {answer : Except Fault (Option Nat)}
    {planned : Except Fault (Option Site)} (h : Agrees r answer planned)
    (hpool : r'.pool = r.pool) : Agrees r' answer planned := by
  cases h with
  | nothing => exact .nothing
  | inside hsite hoffset =>
    rw [← hpool] at hsite hoffset
    exact .inside hsite hoffset
  | outside h =>
    rw [← hpool] at h
    exact .outside h
  | refused fault => exact .refused fault

theorem Heeds.congr {step step' : Except Fault (Option Nat) × Region σ}
    {planned : Except Fault (Option Site) × Plan} (h : Heeds stock limit names step planned)
    (halike : Alike step' step) : Heeds stock limit names step' planned := by
  unfold Heeds Passed at *
  rw [halike.answer, halike.pool]
  rcases h with hpassed | ⟨hfollows, hagrees⟩
  · exact .inl hpassed
  · exact .inr ⟨hfollows.congr halike.pool (congrArg served halike.journal),
      hagrees.congr halike.pool⟩

/-- More blocks on both sides change nothing. -/
theorem Passed.mono {r' : Region σ} {p' : Plan} (h : Passed limit r p)
    (hblocks : r.pool.blockCount ≤ r'.pool.blockCount)
    (hused : p.used.length ≤ p'.used.length) : Passed limit r' p' :=
  ⟨Nat.lt_of_lt_of_le h.1 hblocks, Nat.lt_of_lt_of_le h.2 hused⟩

/-- If a payload was obtained as planned, its cleanup is registered as planned. -/
theorem Heeds.register {op : Except Fault (Option Nat) × Region σ}
    {planned : Except Fault (Option Site) × Plan} (h : Heeds stock limit names op planned)
    (record : CleanupRecord) {event : Event} (hevent : ∀ n, event ≠ .poolReset n) :
    Heeds stock limit names (Region.register record event op) (Plan.register planned) := by
  rcases h with hpassed | ⟨hfollows, hagrees⟩
  · left
    refine hpassed.mono ?_ ?_
    · unfold Pool.blockCount
      rw [chain_register]
    · rw [Plan.used_register]
  right
  rcases op with ⟨answer, r⟩
  rcases planned with ⟨answer', p⟩
  have hadded : ∀ {names : List (Option Nat)}, r.Follows stock limit names p →
      Follows stock limit names
        ({ r with pool := { r.pool with cleanups := record :: r.pool.cleanups } }.note event)
        { p with cleanups := p.cleanups + 1 } := by
    intro names h
    refine ⟨h.limit_eq, h.config, h.largestSmall, h.size, h.small, h.chain, h.slots, ?_, ?_⟩
    · exact congrArg Nat.succ h.cleanups
    · show List.Forall₂ _ (served (.noted event :: r.heap.journal)) _
      rw [served_noted hevent]
      exact h.places
  cases hagrees with
  | nothing => exact ⟨hadded hfollows, .nothing⟩
  | inside hsite hoffset => exact ⟨hadded hfollows, .inside hsite hoffset⟩
  | outside h => exact ⟨hadded hfollows, .outside h⟩
  | refused fault => exact ⟨hfollows, .refused fault⟩

/-- Whenever the script frees a buffer, no two errands have been told the address of one large
buffer. -/
def Discernible [RawSource σ] (r : Region σ) (names : List (Option Nat)) : List Errand → Prop
  | [] => True
  | errand :: rest =>
    (∀ earlier, errand = .free earlier → r.Clear names) ∧
      (r.carryOut names errand).2.Discernible (names ++ [told (r.carryOut names errand).1]) rest

namespace Follows

/-- What is served from blocks has room in a new one. -/
theorem room (h : r.Follows stock limit names p) {size : Nat}
    (hsize : size ≤ p.largestSmall ∨ size ≤ cleanupRecordSize) :
    blockHeaderSize + size ≤ p.config.size := by
  have hleast := h.size
  have hsmall := h.small
  simp only [leastPoolSize, blockHeaderSize, cleanupRecordSize, largeRecordSize, blockAlign,
    alignUp] at hleast hsmall hsize ⊢
  omega

/-- A block that is there serves. -/
theorem serve (h : r.Follows stock limit names p) {size align start : Nat} {chain : Chain}
    {heap : Heap σ} (hserve : r.pool.chain.serve? size align = some (start, chain))
    (hmarks : (p.reserve size align).1.Marks r.pool.chain.bases start)
    (hoffset : (p.reserve size align).1.offset ≤ p.config.size)
    (hplanned : chain.Planned p.config.size stock (p.reserve size align).2.used)
    (hserved : served heap.journal = (⟨start, size⟩, align) :: served r.heap.journal) :
    Follows stock limit names { pool := { r.pool with chain }, heap } (p.reserve size align).2 where
  limit_eq := h.limit_eq
  config := h.config
  largestSmall := h.largestSmall
  size := h.size
  small := h.small
  chain := hplanned
  slots := h.slots
  cleanups := h.cleanups
  places := by
    show List.Forall₂ (Lies chain.bases p.config.size) (served heap.journal) _
    rw [hserved, Chain.bases_serve? hserve]
    exact .cons ⟨hmarks, hoffset, rfl⟩ h.places

/-- A new block serves as planned if the chain has not grown too often before. -/
theorem grow (h : r.Follows stock limit names p) {size align base : Nat} (heap : Heap σ)
    (hroom : blockHeaderSize + size ≤ p.config.size) (halign : align ∣ blockAlign)
    (hstock : stock ≤ p.used.length)
    (hlimit : p.used.length ≤ stock + p.config.skipAfterFailures)
    (hfit : firstFit p.config.size size align p.used =
      (⟨p.used.length, blockHeaderSize⟩, p.used ++ [blockHeaderSize + size]))
    (hbase : blockAlign ∣ base)
    (hserved : served heap.journal =
      (⟨(Block.fresh base p.config.size).next align, size⟩, align) :: served r.heap.journal) :
    Follows stock limit names
        { pool :=
            { r.pool with
              chain := r.pool.chain.append p.config.skipAfterFailures
                ((Block.fresh base p.config.size).bump size align) }
          heap } (p.reserve size align).2 ∧
      (p.reserve size align).1.Marks
        (r.pool.chain.append p.config.skipAfterFailures
          ((Block.fresh base p.config.size).bump size align)).bases
        ((Block.fresh base p.config.size).next align) := by
  have hbases := Chain.bases_append r.pool.chain p.config.skipAfterFailures
    ((Block.fresh base p.config.size).bump size align)
  have hmarks : (p.reserve size align).1.Marks (r.pool.chain.bases ++ [base])
      ((Block.fresh base p.config.size).next align) := by
    have hcount : p.used.length = r.pool.chain.bases.length := by
      rw [Chain.bases, List.length_map, h.chain.length_blocks, Nat.max_eq_right hstock]
    rw [Plan.reserve, hfit, hcount]
    exact ⟨base, List.getElem?_concat_length, Block.next_fresh hbase halign⟩
  have hoffset : (p.reserve size align).1.offset ≤ p.config.size :=
    Nat.le_trans (Nat.le_add_right _ _) (firstFit_offset_le halign hroom p.used)
  have hplanned := h.chain.append hstock hlimit size halign hbase
  rw [hbases]
  refine ⟨⟨h.limit_eq, h.config, h.largestSmall, h.size, h.small, ?_, h.slots, h.cleanups, ?_⟩,
    hmarks⟩
  · rw [Plan.reserve, hfit]
    exact hplanned
  · show List.Forall₂ (Lies (Chain.bases (Chain.append _ _ _)) _) (served heap.journal) _
    rw [hbases, hserved]
    exact .cons ⟨hmarks, hoffset, rfl⟩
      (h.places.imp fun range place hold => ⟨hold.1.append _, hold.2⟩)

variable [RawSource σ]

/-- **A range is served where first fit puts it**, or the chain has grown too often. -/
theorem reserve (h : r.Follows stock limit names p) (size : Nat) {align : Nat}
    (hsize : size ≤ p.largestSmall ∨ size ≤ cleanupRecordSize) (halign : align ∣ blockAlign)
    (hobliging : Obliging r.heap.journal (r.reserve size align).2.heap.journal) :
    ∃ start r', r.reserve size align = (.ok start, r') ∧
      (Passed limit r' (p.reserve size align).2 ∨
        (r'.Follows stock limit names (p.reserve size align).2 ∧
          (p.reserve size align).1.Marks r'.pool.chain.bases start ∧
          (p.reserve size align).1.offset ≤ p.config.size)) := by
  have hroom := h.room hsize
  have hoffset : (p.reserve size align).1.offset ≤ p.config.size :=
    Nat.le_trans (Nat.le_add_right _ _) (firstFit_offset_le halign hroom p.used)
  rcases h.chain.serve? halign hroom with
    ⟨start, chain, hserve, hmarks, hplanned⟩ | ⟨hnone, hstock, hfit⟩
  · have hreserve : r.reserve size align = (.ok start,
        { pool := { r.pool with chain }
          heap := r.heap.record (.served ⟨start, size⟩ align) }) := by
      rw [Region.reserve, hserve]
    refine ⟨start, _, hreserve, .inr ⟨?_, ?_, hoffset⟩⟩
    · exact h.serve hserve hmarks hoffset hplanned rfl
    · rw [Chain.bases_serve? hserve]
      exact hmarks
  -- no block has room, so the source is asked for one, and grants it
  have hsame := r.heap.served_allocate r.pool.config.blockLayout
  rcases reserve_cases r size align with
    ⟨start, chain, hserve, -⟩ | ⟨base, heap, -, hgrant, heq⟩ | ⟨heap, -, hdecline, heq⟩
  · rw [hnone] at hserve
    cases hserve
  · rw [heq] at hobliging
    rw [hgrant] at hsame
    have hbase : blockAlign ∣ base := Heap.align_dvd_of_allocate hgrant hobliging.lawful
    rw [h.config] at heq
    refine ⟨_, _, heq, ?_⟩
    by_cases hlimit : p.used.length ≤ stock + p.config.skipAfterFailures
    · right
      obtain ⟨hfollows, hmarks⟩ := h.grow ((heap.record (.served
        ⟨(Block.fresh base p.config.size).next align, size⟩ align)).note
          (.poolGrown base p.config.size)) hroom halign hstock hlimit hfit hbase (congrArg _ hsame)
      exact ⟨hfollows, hmarks, hoffset⟩
    · -- the chain had grown often enough for blocks to be given up now
      left
      have hcount : r.pool.chain.blocks.length = p.used.length := by
        rw [h.chain.length_blocks, Nat.max_eq_right hstock]
      have hlimit_eq := h.limit_eq
      constructor
      · show _ < (Chain.append _ _ _).blocks.length
        rw [Chain.length_blocks_append]
        omega
      · rw [Plan.reserve, hfit, List.length_append, List.length_singleton]
        omega
  · rw [heq] at hobliging
    exact absurd hdecline (Heap.allocate_ne_none hobliging)

/-- A large buffer is tracked by a new record, which lies where first fit puts it. -/
theorem link (h : r.Follows stock limit names p) (b : Buffer)
    (hobliging : Obliging r.heap.journal (r.link b).2.heap.journal) :
    Heeds stock limit names (found (r.link b)) (.ok none, p.link names.length) := by
  have hsuffix := suffix_reserve r largeRecordSize wordAlign
  rcases link_cases r b with ⟨address, r₁, hop, heq⟩ | ⟨fault, r₁, hop, heq⟩ <;>
    rw [hop] at hsuffix <;> rw [heq] at hobliging ⊢ <;>
    have hbefore := (hobliging.split hsuffix (List.suffix_cons _ _)).1 <;>
    obtain ⟨start, r', hreserve, hplanned⟩ :=
      h.reserve largeRecordSize (.inr (by decide)) wordAlign_dvd (by rw [hop]; exact hbefore) <;>
    rw [hop] at hreserve <;> cases hreserve
  rcases hplanned with hpassed | ⟨hfollows, -, -⟩
  · exact .inl hpassed
  right
  refine ⟨⟨hfollows.limit_eq, hfollows.config, hfollows.largestSmall, hfollows.size, hfollows.small,
    hfollows.chain, ?_, hfollows.cleanups, hfollows.places⟩, .outside List.mem_cons_self⟩
  refine .cons (.occupied _ List.getElem?_concat_length) ?_
  exact hfollows.slots.imp fun _ _ htracks => htracks.append _

/-- The pool is as planned before a buffer that was granted is tracked. -/
theorem granted (h : r.Follows stock limit names p) {l : Layout} {answer : Option Nat}
    {heap : Heap σ} (hop : r.heap.allocate l = (answer, heap)) :
    Follows stock limit names { r with heap } p := by
  have hsame := r.heap.served_allocate l
  rw [hop] at hsame
  exact h.congr rfl hsame

/-- A large buffer comes into a record left without one where the plan says so, or into a new
record. -/
theorem allocateLarge (h : r.Follows stock limit names p) (l : Layout)
    (hobliging : Obliging r.heap.journal (r.allocateLarge l).2.heap.journal) :
    Heeds stock limit names (found (r.allocateLarge l))
      (p.meet names.length (.large l true)) := by
  have hsuffix := r.heap.suffix_allocate l
  unfold Region.allocateLarge at hobliging ⊢
  rcases hop : r.heap.allocate l with ⟨_ | base, heap⟩ <;> simp only [hop] at hobliging hsuffix ⊢
  · exact absurd hop (Heap.allocate_ne_none hobliging)
  have hheap := h.granted hop
  rcases LargeRecord.occupy?_tracks h.slots ⟨base, l⟩ p.config.largeReuseProbes with
    ⟨records, slots, hrecords, hslots, htracks⟩ | ⟨hrecords, hslots⟩ <;>
    simp only [h.config, hrecords, Plan.meet, hslots] at hobliging ⊢
  · -- a record takes the buffer, so a slot does
    obtain ⟨front, back, -, hafter⟩ := LargeRecord.buffers_occupy? hrecords
    have hmem : (⟨base, l⟩ : Buffer) ∈ LargeRecord.buffers records := by
      rw [hafter]
      exact List.mem_append_right _ List.mem_cons_self
    right
    exact ⟨⟨h.limit_eq, rfl, h.largestSmall, h.size, h.small, h.chain, htracks, h.cleanups,
      hheap.places⟩, Agrees.outside (b := ⟨base, l⟩) hmem⟩
  · refine hheap.link ⟨base, l⟩ ?_
    exact (hobliging.split hsuffix (suffix_link { r with heap } _)).2

theorem allocateAligned (h : r.Follows stock limit names p) {l : Layout} (hsize : 0 < l.size)
    (hvalid : l.Valid)
    (hobliging : Obliging r.heap.journal (r.allocateAligned l.size l.align).2.heap.journal) :
    Heeds stock limit names (found (r.allocateAligned l.size l.align))
      (p.meet names.length (.large l false)) := by
  have hsuffix := r.heap.suffix_allocate l
  rcases allocateAligned_cases r l.size l.align with
    ⟨hinvalid, -⟩ | ⟨heap, -, -, hop, heq⟩ | ⟨base, heap, -, -, hop, heq⟩
  · exact absurd ⟨hsize, hvalid⟩ hinvalid
  · rw [heq] at hobliging
    exact absurd hop (Heap.allocate_ne_none hobliging)
  · rw [hop] at hsuffix
    rw [heq] at hobliging ⊢
    refine (h.granted hop).link ⟨base, l⟩ ?_
    exact (hobliging.split hsuffix (suffix_link { r with heap } _)).2

/-- What is demanded is obtained as planned. -/
theorem meet (h : r.Follows stock limit names p) {d : Demand} (hsound : d.Sound p.largestSmall)
    (hobliging : Obliging r.heap.journal (r.meet d).2.heap.journal) :
    Heeds stock limit names (r.meet d) (p.meet names.length d) := by
  cases d with
  | nothing => exact .inr ⟨h.tell _, .nothing⟩
  | refused fault => exact .inr ⟨h.tell _, .refused fault⟩
  | small size align =>
    obtain ⟨start, r', hreserve, hplanned⟩ := h.reserve size (.inl hsound.1) hsound.2 hobliging
    have hmeet : r.meet (.small size align) = (.ok (some start), r') := by
      rw [Region.meet, hreserve]
      rfl
    rw [hmeet]
    rcases hplanned with hpassed | ⟨hfollows, hmarks, hoffset⟩
    · exact .inl hpassed
    · refine .inr ⟨hfollows.tell _, .inside hmarks ?_⟩
      rw [hfollows.config]
      exact hoffset
  | large l reuse =>
    cases reuse with
    | true => exact h.allocateLarge l hobliging
    | false => exact h.allocateAligned hsound.1 hsound.2 hobliging

/-- A cleanup is registered as planned: its record lies where first fit puts it, and so does its
payload if it is small. -/
theorem addCleanup (h : r.Follows stock limit names p) (size : Nat)
    (hobliging : Obliging r.heap.journal (r.carryOut names (.addCleanup size)).2.heap.journal) :
    Heeds stock limit names (r.carryOut names (.addCleanup size))
      (p.carryOut names.length (.addCleanup size)) := by
  have hrecord := h.reserve cleanupRecordSize (.inr (Nat.le_refl _)) wordAlign_dvd
  have hsuffix := suffix_reserve r cleanupRecordSize wordAlign
  rcases addCleanup_cases r names size with
    ⟨fault, r', hop, heq⟩ | ⟨address, r', record, op, hop, halike, heq⟩ <;>
    rw [hop] at hrecord hsuffix <;> rw [heq] at hobliging ⊢
  · obtain ⟨start, r'', hreserve, -⟩ := hrecord hobliging
    cases hreserve
  have hsteps := steps_meet r' (Demand.sound_ofPayload r'.pool.largestSmall size)
  have hafter := suffix_register record (.cleanupAdded address size) op
  rw [halike.journal] at hafter
  obtain ⟨hmet, -⟩ := hobliging.split (hsuffix.trans hsteps.suffix) hafter
  obtain ⟨hreserved, hpayload⟩ := hmet.split hsuffix hsteps.suffix
  obtain ⟨start, r'', hreserve, hplanned⟩ := hrecord hreserved
  cases hreserve
  rcases hplanned with hpassed | ⟨hfollows, -, -⟩
  · -- however the payload turns out, blocks do not get fewer
    left
    refine hpassed.mono ?_ ?_
    · unfold Pool.blockCount
      rw [chain_register, halike.pool]
      exact blockCount_le hsteps
    · rw [Plan.carryOut, Plan.used_register]
      exact Plan.length_used_meet _ _ _
  · have hlargest := hfollows.largestSmall
    have hmeet := (hfollows.meet (Demand.sound_ofPayload _ size) (hlargest ▸ hpayload)).congr
      (hlargest ▸ halike)
    exact hmeet.register record fun _ => Event.noConfusion

/-- A buffer is freed as planned if the address names it alone. -/
theorem free (h : r.Follows stock limit names p) (earlier : Nat) (hclear : r.Clear names) :
    Heeds stock limit names (r.carryOut names (.free earlier))
      (p.carryOut names.length (.free earlier)) := by
  rcases hname : names[earlier]?.join with _ | address
  · have hslots := LargeRecord.vacate?_eq_none_of_tracks h.slots hname
    simp only [Region.carryOut, Plan.carryOut, hname, hslots]
    exact .inr ⟨h.tell _, .refused _⟩
  have haddress : names[earlier]? = some (some address) := Option.join_eq_some_iff.mp hname
  have halone : address ∈ (LargeRecord.buffers r.pool.large).map Buffer.base →
      ∀ j : Nat, names[j]? = some (some address) → j = earlier := by
    intro hmem j hj
    obtain ⟨b, hb, rfl⟩ := List.mem_map.mp hmem
    exact hclear b hb j earlier hj haddress
  rcases LargeRecord.vacate?_tracks h.slots haddress halone with
    ⟨b, records, slots, hrecords, hslots, htracks⟩ | ⟨hrecords, hslots⟩ <;>
    simp only [Region.carryOut, Plan.carryOut, Region.free, hname, hrecords, hslots]
  · right
    refine ⟨⟨h.limit_eq, h.config, h.largestSmall, h.size, h.small, h.chain, ?_, h.cleanups,
      h.places⟩, .nothing⟩
    exact htracks.imp fun _ _ htracks => htracks.append _
  · exact .inr ⟨h.tell _, .refused _⟩

/-- **An errand is carried out as planned.** -/
theorem carryOut (h : r.Follows stock limit names p) {errand : Errand} (hwell : errand.WellFormed)
    (hclear : ∀ earlier, errand = .free earlier → r.Clear names)
    (hobliging : Obliging r.heap.journal (r.carryOut names errand).2.heap.journal) :
    Heeds stock limit names (r.carryOut names errand) (p.carryOut names.length errand) := by
  cases errand with
  | allocate a =>
    have halike := supply_alike r a
    rw [h.largestSmall] at halike
    have hobliging' : Obliging r.heap.journal (r.supply a).2.heap.journal := hobliging
    rw [halike.journal] at hobliging'
    exact (h.meet (Allocation.sound_demand hwell _) hobliging').congr halike
  | addCleanup size => exact h.addCleanup size hobliging
  | free earlier => exact h.free earlier (hclear earlier rfl)

/-- **A script is carried out as planned**, or both come to need more than `limit` blocks. -/
theorem follow (h : r.Follows stock limit names p) {script : List Errand}
    (hwell : ∀ errand ∈ script, errand.WellFormed) (hclear : r.Discernible names script)
    (hobliging : Obliging r.heap.journal (r.follow names script).2.heap.journal) :
    Passed limit (r.follow names script).2 (p.follow names.length script).2 ∨
      ((∃ names', (r.follow names script).2.Follows stock limit names'
          (p.follow names.length script).2) ∧
        List.Forall₂
          (fun step planned => ∃ names', step.2.Follows stock limit names' planned.2 ∧
            Agrees step.2 step.1 planned.1)
          (r.follow names script).1 (p.follow names.length script).1) := by
  induction script generalizing r names p with
  | nil => exact .inr ⟨⟨names, h⟩, .nil⟩
  | cons errand script ih =>
    rw [List.forall_mem_cons] at hwell
    have hsteps := steps_carryOut r names hwell.1
    have hrest := steps_follow (r.carryOut names errand).2
      (names ++ [told (r.carryOut names errand).1]) hwell.2
    obtain ⟨hfirst, hlater⟩ := hobliging.split hsteps.suffix hrest.suffix
    rcases h.carryOut hwell.1 hclear.1 hfirst with hpassed | ⟨hfollows, hagrees⟩
    · -- both have left the plan, and blocks do not get fewer
      exact .inl (hpassed.mono (blockCount_le hrest) (Plan.length_used_follow _ _ _))
    · have hnames : (names ++ [told (r.carryOut names errand).1]).length = names.length + 1 :=
        List.length_append
      have hrun := ih hfollows hwell.2 hclear.2 hlater
      rw [hnames] at hrun
      rcases hrun with hpassed | ⟨hlast, hall⟩
      · exact .inl hpassed
      · exact .inr ⟨hlast, .cons ⟨_, hfollows, hagrees⟩ hall⟩

end Follows

end Region

end RegionTrie
