import RegionTrie.Proofs.Pool.Plan
import RegionTrie.Proofs.Region.Search

/-!
# Errands of a region

A region carries the errands of a script out one after the other. The answers are kept as the
addresses that errands with later numbers can name. Memory without any bytes has no address of its
own, and neither has what was refused.

## Main definitions

* `Region.supply`, `Region.carryOut`: an allocation, and an errand
* `Region.follow`: a script, with the region after every errand
* `Region.meet`: what an allocation comes down to
* `Region.register`: a cleanup, once its payload was obtained
* `Region.Alike`: operations that differ in what memory holds at most

## Main results

* `Region.supply_alike`, `Region.addCleanup_cases`: errands come down to demands
* `Region.supply_of_small`: a small request is answered with the range served last
* `Region.steps_carryOut`, `Region.steps_of_mem_follow`: errands are steps of the region
* `Region.blockCount_le`: blocks never get fewer
-/

namespace RegionTrie

/-- The address that an answer tells. -/
def told : Except Fault (Option Nat) → Option Nat
  | .ok address => address
  | .error _ => none

namespace Region

variable {σ : Type}

/-- An operation that answers with an address. -/
def found (op : Except Fault Nat × Region σ) : Except Fault (Option Nat) × Region σ :=
  (op.1.map some, op.2)

/-- Two operations answer alike and leave pool and journal alike; only memory may differ. -/
structure Alike (op op' : Except Fault (Option Nat) × Region σ) : Prop where
  answer : op.1 = op'.1
  pool : op.2.pool = op'.2.pool
  journal : op.2.heap.journal = op'.2.heap.journal

theorem Alike.of_eq {op op' : Except Fault (Option Nat) × Region σ} (h : op = op') :
    Alike op op' := by
  rw [h]
  exact ⟨rfl, rfl, rfl⟩

/-- The record of a cleanup comes in front of the others if its payload was obtained. -/
def register (record : CleanupRecord) (event : Event) (op : Except Fault (Option Nat) × Region σ) :
    Except Fault (Option Nat) × Region σ :=
  match op with
  | (.error fault, r) => (.error fault, r)
  | (.ok address, r) =>
    (.ok address,
      { r with pool := { r.pool with cleanups := record :: r.pool.cleanups } }.note event)

theorem chain_register (record : CleanupRecord) (event : Event)
    (op : Except Fault (Option Nat) × Region σ) :
    (register record event op).2.pool.chain = op.2.pool.chain := by
  rcases op with ⟨fault | address, r⟩ <;> rfl

theorem suffix_register (record : CleanupRecord) (event : Event)
    (op : Except Fault (Option Nat) × Region σ) :
    op.2.heap.journal <:+ (register record event op).2.heap.journal := by
  rcases op with ⟨fault | address, r⟩
  · exact List.suffix_refl _
  · exact List.suffix_cons _ _

variable [RawSource σ]

/-- Obtain memory. -/
def supply (r : Region σ) : Allocation → Except Fault (Option Nat) × Region σ
  | .bytes size => found (r.allocate size)
  | .packed size => found (r.allocatePacked size)
  | .zeroed size => found (r.allocateZeroed size)
  | .layout l =>
    let op := r.allocateLayout l
    (op.1.map fun start => if l.size = 0 then none else some start, op.2)
  | .aligned size align => found (r.allocateAligned size align)

/-- Carry an errand out, given what earlier errands were told. A cleanup tells where its payload
is. -/
def carryOut (r : Region σ) (names : List (Option Nat)) :
    Errand → Except Fault (Option Nat) × Region σ
  | .allocate a => r.supply a
  | .addCleanup size =>
    match r.addCleanup size with
    | (.error fault, r) => (.error fault, r)
    | (.ok c, r) =>
      (.ok (if size = 0 then none else (r.cleanup? c).map fun record => record.payload.start), r)
  | .free earlier =>
    match names[earlier]?.join with
    | none => (.error .invalidFree, r)
    | some address =>
      let op := r.free address
      (op.1.map fun _ => none, op.2)

/-- Carry the errands of a script out one after the other. Listed are the answers, each with the
region after it. -/
def follow (r : Region σ) (names : List (Option Nat)) :
    List Errand → List (Except Fault (Option Nat) × Region σ) × Region σ
  | [] => ([], r)
  | errand :: rest =>
    let step := r.carryOut names errand
    let run := step.2.follow (names ++ [told step.1]) rest
    (step :: run.1, run.2)

/-- Obtain what is demanded. -/
def meet (r : Region σ) : Demand → Except Fault (Option Nat) × Region σ
  | .nothing => (.ok none, r)
  | .refused fault => (.error fault, r)
  | .small size align => found (r.reserve size align)
  | .large l true => found (r.allocateLarge l)
  | .large l false => found (r.allocateAligned l.size l.align)

/-! ## Errands come down to demands -/

theorem allocateOversize_eq (r : Region σ) {size align : Nat} (h : ¬ size ≤ r.pool.largestSmall) :
    found (r.allocateOversize size) = r.meet (.ofSize r.pool.largestSmall size align) := by
  rw [Demand.ofSize, if_neg h]
  by_cases hvalid : (⟨size, wordAlign⟩ : Layout).Valid
  · rw [allocateOversize, if_pos hvalid, if_pos hvalid, meet]
  · rw [allocateOversize, if_neg hvalid, if_neg hvalid]
    rfl

theorem allocate_eq_meet (r : Region σ) (size : Nat) :
    found (r.allocate size) = r.meet (.ofSize r.pool.largestSmall size wordAlign) := by
  by_cases h : size ≤ r.pool.largestSmall
  · rw [allocate, Demand.ofSize, if_pos h, if_pos h, meet]
  · rw [allocate, if_neg h, allocateOversize_eq r h]

theorem allocatePacked_eq_meet (r : Region σ) (size : Nat) :
    found (r.allocatePacked size) = r.meet (.ofSize r.pool.largestSmall size 1) := by
  by_cases h : size ≤ r.pool.largestSmall
  · rw [allocatePacked, Demand.ofSize, if_pos h, if_pos h, meet]
  · rw [allocatePacked, if_neg h, allocateOversize_eq r h]

/-- Zeros are bytes, but for what memory holds. -/
theorem allocateZeroed_alike (r : Region σ) (size : Nat) :
    Alike (found (r.allocateZeroed size))
      (r.meet (.ofSize r.pool.largestSmall size wordAlign)) := by
  rw [← allocate_eq_meet]
  unfold allocateZeroed
  rcases r.allocate size with ⟨fault | start, r'⟩
  · exact ⟨rfl, rfl, rfl⟩
  · exact ⟨rfl, rfl, rfl⟩

theorem allocateLayout_eq_meet (r : Region σ) (l : Layout) :
    r.supply (.layout l) = r.meet (.ofLayout r.pool.largestSmall l) := by
  unfold supply allocateLayout Demand.ofLayout
  by_cases hzero : l.size = 0
  · simp only [if_pos hzero]
    rfl
  simp only [if_neg hzero]
  split
  · rfl
  · split <;> rfl

theorem allocateAligned_eq_meet (r : Region σ) (size align : Nat) :
    found (r.allocateAligned size align) = r.meet (.ofAligned size align) := by
  unfold Demand.ofAligned
  split
  · rfl
  · next hinvalid =>
    unfold allocateAligned
    rw [if_neg hinvalid]
    rfl

/-- An allocation is what it comes down to. -/
theorem supply_alike (r : Region σ) (a : Allocation) :
    Alike (r.supply a) (r.meet (a.demand r.pool.largestSmall)) := by
  cases a with
  | bytes size => exact .of_eq (allocate_eq_meet r size)
  | packed size => exact .of_eq (allocatePacked_eq_meet r size)
  | zeroed size => exact allocateZeroed_alike r size
  | layout l => exact .of_eq (allocateLayout_eq_meet r l)
  | aligned size align => exact .of_eq (allocateAligned_eq_meet r size align)

/-- **A small request is answered with the range served last.** The range is looked for like every
other one, and the address that is told is where it starts. -/
theorem supply_of_small (r : Region σ) {a : Allocation} {size align : Nat}
    (hsmall : a.demand r.pool.largestSmall = .small size align) :
    (r.supply a).1 = (r.reserve size align).1.map some ∧
      (r.supply a).2.pool = (r.reserve size align).2.pool ∧
      ∀ start, (r.supply a).1 = .ok (some start) →
        Journal.served (r.supply a).2.heap.journal =
          (⟨start, size⟩, align) :: Journal.served r.heap.journal := by
  obtain ⟨hanswer, hpool, hjournal⟩ := hsmall ▸ r.supply_alike a
  refine ⟨hanswer, hpool, fun start hstart => ?_⟩
  rw [hjournal]
  rw [hanswer] at hstart
  rcases hop : r.reserve size align with ⟨fault | start', r'⟩ <;>
    simp only [meet, found, hop, Except.map] at hstart ⊢ <;> cases hstart
  exact served_of_reserve hop

/-- A payload is what it comes down to, and an empty one is nowhere. -/
theorem allocatePayload_alike (r : Region σ) (size : Nat) :
    Alike ((r.allocatePayload size).1.map fun start => if size = 0 then none else some start,
        (r.allocatePayload size).2)
      (r.meet (.ofPayload r.pool.largestSmall size)) := by
  unfold allocatePayload Demand.ofPayload
  by_cases hzero : size = 0
  · simp only [if_pos hzero]
    exact ⟨rfl, rfl, rfl⟩
  · simp only [if_neg hzero]
    exact allocateZeroed_alike r size

/-- A cleanup is refused for want of a place for its record, or comes down to its payload. -/
theorem addCleanup_cases (r : Region σ) (names : List (Option Nat)) (size : Nat) :
    (∃ fault r', r.reserve cleanupRecordSize wordAlign = (.error fault, r') ∧
      r.carryOut names (.addCleanup size) = (.error fault, r')) ∨
    ∃ address r' record op, r.reserve cleanupRecordSize wordAlign = (.ok address, r') ∧
      Alike op (r'.meet (.ofPayload r'.pool.largestSmall size)) ∧
      r.carryOut names (.addCleanup size) = register record (.cleanupAdded address size) op := by
  unfold carryOut addCleanup
  rcases hrecord : r.reserve cleanupRecordSize wordAlign with ⟨fault | address, r'⟩
  · exact .inl ⟨fault, r', rfl, rfl⟩
  right
  have halike := allocatePayload_alike r' size
  rcases hpayload : r'.allocatePayload size with ⟨fault | start, r''⟩ <;> rw [hpayload] at halike
  · refine ⟨address, r', ⟨0, address, ⟨0, size⟩, none⟩, _, rfl, halike, ?_⟩
    simp only [hpayload]
    rfl
  · refine ⟨address, r', ⟨r''.pool.cleanups.length, address, ⟨start, size⟩, none⟩, _, rfl,
      halike, ?_⟩
    simp only [hpayload, cleanup?, CleanupRecord.find?, note, Heap.note, Heap.record, register,
      Except.map, List.find?_cons_of_pos, beq_self_eq_true, Option.map_some]

/-! ## Errands are steps -/

theorem steps_meet (r : Region σ) {d : Demand} (h : d.Sound r.pool.largestSmall) :
    Steps r (r.meet d).2 := by
  cases d with
  | nothing => exact .refl
  | refused fault => exact .refl
  | small size align => exact (Step.reserve r (.inl h.1) h.2).steps
  | large l reuse =>
    cases reuse with
    | true => exact (Step.allocateLarge r h.1 h.2).steps
    | false => exact (Step.allocateAligned r l.size l.align).steps

theorem steps_supply (r : Region σ) {a : Allocation} (h : a.WellFormed) :
    Steps r (r.supply a).2 := by
  cases a with
  | bytes size => exact steps_allocate r size
  | packed size => exact steps_allocatePacked r size
  | zeroed size => exact steps_allocateZeroed r size
  | layout l => exact steps_allocateLayout r h
  | aligned size align => exact (Step.allocateAligned r size align).steps

theorem steps_carryOut (r : Region σ) (names : List (Option Nat)) {errand : Errand}
    (h : errand.WellFormed) : Steps r (r.carryOut names errand).2 := by
  cases errand with
  | allocate a => exact steps_supply r h
  | addCleanup size =>
    have hadd := steps_addCleanup r size
    unfold carryOut
    dsimp only
    rcases hop : r.addCleanup size with ⟨fault | c, r'⟩ <;> rw [hop] at hadd <;> exact hadd
  | free earlier =>
    unfold carryOut
    dsimp only
    split
    · exact .refl
    · exact (Step.free r _).steps

/-- A script comes down to steps. -/
theorem steps_follow (r : Region σ) (names : List (Option Nat)) {script : List Errand}
    (h : ∀ errand ∈ script, errand.WellFormed) : Steps r (r.follow names script).2 := by
  induction script generalizing r names with
  | nil => exact .refl
  | cons errand script ih =>
    rw [List.forall_mem_cons] at h
    exact (steps_carryOut r names h.1).trans (ih _ _ h.2)

/-- Every region that a script leads to is reached by steps, and leads to the last one by steps. -/
theorem steps_of_mem_follow (r : Region σ) (names : List (Option Nat)) {script : List Errand}
    (h : ∀ errand ∈ script, errand.WellFormed) {step : Except Fault (Option Nat) × Region σ}
    (hstep : step ∈ (r.follow names script).1) :
    Steps r step.2 ∧ Steps step.2 (r.follow names script).2 := by
  induction script generalizing r names with
  | nil => cases hstep
  | cons errand script ih =>
    rw [List.forall_mem_cons] at h
    have hfirst := steps_carryOut r names h.1
    rcases List.mem_cons.mp hstep with rfl | hstep
    · exact ⟨hfirst, steps_follow _ _ h.2⟩
    · obtain ⟨hbefore, hafter⟩ := ih _ _ h.2 hstep
      exact ⟨hfirst.trans hbefore, hafter⟩

theorem length_blocks_advance {config : PoolConfig} {c c' : Chain} (h : c.Advance config c') :
    c.blocks.length ≤ c'.blocks.length := by
  cases h with
  | serve hahead hfront hroom =>
    rw [Chain.blocks, hahead, Chain.blocks]
    simp
  | grow base hnone =>
    rw [Chain.length_blocks_append]
    exact Nat.le_succ _

/-- Blocks never get fewer. -/
theorem blockCount_le {r r' : Region σ} (h : Steps r r') :
    r.pool.blockCount ≤ r'.pool.blockCount := by
  induction h with
  | refl => exact Nat.le_refl _
  | tail _ hstep ih =>
    refine Nat.le_trans ih ?_
    unfold Pool.blockCount
    rcases hstep.chain_cases with hsame | hadvance | rfl
    · rw [hsame]
    · exact length_blocks_advance hadvance
    · rw [pool_reset, Chain.blocks_rewind, List.length_map]

end Region

end RegionTrie
