import RegionTrie.Proofs.Pool.FirstFit

/-!
# Plans

A script is a list of errands for a region: memory to be allocated, cleanups to be registered, and
large buffers to be freed that earlier errands of the script have obtained. A plan foresees what
becomes of a script by first fit over offsets. It knows no address: a range is known by its site,
and a large buffer by the number of the errand that obtained it.

## Main definitions

* `Allocation`, `Errand`: what a script asks for
* `Demand`: what an allocation comes down to, a range, a large buffer, or neither
* `Plan`: the blocks in use, the records of large buffers, and the ranges with their sites
* `Plan.carryOut`, `Plan.follow`: an errand and a script as planned

## Main results

* `Allocation.sound_demand`: what an allocation comes down to is small or has a valid layout
* `Plan.length_used_carryOut`, `Plan.length_used_follow`: the blocks in use never get fewer
-/

namespace RegionTrie

/-- A request for memory. -/
inductive Allocation where
  | bytes (size : Nat)
  | packed (size : Nat)
  | zeroed (size : Nat)
  | layout (l : Layout)
  | aligned (size align : Nat)

/-- One errand of a script. Errands are numbered from zero on, and `earlier` is such a number. -/
inductive Errand where
  | allocate (a : Allocation)
  | addCleanup (size : Nat)
  | free (earlier : Nat)

/-- The alignment that a layout names is a power of two. -/
def Allocation.WellFormed : Allocation → Prop
  | .layout l => l.align.isPowerOfTwo
  | _ => True

/-- The allocation that is asked for, if any, is well-formed. -/
def Errand.WellFormed : Errand → Prop
  | .allocate a => a.WellFormed
  | _ => True

/-! ## What allocations come down to -/

/-- What a request for memory comes down to. -/
inductive Demand where
  /-- No bytes at all. -/
  | nothing
  /-- What is no layout. -/
  | refused (fault : Fault)
  /-- A range inside a block. -/
  | small (size align : Nat)
  /-- A large buffer. A record left without a buffer may track it if `reuse` is set. -/
  | large (l : Layout) (reuse : Bool)

namespace Demand

/-- So many bytes: a range inside a block if they count as small, with the alignment given, or else
a large buffer. -/
def ofSize (largestSmall size align : Nat) : Demand :=
  if size ≤ largestSmall then .small size align
  else if (⟨size, wordAlign⟩ : Layout).Valid then .large ⟨size, wordAlign⟩ true
  else .refused (.invalidLayout size wordAlign)

/-- Memory for a layout. -/
def ofLayout (largestSmall : Nat) (l : Layout) : Demand :=
  if l.size = 0 then .nothing
  else if l.size ≤ largestSmall ∧ l.align ≤ blockAlign then .small l.size l.align
  else if (l.alignTo wordAlign).Valid then .large (l.alignTo wordAlign) true
  else .refused (.invalidLayout l.size l.align)

/-- A large buffer of its own. -/
def ofAligned (size align : Nat) : Demand :=
  if 0 < size ∧ (⟨size, align⟩ : Layout).Valid then .large ⟨size, align⟩ false
  else .refused (.invalidLayout size align)

/-- The payload of a cleanup. -/
def ofPayload (largestSmall size : Nat) : Demand :=
  if size = 0 then .nothing else .ofSize largestSmall size wordAlign

/-- A range is small and not aligned to more than blocks are, and a large buffer has some bytes and
a valid layout. -/
def Sound (largestSmall : Nat) : Demand → Prop
  | .nothing | .refused _ => True
  | .small size align => size ≤ largestSmall ∧ align ∣ blockAlign
  | .large l _ => 0 < l.size ∧ l.Valid

theorem sound_ofSize {largestSmall size align : Nat} (h : align ∣ blockAlign) :
    (ofSize largestSmall size align).Sound largestSmall := by
  unfold ofSize
  split
  · next hsmall => exact ⟨hsmall, h⟩
  · next hlarge =>
    split
    · next hvalid => exact ⟨Nat.zero_lt_of_lt (Nat.lt_of_not_le hlarge), hvalid⟩
    · trivial

theorem sound_ofLayout (largestSmall : Nat) {l : Layout} (h : l.align.isPowerOfTwo) :
    (ofLayout largestSmall l).Sound largestSmall := by
  unfold ofLayout
  split
  · trivial
  · next hsize =>
    split
    · next hsmall => exact ⟨hsmall.1, Region.dvd_blockAlign h hsmall.2⟩
    · split
      · next hvalid => exact ⟨Nat.pos_of_ne_zero hsize, hvalid⟩
      · trivial

theorem sound_ofAligned (largestSmall size align : Nat) :
    (ofAligned size align).Sound largestSmall := by
  unfold ofAligned
  split
  · next hvalid => exact hvalid
  · trivial

theorem sound_ofPayload (largestSmall size : Nat) :
    (ofPayload largestSmall size).Sound largestSmall := by
  unfold ofPayload
  split
  · trivial
  · exact sound_ofSize Region.wordAlign_dvd

end Demand

/-- What the allocation comes down to. -/
def Allocation.demand (largestSmall : Nat) : Allocation → Demand
  | .bytes size | .zeroed size => .ofSize largestSmall size wordAlign
  | .packed size => .ofSize largestSmall size 1
  | .layout l => .ofLayout largestSmall l
  | .aligned size align => .ofAligned size align

theorem Allocation.sound_demand {a : Allocation} (h : a.WellFormed) (largestSmall : Nat) :
    (a.demand largestSmall).Sound largestSmall := by
  cases a with
  | bytes size => exact Demand.sound_ofSize Region.wordAlign_dvd
  | packed size => exact Demand.sound_ofSize (Nat.one_dvd _)
  | zeroed size => exact Demand.sound_ofSize Region.wordAlign_dvd
  | layout l => exact Demand.sound_ofLayout largestSmall h
  | aligned size align => exact Demand.sound_ofAligned largestSmall size align

/-! ## Plans -/

/-- What is foreseen of a pool. -/
structure Plan where
  config : PoolConfig
  largestSmall : Nat
  /-- The first free offset of every block in use. -/
  used : List Nat := []
  /-- For every record of a large buffer, newest first, the errand that obtained the buffer, unless
  that was freed. -/
  slots : List (Option Nat) := []
  /-- The number of cleanup records. -/
  cleanups : Nat := 0
  /-- The ranges served, newest first, with their sites and sizes. -/
  places : List (Site × Nat) := []

/-- The plan for a pool from which nothing has been handed out. -/
def Pool.plan (p : Pool) : Plan :=
  { config := p.config, largestSmall := p.largestSmall }

namespace Plan

/-- Let the first vacant slot among the first `probes` have the buffer of errand `n`. -/
def occupy? (n probes : Nat) (slots : List (Option Nat)) : Option (List (Option Nat)) :=
  match probes, slots with
  | 0, _ => none
  | _, [] => none
  | _ + 1, none :: rest => some (some n :: rest)
  | probes + 1, some m :: rest => (occupy? n probes rest).map (some m :: ·)

/-- Vacate the slot that has the buffer of errand `n`. -/
def vacate? (n : Nat) : List (Option Nat) → Option (List (Option Nat))
  | [] => none
  | slot :: rest => if slot = some n then some (none :: rest) else (vacate? n rest).map (slot :: ·)

/-- A range is served where first fit says. -/
def reserve (p : Plan) (size align : Nat) : Site × Plan :=
  let fit := firstFit p.config.size size align p.used
  (fit.1, { p with used := fit.2, places := (fit.1, size) :: p.places })

/-- A new record has the buffer of errand `n`. -/
def link (p : Plan) (n : Nat) : Plan :=
  let q := (p.reserve largeRecordSize wordAlign).2
  { q with slots := some n :: q.slots }

/-- Errand `n` obtains what is demanded. The answer is a site, or none for a large buffer. -/
def meet (p : Plan) (n : Nat) : Demand → Except Fault (Option Site) × Plan
  | .nothing => (.ok none, p)
  | .refused fault => (.error fault, p)
  | .small size align =>
    let served := p.reserve size align
    (.ok (some served.1), served.2)
  | .large _ true =>
    match occupy? n p.config.largeReuseProbes p.slots with
    | some slots => (.ok none, { p with slots })
    | none => (.ok none, p.link n)
  | .large _ false => (.ok none, p.link n)

/-- A cleanup record is added for a payload that was obtained. -/
def register (met : Except Fault (Option Site) × Plan) : Except Fault (Option Site) × Plan :=
  match met with
  | (.error fault, p) => (.error fault, p)
  | (.ok site, p) => (.ok site, { p with cleanups := p.cleanups + 1 })

/-- Errand `n` is carried out. -/
def carryOut (p : Plan) (n : Nat) : Errand → Except Fault (Option Site) × Plan
  | .allocate a => p.meet n (a.demand p.largestSmall)
  | .addCleanup size =>
    let q := (p.reserve cleanupRecordSize wordAlign).2
    register (q.meet n (.ofPayload q.largestSmall size))
  | .free earlier =>
    match vacate? earlier p.slots with
    | some slots => (.ok none, { p with slots })
    | none => (.error .invalidFree, p)

/-- The errands of a script are carried out one after the other, numbered from `n` on. Listed are
the answers, each with the plan after it. -/
def follow (p : Plan) (n : Nat) :
    List Errand → List (Except Fault (Option Site) × Plan) × Plan
  | [] => ([], p)
  | errand :: rest =>
    let step := p.carryOut n errand
    let run := step.2.follow (n + 1) rest
    (step :: run.1, run.2)

theorem used_register (met : Except Fault (Option Site) × Plan) :
    (register met).2.used = met.2.used := by
  rcases met with ⟨fault | site, p⟩ <;> rfl

variable (p : Plan) (n : Nat)

theorem length_used_reserve (size align : Nat) :
    p.used.length ≤ (p.reserve size align).2.used.length :=
  (length_firstFit p.config.size size align p.used).1

theorem length_used_meet (d : Demand) : p.used.length ≤ (p.meet n d).2.used.length := by
  cases d with
  | nothing => exact Nat.le_refl _
  | refused fault => exact Nat.le_refl _
  | small size align => exact p.length_used_reserve size align
  | large l reuse =>
    cases reuse with
    | false => exact p.length_used_reserve _ _
    | true =>
      unfold meet
      dsimp only
      split
      · exact Nat.le_refl _
      · exact p.length_used_reserve _ _

theorem length_used_carryOut (errand : Errand) :
    p.used.length ≤ (p.carryOut n errand).2.used.length := by
  cases errand with
  | allocate a => exact p.length_used_meet n _
  | addCleanup size =>
    rw [carryOut, used_register]
    exact Nat.le_trans (p.length_used_reserve _ _) (length_used_meet _ n _)
  | free earlier =>
    unfold carryOut
    dsimp only
    split <;> exact Nat.le_refl _

/-- The blocks in use never get fewer. -/
theorem length_used_follow (script : List Errand) :
    p.used.length ≤ (p.follow n script).2.used.length := by
  induction script generalizing p n with
  | nil => exact Nat.le_refl _
  | cons errand script ih => exact Nat.le_trans (p.length_used_carryOut n errand) (ih _ _)

end Plan

end RegionTrie
