import Mathlib.Data.List.Infix
import Mathlib.Order.Bounds.Basic
import RegionTrie.Heap.Tracker
import RegionTrie.Proofs.Region.Reuse
import RegionTrie.Proofs.Session.Capacity
import RegionTrie.Proofs.Session.Loans

/-!
# How many records there are

As long as no more large buffers are live at once than records are asked for an empty one, there are
never more records than large buffers were live at once: every record was linked when all others had
buffers. So once there are as many as are ever needed, large buffers come and go without a trace in
any block. This does not extend to buffers at an alignment of their own, slabs among them, which
always get a new record.

## Main definitions

* `Session.Turn.Plain`: a turn that asks for no such buffer and does not start over
* `Session.Turn.Bulk`: a turn in which a large buffer may come or go, and nothing else

## Main results

* `Session.recycles_take`: a plain turn links a record only where it is needed
* `Session.records_at_peak`: there are as many records as large buffers were live at most
-/

namespace RegionTrie

/-- The depth is refused before anything is asked for. -/
def DepthChoice.Refused (keys : KeyKind) (depth : DepthChoice) : Prop :=
  match depth.resolve with
  | .error _ => True
  | .ok (.depth levels) => min (PrefixKey.width keys.Carrier) deepestPreallocation < levels
  | .ok _ => False

namespace Request

/-- The request does not start over, and asks for no buffer at an alignment of its own. A new trie
does, for its root, unless its depth is refused. -/
def Plain : Request → Prop
  | .reset | .allocateAligned .. => False
  | .createTrie _ keys _ depth => depth.Refused keys
  | _ => True

/-- The request frees a large buffer, or asks for one that is too large for any block, and for
nothing besides. -/
def Bulk (p : Pool) : Request → Prop
  | .free .. => True
  | .allocateAligned .. | .addCleanup .. => False
  | q => (q.layout? p).isSome

/-- What is too large for blocks depends on one number only. -/
theorem layout?_congr {p p' : Pool} (h : p'.largestSmall = p.largestSmall) (q : Request) :
    q.layout? p' = q.layout? p := by
  cases q <;> simp only [layout?, Pool.layoutOf?, Pool.layoutFor?, h]

theorem Bulk.congr {p p' : Pool} {q : Request} (h : q.Bulk p)
    (heq : p'.largestSmall = p.largestSmall) : q.Bulk p' := by
  have hlayout := q.layout?_congr heq
  cases q with
  | free => trivial
  | allocateAligned | addCleanup => exact h
  | _ =>
    change (layout? p _).isSome at h
    change (layout? p' _).isSome
    rwa [hlayout]

end Request

namespace Session

open Region

variable {σ : Type}

/-- A turn that does not start over, and asks for no buffer at an alignment of its own. -/
def Turn.Plain : Turn σ → Prop
  | .ask q _ => q.Plain
  | _ => True

/-- A turn in which a large buffer is freed or asked for, or the source changes. -/
def Turn.Bulk (p : Pool) : Turn σ → Prop
  | .ask q _ => q.Bulk p
  | _ => True

theorem Turn.Bulk.congr {p p' : Pool} {turn : Turn σ} (h : turn.Bulk p)
    (heq : p'.largestSmall = p.largestSmall) : turn.Bulk p' := by
  cases turn with
  | ask q hq => exact Request.Bulk.congr h heq
  | free | adjust => trivial

variable {s : Session σ}

/-! ## Turns -/

/-- Where there is no trie, requests about tries are refused. -/
theorem withTrie_of_none (h : s.tries = {}) (n : Nat)
    (f : SessionTrie → Except Refusal Answer × Session σ) : (s.withTrie n f).2 = s := by
  unfold withTrie
  rw [h]
  rfl

variable [RawSource σ]

theorem createTrie_refused {keys : KeyKind} {depth : DepthChoice} (h : depth.Refused keys)
    (s : Session σ) (n : Nat) (values : ValueKind) :
    (s.createTrie n keys values depth).2 = s := by
  unfold createTrie DepthChoice.Refused at *
  cases hdepth : depth.resolve with
  | error fault => rfl
  | ok p =>
  rw [hdepth] at h
  cases p with
  | none | default => exact h.elim
  | depth levels =>
    have hdeep : min (PrefixKey.width keys.Carrier) deepestPreallocation <
        (Preallocation.depth levels).levels
          (SlabShape.ofValue values.layout s.region.heap.pageSize) := h
    simp only [Trie.create, if_pos hdeep]

/-- No plain turn leads to a trie. -/
theorem tries_take (h : s.tries = {}) {turn : Turn σ} (hplain : turn.Plain) :
    (s.take turn).tries = {} := by
  cases turn with
  | free address => exact h
  | adjust f => exact h
  | ask q hq =>
    refine Eq.trans ?_ h
    cases q with
    | allocateAligned | reset => exact hplain.elim
    | createTrie n keys values depth =>
      exact congrArg tries (createTrie_refused hplain s n values)
    | insert | delete | get | find | findMany | trieSummary =>
      exact congrArg tries (withTrie_of_none h _ _)
    | dropTrie n =>
      simp only [take, perform, h]
      rfl
    | _ => exact tries_perform rfl Request.noConfusion

/-- A plain request asks the records for a large buffer, if it is for one. Two kinds of requests do
more: a buffer may be freed, and a cleanup has a record of its own. -/
theorem attends_perform (hnone : s.tries = {}) {q : Request} (hplain : q.Plain)
    (hfree : ∀ range offset, q ≠ .free range offset)
    (hcleanup : ∀ n size handler, q ≠ .addCleanup n size handler) :
    s.region.Attends (q.layout? s.region.pool) (s.perform q).2.region := by
  cases q with
  | allocate keep size =>
    simp only [perform, region_afterRange]
    exact s.region.attends_allocate size
  | allocatePacked keep size =>
    simp only [perform, region_afterRange]
    exact s.region.attends_allocatePacked size
  | allocateZeroed keep size =>
    simp only [perform, region_afterRange]
    exact s.region.attends_allocateZeroed size
  | allocateLayout keep l =>
    simp only [perform, region_afterLayout]
    exact s.region.attends_allocateLayout l
  | allocateValue keep kind value =>
    simp only [perform, region_afterLayout]
    have hcopy := s.region.attends_allocateCopy kind.layout.align (kind.encode value)
    rwa [kind.length_encode] at hcopy
  | allocateSlice keep kind values =>
    simp only [perform, region_afterLayout]
    have hcopy := s.region.attends_allocateCopy kind.layout.align (kind.encodeAll values)
    rwa [kind.length_encodeAll] at hcopy
  | allocateText keep text =>
    simp only [perform, region_afterLayout]
    have hcopy := s.region.attends_allocateCopy 1 text.toUTF8.toList
    rwa [length_utf8] at hcopy
  | allocateAligned | reset => exact hplain.elim
  | free range offset => exact absurd rfl (hfree range offset)
  | addCleanup n size handler => exact absurd rfl (hcleanup n size handler)
  | createTrie n keys values depth =>
    exact .small (congrArg (·.region.pool.large) (createTrie_refused hplain s n values))
  | insert n | delete n =>
    exact .small (congrArg (·.region.pool.large) (withTrie_of_none hnone n _))
  | _ => exact .small (s.large_perform trivial)

theorem recycles_addCleanup (s : Session σ) (n size : Nat) (handler : Option Nat) :
    s.region.Recycles (s.addCleanup n size handler).2.region := by
  have hadd := s.region.recycles_addCleanup size
  unfold addCleanup
  cases handler with
  | none =>
    dsimp only
    rcases hop : s.region.addCleanup size with ⟨fault | c, r⟩ <;> rw [hop] at hadd <;>
      exact hadd
  | some id =>
    dsimp only [addCleanupWith]
    rcases hop : s.region.addCleanup size with ⟨fault | c, r⟩ <;> rw [hop] at hadd
    · have hpool := congrArg Pool.large (r.pool_discard (some id))
      exact hadd.congr rfl rfl hpool
    · have hpool := congrArg Pool.large (r.pool_discard (r.handler? c))
      exact hadd.congr rfl rfl hpool

/-- **A plain turn links a record only where it is needed.** -/
theorem recycles_take (hnone : s.tries = {}) {turn : Turn σ} (hplain : turn.Plain) :
    s.region.Recycles (s.take turn).region := by
  cases turn with
  | free address => exact s.region.recycles_free address
  | adjust f => exact recycles_of_large_eq rfl
  | ask q hq =>
    have hask : q.Plain := hplain
    cases q with
    | free range offset =>
      simp only [take, perform, withRange]
      cases s.ranges.get? range with
      | none => exact recycles_of_large_eq rfl
      | some e => exact s.region.recycles_free (e.start + offset)
    | addCleanup n size handler => exact recycles_addCleanup s n size handler
    | _ =>
      refine (attends_perform hnone hask ?_ ?_).recycles
      · intro range offset
        exact Request.noConfusion
      · intro n size handler
        exact Request.noConfusion

/-- If a bulk turn links no record, it changes nothing in the chain of blocks. -/
theorem chain_take (hnone : s.tries = {}) {turn : Turn σ} (hplain : turn.Plain)
    (hbulk : turn.Bulk s.region.pool)
    (hlength : (s.take turn).region.pool.large.length = s.region.pool.large.length) :
    (s.take turn).region.pool.chain = s.region.pool.chain := by
  have hchain : ∀ address, (s.region.free address).2.pool.chain = s.region.pool.chain := by
    intro address
    rcases free_cases s.region address with ⟨-, heq⟩ | ⟨b, large, -, heq⟩ <;> rw [heq]
    rfl
  cases turn with
  | free address => exact hchain address
  | adjust f => rfl
  | ask q hq =>
    have hask : q.Plain := hplain
    cases q with
    | free range offset =>
      simp only [take, perform, withRange]
      cases s.ranges.get? range with
      | none => rfl
      | some e => exact hchain (e.start + offset)
    | allocateAligned | addCleanup => exact hbulk.elim
    | _ =>
      -- the source is asked, and a record that was there takes nothing from a block
      obtain ⟨l, hl⟩ := Option.isSome_iff_exists.mp hbulk
      have hattends := attends_perform hnone hask (fun _ _ => Request.noConfusion)
        fun _ _ _ => Request.noConfusion
      rw [hl] at hattends
      exact hattends.chain_eq hlength

/-! ## Runs -/

theorem tries_play (h : s.tries = {}) {turns : List (Turn σ)}
    (hplain : ∀ turn ∈ turns, turn.Plain) : (s.play turns).tries = {} := by
  induction turns generalizing s with
  | nil => exact h
  | cons turn rest ih =>
    rw [List.forall_mem_cons] at hplain
    exact ih (tries_take h hplain.1) hplain.2

/-- No plain turn takes a record away. -/
theorem length_le_play (hnone : s.tries = {}) {turns : List (Turn σ)}
    (hplain : ∀ turn ∈ turns, turn.Plain) :
    s.region.pool.large.length ≤ (s.play turns).region.pool.large.length := by
  induction turns generalizing s with
  | nil => exact Nat.le_refl _
  | cons turn rest ih =>
    rw [List.forall_mem_cons] at hplain
    refine Nat.le_trans ?_ (ih (tries_take hnone hplain.1) hplain.2)
    cases recycles_take hnone hplain.1 with
    | kept hlength => exact hlength.ge
    | linked address b hlarge =>
      rw [hlarge, List.length_cons]
      exact Nat.le_succ _

/-- Either no record is linked, or all records have buffers at some moment of the run. -/
theorem exists_all_held {probes : Nat} (hconfig : s.region.pool.config.largeReuseProbes = probes)
    (hnone : s.tries = {}) (hlength : s.region.pool.large.length ≤ probes)
    {turns : List (Turn σ)} (hplain : ∀ turn ∈ turns, turn.Plain)
    (hfew : ∀ n, (s.play (turns.take n)).region.pool.largeCount ≤ probes) :
    (s.play turns).region.pool.large.length = s.region.pool.large.length ∨
      ∃ n, (s.play (turns.take n)).region.pool.largeCount =
        (s.play turns).region.pool.large.length := by
  -- on the turns: the moment sought is that after the last turn that links a record
  induction turns generalizing s with
  | nil => exact .inl rfl
  | cons turn rest ih =>
    rw [List.forall_mem_cons] at hplain
    have hsteps := s.steps_take turn
    have hsame : (s.take turn).region.pool.config.largeReuseProbes = probes := by
      rw [(Steps.config_eq hsteps).1, hconfig]
    have hcount : (s.take turn).region.pool.largeCount ≤ probes := hfew 1
    -- the records after the turn are those from before, or else all of them have buffers
    have hturn := (recycles_take hnone hplain.1).full (by rwa [hconfig])
    have hrest := ih hsame (tries_take hnone hplain.1)
      (by rcases hturn with hkept | ⟨-, hfull⟩ <;> omega) hplain.2 fun n => hfew (n + 1)
    rcases hrest with hsame | ⟨n, hn⟩
    · rcases hturn with hkept | ⟨-, hfull⟩
      · exact .inl (hsame.trans hkept)
      · exact .inr ⟨1, hfull.trans hsame.symm⟩
    · exact .inr ⟨n + 1, hn⟩

/-- As long as no more large buffers are live than there are records, no record is linked, and bulk
turns leave the chain of blocks as it is. -/
theorem length_play {c : PoolConfig} (hconfig : s.region.pool.config = c)
    (hnone : s.tries = {}) (hlength : s.region.pool.large.length ≤ c.largeReuseProbes)
    {turns : List (Turn σ)} (hplain : ∀ turn ∈ turns, turn.Plain)
    (hfew : ∀ n, (s.play (turns.take n)).region.pool.largeCount ≤ s.region.pool.large.length) :
    (s.play turns).region.pool.large.length = s.region.pool.large.length ∧
      ((∀ turn ∈ turns, turn.Bulk s.region.pool) →
        (s.play turns).region.pool.chain = s.region.pool.chain) := by
  induction turns generalizing s with
  | nil => exact ⟨rfl, fun _ => rfl⟩
  | cons turn rest ih =>
    rw [List.forall_mem_cons] at hplain
    have hsame := Steps.config_eq (s.steps_take turn)
    have hcount : (s.take turn).region.pool.largeCount ≤ s.region.pool.large.length := hfew 1
    have hkept : (s.take turn).region.pool.large.length = s.region.pool.large.length := by
      rcases (recycles_take hnone hplain.1).full (by rwa [hconfig]) with hkept | ⟨hmore, hfull⟩
      · exact hkept
      · omega
    obtain ⟨hrest, hchain⟩ := ih (hsame.1.trans hconfig) (tries_take hnone hplain.1)
      (by rwa [hkept]) hplain.2 (by rw [hkept]; exact fun n => hfew (n + 1))
    refine ⟨hrest.trans hkept, fun hbulk => ?_⟩
    rw [List.forall_mem_cons] at hbulk
    have hbulk' : ∀ turn' ∈ rest, turn'.Bulk (s.take turn).region.pool := fun turn' hmem =>
      (hbulk.2 turn' hmem).congr hsame.2
    exact (hchain hbulk').trans (chain_take hnone hplain.1 hbulk.1 hkept)

/-- **There are as many records as large buffers were live at once.** In a session whose region was
just created or just reset, so that there is no trie, let turns be taken that do not start over and
ask for no buffer at an alignment of its own, whatever the source declines, such that no more large
buffers are live at once than records are asked for an empty one. Then the greatest number of large
buffers that were live at once is the number of records. From then on no record is linked as long as
no more large buffers are live than that, and large buffers come and go without a change to any
block. -/
theorem records_at_peak {c : PoolConfig} (h : Renewed c s.region) (hnone : s.tries = {})
    {turns : List (Turn σ)} (hplain : ∀ turn ∈ turns, turn.Plain)
    (hfew : ∀ n, (s.play (turns.take n)).region.pool.largeCount ≤ c.largeReuseProbes) :
    let after := s.play turns
    let peak := after.region.pool.large.length
    IsGreatest (Set.range fun n => (s.play (turns.take n)).region.pool.largeCount) peak ∧
      ∀ more : List (Turn σ), (∀ turn ∈ more, turn.Plain) →
        (∀ n, (after.play (more.take n)).region.pool.largeCount ≤ peak) →
        (after.play more).region.pool.large.length = peak ∧
        ((∀ turn ∈ more, turn.Bulk after.region.pool) →
          (after.play more).region.pool.chain = after.region.pool.chain) := by
  intro after peak
  have hnew : s.region.pool.large.length = 0 := by rw [h.blank.large, List.length_nil]
  have hattained : ∃ n, (s.play (turns.take n)).region.pool.largeCount = peak := by
    rcases exists_all_held (congrArg _ h.config_eq) hnone (by omega) hplain hfew with
      hsame | hsome
    · refine ⟨0, ?_⟩
      have hcount : s.region.pool.largeCount ≤ s.region.pool.large.length :=
        LargeRecord.length_buffers_le _
      show s.region.pool.largeCount = (s.play turns).region.pool.large.length
      omega
    · exact hsome
  refine ⟨⟨hattained, ?_⟩, fun more hmore hbound => ?_⟩
  · rintro _ ⟨n, rfl⟩
    -- the records of that moment are still there
    have hlater : (s.play (turns.take n)).region.pool.large.length ≤
        ((s.play (turns.take n)).play (turns.drop n)).region.pool.large.length :=
      length_le_play (tries_play hnone fun turn hmem => hplain turn (List.mem_of_mem_take hmem))
        fun turn hmem => hplain turn (List.mem_of_mem_drop hmem)
    rw [← play_append, List.take_append_drop] at hlater
    exact (LargeRecord.length_buffers_le _).trans hlater
  · obtain ⟨n, hn⟩ := hattained
    exact length_play ((Steps.config_eq (s.steps_play turns)).1.trans h.config_eq)
      (tries_play hnone hplain) (hn.symm.le.trans (hfew n)) hmore hbound

/-- There are two records, for instance, after two large buffers were live at once, a large payload
among them, although one was freed and other requests were declined or served meanwhile. Then large
buffers come and go without a change to any block. -/
theorem records_at_peak_tracked :
    ∃ s turns more, create { size := 256, largeReuseProbes := 2 }
        { source := ({ pageSize := 512 } : Tracker) } = .ok s ∧
      turns = [.ask (.allocate (some 0) 2000) trivial, .ask (.addCleanup 0 3000 none) trivial,
        .ask (.free 0 0) trivial, .adjust (·.withBudget (some 0)),
        .ask (.allocatePacked none 900) trivial, .adjust (·.withBudget none),
        .ask (.allocate none 40) trivial] ∧
      more = [.ask (.allocateZeroed (some 1) 700) trivial, .ask (.free 1 0) trivial,
        .ask (.allocateLayout none ⟨500, 32⟩) ⟨5, rfl⟩] ∧
      IsGreatest (Set.range fun n => (s.play (turns.take n)).region.pool.largeCount) 2 ∧
      ((s.play turns).play more).region.pool.large.length = 2 ∧
      ((s.play turns).play more).region.pool.chain = (s.play turns).region.pool.chain := by
  obtain ⟨turns, hturns⟩ : ∃ turns : List (Turn Tracker),
      turns = [.ask (.allocate (some 0) 2000) trivial, .ask (.addCleanup 0 3000 none) trivial,
        .ask (.free 0 0) trivial, .adjust (·.withBudget (some 0)),
        .ask (.allocatePacked none 900) trivial, .adjust (·.withBudget none),
        .ask (.allocate none 40) trivial] := ⟨_, rfl⟩
  obtain ⟨more, hmore⟩ : ∃ more : List (Turn Tracker),
      more = [.ask (.allocateZeroed (some 1) 700) trivial, .ask (.free 1 0) trivial,
        .ask (.allocateLayout none ⟨500, 32⟩) ⟨5, rfl⟩] := ⟨_, rfl⟩
  have hcheck :
      (match create { size := 256, largeReuseProbes := 2 }
          { source := ({ pageSize := 512 } : Tracker) } with
      | .ok s => decide ((s.play turns).region.pool.large.length = 2 ∧
          (s.play turns).region.pool.largestSmall < 500 ∧
          (∀ first ∈ turns.inits, (s.play first).region.pool.largeCount ≤ 2) ∧
          ∀ first ∈ more.inits, ((s.play turns).play first).region.pool.largeCount ≤ 2)
      | .error _ => false) = true := by
    rw [hturns, hmore]
    decide +kernel
  rcases h : create { size := 256, largeReuseProbes := 2 }
      { source := ({ pageSize := 512 } : Tracker) } with ⟨fault, heap⟩ | s <;> rw [h] at hcheck
  · cases hcheck
  · obtain ⟨hpeak, hsmall, hfew, hbound⟩ := of_decide_eq_true hcheck
    have hnone : s.tries = {} := by
      obtain ⟨_, _, _, -, -, -, -, rfl⟩ := create_ok h
      rfl
    have hplain : ∀ turn ∈ turns, turn.Plain := by
      rw [hturns]
      simp [Turn.Plain, Request.Plain]
    have hmoreplain : ∀ turn ∈ more, turn.Plain := by
      rw [hmore]
      simp [Turn.Plain, Request.Plain]
    obtain ⟨hgreatest, hlater⟩ := records_at_peak (.create h) hnone hplain fun n =>
      hfew _ ((List.mem_inits _ _).mpr (List.take_prefix n turns))
    rw [hpeak] at hgreatest hlater
    obtain ⟨hlength, hchain⟩ := hlater more hmoreplain fun n =>
      hbound _ ((List.mem_inits _ _).mpr (List.take_prefix n more))
    refine ⟨s, turns, more, rfl, hturns, hmore, hgreatest, hlength, hchain ?_⟩
    -- no block can serve what is asked for
    rw [hmore]
    simp only [List.forall_mem_cons, Turn.Bulk, Request.Bulk, Request.layout?, Pool.layoutOf?,
      Pool.layoutFor?]
    rw [if_neg (by omega), if_neg (by omega)]
    simp

end Session

end RegionTrie
