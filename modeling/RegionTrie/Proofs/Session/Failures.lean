import RegionTrie.Heap.Tracker
import RegionTrie.Session.Basic
import RegionTrie.Proofs.Region.Failures

/-!
# Failed requests leave no trace

A request for memory that is refused leaves the pool as it was, to the last counter of the last
block, and the live buffers and the contents of memory too. A cleanup that is refused may leave the
range behind that was reserved for its record, and nothing else.

## Main definitions

* `Request.Allocates`: the request is for memory

## Main results

* `Session.failure_atomic`: what refused requests leave alone, in any session
-/

namespace RegionTrie

/-- The request is for memory. -/
def Request.Allocates : Request → Prop
  | .allocate .. | .allocatePacked .. | .allocateZeroed .. | .allocateAligned ..
  | .allocateLayout .. | .allocateValue .. | .allocateSlice .. | .allocateText .. => True
  | _ => False

namespace Session

open Region

variable {σ : Type} {s s' : Session σ} {fault : Fault}

theorem afterRange_eq_error {keep : Option Nat} {size : Nat} {op : Except Fault Nat × Region σ}
    {f : Nat → Answer} (h : s.afterRange keep size op f = (.error (.fault fault), s')) :
    op = (.error fault, s'.region) ∧ s' = { s with region := s'.region } := by
  rcases op with ⟨fault' | start, r⟩
  · cases h
    exact ⟨rfl, rfl⟩
  · cases h

theorem afterLayout_eq_error {keep : Option Nat} {l : Layout} {op : Except Fault Nat × Region σ}
    {f : Place → Region σ → Nat → Answer}
    (h : s.afterLayout keep l op f = (.error (.fault fault), s')) :
    op = (.error fault, s'.region) ∧ s' = { s with region := s'.region } := by
  unfold afterLayout at h
  split at h <;> exact afterRange_eq_error h

theorem live_discard (r : Region σ) (handler : Option Nat) :
    (r.discard handler).heap.live = r.heap.live := by
  cases handler <;> rfl

variable [RawSource σ]

/-- A refused request for memory changes the region only as a failure does. -/
theorem fails_of_perform {q : Request} (hq : q.Allocates)
    (h : s.perform q = (.error (.fault fault), s')) :
    s.region.Fails fault s'.region ∧ s' = { s with region := s'.region } := by
  cases q with
  | allocate keep size =>
    obtain ⟨hop, hs'⟩ := afterRange_eq_error h
    exact ⟨fails_of_allocate hop, hs'⟩
  | allocatePacked keep size =>
    obtain ⟨hop, hs'⟩ := afterRange_eq_error h
    exact ⟨fails_of_allocatePacked hop, hs'⟩
  | allocateZeroed keep size =>
    obtain ⟨hop, hs'⟩ := afterRange_eq_error h
    exact ⟨fails_of_allocateZeroed hop, hs'⟩
  | allocateAligned keep size align =>
    obtain ⟨hop, hs'⟩ := afterRange_eq_error h
    exact ⟨fails_of_allocateAligned hop, hs'⟩
  | allocateLayout keep l =>
    simp only [perform] at h
    obtain ⟨hop, hs'⟩ := afterLayout_eq_error h
    exact ⟨fails_of_allocateLayout hop, hs'⟩
  | allocateValue keep kind value =>
    simp only [perform] at h
    obtain ⟨hop, hs'⟩ := afterLayout_eq_error h
    exact ⟨fails_of_allocateCopy hop, hs'⟩
  | allocateSlice keep kind values =>
    simp only [perform] at h
    obtain ⟨hop, hs'⟩ := afterLayout_eq_error h
    exact ⟨fails_of_allocateCopy hop, hs'⟩
  | allocateText keep text =>
    simp only [perform] at h
    obtain ⟨hop, hs'⟩ := afterLayout_eq_error h
    exact ⟨fails_of_allocateCopy hop, hs'⟩
  | _ => exact absurd hq id

/-- A refused cleanup leaves the session as the region's refusal does, and its handler, if it came
with one, is disposed of. -/
theorem addCleanup_eq_error {n size : Nat} {handler : Option Nat}
    (h : s.perform (.addCleanup n size handler) = (.error (.fault fault), s')) :
    ∃ r, s.region.addCleanup size = (.error fault, r) ∧
      s' = { s with region := r.discard handler } := by
  simp only [perform, addCleanup] at h
  cases handler with
  | none =>
    dsimp only at h
    rcases hop : s.region.addCleanup size with ⟨fault' | c, r⟩ <;> rw [hop] at h <;> cases h
    exact ⟨r, rfl, rfl⟩
  | some id =>
    simp only [addCleanupWith] at h
    rcases hop : s.region.addCleanup size with ⟨fault' | c, r⟩ <;> rw [hop] at h <;> cases h
    exact ⟨r, rfl, rfl⟩

/-- **Failed requests leave no trace.** In any state of a session, a request for memory that is
refused leaves the whole pool, the live buffers and the contents of memory as they were, in one of
the three ways in which such a request fails. A cleanup that is refused leaves the cleanup records
and the large records as they were. Apart from that it leaves the pool and the live buffers as they
were, too, or as they were after a range was reserved for its record: then nothing but the chain has
changed, by one block at most, which is live from then on. -/
theorem failure_atomic (s : Session σ) :
    (∀ (q : Request) (s' : Session σ) (fault : Fault), q.Allocates →
      s.perform q = (.error (.fault fault), s') →
        s' = { s with region := s'.region } ∧ s'.region.pool = s.region.pool ∧
          s'.region.heap.live = s.region.heap.live ∧
          s'.region.heap.memory = s.region.heap.memory ∧ s.region.Fails fault s'.region) ∧
      ∀ (n size : Nat) (handler : Option Nat) (s' : Session σ) (fault : Fault),
        s.perform (.addCleanup n size handler) = (.error (.fault fault), s') →
          s' = { s with region := s'.region } ∧
            s'.region.pool.cleanups = s.region.pool.cleanups ∧
            s'.region.pool.large = s.region.pool.large ∧
            (s'.region.pool = s.region.pool ∧ s'.region.heap.live = s.region.heap.live ∨
              ∃ address r, s.region.reserve cleanupRecordSize wordAlign = (.ok address, r) ∧
                s'.region.pool = r.pool ∧ s'.region.heap.live = r.heap.live ∧
                r.pool = { s.region.pool with chain := r.pool.chain } ∧
                (r.pool.blockCount = s.region.pool.blockCount ∧
                    r.heap.live = s.region.heap.live ∨
                  ∃ base, r.pool.blockCount = s.region.pool.blockCount + 1 ∧
                    r.heap.live = ⟨base, s.region.pool.config.blockLayout⟩ ::
                      s.region.heap.live)) := by
  constructor
  · intro q s' fault hq h
    obtain ⟨hfails, hs'⟩ := fails_of_perform hq h
    exact ⟨hs', hfails.pool_eq, hfails.live_eq, hfails.memory_eq, hfails⟩
  · intro n size handler s' fault h
    obtain ⟨r', hadd, hs'⟩ := addCleanup_eq_error h
    subst hs'
    rw [pool_discard, live_discard]
    refine ⟨rfl, ?_⟩
    rcases addCleanup_fails hadd with hfails | ⟨address, r, hreserve, hfails⟩
    · rw [hfails.pool_eq, hfails.live_eq]
      exact ⟨rfl, rfl, .inl ⟨rfl, rfl⟩⟩
    · -- the record has its range, and what failed after it changed nothing
      obtain ⟨hchain, hblocks⟩ := pool_reserve hreserve
      rw [hfails.pool_eq, hfails.live_eq]
      refine ⟨by rw [hchain], by rw [hchain], .inr ?_⟩
      exact ⟨address, r, hreserve, rfl, rfl, hchain, hblocks⟩

/-- The numbered source grants a block and one large buffer, and after that nothing: the buffer goes
back for want of a block for its record, and the payload of a cleanup is refused. -/
theorem failure_atomic_tracked :
    ∃ s s₁ s₂ : Session Tracker, ∃ fault fault₁,
      s.perform (.allocate none 1000) = (.error (.fault fault), s₁) ∧
        s₁.region.pool = s.region.pool ∧ s₁.region.heap.live = s.region.heap.live ∧
      s₁.perform (.addCleanup 0 1000 (some 1)) = (.error (.fault fault₁), s₂) ∧
        s₂.region.pool.cleanups = s₁.region.pool.cleanups := by
  have hcheck : (match create (.withSize 128) { source := ({ budget := some 2 } : Tracker) } with
      | .ok s =>
        match (s.perform (.allocate none 90)).2.perform (.allocate none 1000) with
        | (.error (.fault _), s₁) =>
          match s₁.perform (.addCleanup 0 1000 (some 1)) with
          | (.error (.fault _), _) => true
          | _ => false
        | _ => false
      | .error _ => false) = true := by
    decide +kernel
  -- both refusals are there, and what they leave alone follows from the theorem
  split at hcheck
  case h_1 s _ =>
    split at hcheck
    case h_1 fault s₁ h₁ =>
      split at hcheck
      case h_1 fault₁ s₂ h₂ =>
        obtain ⟨-, hpool, hlive, -⟩ := (failure_atomic _).1 (.allocate none 1000) _ _ trivial h₁
        obtain ⟨-, hcleanups, -⟩ := (failure_atomic _).2 _ _ _ _ _ h₂
        exact ⟨_, s₁, s₂, fault, fault₁, h₁, hpool, hlive, h₂, hcleanups⟩
      case h_2 => cases hcheck
    case h_2 => cases hcheck
  case h_2 => cases hcheck

end Session

end RegionTrie
