import RegionTrie.Session.Basic
import RegionTrie.Proofs.Trie.Steps

/-!
# Turns of a session

A session is driven in turns: a request is made, the large buffer at any address is given back, or
the source changes by itself, as one does that declines from now on. A session that is played for
any number of turns takes its region through steps, so that what every step preserves is true all
the time.

## Main definitions

* `Request.WellFormed`: a request whose alignments are powers of two, as those of types are
* `Session.Turn`, `Session.play`: turns, and a session after several of them

## Main results

* `Session.steps_perform`: a request comes down to steps of the region
* `Session.steps_play`: so does a whole session
-/

namespace RegionTrie

/-- The alignments that the request names are powers of two. -/
def Request.WellFormed : Request → Prop
  | .allocateLayout _ l => l.align.isPowerOfTwo
  | .allocateValue _ kind _ | .allocateSlice _ kind _ => kind.layout.align.isPowerOfTwo
  | _ => True

namespace Session

/-- One turn of a session. -/
inductive Turn (σ : Type) where
  /-- A request is made. -/
  | ask (q : Request) (h : q.WellFormed)
  /-- The large buffer at an address, whatever that is, is to be given back. -/
  | free (address : Nat)
  /-- The source changes by itself. -/
  | adjust (f : σ → σ)

variable {σ : Type}

/-! ## The region after a request -/

theorem region_keepRange (s : Session σ) (keep : Option Nat) (e : Extent) :
    (s.keepRange keep e).region = s.region := by
  cases keep <;> rfl

theorem region_afterRange (s : Session σ) (keep : Option Nat) (size : Nat)
    (op : Except Fault Nat × Region σ) (f : Nat → Answer) :
    (s.afterRange keep size op f).2.region = op.2 := by
  rcases op with ⟨fault | start, r⟩
  · rfl
  · exact region_keepRange _ keep _

theorem region_afterLayout (s : Session σ) (keep : Option Nat) (l : Layout)
    (op : Except Fault Nat × Region σ) (f : Place → Region σ → Nat → Answer) :
    (s.afterLayout keep l op f).2.region = op.2 := by
  unfold afterLayout
  split <;> exact region_afterRange s _ _ op _

theorem tries_afterRange (s : Session σ) (keep : Option Nat) (size : Nat)
    (op : Except Fault Nat × Region σ) (f : Nat → Answer) :
    (s.afterRange keep size op f).2.tries = s.tries := by
  rcases op with ⟨fault | start, r⟩
  · rfl
  · cases keep <;> rfl

theorem tries_afterLayout (s : Session σ) (keep : Option Nat) (l : Layout)
    (op : Except Fault Nat × Region σ) (f : Place → Region σ → Nat → Answer) :
    (s.afterLayout keep l op f).2.tries = s.tries := by
  unfold afterLayout
  split <;> exact tries_afterRange s _ _ op _

/-! ## Requests that name something

What is true before such a request, and after it wherever there is what it names, is true after it
in any case. -/

theorem withRange_induction {P : Session σ → Prop} {s : Session σ} (h : P s) (n : Nat)
    {f : Extent → Except Refusal Answer × Session σ} (hf : ∀ e, P (f e).2) :
    P (s.withRange n f).2 := by
  unfold withRange
  cases s.ranges.get? n with
  | none => exact h
  | some e => exact hf e

theorem withCleanup_induction {P : Session σ → Prop} {s : Session σ} (h : P s) (n : Nat)
    {f : Cleanup → Except Refusal Answer × Session σ} (hf : ∀ c, P (f c).2) :
    P (s.withCleanup n f).2 := by
  unfold withCleanup
  cases s.cleanups.get? n with
  | none => exact h
  | some c => exact hf c

theorem withTrie_induction {P : Session σ → Prop} {s : Session σ} (h : P s) (n : Nat)
    {f : SessionTrie → Except Refusal Answer × Session σ} (hf : ∀ t, P (f t).2) :
    P (s.withTrie n f).2 := by
  unfold withTrie
  cases s.tries.get? n with
  | none => exact h
  | some t => exact hf t

variable [RawSource σ]

/-- A request that is not about a trie leaves all of them as they are, or forgets them. -/
theorem tries_perform {s : Session σ} {q : Request} (hnone : q.trie? = none)
    (hreset : q ≠ .reset) : (s.perform q).2.tries = s.tries := by
  cases q with
  | allocate | allocatePacked | allocateZeroed | allocateAligned =>
    exact tries_afterRange s _ _ _ _
  | allocateLayout | allocateValue | allocateSlice | allocateText =>
    exact tries_afterLayout s _ _ _ _
  | free range | fill range | read range =>
    exact withRange_induction (P := fun s' => s'.tries = s.tries) rfl range fun e => rfl
  | addCleanup n size handler =>
    simp only [perform, addCleanup]
    split <;> rfl
  | setHandler n | disarm n | writePayload n | readPayload n | runNow n =>
    exact withCleanup_induction (P := fun s' => s'.tries = s.tries) rfl n fun c => rfl
  | summary => rfl
  | reset => exact absurd rfl hreset
  | createTrie | insert | delete | get | find | findMany | trieSummary | dropTrie => cases hnone

/-! ## Turns -/

/-- The session after a turn. -/
def take (s : Session σ) : Turn σ → Session σ
  | .ask q _ => (s.perform q).2
  | .free address => { s with region := (s.region.free address).2 }
  | .adjust f => s.adjustSource f

/-- The session after several turns. -/
def play (s : Session σ) (turns : List (Turn σ)) : Session σ :=
  turns.foldl take s

theorem play_append (s : Session σ) (first rest : List (Turn σ)) :
    s.play (first ++ rest) = (s.play first).play rest :=
  List.foldl_append

open Region

variable (s : Session σ)

theorem steps_withRange (n : Nat) {f : Extent → Except Refusal Answer × Session σ}
    (hf : ∀ e, Steps s.region (f e).2.region) : Steps s.region (s.withRange n f).2.region :=
  withRange_induction (P := fun s' => Steps s.region s'.region) .refl n hf

theorem steps_withCleanup (n : Nat) {f : Cleanup → Except Refusal Answer × Session σ}
    (hf : ∀ c, Steps s.region (f c).2.region) : Steps s.region (s.withCleanup n f).2.region :=
  withCleanup_induction (P := fun s' => Steps s.region s'.region) .refl n hf

theorem steps_withTrie (n : Nat) {f : SessionTrie → Except Refusal Answer × Session σ}
    (hf : ∀ t, Steps s.region (f t).2.region) : Steps s.region (s.withTrie n f).2.region :=
  withTrie_induction (P := fun s' => Steps s.region s'.region) .refl n hf

theorem steps_addCleanup (n size : Nat) (handler : Option Nat) :
    Steps s.region (s.addCleanup n size handler).2.region := by
  unfold addCleanup
  cases handler with
  | none =>
    have hadd := s.region.steps_addCleanup size
    dsimp only
    rcases hop : s.region.addCleanup size with ⟨fault | c, r⟩ <;> rw [hop] at hadd <;> exact hadd
  | some id =>
    have hadd := s.region.steps_addCleanupWith size id
    dsimp only
    rcases hop : s.region.addCleanupWith size id with ⟨fault | c, r⟩ <;> rw [hop] at hadd <;>
      exact hadd

theorem steps_createTrie (n : Nat) (keys : KeyKind) (values : ValueKind) (depth : DepthChoice) :
    Steps s.region (s.createTrie n keys values depth).2.region := by
  unfold createTrie
  cases depth.resolve with
  | error fault => exact .refl
  | ok p =>
    have hcreate := Trie.steps_create (K := keys.Carrier) (V := Nat) values.layout p s.region
    dsimp only
    rcases hop : Trie.create (K := keys.Carrier) (V := Nat) values.layout p s.region with
      ⟨fault | t, r⟩ <;> rw [hop] at hcreate <;> exact hcreate

/-- A request comes down to steps of the region. -/
theorem steps_perform {q : Request} (h : q.WellFormed) :
    Steps s.region (s.perform q).2.region := by
  -- requests that name a range, a cleanup or a trie find it first, or are refused
  cases q with
  | allocate keep size =>
    simp only [perform, region_afterRange]
    exact s.region.steps_allocate size
  | allocatePacked keep size =>
    simp only [perform, region_afterRange]
    exact s.region.steps_allocatePacked size
  | allocateZeroed keep size =>
    simp only [perform, region_afterRange]
    exact s.region.steps_allocateZeroed size
  | allocateAligned keep size align =>
    simp only [perform, region_afterRange]
    exact (Step.allocateAligned s.region size align).steps
  | allocateLayout keep l =>
    simp only [perform, region_afterLayout]
    exact s.region.steps_allocateLayout h
  | allocateValue keep kind value =>
    simp only [perform, region_afterLayout]
    exact s.region.steps_allocateCopy h _
  | allocateSlice keep kind values =>
    simp only [perform, region_afterLayout]
    exact s.region.steps_allocateCopy h _
  | allocateText keep text =>
    simp only [perform, region_afterLayout]
    exact s.region.steps_allocateCopy ⟨0, rfl⟩ _
  | free range offset =>
    exact s.steps_withRange range fun e => (Step.free s.region (e.start + offset)).steps
  | fill range byte => exact s.steps_withRange range fun e => (Step.store s.region _ _).steps
  | read range => exact s.steps_withRange range fun e => .refl
  | summary => exact .refl
  | reset => exact (Step.reset s.region).steps
  | addCleanup cleanup size handler => exact s.steps_addCleanup cleanup size handler
  | setHandler cleanup handler =>
    exact s.steps_withCleanup cleanup fun c => s.region.steps_setHandler c handler
  | disarm cleanup => exact s.steps_withCleanup cleanup fun c => s.region.steps_disarm c
  | writePayload cleanup offset bytes =>
    exact s.steps_withCleanup cleanup fun c => s.region.steps_writePayload c offset bytes
  | readPayload cleanup => exact s.steps_withCleanup cleanup fun c => .refl
  | runNow cleanup => exact s.steps_withCleanup cleanup fun c => s.region.steps_runNow c
  | createTrie trie keys values depth => exact s.steps_createTrie trie keys values depth
  | insert trie key mask value =>
    exact s.steps_withTrie trie fun t => t.trie.steps_link s.region _ _
  | delete trie key mask =>
    exact s.steps_withTrie trie fun t => t.trie.steps_unlink s.region _
  | get | find | findMany | trieSummary => exact s.steps_withTrie _ fun t => .refl
  | dropTrie trie => exact .refl

theorem steps_take (turn : Turn σ) : Steps s.region (s.take turn).region := by
  cases turn with
  | ask q h => exact s.steps_perform h
  | free address => exact (Step.free s.region address).steps
  | adjust f => exact (Step.adjust s.region f).steps

/-- **A session takes its region through steps.** -/
theorem steps_play (turns : List (Turn σ)) : Steps s.region (s.play turns).region := by
  induction turns generalizing s with
  | nil => exact .refl
  | cons turn turns ih => exact (s.steps_take turn).trans (ih (s.take turn))

end Session

end RegionTrie
