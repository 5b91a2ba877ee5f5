import RegionTrie.Heap.Tracker
import RegionTrie.Proofs.Session.Ledger
import RegionTrie.Proofs.Trie.Log
import RegionTrie.Proofs.Trie.Tracked

/-!
# The log tells the state

Someone who follows the log of a session from its beginning knows at any time how many blocks its
pool has, where its large buffers start, how many cleanups there are, and which slabs each trie has.
Nothing is said twice and nothing is left out, whatever fails on the way and however often
everything is forgotten.

## Main definitions

* `Session.heedSlabs`, `Session.slabsTold`: the slabs of a trie, by what the log says during the
  requests about it

## Main results

* `Session.logged_play`: the log of a session shows its pool all the time
* `Session.tallied_play`: and it tells which slabs a trie has
* `Session.log_tells_state`: so it tells the state of the pool and the tries, and how they end
-/

namespace RegionTrie

namespace Session

open Region Journal

variable {σ : Type} {s : Session σ} {n : Nat} {known : List Nat}

/-! ## Requests are logged -/

theorem logged_withRange (h : s.region.Logged) (n : Nat)
    {f : Extent → Except Refusal Answer × Session σ} (hf : ∀ e, (f e).2.region.Logged) :
    (s.withRange n f).2.region.Logged :=
  withRange_induction (P := fun s' => s'.region.Logged) h n hf

theorem logged_withCleanup (h : s.region.Logged) (n : Nat)
    {f : Cleanup → Except Refusal Answer × Session σ} (hf : ∀ c, (f c).2.region.Logged) :
    (s.withCleanup n f).2.region.Logged :=
  withCleanup_induction (P := fun s' => s'.region.Logged) h n hf

theorem logged_withTrie (h : s.region.Logged) (n : Nat)
    {f : SessionTrie → Except Refusal Answer × Session σ} (hf : ∀ t, (f t).2.region.Logged) :
    (s.withTrie n f).2.region.Logged :=
  withTrie_induction (P := fun s' => s'.region.Logged) h n hf

variable [RawSource σ]

theorem logged_addCleanup (h : s.region.Logged) (n size : Nat) (handler : Option Nat) :
    (s.addCleanup n size handler).2.region.Logged := by
  unfold addCleanup
  cases handler with
  | none =>
    have hadd := h.addCleanup size
    dsimp only
    rcases hop : s.region.addCleanup size with ⟨fault | c, r⟩ <;> rw [hop] at hadd <;> exact hadd
  | some id =>
    have hadd := h.addCleanupWith size id
    dsimp only
    rcases hop : s.region.addCleanupWith size id with ⟨fault | c, r⟩ <;> rw [hop] at hadd <;>
      exact hadd

theorem logged_createTrie (h : s.region.Logged) (n : Nat) (keys : KeyKind) (values : ValueKind)
    (depth : DepthChoice) : (s.createTrie n keys values depth).2.region.Logged := by
  unfold createTrie
  cases depth.resolve with
  | error fault => exact h
  | ok p =>
    have hcreate := Trie.logged_create (K := keys.Carrier) (V := Nat) h values.layout p
    dsimp only
    rcases hop : Trie.create (K := keys.Carrier) (V := Nat) values.layout p s.region with
      ⟨fault | t, r⟩ <;> rw [hop] at hcreate <;> exact hcreate

/-- Every request is logged. -/
theorem logged_perform (h : s.region.Logged) (q : Request) :
    (s.perform q).2.region.Logged := by
  cases q with
  | allocate keep size =>
    rw [perform, region_afterRange]
    exact h.supply (.bytes size)
  | allocatePacked keep size =>
    rw [perform, region_afterRange]
    exact h.supply (.packed size)
  | allocateZeroed keep size =>
    rw [perform, region_afterRange]
    exact h.supply (.zeroed size)
  | allocateAligned keep size align =>
    rw [perform, region_afterRange]
    exact h.allocateAligned size align
  | allocateLayout keep l =>
    rw [perform, region_afterLayout]
    exact h.supply (.layout l)
  | allocateValue keep kind value =>
    rw [perform, region_afterLayout]
    exact h.allocateCopy kind.layout.align _
  | allocateSlice keep kind values =>
    rw [perform, region_afterLayout]
    exact h.allocateCopy kind.layout.align _
  | allocateText keep text =>
    rw [perform, region_afterLayout]
    exact h.allocateCopy 1 _
  | free range offset => exact logged_withRange h range fun e => h.free (e.start + offset)
  | fill range byte => exact logged_withRange h range fun e => h.congr rfl rfl
  | read range => exact logged_withRange h range fun e => h
  | summary => exact h
  | reset => exact h.reset
  | addCleanup cleanup size handler => exact logged_addCleanup h cleanup size handler
  | setHandler cleanup handler =>
    exact logged_withCleanup h cleanup fun c => h.setHandler c handler
  | disarm cleanup => exact logged_withCleanup h cleanup fun c => h.disarm c
  | writePayload cleanup offset bytes =>
    exact logged_withCleanup h cleanup fun c => h.writePayload c offset bytes
  | readPayload cleanup => exact logged_withCleanup h cleanup fun c => h
  | runNow cleanup => exact logged_withCleanup h cleanup fun c => h.runNow c
  | createTrie trie keys values depth => exact logged_createTrie h trie keys values depth
  | insert trie key mask value =>
    exact logged_withTrie h trie fun t => Trie.logged_link h t.trie _ _
  | delete trie key mask => exact logged_withTrie h trie fun t => Trie.logged_unlink h t.trie _
  | get | find | findMany | trieSummary => exact logged_withTrie h _ fun t => h
  | dropTrie trie => exact h

theorem logged_take (h : s.region.Logged) (turn : Turn σ) : (s.take turn).region.Logged := by
  cases turn with
  | ask q _ => exact logged_perform h q
  | free address => exact h.free address
  | adjust f => exact h.congr rfl rfl

theorem logged_play (h : s.region.Logged) (turns : List (Turn σ)) :
    (s.play turns).region.Logged := by
  induction turns generalizing s with
  | nil => exact h
  | cons turn turns ih => exact ih (logged_take h turn)

theorem logged_create {c : PoolConfig} {source : σ} (h : create c { source } = .ok s) :
    s.region.Logged := by
  obtain ⟨base, heap, largestSmall, -, -, hgrant, -, rfl⟩ := create_ok h
  -- the first block is granted, and then the pool is noted
  have hjournal := Heap.journal_of_grant hgrant
  show Shows (.noted (.poolCreated base c.size largestSmall) :: heap.journal) 1 [] 0
  rw [hjournal]
  exact ⟨rfl, .refl _, rfl, trivial, trivial⟩

/-! ## The slabs of a trie -/

/-- The slabs that the log tells of while a request is carried out. -/
def slabsDuring (s : Session σ) (q : Request) : List Nat :=
  Journal.slabs ((s.perform q).2.region.heap.effectsSince s.region.heap.journal.length)

/-- The slabs of the trie with a number after one more request, for someone who knew of the given
ones before: the requests about the trie tell of more, and a creation starts over if it succeeds. -/
def heedSlabs (s : Session σ) (n : Nat) (known : List Nat) (q : Request) : List Nat :=
  if q.trie? = some n then
    match q with
    | .createTrie .. => if (s.perform q).1.toBool then s.slabsDuring q else known
    | _ => known ++ s.slabsDuring q
  else known

/-- The slabs of the trie with a number after several turns, by what the log says. -/
def slabsTold (s : Session σ) (n : Nat) (known : List Nat) : List (Turn σ) → List Nat
  | [] => known
  | .ask q h :: rest => (s.take (.ask q h)).slabsTold n (s.heedSlabs n known q) rest
  | turn :: rest => (s.take turn).slabsTold n known rest

/-- The trie with a number, if there is one, has the given slabs. -/
def Tallied (s : Session σ) (n : Nat) (known : List Nat) : Prop :=
  ∀ t, s.tries.get? n = some t → t.trie.nodes.slabs.toList = known

/-- A request that is not about a trie leaves it as it is, or forgets it. -/
theorem get?_tries_of_ne {q : Request} (hne : q.trie? ≠ some n) {t : SessionTrie} :
    (s.perform q).2.tries.get? n = some t → s.tries.get? n = some t := by
  let P : Session σ → Prop := fun s' => s'.tries.get? n = some t → s.tries.get? n = some t
  show P (s.perform q).2
  have hsame {s' : Session σ} (htries : s'.tries = s.tries) : P s' := by
    intro h
    rwa [htries] at h
  have hset {m : Nat} (hm : some m ≠ some n) {s' : Session σ} {entry : SessionTrie}
      (htries : s'.tries = s.tries.set m entry) : P s' := by
    intro h
    have hne : n ≠ m := fun heq => hm (congrArg some heq.symm)
    rwa [htries, Table.get?_set_of_ne _ hne] at h
  cases q with
  | reset =>
    intro h
    cases h
  | createTrie m keys values depth =>
    simp only [perform, createTrie]
    split
    · exact hsame rfl
    split
    · exact hsame rfl
    · exact hset hne rfl
  | insert m | delete m => exact withTrie_induction (P := P) id m fun t => hset hne rfl
  | get m | find m | findMany m | trieSummary m =>
    exact withTrie_induction (P := P) id m fun t => id
  | dropTrie m =>
    intro h
    have hm : n ≠ m := fun heq => hne (congrArg some heq.symm)
    rwa [perform, Table.get?_erase_of_ne _ hm] at h
  | _ => exact hsame (tries_perform rfl Request.noConfusion)

/-- A request that writes nothing tells of no slab. -/
theorem slabsDuring_of_region_eq {q : Request} (h : (s.perform q).2.region = s.region) :
    s.slabsDuring q = [] := by
  rw [slabsDuring, h, Heap.effectsSince_of_append (List.nil_append _).symm]
  rfl

theorem heedSlabs_createTrie (s : Session σ) (n : Nat) (known : List Nat) (keys : KeyKind)
    (values : ValueKind) (depth : DepthChoice) :
    s.heedSlabs n known (.createTrie n keys values depth) =
      if (s.perform (.createTrie n keys values depth)).1.toBool then
        s.slabsDuring (.createTrie n keys values depth)
      else known :=
  if_pos rfl

/-- All other requests about a trie go on from what was known. -/
theorem heedSlabs_of_about {q : Request} (hq : q.trie? = some n)
    (hcreate : ∀ keys values depth, q ≠ .createTrie n keys values depth) :
    s.heedSlabs n known q = known ++ s.slabsDuring q := by
  unfold heedSlabs
  rw [if_pos hq]
  split
  · next m keys values depth =>
    cases hq
    exact absurd rfl (hcreate keys values depth)
  · rfl

theorem tallied_createTrie (h : s.Tallied n known) (keys : KeyKind) (values : ValueKind)
    (depth : DepthChoice) :
    (s.perform (.createTrie n keys values depth)).2.Tallied n
      (s.heedSlabs n known (.createTrie n keys values depth)) := by
  rw [heedSlabs_createTrie]
  cases hdepth : depth.resolve with
  | error fault =>
    have hrefused : s.perform (.createTrie n keys values depth) = (.error (.fault fault), s) := by
      simp only [perform, createTrie, hdepth]
    rw [hrefused]
    exact h
  | ok p =>
    obtain ⟨nodes, taken, hobtains, hnodes⟩ :=
      Trie.obtains_create (K := keys.Carrier) (V := Nat) values.layout p s.region
    have hsuffix := (Trie.steps_create (K := keys.Carrier) (V := Nat) values.layout p
      s.region).suffix
    have hsince := hobtains.slabs_since hsuffix
    rcases hop : Trie.create (K := keys.Carrier) (V := Nat) values.layout p s.region with
      ⟨fault | trie, r⟩ <;> rw [hop] at hnodes hsince
    · -- whatever slabs were obtained, there is no trie to have them
      have hfailed : s.perform (.createTrie n keys values depth) =
          (.error (.fault fault), { s with region := r }) := by
        simp only [perform, createTrie, hdepth, hop]
      rw [hfailed]
      exact h
    · have hcreated : s.perform (.createTrie n keys values depth) =
          (.ok .done, { s with region := r, tries := s.tries.set n ⟨keys, values, trie⟩ }) := by
        simp only [perform, createTrie, hdepth, hop]
      rw [slabsDuring, hcreated]
      intro t ht
      rw [Table.get?_set_self] at ht
      cases ht
      show trie.nodes.slabs.toList =
        Journal.slabs (r.heap.effectsSince s.region.heap.journal.length)
      rw [hsince, hnodes trie rfl, hobtains.slabs_eq]
      exact List.nil_append taken

/-- A change of a trie tells of the slabs that it obtains. -/
theorem tallied_withTrie (h : s.Tallied n known) {q : Request}
    {change : (t : SessionTrie) → Except Fault Unit × Trie t.keys.Carrier Nat × Region σ}
    (hq : s.perform q = s.withTrie n fun t => s.afterTrie n t (change t))
    (hchange : ∀ t, s.region.heap.journal <:+ (change t).2.2.heap.journal ∧
      ∃ taken, t.trie.nodes.Obtains s.region (change t).2.1.nodes (change t).2.2 taken) :
    (s.perform q).2.Tallied n (known ++ s.slabsDuring q) := by
  intro t' ht'
  cases htrie : s.tries.get? n with
  | none =>
    have hsame : (s.perform q).2 = s := by rw [hq, withTrie, htrie]
    rw [hsame, htrie] at ht'
    cases ht'
  | some t =>
    have hafter : s.perform q = s.afterTrie n t (change t) := by rw [hq, withTrie, htrie]
    obtain ⟨hsuffix, taken, hobtains⟩ := hchange t
    rw [slabsDuring, hafter]
    rw [hafter, afterTrie, Table.get?_set_self] at ht'
    cases ht'
    show (change t).2.1.nodes.slabs.toList =
      known ++ Journal.slabs ((change t).2.2.heap.effectsSince s.region.heap.journal.length)
    rw [hobtains.slabs_since hsuffix, hobtains.slabs_eq, h t htrie]

/-- Looking into a trie tells of no slab. -/
theorem tallied_of_eq (h : s.Tallied n known) {q : Request} (hsame : (s.perform q).2 = s) :
    (s.perform q).2.Tallied n (known ++ s.slabsDuring q) := by
  rw [slabsDuring_of_region_eq (congrArg region hsame), List.append_nil, hsame]
  exact h

/-- What the log says during a request keeps someone informed of the slabs of a trie. -/
theorem tallied_perform (h : s.Tallied n known) (q : Request) :
    (s.perform q).2.Tallied n (s.heedSlabs n known q) := by
  by_cases hne : q.trie? ≠ some n
  · unfold heedSlabs
    rw [if_neg hne]
    intro t ht
    exact h t (get?_tries_of_ne hne ht)
  have htrie : q.trie? = some n := not_not.mp hne
  -- requests that only look leave the session as it is
  have hlook (f : SessionTrie → Except Refusal Answer) :
      (s.withTrie n fun t => (f t, s)).2 = s :=
    withTrie_induction (P := (· = s)) rfl n fun t => rfl
  cases q with
  | createTrie m keys values depth =>
    cases htrie
    exact tallied_createTrie h keys values depth
  | insert m key mask value =>
    rw [heedSlabs_of_about htrie fun _ _ _ => Request.noConfusion]
    cases htrie
    refine tallied_withTrie h rfl fun t => ⟨?_, ?_⟩
    · exact (t.trie.steps_link s.region _ _).suffix
    · exact t.trie.obtains_link s.region _ _
  | delete m key mask =>
    rw [heedSlabs_of_about htrie fun _ _ _ => Request.noConfusion]
    cases htrie
    refine tallied_withTrie h rfl fun t => ⟨?_, ?_⟩
    · exact (t.trie.steps_unlink s.region _).suffix
    · exact ⟨[], t.trie.obtains_unlink s.region _⟩
  | get m | find m | findMany m | trieSummary m =>
    rw [heedSlabs_of_about htrie fun _ _ _ => Request.noConfusion]
    cases htrie
    exact tallied_of_eq h (hlook _)
  | dropTrie m =>
    -- nothing is said of a trie that is gone
    cases htrie
    intro t ht
    rw [perform, Table.get?_erase_self] at ht
    cases ht
  | _ => cases htrie

/-- After any number of turns, the log has told which slabs a trie has. -/
theorem tallied_play (h : s.Tallied n known) (turns : List (Turn σ)) :
    (s.play turns).Tallied n (s.slabsTold n known turns) := by
  induction turns generalizing s known with
  | nil => exact h
  | cons turn turns ih =>
    cases turn with
    | ask q hq => exact ih (tallied_perform h q)
    | free address => exact ih h
    | adjust f => exact ih h

theorem tallied_create {c : PoolConfig} {source : σ} (h : create c { source } = .ok s) (n : Nat) :
    s.Tallied n [] := by
  obtain ⟨_, _, _, -, -, -, -, rfl⟩ := create_ok h
  intro t ht
  cases ht

/-! ## The state -/

/-- **The log tells the state.** After any number of turns there is a block for every one that was
noted, and the first one; the large buffers that are pending are those that are tracked, and with
the blocks they are all that is live; there are as many cleanups as were added since the last reset;
and each trie has the slabs that were noted during the requests about it. Until then and to the end,
every large buffer that was noted to be freed was pending, and every buffer that went back was noted
just before, or was never heard of because no room was found for its record. When the session ends,
the handlers that run are noted, then the large buffers, then the blocks, and last the end of the
pool, and nothing is pending any more. -/
theorem log_tells_state {c : PoolConfig} {source : σ} (h : create c { source } = .ok s)
    (turns : List (Turn σ)) :
    let r := (s.play turns).region
    let known := reading r.heap.journal
    let heap := (s.play turns).close
    1 + known.grown = r.pool.blockCount ∧
      known.pending.Perm ((LargeRecord.buffers r.pool.large).map Buffer.base) ∧
      (r.heap.live.map Buffer.base).Perm (r.pool.chain.bases ++ known.pending) ∧
      known.cleanups = r.pool.cleanupCount ∧
      (∀ n t, (s.play turns).tries.get? n = some t →
        s.slabsTold n [] turns = t.trie.nodes.slabs.toList ∧
          (s.slabsTold n [] turns).length = t.trie.slabCount) ∧
      Matched r.heap.journal ∧ Explained r.heap.journal ∧
      log (heap.effectsSince r.heap.journal.length) = r.pool.closing ∧
      Matched heap.journal ∧ Explained heap.journal ∧ (reading heap.journal).pending = [] := by
  intro r known heap
  have hlogged : r.Logged := logged_play (logged_create h) turns
  have hclose : Shows heap.journal r.pool.blockCount [] r.pool.cleanupCount := hlogged.close
  have hlive := hlogged.live_perm (balanced_play h turns)
  refine ⟨hlogged.blocks_eq, hlogged.perm, hlive, hlogged.cleanups_eq, ?_, hlogged.matched,
    hlogged.explained, ?_, hclose.matched, hclose.explained, hclose.perm.eq_nil⟩
  · intro n t ht
    have hslabs := tallied_play (tallied_create h n) turns t ht
    refine ⟨hslabs.symm, ?_⟩
    rw [← hslabs, Array.length_toList]
    rfl
  · -- what is written at the end is what the closed region has on top of its journal
    obtain ⟨new, hnew⟩ := suffix_close r
    have hlog : log new = r.pool.closing.reverse := by
      have hall := log_close r
      rw [← hnew, log_append] at hall
      exact List.append_cancel_right hall
    have hend : heap.journal = new ++ r.heap.journal := hnew.symm
    rw [Heap.effectsSince_of_append hend, log_reverse, hlog, List.reverse_reverse]

/-- So it is, for instance, over a numbered source, where a record takes a second large buffer after
the first was freed, a third one goes back because there is no room for its record, everything is
forgotten, and then there are two cleanups, one of them armed, and a trie with two slabs. -/
theorem log_tells_state_tracked :
    ∃ s turns, create (.withSize 256) { source := ({ pageSize := 512 } : Tracker) } = .ok s ∧
      turns = [.ask (.allocate none 200) trivial, .ask (.allocateAligned (some 0) 64 64) trivial,
        .ask (.addCleanup 0 16 (some 7)) trivial, .ask (.free 0 0) trivial,
        .ask (.allocate none 1000) trivial, .ask (.allocate none 130) trivial,
        .adjust (·.withBudget (some 1)), .ask (.allocateAligned none 64 64) trivial,
        .adjust (·.withBudget none), .ask .reset trivial,
        .ask (.addCleanup 0 8 (some 9)) trivial, .ask (.addCleanup 1 8 none) trivial,
        .ask (.createTrie 0 .word (.unsigned 4) (.plain .none)) trivial,
        .ask (.insert 0 0xffffffff (.length 17) 5) trivial] ∧
      let r := (s.play turns).region
      let known := reading r.heap.journal
      known.grown = 1 ∧ known.pending.length = 2 ∧ known.cleanups = 2 ∧
        (s.slabsTold 0 [] turns).length = 2 ∧
        (log ((s.play turns).close.effectsSince r.heap.journal.length)).map Event.message =
          ["run cleanup", "free large", "free large", "free block", "free block",
            "pool destroyed"] := by
  obtain ⟨turns, hturns⟩ : ∃ turns : List (Turn Tracker),
      turns = [.ask (.allocate none 200) trivial, .ask (.allocateAligned (some 0) 64 64) trivial,
        .ask (.addCleanup 0 16 (some 7)) trivial, .ask (.free 0 0) trivial,
        .ask (.allocate none 1000) trivial, .ask (.allocate none 130) trivial,
        .adjust (·.withBudget (some 1)), .ask (.allocateAligned none 64 64) trivial,
        .adjust (·.withBudget none), .ask .reset trivial,
        .ask (.addCleanup 0 8 (some 9)) trivial, .ask (.addCleanup 1 8 none) trivial,
        .ask (.createTrie 0 .word (.unsigned 4) (.plain .none)) trivial,
        .ask (.insert 0 0xffffffff (.length 17) 5) trivial] := ⟨_, rfl⟩
  have hcheck :
      (match create (.withSize 256) { source := ({ pageSize := 512 } : Tracker) } with
      | .ok s =>
        let p := (s.play turns).region.pool
        decide (p.blockCount = 2 ∧ p.largeCount = 2 ∧ p.cleanupCount = 2 ∧
          p.closing.map Event.message = ["run cleanup", "free large", "free large", "free block",
            "free block", "pool destroyed"] ∧
          ((s.play turns).tries.get? 0).map (·.trie.slabCount) = some 2)
      | .error _ => false) = true := by
    rw [hturns]
    decide +kernel
  rcases h : create (.withSize 256) { source := ({ pageSize := 512 } : Tracker) } with
    ⟨fault, heap⟩ | s <;> rw [h] at hcheck
  · cases hcheck
  obtain ⟨hblocks, hlarge, hcleanups, hclosing, hslabs⟩ := of_decide_eq_true hcheck
  obtain ⟨t, ht, hcount⟩ := Option.map_eq_some_iff.mp hslabs
  obtain ⟨hgrown, hpending, -, hadded, htold, -, -, hend, -⟩ := log_tells_state h turns
  refine ⟨s, turns, rfl, hturns, ?_, ?_, hadded.trans hcleanups, ?_, ?_⟩
  · omega
  · rw [hpending.length_eq, List.length_map]
    exact hlarge
  · exact (htold 0 t ht).2.trans hcount
  · rw [hend]
    exact hclosing

end Session

end RegionTrie
