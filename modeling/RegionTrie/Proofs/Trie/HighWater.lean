import RegionTrie.Proofs.Trie.Supply

/-!
# How much memory a trie takes

A trie takes a node that it never used before only when every node that it did use is linked. So the
number of nodes that it ever used is the largest number that was linked at some moment, and the
slabs are as many as it takes to hold that many nodes. A trie that shrinks and grows again below
that mark asks for no memory.

## Main results

* `Trie.handedOut_call_cases`: a call uses no new node, or leaves none unlinked
* `Trie.high_water_mark`: what that means for a run
-/

namespace RegionTrie.Trie

open NodeStore

variable {K V σ : Type}

/-! ## Changes -/

theorem snug_unlink {t : Trie K V} (h : t.nodes.Snug) (r : Region σ) (path : List Bool) :
    (t.unlink r path).2.1.nodes.Snug := by
  rcases unlink_cases t r path with ⟨-, heq⟩ | ⟨e, r', -, heq⟩ <;> rw [heq] <;> exact h

/-- A removal takes nothing from the region, and only leaves notes there. -/
theorem region_unlink (t : Trie K V) (r : Region σ) (path : List Bool) :
    ∃ events : List Event, (t.unlink r path).2.2 = events.foldl Region.note r := by
  unfold unlink
  cases t.root.erase path with
  | none => exact ⟨[], rfl⟩
  | some e => exact ⟨_, rfl⟩

variable [RawSource σ]

/-- The store of a trie after a path is linked: nothing is taken from it if the path has a value,
and otherwise the nodes that the path lacks, as many as can be had. -/
theorem nodes_link_cases (t : Trie K V) (r : Region σ) (path : List Bool) (value : Option V) :
    (t.link r path value).2.1.nodes = t.nodes ∨
      (t.link r path value).2.1.nodes = (t.nodes.takeMany r (t.root.missing path)).2.1 := by
  rcases link_cases t r path value with
    ⟨-, heq⟩ | ⟨taken, nodes, r', -, htake, -, heq⟩ |
    ⟨taken, nodes, r', fault, -, htake, -, heq⟩ <;> rw [heq]
  · exact .inl rfl
  all_goals
    rw [htake]
    exact .inr rfl

/-- The nodes put in when a path is linked are the upcoming ones. -/
theorem supplies_link {t : Trie K V} (ht : t.nodes.Sound) (r : Region σ) (path : List Bool)
    (value : Option V) :
    ∃ indices, t.nodes.Supplies indices (t.link r path value).2.1.nodes := by
  rcases nodes_link_cases t r path value with hnodes | hnodes <;> rw [hnodes]
  · exact ⟨[], supplies_nothing rfl rfl rfl ht⟩
  · exact ⟨_, supplies_takeMany ht r _⟩

/-- Linking a path uses no new node, or leaves none on the stack. -/
theorem handedOut_link_cases {t : Trie K V} (ht : t.nodes.Sound) (r : Region σ) (path : List Bool)
    (value : Option V) :
    (t.link r path value).2.1.nodes.handedOut = t.nodes.handedOut ∨
      (t.link r path value).2.1.nodes.free = [] := by
  obtain ⟨indices, hsupplied⟩ := supplies_link ht r path value
  by_cases hle : indices.length ≤ t.nodes.free.length
  · left
    rw [hsupplied.handedOut, Nat.sub_eq_zero_of_le hle, Nat.add_zero]
  · right
    rw [hsupplied.free]
    exact List.drop_eq_nil_of_le (by omega)

theorem snug_link {t : Trie K V} (h : t.nodes.Snug) (ht : t.nodes.Sound) (r : Region σ)
    (path : List Bool) (value : Option V) : (t.link r path value).2.1.nodes.Snug := by
  rcases nodes_link_cases t r path value with hnodes | hnodes <;> rw [hnodes]
  · exact h
  · exact h.takeMany ht r _

/-- A path that lacks no more nodes than there are on the stack is linked, unless it has a value,
and nothing is asked for. -/
theorem link_of_le_free {t : Trie K V} {path : List Bool} (h : t.root.missing path ≤ t.freeCount)
    (r : Region σ) (value : Option V) :
    (t.link r path value).2.2 = r ∧
      ((t.link r path value).1 = .ok () ∨ (t.link r path value).1 = .error .busy) := by
  have htake := takeMany_of_le_free (s := t.nodes) h r
  unfold link
  rw [htake]
  split
  · exact ⟨rfl, .inr rfl⟩
  · exact ⟨rfl, .inl rfl⟩

/-! ## Calls and runs -/

variable [PrefixKey K]

/-- The nodes ever handed out are those linked and those free. -/
theorem WellFormed.nodeCount_add_freeCount {t : Trie K V} (ht : t.WellFormed) :
    t.nodeCount + t.freeCount = t.nodes.handedOut := by
  have hlen := ht.accounts.length_eq
  rw [List.length_append, List.length_range] at hlen
  unfold nodeCount NodeStore.linked freeCount
  unfold handedOut at hlen ⊢
  omega

/-- **A call uses no new node, or leaves none unlinked.** -/
theorem handedOut_call_cases {t : Trie K V} (ht : t.WellFormed ∧ t.Rooted) (r : Region σ)
    (c : TrieCall K V) :
    (t.call r c).2.1.nodes.handedOut = t.nodes.handedOut ∨
      (t.call r c).2.1.nodeCount = (t.call r c).2.1.nodes.handedOut := by
  have hcount := (WellFormed.call ht r c).1.nodeCount_add_freeCount
  cases c with
  | insert key mask value =>
    refine (handedOut_link_cases ht.1.store r (PrefixKey.selected key mask) (some value)).imp id ?_
    intro hfree
    rw [← hcount]
    show _ = _ + List.length (t.link r (PrefixKey.selected key mask) (some value)).2.1.nodes.free
    rw [hfree]
    rfl
  | delete key mask => exact .inl (handedOut_unlink t r _)
  | get key mask => exact .inl rfl
  | find key => exact .inl rfl

theorem snug_call {t : Trie K V} (h : t.nodes.Snug) (ht : t.WellFormed) (r : Region σ)
    (c : TrieCall K V) : (t.call r c).2.1.nodes.Snug := by
  cases c with
  | insert key mask value => exact snug_link h ht.store r _ _
  | delete key mask => exact snug_unlink h r _
  | get key mask => exact h
  | find key => exact h

theorem snug_run {t : Trie K V} (h : t.nodes.Snug) (ht : t.WellFormed ∧ t.Rooted) (r : Region σ)
    (turns : List (TrieTurn K V σ)) : (t.run r turns).2.1.nodes.Snug := by
  induction turns generalizing t r with
  | nil => exact h
  | cons turn rest ih =>
    exact ih (snug_call h ht.1 _ turn.call) (WellFormed.call ht (turn.meanwhile r) turn.call) _

/-- At some moment of a run all nodes that were used until its end were linked, unless the run used
no new one. -/
theorem exists_all_linked {t : Trie K V} (ht : t.WellFormed ∧ t.Rooted) (r : Region σ)
    (turns : List (TrieTurn K V σ)) :
    (t.run r turns).2.1.nodes.handedOut = t.nodes.handedOut ∨
      ∃ n, (t.run r (turns.take n)).2.1.nodeCount = (t.run r turns).2.1.nodes.handedOut := by
  induction turns generalizing t r with
  | nil => exact .inl rfl
  | cons turn rest ih =>
    rcases ih (WellFormed.call ht (turn.meanwhile r) turn.call) _ with hsame | ⟨n, hn⟩
    · -- the rest used no new node, so the first call is looked at
      refine (handedOut_call_cases ht (turn.meanwhile r) turn.call).imp hsame.trans ?_
      intro hall
      exact ⟨1, hall.trans hsame.symm⟩
    · exact .inr ⟨n + 1, hn⟩

/-- A created trie has no free nodes and no idle slab. -/
theorem snug_create {value : Layout} {p : Preallocation} {r r' : Region σ} {t : Trie K V}
    (h : create value p r = (.ok t, r')) : t.nodes.Snug ∧ t.freeCount = 0 := by
  have hstep : ∀ (t : Trie K V) (r : Region σ) (path : List Bool),
      t.nodes.Sound ∧ t.nodes.Snug ∧ t.nodes.free = [] →
        (t.link r path none).2.1.nodes.Sound ∧ (t.link r path none).2.1.nodes.Snug ∧
          (t.link r path none).2.1.nodes.free = [] := by
    rintro t r path ⟨hs, hsnug, hfree⟩
    obtain ⟨indices, hsupplied⟩ := supplies_link hs r path none
    refine ⟨hsupplied.sound, snug_link hsnug hs r path none, ?_⟩
    rw [hsupplied.free, hfree, List.drop_nil]
  have hbare := hstep (bare value r.heap.pageSize) r []
    ⟨sound_empty value r.heap.pageSize, snug_empty _, rfl⟩
  rcases create_cases (K := K) (V := V) value p r with
    ⟨fault, heq⟩ | ⟨fault, _, _, -, heq⟩ | ⟨_, _, fault, _, _, _, -, -, heq⟩ |
    ⟨top, r₁, t', r₂, depth, htop, hlevels, heq⟩ <;> rw [heq] at h <;> cases h
  rw [htop] at hbare
  have hall := linkLevels_induction
    (P := fun (t : Trie K V) (_ : Region σ) =>
      t.nodes.Sound ∧ t.nodes.Snug ∧ t.nodes.free = [])
    (fun t r key mask => hstep t r _) (r := r₁) hbare 1 depth
  rw [hlevels] at hall
  exact ⟨hall.2.1, congrArg List.length hall.2.2⟩

/-- **The memory of a trie is its high-water mark.** After every run the nodes linked and the free
ones are together as many as were linked at most at some moment of the run, and the slabs are as
many as it takes to hold so many nodes, as long as there are numbers for them. A store asks its
region for a slab only when neither the stack nor the newest slab has a node left. A deletion takes
no slab and leaves nothing but notes in the region, and an insertion that stays below the mark is
carried out, or refused as busy, without a request. -/
theorem high_water_mark {value : Layout} {p : Preallocation} {r₀ r₁ : Region σ} {t : Trie K V}
    (h : create value p r₀ = (.ok t, r₁)) (r : Region σ) (turns : List (TrieTurn K V σ)) :
    let after := (t.run r turns).2.1
    let peak := after.nodeCount + after.freeCount
    IsGreatest (Set.range fun n => (t.run r (turns.take n)).2.1.nodeCount) peak ∧
    (peak < indexBound → after.slabCount = peak ⌈/⌉ after.nodes.shape.perSlab) ∧
    (∀ (s : NodeStore) (r' : Region σ), (s.take r').2.2 ≠ r' → s.free = [] ∧ s.remaining = 0) ∧
    (∀ (r' : Region σ) (key mask : K),
      (after.delete r' key mask).2.1.slabCount = after.slabCount ∧
        ∃ events : List Event, (after.delete r' key mask).2.2 = events.foldl Region.note r') ∧
    ∀ (r' : Region σ) (key mask : K) (v : V),
      after.nodeCount +
          after.root.missing ((PrefixKey.bits key).take (PrefixKey.maskLength mask)) ≤ peak →
        (after.insert r' key mask v).2.2 = r' ∧
          ((after.insert r' key mask v).1 = .ok () ∨
            (after.insert r' key mask v).1 = .error .busy) := by
  intro after peak
  have hcreated := (wellFormed_create h).1
  obtain ⟨hsnug, hnone⟩ := snug_create h
  have hafter := WellFormed.run hcreated r turns
  have hpeak : peak = after.nodes.handedOut := hafter.1.nodeCount_add_freeCount
  refine ⟨⟨?_, ?_⟩, ?_, ?_, ?_, ?_⟩
  · -- a created trie has linked all nodes that it used, so it was so at some moment of the run
    rw [hpeak]
    rcases exists_all_linked hcreated r turns with hsame | hsome
    · refine ⟨0, ?_⟩
      have hcount := hcreated.1.nodeCount_add_freeCount
      rw [hnone] at hcount
      exact hcount.trans hsame.symm
    · exact hsome
  · -- and at no moment it used more than at the end
    rintro _ ⟨n, rfl⟩
    have hfirst := WellFormed.run hcreated r (turns.take n)
    have hcount := hfirst.1.nodeCount_add_freeCount
    have hle := handedOut_le_run hfirst (t.run r (turns.take n)).2.2 (turns.drop n)
    have hsplit := run_append t r (turns.take n) (turns.drop n)
    rw [List.take_append_drop] at hsplit
    have hend : after = ((t.run r (turns.take n)).2.1.run (t.run r (turns.take n)).2.2
        (turns.drop n)).2.1 := congrArg (·.2.1) hsplit
    rw [hpeak, hend]
    show (t.run r (turns.take n)).2.1.nodeCount ≤ _
    omega
  · rw [hpeak]
    exact (snug_run hsnug hcreated r turns).slabs_eq hafter.1.store
  · intro s r' hasked
    have hnot : ¬ (s.free ≠ [] ∨ s.remaining ≠ 0) := fun hstocked =>
      hasked (take_of_stocked hstocked r')
    simpa [not_or] using hnot
  · intro r' key mask
    refine ⟨?_, region_unlink after r' _⟩
    unfold delete
    rcases unlink_cases after r' (PrefixKey.selected key mask) with ⟨-, heq⟩ | ⟨e, r₂, -, heq⟩ <;>
      rw [heq]
    rfl
  · intro r' key mask v hroom
    rw [← PrefixKey.selected_eq_take] at hroom
    exact link_of_le_free (by omega) r' (some v)

/-- The mark is right, for instance, where a value was stored over a numbered source and removed
again, and a shorter prefix was stored after it. -/
theorem high_water_mark_tracked :
    ∃ (t : Trie UInt32 Nat) (r : Region Tracker) (turns : List (TrieTurn UInt32 Nat Tracker)),
      create ⟨8, 8⟩ (.depth 1) (trackedRegion 1024) = (.ok t, r) ∧
      turns = [⟨id, .insert 0 0xF0000000 7⟩, ⟨id, .delete 0 0xF0000000⟩,
        ⟨id, .insert 0 0xC0000000 8⟩] ∧
      IsGreatest (Set.range fun n => (t.run r (turns.take n)).2.1.nodeCount)
        ((t.run r turns).2.1.nodeCount + (t.run r turns).2.1.freeCount) := by
  rcases h : create (K := UInt32) (V := Nat) ⟨8, 8⟩ (.depth 1) (trackedRegion 1024) with
    ⟨fault | t, r⟩
  · have hok : (create (K := UInt32) (V := Nat) ⟨8, 8⟩ (.depth 1) (trackedRegion 1024)).1.toBool :=
      by decide +kernel
    rw [h] at hok
    cases hok
  · exact ⟨t, r, _, rfl, rfl, (high_water_mark h r _).1⟩

end RegionTrie.Trie
