import RegionTrie.Session.Basic
import RegionTrie.Proofs.Heap.Fresh
import RegionTrie.Proofs.Key.Bits
import RegionTrie.Proofs.Trie.Simulation
import RegionTrie.Proofs.Trie.Supply
import RegionTrie.Proofs.Trie.Tracked

/-!
# What a mask means

Only the leading ones of a mask count, and of a key only the bits under them. Everything after the
first clear bit of a mask, and every bit of a key from there on, is ignored by all operations,
because every walk goes along the selected bits. And nothing else is ignored: two pairs of a key and
a mask that differ in this are told apart by some arena, for which it takes a source that grants
what is asked for.

## Main definitions

* `Arena.Reachable`: the arenas that creations and calls lead to
* `Arena.SamePrefix`: no such arena tells two pairs of a key and a mask apart

## Main results

* `Trie.insert_endless`, `Arena.insert_endless`: over an endless source every prefix can be stored
* `Arena.Reachable.exists_trie`: an arena that can be reached carries a trie
* `Arena.only_leading_ones_count`: what operations ignore, and that they ignore nothing else
-/

namespace RegionTrie

/-! ## A source that never declines -/

namespace Endless

open Region NodeStore

theorem allocate_ne_none (h : Heap Endless) (l : Layout) (heap : Heap Endless) :
    h.allocate l ≠ (none, heap) := by
  intro heq
  cases congrArg Prod.fst heq

/-- Slabs can always be had. -/
theorem allocateAligned_ok (r : Region Endless) {size align : Nat} (hsize : 0 < size)
    (hvalid : (⟨size, align⟩ : Layout).Valid) :
    ∃ base, (r.allocateAligned size align).1 = .ok base := by
  rcases allocateAligned_cases r size align with
    ⟨hinvalid, -⟩ | ⟨heap, -, -, hdecline, -⟩ | ⟨base, heap, -, -, -, heq⟩
  · exact absurd ⟨hsize, hvalid⟩ hinvalid
  · exact absurd hdecline (allocate_ne_none _ _ _)
  rw [heq]
  rcases link_cases { r with heap } ⟨base, ⟨size, align⟩⟩ with
    ⟨address, r', -, heq⟩ | ⟨fault, r', hreserve, -⟩
  · rw [heq]
    exact ⟨base, rfl⟩
  · -- there is room for the record, in a new block if need be
    rcases reserve_cases { r with heap } largeRecordSize wordAlign with
      ⟨start, chain, -, heq⟩ | ⟨base', heap', -, -, heq⟩ | ⟨heap', -, hdecline, -⟩
    · rw [heq] at hreserve
      cases hreserve
    · rw [heq] at hreserve
      cases hreserve
    · exact absurd hdecline (allocate_ne_none _ _ _)

theorem takeRequests_granted {s : NodeStore} (h : s.shape.Obtainable) (r : Region Endless) :
    ∀ outcome ∈ s.takeRequests r, outcome = .ok () := by
  obtain ⟨base, hbase⟩ := allocateAligned_ok r h.1 h.2
  unfold takeRequests replenishRequests
  cases s.free with
  | cons => simp
  | nil =>
    dsimp only
    split
    · rw [hbase]
      simp [Except.map]
    · simp

theorem takeManyRequests_granted {s : NodeStore} (h : s.shape.Obtainable) (r : Region Endless)
    (n : Nat) : ∀ outcome ∈ s.takeManyRequests r n, outcome = .ok () := by
  induction n generalizing s r with
  | zero => exact fun outcome hmem => absurd hmem List.not_mem_nil
  | succ n ih =>
    rw [takeManyRequests, List.forall_mem_append]
    refine ⟨takeRequests_granted h r, ?_⟩
    obtain ⟨taken, hobtains⟩ := s.obtains_take r
    rcases hop : s.take r with ⟨fault | index, s', r'⟩
    · exact fun outcome hmem => absurd hmem List.not_mem_nil
    · rw [hop] at hobtains
      have hshape : s'.shape = s.shape := hobtains.shape_eq
      exact ih (hshape ▸ h) r'

end Endless

namespace Trie

open PrefixKey NodeStore

variable {K V : Type}

/-- Over an endless source a path without a value is linked, as long as there are numbers for the
nodes that it lacks. -/
theorem link_endless {t : Trie K V} (ht : t.nodes.Sound) (hobtainable : t.nodes.shape.Obtainable)
    {path : List Bool} (hget : t.root.get path = none)
    (hfew : t.nodes.handedOut + t.root.missing path ≤ indexBound) (r : Region Endless)
    (value : Option V) : (t.link r path value).1 = .ok () := by
  refine link_of_granted ht hget ?_ (fun _ => by omega) value
  rw [linkRequests, if_neg (by simp [hget])]
  exact Endless.takeManyRequests_granted hobtainable r _

/-- The root alone lacks as many nodes as a path is long. -/
theorem missing_root (index : Nat) (path : List Bool) :
    (Branch.node (V := V) index none none .absent .absent).missing path = path.length := by
  cases path with
  | nil => rfl
  | cons bit path => cases bit <;> exact Branch.missing_absent path

/-- Slabs for the smallest values can be asked for. -/
theorem obtainable_ofValue : (SlabShape.ofValue ⟨1, 1⟩ fallbackPageSize).Obtainable :=
  ⟨by decide +kernel, ⟨12, rfl⟩, by decide +kernel⟩

variable [PrefixKey K]

/-- Over an endless source a trie is created. It has a root and nothing else. -/
theorem create_endless (K V : Type) [PrefixKey K] (r : Region Endless) :
    ∃ (t : Trie K V) (r' : Region Endless), create ⟨1, 1⟩ .none r = (.ok t, r') ∧
      t.nodes.handedOut = 1 ∧ ∀ path, t.root.missing path = path.length := by
  have hwell : (bare ⟨1, 1⟩ r.heap.pageSize : Trie K V).WellFormed := wellFormed_bare _ _
  have hnone : (bare ⟨1, 1⟩ r.heap.pageSize : Trie K V).nodes.handedOut = 0 := by
    simp [bare, handedOut, capacity]
  have hok : ((bare ⟨1, 1⟩ r.heap.pageSize : Trie K V).link r [] none).1 = .ok () := by
    refine link_endless hwell.store obtainable_ofValue rfl ?_ r none
    rw [hnone]
    show 0 + 1 ≤ indexBound
    decide
  obtain ⟨taken, nodes, r', -, htake, hfault, heq⟩ := link_of_ok hok
  -- one node is asked for, and had
  obtain ⟨-, -, -, -, hall, -⟩ := takeMany_spec hwell.store hwell.accounts htake
  obtain ⟨index, hindex⟩ : ∃ index, taken.indices = [index] :=
    List.length_eq_one_iff.mp (hall.mp hfault)
  have hsupplies := supplies_takeMany hwell.store r 1
  have hout := hsupplies.handedOut
  rw [show (bare ⟨1, 1⟩ r.heap.pageSize : Trie K V).nodes.takeMany r 1 = (taken, nodes, r') from
    htake, hnone, hindex] at hout
  refine ⟨{ nodes, root := .node index none none .absent .absent }, r', ?_, hout,
    missing_root index⟩
  rw [hindex] at heq
  unfold create bare at *
  simp only [heq]
  rfl

/-- Over an endless source a value can be stored at any prefix of a new trie, and is the only one
then. -/
theorem insert_endless (hwidth : width K < indexBound) (r : Region Endless) (key mask : K) (v : V) :
    ∃ (t t' : Trie K V) (r₁ r₂ : Region Endless), create ⟨1, 1⟩ .none r = (.ok t, r₁) ∧
      t.insert r₁ key mask v = (.ok (), t', r₂) ∧
      ∀ path, t'.root.get path = if path = selected key mask then some v else none := by
  obtain ⟨t, r₁, hcreate, hout, hmissing⟩ := create_endless K V r
  obtain ⟨hwell, hvacant⟩ := wellFormed_create hcreate
  have hok : (t.insert r₁ key mask v).1 = .ok () := by
    refine link_endless hwell.1.store (WellFormed.obtainable hwell) (hvacant.2 _) ?_ r₁ _
    have hlength := maskLength_le mask
    rw [hout, hmissing, length_selected]
    omega
  obtain ⟨taken, nodes, r₂, -, htake, hfault, heq⟩ := link_of_ok hok
  obtain ⟨-, -, -, -, hall, -⟩ := takeMany_spec hwell.1.store hwell.1.accounts htake
  refine ⟨t, _, r₁, r₂, hcreate, heq, fun path => ?_⟩
  rw [Branch.get_graft, hall.mp hfault, hvacant.2]
  simp

end Trie

/-! ## Which prefix is meant -/

namespace Arena

open PrefixKey NodeStore

variable {K V : Type} [PrefixKey K]

/-- Over an endless source a value can be stored at any prefix of a new arena, and is the only one
then. -/
theorem insert_endless (hwidth : width K < indexBound) (memory : Nat → Node V) (r : Region Endless)
    (key mask : K) (v : V) :
    ∃ (a a' : Arena K V) (r₁ r₂ : Region Endless), create memory ⟨1, 1⟩ .none r = (.ok a, r₁) ∧
      a.insert r₁ key mask v = (.ok (), a', r₂) ∧
      ∀ key' mask', a'.get key' mask' =
        if selected key' mask' = selected key mask then some v else none := by
  obtain ⟨t, t', r₁, r₂, hcreate, hinsert, hget⟩ := Trie.insert_endless hwidth r key mask v
  rcases carries_create (K := K) memory ⟨1, 1⟩ .none r with
    ⟨fault, r₃, -, heq⟩ | ⟨a, t₁, r₃, hmade, heq, hcarries⟩ <;> rw [heq] at hcreate <;>
    cases hcreate
  obtain ⟨a', hlink, hcarries'⟩ := (hcarries.link (Trie.wellFormed_create heq).1.1 r₁
    (selected key mask) (some v)).exists_arena
  rw [Trie.insert] at hinsert
  rw [hinsert] at hlink hcarries'
  refine ⟨a, a', r₁, r₂, hmade, ?_, fun key' mask' => ?_⟩
  · rw [insert, link_eq, hlink]
  · rw [get_eq, value_follow_eq hcarries'.lies hcarries'.root, hget]

/-- The arenas that can be reached, each with its region: an arena is created in the region of a
session after any steps, and called any number of times, with any steps between two calls. -/
inductive Reachable {σ : Type} [RawSource σ] : Arena K V → Region σ → Prop
  | create {c : PoolConfig} {source : σ} {s : Session σ} {r r' : Region σ}
      {memory : Nat → Node V} {value : Layout} {p : Preallocation} {a : Arena K V}
      (hs : Session.create c { source } = .ok s) (hsteps : Region.Steps s.region r)
      (h : Arena.create memory value p r = (.ok a, r')) : Reachable a r'
  | call {a a' : Arena K V} {r r' r'' : Region σ} {answer : TrieAnswer V} (h : Reachable a r)
      (hsteps : Region.Steps r r') (c : TrieCall K V)
      (hcall : a.call r' c = some (answer, a', r'')) : Reachable a' r''

/-- An arena that can be reached carries a trie, so the links in its memory form a tree. -/
theorem Reachable.exists_trie {σ : Type} [RawSource σ] {a : Arena K V} {r : Region σ}
    (h : Reachable a r) : ∃ t : Trie K V, a.Carries t ∧ t.WellFormed ∧ t.Rooted := by
  induction h with
  | create hs hsteps h =>
    obtain ⟨t, hcreate, hcarries⟩ := carries_of_create h
    exact ⟨t, hcarries, (Trie.wellFormed_create hcreate).1⟩
  | @call a a' r r' r'' answer h hsteps c hcall ih =>
    obtain ⟨t, hcarries, hwell⟩ := ih
    obtain ⟨ended, hended, hends⟩ := hcarries.call hwell r' c
    rw [hcall] at hended
    cases hended
    exact ⟨_, hends.carries, Trie.WellFormed.call hwell r' c⟩

/-- So the walk up of every deletion ends. -/
theorem Reachable.isSome_delete {σ : Type} [RawSource σ] {a : Arena K V} {r : Region σ}
    (h : Reachable a r) (r' : Region σ) (key mask : K) : (a.delete r' key mask).isSome := by
  obtain ⟨t, hcarries, hwell⟩ := h.exists_trie
  obtain ⟨ended, hended, -⟩ := hcarries.unlink hwell r' (selected key mask)
  rw [delete_eq, hended]
  rfl

/-- Two pairs of a key and a mask stand for the same prefix: whatever is done to one of them, in any
arena that can be reached, comes to the same as with the other. -/
def SamePrefix (key mask key' mask' : K) : Prop :=
  ∀ (V σ : Type) [RawSource σ] (a : Arena K V) (r : Region σ), Reachable a r → ∀ v : V,
    a.insert r key mask v = a.insert r key' mask' v ∧
    a.delete r key mask = a.delete r key' mask' ∧
    a.get key mask = a.get key' mask'

/-- Walks that go along the same bits do the same. -/
theorem calls_eq_of_selected_eq {σ : Type} [RawSource σ] {key mask key' mask' : K}
    (h : selected key mask = selected key' mask') (a : Arena K V) (r : Region σ) (v : V) :
    a.insert r key mask v = a.insert r key' mask' v ∧
    a.delete r key mask = a.delete r key' mask' ∧
    a.get key mask = a.get key' mask' := by
  refine ⟨?_, ?_, ?_⟩
  · rw [insert, insert, link_eq, link_eq, h]
  · rw [delete_eq, delete_eq, h]
  · rw [get_eq, get_eq, h]

/-- Pairs that select the same bits stand for the same prefix, and no others do. -/
theorem samePrefix_iff (hwidth : width K < indexBound) {key mask key' mask' : K} :
    SamePrefix key mask key' mask' ↔ selected key mask = selected key' mask' := by
  constructor
  · intro h
    -- an arena with a value at one of the prefixes shows where the other is
    obtain ⟨s, hs⟩ : ∃ s, Session.create default { source := ({} : Endless) } = .ok s := ⟨_, rfl⟩
    obtain ⟨a, a', r₁, r₂, hcreate, hinsert, hget⟩ :=
      insert_endless hwidth (fun _ => {}) s.region key mask ()
    have hcall : a.call r₁ (.insert key mask ()) = some (.done, a', r₂) := by
      rw [call, hinsert]
      rfl
    have hreachable := Reachable.call (.create hs .refl hcreate) .refl _ hcall
    obtain ⟨-, -, hsame⟩ := h Unit Endless a' r₂ hreachable ()
    rw [hget, hget, if_pos rfl] at hsame
    by_contra hne
    rw [if_neg (Ne.symm hne)] at hsame
    cases hsame
  · intro h V σ _ a r _ v
    exact calls_eq_of_selected_eq h a r v

variable [LawfulPrefixKey K]

/-- **Only the leading ones of a mask count, and the bits under them.** Whatever lies in memory: an
insertion, a deletion and a lookup give the same answer, the same journal and the same arena with a
mask as with the one that has only its leading ones, and with a key as with any key that agrees with
it under them, and in an arena that can be reached a deletion ends. So two pairs of a key and a mask
stand for the same prefix exactly if the masks have equally many leading ones and the keys agree
under them. Widths are 32-bit numbers, as numbers of
nodes are, so that every path of a new trie can be numbered. -/
theorem only_leading_ones_count (hwidth : width K < indexBound) (key mask : K) :
    (∀ i, i < maskLength mask ↔ ∀ j ≤ i, j < width K ∧ bit mask j = true) ∧
    (∀ key' : K, (∀ i < maskLength mask, bit key' i = bit key i) →
      ∀ (V σ : Type) [RawSource σ] (a : Arena K V) (r : Region σ) (v : V),
        let plain : K := PrefixKey.mask (maskLength mask)
        a.insert r key mask v = a.insert r key' plain v ∧
        a.delete r key mask = a.delete r key' plain ∧
        a.get key mask = a.get key' plain) ∧
    (∀ (V σ : Type) [RawSource σ] (a : Arena K V) (r r' : Region σ), Reachable a r →
      (a.delete r' key mask).isSome) ∧
    ∀ key' mask' : K, SamePrefix key mask key' mask' ↔
      maskLength mask' = maskLength mask ∧ ∀ i < maskLength mask, bit key' i = bit key i := by
  refine ⟨fun i => lt_maskLength_iff, fun key' hbits V σ _ a r v => ?_,
    fun V σ _ a r r' hreachable => hreachable.isSome_delete r' key mask,
    fun key' mask' => (samePrefix_iff hwidth).trans selected_eq_iff⟩
  have hselected : selected key mask = selected key' (PrefixKey.mask (maskLength mask)) :=
    selected_eq_iff.mpr ⟨maskLength_mask (maskLength_le mask), hbits⟩
  exact calls_eq_of_selected_eq hselected a r v

/-- A mask with a hole, for instance, means what its first sixteen ones mean, and a mask of fifteen
ones means something else, for words as well as for octets. -/
theorem only_leading_ones_count_holed :
    SamePrefix (K := UInt32) 0xC0A80101 0xFFFF00FF 0xC0A8FFFF 0xFFFF0000 ∧
      ¬ SamePrefix (K := UInt32) 0xC0A80101 0xFFFF00FF 0xC0A80101 0xFFFE0000 ∧
      SamePrefix (.ofWord 0xC0A80101) (.ofWord 0xFFFF00FF) (.ofWord 0xC0A8FFFF)
        (Octets.ofWord 0xFFFF0000) := by
  have hword := (only_leading_ones_count (K := UInt32) (by decide) 0xC0A80101 0xFFFF00FF).2.2.2
  have hoctets := (only_leading_ones_count (by decide) (Octets.ofWord 0xC0A80101)
    (.ofWord 0xFFFF00FF)).2.2.2
  refine ⟨(hword _ _).mpr (by decide +kernel), ?_, (hoctets _ _).mpr (by decide +kernel)⟩
  intro hsame
  have hlength := ((hword _ _).mp hsame).1
  revert hlength
  decide +kernel

end Arena

end RegionTrie
