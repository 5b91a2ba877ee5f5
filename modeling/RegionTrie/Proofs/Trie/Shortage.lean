import RegionTrie.Proofs.Trie.HighWater
import RegionTrie.Proofs.Trie.Structure

/-!
# Insertions that run out of memory

An insertion links the nodes that its path lacks one by one, and sets the value last. So one that
runs out of memory on the way leaves a chain of nodes without values, which continues the path, and
no value has changed. Repeated once there is memory, it takes only the nodes that are still missing,
and it comes to the same trie as if memory had never run out.

## Main definitions

* `Trie.Continued`: a path is continued by a chain of nodes, and nothing else has happened

## Main results

* `Trie.continued_of_exhausted`: what a path that is not linked to its end leaves
* `Trie.twin_link_resumed`: linking a path in two goes comes to the same as in one
* `Trie.insert_shortage`: what that means for insertions after a run
-/

namespace RegionTrie.Trie

open NodeStore

variable {K V σ : Type}

/-- A path is continued by a chain of nodes that does not reach its end, and nothing else has
happened. -/
structure Continued (before after : Trie K V) (path : List Bool) (depth : Nat) (chain : List Nat) :
    Prop where
  /-- Before, the path led to a node at this depth, and no further. -/
  deepest : (before.reach (path.take depth)).isSome ∧ before.reach (path.take (depth + 1)) = none
  short : depth + chain.length < path.length
  /-- Links lead where they did before, and from there on down the chain. -/
  reach : ∀ q i, after.reach q = some i ↔
    before.reach q = some i ∨ ∃ k, q = path.take (depth + 1 + k) ∧ chain[k]? = some i
  /-- No value has changed. -/
  get : ∀ q, after.root.get q = before.root.get q
  valueless : ∀ k < chain.length, after.root.get (path.take (depth + 1 + k)) = none
  size : after.size = before.size
  /-- The chain has the nodes that were obtained. -/
  supplied : chain = before.nodes.upcoming chain.length
  free : after.nodes.free = before.nodes.free.drop chain.length
  nodeCount : after.nodeCount = before.nodeCount + chain.length

section Branches

open Branch

variable {b : Branch V} {path : List Bool} {depth : Nat}

/-- Where a chain is put in below the depth that a path reaches, it lies on the path from
there on. -/
theorem index_after_chain (hmissing : ∀ k, k ≤ path.length → b.missing (path.take k) = k - depth)
    {value : Option V} {chain : List Nat} (hshort : depth + chain.length < path.length)
    (q : List Bool) (i : Nat) :
    ((graft value b none path chain).after q).index? = some i ↔
      (b.after q).index? = some i ∨ ∃ k, q = path.take (depth + 1 + k) ∧ chain[k]? = some i := by
  rw [index_after_graft]
  constructor
  · intro hnew
    cases hold : (b.after q).index? with
    | some j => exact .inl (by simpa [hold] using hnew)
    | none =>
      -- the node is new, so the path to it is a part of the path that was linked
      rw [hold, Option.none_or] at hnew
      have hpre : q <+: path := by
        by_contra hnot
        rw [if_neg hnot] at hnew
        cases hnew
      rw [if_pos hpre] at hnew
      have htake := List.prefix_iff_eq_take.mp hpre
      have hcount := hmissing q.length hpre.length_le
      rw [← htake] at hcount
      have hlack := index_after_eq_none_iff.mp hold
      refine .inr ⟨b.missing q - 1, ?_, hnew⟩
      have hlen : depth + 1 + (b.missing q - 1) = q.length := by omega
      rw [hlen]
      exact htake
  · rintro (hold | ⟨k, rfl, hk⟩)
    · rw [hold]
      rfl
    · have hlt : k < chain.length := (List.getElem?_eq_some_iff.mp hk).1
      have hcount := hmissing (depth + 1 + k) (by omega)
      have hnone : (b.after (path.take (depth + 1 + k))).index? = none :=
        index_after_eq_none_iff.mpr (by omega)
      have hplace : b.missing (path.take (depth + 1 + k)) - 1 = k := by omega
      rw [hnone, Option.none_or, if_pos (List.take_prefix _ _), hplace, hk]

end Branches

variable [PrefixKey K] [RawSource σ] {t t' : Trie K V} {r r' : Region σ} {path : List Bool}

/-- A path that is refused as busy is not touched. -/
theorem unchanged_of_busy (ht : t.WellFormed ∧ t.Rooted) {value : Option V}
    (h : (t.link r path value).1 = .error .busy) : t.link r path value = (.error .busy, t, r) := by
  rcases link_cases t r path value with
    ⟨-, heq⟩ | ⟨taken, nodes, r₁, -, -, -, heq⟩ | ⟨taken, nodes, r₁, fault, -, htake, hfault, heq⟩
  · exact heq
  · rw [heq] at h; cases h
  · -- memory that runs out is another fault
    obtain ⟨-, -, -, -, -, hexhausted⟩ := takeMany_spec ht.1.store ht.1.accounts htake
    obtain ⟨size, align, rfl⟩ := hexhausted fault hfault (WellFormed.obtainable ht)
    rw [heq] at h
    cases h

/-- A path that is refused for another reason had fewer nodes than it lacks, and they are linked. -/
theorem link_error_cases (ht : t.WellFormed) {value : Option V} {fault : Fault}
    (h : t.link r path value = (.error fault, t', r')) (hfault : fault ≠ .busy) :
    ∃ taken nodes, t.nodes.takeMany r (t.root.missing path) = (taken, nodes, r') ∧
      taken.indices.length < t.root.missing path ∧ t.root.get path = none ∧
      t' = { t with nodes, root := t.root.graft value none path taken.indices } := by
  rcases link_cases t r path value with
    ⟨-, heq⟩ | ⟨taken, nodes, r₁, -, -, -, heq⟩ |
    ⟨taken, nodes, r₁, fault', hget, htake, hshort, heq⟩ <;> rw [heq] at h <;> cases h
  · exact absurd rfl hfault
  · obtain ⟨-, -, -, hle, hiff, -⟩ := takeMany_spec ht.store ht.accounts htake
    have hne : taken.indices.length ≠ t.root.missing path := by
      intro hlen
      rw [hiff.mpr hlen] at hshort
      cases hshort
    exact ⟨taken, nodes, htake, by omega, hget, rfl⟩

/-- The nodes put in come to those linked. -/
theorem nodeCount_graft (ht : t.WellFormed ∧ t.Rooted) (ht' : t'.WellFormed ∧ t'.Rooted)
    {value : Option V} {fresh : List Nat} (hle : fresh.length ≤ t.root.missing path)
    (hroot : t'.root = t.root.graft value none path fresh) :
    t'.nodeCount = t.nodeCount + fresh.length := by
  have hperm : t'.root.indices.Perm (fresh ++ t.root.indices) := by
    rw [hroot]
    exact Branch.perm_indices_graft hle
  have hlength := hperm.length_eq
  rw [List.length_append] at hlength
  rw [(ht.1.isTree ht.2).nodeCount_eq, (ht'.1.isTree ht'.2).nodeCount_eq, hlength,
    Nat.add_comm]

/-- **A path that is not linked to its end** is continued by a chain of the nodes that were had. -/
theorem continued_of_exhausted (ht : t.WellFormed ∧ t.Rooted)
    (hpath : path.length ≤ PrefixKey.width K) {value : Option V} {fault : Fault}
    (h : t.link r path value = (.error fault, t', r')) (hfault : fault ≠ .busy) :
    ∃ depth chain, t.Continued t' path depth chain ∧
      t'.root.missing path = path.length - (depth + chain.length) := by
  have ht' : t'.WellFormed ∧ t'.Rooted := by
    have hwell := ht.1.link r hpath value
    have hrooted := ht.2.link r path value
    rw [h] at hwell hrooted
    exact ⟨hwell, hrooted⟩
  obtain ⟨taken, nodes, htake, hfew, hget, rfl⟩ := link_error_cases ht.1 h hfault
  have htaken := supplies_takeMany ht.1.store r (t.root.missing path)
  rw [htake] at htaken
  have hroot : t.root.isAbsent = false := Branch.isAbsent_eq_false_iff.mpr ⟨0, ht.2⟩
  obtain ⟨depth, hdepth, hmissing⟩ := Branch.exists_depth hroot path
  have hall := hmissing path.length (Nat.le_refl _)
  rw [List.take_length] at hall
  have hshort : depth + taken.indices.length < path.length := by omega
  -- the path reaches its depth, and lacks one node for the next
  have hdeepest := hmissing depth hdepth
  have hnext := hmissing (depth + 1) (by omega)
  have hvalues : ∀ q, (t.root.graft value none path taken.indices).get q = t.root.get q := by
    intro q
    rw [Branch.get_graft, if_neg fun hand => absurd hand.2 (by omega)]
  refine ⟨depth, taken.indices, ?_, ?_⟩
  · constructor
    case deepest =>
      rw [WellFormed.reach_eq ht, WellFormed.reach_eq ht, Branch.index_after_eq_none_iff, hnext,
        Option.isSome_iff_ne_none, ne_eq, Branch.index_after_eq_none_iff, hdeepest]
      omega
    case short => exact hshort
    case reach =>
      intro q i
      rw [WellFormed.reach_eq ht', WellFormed.reach_eq ht]
      exact index_after_chain hmissing hshort q i
    case get => exact hvalues
    case valueless =>
      intro k hk
      have hcount := hmissing (depth + 1 + k) (by omega)
      rw [hvalues, ← Option.not_isSome_iff_eq_none]
      -- there was no node, and so no value
      intro hsome
      have hzero := Branch.missing_eq_zero_iff.mpr (Branch.holds_of_isSome_get hsome)
      omega
    case size => rfl
    case supplied => exact htaken.upcoming
    case free => exact htaken.free
    case nodeCount => exact nodeCount_graft ht ht' (Nat.le_of_lt hfew) rfl
  · rw [Branch.missing_graft, hall]
    omega

/-- **Linking a path in two goes** comes to the same as linking it in one: the same nodes are
linked, and the stores differ at most in where their slabs lie. -/
theorem twin_link_resumed (ht : t.WellFormed) {value : Option V} {fault : Fault}
    (h : t.link r path value = (.error fault, t', r')) (hfault : fault ≠ .busy) {r₂ r₃ : Region σ}
    (hagain : (t'.link r₂ path value).1 = .ok ()) (hwhole : (t.link r₃ path value).1 = .ok ()) :
    (t'.link r₂ path value).2.1.Twin (t.link r₃ path value).2.1 := by
  obtain ⟨taken, nodes, htake, hfew, hget, rfl⟩ := link_error_cases ht h hfault
  obtain ⟨taken₂, nodes₂, r₂', -, htake₂, hfault₂, heq₂⟩ := link_of_ok hagain
  obtain ⟨taken₃, nodes₃, r₃', -, htake₃, hfault₃, heq₃⟩ := link_of_ok hwhole
  -- the nodes had in two goes are those had in one
  rw [Branch.missing_graft] at htake₂
  have hrest : (nodes.takeMany r₂ (t.root.missing path - taken.indices.length)).1.fault = none :=
    by rw [htake₂]; exact hfault₂
  have hall : (t.nodes.takeMany r₃ (t.root.missing path)).1.fault = none :=
    by rw [htake₃]; exact hfault₃
  obtain ⟨hindices, htwin⟩ := takeMany_resume ⟨rfl, rfl, rfl, rfl⟩ ht.store htake hrest hall
  rw [htake₂, htake₃] at hindices htwin
  rw [heq₂, heq₃]
  refine ⟨htwin, ?_, rfl⟩
  rw [Branch.graft_graft hfew, hindices]

/-- A path that is linked takes the nodes that it lacks, and no others. -/
theorem nodeCount_link (ht : t.WellFormed ∧ t.Rooted) (hpath : path.length ≤ PrefixKey.width K)
    {value : Option V} (hok : (t.link r path value).1 = .ok ()) :
    (t.link r path value).2.1.nodeCount = t.nodeCount + t.root.missing path := by
  have hwell := ht.1.link r hpath value
  have hrooted := ht.2.link r path value
  obtain ⟨taken, nodes, r', -, htake, hfault, heq⟩ := link_of_ok hok
  obtain ⟨-, -, -, -, hiff, -⟩ := takeMany_spec ht.1.store ht.1.accounts htake
  have hlen := hiff.mp hfault
  rw [heq] at hwell hrooted ⊢
  rw [← hlen]
  exact nodeCount_graft ht ⟨hwell, hrooted⟩ (Nat.le_of_eq hlen) rfl

/-- **What becomes of insertions for which there is no memory**, in a trie that any run has left.
One that is refused as busy changes nothing in the trie and its region. One that runs out of memory
leaves the size and all that can be found and gotten as it was, and continues the path of its prefix
by a chain of nodes without values, which are the nodes that it obtained. Repeated once there is
memory, and numbers, for the nodes that are still missing, it succeeds. It then takes only those
nodes, and the trie is the same as after an insertion that was never interrupted, but for where its
slabs lie. -/
theorem insert_shortage {value : Layout} {p : Preallocation} {r₀ r₁ : Region σ} {t : Trie K V}
    (h : create value p r₀ = (.ok t, r₁)) (r : Region σ) (turns : List (TrieTurn K V σ))
    (r' : Region σ) (key mask : K) (v : V) :
    let before := (t.run r turns).2.1
    let path := (PrefixKey.bits key).take (PrefixKey.maskLength mask)
    let ended := before.insert r' key mask v
    let failed := ended.2.1
    (ended.1 = .error .busy → ended = (.error .busy, before, r')) ∧
    ∀ size align, ended.1 = .error (.exhausted size align) →
      (∀ key', failed.find key' = before.find key') ∧
      (∀ key' mask', failed.get key' mask' = before.get key' mask') ∧
      ∃ depth chain, before.Continued failed path depth chain ∧
        (∀ r₂ : Region σ,
          (∀ outcome ∈ failed.callRequests r₂ (.insert key mask v), outcome = .ok ()) →
          failed.nodeCount + (path.length - (depth + chain.length)) ≤ indexBound →
            (failed.insert r₂ key mask v).1 = .ok ()) ∧
        ∀ r₂ : Region σ, (failed.insert r₂ key mask v).1 = .ok () →
          (failed.insert r₂ key mask v).2.1.nodeCount =
            failed.nodeCount + (path.length - (depth + chain.length)) ∧
          ∀ r₃ : Region σ, (before.insert r₃ key mask v).1 = .ok () →
            (failed.insert r₂ key mask v).2.1.Twin (before.insert r₃ key mask v).2.1 := by
  intro before path ended failed
  have hbefore := WellFormed.run (wellFormed_create h).1 r turns
  have hlength := length_selected_le key mask
  have hselected := PrefixKey.selected_eq_take key mask
  refine ⟨unchanged_of_busy hbefore, fun size align hended => ?_⟩
  -- the trie left behind by the insertion is well formed
  have hfailed : failed.WellFormed ∧ failed.Rooted :=
    ⟨hbefore.1.link r' hlength (some v), hbefore.2.link r' _ (some v)⟩
  have hlink : before.link r' (PrefixKey.selected key mask) (some v) =
      (.error (.exhausted size align), failed, ended.2.2) := by
    rw [← hended]
    rfl
  obtain ⟨depth, chain, hcontinued, hmissing⟩ :=
    continued_of_exhausted hbefore hlength hlink Fault.noConfusion
  rw [hselected] at hcontinued hmissing
  refine ⟨fun key' => Branch.find_congr hcontinued.get _, fun key' mask' => hcontinued.get _,
    depth, chain, hcontinued, ?_⟩
  rw [← hmissing, ← hselected]
  refine ⟨fun r₂ hgranted hfew => ?_, fun r₂ hagain => ⟨?_, fun r₃ hwhole => ?_⟩⟩
  · have hget : failed.root.get (PrefixKey.selected key mask) = none := by
      obtain ⟨-, -, -, -, hnone, -⟩ := link_error_cases hbefore.1 hlink Fault.noConfusion
      rw [hcontinued.get, hnone]
    refine link_of_granted hfailed.1.store hget hgranted (fun hlt => ?_) (some v)
    -- what is not on the stack needs new numbers
    have hcount := hfailed.1.nodeCount_add_freeCount
    unfold freeCount at hcount
    omega
  · exact nodeCount_link hfailed hlength hagain
  · exact twin_link_resumed hbefore.1 hlink Fault.noConfusion hagain hwhole

/-- A path is continued, for instance, where a numbered source grants one more slab, with room for
one node, and two nodes are missing; with more memory the value is stored as if nothing had
happened. -/
theorem insert_shortage_tracked :
    ∃ (t : Trie UInt32 Nat) (r r' : Region Tracker) (depth : Nat) (chain : List Nat),
      create ⟨4000, 8⟩ .none (trackedRegion 1024) = (.ok t, r) ∧
      r' = { trackedRegion 1024 with heap.source.budget := some 1 } ∧
      t.Continued (t.insert r' 0 0xC0000000 7).2.1
        ((PrefixKey.bits (0 : UInt32)).take (PrefixKey.maskLength (0xC0000000 : UInt32)))
        depth chain ∧
      ((t.insert r' 0 0xC0000000 7).2.1.insert (trackedRegion 1024) 0 0xC0000000 7).2.1.Twin
        (t.insert (trackedRegion 1024) 0 0xC0000000 7).2.1 := by
  obtain ⟨r', hr'⟩ : ∃ r' : Region Tracker,
      r' = { trackedRegion 1024 with heap.source.budget := some 1 } := ⟨_, rfl⟩
  have hcheck : (match create (K := UInt32) (V := Nat) ⟨4000, 8⟩ .none (trackedRegion 1024) with
      | (.ok t, _) =>
        match t.insert r' 0 0xC0000000 7 with
        | (.error fault, failed, _) =>
          decide (fault = .exhausted 4096 4096 ∧ failed.nodeCount ≤ 2 ∧
            (t.insert (trackedRegion 1024) 0 0xC0000000 7).1 = .ok () ∧
            ∀ outcome ∈ failed.callRequests (trackedRegion 1024) (.insert 0 0xC0000000 7),
              outcome = .ok ())
        | _ => false
      | (.error _, _) => false) = true := by
    rw [hr']
    decide +kernel
  rcases h : create (K := UInt32) (V := Nat) ⟨4000, 8⟩ .none (trackedRegion 1024) with
    ⟨fault | t, r⟩ <;> simp only [h, Bool.false_eq_true] at hcheck
  rcases hop : t.insert r' 0 0xC0000000 7 with ⟨fault | ⟨⟩, failed, r₁⟩ <;>
    simp only [hop, Bool.false_eq_true] at hcheck
  obtain ⟨rfl, hcount, hwhole, hrequests⟩ := of_decide_eq_true hcheck
  obtain ⟨-, hshort⟩ := insert_shortage h r [] r' 0 0xC0000000 7
  simp only [run, hop] at hshort
  obtain ⟨-, -, depth, chain, hcontinued, hagain, hsame⟩ := hshort 4096 4096 rfl
  have hok := hagain (trackedRegion 1024) hrequests (by
    have hlen := length_selected_le (0 : UInt32) 0xC0000000
    rw [PrefixKey.selected_eq_take] at hlen
    have hwidth : PrefixKey.width UInt32 = 32 := rfl
    have hbound : indexBound = 4294967296 := rfl
    omega)
  refine ⟨t, r, r', depth, chain, rfl, hr', ?_, ?_⟩ <;> rw [hop]
  · exact hcontinued
  · exact (hsame _ hok).2 (trackedRegion 1024) hwhole

end RegionTrie.Trie
