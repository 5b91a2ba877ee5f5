import RegionTrie.Proofs.Trie.Deletion
import RegionTrie.Proofs.Trie.Nodes

/-!
# Arenas carry tries

An arena carries a trie if its store is that of the trie and the branch of the trie lies in its
memory. Whatever memory held before, a created arena carries the trie that is created with the same
memory granted, and each call does to the arena what it does to the trie, with the same answer, the
same notes and the same requests for memory. So all that is true of tries in every run is true of
memory: links form a tree, walks end, and what a recycled node holds is never seen.

## Main definitions

* `Arena.Carries`: a trie lies in the memory of an arena
* `Arena.call`, `Arena.run`: calls of an arena, as they are those of a trie

## Main results

* `Arena.Carries.link`: linking nodes along a walk puts them into the branch
* `Arena.climb_of_erase`, `Arena.Carries.unlink`: recycling nodes on a walk up the links to parents
  takes them out of the branch
* `Arena.carries_create`, `Arena.Carries.run`: arenas carry tries from their creation on, through
  every run
-/

namespace RegionTrie.Arena

open Branch Trie

variable {K V σ : Type}

/-- A trie lies in the memory of an arena. -/
structure Carries (a : Arena K V) (t : Trie K V) : Prop where
  nodes : a.nodes = t.nodes
  size : a.size = t.size
  root : t.root.index? = some a.root
  lies : t.root.LiesIn a.memory

/-- A change of an arena and one of a trie end alike: with the same outcome and in the same region,
and the arena carries the trie. -/
structure EndAlike {α : Type} (x : α × Arena K V × Region σ) (y : α × Trie K V × Region σ) :
    Prop where
  outcome : x.1 = y.1
  carries : x.2.1.Carries y.2.1
  region : x.2.2 = y.2.2

theorem EndAlike.exists_arena {α : Type} {x : α × Arena K V × Region σ}
    {y : α × Trie K V × Region σ} (h : EndAlike x y) :
    ∃ a, x = (y.1, a, y.2.2) ∧ a.Carries y.2.1 :=
  ⟨x.2.1, Prod.ext h.outcome (Prod.ext rfl h.region), h.carries⟩

variable {a : Arena K V} {t : Trie K V} {b : Branch V}

/-! ## Linking nodes -/

section Linking

variable [RawSource σ]

/-- A walk that links new nodes takes them one by one, as a store hands them out. -/
theorem extendAlong_eq {r r' : Region σ} {path : List Bool} {taken : Taken} {nodes : NodeStore}
    (h : a.nodes.takeMany r path.length = (taken, nodes, r')) (node : Nat) :
    (taken.fault = none → a.extendAlong r path node = (.ok (taken.indices.getLastD node),
      { a with nodes, memory := .chain a.memory node path taken.indices }, r')) ∧
    ∀ fault, taken.fault = some fault → a.extendAlong r path node = (.error fault,
      { a with nodes, memory := .chain a.memory node path taken.indices }, r') := by
  -- the store is asked once for each bit, whether the nodes are taken one by one or together
  induction path generalizing a r taken node with
  | nil =>
    cases h
    exact ⟨fun _ => rfl, by rintro _ ⟨⟩⟩
  | cons bit path ih =>
    rw [List.length_cons, NodeStore.takeMany] at h
    rcases htake : a.nodes.take r with ⟨fault | next, nodes₁, r₁⟩ <;> rw [htake] at h
    · cases h
      refine ⟨by rintro ⟨⟩, ?_⟩
      rintro _ ⟨⟩
      rw [extendAlong, allocate, htake]
      rfl
    · rcases hrest : nodes₁.takeMany r₁ path.length with ⟨rest, nodes₂, r₂⟩
      simp only [hrest] at h
      cases h
      rw [extendAlong, allocate, htake]
      simp only [List.getLastD_cons]
      exact ih hrest next

/-- Where no node is missing on the way, only the value counts. -/
theorem Carries.link_held [PrefixKey K] (h : a.Carries t) (ht : t.WellFormed) (r : Region σ)
    {path : List Bool} {node : Nat} (hfar : a.furthest path a.root = (node, []))
    (hnode : (t.root.after path).index? = some node) (value : Option V) :
    EndAlike (a.linkAlong r path value) (t.link r path value) := by
  have hvalue : (a.memory node).value = t.root.get path := by
    rw [(h.lies.after path).value_eq hnode, ← get_append, List.append_nil]
  have hmissing : t.root.missing path = 0 :=
    missing_eq_zero_iff.mpr (holds_iff_index.mpr ⟨node, hnode⟩)
  unfold linkAlong Trie.link
  simp only [hfar, hvalue, hmissing, NodeStore.takeMany]
  split
  · exact ⟨rfl, h, rfl⟩
  · refine ⟨rfl, ⟨h.nodes, ?_, index?_graft h.root, ?_⟩, rfl⟩
    · exact congrArg (· + value.isSome.toNat) h.size
    · exact h.lies.setValue ht.nodup_indices hnode value none

/-- **Linking nodes along a walk** puts them into the branch, whether or not memory runs out. -/
theorem Carries.link [PrefixKey K] (h : a.Carries t) (ht : t.WellFormed) (r : Region σ)
    (path : List Bool) (value : Option V) :
    EndAlike (a.linkAlong r path value) (t.link r path value) := by
  obtain ⟨front, rest, node, hfar, rfl, hnode, hmissing, hend⟩ := furthest_spec h.lies h.root path
  rcases rest with _ | ⟨bit, rest⟩
  · rw [List.append_nil] at hfar ⊢
    exact h.link_held ht r hfar hnode value
  have hlacking : t.root.missing (front ++ bit :: rest) ≠ 0 := by simp [hmissing]
  have hget : t.root.get (front ++ bit :: rest) = none :=
    Option.not_isSome_iff_eq_none.mp fun hsome =>
      hlacking (missing_eq_zero_iff.mpr (holds_of_isSome_get hsome))
  rcases htake : t.nodes.takeMany r (t.root.missing (front ++ bit :: rest)) with ⟨taken, nodes, r'⟩
  obtain ⟨-, -, hall, hle, hiff, -⟩ := NodeStore.takeMany_spec ht.store ht.accounts htake
  have hndNew : (taken.indices ++ t.root.indices).Nodup :=
    (List.nodup_append.mp (hall.nodup_iff.mpr List.nodup_range)).1
  have hlies := h.lies.chain hnode hget hend hndNew (by rwa [← hmissing]) none
  -- the walk takes the nodes that the branch takes
  have htaken := htake
  rw [hmissing, ← h.nodes] at htaken
  obtain ⟨hdone, hfailed⟩ := extendAlong_eq htaken node
  unfold linkAlong Trie.link
  simp only [hfar, hget, htake, Option.isSome_none, Bool.false_eq_true, if_false]
  cases hfault : taken.fault with
  | some fault =>
    have hlt : taken.indices.length < t.root.missing (front ++ bit :: rest) := by
      refine Nat.lt_of_le_of_ne hle fun hlength => ?_
      rw [hiff.mpr hlength] at hfault
      cases hfault
    rw [hfailed fault hfault]
    refine ⟨rfl, ⟨rfl, h.size, index?_graft h.root, ?_⟩, rfl⟩
    rw [graft_of_lt hlt]
    exact hlies
  | none =>
    -- the last of the new nodes is the one at the end of the path
    have hlength := hiff.mp hfault
    have hlast := index_after_graft_last hlength.symm hlacking none none node
    have hndAll : (graft none t.root none (front ++ bit :: rest) taken.indices).indices.Nodup :=
      (perm_indices_graft hle).nodup_iff.mpr hndNew
    rw [hdone hfault]
    refine ⟨rfl, ⟨rfl, ?_, index?_graft h.root, ?_⟩, rfl⟩
    · exact congrArg (· + value.isSome.toNat) h.size
    · rw [← graft_none_graft (Nat.le_of_eq hlength.symm)]
      exact hlies.setValue hndAll hlast value none

end Linking

/-! ## Recycling nodes -/

/-- One step of a walk up: the parent loses its link, the node is recycled, and the walk goes on if
the parent serves no other purpose. -/
theorem climb_succ {node parent : Nat} (h : (a.memory node).parent = some parent) (r : Region σ)
    (depth : Nat) :
    a.climb r node (depth + 1) =
      let n := (a.memory parent).cut node
      let cut := { a with
        nodes := a.nodes.recycle [node], memory := Node.overwrite a.memory parent n }
      if n.hasChildren || n.value.isSome || n.parent.isNone then
        some (cut, r.note (.nodeRecycled node (depth + 1)))
      else climb cut (r.note (.nodeRecycled node (depth + 1))) parent depth := by
  rw [climb, h]
  simp only [write, Node.overwrite_self]

section Recycling

variable {path : List Bool} {e : Erasure V} {target : Nat} {above : Option Nat}

theorem recycledEvents_append (depth : Nat) (front gone : List Nat) :
    recycledEvents depth (front ++ gone) =
      recycledEvents depth front ++ recycledEvents (depth - front.length) gone := by
  induction front generalizing depth with
  | nil => rfl
  | cons i front ih =>
    rw [List.cons_append, recycledEvents, recycledEvents, ih, List.length_cons, Nat.add_comm,
      Nat.sub_sub]
    rfl

theorem recycle_recycle (s : NodeStore) (front gone : List Nat) :
    (s.recycle front).recycle gone = s.recycle (front ++ gone) := by
  simp [NodeStore.recycle]

/-- A node with a cleared value further down is in memory what it was. -/
theorem memory_eq_content {i : Nat} {up above : Option Nat} {v : Option V} {zero one : Branch V}
    {bit : Bool} (hlies : ((node i up v zero one).setChild bit
      (graft none ((node i up v zero one).child bit) above path [])).LiesIn a.memory)
    (htarget : (((node i up v zero one).child bit).after path).index? = some target) :
    a.memory i = (node i up v zero one).content ∧
      (graft none ((node i up v zero one).child bit) above path []).LiesIn a.memory ∧
      ((node i up v zero one).child (!bit)).LiesIn a.memory := by
  obtain ⟨first, hfirst⟩ := exists_index_of_after htarget
  have hindex : (graft none ((node i up v zero one).child bit) above path []).index? =
      ((node i up v zero one).child bit).index? := (index?_graft hfirst).trans hfirst.symm
  refine ⟨?_, ?_, ?_⟩
  · rw [← content_setChild_of_index hindex]
    exact hlies.memory_eq (by cases bit <;> rfl)
  · simpa [child_setChild_self] using hlies.child bit
  · simpa [child_setChild_of_ne] using hlies.child (!bit)

/-- Where a removal leaves nothing of a branch, the walk up from the end of the path comes to the
first node of the branch, and nothing else is written to than the nodes of the branch. -/
theorem climb_of_gone {up : Nat} (h : b.erase path = some e) (hgone : e.branch = absent)
    (hlinked : b.Linked (some up)) (hnd : b.indices.Nodup)
    (hlies : (graft none b above path []).LiesIn a.memory)
    (htarget : (b.after path).index? = some target) (r : Region σ) (depth : Nat) :
    ∃ i front memory, b.index? = some i ∧ e.recycled = front ++ [i] ∧ front.length = path.length ∧
      (memory i).parent = some up ∧ (∀ k ∉ b.indices, memory k = a.memory k) ∧
      a.climb r target (depth + path.length) =
        climb { a with nodes := a.nodes.recycle front, memory }
          ((recycledEvents (depth + path.length) front).foldl Region.note r) i depth := by
  -- on the way back from the end of the path, every node is left without children and a value
  induction path generalizing b e up above depth with
  | nil =>
    cases b with
    | absent => cases h
    | node i up' v zero one =>
      obtain rfl := Option.some.inj htarget
      obtain rfl : up' = some up := hlinked.1
      rcases erase_nil_cases h with ⟨-, -, -, rfl⟩ | ⟨w, -, -, rfl⟩
      · refine ⟨i, [], a.memory, rfl, rfl, rfl, ?_, fun _ _ => rfl, rfl⟩
        rw [hlies.memory_eq rfl]
        rfl
      · cases hgone
  | cons bit path ih =>
    cases b with
    | absent => cases h
    | node i up' v zero one =>
      obtain rfl : up' = some up := hlinked.1
      obtain ⟨hfirst, hndChild, -⟩ := nodup_child hnd bit
      obtain ⟨e', he', (⟨hgone', -, rfl, hother, rfl⟩ | ⟨-, rfl⟩)⟩ := erase_cons_cases h
      · rw [after_cons] at htarget
        rw [graft_cons] at hlies
        obtain ⟨hmemory, hbelow, -⟩ := memory_eq_content hlies htarget
        obtain ⟨j, front, memory, hj, hfront, hlength, hparent, hsame, hclimb⟩ :=
          ih he' hgone' (linked_child hlinked bit) hndChild hbelow htarget (depth + 1)
        -- without the link to the child the node has no child and no value, so the walk goes on
        have hcut : (memory i).cut j = ⟨none, none, some up, none⟩ := by
          rw [hsame i hfirst, hmemory, ← content_setChild_absent hnd hj,
            content_setChild_of_absent hother]
        have hdepth : depth + 1 + path.length - front.length = depth + 1 := by omega
        refine ⟨i, front ++ [j], Node.overwrite memory i ((memory i).cut j), rfl, by rw [hfront],
          by simp [hlength], ?_, fun k hk => ?_, ?_⟩
        · rw [Node.overwrite_self, hcut]
        · rw [Node.overwrite_of_ne _ (ne_of_mem_of_not_mem (index_mem_indices rfl) hk).symm]
          exact hsame k fun hmem => hk (indices_child_subset _ bit hmem)
        · rw [List.length_cons, ← Nat.add_assoc, Nat.add_right_comm, hclimb, climb_succ hparent,
            hcut, recycledEvents_append, hdepth, List.foldl_append, ← recycle_recycle]
          rfl
      · cases bit <;> cases hgone

/-- A walk up stops at a node that serves a purpose without the child below it. -/
theorem stops_content {i : Nat} {up : Option Nat} {v : Option V} {zero one : Branch V} {bit : Bool}
    (h : up = none ∨ v.isSome ∨ (node i up v zero one).child (!bit) ≠ absent) :
    let n := ((node i up v zero one).setChild bit absent).content
    (n.hasChildren || n.value.isSome || n.parent.isNone) = true := by
  cases bit <;> cases up <;> cases v <;> cases zero <;> cases one <;>
    simp_all [content, Branch.setChild, Branch.child, Node.hasChildren, index?]

/-- The walk up from a child of which nothing is left ends at its parent, if that serves another
purpose. -/
theorem climb_of_child_gone {i : Nat} {up : Option Nat} {v : Option V} {zero one : Branch V}
    {bit : Bool} (h : ((node i up v zero one).child bit).erase path = some e)
    (hgone : e.branch = absent)
    (hneeded : up = none ∨ v.isSome ∨ (node i up v zero one).child (!bit) ≠ absent)
    (hlinked : (node i up v zero one).Linked up) (hnd : (node i up v zero one).indices.Nodup)
    (hlies : (graft none (node i up v zero one) above (bit :: path) []).LiesIn a.memory)
    (htarget : (((node i up v zero one).child bit).after path).index? = some target)
    (r : Region σ) (depth : Nat) :
    ∃ memory, ((node i up v zero one).setChild bit absent).LiesIn memory ∧
      (∀ k ∉ (node i up v zero one).indices, memory k = a.memory k) ∧
      a.climb r target (depth + 1 + path.length) =
        some ({ a with nodes := a.nodes.recycle e.recycled, memory },
          (recycledEvents (depth + 1 + path.length) e.recycled).foldl Region.note r) := by
  obtain ⟨hfirst, hndChild, hdisjoint⟩ := nodup_child hnd bit
  rw [graft_cons] at hlies
  obtain ⟨hmemory, hbelow, hother⟩ := memory_eq_content hlies htarget
  -- the walk comes to the first node of the child, and its parent was not written to so far
  obtain ⟨j, front, memory, hj, hfront, hlength, hparent, hsame, hclimb⟩ :=
    climb_of_gone h hgone (linked_child hlinked bit) hndChild hbelow htarget r (depth + 1)
  have hdepth : depth + 1 + path.length - front.length = depth + 1 := by omega
  have hcut : (memory i).cut j = ((node i up v zero one).setChild bit absent).content := by
    rw [hsame i hfirst, hmemory, ← content_setChild_absent hnd hj]
  have hstop : (((memory i).cut j).hasChildren || ((memory i).cut j).value.isSome ||
      ((memory i).cut j).parent.isNone) = true := by
    rw [hcut]
    exact stops_content hneeded
  refine ⟨Node.overwrite memory i ((memory i).cut j), ?_, fun k hk => ?_, ?_⟩
  · refine LiesIn.setChild ?_ (hother.congr fun k hk => ?_) .absent
    · rw [Node.overwrite_self, hcut]
    · have hne : k ≠ i := ne_of_mem_of_not_mem hk (nodup_child hnd (!bit)).1
      rw [Node.overwrite_of_ne _ hne]
      exact hsame k fun hk' => hdisjoint k hk' hk
  · rw [Node.overwrite_of_ne _ (ne_of_mem_of_not_mem (index_mem_indices rfl) hk).symm]
    exact hsame k fun hmem => hk (indices_child_subset _ bit hmem)
  · rw [hclimb, climb_succ hparent, hfront, recycledEvents_append, hdepth, List.foldl_append,
      ← recycle_recycle]
    simp only [hstop, if_true]
    rfl

/-- **A walk up that recycles nodes** takes those out of the branch that a removal takes out. -/
theorem climb_of_erase {up : Option Nat} (h : b.erase path = some e) (hstays : e.branch ≠ absent)
    (hrecycled : e.recycled ≠ []) (hlinked : b.Linked up) (hnd : b.indices.Nodup)
    (hlies : (graft none b above path []).LiesIn a.memory)
    (htarget : (b.after path).index? = some target) (r : Region σ) (depth : Nat) :
    ∃ memory, e.branch.LiesIn memory ∧ (∀ k ∉ b.indices, memory k = a.memory k) ∧
      a.climb r target (depth + path.length) =
        some ({ a with nodes := a.nodes.recycle e.recycled, memory },
          (recycledEvents (depth + path.length) e.recycled).foldl Region.note r) := by
  induction path generalizing b e up above depth with
  | nil =>
    cases b with
    | absent => cases h
    | node i up' v zero one =>
      rcases erase_nil_cases h with ⟨-, -, -, rfl⟩ | ⟨w, -, -, rfl⟩
      · exact absurd rfl hstays
      · exact absurd rfl hrecycled
  | cons bit path ih =>
    cases b with
    | absent => cases h
    | node i up' v zero one =>
      obtain rfl : up' = up := hlinked.1
      obtain ⟨e', he', (⟨-, -, -, -, rfl⟩ | ⟨hneeded, rfl⟩)⟩ := erase_cons_cases h
      · exact absurd rfl hstays
      rw [after_cons] at htarget
      rw [List.length_cons, ← Nat.add_assoc, Nat.add_right_comm]
      by_cases hgone : e'.branch = absent
      · rw [hgone]
        exact climb_of_child_gone he' hgone (hneeded hgone) hlinked hnd hlies htarget r depth
      · -- a part of the child stays, and so does this node
        obtain ⟨hfirst, hndChild, hdisjoint⟩ := nodup_child hnd bit
        rw [graft_cons] at hlies
        obtain ⟨hmemory, hbelow, hother⟩ := memory_eq_content hlies htarget
        obtain ⟨memory, hlies', hsame, hclimb⟩ :=
          ih he' hgone hrecycled (linked_child hlinked bit) hndChild hbelow htarget (depth + 1)
        refine ⟨memory, LiesIn.setChild ?_ (hother.congr fun k hk => ?_) hlies', fun k hk => ?_,
          hclimb⟩
        · rw [hsame i hfirst, hmemory, content_setChild_of_index (index_erase he' hgone)]
        · exact hsame k fun hk' => hdisjoint k hk' hk
        · exact hsame k fun hmem => hk (indices_child_subset _ bit hmem)

/-- A removal that recycles nothing clears the value at the end of its path. -/
theorem branch_erase_of_recycled_nil (h : b.erase path = some e) (hnone : e.recycled = [])
    (up : Option Nat) : e.branch = graft none b up path [] := by
  replace h := erases_of_erase h
  induction h generalizing up with
  | leaf hup => cases hnone
  | value => rfl
  | prune hbelow hup hgone hother ih => simp at hnone
  | keep hbelow ih => rw [graft_cons, ← ih hnone]

end Recycling

/-- Whether a node stays is seen from its links. -/
theorem stays_iff [PrefixKey K] (h : a.Carries t) (ht : t.WellFormed ∧ t.Rooted) {c : Cell V}
    (hc : c ∈ t.root.cells) :
    ((a.memory c.index).hasChildren || c.index == a.root) = true ↔
      ¬ (c.Childless ∧ c.parent.isSome) := by
  obtain hroot : a.root = 0 := Option.some.inj (h.root.symm.trans ht.2)
  rw [h.lies c hc, hroot, Option.isSome_iff_ne_none, ne_eq, parent_eq_none_iff ht c hc,
    Bool.or_eq_true, beq_iff_eq, Cell.content, Node.hasChildren, Cell.Childless]
  cases c.zero <;> cases c.one <;> simp

/-- A node that has children or is the root loses its value, if it has one. -/
theorem Carries.unlink_staying [PrefixKey K] (h : a.Carries t) (ht : t.WellFormed ∧ t.Rooted)
    (r : Region σ) {path : List Bool} {c : Cell V} (hcell : (t.root.after path).cell? = some c)
    (hstays : ¬ (c.Childless ∧ c.parent.isSome)) :
    ∃ ended, a.deleteAlong r path = some ended ∧ EndAlike ended (t.unlink r path) := by
  have hmem := cells_after_subset t.root path (mem_cells_of_cell? hcell)
  have hindex := index?_of_cell? hcell
  have hvalue : (a.memory c.index).value = c.value := congrArg Node.value (h.lies c hmem)
  unfold deleteAlong
  simp only [follow_eq h.lies h.root, hindex, (stays_iff h ht hmem).mpr hstays, if_true, hvalue]
  cases herase : t.root.erase path with
  | none =>
    have hnone : c.value = none := Option.not_isSome_iff_eq_none.mp fun hsome => by
      have herases := isSome_erase_iff.mpr ⟨c, hcell, .inl hsome⟩
      rw [herase] at herases
      cases herases
    simp only [Trie.unlink, herase, hnone]
    exact ⟨_, rfl, rfl, h, rfl⟩
  | some e =>
    obtain ⟨c', hc', ⟨hnone, -, hsome, -⟩ | ⟨-, hleaves⟩⟩ := recycled_erase herase <;>
      obtain rfl := Option.some.inj (hcell.symm.trans hc')
    · obtain ⟨v, hv⟩ := Option.isSome_iff_exists.mp hsome
      have hbranch := branch_erase_of_recycled_nil herase hnone none
      simp only [Trie.unlink, herase, hnone, hv]
      refine ⟨_, rfl, rfl, ⟨h.nodes, ?_, ?_, ?_⟩, rfl⟩
      · show a.size - 1 = t.size - e.valued.toNat
        rw [h.size, valued_erase herase, get_eq_value hcell, hv]
        rfl
      · rw [hbranch]
        exact index?_graft h.root
      · rw [hbranch]
        exact h.lies.setValue ht.1.nodup_indices hindex none none
    · exact absurd hleaves hstays

/-- A node without children, other than the root, is recycled, and perhaps others above it. -/
theorem Carries.unlink_leaving [PrefixKey K] (h : a.Carries t) (ht : t.WellFormed ∧ t.Rooted)
    (r : Region σ) {path : List Bool} {c : Cell V} (hcell : (t.root.after path).cell? = some c)
    (hleaves : c.Childless ∧ c.parent.isSome) :
    ∃ ended, a.deleteAlong r path = some ended ∧ EndAlike ended (t.unlink r path) := by
  have hmem := cells_after_subset t.root path (mem_cells_of_cell? hcell)
  have hindex := index?_of_cell? hcell
  have hvalue : (a.memory c.index).value = c.value := congrArg Node.value (h.lies c hmem)
  have hgoes := mt (stays_iff h ht hmem).mp (not_not.mpr hleaves)
  obtain ⟨e, herase⟩ := Option.isSome_iff_exists.mp
    (isSome_erase_iff.mpr ⟨c, hcell, .inr hleaves⟩)
  obtain ⟨c', hc', ⟨-, -, -, hnot⟩ | ⟨hrecycled, -⟩⟩ := recycled_erase herase <;>
    obtain rfl := Option.some.inj (hcell.symm.trans hc')
  · exact absurd hleaves hnot
  -- the root stays
  have hrooted := ht.2.unlink ht.1.linked r path
  simp only [Trie.unlink, herase, Rooted] at hrooted
  have hstays : e.branch ≠ absent := by
    intro hgone
    rw [hgone] at hrooted
    cases hrooted
  have hcleared := h.lies.setValue ht.1.nodup_indices hindex none none
  obtain ⟨memory, hlies, -, hclimb⟩ := climb_of_erase
    (a := { a.write c.index { a.memory c.index with value := none } with
      size := a.size - (a.memory c.index).value.isSome.toNat })
    herase hstays hrecycled ht.1.linked ht.1.nodup_indices hcleared hindex r 0
  rw [Nat.zero_add] at hclimb
  unfold deleteAlong
  rw [follow_eq h.lies h.root, hindex]
  dsimp only
  rw [if_neg hgoes, hclimb]
  simp only [Trie.unlink, herase]
  refine ⟨_, rfl, rfl, ⟨congrArg (·.recycle e.recycled) h.nodes, ?_,
    hrooted.trans (ht.2.symm.trans h.root), hlies⟩, rfl⟩
  show a.size - _ = t.size - e.valued.toNat
  rw [h.size, hvalue, valued_erase herase, get_eq_value hcell]

/-- **A removal along a walk** does to memory what it does to the branch, and it ends. -/
theorem Carries.unlink [PrefixKey K] (h : a.Carries t) (ht : t.WellFormed ∧ t.Rooted)
    (r : Region σ) (path : List Bool) :
    ∃ ended, a.deleteAlong r path = some ended ∧ EndAlike ended (t.unlink r path) := by
  cases hcell : (t.root.after path).cell? with
  | none =>
    have habsent : t.root.after path = absent := by
      cases hnode : t.root.after path with
      | absent => rfl
      | node => rw [hnode] at hcell; cases hcell
    have herase : t.root.erase path = none := by
      rw [erase_eq_none_iff, habsent]
      rfl
    unfold deleteAlong
    simp only [follow_eq h.lies h.root, habsent, Trie.unlink, herase]
    exact ⟨_, rfl, rfl, h, rfl⟩
  | some c =>
    by_cases hleaves : c.Childless ∧ c.parent.isSome
    · exact h.unlink_leaving ht r hcell hleaves
    · exact h.unlink_staying ht r hcell hleaves

/-! ## Creation -/

/-- A root that is handed out is all that there is of the trie, whatever memory held there. -/
theorem carries_root (K : Type) (nodes : NodeStore) (memory : Nat → Node V) (root : Nat) :
    Carries (K := K) { nodes, memory := Node.overwrite memory root {}, root }
      { nodes, root := leaf root none } where
  nodes := rfl
  size := rfl
  root := rfl
  lies := LiesIn.node_iff.mpr ⟨Node.overwrite_self memory root _, .absent, .absent⟩

section Creating

open PrefixKey

variable [PrefixKey K] [RawSource σ]

theorem Carries.linkLevel (h : a.Carries t) (ht : t.WellFormed) (r : Region σ)
    (length first count : Nat) :
    (t.linkLevel r length first count).2.1.WellFormed ∧
      EndAlike (a.linkLevel r length first count) (t.linkLevel r length first count) := by
  induction count generalizing a t r first with
  | zero => exact ⟨ht, rfl, h, rfl⟩
  | succ count ih =>
    obtain ⟨path, hpath⟩ : ∃ path, path = selected (ofPrefix (K := K) first length) (mask length) :=
      ⟨_, rfl⟩
    have hfits : path.length ≤ width K := hpath ▸ length_selected_le _ _
    have hwell := ht.link r hfits none
    obtain ⟨a', hlink, hcarries⟩ := (h.link ht r path none).exists_arena
    simp only [Arena.linkLevel, Trie.linkLevel, link_eq, ← hpath, hlink]
    rcases hop : t.link r path none with ⟨fault | ⟨⟩, t', r'⟩ <;> rw [hop] at hwell hcarries
    · exact ⟨hwell, rfl, hcarries, rfl⟩
    · exact ih hcarries hwell r' (first + 1)

theorem Carries.linkLevels (h : a.Carries t) (ht : t.WellFormed) (r : Region σ)
    (first count : Nat) :
    EndAlike (a.linkLevels r first count) (t.linkLevels r first count) := by
  induction count generalizing a t r first with
  | zero => exact ⟨rfl, h, rfl⟩
  | succ count ih =>
    obtain ⟨hwell, hends⟩ := h.linkLevel ht r first 0 (1 <<< first)
    obtain ⟨a', hlevel, hcarries⟩ := hends.exists_arena
    simp only [Arena.linkLevels, Trie.linkLevels, hlevel]
    rcases hop : t.linkLevel r first 0 (1 <<< first) with ⟨fault | ⟨⟩, t', r'⟩ <;>
      rw [hop] at hwell hcarries
    · exact ⟨rfl, hcarries, rfl⟩
    · exact ih hcarries hwell r' (first + 1)

/-- **A created arena carries the trie** that is created in the same region, whatever memory held
before. -/
theorem carries_create (memory : Nat → Node V) (value : Layout) (p : Preallocation) (r : Region σ) :
    (∃ fault r', create (K := K) memory value p r = (.error fault, r') ∧
      Trie.create (K := K) (V := V) value p r = (.error fault, r')) ∨
    ∃ (a : Arena K V) (t : Trie K V) (r' : Region σ), create memory value p r = (.ok a, r') ∧
      Trie.create value p r = (.ok t, r') ∧ a.Carries t := by
  have hroot : ([] : List Bool).length ≤ PrefixKey.width K := Nat.zero_le _
  have hwell := (wellFormed_bare (K := K) (V := V) value r.heap.pageSize).link r hroot none
  unfold create Trie.create
  unfold bare at hwell
  dsimp only
  split
  · exact .inl ⟨_, _, rfl, rfl⟩
  rcases htake : NodeStore.take { shape := SlabShape.ofValue value r.heap.pageSize } r with
    ⟨fault | root, nodes, r₁⟩ <;>
    simp only [allocate, write, Trie.link, get_absent, missing_absent, List.length_nil,
      NodeStore.takeMany, htake, graft, Option.isSome_none, Bool.false_eq_true, if_false,
      Bool.toNat_false, Nat.add_zero] at hwell ⊢
  · exact .inl ⟨fault, r₁, rfl, rfl⟩
  · obtain ⟨a, hlevels, hcarries⟩ := ((carries_root K nodes memory root).linkLevels hwell r₁ 1
      (p.levels (.ofValue value r.heap.pageSize))).exists_arena
    unfold leaf at hlevels hcarries
    rw [hlevels]
    rcases hop : Trie.linkLevels _ r₁ 1 _ with ⟨fault | ⟨⟩, t, r₂⟩ <;> rw [hop] at hcarries
    · exact .inl ⟨fault, r₂, rfl, rfl⟩
    · refine .inr ⟨a, t, _, ?_, rfl, hcarries⟩
      dsimp only
      rw [hcarries.nodes]
      rfl

/-- Every created arena carries a trie. -/
theorem carries_of_create {memory : Nat → Node V} {value : Layout} {p : Preallocation}
    {r r' : Region σ} (h : create memory value p r = (.ok a, r')) :
    ∃ t, Trie.create value p r = (.ok t, r') ∧ a.Carries t := by
  rcases carries_create (K := K) memory value p r with
    ⟨fault, r₁, heq, -⟩ | ⟨a', t, r₁, heq, hcreate, hcarries⟩ <;> rw [heq] at h <;> cases h
  exact ⟨t, hcreate, hcarries⟩

end Creating

/-! ## Runs -/

section Runs

variable [PrefixKey K] [RawSource σ]

/-- Answer a call. -/
def call (a : Arena K V) (r : Region σ) :
    TrieCall K V → Option (TrieAnswer V × Arena K V × Region σ)
  | .insert key mask value =>
    match a.insert r key mask value with
    | (outcome, a, r) => some (.ofOutcome outcome, a, r)
  | .delete key mask =>
    (a.delete r key mask).map fun (outcome, a, r) => (.ofOutcome outcome, a, r)
  | .get key mask => some (.found (a.get key mask), a, r)
  | .find key => some (.found (a.find key), a, r)

/-- Answer calls one after the other, and keep a log of calls and answers. -/
def run (a : Arena K V) (r : Region σ) :
    List (TrieTurn K V σ) → Option (List (TrieCall K V × TrieAnswer V) × Arena K V × Region σ)
  | [] => some ([], a, r)
  | turn :: rest =>
    (a.call (turn.meanwhile r) turn.call).bind fun (answer, a, r) =>
      (a.run r rest).map fun (log, a, r) => ((turn.call, answer) :: log, a, r)

/-- **A call does to an arena what it does to the trie** that the arena carries, and it ends. -/
theorem Carries.call (h : a.Carries t) (ht : t.WellFormed ∧ t.Rooted) (r : Region σ)
    (c : TrieCall K V) : ∃ ended, a.call r c = some ended ∧ EndAlike ended (t.call r c) := by
  cases c with
  | insert key mask value =>
    obtain ⟨a', hlink, hcarries⟩ :=
      (h.link ht.1 r (PrefixKey.selected key mask) (some value)).exists_arena
    simp only [Arena.call, Arena.insert, link_eq, hlink]
    exact ⟨_, rfl, rfl, hcarries, rfl⟩
  | delete key mask =>
    obtain ⟨ended, hdelete, hends⟩ := h.unlink ht r (PrefixKey.selected key mask)
    simp only [Arena.call, delete_eq, hdelete]
    exact ⟨_, rfl, congrArg TrieAnswer.ofOutcome hends.outcome, hends.carries, hends.region⟩
  | get key mask =>
    simp only [Arena.call, get_eq, value_follow_eq h.lies h.root]
    exact ⟨_, rfl, rfl, h, rfl⟩
  | find key =>
    simp only [Arena.call, find_eq, findAlong_eq h.lies h.root, Option.or_none]
    exact ⟨_, rfl, rfl, h, rfl⟩

/-- **Arenas carry tries through every run.** -/
theorem Carries.run (h : a.Carries t) (ht : t.WellFormed ∧ t.Rooted) (r : Region σ)
    (turns : List (TrieTurn K V σ)) :
    ∃ ended, a.run r turns = some ended ∧ EndAlike ended (t.run r turns) := by
  induction turns generalizing a t r with
  | nil => exact ⟨_, rfl, rfl, h, rfl⟩
  | cons turn rest ih =>
    have hwell := WellFormed.call ht (turn.meanwhile r) turn.call
    obtain ⟨ended, hcall, hends⟩ := h.call ht (turn.meanwhile r) turn.call
    obtain ⟨a', rfl, hcarries⟩ := hends.exists_arena
    simp only [Arena.run, Trie.run, hcall, Option.bind_some]
    rcases hop : t.call (turn.meanwhile r) turn.call with ⟨answer, t', r'⟩
    rw [hop] at hwell hcarries
    obtain ⟨ended, hrun, hends⟩ := ih hcarries hwell r'
    rw [hrun]
    exact ⟨_, rfl, congrArg ((turn.call, answer) :: ·) hends.outcome, hends.carries, hends.region⟩

end Runs

end RegionTrie.Arena
