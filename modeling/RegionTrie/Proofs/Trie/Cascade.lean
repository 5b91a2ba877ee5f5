import RegionTrie.Proofs.Trie.Links

/-!
# What a removal recycles

A removal ends at the cell of a node. If that cell has children or is the root, it loses its value
and nothing else happens. Otherwise it is recycled, and so is, from the bottom up, every cell above
it that has no other purpose, until one is met that has. This module says which cells a removal
recycles, in which order, and what becomes of the others.

## Main definitions

* `Cell.Needed`: a cell has a purpose besides its link to a given child
* `Cell.Cascade`: the walk that recycles cells from the bottom up
* `Cell.collapse`, `Cell.clear`: what becomes of a cell when others are recycled, and when a value
  is removed

## Main results

* `Branch.isSome_erase_iff`, `Branch.recycled_erase`: the cell at the end of the path decides
  whether there is something to remove, and whether anything is recycled
* `Branch.cells_erase_of_recycled_nil`: a removal that recycles nothing clears one cell
* `Branch.cascade_of_erase`: a removal that recycles nodes recycles those of a walk
-/

namespace RegionTrie

namespace Cell

variable {V : Type}

/-- The cell has no link to a child. -/
def Childless (c : Cell V) : Prop :=
  c.zero = none ∧ c.one = none

/-- The cell without its link to a node. -/
def unlink (c : Cell V) (node : Nat) : Cell V :=
  { c with zero := c.zero.filter (· ≠ node), one := c.one.filter (· ≠ node) }

/-- The cell has a purpose besides its link to a node: it is the root, or it has a value or another
child. -/
def Needed (c : Cell V) (node : Nat) : Prop :=
  c.index = 0 ∨ c.value.isSome ∨ ∃ bit j, c.child bit = some j ∧ j ≠ node

/-- The walk that recycles cells from `node` upwards, following the links to parents: `gone` are the
nodes recycled, in that order, `top` is the last of them, and `survivor`, its parent, is the first
one on the way that has a purpose besides its link to the node below. -/
inductive Cascade (cells : List (Cell V)) :
    (node : Nat) → (gone : List Nat) → (top survivor : Nat) → Prop
  | stop {node up : Nat} {c p : Cell V} (hnode : find? cells node = some c)
      (hparent : c.parent = some up) (hup : find? cells up = some p) (hneeded : p.Needed node) :
      Cascade cells node [node] node up
  | climb {node up top survivor : Nat} {gone : List Nat} {c p : Cell V}
      (hnode : find? cells node = some c) (hparent : c.parent = some up)
      (hup : find? cells up = some p) (hidle : ¬ p.Needed node)
      (habove : Cascade cells up gone top survivor) :
      Cascade cells node (node :: gone) top survivor

/-- What becomes of a cell when others are recycled: it is gone if it is one of them, and otherwise
it stays as it is, except that the survivor has lost its link to the last one recycled. -/
def collapse (gone : List Nat) (top survivor : Nat) (c : Cell V) : Option (Cell V) :=
  if c.index ∈ gone then none
  else if c.index = survivor then some (c.unlink top)
  else some c

/-- What becomes of a cell when a node has lost its value. -/
def clear (node : Nat) (c : Cell V) : Cell V :=
  if c.index = node then { c with value := none } else c

variable {gone : List Nat} {top survivor node : Nat} {c : Cell V}

theorem collapse_of_ne (hgone : c.index ∉ gone) (hsurvivor : c.index ≠ survivor) :
    c.collapse gone top survivor = some c := by
  rw [collapse, if_neg hgone, if_neg hsurvivor]

theorem clear_of_ne (h : c.index ≠ node) : c.clear node = c :=
  if_neg h

end Cell

namespace Branch

open Cell

variable {V : Type}

/-- The cell of the first node, if there is one. -/
def cell? : Branch V → Option (Cell V)
  | absent => none
  | node i up v zero one => some ⟨i, up, v, zero.index?, one.index?⟩

theorem index?_of_cell? {b : Branch V} {c : Cell V} (h : b.cell? = some c) :
    b.index? = some c.index := by
  cases b with
  | absent => cases h
  | node i up v zero one =>
    obtain rfl := Option.some.inj h
    rfl

theorem mem_cells_of_cell? {b : Branch V} {c : Cell V} (h : b.cell? = some c) : c ∈ b.cells := by
  cases b with
  | absent => cases h
  | node i up v zero one =>
    obtain rfl := Option.some.inj h
    exact List.mem_cons_self

theorem index?_eq_none_iff {b : Branch V} : b.index? = none ↔ b = absent := by
  cases b <;> simp [index?]

theorem index_mem_indices_of_mem {b : Branch V} {c : Cell V} (h : c ∈ b.cells) :
    c.index ∈ b.indices :=
  List.mem_map_of_mem h

theorem indices_child_subset (b : Branch V) (bit : Bool) : (b.child bit).indices ⊆ b.indices :=
  List.map_subset _ (cells_child_subset b bit)

/-- Where no index occurs twice, the first node, its children and what is below them have no index
in common. -/
theorem nodup_child {i : Nat} {up : Option Nat} {v : Option V} {zero one : Branch V}
    (h : (node i up v zero one).indices.Nodup) (bit : Bool) :
    i ∉ ((node i up v zero one).child bit).indices ∧
      ((node i up v zero one).child bit).indices.Nodup ∧
      ∀ a ∈ ((node i up v zero one).child bit).indices,
        a ∉ ((node i up v zero one).child (!bit)).indices := by
  rw [indices_node, List.nodup_cons, List.nodup_append, List.mem_append, not_or] at h
  obtain ⟨⟨hzero, hone⟩, hndZero, hndOne, hdisjoint⟩ := h
  cases bit with
  | false => exact ⟨hzero, hndZero, fun a ha ha' => hdisjoint a ha a ha' rfl⟩
  | true => exact ⟨hone, hndOne, fun a ha ha' => hdisjoint a ha' a ha rfl⟩

theorem linked_child {i : Nat} {up up' : Option Nat} {v : Option V} {zero one : Branch V}
    (h : (node i up v zero one).Linked up') (bit : Bool) :
    ((node i up v zero one).child bit).Linked (some i) := by
  cases bit with
  | false => exact h.2.1
  | true => exact h.2.2

/-- Below a node every node has a parent. -/
theorem isSome_parent_of_linked {b : Branch V} {up : Nat} (h : b.Linked (some up)) :
    ∀ c ∈ b.cells, c.parent.isSome := by
  induction b generalizing up with
  | absent => intro c hc; cases hc
  | node i up' v zero one ihZero ihOne =>
    obtain ⟨rfl, hzero, hone⟩ := h
    intro c hc
    rw [cells, List.mem_cons, List.mem_append] at hc
    rcases hc with rfl | hc | hc
    · rfl
    · exact ihZero hzero c hc
    · exact ihOne hone c hc

/-! ## Where a removal ends -/

/-- Whether there is something to remove is decided at the end of the path. -/
theorem erase_eq_none_iff {b : Branch V} {path : List Bool} :
    b.erase path = none ↔ (b.after path).erase [] = none := by
  induction path generalizing b with
  | nil => rw [after_nil]
  | cons bit path ih =>
    cases b with
    | absent => simp [erase]
    | node i up v zero one =>
      rw [after_cons, ← ih]
      simp [erase, child]

/-- The value at the end of a path is in the cell of the node there. -/
theorem get_eq_value {b : Branch V} {path : List Bool} {c : Cell V}
    (h : (b.after path).cell? = some c) : b.get path = c.value := by
  rw [← List.append_nil path, get_append]
  cases hnode : b.after path with
  | absent => rw [hnode] at h; cases h
  | node i up v zero one =>
    rw [hnode] at h
    obtain rfl := Option.some.inj h
    rfl

theorem childless_iff {i : Nat} {up : Option Nat} {v : Option V} {zero one : Branch V} :
    Childless ⟨i, up, v, zero.index?, one.index?⟩ ↔ zero = absent ∧ one = absent := by
  rw [Childless, index?_eq_none_iff, index?_eq_none_iff]

/-- There is something to remove where a node has a value, or has a parent and no child. -/
theorem isSome_erase_iff {b : Branch V} {path : List Bool} :
    (b.erase path).isSome ↔
      ∃ c, (b.after path).cell? = some c ∧ (c.value.isSome ∨ c.Childless ∧ c.parent.isSome) := by
  rw [Option.isSome_iff_ne_none, ne_eq, erase_eq_none_iff]
  cases b.after path with
  | absent => simp [erase, cell?]
  | node i up v zero one =>
    simp only [cell?, Option.some.injEq, exists_eq_left', childless_iff]
    cases up <;> cases v <;> cases zero <;> cases one <;> simp [erase, isAbsent]

/-- A removal only takes a value away if the node at the end of its path has to stay, and otherwise
it recycles nodes. -/
theorem recycled_erase {b : Branch V} {path : List Bool} {e : Erasure V}
    (h : b.erase path = some e) :
    ∃ c, (b.after path).cell? = some c ∧
      ((e.recycled = [] ∧ e.branch ≠ absent ∧ c.value.isSome ∧ ¬ (c.Childless ∧ c.parent.isSome)) ∨
        (e.recycled ≠ [] ∧ c.Childless ∧ c.parent.isSome)) := by
  induction path generalizing b e with
  | nil =>
    cases b with
    | absent => cases h
    | node i up v zero one =>
      refine ⟨_, rfl, ?_⟩
      rw [childless_iff]
      rcases erase_nil_cases h with ⟨hup, hzero, hone, rfl⟩ | ⟨w, rfl, hstays, rfl⟩
      · exact .inr ⟨List.cons_ne_nil _ _, ⟨hzero, hone⟩, hup⟩
      · refine .inl ⟨rfl, by simp, rfl, ?_⟩
        rintro ⟨⟨hzero, hone⟩, hup⟩
        obtain ⟨j, rfl⟩ := Option.isSome_iff_exists.mp hup
        simp [hzero, hone] at hstays
  | cons bit path ih =>
    cases b with
    | absent => cases h
    | node i up v zero one =>
      rw [after_cons]
      obtain ⟨e', he', (⟨hgone, -, -, -, rfl⟩ | ⟨-, rfl⟩)⟩ := erase_cons_cases h
      · -- nothing is left of the child, so the child was recycled
        obtain ⟨c, hc, ⟨-, hstays, -⟩ | ⟨-, hend⟩⟩ := ih he'
        · exact absurd hgone hstays
        · exact ⟨c, hc, .inr ⟨by simp, hend⟩⟩
      · obtain ⟨c, hc, hend⟩ := ih he'
        refine ⟨c, hc, hend.imp_left fun ⟨hnone, _, hend⟩ => ⟨hnone, ?_, hend⟩⟩
        cases bit <;> simp [setChild]

/-- What a removal leaves of a branch still starts with the same node. -/
theorem index_erase {b : Branch V} {path : List Bool} {e : Erasure V} (h : b.erase path = some e)
    (hstays : e.branch ≠ absent) : e.branch.index? = b.index? := by
  cases erases_of_erase h with
  | leaf hup => exact absurd rfl hstays
  | value => rfl
  | prune hbelow hup hgone hother => exact absurd rfl hstays
  | @keep _ _ _ _ _ bit path e hbelow => cases bit <;> rfl

/-! ## What becomes of the cells -/

/-- The cell of a node does not change with a child whose index does not. -/
theorem cell?_setChild {i : Nat} {up : Option Nat} {v : Option V} {zero one b : Branch V}
    {bit : Bool} (h : b.index? = ((node i up v zero one).child bit).index?) :
    ((node i up v zero one).setChild bit b).cell? = (node i up v zero one).cell? := by
  cases bit <;> simp_all [setChild, cell?, child]

/-- Where every cell of one child is treated like the cells of that child, and those of the other
child stay, it comes down to the first cell. -/
theorem cells_setChild {i : Nat} {up : Option Nat} {v : Option V} {zero one b : Branch V}
    {bit : Bool} {f : Cell V → Option (Cell V)}
    (hfirst : f ⟨i, up, v, zero.index?, one.index?⟩ = ((node i up v zero one).setChild bit b).cell?)
    (hchild : b.cells = ((node i up v zero one).child bit).cells.filterMap f)
    (hother : ∀ c ∈ ((node i up v zero one).child (!bit)).cells, f c = some c) :
    ((node i up v zero one).setChild bit b).cells = (node i up v zero one).cells.filterMap f := by
  have hsame := (List.filterMap_congr hother).trans List.filterMap_some
  cases bit with
  | false =>
    simp only [setChild, cell?] at hfirst
    simp only [setChild, cells, child, Bool.not_false, if_true, Bool.false_eq_true, if_false]
      at hchild hsame ⊢
    rw [List.filterMap_cons_some hfirst, List.filterMap_append, hsame, hchild]
  | true =>
    simp only [setChild, cell?] at hfirst
    simp only [setChild, cells, child, Bool.not_true, if_true, Bool.false_eq_true, if_false]
      at hchild hsame ⊢
    rw [List.filterMap_cons_some hfirst, List.filterMap_append, hsame, hchild]

/-- A removal that recycles no node clears the cell at the end of its path. -/
theorem cells_erase_of_recycled_nil {b : Branch V} {path : List Bool} {e : Erasure V}
    (h : b.erase path = some e) (hnone : e.recycled = []) (hnd : b.indices.Nodup) {i : Nat}
    (hi : (b.after path).index? = some i) :
    e.branch.cells = b.cells.filterMap fun c => some (c.clear i) := by
  induction path generalizing b e with
  | nil =>
    cases b with
    | absent => cases h
    | node j up v zero one =>
      obtain rfl := Option.some.inj hi
      rcases erase_nil_cases h with ⟨-, rfl, rfl, rfl⟩ | ⟨w, rfl, -, rfl⟩
      · cases hnone
      · -- the index does not occur again further down
        rw [indices_node, List.nodup_cons] at hnd
        have hsame : (zero.cells ++ one.cells).filterMap (fun c => some (c.clear j)) =
            zero.cells ++ one.cells := by
          refine (List.filterMap_congr fun c hc => ?_).trans List.filterMap_some
          rw [clear_of_ne]
          rintro rfl
          rw [indices, indices, ← List.map_append] at hnd
          exact hnd.1 (List.mem_map_of_mem hc)
        rw [cells, cells, List.filterMap_cons, hsame]
        simp [clear]
  | cons bit path ih =>
    cases b with
    | absent => cases h
    | node j up v zero one =>
      rw [after_cons] at hi
      obtain ⟨hfirst, hchild, hother⟩ := nodup_child hnd bit
      obtain ⟨e', he', (⟨-, -, -, -, rfl⟩ | ⟨-, rfl⟩)⟩ := erase_cons_cases h
      · simp at hnone
      · have hmem := mem_indices_of_after hi
        refine cells_setChild ?_ (ih he' hnone hchild hi) fun c hc => ?_
        · have hne : j ≠ i := fun heq => hfirst (heq ▸ hmem)
          rw [clear_of_ne hne, cell?_setChild, cell?]
          obtain ⟨c, -, ⟨-, hstays, -⟩ | ⟨hsome, -⟩⟩ := recycled_erase he'
          · exact index_erase he' hstays
          · exact absurd hnone hsome
        · rw [clear_of_ne]
          rintro rfl
          exact hother _ hmem (index_mem_indices_of_mem hc)

/-! ## Recycling nodes -/

section Cascading

variable {all : List (Cell V)}

/-- The cell of the first node of a branch is found among all cells. -/
theorem find?_of_cell? (hall : (all.map Cell.index).Nodup) {b : Branch V} (hsub : b.cells ⊆ all)
    {c : Cell V} (hc : b.cell? = some c) : find? all c.index = some c :=
  find?_index_of_mem hall (hsub (mem_cells_of_cell? hc))

/-- The first node of a child and the node above it, as they are found among all cells. -/
theorem exists_cell_child (hall : (all.map Cell.index).Nodup) {i j : Nat} {up : Option Nat}
    {v : Option V} {zero one : Branch V} {bit : Bool}
    (hsub : (node i up v zero one).cells ⊆ all) {up' : Option Nat}
    (hlinked : (node i up v zero one).Linked up')
    (hj : ((node i up v zero one).child bit).index? = some j) :
    find? all i = some ⟨i, up, v, zero.index?, one.index?⟩ ∧
      ∃ c, find? all j = some c ∧ c.parent = some i := by
  refine ⟨find?_of_cell? hall hsub rfl, ?_⟩
  obtain ⟨c, hc, rfl, hparent, -⟩ := exists_cell_of_index hj
  exact ⟨c, find?_index_of_mem hall (hsub (cells_child_subset _ bit hc)),
    hparent _ (linked_child hlinked bit)⟩

/-- Besides its link to one child, a node has a purpose if it is the root, or has a value or another
child. -/
theorem needed_iff {i j : Nat} {up : Option Nat} {v : Option V} {zero one : Branch V} {bit : Bool}
    (hnd : (node i up v zero one).indices.Nodup)
    (hj : ((node i up v zero one).child bit).index? = some j) :
    Needed ⟨i, up, v, zero.index?, one.index?⟩ j ↔
      i = 0 ∨ v.isSome ∨ (node i up v zero one).child (!bit) ≠ absent := by
  have hlink : ∀ bit', Cell.child ⟨i, up, v, zero.index?, one.index?⟩ bit' =
      ((node i up v zero one).child bit').index? := by
    intro bit'
    cases bit' <;> rfl
  refine or_congr_right (or_congr_right ⟨?_, fun hother => ?_⟩)
  · rintro ⟨bit', k, hk, hne⟩ hother
    rw [hlink] at hk
    -- the link is not that to the first child, and there is no other
    by_cases hbit : bit' = bit
    · subst hbit
      exact hne (Option.some.inj (hk.symm.trans hj))
    · rw [Bool.eq_not.mpr hbit, hother] at hk
      cases hk
  · obtain ⟨k, hk⟩ := Option.ne_none_iff_exists'.mp fun h => hother (index?_eq_none_iff.mp h)
    refine ⟨!bit, k, by rw [hlink, hk], ?_⟩
    rintro rfl
    exact (nodup_child hnd bit).2.2 k (index_mem_indices hj) (index_mem_indices hk)

/-- Without its link to a child, the cell of a node is that of the node without the child. -/
theorem unlink_cell {i j : Nat} {up : Option Nat} {v : Option V} {zero one : Branch V} {bit : Bool}
    (hnd : (node i up v zero one).indices.Nodup)
    (hj : ((node i up v zero one).child bit).index? = some j) :
    some (Cell.unlink ⟨i, up, v, zero.index?, one.index?⟩ j) =
      ((node i up v zero one).setChild bit absent).cell? := by
  have hother : ((node i up v zero one).child (!bit)).index? ≠ some j := fun h =>
    (nodup_child hnd bit).2.2 j (index_mem_indices hj) (index_mem_indices h)
  -- the other link leads elsewhere
  have hsame : ∀ link : Option Nat, link ≠ some j → link.filter (· ≠ j) = link := by
    intro link hne
    cases link with
    | none => rfl
    | some k => simpa using fun heq => hne (congrArg some heq)
  have hlost : (some j).filter (· ≠ j) = (absent : Branch V).index? := by simp [index?]
  cases bit with
  | false =>
    simp only [child, Bool.not_false, if_true, Bool.false_eq_true, if_false] at hj hother
    simp only [unlink, setChild, cell?, hj, hsame _ hother, hlost]
  | true =>
    simp only [child, Bool.not_true, if_true, Bool.false_eq_true, if_false] at hj hother
    simp only [unlink, setChild, cell?, hj, hsame _ hother, hlost]

variable (hall : (all.map Cell.index).Nodup)
  (hroot : ∀ c ∈ all, c.parent = none ↔ c.index = 0)

include hall hroot

/-- Where a removal leaves nothing of a branch, the walk from the end of the path comes to the first
node of the branch and goes on from there. -/
theorem cascade_of_gone {b : Branch V} {path : List Bool} {e : Erasure V} {up : Option Nat}
    (h : b.erase path = some e) (hgone : e.branch = absent) (hsub : b.cells ⊆ all)
    (hnd : b.indices.Nodup) (hlinked : b.Linked up) :
    ∃ target i front, (b.after path).index? = some target ∧ b.index? = some i ∧
      e.recycled = front ++ [i] ∧ ∀ gone top survivor, Cascade all i gone top survivor →
        Cascade all target (front ++ gone) top survivor := by
  induction path generalizing b e up with
  | nil =>
    cases b with
    | absent => cases h
    | node i up' v zero one =>
      rcases erase_nil_cases h with ⟨-, rfl, rfl, rfl⟩ | ⟨w, rfl, -, rfl⟩
      · exact ⟨i, i, [], rfl, rfl, rfl, fun _ _ _ => id⟩
      · cases hgone
  | cons bit path ih =>
    cases b with
    | absent => cases h
    | node i up' v zero one =>
      obtain ⟨e', he', (⟨hgone', hup, hvalue, hother, rfl⟩ | ⟨-, rfl⟩)⟩ := erase_cons_cases h
      · obtain ⟨target, j, front, htarget, hj, hrecycled, hwalk⟩ := ih he' hgone'
          (List.Subset.trans (cells_child_subset _ bit) hsub) (nodup_child hnd bit).2.1
          (linked_child hlinked bit)
        obtain ⟨hfound, c, hc, hparent⟩ := exists_cell_child hall hsub hlinked hj
        refine ⟨target, i, front ++ [j], by rwa [after_cons], rfl, by rw [hrecycled], ?_⟩
        intro gone top survivor hrest
        -- the node is not the root, and has neither a value nor another child
        have hidle : ¬ Needed ⟨i, up', v, zero.index?, one.index?⟩ j := by
          rw [needed_iff hnd hj, not_or, not_or, not_not]
          refine ⟨fun hzero => ?_, by simp [hvalue], hother⟩
          obtain rfl : up' = none := (hroot _ (hsub List.mem_cons_self)).mpr hzero
          cases hup
        rw [List.append_assoc]
        exact hwalk _ _ _ (.climb hc hparent hfound hidle hrest)
      · cases bit <;> cases hgone

/-- **The nodes that a removal recycles** are those of the walk from the end of the path, up to the
first node that has another purpose, and the other cells stay as they are, up to the one link from
that node. -/
theorem cascade_of_erase {b : Branch V} {path : List Bool} {e : Erasure V} {up : Option Nat}
    (h : b.erase path = some e) (hstays : e.branch ≠ absent) (hrecycled : e.recycled ≠ [])
    (hsub : b.cells ⊆ all) (hnd : b.indices.Nodup) (hlinked : b.Linked up) :
    ∃ target top survivor, (b.after path).index? = some target ∧
      Cascade all target e.recycled top survivor ∧ survivor ∈ b.indices ∧
      e.branch.cells = b.cells.filterMap (Cell.collapse e.recycled top survivor) := by
  induction path generalizing b e up with
  | nil =>
    cases b with
    | absent => cases h
    | node i up' v zero one =>
      rcases erase_nil_cases h with ⟨-, rfl, rfl, rfl⟩ | ⟨w, rfl, -, rfl⟩
      · exact absurd rfl hstays
      · exact absurd rfl hrecycled
  | cons bit path ih =>
    cases b with
    | absent => cases h
    | node i up' v zero one =>
      obtain ⟨hfirst, hndChild, hother⟩ := nodup_child hnd bit
      have hsubChild := List.Subset.trans (cells_child_subset (node i up' v zero one) bit) hsub
      have hlinkedChild := linked_child hlinked bit
      obtain ⟨e', he', (⟨-, -, -, -, rfl⟩ | ⟨hneeded, rfl⟩)⟩ := erase_cons_cases h
      · exact absurd rfl hstays
      have hperm := perm_indices_erase he'
      have hbelow : ∀ a ∈ e'.recycled, a ∈ ((node i up' v zero one).child bit).indices :=
        fun a ha => hperm.subset (List.mem_append_left _ ha)
      have hkept : i ∉ e'.recycled := fun hmem => hfirst (hbelow i hmem)
      simp only [after_cons]
      by_cases hgone : e'.branch = absent
      · -- the whole child is recycled, and the walk ends at this node
        obtain ⟨target, j, front, htarget, hj, hfront, hwalk⟩ :=
          cascade_of_gone hall hroot he' hgone hsubChild hndChild hlinkedChild
        obtain ⟨hfound, c, hc, hparent⟩ := exists_cell_child hall hsub hlinked hj
        have hstop : Needed ⟨i, up', v, zero.index?, one.index?⟩ j :=
          (needed_iff hnd hj).mpr ((hneeded hgone).imp_left (hroot _ (hsub List.mem_cons_self)).mp)
        refine ⟨target, j, i, htarget, ?_, by simp, ?_⟩
        · rw [hfront]
          exact hwalk _ _ _ (.stop hc hparent hfound hstop)
        · refine cells_setChild ?_ ?_ fun c hc => ?_
          · rw [hgone, ← unlink_cell hnd hj, Cell.collapse, if_neg hkept, if_pos rfl]
          · rw [hgone, indices_absent, List.append_nil] at hperm
            rw [hgone]
            symm
            refine List.filterMap_eq_nil_iff.mpr fun c hc => ?_
            exact if_pos (hperm.mem_iff.mpr (index_mem_indices_of_mem hc))
          · refine collapse_of_ne (fun hmem => ?_) ?_
            · exact hother _ (hbelow _ hmem) (index_mem_indices_of_mem hc)
            · rintro rfl
              exact (nodup_child hnd (!bit)).1 (index_mem_indices_of_mem hc)
      · obtain ⟨target, top, survivor, htarget, hwalk, hmem, hcells⟩ :=
          ih he' hgone hrecycled hsubChild hndChild hlinkedChild
        refine ⟨target, top, survivor, htarget, hwalk, indices_child_subset _ bit hmem, ?_⟩
        refine cells_setChild ?_ hcells fun c hc => ?_
        · have hne : i ≠ survivor := fun heq => hfirst (heq ▸ hmem)
          rw [collapse_of_ne hkept hne, cell?_setChild, cell?]
          exact index_erase he' hgone
        · refine collapse_of_ne (fun hmem => ?_) ?_
          · exact hother _ (hbelow _ hmem) (index_mem_indices_of_mem hc)
          · rintro rfl
            exact hother _ hmem (index_mem_indices_of_mem hc)

end Cascading

end Branch

end RegionTrie
