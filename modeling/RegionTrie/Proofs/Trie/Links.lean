import RegionTrie.Proofs.Trie.Places

/-!
# Cells and links

A node is kept in a cell of memory, which names the cells of its children and of its parent by
their indices. This module lists the cells of a branch and says what becomes of the indices, the
parent links and the values when nodes are put in and removed. Where no index occurs twice, going
from cell to cell along the links is the same as going down the branch.

## Main definitions

* `Cell`, `Branch.cells`: what memory holds for a node, and for all nodes of a branch
* `Branch.indices`, `Branch.valued`: the indices that occur, and how many nodes have a value
* `Branch.Linked`: every node names its parent
* `Cell.follow`: go from cell to cell along a path

## Main results

* `perm_indices_graft`, `perm_indices_erase`: which indices come in and go out
* `index_after_graft`: where the new ones are
* `linked_graft`, `linked_erase`: parent links stay right
* `path_unique`: no node lies at the ends of two paths
* `follow_eq_index_after`: links lead where the branch leads
-/

namespace RegionTrie

/-- What memory holds for a node: its own index, links to its parent and its children, and its
value. -/
structure Cell (V : Type) where
  index : Nat
  parent : Option Nat
  value : Option V
  zero : Option Nat
  one : Option Nat

namespace Cell

variable {V : Type}

/-- The link to the child for one value of the next bit. -/
def child (c : Cell V) (bit : Bool) : Option Nat :=
  if bit then c.one else c.zero

/-- The cell with an index. -/
def find? (cells : List (Cell V)) (index : Nat) : Option (Cell V) :=
  cells.find? fun c => c.index == index

/-- The index of the cell at the end of a path that starts at the cell with the given index. -/
def follow (cells : List (Cell V)) : List Bool → Nat → Option Nat
  | [], index => some index
  | bit :: path, index =>
    ((find? cells index).bind fun c => c.child bit).bind (follow cells path)

theorem find?_index_of_mem {cells : List (Cell V)} (h : (cells.map Cell.index).Nodup)
    {c : Cell V} (hc : c ∈ cells) : find? cells c.index = some c := by
  induction cells with
  | nil => cases hc
  | cons d rest ih =>
    simp only [List.map_cons, List.nodup_cons, List.mem_map, not_exists, not_and] at h
    rcases List.mem_cons.mp hc with rfl | hc
    · simp [find?]
    · have hne : d.index ≠ c.index := fun heq => h.1 c hc heq.symm
      rw [← ih h.2 hc]
      simp [find?, hne]

end Cell

namespace Branch

variable {V : Type}

/-- The index of the first node, if there is one. -/
def index? : Branch V → Option Nat
  | absent => none
  | node i _ _ _ _ => some i

/-- The cells of all nodes, each before those of its children. -/
def cells : Branch V → List (Cell V)
  | absent => []
  | node i up v zero one => ⟨i, up, v, zero.index?, one.index?⟩ :: (zero.cells ++ one.cells)

/-- The indices of all nodes. -/
def indices (b : Branch V) : List Nat :=
  b.cells.map Cell.index

/-- The number of nodes with a value. -/
def valued (b : Branch V) : Nat :=
  b.cells.countP fun c => c.value.isSome

/-- Every node names its parent, and the first one names `up`. -/
def Linked : Option Nat → Branch V → Prop
  | _, absent => True
  | up, node i up' _ zero one => up' = up ∧ zero.Linked (some i) ∧ one.Linked (some i)

@[simp] theorem indices_absent : (absent : Branch V).indices = [] := rfl

@[simp] theorem indices_node (i : Nat) (up : Option Nat) (v : Option V) (zero one : Branch V) :
    (node i up v zero one).indices = i :: (zero.indices ++ one.indices) := by
  simp [indices, cells]

@[simp] theorem valued_absent : (absent : Branch V).valued = 0 := rfl

@[simp] theorem valued_node (i : Nat) (up : Option Nat) (v : Option V) (zero one : Branch V) :
    (node i up v zero one).valued = zero.valued + one.valued + v.isSome.toNat := by
  cases v <;> simp [valued, cells]

theorem isAbsent_eq_false_iff {b : Branch V} : b.isAbsent = false ↔ ∃ i, b.index? = some i := by
  cases b <;> simp [isAbsent, index?]

theorem holds_iff_index {b : Branch V} {path : List Bool} :
    b.Holds path ↔ ∃ i, (b.after path).index? = some i :=
  isAbsent_eq_false_iff

/-- Nothing is at the end of a path exactly if a node of it is missing. -/
theorem index_after_eq_none_iff {b : Branch V} {path : List Bool} :
    (b.after path).index? = none ↔ b.missing path ≠ 0 := by
  rw [ne_eq, missing_eq_zero_iff, holds_iff_index, ← Option.isSome_iff_exists,
    Option.not_isSome_iff_eq_none]

/-! ## Putting nodes in -/

/-- Putting nodes in adds exactly their indices. -/
theorem perm_indices_graft {value : Option V} {b : Branch V} {up : Option Nat} {path : List Bool}
    {fresh : List Nat} (h : fresh.length ≤ b.missing path) :
    (graft value b up path fresh).indices.Perm (fresh ++ b.indices) := by
  -- no index is left over at the end of the path, as there are no more than places that lack a node
  fun_induction graft value b up path fresh with
  | case1 up path => simp
  | case2 up i fresh =>
    obtain rfl : fresh = [] := by simpa [missing_absent] using h
    simp
  | case3 up path i fresh ih =>
    have hrest := ih (by simpa [missing_absent] using h)
    simpa using hrest.cons i
  | case4 up path i fresh ih =>
    have hrest := ih (by simpa [missing_absent] using h)
    simpa using hrest.cons i
  | case5 i up v zero one up' fresh =>
    obtain rfl : fresh = [] := by simpa [missing] using h
    simp
  | case6 i up v zero one up' path fresh ih | case7 i up v zero one up' path fresh ih =>
    have hchild := ih (by simpa [missing] using h)
    -- new indices come behind this node, so the order is not that of the statement
    refine List.perm_iff_count.mpr fun a => ?_
    have hcount := hchild.count_eq a
    simp only [indices_node, List.count_append, List.count_cons] at hcount ⊢
    omega

/-- The nodes at the ends of paths after nodes were put in: the old ones, and the new ones in their
order. -/
theorem index_after_graft {value : Option V} {b : Branch V} {up : Option Nat} {path : List Bool}
    {fresh : List Nat} {q : List Bool} :
    ((graft value b up path fresh).after q).index? =
      (b.after q).index?.or (if q <+: path then fresh[b.missing q - 1]? else none) := by
  fun_induction graft value b up path fresh generalizing q with
  | case1 up path => simp [index?]
  | case2 up i fresh =>
    rcases q with _ | ⟨bit, q⟩
    · simp [index?, missing]
    · simp [index?, child]
  | case3 up path i fresh ih | case4 up path i fresh ih =>
    rcases q with _ | ⟨bit, q⟩
    · simp [index?, missing]
    · have hbelow := ih (q := q)
      cases bit <;> simp_all [child, index?, missing_absent, List.cons_prefix_cons]
  | case5 i up v zero one up' fresh =>
    rcases q with _ | ⟨bit, q⟩
    · simp [index?]
    · cases bit <;> simp [child]
  | case6 i up v zero one up' path fresh ih | case7 i up v zero one up' path fresh ih =>
    rcases q with _ | ⟨bit, q⟩
    · simp [index?]
    · have hbelow := ih (q := q)
      cases bit <;> simp_all [child, missing, List.cons_prefix_cons]

/-- Where one node is missing at the end of a path, one node more is at the end of that path. -/
theorem index_after_graft_one {b : Branch V} {path : List Bool} (h : b.missing path = 1)
    (value : Option V) (up : Option Nat) (i : Nat) (q : List Bool) :
    ((graft value b up path [i]).after q).index? =
      if q = path then some i else (b.after q).index? := by
  rw [index_after_graft]
  by_cases hq : q = path
  · subst hq
    rw [index_after_eq_none_iff.mpr (by omega), h]
    simp
  · rw [if_neg hq]
    by_cases hpre : q <+: path
    · obtain ⟨j, hj⟩ := holds_iff_index.mp (holds_of_missing_eq_one h hpre hq)
      rw [hj]
      rfl
    · rw [if_neg hpre, Option.or_none]

/-- New nodes name their parents. -/
theorem linked_graft {value : Option V} {b : Branch V} {up : Option Nat} {path : List Bool}
    {fresh : List Nat} (h : b.Linked up) : (graft value b up path fresh).Linked up := by
  fun_induction graft value b up path fresh with
  | case1 up path => exact h
  | case2 up i fresh => exact ⟨rfl, trivial, trivial⟩
  | case3 up path i fresh ih => exact ⟨rfl, ih trivial, trivial⟩
  | case4 up path i fresh ih => exact ⟨rfl, trivial, ih trivial⟩
  | case5 i up v zero one up' fresh => exact h
  | case6 i up v zero one up' path fresh ih => exact ⟨h.1, ih h.2.1, h.2.2⟩
  | case7 i up v zero one up' path fresh ih => exact ⟨h.1, h.2.1, ih h.2.2⟩

/-- At a path without a value, putting nodes in adds at most the one new value. -/
theorem valued_graft {value : Option V} {b : Branch V} {up : Option Nat} {path : List Bool}
    {fresh : List Nat} (h : b.get path = none) :
    (graft value b up path fresh).valued =
      b.valued + if b.missing path ≤ fresh.length then value.isSome.toNat else 0 := by
  fun_induction graft value b up path fresh with
  | case1 up path => simp [missing_absent]
  | case2 up i fresh => simp [missing_absent]
  | case3 up path i fresh ih | case4 up path i fresh ih => simp [ih, missing_absent]
  | case5 i up v zero one up' fresh =>
    obtain rfl : v = none := h
    simp [missing]
  | case6 i up v zero one up' path fresh ih =>
    have hzero := ih (by simpa [child] using h)
    simp only [valued_node, hzero, missing, Bool.false_eq_true, if_false]
    omega
  | case7 i up v zero one up' path fresh ih =>
    have hone := ih (by simpa [child] using h)
    simp only [valued_node, hone, missing, if_true]
    omega

/-! ## Removing -/

theorem perm_indices_setChild {i : Nat} {up : Option Nat} {v : Option V} {zero one b : Branch V}
    {bit : Bool} {gone : List Nat}
    (h : (gone ++ b.indices).Perm ((node i up v zero one).child bit).indices) :
    (gone ++ ((node i up v zero one).setChild bit b).indices).Perm
      (node i up v zero one).indices := by
  refine List.perm_iff_count.mpr fun a => ?_
  have hcount := h.count_eq a
  cases bit <;>
    simp only [child, setChild, indices_node, List.count_append, List.count_cons, if_true,
      Bool.false_eq_true, if_false] at hcount ⊢ <;>
    omega

/-- A removal takes out exactly the indices that it reports. -/
theorem perm_indices_erase {b : Branch V} {path : List Bool} {e : Erasure V}
    (h : b.erase path = some e) : (e.recycled ++ e.branch.indices).Perm b.indices := by
  replace h := erases_of_erase h
  induction h with
  | leaf hup => simp
  | value => simp
  | @prune i up zero one bit path e hbelow hup hgone hother ih =>
    rw [hgone, indices_absent, List.append_nil] at ih
    -- the child on the path was all that there was below the node
    have hall : (node i up none zero one).indices.Perm
        (i :: ((node i up none zero one).child bit).indices) := by
      cases bit <;> simp_all [child]
    simpa using (List.perm_append_singleton i e.recycled).trans ((ih.cons i).trans hall.symm)
  | keep hbelow ih => exact perm_indices_setChild ih

/-- What a removal leaves still names its parents. -/
theorem linked_erase {b : Branch V} {path : List Bool} {e : Erasure V} {up : Option Nat}
    (h : b.erase path = some e) (hb : b.Linked up) : e.branch.Linked up := by
  replace h := erases_of_erase h
  induction h generalizing up with
  | leaf hup => trivial
  | value => exact hb
  | prune hbelow hup hgone hother ih => trivial
  | @keep i up' v zero one bit path e hbelow ih =>
    cases bit with
    | false => exact ⟨hb.1, ih hb.2.1, hb.2.2⟩
    | true => exact ⟨hb.1, hb.2.1, ih hb.2.2⟩

/-- A removal takes at most the one value away. -/
theorem valued_erase_add {b : Branch V} {path : List Bool} {e : Erasure V}
    (h : b.erase path = some e) : e.branch.valued + e.valued.toNat = b.valued := by
  replace h := erases_of_erase h
  induction h with
  | leaf hup => simp
  | value => simp
  | @prune i up zero one bit path e hbelow hup hgone hother ih =>
    rw [hgone] at ih
    cases bit <;> simp_all [child]
  | @keep i up v zero one bit path e hbelow ih =>
    cases bit with
    | false =>
      simp only [child, setChild, valued_node, Bool.false_eq_true, if_false] at ih ⊢
      omega
    | true =>
      simp only [child, setChild, valued_node, if_true] at ih ⊢
      omega

/-- A node without a parent is not removed. -/
theorem index_erase_of_root {i : Nat} {v : Option V} {zero one : Branch V} {path : List Bool}
    {e : Erasure V} (h : (node i none v zero one).erase path = some e) :
    e.branch.index? = some i := by
  cases erases_of_erase h with
  | leaf hup => cases hup
  | value => rfl
  | prune hbelow hup hgone hother => cases hup
  | @keep _ _ _ _ _ bit path e hbelow => cases bit <;> rfl

/-! ## Following links -/

theorem cells_child_subset (b : Branch V) (bit : Bool) : (b.child bit).cells ⊆ b.cells := by
  cases b with
  | absent => simp
  | node i up v zero one => cases bit <;> simp [child, cells]

theorem cells_after_subset (b : Branch V) (path : List Bool) : (b.after path).cells ⊆ b.cells := by
  induction path generalizing b with
  | nil => simp
  | cons bit path ih =>
    rw [after_cons]
    exact List.Subset.trans (ih (b.child bit)) (cells_child_subset b bit)

/-- The cell of the first node of a branch is among its cells. -/
theorem exists_cell_of_index {b : Branch V} {i : Nat} (h : b.index? = some i) :
    ∃ c ∈ b.cells, c.index = i ∧ (∀ up, b.Linked up → c.parent = up) ∧
      ∀ bit, c.child bit = (b.child bit).index? := by
  cases b with
  | absent => cases h
  | node j up v zero one =>
    obtain rfl := Option.some.inj h
    refine ⟨⟨j, up, v, zero.index?, one.index?⟩, List.mem_cons_self, rfl, fun _ hup => hup.1, ?_⟩
    intro bit
    cases bit <;> rfl

theorem index_mem_indices {b : Branch V} {i : Nat} (h : b.index? = some i) : i ∈ b.indices := by
  obtain ⟨c, hc, rfl, -⟩ := exists_cell_of_index h
  exact List.mem_map_of_mem hc

theorem indices_after_subset (b : Branch V) (path : List Bool) :
    (b.after path).indices ⊆ b.indices :=
  List.map_subset _ (cells_after_subset b path)

theorem mem_indices_of_after {b : Branch V} {path : List Bool} {i : Nat}
    (h : (b.after path).index? = some i) : i ∈ b.indices :=
  indices_after_subset b path (index_mem_indices h)

/-- Every node lies at the end of some path. -/
theorem exists_path_of_mem_indices {b : Branch V} {i : Nat} (h : i ∈ b.indices) :
    ∃ path, (b.after path).index? = some i := by
  induction b with
  | absent => simp at h
  | node j up v zero one ihZero ihOne =>
    rw [indices_node] at h
    rcases List.mem_cons.mp h with rfl | h
    · exact ⟨[], rfl⟩
    · rcases List.mem_append.mp h with h | h
      · obtain ⟨path, hpath⟩ := ihZero h
        exact ⟨false :: path, hpath⟩
      · obtain ⟨path, hpath⟩ := ihOne h
        exact ⟨true :: path, hpath⟩

/-- No node lies at the ends of two paths, if no index occurs twice. -/
theorem path_unique {b : Branch V} (hb : b.indices.Nodup) {i : Nat} {p q : List Bool}
    (hp : (b.after p).index? = some i) (hq : (b.after q).index? = some i) : p = q := by
  induction b generalizing p q with
  | absent => rw [after_absent] at hp; cases hp
  | node j up v zero one ihZero ihOne =>
    rw [indices_node, List.nodup_cons, List.nodup_append, List.mem_append, not_or] at hb
    obtain ⟨⟨hzero, hone⟩, hndZero, hndOne, hdisjoint⟩ := hb
    -- the first node does not occur again further down
    have hfirst : ∀ (bit : Bool) (path : List Bool),
        ((node j up v zero one).after (bit :: path)).index? ≠ some j := fun bit path h => by
      cases bit with
      | false => exact hzero (mem_indices_of_after h)
      | true => exact hone (mem_indices_of_after h)
    rcases p with _ | ⟨bit, p⟩ <;> rcases q with _ | ⟨bit', q⟩
    -- both paths end here, or one of them does, or neither
    · rfl
    · obtain rfl := Option.some.inj hp
      exact absurd hq (hfirst bit' q)
    · obtain rfl := Option.some.inj hq
      exact absurd hp (hfirst bit p)
    · cases bit <;> cases bit'
      -- on one side there is one path, and the two sides have no index in common
      · rw [ihZero hndZero hp hq]
      · exact absurd rfl (hdisjoint i (mem_indices_of_after hp) i (mem_indices_of_after hq))
      · exact absurd rfl (hdisjoint i (mem_indices_of_after hq) i (mem_indices_of_after hp))
      · rw [ihOne hndOne hp hq]

/-- The branch after a node names that node as its parent. -/
theorem linked_after {b : Branch V} {up : Option Nat} (h : b.Linked up) {path : List Bool}
    {i : Nat} (hi : (b.after path).index? = some i) (bit : Bool) :
    (b.after (path ++ [bit])).Linked (some i) := by
  induction path generalizing b up with
  | nil =>
    cases b with
    | absent => cases hi
    | node j up' v zero one =>
      obtain rfl := Option.some.inj hi
      cases bit
      · simpa [child] using h.2.1
      · simpa [child] using h.2.2
  | cons bit' path ih =>
    cases b with
    | absent => rw [after_absent] at hi; cases hi
    | node j up' v zero one =>
      cases bit' with
      | false => exact ih h.2.1 hi
      | true => exact ih h.2.2 hi

/-- **Links lead where the branch leads**, from any node of it, if no index occurs twice. -/
theorem follow_eq_index_after {cells : List (Cell V)} (hcells : (cells.map Cell.index).Nodup)
    {b : Branch V} {i : Nat} (hsub : b.cells ⊆ cells) (hi : b.index? = some i)
    (path : List Bool) : Cell.follow cells path i = (b.after path).index? := by
  induction path generalizing b i with
  | nil => rw [after_nil, hi]; rfl
  | cons bit path ih =>
    -- the cell found by the index is that of the first node, and its link names the next one
    obtain ⟨c, hc, rfl, -, hchild⟩ := exists_cell_of_index hi
    rw [Cell.follow, Cell.find?_index_of_mem hcells (hsub hc), Option.bind_some, hchild, after_cons]
    cases hnext : (b.child bit).index? with
    | none =>
      have habsent : b.child bit = absent := by
        cases hb : b.child bit with
        | absent => rfl
        | node => rw [hb] at hnext; cases hnext
      simp [habsent, index?]
    | some j => exact ih (List.Subset.trans (cells_child_subset b bit) hsub) hnext

end Branch

end RegionTrie
