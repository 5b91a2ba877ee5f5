import RegionTrie.Proofs.Trie.Cascade
import RegionTrie.Proofs.Trie.Walks

/-!
# Branches in memory

A branch lies in memory if memory holds, under the index of each of its nodes, what the cell of the
node says. Then walks along links go where the branch goes. Memory may hold anything under other
indices, and a write to one of those is not seen. New nodes that are linked one below the other, and
a value that is set, change memory as they change the branch, provided that no index occurs twice.

## Main definitions

* `Branch.LiesIn`: memory holds what the cells of a branch say
* `Node.attach`, `Node.chain`: memory after a node was linked below another, and after several were

## Main results

* `Arena.follow_eq`, `Arena.findAlong_eq`, `Arena.furthest_spec`: where walks in memory lead
* `Branch.LiesIn.chain`: nodes linked below the last one on a path are those that the path lacked
* `Branch.LiesIn.setValue`: a value set in memory is set in the branch
-/

namespace RegionTrie

variable {V : Type}

/-- What memory holds for a cell. -/
def Cell.content (c : Cell V) : Node V :=
  ⟨c.zero, c.one, c.parent, c.value⟩

namespace Node

theorem overwrite_self (memory : Nat → Node V) (index : Nat) (n : Node V) :
    overwrite memory index n index = n :=
  if_pos rfl

theorem overwrite_of_ne (memory : Nat → Node V) {index i : Nat} (h : i ≠ index) (n : Node V) :
    overwrite memory index n i = memory i :=
  if_neg h

/-- Memory after a new node was linked below another: first the new one is written to, and then the
one above it. -/
def attach (memory : Nat → Node V) (node : Nat) (bit : Bool) (next : Nat) : Nat → Node V :=
  let memory := overwrite memory next { parent := some node }
  overwrite memory node ((memory node).setChild bit next)

section Attach

variable {node next i : Nat} {bit : Bool}

theorem attach_new (h : node ≠ next) (memory : Nat → Node V) :
    attach memory node bit next next = { parent := some node } :=
  (overwrite_of_ne _ h.symm _).trans (overwrite_self memory next _)

theorem attach_above (h : node ≠ next) (memory : Nat → Node V) :
    attach memory node bit next node = (memory node).setChild bit next := by
  rw [attach, overwrite_self, overwrite_of_ne _ h]

theorem attach_of_ne (h : i ≠ node) (h' : i ≠ next) (memory : Nat → Node V) :
    attach memory node bit next i = memory i := by
  rw [attach, overwrite_of_ne _ h, overwrite_of_ne _ h']

end Attach

/-- Memory after new nodes were linked, one for each of the given bits as long as there are indices,
the first one below the given node and each of the others below the one before it. -/
def chain (memory : Nat → Node V) (node : Nat) :
    (path : List Bool) → (fresh : List Nat) → Nat → Node V
  | bit :: path, next :: fresh => chain (attach memory node bit next) next path fresh
  | _, _ => memory

theorem chain_nil_fresh (memory : Nat → Node V) (node : Nat) (path : List Bool) :
    chain memory node path [] = memory := by
  cases path <;> rfl

/-- Only the new nodes, and the one above them, are written to. -/
theorem chain_of_notMem {path : List Bool} {fresh : List Nat} {node i : Nat} (hne : i ≠ node)
    (hfresh : i ∉ fresh) (memory : Nat → Node V) : chain memory node path fresh i = memory i := by
  induction path generalizing memory node fresh with
  | nil => rfl
  | cons bit path ih =>
    cases fresh with
    | nil => rfl
    | cons next fresh =>
      rw [List.mem_cons, not_or] at hfresh
      rw [chain, ih hfresh.1 hfresh.2, attach_of_ne hne hfresh.1]

end Node

namespace Branch

/-- What memory holds for the first node of a branch. -/
def content : Branch V → Node V
  | absent => {}
  | node _ up v zero one => ⟨zero.index?, one.index?, up, v⟩

/-- Memory holds what the cells of the branch say. -/
def LiesIn (b : Branch V) (memory : Nat → Node V) : Prop :=
  ∀ c ∈ b.cells, memory c.index = c.content

section Content

variable {i j : Nat} {up up' : Option Nat} {v : Option V} {zero one b : Branch V} {bit : Bool}

theorem content_setChild_of_index (h : b.index? = ((node i up v zero one).child bit).index?) :
    ((node i up v zero one).setChild bit b).content = (node i up v zero one).content := by
  cases bit <;> simp_all [setChild, content, child]

theorem content_setChild_link (h : b.index? = some j) :
    ((node i up v zero one).setChild bit b).content =
      (node i up v zero one).content.setChild bit j := by
  cases bit <;> simp [setChild, content, Node.setChild, h]

/-- Where no index occurs twice, the link that is cut is that to the child meant. -/
theorem content_setChild_absent (hnd : (node i up v zero one).indices.Nodup)
    (hj : ((node i up v zero one).child bit).index? = some j) :
    ((node i up v zero one).setChild bit absent).content =
      (node i up v zero one).content.cut j := by
  -- the link to the child for a one is looked at first
  cases bit with
  | false =>
    have hone : one.index? ≠ some j := fun h =>
      (nodup_child hnd false).2.2 j (index_mem_indices hj) (index_mem_indices h)
    exact (if_neg hone).symm
  | true =>
    have hone : one.index? = some j := hj
    exact (if_pos hone).symm

/-- A node without its only child. -/
theorem content_setChild_of_absent (hother : (node i up v zero one).child (!bit) = absent) :
    ((node i up v zero one).setChild bit absent).content = ⟨none, none, up, v⟩ := by
  cases bit with
  | false =>
    obtain rfl : one = absent := hother
    rfl
  | true =>
    obtain rfl : zero = absent := hother
    rfl

theorem setChild_child (i : Nat) (up : Option Nat) (v : Option V) (zero one : Branch V)
    (bit : Bool) :
    (node i up v zero one).setChild bit ((node i up v zero one).child bit) =
      node i up v zero one := by
  cases bit <;> rfl

theorem graft_cons (value : Option V) (path : List Bool) (fresh : List Nat) :
    graft value (node i up v zero one) up' (bit :: path) fresh =
      (node i up v zero one).setChild bit
        (graft value ((node i up v zero one).child bit) (some i) path fresh) := by
  cases bit <;> rfl

/-- A node without children and a value. -/
def leaf (i : Nat) (up : Option Nat) : Branch V :=
  node i up none absent absent

theorem child_leaf (i : Nat) (up : Option Nat) (bit : Bool) :
    (leaf i up : Branch V).child bit = absent := by
  cases bit <;> rfl

theorem get_leaf (i : Nat) (up : Option Nat) (path : List Bool) :
    (leaf i up : Branch V).get path = none := by
  cases path with
  | nil => rfl
  | cons bit path => rw [get_cons, child_leaf, get_absent]

/-- Several new nodes where nothing is are the first of them and the others below it. -/
theorem graft_absent_cons (i : Nat) (up : Option Nat) (path : List Bool) (fresh : List Nat) :
    graft none (absent : Branch V) up path (i :: fresh) =
      graft none (leaf i up) up path fresh := by
  rcases path with _ | ⟨_ | _, path⟩ <;> rfl

/-- What has a node further down has a first one. -/
theorem exists_index_of_after {path : List Bool} (h : (b.after path).index? = some j) :
    ∃ first, b.index? = some first := by
  have hholds : b.Holds ([] ++ path) := holds_iff_index.mpr ⟨j, h⟩
  exact holds_iff_index.mp hholds.of_append

/-- The first node stays when others are put in. -/
theorem index?_graft {value : Option V} {path : List Bool} {fresh : List Nat}
    (h : b.index? = some i) : (graft value b up path fresh).index? = some i := by
  cases b with
  | absent => cases h
  | node => rcases path with _ | ⟨_ | _, path⟩ <;> exact h

end Content

/-! ## Walks -/

namespace LiesIn

variable {memory memory' : Nat → Node V} {b : Branch V} {i : Nat}

/-- A branch lies in memory if its first node and its children do. -/
theorem node_iff {up : Option Nat} {v : Option V} {zero one : Branch V} :
    (node i up v zero one).LiesIn memory ↔
      memory i = (node i up v zero one).content ∧ zero.LiesIn memory ∧ one.LiesIn memory := by
  simp only [LiesIn, cells, List.forall_mem_cons, List.forall_mem_append]
  rfl

theorem absent : (Branch.absent : Branch V).LiesIn memory :=
  fun _ hc => absurd hc List.not_mem_nil

theorem child (h : b.LiesIn memory) (bit : Bool) : (b.child bit).LiesIn memory :=
  fun c hc => h c (cells_child_subset b bit hc)

/-- What memory holds under other indices does not matter. -/
theorem congr (h : b.LiesIn memory) (hsame : ∀ i ∈ b.indices, memory' i = memory i) :
    b.LiesIn memory' := by
  intro c hc
  rw [hsame c.index (index_mem_indices_of_mem hc)]
  exact h c hc

theorem memory_eq (h : b.LiesIn memory) (hi : b.index? = some i) : memory i = b.content := by
  cases b with
  | absent => cases hi
  | node j up v zero one =>
    obtain rfl := Option.some.inj hi
    exact (node_iff.mp h).1

/-- The links of the first node lead to its children. -/
theorem link_eq (h : b.LiesIn memory) (hi : b.index? = some i) (bit : Bool) :
    (memory i).child bit = (b.child bit).index? := by
  rw [h.memory_eq hi]
  cases b with
  | absent => cases hi
  | node j up v zero one => cases bit <;> rfl

theorem value_eq (h : b.LiesIn memory) (hi : b.index? = some i) : (memory i).value = b.get [] := by
  rw [h.memory_eq hi]
  cases b with
  | absent => cases hi
  | node j up v zero one => rfl

theorem after (h : b.LiesIn memory) (path : List Bool) : (b.after path).LiesIn memory :=
  fun c hc => h c (cells_after_subset b path hc)

end LiesIn

end Branch

namespace Arena

open Branch

variable {K : Type} {a : Arena K V} {b : Branch V} {i : Nat}

/-- A walk along links goes where the branch goes. -/
theorem follow_eq (h : b.LiesIn a.memory) (hi : b.index? = some i) (path : List Bool) :
    a.follow path i = (b.after path).index? := by
  induction path generalizing b i with
  | nil => rw [follow, after_nil, hi]
  | cons bit path ih =>
    rw [follow, h.link_eq hi, after_cons]
    cases hnext : (b.child bit).index? with
    | none =>
      rw [index?_eq_none_iff.mp hnext, after_absent]
      rfl
    | some next => exact ih (h.child bit) hnext

/-- The value at the end of a walk. -/
theorem value_follow_eq (h : b.LiesIn a.memory) (hi : b.index? = some i) (path : List Bool) :
    ((a.follow path i).bind fun node => (a.memory node).value) = b.get path := by
  rw [follow_eq h hi, ← List.append_nil path, get_append, List.append_nil]
  cases hlast : (b.after path).index? with
  | none =>
    rw [index?_eq_none_iff.mp hlast, get_absent]
    rfl
  | some last => exact (h.after path).value_eq hlast

theorem findAlong_eq (h : b.LiesIn a.memory) (hi : b.index? = some i) (path : List Bool)
    (value : Option V) : a.findAlong path i value = (b.find path).or value := by
  induction path generalizing b i value with
  | nil => rw [findAlong, find_nil, h.value_eq hi]
  | cons bit path ih =>
    rw [findAlong, h.link_eq hi, find_cons, Option.or_assoc, ← h.value_eq hi]
    cases hnext : (b.child bit).index? with
    | none =>
      rw [index?_eq_none_iff.mp hnext, find_absent]
      rfl
    | some next => exact ih (h.child bit) hnext _

/-- Where a walk ends that goes as far as there are nodes: after as many bits as the branch has
nodes for, and the branch has no node for the next one. -/
theorem furthest_spec (h : b.LiesIn a.memory) (hi : b.index? = some i) (path : List Bool) :
    ∃ front rest node, a.furthest path i = (node, rest) ∧ path = front ++ rest ∧
      (b.after front).index? = some node ∧ b.missing path = rest.length ∧
      ∀ bit rest', rest = bit :: rest' → (b.after front).child bit = absent := by
  induction path generalizing b i with
  | nil =>
    refine ⟨[], [], i, rfl, rfl, by rwa [after_nil], ?_, by rintro _ _ ⟨⟩⟩
    cases b with
    | absent => cases hi
    | node => rfl
  | cons bit path ih =>
    have hhere : b.isAbsent = false := isAbsent_eq_false_iff.mpr ⟨i, hi⟩
    rw [furthest, h.link_eq hi, missing_cons, hhere]
    cases hnext : (b.child bit).index? with
    | none =>
      have hchild := index?_eq_none_iff.mp hnext
      refine ⟨[], bit :: path, i, rfl, rfl, by rwa [after_nil], ?_, ?_⟩
      · rw [hchild, missing_absent]
        rfl
      · rintro _ _ ⟨⟩
        rwa [after_nil]
    | some next =>
      obtain ⟨front, rest, last, hfar, rfl, hlast, hmissing, hend⟩ := ih (h.child bit) hnext
      refine ⟨bit :: front, rest, last, hfar, rfl, by rwa [after_cons], hmissing, ?_⟩
      rwa [after_cons]

end Arena

/-! ## Writes -/

namespace Branch

open Node

variable {memory memory' : Nat → Node V} {b : Branch V} {i : Nat}

/-- A branch with another child lies in memory if its first node and both children do. -/
theorem LiesIn.setChild {up : Option Nat} {v : Option V} {zero one : Branch V} {bit : Bool}
    (hfirst : memory i = ((node i up v zero one).setChild bit b).content)
    (hother : ((node i up v zero one).child (!bit)).LiesIn memory) (hb : b.LiesIn memory) :
    ((node i up v zero one).setChild bit b).LiesIn memory := by
  cases bit with
  | false => exact node_iff.mpr ⟨hfirst, hb, hother⟩
  | true => exact node_iff.mpr ⟨hfirst, hother, hb⟩

/-- A change in one child, where memory is written to under its indices and new ones only, is a
change of the branch. -/
theorem LiesIn.within {up : Option Nat} {v : Option V} {zero one : Branch V} {bit : Bool}
    (h : (node i up v zero one).LiesIn memory) (hnd : (node i up v zero one).indices.Nodup)
    (hindex : b.index? = ((node i up v zero one).child bit).index?)
    (hsame : ∀ k ∈ (node i up v zero one).indices,
      k ∉ ((node i up v zero one).child bit).indices → memory' k = memory k)
    (hb : b.LiesIn memory') : ((node i up v zero one).setChild bit b).LiesIn memory' := by
  obtain ⟨hfirst, -, hother⟩ := nodup_child hnd bit
  refine LiesIn.setChild ?_ ((h.child (!bit)).congr fun k hk => ?_) hb
  · rw [hsame i (index_mem_indices rfl) hfirst, content_setChild_of_index hindex]
    exact h.memory_eq rfl
  · exact hsame k (indices_child_subset _ _ hk) fun hk' => hother k hk' hk

/-- New nodes that are linked below the first node of a branch. -/
theorem LiesIn.chain_first {path : List Bool} {fresh : List Nat} (h : b.LiesIn memory)
    (hi : b.index? = some i) (hget : b.get path = none)
    (hend : ∀ bit rest, path = bit :: rest → b.child bit = Branch.absent)
    (hnd : (fresh ++ b.indices).Nodup) (hle : fresh.length ≤ path.length) (up : Option Nat) :
    (graft none b up path fresh).LiesIn (chain memory i path fresh) := by
  -- the first new node is one without children, and the others are linked below it
  induction path generalizing b i memory fresh up with
  | nil =>
    obtain rfl := List.length_eq_zero_iff.mp (Nat.le_zero.mp hle)
    cases b with
    | absent => cases hi
    | node j up' v zero one =>
      obtain rfl : v = none := hget
      exact h
  | cons bit path ih =>
    cases b with
    | absent => cases hi
    | node j up' v zero one =>
      obtain rfl := Option.some.inj hi
      have hchild := hend bit path rfl
      rw [graft_cons, hchild]
      cases fresh with
      | nil =>
        have hsame : graft none (Branch.absent : Branch V) (some j) path [] = Branch.absent := by
          cases path <;> rfl
        rw [chain_nil_fresh, hsame, ← hchild, setChild_child]
        exact h
      | cons next fresh =>
        rw [List.cons_append, List.nodup_cons, List.mem_append, not_or] at hnd
        obtain ⟨⟨hnextFresh, hnextOld⟩, hnd⟩ := hnd
        obtain ⟨hndFresh, hndOld, hdisjoint⟩ := List.nodup_append.mp hnd
        have hnew : j ≠ next := ne_of_mem_of_not_mem (index_mem_indices rfl) hnextOld
        have hjFresh : j ∉ fresh := fun hmem =>
          hdisjoint j hmem j (index_mem_indices rfl) rfl
        have hleaf : (leaf next (some j) : Branch V).LiesIn (attach memory j bit next) :=
          LiesIn.node_iff.mpr ⟨attach_new hnew memory, .absent, .absent⟩
        have hndLeaf : (fresh ++ (leaf next (some j) : Branch V).indices).Nodup :=
          (List.perm_append_singleton next fresh).nodup_iff.mpr
            (List.nodup_cons.mpr ⟨hnextFresh, hndFresh⟩)
        have hbelow := ih hleaf rfl (get_leaf next (some j) path)
          (fun bit _ _ => child_leaf next (some j) bit) hndLeaf (Nat.le_of_succ_le_succ hle)
          (some j)
        rw [graft_absent_cons, Node.chain]
        refine LiesIn.setChild ?_ ((h.child (!bit)).congr fun k hk => ?_) hbelow
        · rw [chain_of_notMem hnew hjFresh, attach_above hnew, h.memory_eq rfl,
            content_setChild_link (index?_graft rfl)]
        · -- the other child is not written to
          have hk' := indices_child_subset (node j up' v zero one) (!bit) hk
          have hkj : k ≠ j := ne_of_mem_of_not_mem hk (nodup_child hndOld (!bit)).1
          have hkNext : k ≠ next := ne_of_mem_of_not_mem hk' hnextOld
          have hkFresh : k ∉ fresh := fun hmem => hdisjoint k hmem k hk' rfl
          rw [chain_of_notMem hkNext hkFresh, attach_of_ne hkj hkNext]

/-- **New nodes that are linked** below the last node on a path are those that the path lacked. -/
theorem LiesIn.chain {front rest : List Bool} {last : Nat} {fresh : List Nat} (h : b.LiesIn memory)
    (hlast : (b.after front).index? = some last) (hget : b.get (front ++ rest) = none)
    (hend : ∀ bit rest', rest = bit :: rest' → (b.after front).child bit = Branch.absent)
    (hnd : (fresh ++ b.indices).Nodup) (hle : fresh.length ≤ rest.length) (up : Option Nat) :
    (graft none b up (front ++ rest) fresh).LiesIn (chain memory last rest fresh) := by
  -- down to the last node each node is kept, as what is written to lies below it
  induction front generalizing b up with
  | nil =>
    rw [after_nil] at hlast hend
    exact chain_first h hlast hget hend hnd hle up
  | cons bit front ih =>
    cases b with
    | absent => rw [after_absent] at hlast; cases hlast
    | node i up' v zero one =>
      rw [after_cons] at hlast hend
      rw [List.cons_append, get_cons] at hget
      rw [List.cons_append, graft_cons]
      obtain ⟨hndFresh, hndOld, hdisjoint⟩ := List.nodup_append.mp hnd
      have hsub := indices_child_subset (node i up' v zero one) bit
      have hndChild : (fresh ++ ((node i up' v zero one).child bit).indices).Nodup :=
        List.nodup_append.mpr ⟨hndFresh, (nodup_child hndOld bit).2.1,
          fun k hk k' hk' => hdisjoint k hk k' (hsub hk')⟩
      have hbelow := ih (h.child bit) hlast hget hend hndChild (some i)
      obtain ⟨first, hfirst⟩ := exists_index_of_after hlast
      -- only the last node and the new ones are written to
      refine h.within hndOld ((index?_graft hfirst).trans hfirst.symm) (fun k hk hk' => ?_) hbelow
      exact chain_of_notMem (ne_of_mem_of_not_mem (mem_indices_of_after hlast) hk').symm
        (fun hmem => hdisjoint k hmem k hk rfl) memory

/-- **A value that is set** at the end of a path. -/
theorem LiesIn.setValue {path : List Bool} {last : Nat} (h : b.LiesIn memory)
    (hnd : b.indices.Nodup) (hlast : (b.after path).index? = some last) (value : Option V)
    (up : Option Nat) :
    (graft value b up path []).LiesIn
      (overwrite memory last { memory last with value }) := by
  induction path generalizing b up with
  | nil =>
    cases b with
    | absent => cases hlast
    | node i up' v zero one =>
      obtain rfl := Option.some.inj hlast
      obtain ⟨hfirst, hzero, hone⟩ := node_iff.mp h
      refine node_iff.mpr ⟨?_, hzero.congr fun k hk => ?_, hone.congr fun k hk => ?_⟩
      · rw [overwrite_self, hfirst]
        rfl
      · exact overwrite_of_ne _ (ne_of_mem_of_not_mem hk (nodup_child hnd false).1) _
      · exact overwrite_of_ne _ (ne_of_mem_of_not_mem hk (nodup_child hnd true).1) _
  | cons bit path ih =>
    cases b with
    | absent => rw [after_absent] at hlast; cases hlast
    | node i up' v zero one =>
      rw [after_cons] at hlast
      rw [graft_cons]
      have hbelow := ih (h.child bit) (nodup_child hnd bit).2.1 hlast (some i)
      obtain ⟨first, hfirst⟩ := exists_index_of_after hlast
      refine h.within hnd ((index?_graft hfirst).trans hfirst.symm) (fun k hk hk' => ?_) hbelow
      exact overwrite_of_ne _ (ne_of_mem_of_not_mem (mem_indices_of_after hlast) hk').symm _

/-! ## Values put in with nodes -/

/-- Without nodes to reach the end of a path, its value does not matter. -/
theorem graft_of_lt {value : Option V} {up : Option Nat} {path : List Bool} {fresh : List Nat}
    (h : fresh.length < b.missing path) :
    graft value b up path fresh = graft none b up path fresh := by
  fun_induction graft value b up path fresh with
  | case1 path up => cases path <;> rfl
  | case2 up i fresh => simp [missing] at h
  | case3 up path i fresh ih | case4 up path i fresh ih =>
    rw [graft, ih (by simpa [missing_absent] using h)]
  | case5 i up v zero one up' fresh => simp [missing] at h
  | case6 i up v zero one up' path fresh ih | case7 i up v zero one up' path fresh ih =>
    rw [graft, ih (by simpa [missing] using h)]

/-- Where new nodes reach the end of a path, the last of them is there. -/
theorem index_after_graft_last {path : List Bool} {fresh : List Nat}
    (hall : b.missing path = fresh.length) (hlacking : b.missing path ≠ 0) (value : Option V)
    (up : Option Nat) (other : Nat) :
    ((graft value b up path fresh).after path).index? = some (fresh.getLastD other) := by
  have hne : fresh ≠ [] := fun hnil => hlacking (by rw [hall, hnil, List.length_nil])
  rw [index_after_graft, index_after_eq_none_iff.mpr hlacking, if_pos (List.prefix_refl path), hall,
    ← List.getLast?_eq_getElem?, List.getLastD_eq_getLast?, List.getLast?_eq_some_getLast hne]
  rfl

/-- Nodes that reach the end of a path may come first, and its value after them. -/
theorem graft_none_graft {value : Option V} {up : Option Nat} {path : List Bool} {fresh : List Nat}
    (h : b.missing path ≤ fresh.length) :
    graft value (graft none b up path fresh) up path [] = graft value b up path fresh := by
  fun_induction graft value b up path fresh with
  | case1 up path => simp [missing_absent] at h
  | case2 up i fresh => rfl
  | case3 up path i fresh ih | case4 up path i fresh ih =>
    rw [graft, graft, ih (by simpa [missing_absent] using h)]
  | case5 i up v zero one up' fresh => rfl
  | case6 i up v zero one up' path fresh ih | case7 i up v zero one up' path fresh ih =>
    rw [graft, graft, ih (by simpa [missing] using h)]

end Branch

end RegionTrie
