import RegionTrie.Proofs.Trie.FiniteMap
import RegionTrie.Proofs.Trie.Structure

/-!
# The shape of a trie

Where memory never ran out, the shape of a trie does not tell how it came about. Its nodes are the
root and the nodes on the way to stored prefixes, because an insertion puts in no node that does not
lead to its value, and a removal takes away every node that serves no purpose any more. So two tries
that store the same prefixes have nodes in the same places, whatever happened to them before, and
an insertion is undone by a deletion.

## Main definitions

* `Branch.Lively`: no node serves no purpose
* `Trie.Unexhausted`: nothing in a log was refused for want of memory
* `Trie.Shaped`: a trie as runs leave it that never run out of memory

## Main results

* `Branch.Lively.graft`, `Branch.Lively.erase`: putting nodes in for a value and removing keep a
  branch lively
* `Branch.Lively.holds_iff`: the nodes of a lively branch lead to values
* `Trie.Shaped.call`, `Trie.Shaped.run`: how the shape of a trie goes with the map of its log
* `Trie.canonical_run`: what follows for tries whose runs never ran out of memory
-/

namespace RegionTrie

namespace Branch

variable {V : Type}

/-- No node is without purpose: each has a value or a child, or is the root. -/
def Lively (b : Branch V) : Prop :=
  ∀ path, (b.after path).isIdle = false

theorem holds_concat {b : Branch V} {path : List Bool} {bit : Bool} :
    b.Holds (path ++ [bit]) ↔ ((b.after path).child bit).isAbsent = false := by
  simp [Holds, after_append]

theorem isIdle_node (i : Nat) (up : Option Nat) (v : Option V) (zero one : Branch V) :
    (node i up v zero one).isIdle =
      (up.isSome && v.isNone && zero.isAbsent && one.isAbsent) := by
  cases up <;> cases v <;> cases zero <;> cases one <;> rfl

/-- A node below the root serves no purpose if it has neither value nor children. -/
theorem isIdle_after_iff {b : Branch V} (h : b.Linked none) {path : List Bool} :
    (b.after path).isIdle = true ↔
      path ≠ [] ∧ b.Holds path ∧ b.get path = none ∧ ∀ bit, ¬ b.Holds (path ++ [bit]) := by
  -- the one node that names no parent is the root
  have hparent : ∀ {i : Nat} {up : Option Nat} {v : Option V} {zero one : Branch V},
      b.after path = node i up v zero one → (up.isSome ↔ path ≠ []) := by
    intro i up v zero one hnode
    rcases List.eq_nil_or_concat' path with rfl | ⟨front, bit, rfl⟩
    · rw [after_nil] at hnode
      rw [hnode] at h
      simp [h.1]
    · have hholds : b.Holds (front ++ [bit]) := by
        rw [Holds, hnode]
        rfl
      obtain ⟨j, hj⟩ := holds_iff_index.mp hholds.of_append
      have hlinked := linked_after h hj bit
      rw [hnode] at hlinked
      simp [hlinked.1]
  have hvalue : b.get path = (b.after path).get [] := by rw [← get_append, List.append_nil]
  simp only [holds_concat, hvalue]
  unfold Holds
  cases hb : b.after path with
  | absent => simp [isIdle, isAbsent]
  | node i up v zero one =>
    simp only [isIdle_node, Bool.and_eq_true, hparent hb, Option.isNone_iff_eq_none, get_node_nil,
      Bool.forall_bool, child, Bool.not_eq_false]
    simp [isAbsent, and_assoc]

/-- The nodes that lack a path are not fewer than those that lack a part of it. -/
theorem missing_le_of_prefix {b : Branch V} {path rest : List Bool} :
    b.missing path ≤ b.missing (path ++ rest) := by
  induction path generalizing b with
  | nil => cases b <;> cases rest <;> simp [missing]
  | cons bit path ih =>
    rw [List.cons_append, missing_cons, missing_cons]
    exact Nat.add_le_add_right ih _

namespace Lively

/-- Nodes that lead to a new value serve that purpose. -/
theorem graft {b : Branch V} (h : b.Lively) (hb : b.Linked none) {v : V} {path : List Bool}
    {fresh : List Nat} (hle : b.missing path ≤ fresh.length) :
    (Branch.graft (some v) b none path fresh).Lively := by
  intro p
  apply Bool.eq_false_iff.mpr
  intro hidle
  obtain ⟨hne, hholds, hget, hchildren⟩ := (isIdle_after_iff (linked_graft hb)).mp hidle
  by_cases hp : p <+: path
  · obtain ⟨rest, rfl⟩ := hp
    rcases rest with _ | ⟨bit, rest⟩
    · -- the new value is at the end of the path
      rw [get_graft, List.append_nil, if_pos ⟨rfl, by rwa [List.append_nil] at hle⟩] at hget
      cases hget
    · -- and before the end there is a next node
      have hsplit : p ++ bit :: rest = (p ++ [bit]) ++ rest := by simp
      refine hchildren bit (holds_graft.mpr (.inr ⟨⟨rest, hsplit.symm⟩, ?_⟩))
      rw [hsplit] at hle
      exact Nat.le_trans missing_le_of_prefix hle
  · -- a node off the path is as it was
    have hpath : p ≠ path := fun heq => hp (heq ▸ List.prefix_refl p)
    rw [get_graft, if_neg fun hand => hpath hand.1] at hget
    have hold : b.Holds p := (holds_graft.mp hholds).resolve_right fun hlead => hp hlead.1
    have hleaf : ∀ bit, ¬ b.Holds (p ++ [bit]) := fun bit hbelow =>
      hchildren bit (holds_graft.mpr (.inl hbelow))
    have hidle := (isIdle_after_iff hb).mpr ⟨hne, hold, hget, hleaf⟩
    rw [h p] at hidle
    cases hidle

theorem child {b : Branch V} (h : b.Lively) (bit : Bool) : (b.child bit).Lively := by
  intro path
  rw [← after_cons]
  exact h (bit :: path)

/-- A branch is lively if its first node is not idle and its children are lively. -/
theorem of_children {b : Branch V} (hidle : b.isIdle = false) (h : ∀ bit, (b.child bit).Lively) :
    b.Lively := by
  intro path
  rcases path with _ | ⟨bit, path⟩
  · rwa [after_nil]
  · rw [after_cons]
    exact h bit path

theorem absent : (Branch.absent : Branch V).Lively := by
  intro path
  rw [after_absent]
  rfl

/-- A removal leaves no node without purpose. -/
theorem erase {b : Branch V} {path : List Bool} {e : Erasure V} (h : b.Lively)
    (herase : b.erase path = some e) : e.branch.Lively := by
  induction path generalizing b e with
  | nil =>
    cases b with
    | absent => cases herase
    | node i up v zero one =>
      simp only [Branch.erase] at herase
      split at herase
      · cases herase
        exact absent
      · next hstays =>
        split at herase
        · -- the node that only loses its value is the root or has a child
          cases herase
          refine of_children ?_ h.child
          rw [isIdle_node]
          simpa using hstays
        · cases herase
  | cons bit path ih =>
    cases b with
    | absent => cases herase
    | node i up v zero one =>
      simp only [Branch.erase, Option.map_eq_some_iff] at herase
      obtain ⟨e', he', heq⟩ := herase
      have hbelow : e'.branch.Lively := ih (h.child bit) he'
      split at heq
      · cases heq
        exact absent
      · next hstays =>
        cases heq
        refine of_children ?_ fun bit' => ?_
        · -- a node that loses no child is as busy as before, and one that loses one was looked at
          cases hb : e'.branch with
          | absent =>
            rw [hb] at hstays
            simpa [isAbsent] using hstays
          | node => cases bit <;> simp [setChild, isIdle_node, isAbsent]
        · by_cases hbit : bit' = bit
          · subst hbit
            rwa [child_setChild_self]
          · rw [child_setChild_of_ne hbit]
            exact h.child bit'

/-- A node of a lively branch below the root leads to a value. -/
theorem exists_value {b : Branch V} (h : b.Lively) {up : Nat} (hb : b.Linked (some up))
    (hpresent : b.isAbsent = false) : ∃ path, (b.get path).isSome := by
  induction b generalizing up with
  | absent => cases hpresent
  | node i up' v zero one ihZero ihOne =>
    obtain ⟨rfl, hzero, hone⟩ := hb
    have hidle := h []
    rw [after_nil] at hidle
    cases hv : v with
    | some w => exact ⟨[], rfl⟩
    | none =>
      -- without a value there is a child, and a value below that
      by_cases hz : zero.isAbsent = false
      · obtain ⟨path, hpath⟩ := ihZero (h.child false) hzero hz
        exact ⟨false :: path, hpath⟩
      · have ho : one.isAbsent = false := by
          simpa [isIdle_node, hv, hz] using hidle
        obtain ⟨path, hpath⟩ := ihOne (h.child true) hone ho
        exact ⟨true :: path, hpath⟩

/-- **The nodes of a lively branch** are the root and those on the way to a value. -/
theorem holds_iff {b : Branch V} (h : b.Lively) (hb : b.Linked none) (hroot : b.Holds [])
    {path : List Bool} :
    b.Holds path ↔ path = [] ∨ ∃ q, path <+: q ∧ (b.get q).isSome := by
  constructor
  · intro hholds
    rcases List.eq_nil_or_concat' path with rfl | ⟨front, bit, rfl⟩
    · exact .inl rfl
    · obtain ⟨i, hi⟩ := holds_iff_index.mp hholds.of_append
      have hlively : (b.after (front ++ [bit])).Lively := by
        intro rest
        rw [← after_append]
        exact h _
      obtain ⟨rest, hrest⟩ := hlively.exists_value (linked_after hb hi bit) hholds
      refine .inr ⟨front ++ [bit] ++ rest, List.prefix_append _ _, ?_⟩
      rwa [get_append]
  · rintro (rfl | ⟨q, ⟨rest, rfl⟩, hq⟩)
    · exact hroot
    · exact (holds_of_isSome_get hq).of_append

/-- Only values are removed from a lively branch. -/
theorem isSome_get_of_erase {b : Branch V} (h : b.Lively) {path : List Bool} {e : Erasure V}
    (herase : b.erase path = some e) : (b.get path).isSome := by
  replace herase := erases_of_erase herase
  induction herase with
  | @leaf i up v hup =>
    -- a leaf without a value would be idle
    have hidle := h []
    rw [after_nil] at hidle
    simpa [isIdle_node, hup, isAbsent, Option.isSome_iff_ne_none] using hidle
  | value => rfl
  | prune hbelow hup hgone hother ih =>
    rw [get_cons]
    exact ih (h.child _)
  | keep hbelow ih =>
    rw [get_cons]
    exact ih (h.child _)

end Lively

/-- Branches with nodes in the same places have equally many. -/
theorem length_indices_eq {V' : Type} {b : Branch V} {c : Branch V'}
    (h : ∀ path, b.Holds path ↔ c.Holds path) : b.indices.length = c.indices.length := by
  induction b generalizing c with
  | absent =>
    cases c with
    | absent => rfl
    | node => exact absurd ((h []).mpr rfl) (not_holds_absent [])
  | node i up v zero one ihZero ihOne =>
    cases c with
    | absent => exact absurd ((h []).mp rfl) (not_holds_absent [])
    | node i' up' v' zero' one' =>
      have hzero : zero.indices.length = zero'.indices.length :=
        ihZero fun path => h (false :: path)
      have hone : one.indices.length = one'.indices.length := ihOne fun path => h (true :: path)
      simp only [indices_node, List.length_cons, List.length_append, hzero, hone]

end Branch

/-- The call was refused for want of memory. -/
def TrieAnswer.Exhausted {V : Type} : TrieAnswer V → Prop
  | .refused (.exhausted _ _) => True
  | _ => False

instance {V : Type} : (answer : TrieAnswer V) → Decidable answer.Exhausted
  | .refused (.exhausted _ _) => isTrue trivial
  | .done | .found _ | .refused .busy | .refused .notFound | .refused .invalidFree
  | .refused (.poolTooSmall _ _) | .refused (.invalidLayout _ _) | .refused (.invalidDepth _) =>
    isFalse id

namespace Trie

variable {K V σ : Type}

/-- No call in the log was refused for want of memory. -/
def Unexhausted (log : List (TrieCall K V × TrieAnswer V)) : Prop :=
  ∀ entry ∈ log, ¬ entry.2.Exhausted

instance (log : List (TrieCall K V × TrieAnswer V)) : Decidable (Unexhausted log) :=
  inferInstanceAs (Decidable (∀ entry ∈ log, ¬ entry.2.Exhausted))

/-! ## Deletions -/

theorem lively_unlink {t : Trie K V} (h : t.root.Lively) (r : Region σ) (path : List Bool) :
    (t.unlink r path).2.1.root.Lively := by
  rcases unlink_cases t r path with ⟨-, heq⟩ | ⟨e, r', herase, heq⟩ <;> rw [heq]
  · exact h
  · exact h.erase herase

/-- From a lively trie a deletion removes a value, or nothing. -/
theorem unlink_eq_of_lively {t : Trie K V} (h : t.root.Lively) (r : Region σ) (path : List Bool) :
    if (t.root.get path).isSome then (t.unlink r path).1 = .ok ()
    else t.unlink r path = (.error .notFound, t, r) := by
  rcases unlink_cases t r path with ⟨hnone, heq⟩ | ⟨e, r', herase, heq⟩
  · rw [if_neg, heq]
    intro hget
    have hsome := Branch.isSome_erase_of_isSome_get hget
    rw [hnone] at hsome
    cases hsome
  · rw [if_pos (h.isSome_get_of_erase herase), heq]

/-! ## Runs -/

section Runs

variable [PrefixKey K] {t : Trie K V}

/-- Links lead to a node exactly where the branch has one. -/
theorem isSome_reach_iff (ht : t.WellFormed ∧ t.Rooted) (path : List Bool) :
    (t.reach path).isSome ↔ t.root.Holds path := by
  rw [WellFormed.reach_eq ht, Branch.holds_iff_index, Option.isSome_iff_exists]

/-- Tries with nodes in the same places have equally many nodes. -/
theorem nodeCount_eq_of_reach {V' : Type} {t' : Trie K V'} (ht : t.WellFormed ∧ t.Rooted)
    (ht' : t'.WellFormed ∧ t'.Rooted)
    (h : ∀ path, (t.reach path).isSome ↔ (t'.reach path).isSome) : t.nodeCount = t'.nodeCount := by
  rw [(ht.1.isTree ht.2).nodeCount_eq, (ht'.1.isTree ht'.2).nodeCount_eq]
  apply Branch.length_indices_eq
  intro path
  rw [← Trie.isSome_reach_iff ht, ← Trie.isSome_reach_iff ht', h]

/-! ## The shape and the stored prefixes -/

/-- A trie as runs leave it that never run out of memory: well formed, without a node that serves
no purpose, and with the bindings of a map. -/
structure Shaped (t : Trie K V) (stored : PrefixMap V) : Prop where
  wellFormed : t.WellFormed ∧ t.Rooted
  lively : t.root.Lively
  represents : t.Represents stored

namespace Shaped

variable {stored : PrefixMap V}

/-- Links lead to the root and to the nodes on the way to stored prefixes. -/
theorem isSome_reach_iff (h : t.Shaped stored) (path : List Bool) :
    (t.reach path).isSome ↔ path = [] ∨ ∃ q ∈ stored, path <+: q := by
  have hroot : t.root.Holds [] :=
    Branch.holds_iff_index.mpr ⟨0, by rw [Branch.after_nil]; exact h.wellFormed.2⟩
  rw [Trie.isSome_reach_iff h.wellFormed, h.lively.holds_iff h.wellFormed.1.linked hroot]
  simp only [h.represents.mem_iff, and_comm]

/-- Every node but the root has a value or a child. -/
theorem exists_child (h : t.Shaped stored) {path : List Bool} (hne : path ≠ [])
    (hreach : (t.reach path).isSome) :
    path ∈ stored ∨ ∃ bit, (t.reach (path ++ [bit])).isSome := by
  obtain ⟨q, hq, rest, rfl⟩ := ((h.isSome_reach_iff path).mp hreach).resolve_left hne
  rcases rest with _ | ⟨bit, rest⟩
  · left
    rwa [List.append_nil] at hq
  · right
    refine ⟨bit, (h.isSome_reach_iff _).mpr (.inr ⟨_, hq, rest, by simp⟩)⟩

/-- Two tries of the same prefixes have nodes in the same places. -/
theorem reach_congr {V' : Type} {t' : Trie K V'} {stored' : PrefixMap V'} (h : t.Shaped stored)
    (h' : t'.Shaped stored') (hkeys : stored'.keys = stored.keys) (path : List Bool) :
    (t'.reach path).isSome ↔ (t.reach path).isSome := by
  have hmem : ∀ q, q ∈ stored' ↔ q ∈ stored := fun q => by
    rw [← Finmap.mem_keys, hkeys, Finmap.mem_keys]
  simp only [h.isSome_reach_iff, h'.isSome_reach_iff, hmem]

/-- A deletion is carried out exactly where the prefix is stored. -/
theorem delete_eq (h : t.Shaped stored) (r : Region σ) (key mask : K) :
    if (PrefixKey.bits key).take (PrefixKey.maskLength mask) ∈ stored then
      (t.delete r key mask).1 = .ok ()
    else t.delete r key mask = (.error .notFound, t, r) := by
  have hunlink := unlink_eq_of_lively h.lively r (PrefixKey.selected key mask)
  simp only [← h.represents.mem_iff, PrefixKey.selected_eq_take] at hunlink
  simpa only [delete, PrefixKey.selected_eq_take] using hunlink

end Shaped

/-! ## Calls -/

variable [RawSource σ]

/-- An insertion that does not run out of memory keeps a trie lively. -/
theorem lively_link (h : t.root.Lively) (ht : t.WellFormed ∧ t.Rooted) (r : Region σ)
    (path : List Bool) (v : V)
    (hmemory : ∀ size align, (t.link r path (some v)).1 ≠ .error (.exhausted size align)) :
    (t.link r path (some v)).2.1.root.Lively := by
  rcases link_cases t r path (some v) with
    ⟨-, heq⟩ | ⟨taken, nodes, r', -, htake, hfault, heq⟩ |
    ⟨taken, nodes, r', fault, -, htake, hfault, heq⟩ <;> rw [heq] at hmemory ⊢
  · exact h
  · obtain ⟨-, -, -, -, hiff, -⟩ := NodeStore.takeMany_spec ht.1.store ht.1.accounts htake
    exact h.graft ht.1.linked (Nat.le_of_eq (hiff.mp hfault).symm)
  · -- a fault would be want of memory
    obtain ⟨-, -, -, -, -, hexhausted⟩ :=
      NodeStore.takeMany_spec ht.1.store ht.1.accounts htake
    obtain ⟨size, align, rfl⟩ := hexhausted fault hfault (WellFormed.obtainable ht)
    exact absurd rfl (hmemory size align)

theorem lively_call (h : t.root.Lively) (ht : t.WellFormed ∧ t.Rooted) (r : Region σ)
    (c : TrieCall K V) (hmemory : ¬ (t.call r c).1.Exhausted) :
    (t.call r c).2.1.root.Lively := by
  cases c with
  | insert key mask value =>
    refine lively_link h ht r _ value fun size align heq => hmemory ?_
    simp only [Trie.call, Trie.insert, heq]
    trivial
  | delete key mask => exact lively_unlink h r _
  | get key mask => exact h
  | find key => exact h

/-- A deletion undoes an insertion: the values and the size are as before. -/
theorem unlink_link (ht : t.WellFormed ∧ t.Rooted) {r r' : Region σ}
    {path : List Bool} {v : V} {t' : Trie K V} (hnone : t.root.get path = none)
    (hlink : t.link r path (some v) = (.ok (), t', r')) (r'' : Region σ) :
    (t'.unlink r'' path).1 = .ok () ∧
      (∀ q, (t'.unlink r'' path).2.1.root.get q = t.root.get q) ∧
      (t'.unlink r'' path).2.1.size = t.size := by
  rcases link_cases t r path (some v) with
    ⟨hsome, -⟩ | ⟨taken, nodes, r₀, -, htake, hfault, heq⟩ | ⟨_, _, _, _, -, -, -, heq⟩
  · rw [hnone] at hsome
    cases hsome
  · rw [hlink] at heq
    cases heq
    obtain ⟨-, -, -, -, hiff, -⟩ := NodeStore.takeMany_spec ht.1.store ht.1.accounts htake
    have hle : t.root.missing path ≤ taken.indices.length := Nat.le_of_eq (hiff.mp hfault).symm
    have hget := Branch.get_graft (some v) t.root none path taken.indices
    have hpath : ((t.root.graft (some v) none path taken.indices).get path).isSome := by
      rw [hget, if_pos ⟨rfl, hle⟩]
      rfl
    rcases unlink_cases
        { nodes, root := t.root.graft (some v) none path taken.indices,
          size := t.size + (some v).isSome.toNat : Trie K V } r'' path with
      ⟨hgone, -⟩ | ⟨e, r₁, herase, hunlink⟩
    · have hsome := Branch.isSome_erase_of_isSome_get hpath
      rw [hgone] at hsome
      cases hsome
    · rw [hunlink]
      refine ⟨rfl, fun q => ?_, ?_⟩
      · -- the one value that came in has gone out
        rw [Branch.get_erase herase, hget]
        by_cases hq : q = path
        · rw [if_pos hq, hq, hnone]
        · rw [if_neg hq, if_neg fun hand => hq hand.1]
      · show t.size + 1 - e.valued.toNat = t.size
        rw [Branch.valued_erase herase, hpath]
        rfl
  · rw [hlink] at heq
    cases heq

/-- A new trie without levels laid out in advance is a root alone, and so it is lively. -/
theorem lively_create {value : Layout} {r r' : Region σ}
    (h : create value .none r = (.ok t, r')) : t.root.Lively := by
  simp only [create, Preallocation.levels, Nat.not_lt_zero, if_false] at h
  rcases link_cases (bare value r.heap.pageSize : Trie K V) r [] none with
    ⟨hsome, -⟩ | ⟨taken, nodes, r₁, -, -, -, heq⟩ | ⟨_, _, _, _, -, -, -, heq⟩
  · cases hsome
  · unfold bare at heq
    simp only [heq] at h
    cases h
    -- whatever index the root has, nothing is below it
    rcases taken with ⟨_ | ⟨i, rest⟩, fault⟩
    · exact Branch.Lively.absent
    · exact Branch.Lively.of_children rfl fun bit => by cases bit <;> exact Branch.Lively.absent
  · unfold bare at heq
    simp only [heq] at h
    cases h

namespace Shaped

variable {stored : PrefixMap V}

/-- A call that is not refused for want of memory keeps a trie in the shape that its map gives. -/
theorem call (h : t.Shaped stored) (r : Region σ) (c : TrieCall K V)
    (hmemory : ¬ (t.call r c).1.Exhausted) :
    (t.call r c).2.1.Shaped (stored.remember (c, (t.call r c).1)) where
  wellFormed := WellFormed.call h.wellFormed r c
  lively := lively_call h.lively h.wellFormed r c hmemory
  represents := h.represents.call h.wellFormed r c

theorem run (h : t.Shaped stored) (r : Region σ) (turns : List (TrieTurn K V σ))
    (hmemory : Unexhausted (t.run r turns).1) :
    (t.run r turns).2.1.Shaped ((t.run r turns).1.foldl PrefixMap.remember stored) := by
  induction turns generalizing t stored r with
  | nil => exact h
  | cons turn rest ih =>
    obtain ⟨hfirst, hrest⟩ := List.forall_mem_cons.mp hmemory
    exact ih (h.call (turn.meanwhile r) turn.call hfirst) _ hrest

/-- A deletion undoes an insertion: the places of nodes, the values and the size are as before. -/
theorem delete_insert (h : t.Shaped stored) {r r' : Region σ} {key mask : K} {v : V}
    {t' : Trie K V} (hnot : (PrefixKey.bits key).take (PrefixKey.maskLength mask) ∉ stored)
    (hinsert : t.insert r key mask v = (.ok (), t', r')) (r'' : Region σ) :
    (t'.delete r'' key mask).1 = .ok () ∧
      (∀ path, ((t'.delete r'' key mask).2.1.reach path).isSome ↔ (t.reach path).isSome) ∧
      (∀ path, (t'.delete r'' key mask).2.1.root.get path = t.root.get path) ∧
      (t'.delete r'' key mask).2.1.size = t.size := by
  have hnone := (h.represents.notMem_iff _).mp hnot
  rw [← PrefixKey.selected_eq_take] at hnone
  obtain ⟨hok, hget, hsize⟩ := unlink_link h.wellFormed hnone hinsert r''
  refine ⟨hok, fun path => ?_, hget, hsize⟩
  -- both calls are done, so the prefix is bound in the map and unbound again
  have hdone : t.call r (.insert key mask v) = (.done, t', r') := by
    simp only [Trie.call, hinsert]
    rfl
  have hinserted := h.call r (.insert key mask v) (by rw [hdone]; exact id)
  rw [hdone] at hinserted
  have hgone : (t'.call r'' (.delete key mask)).1 = .done := by
    simp only [Trie.call, Trie.delete, hok]
    rfl
  have hdeleted := hinserted.call r'' (.delete key mask) (by rw [hgone]; exact id)
  rw [hgone] at hdeleted
  refine h.reach_congr hdeleted ?_ path
  simp only [PrefixMap.remember, Finmap.keys_erase, PrefixMap.keys_insert]
  exact Finset.erase_insert (fun hmem => hnot (Finmap.mem_keys.mp hmem))

end Shaped

/-- **The shape of a trie tells nothing about its past.** Let a trie be created as a root alone and
run without ever running out of memory. Then links lead to the root and to the nodes on the way to
stored prefixes, and to no others, so every node but the root has a value or a child. A deletion is
carried out exactly where the prefix is stored and changes nothing elsewhere. Another such run that
ends with the same prefixes stored has as many nodes, and in the same places. And a deletion right
after an insertion restores the places of nodes, the values and the size. -/
theorem canonical_run {value : Layout} {r₀ r₁ : Region σ}
    (h : create value .none r₀ = (.ok t, r₁)) (r : Region σ) (turns : List (TrieTurn K V σ))
    (hmemory : Unexhausted (t.run r turns).1) :
    let stored := PrefixMap.ofLog (t.run r turns).1
    let after := (t.run r turns).2.1
    (∀ path, (after.reach path).isSome ↔ path = [] ∨ ∃ q ∈ stored, path <+: q) ∧
    (∀ path, path ≠ [] → (after.reach path).isSome →
      path ∈ stored ∨ ∃ bit, (after.reach (path ++ [bit])).isSome) ∧
    (∀ (r' : Region σ) (key mask : K),
      if (PrefixKey.bits key).take (PrefixKey.maskLength mask) ∈ stored then
        (after.delete r' key mask).1 = .ok ()
      else after.delete r' key mask = (.error .notFound, after, r')) ∧
    (∀ {V' σ' : Type} [RawSource σ'] {value' : Layout} {r₀' r₁' : Region σ'} {t' : Trie K V'},
      create value' .none r₀' = (.ok t', r₁') →
      ∀ (r' : Region σ') (turns' : List (TrieTurn K V' σ')), Unexhausted (t'.run r' turns').1 →
        (PrefixMap.ofLog (t'.run r' turns').1).keys = stored.keys →
          (t'.run r' turns').2.1.nodeCount = after.nodeCount ∧
            ∀ path, ((t'.run r' turns').2.1.reach path).isSome ↔ (after.reach path).isSome) ∧
    ∀ (r' r'' r₂ : Region σ) (key mask : K) (v : V) (t' : Trie K V),
      (PrefixKey.bits key).take (PrefixKey.maskLength mask) ∉ stored →
      after.insert r' key mask v = (.ok (), t', r'') →
        (t'.delete r₂ key mask).1 = .ok () ∧
          (∀ path, ((t'.delete r₂ key mask).2.1.reach path).isSome ↔ (after.reach path).isSome) ∧
          (∀ path, (t'.delete r₂ key mask).2.1.root.get path = after.root.get path) ∧
          (t'.delete r₂ key mask).2.1.size = after.size := by
  -- a new trie is shaped by the empty map, and every run by the map of its log
  have hshape : ∀ {V' σ' : Type} [RawSource σ'] {value' : Layout} {r₀' r₁' : Region σ'}
      {t' : Trie K V'}, create value' .none r₀' = (.ok t', r₁') → t'.Shaped ∅ := by
    intro V' σ' _ value' r₀' r₁' t' h'
    obtain ⟨hcreated, hvacant⟩ := wellFormed_create h'
    exact ⟨hcreated, lively_create h', hvacant.represents⟩
  have hafter := (hshape h).run r turns hmemory
  refine ⟨hafter.isSome_reach_iff, fun path => hafter.exists_child, hafter.delete_eq, ?_, ?_⟩
  · intro V' σ' _ value' r₀' r₁' t' h' r' turns' hmemory' hkeys
    have hafter' := (hshape h').run r' turns' hmemory'
    have hreach := hafter.reach_congr hafter' hkeys
    exact ⟨nodeCount_eq_of_reach hafter'.wellFormed hafter.wellFormed hreach, hreach⟩
  · intro r' r'' r₂ key mask v t' hnot hinsert
    exact hafter.delete_insert hnot hinsert r₂

/-- The shape is right, for instance, where values were stored over a numbered source, one of them
at a prefix of the other, and the longer one was removed again. -/
theorem canonical_run_tracked :
    ∃ (t : Trie UInt32 Nat) (r : Region Tracker) (turns : List (TrieTurn UInt32 Nat Tracker)),
      create ⟨8, 8⟩ .none (trackedRegion 1024) = (.ok t, r) ∧
      turns = [⟨id, .insert 0 0xF0000000 7⟩, ⟨id, .insert 0 0x80000000 8⟩,
        ⟨id, .delete 0 0xF0000000⟩, ⟨id, .delete 0 0xF0000000⟩] ∧
      Unexhausted (t.run r turns).1 ∧
      ∀ path, ((t.run r turns).2.1.reach path).isSome ↔
        path = [] ∨ ∃ q ∈ PrefixMap.ofLog (t.run r turns).1, path <+: q := by
  obtain ⟨turns, hturns⟩ : ∃ turns : List (TrieTurn UInt32 Nat Tracker),
      turns = [⟨id, .insert 0 0xF0000000 7⟩, ⟨id, .insert 0 0x80000000 8⟩,
        ⟨id, .delete 0 0xF0000000⟩, ⟨id, .delete 0 0xF0000000⟩] := ⟨_, rfl⟩
  have hcheck : (match create (K := UInt32) (V := Nat) ⟨8, 8⟩ .none (trackedRegion 1024) with
      | (.ok t, r) => decide (Unexhausted (t.run r turns).1)
      | (.error _, _) => false) = true := by
    rw [hturns]
    decide +kernel
  rcases h : create (K := UInt32) (V := Nat) ⟨8, 8⟩ .none (trackedRegion 1024) with
    ⟨fault | t, r⟩ <;> rw [h] at hcheck
  · cases hcheck
  · have hmemory := of_decide_eq_true hcheck
    exact ⟨t, r, turns, rfl, hturns, hmemory, (canonical_run h r turns hmemory).1⟩

end Runs

end Trie

end RegionTrie
