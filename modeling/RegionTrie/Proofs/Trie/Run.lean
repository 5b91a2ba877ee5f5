import RegionTrie.Heap.Tracker
import RegionTrie.Key.Word
import RegionTrie.Trie.Preallocate
import RegionTrie.Proofs.Trie.Links
import RegionTrie.Proofs.Trie.Store

/-!
# Runs of a trie

A run is a sequence of calls. Between two calls others may use the region, so what a call finds
there is arbitrary: in particular any request for memory may be granted or declined.

Every trie that a run can reach is well formed: its nodes and those on the stack are the nodes ever
handed out, parent links are right, no node is deeper than keys are wide, and the size is the number
of values.

## Main definitions

* `TrieCall`, `TrieAnswer`, `Trie.call`: the calls of a trie and what it answers
* `Trie.run`: calls one after the other
* `Trie.WellFormed`: what is true of every trie

## Main results

* `Trie.link_cases`, `Trie.unlink_cases`, `Trie.create_cases`: the ways in which a change of a trie
  or its creation can end
* `Trie.WellFormed.link`, `Trie.WellFormed.unlink`: a change keeps a trie well formed
* `Trie.wellFormed_create`, `Trie.WellFormed.run`: so every trie of a run is well formed
-/

namespace RegionTrie

/-- The calls of a trie. -/
inductive TrieCall (K V : Type) where
  | insert (key mask : K) (value : V)
  | delete (key mask : K)
  | get (key mask : K)
  | find (key : K)

/-- What a trie answers to a call. -/
inductive TrieAnswer (V : Type) where
  | done
  | refused (fault : Fault)
  | found (value : Option V)

/-- The answer to a change that may be refused. -/
def TrieAnswer.ofOutcome {V : Type} : Except Fault Unit → TrieAnswer V
  | .ok () => done
  | .error fault => refused fault

/-- What others do to the region, and then a call. -/
structure TrieTurn (K V σ : Type) where
  meanwhile : Region σ → Region σ
  call : TrieCall K V

namespace Trie

variable {K V σ : Type}

section Calls

variable [PrefixKey K] [RawSource σ]

/-- Answer a call. -/
def call (t : Trie K V) (r : Region σ) : TrieCall K V → TrieAnswer V × Trie K V × Region σ
  | .insert key mask value =>
    match t.insert r key mask value with
    | (outcome, t, r) => (.ofOutcome outcome, t, r)
  | .delete key mask =>
    match t.delete r key mask with
    | (outcome, t, r) => (.ofOutcome outcome, t, r)
  | .get key mask => (.found (t.get key mask), t, r)
  | .find key => (.found (t.find key), t, r)

/-- Answer calls one after the other, and keep a log of calls and answers. -/
def run (t : Trie K V) (r : Region σ) :
    List (TrieTurn K V σ) → List (TrieCall K V × TrieAnswer V) × Trie K V × Region σ
  | [] => ([], t, r)
  | turn :: rest =>
    match t.call (turn.meanwhile r) turn.call with
    | (answer, t, r) =>
      match t.run r rest with
      | (log, t, r) => ((turn.call, answer) :: log, t, r)

/-- Calls come in any number of batches. -/
theorem run_append (t : Trie K V) (r : Region σ) (first rest : List (TrieTurn K V σ)) :
    t.run r (first ++ rest) =
      ((t.run r first).1 ++ ((t.run r first).2.1.run (t.run r first).2.2 rest).1,
        ((t.run r first).2.1.run (t.run r first).2.2 rest).2) := by
  induction first generalizing t r with
  | nil => rfl
  | cons turn first ih => simp only [List.cons_append, run, ih]

end Calls

/-! ## How changes end -/

/-- A path that already has a value is refused; otherwise the missing nodes are put in, all of them
or as many as could be had. -/
theorem link_cases [RawSource σ] (t : Trie K V) (r : Region σ) (path : List Bool)
    (value : Option V) :
    ((t.root.get path).isSome ∧ t.link r path value = (.error .busy, t, r)) ∨
    (∃ taken nodes r', t.root.get path = none ∧
      t.nodes.takeMany r (t.root.missing path) = (taken, nodes, r') ∧ taken.fault = none ∧
      t.link r path value =
        (.ok (), { nodes, root := t.root.graft value none path taken.indices,
                   size := t.size + value.isSome.toNat }, r')) ∨
    (∃ taken nodes r' fault, t.root.get path = none ∧
      t.nodes.takeMany r (t.root.missing path) = (taken, nodes, r') ∧ taken.fault = some fault ∧
      t.link r path value =
        (.error fault,
          { t with nodes, root := t.root.graft value none path taken.indices }, r')) := by
  unfold link
  cases hget : t.root.get path with
  | some v => exact .inl ⟨rfl, rfl⟩
  | none =>
    -- the nodes come first, and the branch takes however many there are
    refine .inr ?_
    rcases t.nodes.takeMany r (t.root.missing path) with ⟨⟨indices, fault⟩, nodes, r'⟩
    cases fault with
    | none => exact .inl ⟨⟨indices, none⟩, nodes, r', rfl, rfl, rfl, rfl⟩
    | some fault => exact .inr ⟨⟨indices, some fault⟩, nodes, r', fault, rfl, rfl, rfl, rfl⟩

/-- A path that is linked had no value, and all nodes that it lacked were had. -/
theorem link_of_ok [RawSource σ] {t : Trie K V} {r : Region σ} {path : List Bool}
    {value : Option V} (hok : (t.link r path value).1 = .ok ()) :
    ∃ taken nodes r', t.root.get path = none ∧
      t.nodes.takeMany r (t.root.missing path) = (taken, nodes, r') ∧ taken.fault = none ∧
      t.link r path value =
        (.ok (), { nodes, root := t.root.graft value none path taken.indices,
                   size := t.size + value.isSome.toNat }, r') := by
  rcases link_cases t r path value with ⟨-, heq⟩ | hlinked | ⟨_, _, _, _, -, -, -, heq⟩
  · rw [heq] at hok
    cases hok
  · exact hlinked
  · rw [heq] at hok
    cases hok

/-- There is nothing to remove, or it is removed and the useless nodes go on the stack. -/
theorem unlink_cases (t : Trie K V) (r : Region σ) (path : List Bool) :
    (t.root.erase path = none ∧ t.unlink r path = (.error .notFound, t, r)) ∨
    (∃ e r', t.root.erase path = some e ∧
      t.unlink r path =
        (.ok (), { nodes := t.nodes.recycle e.recycled, root := e.branch,
                   size := t.size - e.valued.toNat }, r')) := by
  unfold unlink
  cases herase : t.root.erase path with
  | none => exact .inl ⟨rfl, rfl⟩
  | some e => exact .inr ⟨e, _, rfl, rfl⟩

/-! ## The root -/

/-- A trie whose first node is the one handed out first. -/
def Rooted (t : Trie K V) : Prop :=
  t.root.index? = some 0

theorem Rooted.link [RawSource σ] {t : Trie K V} (ht : t.Rooted) (r : Region σ) (path : List Bool)
    (value : Option V) : (t.link r path value).2.1.Rooted := by
  have hgraft : ∀ fresh, (t.root.graft value none path fresh).index? = some 0 := by
    intro fresh
    -- a node that is there stays, so the root does
    unfold Rooted at ht
    cases hroot : t.root with
    | absent => rw [hroot] at ht; cases ht
    | node i up v zero one =>
      rw [hroot] at ht
      rcases path with _ | ⟨_ | _, path⟩ <;> exact ht
  rcases link_cases t r path value with
    ⟨-, heq⟩ | ⟨taken, nodes, r', -, -, -, heq⟩ | ⟨taken, nodes, r', fault, -, -, -, heq⟩ <;>
    rw [heq]
  · exact ht
  · exact hgraft _
  · exact hgraft _

theorem Rooted.unlink {t : Trie K V} (ht : t.Rooted) (hlinked : t.root.Linked none) (r : Region σ)
    (path : List Bool) : (t.unlink r path).2.1.Rooted := by
  rcases unlink_cases t r path with ⟨-, heq⟩ | ⟨e, r', herase, heq⟩ <;> rw [heq]
  · exact ht
  · unfold Rooted at ht ⊢
    cases hroot : t.root with
    | absent => rw [hroot] at ht; cases ht
    | node i up v zero one =>
      rw [hroot] at ht herase hlinked
      -- the root has no parent, and a node without a parent is not removed
      obtain rfl : up = none := hlinked.1
      rw [Branch.index_erase_of_root herase]
      exact ht

/-! ## Empty tries -/

/-- No prefix is stored. -/
def Vacant (t : Trie K V) : Prop :=
  t.size = 0 ∧ ∀ path, t.root.get path = none

theorem Vacant.link [RawSource σ] {t : Trie K V} (ht : t.Vacant) (r : Region σ) (path : List Bool) :
    (t.link r path none).2.1.Vacant := by
  have hgraft : ∀ fresh q, (t.root.graft none none path fresh).get q = none := by
    intro fresh q
    rw [Branch.get_graft, ht.2 q]
    exact ite_self _
  rcases link_cases t r path none with
    ⟨-, heq⟩ | ⟨taken, nodes, r', -, -, -, heq⟩ | ⟨taken, nodes, r', fault, -, -, -, heq⟩ <;>
    rw [heq]
  · exact ht
  · exact ⟨ht.1, hgraft _⟩
  · exact ⟨ht.1, hgraft _⟩

/-- A removal hands no node out. -/
theorem handedOut_unlink (t : Trie K V) (r : Region σ) (path : List Bool) :
    (t.unlink r path).2.1.nodes.handedOut = t.nodes.handedOut := by
  rcases unlink_cases t r path with ⟨-, heq⟩ | ⟨e, r', -, heq⟩ <;> rw [heq]
  rfl

/-! ## Well-formed tries -/

section WellFormed

variable [PrefixKey K]

/-- What is true of every trie that a run can reach, and of a trie that is being laid out. -/
structure WellFormed (t : Trie K V) : Prop where
  store : t.nodes.Sound
  accounts : t.nodes.Accounts t.root.indices
  linked : t.root.Linked none
  shallow : ∀ path, t.root.Holds path → path.length ≤ PrefixKey.width K
  size_eq : t.size = t.root.valued

/-- A trie for values of the given layout that has no node yet, not even its root. -/
def bare (value : Layout) (pageSize : Nat) : Trie K V :=
  { nodes := { shape := SlabShape.ofValue value pageSize } }

theorem wellFormed_bare (value : Layout) (pageSize : Nat) :
    (bare value pageSize : Trie K V).WellFormed where
  store := NodeStore.sound_empty value pageSize
  accounts := NodeStore.accounts_empty _
  linked := trivial
  shallow path h := absurd h (Branch.not_holds_absent path)
  size_eq := rfl

theorem shallow_graft {value : Option V} {b : Branch V} {up : Option Nat} {path : List Bool}
    {fresh : List Nat} {width : Nat} (hpath : path.length ≤ width)
    (hb : ∀ q, b.Holds q → q.length ≤ width) {q : List Bool}
    (hq : (Branch.graft value b up path fresh).Holds q) : q.length ≤ width := by
  rcases Branch.holds_graft.mp hq with hold | ⟨hlead, -⟩
  · exact hb q hold
  · exact Nat.le_trans hlead.length_le hpath

/-- Putting nodes in keeps a trie well formed, whether or not memory runs out. -/
theorem WellFormed.link [RawSource σ] {t : Trie K V} (ht : t.WellFormed) (r : Region σ)
    {path : List Bool} (hpath : path.length ≤ PrefixKey.width K) (value : Option V) :
    (t.link r path value).2.1.WellFormed := by
  rcases link_cases t r path value with
    ⟨-, heq⟩ | ⟨taken, nodes, r', hget, htake, hfault, heq⟩ |
    ⟨taken, nodes, r', fault, hget, htake, hfault, heq⟩ <;> rw [heq]
  · exact ht
  all_goals
    obtain ⟨hsound, -, hall, hle, hiff, -⟩ := NodeStore.takeMany_spec ht.store ht.accounts htake
    have hperm : (t.root.graft value none path taken.indices).indices.Perm
        (taken.indices ++ t.root.indices) := Branch.perm_indices_graft hle
    have hvalued : (t.root.graft value none path taken.indices).valued = t.root.valued +
        if t.root.missing path ≤ taken.indices.length then value.isSome.toNat else 0 :=
      Branch.valued_graft hget
    refine ⟨hsound, (hperm.append_right _).trans hall, Branch.linked_graft ht.linked,
      fun q hq => shallow_graft hpath ht.shallow hq, ?_⟩
  · -- every missing node was had, so the path ends in a new value
    have hlen := hiff.mp hfault
    rw [hvalued, if_pos (Nat.le_of_eq hlen.symm), ht.size_eq]
  · -- memory ran out on the way, so no value came in
    have hlen : taken.indices.length ≠ t.root.missing path := by
      intro hlen
      rw [hiff.mpr hlen] at hfault
      cases hfault
    rw [hvalued, if_neg (by omega), Nat.add_zero]
    exact ht.size_eq

theorem WellFormed.handedOut_le_link [RawSource σ] {t : Trie K V} (ht : t.WellFormed)
    (r : Region σ) (path : List Bool) (value : Option V) :
    t.nodes.handedOut ≤ (t.link r path value).2.1.nodes.handedOut := by
  rcases link_cases t r path value with
    ⟨-, heq⟩ | ⟨taken, nodes, r', -, htake, -, heq⟩ |
    ⟨taken, nodes, r', fault, -, htake, -, heq⟩ <;> rewrite [heq]
  · exact Nat.le_refl _
  all_goals exact (NodeStore.takeMany_spec ht.store ht.accounts htake).2.1

/-- A removal keeps a trie well formed. -/
theorem WellFormed.unlink {t : Trie K V} (ht : t.WellFormed) (r : Region σ) (path : List Bool) :
    (t.unlink r path).2.1.WellFormed := by
  rcases unlink_cases t r path with ⟨-, heq⟩ | ⟨e, r', herase, heq⟩ <;> rw [heq]
  · exact ht
  · have hvalued := Branch.valued_erase_add herase
    have hstore := ht.store
    refine ⟨⟨hstore.perSlab_pos, hstore.remaining_le, hstore.obtainable⟩,
      ht.accounts.recycle (Branch.perm_indices_erase herase), Branch.linked_erase herase ht.linked,
      fun q hq => ht.shallow q (hq.of_erase herase), ?_⟩
    -- the size goes down by one exactly if a value went
    show t.size - e.valued.toNat = e.branch.valued
    rw [ht.size_eq]
    omega

theorem length_selected_le (key mask : K) :
    (PrefixKey.selected key mask).length ≤ PrefixKey.width K := by
  rw [PrefixKey.length_selected]
  exact PrefixKey.maskLength_le mask

/-- The root is among the nodes handed out, so slabs can be asked for. -/
theorem WellFormed.obtainable {t : Trie K V} (ht : t.WellFormed ∧ t.Rooted) :
    t.nodes.shape.Obtainable := by
  apply ht.1.store.obtainable_of_handedOut
  intro hzero
  have hroot : 0 ∈ t.root.indices := Branch.index_mem_indices ht.2
  have hmem := ht.1.accounts.subset (List.mem_append_left _ hroot)
  rw [hzero] at hmem
  cases hmem

/-- A call keeps a trie well formed. -/
theorem WellFormed.call [RawSource σ] {t : Trie K V} (ht : t.WellFormed ∧ t.Rooted) (r : Region σ)
    (c : TrieCall K V) : (t.call r c).2.1.WellFormed ∧ (t.call r c).2.1.Rooted := by
  cases c with
  | insert key mask value =>
    exact ⟨ht.1.link r (length_selected_le key mask) _, ht.2.link r _ _⟩
  | delete key mask => exact ⟨ht.1.unlink r _, ht.2.unlink ht.1.linked r _⟩
  | get key mask => exact ht
  | find key => exact ht

/-- **Every trie of a run is well formed.** -/
theorem WellFormed.run [RawSource σ] {t : Trie K V} (ht : t.WellFormed ∧ t.Rooted) (r : Region σ)
    (turns : List (TrieTurn K V σ)) :
    (t.run r turns).2.1.WellFormed ∧ (t.run r turns).2.1.Rooted := by
  induction turns generalizing t r with
  | nil => exact ht
  | cons turn rest ih => exact ih (WellFormed.call ht (turn.meanwhile r) turn.call) _

/-- No call undoes that a node was handed out. -/
theorem handedOut_le_run [RawSource σ] {t : Trie K V} (ht : t.WellFormed ∧ t.Rooted)
    (r : Region σ) (turns : List (TrieTurn K V σ)) :
    t.nodes.handedOut ≤ (t.run r turns).2.1.nodes.handedOut := by
  induction turns generalizing t r with
  | nil => exact Nat.le_refl _
  | cons turn rest ih =>
    refine Nat.le_trans ?_ (ih (WellFormed.call ht (turn.meanwhile r) turn.call) _)
    -- only an insertion takes nodes, and a deletion puts them on the stack
    cases turn.call with
    | insert key mask value => exact ht.1.handedOut_le_link _ _ _
    | delete key mask => exact Nat.le_of_eq (handedOut_unlink t _ _).symm
    | get key mask => exact Nat.le_refl _
    | find key => exact Nat.le_refl _

/-! ## Creation -/

variable [RawSource σ]

/-- What linking unvalued nodes preserves, of a trie and a region, is preserved by laying out levels
in advance. -/
theorem linkLevels_induction {P : Trie K V → Region σ → Prop}
    (hstep : ∀ (t : Trie K V) (r : Region σ) (key mask : K), P t r →
      P (t.link r (PrefixKey.selected key mask) none).2.1
        (t.link r (PrefixKey.selected key mask) none).2.2)
    {t : Trie K V} {r : Region σ} (h : P t r) (first count : Nat) :
    P (t.linkLevels r first count).2.1 (t.linkLevels r first count).2.2 := by
  -- first one level, prefix by prefix
  have hlevel : ∀ (length count first : Nat) (t : Trie K V) (r : Region σ), P t r →
      P (t.linkLevel r length first count).2.1 (t.linkLevel r length first count).2.2 := by
    intro length count
    induction count with
    | zero =>
      intro first t r h
      exact h
    | succ count ih =>
      intro first t r h
      have hone := hstep t r (PrefixKey.ofPrefix first length) (PrefixKey.mask length) h
      simp only [linkLevel]
      rcases hlink : t.link r (PrefixKey.selected (PrefixKey.ofPrefix (K := K) first length)
        (PrefixKey.mask length)) none with ⟨fault | ⟨⟩, t', r'⟩ <;> rw [hlink] at hone
      · exact hone
      · exact ih (first + 1) t' r' hone
  -- then the levels, one by one
  induction count generalizing t r first with
  | zero => exact h
  | succ count ih =>
    have hone := hlevel first (1 <<< first) 0 t r h
    simp only [linkLevels]
    rcases hlink : t.linkLevel r first 0 (1 <<< first) with ⟨fault | ⟨⟩, t', r'⟩ <;>
      rw [hlink] at hone
    · exact hone
    · exact ih hone (first + 1)

/-- A depth is refused, or memory runs out at the root or at a level below it, or a trie comes
out. -/
theorem create_cases (value : Layout) (p : Preallocation) (r : Region σ) :
    (∃ fault, create (K := K) (V := V) value p r = (.error fault, r)) ∨
    (∃ fault t r₁, link (K := K) (V := V) (bare value r.heap.pageSize) r [] none =
        (.error fault, t, r₁) ∧
      create (K := K) (V := V) value p r = (.error fault, r₁)) ∨
    (∃ top r₁ fault t r₂ depth,
      link (K := K) (V := V) (bare value r.heap.pageSize) r [] none = (.ok (), top, r₁) ∧
      top.linkLevels r₁ 1 depth = (.error fault, t, r₂) ∧
      create (K := K) (V := V) value p r = (.error fault, r₂)) ∨
    (∃ top r₁ t r₂ depth,
      link (K := K) (V := V) (bare value r.heap.pageSize) r [] none = (.ok (), top, r₁) ∧
      top.linkLevels r₁ 1 depth = (.ok (), t, r₂) ∧
      create (K := K) (V := V) value p r =
        (.ok t, if depth = 0 then r₂ else r₂.note (.triePreallocated depth t.nodeCount))) := by
  unfold create
  dsimp only
  split
  · exact .inl ⟨_, rfl⟩
  refine .inr ?_
  rcases htop : link (K := K) (V := V) (bare value r.heap.pageSize) r [] none with
    ⟨fault | ⟨⟩, top, r₁⟩
  · unfold bare at htop
    exact .inl ⟨fault, top, r₁, rfl, by simp only [htop]⟩
  · unfold bare at htop
    refine .inr ?_
    rcases hlevels : top.linkLevels r₁ 1 (p.levels (SlabShape.ofValue value r.heap.pageSize)) with
      ⟨fault | ⟨⟩, t, r₂⟩
    · exact .inl ⟨top, r₁, fault, t, r₂, _, rfl, hlevels, by simp only [htop, hlevels]⟩
    · exact .inr ⟨top, r₁, t, r₂, _, rfl, hlevels, by simp only [htop, hlevels]⟩

/-- The first node of all is the root. -/
theorem rooted_of_link_bare {value : Layout} {pageSize : Nat} {r r' : Region σ} {t : Trie K V}
    (h : (bare value pageSize).link r [] none = (.ok (), t, r')) : t.Rooted := by
  have hbare := wellFormed_bare (K := K) (V := V) value pageSize
  rcases link_cases (bare value pageSize : Trie K V) r [] none with
    ⟨-, heq⟩ | ⟨taken, nodes, r₁, -, htake, hfault, heq⟩ | ⟨_, _, _, _, -, -, -, heq⟩ <;>
    rw [heq] at h <;> cases h
  obtain ⟨-, -, -, -, hiff, -⟩ := NodeStore.takeMany_spec hbare.store hbare.accounts htake
  obtain ⟨i, hi⟩ := List.length_eq_one_iff.mp (hiff.mp hfault)
  rcases taken with ⟨indices, fault⟩
  obtain rfl : indices = [i] := hi
  -- one node is taken from a store that has handed out none
  have hfirst : i = 0 := by
    rw [NodeStore.head_takeMany hbare.store rfl htake]
    simp [bare, NodeStore.handedOut, NodeStore.capacity]
  rw [hfirst]
  rfl

/-- **A created trie is well formed**, its root is the node handed out first, and it is empty. -/
theorem wellFormed_create {value : Layout} {p : Preallocation} {r r' : Region σ} {t : Trie K V}
    (h : create value p r = (.ok t, r')) : (t.WellFormed ∧ t.Rooted) ∧ t.Vacant := by
  rcases create_cases (K := K) (V := V) value p r with
    ⟨fault, heq⟩ | ⟨fault, _, _, -, heq⟩ | ⟨_, _, fault, _, _, _, -, -, heq⟩ |
    ⟨top, r₁, t', r₂, depth, htop, hlevels, heq⟩ <;> rw [heq] at h <;> cases h
  have hbare := wellFormed_bare (K := K) (V := V) value r.heap.pageSize
  have hvacant : Vacant (bare value r.heap.pageSize : Trie K V) := ⟨rfl, Branch.get_absent⟩
  have hroom : ([] : List Bool).length ≤ PrefixKey.width K := Nat.zero_le _
  -- so it is with the root alone, and it stays so level by level
  have hwf := hbare.link r hroom none
  have hnone := hvacant.link r []
  rw [htop] at hwf hnone
  have hall := linkLevels_induction
    (P := fun (t : Trie K V) (_ : Region σ) => (t.WellFormed ∧ t.Rooted) ∧ t.Vacant) ?_
    (r := r₁) ⟨⟨hwf, rooted_of_link_bare htop⟩, hnone⟩ 1 depth
  · rw [hlevels] at hall
    exact hall
  · rintro t r key mask ⟨⟨hwf, hrooted⟩, hvacant⟩
    exact ⟨⟨hwf.link r (length_selected_le key mask) none, hrooted.link r _ none⟩, hvacant.link r _⟩

end WellFormed

/-- A region of one block over a numbered source, to run a trie in. -/
def trackedRegion (size : Nat) : Region Tracker where
  pool :=
    { config := .withSize size, chain := ⟨[], [.fresh size size]⟩
      largestSmall := size - blockHeaderSize }
  heap := { source := { frontier := 2 * size }, live := [⟨size, ⟨size, blockAlign⟩⟩] }

end Trie

end RegionTrie
