import RegionTrie.Trie.Store
import RegionTrie.Proofs.Region.Outcomes

/-!
# Which nodes a store hands out

Nodes are numbered in the order in which they are first handed out, so the numbers handed out so
far are those below a bound. A store hands out a node from its stack, or the next number, and in
that way every number is at any time either in use or on the stack, and not both.

## Main definitions

* `NodeStore.handedOut`: how many nodes were ever handed out
* `NodeStore.Sound`: what is true of every store that a trie works with
* `NodeStore.Accounts`: the nodes in use and those on the stack are all that were handed out

## Main results

* `NodeStore.carve_cases`, `NodeStore.take_cases`: a node is handed out, or memory has run out
* `NodeStore.takeMany_spec`: what several nodes asked for at once are
-/

namespace RegionTrie

namespace SlabShape

/-- Slabs of this shape can be asked for: they have bytes, and a layout. -/
def Obtainable (s : SlabShape) : Prop :=
  0 < s.slabSize ∧ (⟨s.slabSize, s.slabAlign⟩ : Layout).Valid

theorem nodeSize_pos (value : Layout) (pageSize : Nat) : 0 < (ofValue value pageSize).nodeSize := by
  have hle := le_alignUp (linkSize + value.align + value.size)
    (Nat.lt_of_lt_of_le (by decide : 0 < linkAlign) (Nat.le_max_left linkAlign value.align))
  simp only [ofValue]
  simp only [linkSize] at hle ⊢
  omega

/-- A slab that has bytes has room for a node. -/
theorem perSlab_pos {value : Layout} {pageSize : Nat} (h : 0 < (ofValue value pageSize).slabSize) :
    0 < (ofValue value pageSize).perSlab := by
  have hpage : 0 < pageSize := by
    rcases Nat.eq_zero_or_pos pageSize with rfl | hpos
    · simp [ofValue, alignUp] at h
    · exact hpos
  have hle := le_alignUp (max pageSize (ofValue value pageSize).nodeSize) hpage
  refine Nat.div_pos ?_ (nodeSize_pos value pageSize)
  exact Nat.le_trans (Nat.le_max_right pageSize _) hle

end SlabShape

namespace NodeStore

/-- The number of nodes that were ever handed out. -/
def handedOut (s : NodeStore) : Nat :=
  s.capacity - s.remaining

/-- A slab has room for a node, no more nodes remain than there are, and a slab was taken only if
slabs can be asked for. -/
structure Sound (s : NodeStore) : Prop where
  perSlab_pos : s.shape.Obtainable → 0 < s.shape.perSlab
  remaining_le : s.remaining ≤ s.capacity
  obtainable : s.slabs.size ≠ 0 → s.shape.Obtainable

/-- Every node ever handed out is in use or on the stack, once. -/
def Accounts (s : NodeStore) (used : List Nat) : Prop :=
  (used ++ s.free).Perm (List.range s.handedOut)

theorem sound_empty (value : Layout) (pageSize : Nat) :
    Sound { shape := SlabShape.ofValue value pageSize } where
  perSlab_pos h := SlabShape.perSlab_pos h.1
  remaining_le := Nat.zero_le _
  obtainable h := absurd rfl h

theorem accounts_empty (shape : SlabShape) : Accounts { shape } [] := by
  simp [Accounts, handedOut, capacity]

/-- A store that handed out a node has a slab. -/
theorem Sound.obtainable_of_handedOut {s : NodeStore} (hs : s.Sound) (h : s.handedOut ≠ 0) :
    s.shape.Obtainable := by
  refine hs.obtainable fun hsize => h ?_
  simp [handedOut, capacity, hsize]

variable {σ : Type} [RawSource σ]

/-- A slab is at hand, or was obtained, or cannot be had. -/
theorem replenish_cases {s : NodeStore} (hs : s.Sound) (r : Region σ) :
    (∃ s' r', s.replenish r = (.ok (), s', r') ∧ s'.Sound ∧ s'.shape = s.shape ∧
      s'.free = s.free ∧ s'.handedOut = s.handedOut ∧ 0 < s'.remaining) ∨
    (∃ fault r', s.replenish r = (.error fault, s, r') ∧
      r.allocateAligned s.shape.slabSize s.shape.slabAlign = (.error fault, r')) := by
  unfold replenish
  by_cases hzero : s.remaining = 0
  · -- all nodes of the slabs are handed out, so another slab is asked for
    simp only [if_pos hzero]
    rcases hslab : r.allocateAligned s.shape.slabSize s.shape.slabAlign with ⟨fault | slab, r'⟩
    · exact .inr ⟨fault, r', rfl, rfl⟩
    · have hobtainable : s.shape.Obtainable := Region.layout_of_allocateAligned hslab
      have hpos := hs.perSlab_pos hobtainable
      refine .inl ⟨_, _, rfl, ⟨hs.perSlab_pos, ?_, fun _ => hobtainable⟩, rfl, rfl, ?_, hpos⟩
      · simp [capacity, Nat.add_mul]
      · simp [handedOut, capacity, hzero, Nat.add_mul]
  · -- there are nodes at hand
    simp only [if_neg hzero]
    exact .inl ⟨s, r, rfl, hs, rfl, rfl, rfl, Nat.pos_of_ne_zero hzero⟩

/-- The next number is handed out, or memory has run out. -/
theorem carve_cases {s : NodeStore} (hs : s.Sound) (r : Region σ) :
    (∃ s' r', s.carve r = (.ok s.handedOut, s', r') ∧ s'.Sound ∧ s'.shape = s.shape ∧
      s'.free = s.free ∧ s'.handedOut = s.handedOut + 1) ∨
    (∃ fault s' r', s.carve r = (.error fault, s', r') ∧ s'.Sound ∧ s'.shape = s.shape ∧
      s'.free = s.free ∧ s'.handedOut = s.handedOut ∧
      (s.shape.Obtainable → ∃ size align, fault = .exhausted size align)) := by
  unfold carve
  rcases replenish_cases hs r with
    ⟨s', r', heq, hs', hshape, hfree, hout, hpos⟩ | ⟨fault, r', heq, hslab⟩
  · simp only [heq]
    split
    · -- one node fewer remains, so one more was handed out
      refine .inl ⟨{ s' with remaining := s'.remaining - 1 }, r', ?_,
        ⟨hs'.perSlab_pos, ?_, hs'.obtainable⟩, hshape, hfree, ?_⟩
      · rw [← hout]; rfl
      · exact Nat.le_trans (Nat.sub_le _ _) hs'.remaining_le
      · have hle := hs'.remaining_le
        rw [← hout]
        show s'.capacity - (s'.remaining - 1) = s'.capacity - s'.remaining + 1
        omega
    · -- there is no number for another node
      exact .inr ⟨_, s', r', rfl, hs', hshape, hfree, hout, fun _ => ⟨_, _, rfl⟩⟩
  · -- there is no slab, and one that can be asked for is refused for want of memory only
    simp only [heq]
    exact .inr ⟨fault, s, r', rfl, hs, rfl, rfl, rfl, fun hobtainable =>
      Region.fault_of_allocateAligned hobtainable.1 hobtainable.2 hslab⟩

/-- The node last unlinked is handed out, or the next number, or memory has run out. -/
theorem take_cases {s : NodeStore} (hs : s.Sound) (r : Region σ) :
    (∃ index s', s.take r = (.ok index, s', r) ∧ s.free = index :: s'.free ∧ s'.Sound ∧
      s'.shape = s.shape ∧ s'.handedOut = s.handedOut) ∨
    (∃ s' r', s.take r = (.ok s.handedOut, s', r') ∧ s.free = [] ∧ s'.free = [] ∧ s'.Sound ∧
      s'.shape = s.shape ∧ s'.handedOut = s.handedOut + 1) ∨
    (∃ fault s' r', s.take r = (.error fault, s', r') ∧ s.free = [] ∧ s'.free = [] ∧ s'.Sound ∧
      s'.shape = s.shape ∧ s'.handedOut = s.handedOut ∧
      (s.shape.Obtainable → ∃ size align, fault = .exhausted size align)) := by
  unfold take
  cases hfree : s.free with
  | cons index free =>
    -- from the stack
    exact .inl ⟨index, { s with free }, rfl, rfl, ⟨hs.perSlab_pos, hs.remaining_le, hs.obtainable⟩,
      rfl, rfl⟩
  | nil =>
    refine .inr ?_
    rcases carve_cases hs r with
      ⟨s', r', heq, hs', hshape, hfree', hout⟩ |
      ⟨fault, s', r', heq, hs', hshape, hfree', hout, hfault⟩
    · exact .inl ⟨s', r', heq, rfl, hfree'.trans hfree, hs', hshape, hout⟩
    · exact .inr ⟨fault, s', r', heq, rfl, hfree'.trans hfree, hs', hshape, hout, hfault⟩

/-- A node handed out comes to those in use. -/
theorem Accounts.take {s s' : NodeStore} {used : List Nat} {index : Nat} {r r' : Region σ}
    (hs : s.Sound) (h : s.Accounts used) (htake : s.take r = (.ok index, s', r')) :
    s'.Accounts (index :: used) := by
  unfold Accounts at h ⊢
  rcases take_cases hs r with
    ⟨i, s₁, heq, hfree, -, -, hout⟩ | ⟨s₁, r₁, heq, hfree, hfree', -, -, hout⟩ |
    ⟨fault, s₁, r₁, heq, -⟩ <;> rw [heq] at htake <;> cases htake
  · -- the node goes from the stack to those in use
    rw [hout]
    rw [hfree] at h
    exact (List.perm_middle.symm).trans h
  · -- the stack is empty, and the node is numbered after all others
    rw [hfree, List.append_nil] at h
    rw [hfree', hout, List.append_nil, List.range_succ]
    exact (h.cons _).trans (List.perm_append_singleton _ _).symm

/-- Several nodes asked for at once: they come to those in use, and there are fewer than asked for
exactly if memory has run out. -/
theorem takeMany_spec {s s' : NodeStore} {used : List Nat} {r r' : Region σ} {n : Nat}
    {taken : Taken} (hs : s.Sound) (h : s.Accounts used)
    (htake : s.takeMany r n = (taken, s', r')) :
    s'.Sound ∧ s.handedOut ≤ s'.handedOut ∧ s'.Accounts (taken.indices ++ used) ∧
      taken.indices.length ≤ n ∧ (taken.fault = none ↔ taken.indices.length = n) ∧
      ∀ fault, taken.fault = some fault → s.shape.Obtainable →
        ∃ size align, fault = .exhausted size align := by
  -- one node after the other, and each comes to those in use before the next is asked for
  induction n generalizing s used r taken with
  | zero =>
    cases htake
    exact ⟨hs, Nat.le_refl _, h, Nat.le_refl _, by simp, by simp⟩
  | succ n ih =>
    simp only [takeMany] at htake
    rcases hone : s.take r with ⟨fault | index, s₁, r₁⟩
    · rw [hone] at htake
      cases htake
      -- the store after a refusal still accounts for the same nodes
      rcases take_cases hs r with
        ⟨i, s₂, heq, -⟩ | ⟨s₂, r₂, heq, -⟩ |
        ⟨fault', s₂, r₂, heq, hfree, hfree', hs₂, hshape, hout, hfault⟩ <;>
        rw [heq] at hone <;> cases hone
      refine ⟨hs₂, Nat.le_of_eq hout.symm, ?_, Nat.zero_le _, by simp, ?_⟩
      · unfold Accounts at h ⊢
        rwa [hfree', hout, List.nil_append, ← hfree]
      · intro fault' heq' hobtainable
        cases heq'
        exact hfault hobtainable
    · rw [hone] at htake
      have hused := h.take hs hone
      have hsound : s₁.Sound ∧ s₁.shape = s.shape ∧ s.handedOut ≤ s₁.handedOut := by
        rcases take_cases hs r with
          ⟨i, s₂, heq, -, hs₂, hshape, hout⟩ | ⟨s₂, r₂, heq, -, -, hs₂, hshape, hout⟩ |
          ⟨fault', s₂, r₂, heq, -⟩ <;> rw [heq] at hone <;> cases hone
        all_goals exact ⟨hs₂, hshape, by omega⟩
      rcases hrest : s₁.takeMany r₁ n with ⟨rest, s₂, r₂⟩
      simp only [hrest] at htake
      cases htake
      obtain ⟨hs₂, hout, hall, hle, hiff, hfault⟩ := ih hsound.1 hused hrest
      refine ⟨hs₂, Nat.le_trans hsound.2.2 hout, ?_, by simpa using hle, by simpa using hiff, ?_⟩
      · exact (List.perm_middle.symm.append_right _).trans hall
      · rw [← hsound.2.1]
        exact hfault

/-- With an empty stack, the first of several nodes is the next one by number. -/
theorem head_takeMany {s s' : NodeStore} {r r' : Region σ} {n index : Nat} {rest : List Nat}
    {fault : Option Fault} (hs : s.Sound) (hfree : s.free = [])
    (h : s.takeMany r n = (⟨index :: rest, fault⟩, s', r')) : index = s.handedOut := by
  cases n with
  | zero => cases h
  | succ n =>
    simp only [takeMany] at h
    rcases take_cases hs r with
      ⟨i, s₁, -, hcons, -⟩ | ⟨s₁, r₁, heq, -⟩ | ⟨fault', s₁, r₁, heq, -⟩
    · rw [hfree] at hcons
      cases hcons
    · simp only [heq] at h
      cases h
      rfl
    · simp only [heq] at h
      cases h

/-- Nodes put on the stack are no longer in use. -/
theorem Accounts.recycle {s : NodeStore} {used gone kept : List Nat} (h : s.Accounts used)
    (hsplit : (gone ++ kept).Perm used) : (s.recycle gone).Accounts kept := by
  unfold Accounts at h ⊢
  refine List.Perm.trans ?_ h
  refine List.perm_iff_count.mpr fun a => ?_
  have hcount := hsplit.count_eq a
  simp only [NodeStore.recycle, List.count_append, List.count_reverse] at hcount ⊢
  omega

end NodeStore

end RegionTrie
