import Mathlib.Algebra.Order.Floor.Div
import RegionTrie.Proofs.Trie.Requests

/-!
# How a store supplies nodes

A store hands out the nodes on its stack before it numbers any new one, and it asks for a slab only
when neither the stack nor the newest slab has a node left. So the nodes that it hands out next are
known beforehand, whatever memory there is: the only question is how many of them can be had. And
no slab is taken before the ones at hand are used up, so the number of slabs follows from the number
of nodes that were ever handed out.

## Main definitions

* `NodeStore.upcoming`: the next nodes that a store hands out
* `NodeStore.Supplies`: from one store to another, so many of them were handed out
* `NodeStore.Snug`: the newest slab is in use

## Main results

* `NodeStore.supplies_takeMany`: several nodes asked for at once are the upcoming ones
* `NodeStore.takeMany_granted`: all nodes are had if all requests for slabs are granted
* `NodeStore.Snug.slabs_eq`: how many slabs a store has
* `NodeStore.takeMany_resume`: asking again after a failure comes to the same as never failing
* `Trie.link_of_granted`: what that means for a path to be linked
-/

namespace RegionTrie.NodeStore

/-! ## The nodes handed out next -/

/-- The next nodes that the store hands out: those on the stack, and then the next numbers. -/
def upcoming (s : NodeStore) (n : Nat) : List Nat :=
  s.free.take n ++ List.range' s.handedOut (n - s.free.length)

/-- From one store to another these nodes were handed out: the upcoming ones, as many as they are.
The second store goes on with those after them. -/
structure Supplies (s : NodeStore) (indices : List Nat) (s' : NodeStore) : Prop where
  upcoming : indices = s.upcoming indices.length
  free : s'.free = s.free.drop indices.length
  handedOut : s'.handedOut = s.handedOut + (indices.length - s.free.length)
  shape : s'.shape = s.shape
  sound : s'.Sound

namespace Supplies

variable {s s₁ s₂ : NodeStore} {indices rest : List Nat}

/-- The nodes handed out next come before those that the store goes on with. -/
theorem upcoming_add (h : s.Supplies indices s₁) (m : Nat) :
    s.upcoming (indices.length + m) = indices ++ s₁.upcoming m := by
  suffices hsplit : s.upcoming (indices.length + m) = s.upcoming indices.length ++ s₁.upcoming m by
    rwa [← h.upcoming] at hsplit
  unfold NodeStore.upcoming
  rw [h.free, h.handedOut, List.length_drop, List.take_add]
  by_cases hle : indices.length ≤ s.free.length
  · -- the first nodes are all from the stack
    have hnone : indices.length - s.free.length = 0 := by omega
    have hrest : indices.length + m - s.free.length = m - (s.free.length - indices.length) := by
      omega
    simp [hnone, hrest]
  · -- the stack is used up by them
    have hdrop : s.free.drop indices.length = [] := List.drop_eq_nil_of_le (by omega)
    have hnone : s.free.length - indices.length = 0 := by omega
    have hsum : indices.length + m - s.free.length = (indices.length - s.free.length) + m := by
      omega
    rw [hdrop, hnone, hsum, ← List.range'_append_1]
    simp

theorem trans (h : s.Supplies indices s₁) (h₁ : s₁.Supplies rest s₂) :
    s.Supplies (indices ++ rest) s₂ where
  upcoming := by
    rw [List.length_append, h.upcoming_add, ← h₁.upcoming]
  free := by
    rw [h₁.free, h.free, List.drop_drop, List.length_append]
  handedOut := by
    rw [h₁.handedOut, h.handedOut, h.free, List.length_drop, List.length_append]
    omega
  shape := h₁.shape.trans h.shape
  sound := h₁.sound

end Supplies

/-- As long as no node is handed out, the order is the same. -/
theorem supplies_nothing {s s' : NodeStore} (hfree : s'.free = s.free)
    (hout : s'.handedOut = s.handedOut) (hshape : s'.shape = s.shape) (hs' : s'.Sound) :
    s.Supplies [] s' where
  upcoming := by simp [NodeStore.upcoming]
  free := hfree
  handedOut := by simpa using hout
  shape := hshape
  sound := hs'

variable {σ : Type} [RawSource σ]

/-- Handing out a node goes one further in the order, and a failure stays where it is. -/
theorem take_supply {s : NodeStore} (hs : s.Sound) (r : Region σ) :
    (∃ index s' r', s.take r = (.ok index, s', r') ∧ s.Supplies [index] s') ∨
    (∃ fault s' r', s.take r = (.error fault, s', r') ∧ s.Supplies [] s') := by
  rcases take_cases hs r with
    ⟨index, s', heq, hfree, hs', hshape, hout⟩ | ⟨s', r', heq, hfree, hfree', hs', hshape, hout⟩ |
    ⟨fault, s', r', heq, hfree, hfree', hs', hshape, hout, -⟩
  · refine .inl ⟨index, s', r, heq, ?_, ?_, ?_, hshape, hs'⟩
    · simp [upcoming, hfree]
    · simp [hfree]
    · simp [hfree, hout]
  · refine .inl ⟨s.handedOut, s', r', heq, ?_, ?_, ?_, hshape, hs'⟩
    · simp [upcoming, hfree]
    · simp [hfree, hfree']
    · simp [hfree, hout]
  · exact .inr ⟨fault, s', r', heq, supplies_nothing (hfree'.trans hfree.symm) hout hshape hs'⟩

/-- A node that was had is the upcoming one. -/
theorem supplies_of_take {s s' : NodeStore} (hs : s.Sound) {r r' : Region σ} {index : Nat}
    (h : s.take r = (.ok index, s', r')) : s.Supplies [index] s' := by
  rcases take_supply hs r with ⟨_, _, _, heq, hone⟩ | ⟨_, _, _, heq, -⟩ <;> rw [heq] at h <;>
    cases h
  exact hone

/-- **Several nodes asked for at once** are the upcoming ones, as many of them as were had. -/
theorem supplies_takeMany {s : NodeStore} (hs : s.Sound) (r : Region σ) (n : Nat) :
    s.Supplies (s.takeMany r n).1.indices (s.takeMany r n).2.1 := by
  induction n generalizing s r with
  | zero => exact supplies_nothing rfl rfl rfl hs
  | succ n ih =>
    unfold takeMany
    rcases take_supply hs r with ⟨index, s₁, r₁, heq, hone⟩ | ⟨fault, s₁, r₁, heq, hnone⟩ <;>
      rw [heq]
    · exact hone.trans (ih hone.sound r₁)
    · exact hnone

/-! ## When memory is asked for -/

/-- As long as there are nodes at hand, taking one leaves the region alone. -/
theorem take_of_stocked {s : NodeStore} (h : s.free ≠ [] ∨ s.remaining ≠ 0) (r : Region σ) :
    (s.take r).2.2 = r := by
  unfold take
  cases hfree : s.free with
  | cons index free => rfl
  | nil =>
    have hremaining : s.remaining ≠ 0 := h.resolve_left fun hne => hne hfree
    unfold carve replenish
    simp only [if_neg hremaining]
    split <;> rfl

/-- Nodes on the stack are handed out from there. -/
theorem takeMany_of_le_free {s : NodeStore} {n : Nat} (h : n ≤ s.free.length) (r : Region σ) :
    s.takeMany r n = (⟨s.free.take n, none⟩, { s with free := s.free.drop n }, r) := by
  induction n generalizing s with
  | zero => rfl
  | succ n ih =>
    cases hfree : s.free with
    | nil => simp [hfree] at h
    | cons index free =>
      have hrest : n ≤ free.length := by simpa [hfree] using h
      have htake : s.take r = (.ok index, { s with free }, r) := by rw [take, hfree]
      simp only [takeMany, htake, ih (s := { s with free }) hrest, List.take_succ_cons,
        List.drop_succ_cons]

/-! ## Requests for slabs -/

/-- A node is had if the request for a slab is granted, provided that there is a number for it. -/
theorem take_granted {s : NodeStore} {r : Region σ}
    (hgranted : ∀ outcome ∈ s.takeRequests r, outcome = .ok ())
    (hfew : s.free = [] → s.handedOut < indexBound) (hs : s.Sound) :
    ∃ index s' r', s.take r = (.ok index, s', r') := by
  unfold takeRequests replenishRequests at hgranted
  unfold take
  cases hfree : s.free with
  | cons index free => exact ⟨index, _, r, rfl⟩
  | nil =>
    rw [hfree] at hgranted
    have hnumber := hfew hfree
    have hreplenish := replenish_cases hs r
    unfold carve
    rcases hreplenish with
      ⟨s', r', heq, -, -, -, hout, -⟩ | ⟨fault, r', heq, hslab⟩
    · simp only [heq]
      rw [if_pos (by rwa [← hout] at hnumber)]
      exact ⟨_, _, _, rfl⟩
    · -- a request that was granted does not fail
      exfalso
      by_cases hzero : s.remaining = 0
      · simp only [if_pos hzero, hslab, List.mem_singleton, forall_eq] at hgranted
        cases hgranted
      · simp only [replenish, if_neg hzero] at heq
        cases heq

/-- The requests made for a node that was had were granted. -/
theorem granted_of_take {s s' : NodeStore} {r r' : Region σ} {index : Nat}
    (h : s.take r = (.ok index, s', r')) : ∀ outcome ∈ s.takeRequests r, outcome = .ok () := by
  unfold take at h
  unfold takeRequests
  cases hfree : s.free with
  | cons i free => simp
  | nil =>
    rw [hfree] at h
    unfold carve replenish at h
    unfold replenishRequests
    by_cases hzero : s.remaining = 0
    · rcases hslab : r.allocateAligned s.shape.slabSize s.shape.slabAlign with ⟨fault | slab, r₁⟩
      · simp only [if_pos hzero, hslab] at h
        cases h
      · simp [hzero, Except.map]
    · simp [hzero]

/-- **All nodes are had** if all requests for slabs are granted, provided that there are numbers
for them. -/
theorem takeMany_granted {s : NodeStore} (hs : s.Sound) {r : Region σ} {n : Nat}
    (hgranted : ∀ outcome ∈ s.takeManyRequests r n, outcome = .ok ())
    (hfew : s.free.length < n → s.handedOut + (n - s.free.length) ≤ indexBound) :
    (s.takeMany r n).1.fault = none := by
  induction n generalizing s r with
  | zero => rfl
  | succ n ih =>
    rw [takeManyRequests, List.forall_mem_append] at hgranted
    obtain ⟨hfirst, hrest⟩ := hgranted
    have hnumber : s.free = [] → s.handedOut < indexBound := by
      intro hfree
      rw [hfree, List.length_nil] at hfew
      have hle := hfew (Nat.succ_pos n)
      omega
    obtain ⟨index, s₁, r₁, heq⟩ := take_granted hfirst hnumber hs
    have hone := supplies_of_take hs heq
    rw [heq] at hrest
    simp only [takeMany, heq]
    refine ih hone.sound hrest ?_
    rw [hone.handedOut, hone.free, List.length_drop, List.length_singleton]
    omega

/-- The requests made for nodes that were all had were granted. -/
theorem granted_of_takeMany {s : NodeStore} {r : Region σ} {n : Nat}
    (h : (s.takeMany r n).1.fault = none) :
    ∀ outcome ∈ s.takeManyRequests r n, outcome = .ok () := by
  induction n generalizing s r with
  | zero => intro outcome hmem; cases hmem
  | succ n ih =>
    rw [takeManyRequests, List.forall_mem_append]
    rcases hop : s.take r with ⟨fault | index, s', r'⟩
    · simp only [takeMany, hop] at h
      cases h
    · simp only [takeMany, hop] at h
      exact ⟨granted_of_take hop, ih h⟩

/-! ## The number of slabs -/

/-- The newest slab is in use, or there is none, as long as there are numbers for nodes. -/
def Snug (s : NodeStore) : Prop :=
  s.handedOut < indexBound → s.remaining < s.shape.perSlab ∨ s.slabs.size = 0

theorem snug_empty (shape : SlabShape) : Snug { shape } :=
  fun _ => .inr rfl

theorem Snug.take {s : NodeStore} (h : s.Snug) (hs : s.Sound) (r : Region σ) :
    (s.take r).2.1.Snug := by
  unfold NodeStore.take
  cases hfree : s.free with
  | cons index free => exact h
  | nil =>
    unfold carve replenish
    by_cases hzero : s.remaining = 0
    · simp only [if_pos hzero]
      rcases hslab : r.allocateAligned s.shape.slabSize s.shape.slabAlign with ⟨fault | slab, r'⟩
      · exact h
      · have hpos := hs.perSlab_pos (Region.layout_of_allocateAligned hslab)
        dsimp only
        split
        · -- one node of the new slab is in use
          intro _
          left
          show s.shape.perSlab - 1 < s.shape.perSlab
          omega
        · -- a new slab is of no use where numbers have run out
          next hnone => exact fun hfew => absurd hfew hnone
    · simp only [if_neg hzero]
      have hle := hs.remaining_le
      split
      · intro hfew
        have hout : s.handedOut < indexBound := by
          unfold handedOut at hfew ⊢
          simp only [capacity] at hfew hle ⊢
          omega
        show s.remaining - 1 < s.shape.perSlab ∨ _
        rcases h hout with hlt | hsize
        · exact .inl (by omega)
        · exact .inr hsize
      · exact h

theorem Snug.takeMany {s : NodeStore} (h : s.Snug) (hs : s.Sound) (r : Region σ) (n : Nat) :
    (s.takeMany r n).2.1.Snug := by
  induction n generalizing s r with
  | zero => exact h
  | succ n ih =>
    have hone := h.take hs r
    unfold NodeStore.takeMany
    rcases take_supply hs r with ⟨index, s', r', heq, hnext⟩ | ⟨fault, s', r', heq, -⟩ <;>
      rw [heq] at hone <;> simp only [heq]
    · exact ih hone hnext.sound r'
    · exact hone

/-- **The number of slabs** is that of the nodes handed out over the nodes in a slab, rounded up. -/
theorem Snug.slabs_eq {s : NodeStore} (h : s.Snug) (hs : s.Sound)
    (hfew : s.handedOut < indexBound) : s.slabs.size = s.handedOut ⌈/⌉ s.shape.perSlab := by
  have hle := hs.remaining_le
  unfold handedOut
  unfold capacity at hle ⊢
  rcases h hfew with hlt | hsize
  · -- less than a slab remains
    rw [Nat.ceilDiv_eq_add_pred_div]
    symm
    apply Nat.div_eq_of_lt_le
    · omega
    · rw [Nat.succ_mul]
      omega
  · rw [hsize, Nat.zero_mul, Nat.zero_sub, zero_ceilDiv]

/-! ## Asking again -/

section Resuming

variable {σ' : Type} [RawSource σ'] {s s' : NodeStore} {r : Region σ} {r' : Region σ'}

/-- Requests that are granted on both sides end alike. -/
theorem metAlike_of_granted {E : Fault → Fault → Prop}
    {requests requests' : List (Except Fault Unit)}
    (h : ∀ outcome ∈ requests, outcome = .ok ()) (h' : ∀ outcome ∈ requests', outcome = .ok ()) :
    MetAlike E requests requests' := by
  intro i outcome outcome' hi hi'
  rw [h outcome (List.mem_of_getElem? hi), h' outcome' (List.mem_of_getElem? hi')]
  exact .ok rfl

/-- A failure leaves the store as it was, unless numbers for nodes have run out. -/
theorem take_failed {s₁ : NodeStore} {r₁ : Region σ} {fault : Fault}
    (h : s.take r = (.error fault, s₁, r₁)) :
    s₁ = s ∨ s.free = [] ∧ indexBound ≤ s.handedOut := by
  unfold take at h
  cases hfree : s.free with
  | cons index free => rw [hfree] at h; cases h
  | nil =>
    rw [hfree] at h
    unfold carve replenish at h
    by_cases hzero : s.remaining = 0
    · rcases hslab : r.allocateAligned s.shape.slabSize s.shape.slabAlign with
        ⟨fault' | slab, r₂⟩ <;> simp only [if_pos hzero, hslab] at h
      · cases h
        exact .inl rfl
      · split at h
        · cases h
        · next hnone =>
          right
          refine ⟨rfl, ?_⟩
          unfold handedOut
          simp only [capacity, Array.size_push, Nat.add_mul, Nat.one_mul, Nat.add_sub_cancel,
            Nat.not_lt] at hnone ⊢
          omega
    · simp only [if_neg hzero] at h
      split at h
      · cases h
      · cases h
        exact .inl rfl

/-- A node that was never handed out before has a number. -/
theorem handedOut_lt_of_take (hs : s.Sound) {s₁ : NodeStore} {r₁ : Region σ} {index : Nat}
    (h : s.take r = (.ok index, s₁, r₁)) (hfree : s.free = []) : s.handedOut < indexBound := by
  have hbound : index < indexBound := by
    unfold take at h
    rw [hfree] at h
    unfold carve at h
    rcases hop : s.replenish r with ⟨fault | ⟨⟩, s₂, r₂⟩ <;> simp only [hop] at h
    · cases h
    · split at h
      · next hlt =>
        cases h
        exact hlt
      · cases h
  -- with an empty stack the node is the next number
  have hnext := (supplies_of_take hs h).upcoming
  rw [upcoming, hfree] at hnext
  obtain rfl : index = s.handedOut := by simpa using hnext
  exact hbound

theorem Twin.handedOut (h : s.Twin s') : s'.handedOut = s.handedOut := by
  rw [NodeStore.handedOut, h.capacity, h.remaining, NodeStore.handedOut]

theorem Twin.sound (h : s.Twin s') (hs : s.Sound) : s'.Sound where
  perSlab_pos := by
    rw [h.shape]
    exact hs.perSlab_pos
  remaining_le := by
    rw [h.remaining, h.capacity]
    exact hs.remaining_le
  obtainable := by
    rw [h.slabs, h.shape]
    exact hs.obtainable

/-- **Asking again after a failure**, for the nodes that are still lacking, comes to the same as a
store comes to that never fails: the same nodes, and stores that are twins. -/
theorem takeMany_resume (h : s.Twin s') (hs : s.Sound) {n : Nat} {taken : Taken} {s₁ : NodeStore}
    {r₁ r₂ : Region σ} (hfirst : s.takeMany r n = (taken, s₁, r₁))
    (hagain : (s₁.takeMany r₂ (n - taken.indices.length)).1.fault = none)
    (hwhole : (s'.takeMany r' n).1.fault = none) :
    (s'.takeMany r' n).1.indices =
        taken.indices ++ (s₁.takeMany r₂ (n - taken.indices.length)).1.indices ∧
      (s₁.takeMany r₂ (n - taken.indices.length)).2.1.Twin (s'.takeMany r' n).2.1 := by
  induction n generalizing s s' r r' taken with
  | zero =>
    cases hfirst
    exact ⟨rfl, h⟩
  | succ n ih =>
    rcases hop : s.take r with ⟨fault | index, s₂, r₃⟩
    · -- no node was had at first, and the store is as it was
      simp only [takeMany, hop] at hfirst
      cases hfirst
      have hsame : s₁ = s := by
        refine (take_failed hop).resolve_right ?_
        rintro ⟨hfree, hbound⟩
        rcases hop' : s'.take r' with ⟨fault' | index', s₂', r₃'⟩
        · simp only [takeMany, hop'] at hwhole
          cases hwhole
        · have hlt := handedOut_lt_of_take (h.sound hs) hop' (h.free.trans hfree)
          rw [h.handedOut] at hlt
          omega
      obtain rfl := hsame
      have hmet := metAlike_of_granted (E := Eq) (granted_of_takeMany hagain)
        (granted_of_takeMany hwhole)
      obtain ⟨hindices, -, htwin, -⟩ := h.takeMany (fun _ => rfl) hmet
      exact ⟨hindices, htwin⟩
    · rcases hop' : s'.take r' with ⟨fault' | index', s₂', r₃'⟩
      · simp only [takeMany, hop'] at hwhole
        cases hwhole
      · -- both have the first node
        have hmet := metAlike_of_granted (E := Eq) (granted_of_take hop) (granted_of_take hop')
        obtain ⟨hends, htwin, -⟩ := h.take (fun _ => rfl) hmet
        rw [hop, hop'] at hends htwin
        cases hends
        next hindex =>
        obtain rfl : index = index' := hindex
        have hs₂ := (supplies_of_take hs hop).sound
        rcases hrest : s₂.takeMany r₃ n with ⟨rest, s₃, r₄⟩
        simp only [takeMany, hop, hrest] at hfirst
        cases hfirst
        simp only [takeMany, hop'] at hwhole ⊢
        rw [List.length_cons, Nat.add_sub_add_right] at hagain ⊢
        obtain ⟨hindices, hall⟩ := ih htwin hs₂ hrest hagain hwhole
        exact ⟨congrArg (index :: ·) hindices, hall⟩

end Resuming

end RegionTrie.NodeStore

namespace RegionTrie.Trie

open NodeStore

variable {K V σ : Type} [RawSource σ] {t : Trie K V} {r : Region σ} {path : List Bool}

/-- A path without a value is linked if all requests for slabs are granted, provided that there are
numbers for the nodes that it lacks. -/
theorem link_of_granted (ht : t.nodes.Sound) (hget : t.root.get path = none)
    (hgranted : ∀ outcome ∈ t.linkRequests r path, outcome = .ok ())
    (hfew : t.nodes.free.length < t.root.missing path →
      t.nodes.handedOut + (t.root.missing path - t.nodes.free.length) ≤ indexBound)
    (value : Option V) : (t.link r path value).1 = .ok () := by
  have hnone : ¬ (t.root.get path).isSome := by simp [hget]
  rw [linkRequests, if_neg hnone] at hgranted
  have hfault := takeMany_granted ht hgranted hfew
  rw [link, if_neg hnone]
  rcases htake : t.nodes.takeMany r (t.root.missing path) with ⟨⟨indices, fault⟩, nodes, r'⟩
  rw [htake] at hfault
  obtain rfl : fault = none := hfault
  rfl

end RegionTrie.Trie
