import RegionTrie.Proofs.Heap.Log
import RegionTrie.Proofs.Region.Tracked
import RegionTrie.Proofs.Trie.Run

/-!
# Slabs are tracked

Every slab that a trie takes is a buffer of its own, so its region tracks it, and says so in the
journal. This holds for slabs that are taken for a change or for a creation that fails later, too:
such a slab stays with the trie, or with the region if there is no trie.

## Main definitions

* `SlabShape.slabLayout`: the layout for which slabs are asked for
* `Journal.slabs`: the slabs that a journal tells of
* `NodeStore.Obtains`: a store has more slabs, which its region tracks and tells of

## Main results

* `Trie.obtains_link`, `Trie.obtains_unlink`: a change of a trie obtains slabs
* `Trie.obtains_create`: and so does a creation, whether or not a trie comes out
-/

namespace RegionTrie

/-- The layout for which slabs of this shape are asked for. -/
def SlabShape.slabLayout (s : SlabShape) : Layout :=
  ⟨s.slabSize, s.slabAlign⟩

/-! ## Journals -/

/-- Where the slab starts that an entry of the journal tells of, if it does. -/
def Effect.slab? : Effect → Option Nat
  | .noted (.slabTaken slab _) => some slab
  | _ => none

/-- Where the slabs start that a journal tells of, newest first. -/
def Journal.slabs (j : List Effect) : List Nat :=
  j.filterMap Effect.slab?

theorem Journal.slabs_cons {e : Effect} (h : e.slab? = none) (j : List Effect) :
    slabs (e :: j) = slabs j :=
  List.filterMap_cons_none h

/-- The source knows of no slabs. -/
theorem Heap.slabs_allocate {σ : Type} [RawSource σ] (h : Heap σ) (l : Layout) :
    Journal.slabs (h.allocate l).2.journal = Journal.slabs h.journal := by
  rcases h.allocate_cases l with ⟨base, source, heq⟩ | ⟨source, heq⟩ <;> rw [heq]
  · rfl
  · rfl

namespace Region

open Journal

variable {σ : Type} [RawSource σ] (r : Region σ)

theorem slabs_reserve (size align : Nat) :
    slabs (r.reserve size align).2.heap.journal = slabs r.heap.journal := by
  have hsource := r.heap.slabs_allocate r.pool.config.blockLayout
  rcases reserve_cases r size align with
    ⟨start, chain, -, heq⟩ | ⟨base, heap, -, hop, heq⟩ | ⟨heap, -, hop, heq⟩ <;> rw [heq]
  · rfl
  all_goals
    rw [hop] at hsource
    exact hsource

theorem slabs_link (b : Buffer) : slabs (r.link b).2.heap.journal = slabs r.heap.journal := by
  have hreserve := r.slabs_reserve largeRecordSize wordAlign
  rcases link_cases r b with ⟨address, r', hop, heq⟩ | ⟨fault, r', hop, heq⟩ <;> rw [heq] <;>
    rw [hop] at hreserve
  · exact hreserve
  · exact hreserve

/-- It is for the trie to tell what a buffer is used for. -/
theorem slabs_allocateAligned (size align : Nat) :
    slabs (r.allocateAligned size align).2.heap.journal = slabs r.heap.journal := by
  have hsource := r.heap.slabs_allocate ⟨size, align⟩
  rcases allocateAligned_cases r size align with
    ⟨-, heq⟩ | ⟨heap, -, -, hop, heq⟩ | ⟨base, heap, -, -, hop, heq⟩ <;> rw [heq]
  · rw [hop] at hsource
    exact hsource
  · rw [hop] at hsource
    exact (slabs_link _ _).trans hsource

end Region

/-! ## Stores -/

namespace NodeStore

open Region

variable {σ : Type}

/-- From one store and region to others, slabs were obtained: the store has them behind those that
it had, the region tracks them beside what it tracked, and the journal tells of them. -/
structure Obtains (s : NodeStore) (r : Region σ) (s' : NodeStore) (r' : Region σ)
    (taken : List Nat) : Prop where
  slabs_eq : s'.slabs.toList = s.slabs.toList ++ taken
  shape_eq : s'.shape = s.shape
  gains : r.Gains r' (taken.map (⟨·, s.shape.slabLayout⟩)).reverse
  told : Journal.slabs r'.heap.journal = taken.reverse ++ Journal.slabs r.heap.journal

variable {s s₁ s₂ : NodeStore} {r r₁ r₂ : Region σ} {taken more : List Nat}

/-- Nothing is obtained where the store keeps its slabs and the region its records. -/
theorem obtains_nothing (hslabs : s₁.slabs = s.slabs) (hshape : s₁.shape = s.shape)
    (hgains : r.Gains r₁ [])
    (htold : Journal.slabs r₁.heap.journal = Journal.slabs r.heap.journal) :
    s.Obtains r s₁ r₁ [] where
  slabs_eq := by rw [hslabs, List.append_nil]
  shape_eq := hshape
  gains := hgains
  told := htold

theorem Obtains.refl (s : NodeStore) (r : Region σ) : s.Obtains r s r [] :=
  obtains_nothing rfl rfl (.refl r) rfl

theorem Obtains.trans (h : s.Obtains r s₁ r₁ taken) (h₁ : s₁.Obtains r₁ s₂ r₂ more) :
    s.Obtains r s₂ r₂ (taken ++ more) where
  slabs_eq := by rw [h₁.slabs_eq, h.slabs_eq, List.append_assoc]
  shape_eq := h₁.shape_eq.trans h.shape_eq
  gains := by
    have hgains := h.gains.trans h₁.gains
    rwa [h.shape_eq, ← List.reverse_append, ← List.map_append] at hgains
  told := by rw [h₁.told, h.told, List.reverse_append, List.append_assoc]

/-- Only the slabs of a store and their shape matter. -/
theorem Obtains.congr (h : s.Obtains r s₁ r₁ taken) (hslabs : s₂.slabs = s₁.slabs)
    (hshape : s₂.shape = s₁.shape) : s.Obtains r s₂ r₁ taken :=
  ⟨hslabs ▸ h.slabs_eq, hshape.trans h.shape_eq, h.gains, h.told⟩

/-- The slabs that are obtained are the ones that the journal tells of since. -/
theorem Obtains.slabs_since (h : s.Obtains r s₁ r₁ taken)
    (hsuffix : r.heap.journal <:+ r₁.heap.journal) :
    Journal.slabs (r₁.heap.effectsSince r.heap.journal.length) = taken := by
  obtain ⟨new, hnew⟩ := hsuffix
  have htaken : Journal.slabs new = taken.reverse := by
    have htold := h.told
    rw [← hnew] at htold
    simp only [Journal.slabs, List.filterMap_append] at htold
    exact List.append_cancel_right htold
  -- the journal is listed newest entry first, and the slabs in the order in which they came
  rw [Heap.effectsSince_of_append hnew.symm, ← List.reverse_reverse taken, ← htaken]
  simp only [Journal.slabs, List.filterMap_reverse]

theorem Obtains.note (h : s.Obtains r s₁ r₁ taken) {event : Event}
    (hevent : (Effect.noted event).slab? = none) : s.Obtains r s₁ (r₁.note event) taken :=
  ⟨h.slabs_eq, h.shape_eq, h.gains.congr rfl, (Journal.slabs_cons hevent _).trans h.told⟩

variable [RawSource σ]

theorem obtains_replenish (s : NodeStore) (r : Region σ) :
    ∃ taken, s.Obtains r (s.replenish r).2.1 (s.replenish r).2.2 taken := by
  unfold replenish
  split
  · have hgains := r.gains_allocateAligned s.shape.slabSize s.shape.slabAlign
    have htold := r.slabs_allocateAligned s.shape.slabSize s.shape.slabAlign
    rcases hop : r.allocateAligned s.shape.slabSize s.shape.slabAlign with ⟨fault | slab, r'⟩ <;>
      rw [hop] at hgains htold
    · exact ⟨[], obtains_nothing rfl rfl hgains htold⟩
    · exact ⟨[slab], by simp, rfl, hgains.congr rfl, congrArg (slab :: ·) htold⟩
  · exact ⟨[], .refl s r⟩

theorem obtains_take (s : NodeStore) (r : Region σ) :
    ∃ taken, s.Obtains r (s.take r).2.1 (s.take r).2.2 taken := by
  unfold take
  split
  · exact ⟨[], obtains_nothing rfl rfl (.refl r) rfl⟩
  obtain ⟨taken, hreplenish⟩ := s.obtains_replenish r
  unfold carve
  rcases hop : s.replenish r with ⟨fault | ⟨⟩, s', r'⟩ <;> rw [hop] at hreplenish
  · exact ⟨taken, hreplenish⟩
  · dsimp only
    split
    · exact ⟨taken, hreplenish.congr rfl rfl⟩
    · exact ⟨taken, hreplenish⟩

theorem obtains_takeMany (s : NodeStore) (r : Region σ) (n : Nat) :
    ∃ taken, s.Obtains r (s.takeMany r n).2.1 (s.takeMany r n).2.2 taken := by
  induction n generalizing s r with
  | zero => exact ⟨[], .refl s r⟩
  | succ n ih =>
    obtain ⟨taken, htake⟩ := s.obtains_take r
    unfold takeMany
    rcases hop : s.take r with ⟨fault | index, s', r'⟩ <;> rw [hop] at htake
    · exact ⟨taken, htake⟩
    · obtain ⟨more, hmore⟩ := ih s' r'
      exact ⟨taken ++ more, htake.trans hmore⟩

end NodeStore

/-! ## Tries -/

namespace Trie

open NodeStore

variable {K V σ : Type}

theorem obtains_unlink (t : Trie K V) (r : Region σ) (path : List Bool) :
    t.nodes.Obtains r (t.unlink r path).2.1.nodes (t.unlink r path).2.2 [] := by
  unfold unlink
  cases t.root.erase path with
  | none => exact .refl _ r
  | some e =>
    -- recycled nodes stay in their slabs, and each of them is noted
    have hnotes : ∀ (depth : Nat) (gone : List Nat) (r' : Region σ),
        t.nodes.Obtains r t.nodes r' [] →
          t.nodes.Obtains r t.nodes ((recycledEvents depth gone).foldl Region.note r') [] := by
      intro depth gone
      induction gone generalizing depth with
      | nil => exact fun r' h => h
      | cons index gone ih =>
        exact fun r' h => ih (depth - 1) _ (h.note rfl)
    exact (hnotes path.length e.recycled r (.refl _ r)).congr rfl rfl

variable [RawSource σ]

theorem obtains_link (t : Trie K V) (r : Region σ) (path : List Bool) (value : Option V) :
    ∃ taken, t.nodes.Obtains r (t.link r path value).2.1.nodes (t.link r path value).2.2 taken := by
  have htake := t.nodes.obtains_takeMany r (t.root.missing path)
  rcases t.link_cases r path value with
    ⟨-, heq⟩ | ⟨taken, nodes, r', -, hop, -, heq⟩ | ⟨taken, nodes, r', fault, -, hop, -, heq⟩ <;>
    rw [heq]
  · exact ⟨[], .refl _ r⟩
  all_goals
    rw [hop] at htake
    exact htake

variable [PrefixKey K]

/-- A creation obtains slabs, which the trie has if one comes out. Those of a failed creation stay
tracked. -/
theorem obtains_create (value : Layout) (p : Preallocation) (r : Region σ) :
    ∃ (nodes : NodeStore) (taken : List Nat),
      Obtains { shape := SlabShape.ofValue value r.heap.pageSize } r nodes
        (create (K := K) (V := V) value p r).2 taken ∧
      ∀ t, (create (K := K) (V := V) value p r).1 = .ok t → t.nodes = nodes := by
  obtain ⟨taken, htop⟩ := (bare value r.heap.pageSize : Trie K V).obtains_link r [] none
  have hlevels (top : Trie K V) (r₁ : Region σ) (depth : Nat) :
      ∃ more, top.nodes.Obtains r₁ (top.linkLevels r₁ 1 depth).2.1.nodes
        (top.linkLevels r₁ 1 depth).2.2 more :=
    linkLevels_induction (P := fun t r' => ∃ more, top.nodes.Obtains r₁ t.nodes r' more)
      (fun t r' key mask h => by
        obtain ⟨more, hmore⟩ := h
        obtain ⟨last, hlast⟩ := t.obtains_link r' (PrefixKey.selected key mask) none
        exact ⟨more ++ last, hmore.trans hlast⟩)
      ⟨[], .refl _ r₁⟩ 1 depth
  rcases create_cases (K := K) (V := V) value p r with
    ⟨fault, heq⟩ | ⟨fault, t, r₁, hop, heq⟩ | ⟨top, r₁, fault, t, r₂, depth, hop, hbelow, heq⟩ |
    ⟨top, r₁, t, r₂, depth, hop, hbelow, heq⟩ <;> rw [heq]
  · exact ⟨_, [], .refl _ r, fun t ht => by cases ht⟩
  all_goals rw [hop] at htop
  · exact ⟨t.nodes, taken, htop, fun t ht => by cases ht⟩
  all_goals
    obtain ⟨more, hall⟩ := hlevels top r₁ depth
    rw [hbelow] at hall
    have hboth := htop.trans hall
  · exact ⟨t.nodes, _, hboth, fun t ht => by cases ht⟩
  · refine ⟨t.nodes, taken ++ more, ?_, fun t' ht => by cases ht; rfl⟩
    dsimp only
    split
    · exact hboth
    · exact hboth.note rfl

end Trie

end RegionTrie
