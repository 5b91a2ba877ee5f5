import RegionTrie.Proofs.Region.Lots
import RegionTrie.Proofs.Trie.Run

/-!
# The slabs of a trie

A trie writes its nodes into slabs, which its region hands out to it and to nobody else. Whatever is
done to a trie, the region supplies it with the slabs that it has more than before, and with nothing
else.

## Main definitions

* `NodeStore.slabExtents`: where the slabs of a store lie
* `NodeStore.Draws`: a store has more slabs, and the region supplied them

## Main results

* `Trie.draws_link`, `Trie.draws_unlink`: a change of a trie draws slabs
* `Trie.supplies_create`: a new trie has the slabs that were supplied for it
-/

namespace RegionTrie

open Region

variable {σ : Type}

namespace NodeStore

/-- Where the slabs lie. -/
def slabExtents (s : NodeStore) : List Extent :=
  s.slabs.toList.map (⟨·, s.shape.slabSize⟩)

/-- From one store and region to others, the store got more slabs, which the region supplied. -/
def Draws (s : NodeStore) (r : Region σ) (s' : NodeStore) (r' : Region σ) : Prop :=
  ∃ new, s'.slabExtents = s.slabExtents ++ new ∧ r.Supplies r' new

variable {s s₁ s₂ : NodeStore} {r r₁ r₂ : Region σ}

/-- Nothing happens to the region, and the store keeps its slabs. -/
theorem draws_nothing (h : s₁.slabExtents = s.slabExtents) : s.Draws r s₁ r :=
  ⟨[], by rw [h, List.append_nil], .refl r⟩

theorem Draws.trans (h : s.Draws r s₁ r₁) (h₁ : s₁.Draws r₁ s₂ r₂) : s.Draws r s₂ r₂ := by
  obtain ⟨new, hslabs, hsupplies⟩ := h
  obtain ⟨more, hslabs₁, hsupplies₁⟩ := h₁
  exact ⟨new ++ more, by rw [hslabs₁, hslabs, List.append_assoc], hsupplies.trans hsupplies₁⟩

/-- Only the slabs of a store matter. -/
theorem Draws.congr (h : s.Draws r s₁ r₁) (heq : s₂.slabExtents = s₁.slabExtents) :
    s.Draws r s₂ r₁ :=
  h.trans (draws_nothing heq)

theorem Draws.note (h : s.Draws r s₁ r₁) {event : Event} (hevent : ∀ n, event ≠ .poolReset n) :
    s.Draws r s₁ (r₁.note event) := by
  obtain ⟨new, hslabs, hsupplies⟩ := h
  exact ⟨new, hslabs, hsupplies.note hevent⟩

variable [RawSource σ]

theorem draws_replenish (s : NodeStore) (r : Region σ) :
    s.Draws r (s.replenish r).2.1 (s.replenish r).2.2 := by
  unfold replenish
  split
  · rcases hop : r.allocateAligned s.shape.slabSize s.shape.slabAlign with ⟨fault | slab, r'⟩
    · exact ⟨[], (List.append_nil _).symm, (fails_of_allocateAligned hop).supplies⟩
    · refine ⟨[⟨slab, s.shape.slabSize⟩], ?_,
        (supplies_allocateAligned hop).note fun _ => Event.noConfusion⟩
      simp [slabExtents]
  · exact draws_nothing rfl

theorem draws_take (s : NodeStore) (r : Region σ) :
    s.Draws r (s.take r).2.1 (s.take r).2.2 := by
  unfold take
  split
  · exact draws_nothing rfl
  have hreplenish := s.draws_replenish r
  unfold carve
  rcases hop : s.replenish r with ⟨fault | ⟨⟩, s', r'⟩ <;> rw [hop] at hreplenish
  · exact hreplenish
  · dsimp only
    split
    · exact hreplenish.congr rfl
    · exact hreplenish

theorem draws_takeMany (s : NodeStore) (r : Region σ) (n : Nat) :
    s.Draws r (s.takeMany r n).2.1 (s.takeMany r n).2.2 := by
  induction n generalizing s r with
  | zero => exact draws_nothing rfl
  | succ n ih =>
    have htake := s.draws_take r
    unfold takeMany
    rcases hop : s.take r with ⟨fault | index, s', r'⟩ <;> rw [hop] at htake
    · exact htake
    · exact htake.trans (ih s' r')

end NodeStore

namespace Trie

open NodeStore

variable {K V : Type}

theorem draws_unlink (t : Trie K V) (r : Region σ) (path : List Bool) :
    t.nodes.Draws r (t.unlink r path).2.1.nodes (t.unlink r path).2.2 := by
  unfold unlink
  cases t.root.erase path with
  | none => exact draws_nothing rfl
  | some e =>
    -- recycled nodes stay in their slabs, and each of them is noted
    have hnotes : ∀ (depth : Nat) (gone : List Nat) (r' : Region σ),
        t.nodes.Draws r t.nodes r' →
          t.nodes.Draws r t.nodes ((recycledEvents depth gone).foldl Region.note r') := by
      intro depth gone
      induction gone generalizing depth with
      | nil => exact fun r' h => h
      | cons index gone ih => exact fun r' h => ih (depth - 1) _ (h.note fun _ => Event.noConfusion)
    exact (hnotes path.length e.recycled r (draws_nothing rfl)).congr rfl

variable [RawSource σ]

theorem draws_link (t : Trie K V) (r : Region σ) (path : List Bool) (value : Option V) :
    t.nodes.Draws r (t.link r path value).2.1.nodes (t.link r path value).2.2 := by
  have htake := t.nodes.draws_takeMany r (t.root.missing path)
  rcases t.link_cases r path value with
    ⟨-, heq⟩ | ⟨taken, nodes, r', -, hop, -, heq⟩ | ⟨taken, nodes, r', fault, -, hop, -, heq⟩ <;>
    rw [heq]
  · exact draws_nothing rfl
  all_goals
    rw [hop] at htake
    exact htake

variable [PrefixKey K]

/-- A new trie has the slabs that were supplied for it. Those of a failed creation belong to
nobody. -/
theorem supplies_create (value : Layout) (p : Preallocation) (r : Region σ) :
    ∃ new, r.Supplies (create (K := K) (V := V) value p r).2 new ∧
      ∀ t, (create (K := K) (V := V) value p r).1 = .ok t → t.nodes.slabExtents = new := by
  have htop := (bare value r.heap.pageSize : Trie K V).draws_link r [] none
  have hlevels (top : Trie K V) (r₁ : Region σ) (depth : Nat) :
      top.nodes.Draws r₁ (top.linkLevels r₁ 1 depth).2.1.nodes (top.linkLevels r₁ 1 depth).2.2 :=
    linkLevels_induction (P := fun t r' => top.nodes.Draws r₁ t.nodes r')
      (fun t r' key mask h => h.trans (t.draws_link r' _ none)) (draws_nothing rfl) 1 depth
  rcases create_cases (K := K) (V := V) value p r with
    ⟨fault, heq⟩ | ⟨fault, t, r₁, hop, heq⟩ | ⟨top, r₁, fault, t, r₂, depth, hop, hbelow, heq⟩ |
    ⟨top, r₁, t, r₂, depth, hop, hbelow, heq⟩ <;> rw [heq]
  · exact ⟨[], .refl r, fun t ht => by cases ht⟩
  all_goals rw [hop] at htop
  · obtain ⟨new, -, hsupplies⟩ := htop
    exact ⟨new, hsupplies, fun t ht => by cases ht⟩
  all_goals
    have hall := hlevels top r₁ depth
    rw [hbelow] at hall
    obtain ⟨new, hslabs, hsupplies⟩ := htop.trans hall
  · exact ⟨new, hsupplies, fun t ht => by cases ht⟩
  · refine ⟨new, ?_, fun t' ht => ?_⟩
    · dsimp only
      split
      · exact hsupplies
      · exact hsupplies.note fun _ => Event.noConfusion
    · -- the bare trie has no slab yet
      cases ht
      exact hslabs

end Trie

end RegionTrie
