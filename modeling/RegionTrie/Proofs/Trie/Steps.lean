import RegionTrie.Proofs.Region.Steps
import RegionTrie.Proofs.Trie.Run

/-!
# Steps that a trie takes

A trie asks its region for slabs and leaves notes in its journal, and nothing else. So whatever
becomes of a trie, its region has only taken steps.

## Main results

* `Trie.steps_link`, `Trie.steps_unlink`: a change of a trie comes down to steps
* `Trie.steps_create`: and so does the creation of one
-/

namespace RegionTrie

open Region

variable {σ : Type} [RawSource σ]

namespace NodeStore

theorem steps_carve (s : NodeStore) (r : Region σ) : Steps r (s.carve r).2.2 := by
  have hreplenish : Steps r (s.replenish r).2.2 := by
    have hslab := (Step.allocateAligned r s.shape.slabSize s.shape.slabAlign).steps
    unfold replenish
    by_cases hzero : s.remaining = 0
    · rw [if_pos hzero]
      rcases hop : r.allocateAligned s.shape.slabSize s.shape.slabAlign with ⟨fault | slab, r'⟩ <;>
        rw [hop] at hslab
      · exact hslab
      · exact hslab.tail (Step.note r' fun _ => Event.noConfusion)
    · rw [if_neg hzero]
  unfold carve
  rcases hop : s.replenish r with ⟨fault | ⟨⟩, s', r'⟩ <;> rw [hop] at hreplenish
  · exact hreplenish
  · dsimp only
    split <;> exact hreplenish

theorem steps_take (s : NodeStore) (r : Region σ) : Steps r (s.take r).2.2 := by
  unfold take
  cases s.free with
  | nil => exact steps_carve s r
  | cons index free => exact .refl

theorem steps_takeMany (s : NodeStore) (r : Region σ) (n : Nat) :
    Steps r (s.takeMany r n).2.2 := by
  induction n generalizing s r with
  | zero => exact .refl
  | succ n ih =>
    have htake := steps_take s r
    unfold takeMany
    rcases hop : s.take r with ⟨fault | index, s', r'⟩ <;> rw [hop] at htake
    · exact htake
    · exact htake.trans (ih s' r')

end NodeStore

namespace Trie

variable {K V : Type}

theorem steps_link (t : Trie K V) (r : Region σ) (path : List Bool) (value : Option V) :
    Steps r (t.link r path value).2.2 := by
  have htake := t.nodes.steps_takeMany r (t.root.missing path)
  unfold link
  split
  · exact .refl
  · rcases hop : t.nodes.takeMany r (t.root.missing path) with ⟨⟨indices, fault⟩, nodes, r'⟩
    rw [hop] at htake
    cases fault with
    | none => exact htake
    | some fault => exact htake

theorem steps_recycled (depth : Nat) (gone : List Nat) (r : Region σ) :
    Steps r ((recycledEvents depth gone).foldl Region.note r) := by
  induction gone generalizing depth r with
  | nil => exact .refl
  | cons index gone ih =>
    exact (Step.note r fun _ => Event.noConfusion).steps.trans (ih (depth - 1) _)

theorem steps_unlink (t : Trie K V) (r : Region σ) (path : List Bool) :
    Steps r (t.unlink r path).2.2 := by
  unfold unlink
  cases t.root.erase path with
  | none => exact .refl
  | some e => exact steps_recycled _ _ r

variable [PrefixKey K]

theorem steps_linkLevels (t : Trie K V) (r : Region σ) (first count : Nat) :
    Steps r (t.linkLevels r first count).2.2 := by
  refine linkLevels_induction (P := fun (_ : Trie K V) r' => Steps r r') ?_ .refl first count
  intro t' r' key mask h
  exact h.trans (t'.steps_link r' _ none)

theorem steps_create (value : Layout) (p : Preallocation) (r : Region σ) :
    Steps r (create (K := K) (V := V) value p r).2 := by
  have htop := (bare value r.heap.pageSize : Trie K V).steps_link r [] none
  rcases create_cases (K := K) (V := V) value p r with
    ⟨fault, heq⟩ | ⟨fault, t, r₁, hop, heq⟩ | ⟨top, r₁, fault, t, r₂, depth, hop, hlevels, heq⟩ |
    ⟨top, r₁, t, r₂, depth, hop, hlevels, heq⟩ <;> rw [heq]
  · rw [hop] at htop
    exact htop
  all_goals
    have hbelow := top.steps_linkLevels r₁ 1 depth
    rw [hop] at htop
    rw [hlevels] at hbelow
  · exact htop.trans hbelow
  · dsimp only
    split
    · exact htop.trans hbelow
    · exact (htop.trans hbelow).tail (Step.note r₂ fun _ => Event.noConfusion)

end Trie

end RegionTrie
