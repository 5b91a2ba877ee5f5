import RegionTrie.Proofs.Region.Log
import RegionTrie.Proofs.Trie.Run

/-!
# Tries and the log

A trie asks its region for slabs, which are large buffers like any others, and leaves notes about
itself, which tell nothing about the pool. So the log of its region goes on showing the pool,
whatever becomes of the trie.

## Main results

* `Trie.logged_link`, `Trie.logged_unlink`: a change of a trie is logged
* `Trie.logged_create`: and so is the creation of one
-/

namespace RegionTrie

open Region

variable {K V σ : Type} {r : Region σ}

theorem Trie.logged_recycled (h : r.Logged) (depth : Nat) (gone : List Nat) :
    ((recycledEvents depth gone).foldl Region.note r).Logged := by
  -- each node that goes is noted, one less deep than the one before
  induction gone generalizing depth r with
  | nil => exact h
  | cons index gone ih =>
    have hnoted : (r.note (.nodeRecycled index depth)).Logged := h.note trivial
    exact ih hnoted (depth - 1)

theorem Trie.logged_unlink (h : r.Logged) (t : Trie K V) (path : List Bool) :
    (t.unlink r path).2.2.Logged := by
  unfold unlink
  cases t.root.erase path with
  | none => exact h
  | some e => exact logged_recycled h path.length e.recycled

variable [RawSource σ]

namespace NodeStore

theorem logged_carve (h : r.Logged) (s : NodeStore) : (s.carve r).2.2.Logged := by
  have hreplenish : (s.replenish r).2.2.Logged := by
    have hslab := h.allocateAligned s.shape.slabSize s.shape.slabAlign
    unfold replenish
    split
    · rcases hop : r.allocateAligned s.shape.slabSize s.shape.slabAlign with ⟨fault | slab, r'⟩ <;>
        rw [hop] at hslab
      · exact hslab
      · -- what the slab is used for is noted after it is announced
        exact hslab.note trivial
    · exact h
  unfold carve
  rcases hop : s.replenish r with ⟨fault | ⟨⟩, s', r'⟩ <;> rw [hop] at hreplenish
  · exact hreplenish
  · dsimp only
    split <;> exact hreplenish

theorem logged_take (h : r.Logged) (s : NodeStore) : (s.take r).2.2.Logged := by
  unfold take
  cases s.free with
  | nil => exact logged_carve h s
  | cons index free => exact h

theorem logged_takeMany (h : r.Logged) (s : NodeStore) (n : Nat) :
    (s.takeMany r n).2.2.Logged := by
  induction n generalizing s r with
  | zero => exact h
  | succ n ih =>
    have htake := logged_take h s
    unfold takeMany
    rcases hop : s.take r with ⟨fault | index, s', r'⟩ <;> rw [hop] at htake
    · exact htake
    · exact ih htake s'

end NodeStore

namespace Trie

theorem logged_link (h : r.Logged) (t : Trie K V) (path : List Bool) (value : Option V) :
    (t.link r path value).2.2.Logged := by
  have htake := NodeStore.logged_takeMany h t.nodes (t.root.missing path)
  rcases t.link_cases r path value with
    ⟨-, heq⟩ | ⟨taken, nodes, r', -, hop, -, heq⟩ | ⟨taken, nodes, r', fault, -, hop, -, heq⟩ <;>
    rw [heq]
  · exact h
  all_goals
    rw [hop] at htake
    exact htake

variable [PrefixKey K]

theorem logged_create (h : r.Logged) (value : Layout) (p : Preallocation) :
    (create (K := K) (V := V) value p r).2.Logged := by
  have htop := logged_link h (bare value r.heap.pageSize : Trie K V) [] none
  have hlevels {r₁ : Region σ} (h₁ : r₁.Logged) (top : Trie K V) (depth : Nat) :
      (top.linkLevels r₁ 1 depth).2.2.Logged := by
    refine linkLevels_induction (P := fun (_ : Trie K V) r' => r'.Logged) ?_ h₁ 1 depth
    intro t r' key mask h'
    exact logged_link h' t _ none
  rcases create_cases (K := K) (V := V) value p r with
    ⟨fault, heq⟩ | ⟨fault, t, r₁, hop, heq⟩ | ⟨top, r₁, fault, t, r₂, depth, hop, hbelow, heq⟩ |
    ⟨top, r₁, t, r₂, depth, hop, hbelow, heq⟩ <;> rw [heq]
  · exact h
  all_goals rw [hop] at htop
  · exact htop
  all_goals
    have hall := hlevels htop top depth
    rw [hbelow] at hall
  · exact hall
  · dsimp only
    split
    · exact hall
    · exact hall.note trivial

end Trie

end RegionTrie
