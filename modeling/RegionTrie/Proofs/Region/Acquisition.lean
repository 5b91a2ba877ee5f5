import Mathlib.Data.List.Basic
import Mathlib.Data.List.Perm.Subperm
import RegionTrie.Proofs.Region.Outcomes

/-!
# Buffers that stay

A buffer of its own that a region obtains is live and tracked from then on. A request for one that
fails takes nothing away: the buffer that was obtained for it, if any, goes back, and those obtained
before are still there.

## Main definitions

* `Region.Acquires`: from one region to another, so many buffers of a layout came in

## Main results

* `Region.acquires_allocateAligned`: one buffer, if it is granted, and none otherwise
-/

namespace RegionTrie.Region

variable {σ : Type}

/-- From one region to another, so many buffers of a layout were obtained. They are live beside
those that were, and tracked by large records beside those that were. -/
def Acquires (l : Layout) (n : Nat) (r r' : Region σ) : Prop :=
  ∃ taken : List Buffer, taken.length = n ∧ (∀ b ∈ taken, b.layout = l) ∧
    LargeRecord.buffers r'.pool.large = taken ++ LargeRecord.buffers r.pool.large ∧
    (taken ++ r.heap.live).Subperm r'.heap.live

variable {l : Layout} {m n : Nat} {r r₁ r₂ : Region σ}

/-- Nothing is obtained where records stay as they are and no live buffer goes. -/
theorem acquires_nothing (hlarge : r₁.pool.large = r.pool.large)
    (hlive : r.heap.live.Subperm r₁.heap.live) : Acquires l 0 r r₁ :=
  ⟨[], rfl, by simp, hlarge ▸ rfl, hlive⟩

theorem Acquires.refl (r : Region σ) : Acquires l 0 r r :=
  acquires_nothing rfl (List.Subperm.refl _)

theorem Acquires.trans (h : Acquires l n r r₁) (h₁ : Acquires l m r₁ r₂) :
    Acquires l (n + m) r r₂ := by
  obtain ⟨taken, hlen, hlayout, hlarge, hlive⟩ := h
  obtain ⟨more, hlen₁, hlayout₁, hlarge₁, hlive₁⟩ := h₁
  refine ⟨more ++ taken, ?_, ?_, ?_, ?_⟩
  · rw [List.length_append, hlen, hlen₁, Nat.add_comm]
  · exact List.forall_mem_append.mpr ⟨hlayout₁, hlayout⟩
  · rw [hlarge₁, hlarge, List.append_assoc]
  · rw [List.append_assoc]
    exact ((List.subperm_append_left more).mpr hlive).trans hlive₁

theorem Acquires.note (h : Acquires l n r r₁) (event : Event) : Acquires l n r (r₁.note event) :=
  h

variable [RawSource σ]

/-- A grant leaves all live buffers where they are. -/
theorem subperm_live_allocate (h : Heap σ) (l : Layout) :
    h.live.Subperm (h.allocate l).2.live := by
  rcases h.allocate_cases l with ⟨base, source, heq⟩ | ⟨source, heq⟩ <;> rw [heq]
  exact (List.sublist_cons_self _ _).subperm

/-- Serving a range takes a block at most. -/
theorem subperm_live_reserve (r : Region σ) (size align : Nat) :
    r.heap.live.Subperm (r.reserve size align).2.heap.live := by
  rcases reserve_cases r size align with
    ⟨start, chain, -, heq⟩ | ⟨base, heap, -, halloc, heq⟩ | ⟨heap, -, halloc, heq⟩ <;> rw [heq]
  · exact List.Subperm.refl _
  all_goals
    have hlive := subperm_live_allocate r.heap r.pool.config.blockLayout
    rwa [halloc] at hlive

/-- A buffer just granted is tracked, or goes back. -/
theorem acquires_link {r₀ : Region σ} {b : Buffer} (hlarge : r.pool.large = r₀.pool.large)
    (hlive : r.heap.live = b :: r₀.heap.live) :
    Acquires b.layout (r.link b).1.toBool.toNat r₀ (r.link b).2 := by
  have hsame := large_reserve r largeRecordSize wordAlign
  have hsub := subperm_live_reserve r largeRecordSize wordAlign
  rcases link_cases r b with ⟨address, r', hop, heq⟩ | ⟨fault, r', hop, heq⟩ <;>
    rw [hop] at hsame hsub <;> rw [heq] <;> rw [hlive] at hsub <;> rw [hlarge] at hsame
  · refine ⟨[b], rfl, by simp, ?_, hsub⟩
    show LargeRecord.buffers (⟨address, some b⟩ :: r'.pool.large) = _
    rw [hsame]
    rfl
  · refine acquires_nothing hsame ?_
    have hback := hsub.erase b
    rwa [List.erase_cons_head] at hback

/-- **A buffer of its own** is live and tracked if it is granted, and a refusal takes nothing
away. -/
theorem acquires_allocateAligned (r : Region σ) (size align : Nat) :
    Acquires ⟨size, align⟩ (r.allocateAligned size align).1.toBool.toNat r
      (r.allocateAligned size align).2 := by
  rcases allocateAligned_cases r size align with
    ⟨-, heq⟩ | ⟨heap, -, -, halloc, heq⟩ | ⟨base, heap, -, -, halloc, heq⟩ <;> rw [heq]
  · exact .refl r
  · have hlive := subperm_live_allocate r.heap ⟨size, align⟩
    rw [halloc] at hlive
    exact acquires_nothing rfl hlive
  · refine acquires_link (b := ⟨base, ⟨size, align⟩⟩) rfl ?_
    rcases r.heap.allocate_cases ⟨size, align⟩ with ⟨base', source, hgrant⟩ | ⟨source, hgrant⟩ <;>
      rw [hgrant] at halloc <;> cases halloc
    rfl

end RegionTrie.Region
