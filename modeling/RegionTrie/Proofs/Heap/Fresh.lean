import RegionTrie.Proofs.Heap.Ledger

/-!
# Sources that never use an address twice

A journal tells which requests were declined, and which buffers were ever granted, also those given
back since. A source never uses an address twice if every buffer keeps clear of all buffers granted
before. The first address after a buffer counts as its own: no bytes at all can be handed out
there.

## Main definitions

* `Buffer.Reaches`, `Buffer.Detached`: addresses up to the first one after a buffer, and buffers
  that share none of them
* `Journal.refusals`, `Journal.grants`: how many requests were declined, and what was ever granted
* `Journal.Fresh`: every buffer was aligned and detached from all granted before
* `Endless`: a source that never declines, and never grants an address twice
* `Journal.Obliging`: nothing was declined in the meantime, and grants are lawful

## Main results

* `Journal.Fresh.lawful`, `Journal.Fresh.pairwise_outstanding`: what is fresh is lawful, and
  outstanding buffers are detached
* `Journal.Fresh.detached_of_granted`: a buffer granted later is detached from all granted before
-/

namespace RegionTrie

/-- The address belongs to the buffer, or is the first one after it. -/
def Buffer.Reaches (b : Buffer) (address : Nat) : Prop :=
  b.base ≤ address ∧ address ≤ b.extent.stop

/-- One of the buffers starts after the first address after the other. -/
def Buffer.Detached (b c : Buffer) : Prop :=
  b.extent.stop < c.base ∨ c.extent.stop < b.base

instance (b c : Buffer) : Decidable (b.Detached c) :=
  inferInstanceAs (Decidable (_ ∨ _))

namespace Buffer

variable {b c : Buffer}

theorem Detached.symm (h : b.Detached c) : c.Detached b :=
  Or.symm h

theorem Detached.apart (h : b.Detached c) : b.extent.Apart c.extent :=
  h.imp Nat.le_of_lt Nat.le_of_lt

theorem reaches_base (b : Buffer) : b.Reaches b.base :=
  ⟨Nat.le_refl _, Nat.le_add_right _ _⟩

/-- No address is reached by two detached buffers. -/
theorem Detached.not_reaches (h : b.Detached c) {address : Nat} (hb : b.Reaches address) :
    ¬ c.Reaches address := by
  unfold Detached at h
  unfold Reaches at *
  omega

end Buffer

namespace Journal

/-- The number of requests that were declined. -/
def refusals : List Effect → Nat
  | [] => 0
  | .declined _ :: older => refusals older + 1
  | _ :: older => refusals older

/-- The buffers that were ever granted, newest first. -/
def grants : List Effect → List Buffer
  | [] => []
  | .granted b :: older => b :: grants older
  | _ :: older => grants older

/-- Every buffer was aligned as requested and detached from every one granted before. -/
def Fresh : List Effect → Prop
  | [] => True
  | .granted b :: older =>
    b.layout.align ∣ b.base ∧ (∀ c ∈ grants older, b.Detached c) ∧ Fresh older
  | _ :: older => Fresh older

instance Fresh.decidable : (j : List Effect) → Decidable (Fresh j)
  | [] => isTrue trivial
  | .granted _ :: older =>
    have := Fresh.decidable older
    inferInstanceAs (Decidable (_ ∧ _ ∧ _))
  | .declined _ :: older | .released _ :: older | .served _ _ :: older | .ran _ _ :: older
  | .discarded _ :: older | .noted _ :: older => Fresh.decidable older

variable {j older : List Effect}

theorem refusals_le_of_suffix (h : older <:+ j) : refusals older ≤ refusals j := by
  obtain ⟨new, rfl⟩ := h
  induction new with
  | nil => exact Nat.le_refl _
  | cons e new ih =>
    cases e with
    | declined l => exact Nat.le_succ_of_le ih
    | _ => exact ih

/-- If nothing was declined from one moment to a later one, nothing was between them. -/
theorem refusals_eq_of_suffix {mid : List Effect} (h : refusals j = refusals older)
    (holder : older <:+ mid) (hmid : mid <:+ j) :
    refusals mid = refusals older ∧ refusals j = refusals mid := by
  have hle := refusals_le_of_suffix holder
  have hle' := refusals_le_of_suffix hmid
  omega

theorem grants_subset_of_suffix (h : older <:+ j) : grants older ⊆ grants j := by
  obtain ⟨new, rfl⟩ := h
  induction new with
  | nil => exact List.Subset.refl _
  | cons e new ih =>
    cases e with
    | granted b => exact List.subset_cons_of_subset b ih
    | _ => exact ih

/-- Outstanding buffers were granted. -/
theorem outstanding_sublist_grants (j : List Effect) : (outstanding j).Sublist (grants j) := by
  induction j with
  | nil => exact List.Sublist.refl _
  | cons e j ih =>
    cases e with
    | granted b => exact ih.cons_cons b
    | released b => exact List.erase_sublist.trans ih
    | _ => exact ih

namespace Fresh

/-- What was fresh to the end was fresh before. -/
theorem of_suffix (h : Fresh j) (hsuffix : older <:+ j) : Fresh older := by
  obtain ⟨new, rfl⟩ := hsuffix
  induction new with
  | nil => exact h
  | cons e new ih =>
    cases e with
    | granted b => exact ih h.2.2
    | _ => exact ih h

theorem pairwise_grants (h : Fresh j) : (grants j).Pairwise Buffer.Detached := by
  induction j with
  | nil => exact List.Pairwise.nil
  | cons e j ih =>
    cases e with
    | granted b => exact List.pairwise_cons.mpr ⟨h.2.1, ih h.2.2⟩
    | _ => exact ih h

/-- Outstanding buffers are detached from each other. -/
theorem pairwise_outstanding (h : Fresh j) : (outstanding j).Pairwise Buffer.Detached :=
  h.pairwise_grants.sublist (outstanding_sublist_grants j)

/-- Buffers that are detached from all granted before are apart from those outstanding. -/
theorem lawful (h : Fresh j) : Lawful j := by
  induction j with
  | nil => trivial
  | cons e j ih =>
    cases e with
    | granted b =>
      refine ⟨h.1, ?_, ih h.2.2⟩
      intro c hc
      exact (h.2.1 c ((outstanding_sublist_grants j).subset hc)).apart
    | _ => exact ih h

/-- A buffer is detached from every one granted before it. -/
theorem detached_of_granted {b c : Buffer} (h : Fresh j) (hsuffix : (.granted b :: older) <:+ j)
    (hc : c ∈ grants older) : b.Detached c :=
  (h.of_suffix hsuffix).2.1 c hc

end Fresh

end Journal

/-! ## A source that never declines -/

/-- A source that grants every request, behind what it granted before. A buffer may start at the
first address after another one. -/
structure Endless where
  frontier : Nat := 0

instance : RawSource Endless where
  allocate s l :=
    (some (alignUp s.frontier l.align), ⟨alignUp s.frontier l.align + l.size⟩)
  release s _ := s
  pageSize _ := fallbackPageSize

/-! ## Sources that oblige -/

open Journal

/-- Nothing was declined from one moment to a later one, and what was granted until then is
lawful. -/
structure Journal.Obliging (before after : List Effect) : Prop where
  refusals : refusals after = refusals before
  lawful : Lawful after

theorem Journal.Obliging.split {before mid after : List Effect} (h : Obliging before after)
    (hbefore : before <:+ mid) (hafter : mid <:+ after) :
    Obliging before mid ∧ Obliging mid after := by
  obtain ⟨hfirst, hsecond⟩ := refusals_eq_of_suffix h.refusals hbefore hafter
  exact ⟨⟨hfirst, h.lawful.of_suffix hafter⟩, ⟨hsecond, h.lawful⟩⟩

namespace Heap

variable {σ : Type} [RawSource σ] {h heap : Heap σ} {l : Layout}

theorem allocate_ne_none (hobliging : Obliging h.journal heap.journal) :
    h.allocate l ≠ (none, heap) := by
  intro heq
  rcases h.allocate_cases l with ⟨base, source, hop⟩ | ⟨source, hop⟩ <;> rw [hop] at heq <;>
    cases heq
  exact Nat.succ_ne_self _ hobliging.refusals

theorem align_dvd_of_allocate {base : Nat} (heq : h.allocate l = (some base, heap))
    (hlawful : Lawful heap.journal) : l.align ∣ base := by
  rcases h.allocate_cases l with ⟨base', source, hop⟩ | ⟨source, hop⟩ <;> rw [hop] at heq <;>
    cases heq
  exact hlawful.1

end Heap

end RegionTrie
