import RegionTrie.Proofs.Region.Outcomes

/-!
# What a journal says

A journal is read here in four ways: which granted buffers are still outstanding, whether every
call of the source was in order, whether what the source granted was lawful, and which ranges were
served since the pool was last reset. Journals are listed newest entry first, and so are the
answers.

A heap keeps a ledger with its journal: the live buffers are the outstanding ones.

## Main definitions

* `Extent.Apart`: one range ends before the other starts
* `Journal.outstanding`, `Journal.Orderly`: buffers not yet given back, and calls in order
* `Journal.Lawful`: grants that are aligned and apart from everything outstanding
* `Journal.served`: the ranges served since the last reset
* `Heap.Ledger`: the live buffers of a heap are the outstanding ones, and are held somewhere

## Main results

* `Journal.Lawful.pairwise_apart`: outstanding buffers are apart if grants are lawful
* `Heap.Ledger.allocate`, `Heap.Ledger.release`: the two calls of the source keep the ledger
-/

namespace RegionTrie

/-- One of the ranges ends before the other starts. -/
def Extent.Apart (e f : Extent) : Prop :=
  e.stop ≤ f.start ∨ f.stop ≤ e.start

instance (e f : Extent) : Decidable (e.Apart f) :=
  inferInstanceAs (Decidable (_ ∨ _))

theorem Extent.Apart.symm {e f : Extent} (h : e.Apart f) : f.Apart e :=
  Or.symm h

namespace Journal

/-- The buffers that were granted and not given back. -/
def outstanding : List Effect → List Buffer
  | [] => []
  | .granted b :: older => b :: outstanding older
  | .released b :: older => (outstanding older).erase b
  | _ :: older => outstanding older

/-- Every request was for some bytes and had a valid layout, and every buffer given back was
outstanding then, with that layout. -/
def Orderly : List Effect → Prop
  | [] => True
  | .granted b :: older => 0 < b.layout.size ∧ b.layout.Valid ∧ Orderly older
  | .declined l :: older => 0 < l.size ∧ l.Valid ∧ Orderly older
  | .released b :: older => b ∈ outstanding older ∧ Orderly older
  | _ :: older => Orderly older

/-- Every buffer was aligned as requested and apart from those outstanding when it was granted.
Addresses are numbers without bound, so no buffer wraps around. -/
def Lawful : List Effect → Prop
  | [] => True
  | .granted b :: older =>
    b.layout.align ∣ b.base ∧ (∀ c ∈ outstanding older, b.extent.Apart c.extent) ∧ Lawful older
  | _ :: older => Lawful older

instance Lawful.decidable : (j : List Effect) → Decidable (Lawful j)
  | [] => isTrue trivial
  | .granted _ :: older =>
    have := Lawful.decidable older
    inferInstanceAs (Decidable (_ ∧ _ ∧ _))
  | .declined _ :: older | .released _ :: older | .served _ _ :: older | .ran _ _ :: older
  | .discarded _ :: older | .noted _ :: older => Lawful.decidable older

/-- The ranges served inside blocks since the last reset, with the alignments asked for. -/
def served : List Effect → List (Extent × Nat)
  | [] => []
  | .served e align :: older => (e, align) :: served older
  | .noted (.poolReset _) :: _ => []
  | _ :: older => served older

/-- The entry is no call of the source. -/
def Internal : Effect → Prop
  | .granted _ | .declined _ | .released _ => False
  | _ => True

variable {e : Effect} {j older : List Effect}

theorem outstanding_cons_of_internal (h : Internal e) : outstanding (e :: j) = outstanding j := by
  cases e <;> first | rfl | exact absurd h id

theorem orderly_cons_of_internal (h : Internal e) : Orderly (e :: j) ↔ Orderly j := by
  cases e <;> first | exact Iff.rfl | exact absurd h id

/-- What was lawful to the end was lawful before. -/
theorem Lawful.of_suffix (h : Lawful j) (hsuffix : older <:+ j) : Lawful older := by
  induction j with
  | nil =>
    rw [List.suffix_nil.mp hsuffix]
    trivial
  | cons e j ih =>
    rcases List.suffix_cons_iff.mp hsuffix with rfl | hrest
    · exact h
    · -- only a grant says something of its own
      have hj : Lawful j := by
        cases e with
        | granted b => exact h.2.2
        | _ => exact h
      exact ih hj hrest

/-- Outstanding buffers lie apart from each other if grants are lawful. -/
theorem Lawful.pairwise_apart (h : Lawful j) :
    (outstanding j).Pairwise fun b c => b.extent.Apart c.extent := by
  -- a grant comes in apart from all others, and what is given back only goes out
  induction j with
  | nil => exact List.Pairwise.nil
  | cons e j ih =>
    cases e with
    | granted b => exact List.pairwise_cons.mpr ⟨h.2.1, ih h.2.2⟩
    | released b => exact (ih h).sublist List.erase_sublist
    | _ => exact ih h

/-- Outstanding buffers are aligned if grants are lawful. -/
theorem Lawful.align_dvd_base (h : Lawful j) {b : Buffer} (hb : b ∈ outstanding j) :
    b.layout.align ∣ b.base := by
  induction j with
  | nil => cases hb
  | cons e j ih =>
    cases e with
    | granted c =>
      rcases List.mem_cons.mp hb with rfl | hb
      · exact h.1
      · exact ih h.2.2 hb
    | released c => exact ih h (List.mem_of_mem_erase hb)
    | _ => exact ih h hb

end Journal

/-! ## Heaps -/

namespace Heap

open Journal

variable {σ : Type}

/-- The live buffers of a heap are those outstanding, every call was in order, and `held` lists
where the live buffers are kept. -/
structure Ledger (h : Heap σ) (held : List Buffer) : Prop where
  live_eq : h.live = outstanding h.journal
  orderly : Orderly h.journal
  perm : h.live.Perm held

variable {h : Heap σ} {held : List Buffer}

theorem ledger_empty (source : σ) : Ledger { source } [] where
  live_eq := rfl
  orderly := trivial
  perm := List.Perm.refl _

theorem Ledger.trans_perm (hl : h.Ledger held) {held' : List Buffer} (hperm : held.Perm held') :
    h.Ledger held' :=
  ⟨hl.live_eq, hl.orderly, hl.perm.trans hperm⟩

theorem Ledger.record (hl : h.Ledger held) {e : Effect} (he : Internal e) :
    (h.record e).Ledger held where
  live_eq := hl.live_eq.trans (outstanding_cons_of_internal he).symm
  orderly := (orderly_cons_of_internal he).mpr hl.orderly
  perm := hl.perm

theorem Ledger.note (hl : h.Ledger held) (event : Event) : (h.note event).Ledger held :=
  hl.record trivial

variable [RawSource σ]

/-- A granted buffer is live, and the one who asked for it holds it; a refusal changes nothing. -/
theorem Ledger.allocate (hl : h.Ledger held) {l : Layout} (hsize : 0 < l.size) (hvalid : l.Valid)
    {answer : Option Nat} {h' : Heap σ} (heq : h.allocate l = (answer, h')) :
    h'.Ledger ((answer.map (⟨·, l⟩)).toList ++ held) := by
  rcases h.allocate_cases l with ⟨base, source, hgrant⟩ | ⟨source, hdecline⟩
  · rw [hgrant] at heq
    cases heq
    -- the buffer is put first by the heap, by the journal and by the one who asked
    refine ⟨?_, ⟨hsize, hvalid, hl.orderly⟩, hl.perm.cons _⟩
    show _ :: h.live = _ :: outstanding h.journal
    rw [hl.live_eq]
  · rw [hdecline] at heq
    cases heq
    exact ⟨hl.live_eq, ⟨hsize, hvalid, hl.orderly⟩, hl.perm⟩

/-- A buffer that is held can be given back. -/
theorem Ledger.release {b : Buffer} (hl : h.Ledger (b :: held)) : (h.release b).Ledger held where
  live_eq := by
    show h.live.erase b = (outstanding h.journal).erase b
    rw [hl.live_eq]
  orderly := by
    refine ⟨?_, hl.orderly⟩
    rw [← hl.live_eq]
    exact hl.perm.symm.subset List.mem_cons_self
  perm := by
    have hperm := hl.perm.erase b
    rwa [List.erase_cons_head] at hperm

/-- Buffers that are held can be given back one after the other, with a diagnostic for each. -/
theorem Ledger.foldl_release {α : Type} (buffer : α → Buffer) (event : α → Event) (items : List α)
    {h : Heap σ} (hl : h.Ledger (items.map buffer ++ held)) :
    (items.foldl (fun heap a => (heap.note (event a)).release (buffer a)) h).Ledger held := by
  induction items generalizing h with
  | nil => exact hl
  | cons a items ih => exact ih (hl.note (event a)).release

end Heap

end RegionTrie
