import Mathlib.Data.List.Pairwise
import Mathlib.Data.List.Perm.Subperm
import RegionTrie.Proofs.Session.Custody
import RegionTrie.Proofs.Session.Placement

/-!
# Contents are not disturbed

Everything that users keep in a session lies in lots of their own, apart from each other and from
what the session writes into. So memory shows what the books say, and every act keeps it so.

## Main definitions

* `Region.Settled`: books that balance, everything in its place, and grants that were lawful
* `Custody.occupied`: the ranges that are kept and have any bytes
* `Custody.Shown`: what is kept has lots of its own, and memory shows it

## Main results

* `Region.Settled.lots_apart`, `Region.Settled.lot_in_live`: lots lie apart from each other, in live
  buffers, and behind the headers of blocks
* `Custody.Shown.provide`, `Custody.Shown.store`, `Custody.Shown.disturb`, `Custody.Shown.lose`:
  memory that comes, is written by a user or by the session itself, and goes
-/

namespace RegionTrie

/-! ## Lots lie apart -/

namespace Extent

instance : Std.Symm Apart :=
  ⟨fun _ _ => Apart.symm⟩

theorem Apart.not_covers {e f : Extent} (h : e.Apart f) {address : Nat} (he : e.Covers address) :
    ¬ f.Covers address := by
  unfold Apart at h
  unfold Covers at *
  omega

/-- What is drawn from ranges that lie apart lies apart. -/
theorem pairwise_apart_of_count_le {lots l : List Extent} (hlots : lots.Pairwise Apart)
    (h : ∀ e, l.count e ≤ lots.count e) : l.Pairwise Apart := by
  obtain ⟨l', hperm, hsublist⟩ := List.subperm_ext_iff.mpr fun e _ => h e
  exact (hperm.pairwise_iff fun hapart => hapart.symm).mp (hlots.sublist hsublist)

end Extent

namespace Region

open Journal

variable {σ : Type}

/-- The books balance, everything is in its place, and grants were lawful. -/
structure Settled (r : Region σ) : Prop where
  balanced : r.Balanced []
  placed : r.Placed
  lawful : Lawful r.heap.journal

namespace Settled

variable {r r' : Region σ}

theorem lots_apart (h : r.Settled) : r.lots.Pairwise Extent.Apart := by
  refine List.pairwise_append.mpr ⟨List.pairwise_map.mpr h.placed.placement.disjoint, ?_, ?_⟩
  · have hheld := h.balanced.pairwise_apart h.lawful
    exact List.pairwise_map.mpr (List.pairwise_append.mp hheld).2.1
  · intro e he f hf
    obtain ⟨range, hrange, rfl⟩ := List.mem_map.mp he
    obtain ⟨b, hb, rfl⟩ := List.mem_map.mp hf
    exact h.placed.apart_of_large h.balanced h.lawful hrange hb

/-- The ranges of records were served. -/
theorem served_of_record (h : r.Settled) {e : Extent} (he : e ∈ r.records) :
    (e, wordAlign) ∈ served r.heap.journal := by
  rcases List.mem_append.mp he with he | he
  · obtain ⟨record, hrecord, rfl⟩ := List.mem_map.mp he
    exact h.placed.large _ (List.mem_map_of_mem hrecord)
  · obtain ⟨record, hrecord, rfl⟩ := List.mem_map.mp he
    exact (h.placed.cleanups record hrecord).1

theorem held_subset_live (h : r.Settled) : r.pool.held ⊆ r.heap.live :=
  h.balanced.ledger.perm.symm.subset

/-- A block is a live buffer. -/
theorem block_mem_live (h : r.Settled) {b : Block} (hb : b ∈ r.pool.chain.blocks) :
    (⟨b.base, r.pool.config.blockLayout⟩ : Buffer) ∈ r.heap.live :=
  h.held_subset_live (List.mem_append_left _ (List.mem_map_of_mem (List.mem_map_of_mem hb)))

/-- A range that was served lies in a block, behind its header, and other blocks are elsewhere. -/
theorem served_in_block (h : r.Settled) {range : Extent × Nat}
    (hrange : range ∈ served r.heap.journal) :
    (∃ b ∈ r.pool.chain.blocks, b.base ≤ range.1.start ∧ range.1.stop ≤ b.stop) ∧
      ∀ b ∈ r.pool.chain.blocks, (⟨b.base, blockHeaderSize⟩ : Extent).Apart range.1 := by
  obtain ⟨-, b, hb, hstart, hend⟩ := h.placed.placement.inside range hrange
  obtain ⟨-, hlast, -⟩ := h.placed.placement.bounds b hb
  refine ⟨⟨b, hb, by omega, Nat.le_trans hend hlast⟩, ?_⟩
  intro b' hb'
  obtain ⟨hfirst', hlast', -⟩ := h.placed.placement.bounds b' hb'
  unfold Extent.Apart Extent.stop at *
  by_cases hsame : b' = b
  · subst hsame
    exact .inl hstart
  · have : Std.Symm fun b c : Block => b.stop ≤ c.base ∨ c.stop ≤ b.base := ⟨fun _ _ => Or.symm⟩
    have hapart := h.placed.placement.apart.forall hb' hb hsame
    simp only at hstart hend ⊢
    omega

/-- A large buffer is apart from every block. -/
theorem block_apart_large (h : r.Settled) {b : Block} (hb : b ∈ r.pool.chain.blocks)
    {large : Buffer} (hlarge : large ∈ LargeRecord.buffers r.pool.large) :
    (⟨b.base, r.pool.config.size⟩ : Extent).Apart large.extent :=
  (List.pairwise_append.mp (h.balanced.pairwise_apart h.lawful)).2.2
    ⟨b.base, r.pool.config.blockLayout⟩ (List.mem_map_of_mem (List.mem_map_of_mem hb)) large hlarge

/-- Every lot lies in a live buffer, and behind the header if that is a block. -/
theorem lot_in_live (h : r.Settled) {e : Extent} (he : e ∈ r.lots) :
    (∃ b ∈ r.heap.live, b.base ≤ e.start ∧ e.stop ≤ b.extent.stop) ∧
      ∀ b ∈ r.pool.chain.blocks, (⟨b.base, blockHeaderSize⟩ : Extent).Apart e := by
  rcases List.mem_append.mp he with he | he
  · obtain ⟨range, hrange, rfl⟩ := List.mem_map.mp he
    obtain ⟨⟨b, hb, hstart, hend⟩, hheaders⟩ := h.served_in_block hrange
    obtain ⟨-, -, hstop⟩ := h.placed.placement.bounds b hb
    refine ⟨⟨_, h.block_mem_live hb, hstart, ?_⟩, hheaders⟩
    simp only [Buffer.extent, Extent.stop, PoolConfig.blockLayout] at hend ⊢
    omega
  · obtain ⟨large, hlarge, rfl⟩ := List.mem_map.mp he
    refine ⟨⟨large, ?_, Nat.le_refl _, Nat.le_refl _⟩, fun b hb => ?_⟩
    · exact h.held_subset_live (List.mem_append_right _ hlarge)
    · -- the header is a part of the block
      obtain ⟨hfirst, hlast, hstop⟩ := h.placed.placement.bounds b hb
      have hapart := h.block_apart_large hb hlarge
      simp only [Extent.Apart, Extent.stop] at hapart ⊢
      omega

/-- Large buffers have some bytes. -/
theorem large_size_pos (h : r.Settled) {b : Buffer} (hb : b ∈ LargeRecord.buffers r.pool.large) :
    0 < b.layout.size := by
  refine h.balanced.ledger.orderly.size_pos ?_
  rw [← h.balanced.ledger.live_eq]
  exact h.held_subset_live (List.mem_append_right _ hb)

/-- Records are in blocks, and so no record is a large buffer. -/
theorem large_not_mem_records (h : r.Settled) {b : Buffer}
    (hb : b ∈ LargeRecord.buffers r.pool.large) : b.extent ∉ r.records := by
  intro hmem
  have hpos := h.large_size_pos hb
  have hapart := h.placed.apart_of_large h.balanced h.lawful (h.served_of_record hmem) hb
  simp only [Extent.Apart, Extent.stop, Buffer.extent] at hapart
  omega

variable [RawSource σ]

/-- What is settled stays settled as long as grants are lawful. -/
theorem steps (h : r.Settled) (hsteps : Steps r r') (hlawful : Lawful r'.heap.journal) :
    r'.Settled where
  balanced := h.balanced.steps hsteps
  placed := Placed.steps h.balanced (fun _ => h.placed) hsteps hlawful
  lawful := hlawful

end Settled

/-- A range shows what others are not concerned with. -/
theorem contents_congr {r r' : Region σ} {e : Extent}
    (h : ∀ address, e.Covers address →
      r'.heap.memory.byteAt address = r.heap.memory.byteAt address) :
    r'.contents e = r.contents e :=
  Memory.read_congr fun address hle hlt => h address ⟨hle, hlt⟩

/-- A holding shows what is stored in it, and what it showed elsewhere. -/
theorem contents_store {r : Region σ} {k : Holding} (h : r.contents k.extent = k.bytes)
    (offset : Nat) (bytes : List UInt8) :
    (r.store (k.start + offset) (bytes.take (k.extent.size - offset)).toArray).contents k.extent =
      (k.store offset bytes).bytes := by
  simp only [contents, Holding.extent, Memory.read_eq_map_byteAt] at h
  simp only [contents, Holding.extent, Memory.read_eq_map_byteAt]
  refine List.ext_getElem (by simp [Holding.store]) fun i hi _ => ?_
  simp only [List.length_map, List.length_range'] at hi
  have hbyte := List.getElem_of_eq h (i := i) (by simpa using hi)
  simp only [List.getElem_map, List.getElem_range', Nat.one_mul] at hbyte
  simp only [List.getElem_map, List.getElem_range', Nat.one_mul, Holding.store,
    List.getElem_mapIdx, ← hbyte]
  show (r.heap.memory.write _ _).byteAt _ = _
  by_cases hin : offset ≤ i ∧ i - offset < bytes.length
  · have hcover : k.start + i - (k.start + offset) = i - offset := by omega
    rw [Memory.byteAt_write_of_covers _ (by omega) (by simp; omega)]
    simp [hin.1, hin.2, hcover]
  · rw [Memory.byteAt_write_of_not_covers _ (by simp; omega)]
    split
    · next hle => rw [List.getElem?_eq_none (by omega), Option.getD_none]
    · rfl

end Region

/-! ## What is kept -/

namespace Custody

variable (c : Custody)

/-- The ranges that are kept and have any bytes. -/
def occupied : List Extent :=
  Extent.solid (c.live.map (·.extent))

theorem live_store (e : Extent) (offset : Nat) (bytes : List UInt8) :
    (c.store e offset bytes).live = c.live.map (·.storeAt e offset bytes) := by
  simp [live, store, List.filter_map, Function.comp_def]

theorem live_lose (address : Nat) :
    (c.lose address).live = c.live.filter fun k => !k.startsAt address := by
  simp [live, lose, List.filter_map, List.filter_filter, Function.comp_def, Bool.and_comm]

theorem live_rearm (serial : Nat) (fate : List UInt8 → Nat → Effect) (handler : Option Nat) :
    (c.rearm serial fate handler).live = c.live := by
  have hkept (g : Registration) : (g.arm serial handler).kept = g.kept := by
    unfold Registration.arm
    split <;> rfl
  have hpayload (g : Registration) : (g.arm serial handler).payload = g.payload := by
    unfold Registration.arm
    split <;> rfl
  simp [live, rearm, List.filter_map, Function.comp_def, hkept, hpayload]

/-- Nobody keeps a buffer that was lost. -/
theorem not_mem_occupied_lose {b : Buffer} (hpos : 0 < b.layout.size) :
    b.extent ∉ (c.lose b.base).occupied := by
  intro hmem
  obtain ⟨k, hk, hextent⟩ := List.mem_map.mp (Extent.mem_solid.mp hmem).1
  rw [live_lose] at hk
  have hstarts := (List.mem_filter.mp hk).2
  simp only [Holding.extent, Buffer.extent, Extent.mk.injEq] at hextent
  simp only [Holding.startsAt, hextent.1, beq_self_eq_true, Bool.true_and, Bool.not_not,
    List.isEmpty_iff] at hstarts
  rw [hstarts, List.length_nil] at hextent
  omega

theorem occupied_store (e : Extent) (offset : Nat) (bytes : List UInt8) :
    (c.store e offset bytes).occupied = c.occupied := by
  simp [occupied, live_store, Function.comp_def]

/-- What is kept and what the session writes into has lots of its own, and memory shows what is
kept. -/
structure Shown {σ : Type} (c : Custody) (s : Session σ) : Prop where
  room : ∀ e, (c.occupied ++ (s.slabs ++ s.region.records)).count e ≤ s.region.lots.count e
  contents_eq : ∀ k ∈ c.live, s.region.contents k.extent = k.bytes

namespace Shown

variable {σ : Type} {c c' : Custody} {s s' : Session σ}

/-- Lots of its own are lots apart. -/
theorem apart (h : c.Shown s) (hsettled : s.region.Settled) :
    (c.occupied ++ (s.slabs ++ s.region.records)).Pairwise Extent.Apart :=
  Extent.pairwise_apart_of_count_le hsettled.lots_apart h.room

theorem mem_occupied {k : Holding} (hk : k ∈ c.live) (hpos : 0 < k.extent.size) :
    k.extent ∈ c.occupied :=
  Extent.mem_solid.mpr ⟨List.mem_map_of_mem hk, hpos⟩

/-- What is kept and has any bytes is a lot. -/
theorem mem_lots (h : c.Shown s) {k : Holding} (hk : k ∈ c.live) (hpos : 0 < k.extent.size) :
    k.extent ∈ s.region.lots := by
  have hroom := h.room k.extent
  have hcount := List.count_pos_iff.mpr (mem_occupied hk hpos)
  rw [List.count_append] at hroom
  exact List.count_pos_iff.mp (by omega)

/-- Two ranges that are kept and share an address are the same range. -/
theorem extent_eq (h : c.Shown s) (hsettled : s.region.Settled) {k l : Holding} (hk : k ∈ c.live)
    (hl : l ∈ c.live) {address : Nat} (hkcovers : k.extent.Covers address)
    (hlcovers : l.extent.Covers address) : k.extent = l.extent := by
  refine Decidable.by_contra fun hne => ?_
  have hoccupied := (List.pairwise_append.mp (h.apart hsettled)).1
  have hapart := hoccupied.forall (mem_occupied hk hkcovers.size_pos)
    (mem_occupied hl hlcovers.size_pos) hne
  exact hapart.not_covers hkcovers hlcovers

/-- Lots that are provided, for users or for tries, disturb nothing. -/
theorem provide (h : c.Shown s) (hsettled : s'.region.Settled) {new : List Extent}
    (hprovides : s.region.Provides s'.region new)
    (hcount : ∀ e, c'.occupied.count e + s'.slabs.count e ≤
      new.count e + (c.occupied.count e + s.slabs.count e))
    (hlive : ∀ k ∈ c'.live, k ∈ c.live ∨ s'.region.contents k.extent = k.bytes) :
    c'.Shown s' where
  room e := by
    have hroom := h.room e
    have hle := hprovides.count_le e
    have hnew := hcount e
    simp only [List.count_append] at hroom ⊢
    omega
  contents_eq k hk := by
    rcases hlive k hk with hold | hnew
    · rw [← h.contents_eq k hold]
      refine Region.contents_congr fun address hcovers => ?_
      refine hprovides.byteAt_eq address fun e he => ?_
      -- what is provided is apart from what was kept before
      have hall : (new ++ c.occupied).Pairwise Extent.Apart := by
        refine Extent.pairwise_apart_of_count_le hsettled.lots_apart fun e => ?_
        have hroom := h.room e
        have hle := hprovides.count_le e
        simp only [List.count_append] at hroom ⊢
        omega
      have hapart := (List.pairwise_append.mp hall).2.2 e he _
        (mem_occupied hold hcovers.size_pos)
      exact hapart.symm.not_covers hcovers
    · exact hnew

/-- Bytes stored through what is kept are shown there, and nothing else is disturbed. -/
theorem store (h : c.Shown s) (hsettled : s.region.Settled) {e : Extent} (he : c.Keeps e)
    (offset : Nat) (bytes : List UInt8) :
    (c.store e offset bytes).Shown
      { s with
        region := s.region.store (e.start + offset) (bytes.take (e.size - offset)).toArray } where
  room := by
    rw [occupied_store]
    exact h.room
  contents_eq k hk := by
    rw [live_store] at hk
    obtain ⟨old, hold, rfl⟩ := List.mem_map.mp hk
    have hshown := h.contents_eq old hold
    rw [Holding.extent_storeAt]
    by_cases hsame : old.extent = e
    · subst hsame
      rw [Holding.storeAt, if_pos rfl]
      exact Region.contents_store hshown offset bytes
    · rw [Holding.storeAt, if_neg hsame, ← hshown]
      refine Region.contents_congr fun address hcovers => ?_
      refine Memory.byteAt_write_of_not_covers _ (Decidable.by_contra fun hin => ?_)
      -- the bytes stay inside their own range
      obtain ⟨owner, howner, rfl⟩ := he
      have hinside : owner.extent.Covers address := by
        simp only [List.size_toArray, List.length_take] at hin
        unfold Extent.Covers Extent.stop
        omega
      exact hsame (h.extent_eq hsettled hold howner hcovers hinside)

/-- What the session writes where memory is its own disturbs nothing. -/
theorem disturb (h : c.Shown s) (hsettled : s.region.Settled) {start : Nat} {bytes : List UInt8}
    (hprivate : ∀ i < bytes.length, s.Private (start + i)) :
    c.Shown { s with region := s.region.store start bytes.toArray } where
  room := h.room
  contents_eq k hk := by
    rw [← h.contents_eq k hk]
    refine Region.contents_congr fun address hcovers => ?_
    refine Memory.byteAt_write_of_not_covers _ (Decidable.by_contra fun hin => ?_)
    rw [List.size_toArray] at hin
    have hown := hprivate (address - start) (by omega)
    rw [Nat.add_sub_cancel' (by omega)] at hown
    obtain ⟨⟨b, hb, hstart, hend⟩, hheaders⟩ :=
      hsettled.lot_in_live (h.mem_lots hk hcovers.size_pos)
    rcases hown with ⟨e, he, hcovered⟩ | ⟨block, hblock, hcovered⟩ | houtside
    · have hoccupied := mem_occupied hk hcovers.size_pos
      have hapart := (List.pairwise_append.mp (h.apart hsettled)).2.2 _ hoccupied e he
      exact hapart.not_covers hcovers hcovered
    · exact (hheaders block hblock).not_covers hcovered hcovers
    · refine houtside b hb ?_
      unfold Extent.Covers at hcovers ⊢
      exact ⟨Nat.le_trans hstart hcovers.1, Nat.lt_of_lt_of_le hcovers.2 hend⟩

variable [RawSource σ]

/-- A large buffer that is freed takes only itself away. -/
theorem lose (h : c.Shown s) (hsettled : s.region.Settled) {address : Nat} {r : Region σ}
    (hop : s.region.free address = (.ok (), r)) (hslabs : ∀ slab ∈ s.slabs, slab.start ≠ address) :
    (c.lose address).Shown { s with region := r } where
  room e := by
    obtain ⟨b, hb, rfl, hlots, hrecords, -⟩ := Region.free_eq_ok hop
    have hroom := h.room e
    have hgone := hlots e
    show List.count e (_ ++ (s.slabs ++ r.records)) ≤ List.count e r.lots
    rw [hrecords]
    by_cases hsame : e = b.extent
    · -- nobody has the buffer: its holders lost it, it is no slab, and records are in blocks
      subst hsame
      have hnone : b.extent ∉ (c.lose b.base).occupied ++ (s.slabs ++ s.region.records) := by
        intro hmem
        rcases List.mem_append.mp hmem with hmem | hmem
        · exact c.not_mem_occupied_lose (hsettled.large_size_pos hb) hmem
        rcases List.mem_append.mp hmem with hmem | hmem
        · exact hslabs _ hmem rfl
        · exact hsettled.large_not_mem_records hb hmem
      rw [List.count_eq_zero_of_not_mem hnone]
      exact Nat.zero_le _
    · -- what else was kept had its lots before
      have hle : (c.lose b.base).occupied.count e ≤ c.occupied.count e := by
        refine List.Sublist.count_le e (List.Sublist.filter _ (List.Sublist.map _ ?_))
        rw [live_lose]
        exact List.filter_sublist
      rw [List.count_append] at hroom ⊢
      rw [List.count_singleton] at hgone
      have hne : (b.extent == e) = false := by simpa using fun heq => hsame heq.symm
      simp only [hne, Bool.false_eq_true, if_false] at hgone
      omega
  contents_eq k hk := by
    obtain ⟨b, -, -, -, -, hmemory, -⟩ := Region.free_eq_ok hop
    rw [live_lose] at hk
    rw [← h.contents_eq k (List.mem_of_mem_filter hk)]
    exact Region.contents_congr fun address _ => by rw [hmemory]

theorem reset (c : Custody) (s : Session σ) :
    c.reset.Shown { s.forget with region := s.region.reset } where
  room e := by
    obtain ⟨hlots, hrecords⟩ := s.region.lots_reset
    simp [occupied, live, Custody.reset, Extent.solid, Session.slabs, Session.forget, hrecords]
  contents_eq k hk := by
    cases hk

end Shown

end Custody

end RegionTrie
