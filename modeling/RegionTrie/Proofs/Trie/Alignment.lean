import RegionTrie.Proofs.Trie.Grove

/-!
# How nodes are aligned

The size of a node is a multiple of what it has to be aligned to, so nodes in one slab are as well
aligned as the slab is. But a slab is aligned to pages and to nothing else. Where pages are at least
as large as the alignment of nodes, every node of every trie is aligned. Where they are smaller, the
size of slabs is rounded up to hold a node, and their alignment is not: a source may grant a slab at
an odd multiple of the page size, and the first node of the trie is misaligned.

## Main definitions

* `Grove.Grown`: a grove that grew in a new region, over a lawful source
* `SlabShape.NodesAt`: in every such grove, nodes of this shape lie at multiples of a number
* `Skewed`: a source that aligns buffers to what was asked for and to no more

## Main results

* `SlabShape.nodesAt_min`: what every node is aligned to
* `Grove.exists_skewed`: a trie whose first node is aligned to pages and to no more
* `SlabShape.nodesAt_nodeAlign_iff`: nodes are aligned exactly on pages that are large enough
-/

namespace RegionTrie

open Region Journal

/-- Of two powers of two the smaller one divides both. -/
theorem min_dvd_of_isPowerOfTwo {m n : Nat} (hm : m.isPowerOfTwo) (hn : n.isPowerOfTwo) :
    min m n ∣ m ∧ min m n ∣ n := by
  obtain ⟨i, rfl⟩ := hm
  obtain ⟨j, rfl⟩ := hn
  rcases Nat.le_total i j with hle | hle
  · have hdvd := Nat.pow_dvd_pow 2 hle
    rw [Nat.min_eq_left (Nat.le_of_dvd (Nat.two_pow_pos j) hdvd)]
    exact ⟨Nat.dvd_refl _, hdvd⟩
  · have hdvd := Nat.pow_dvd_pow 2 hle
    rw [Nat.min_eq_right (Nat.le_of_dvd (Nat.two_pow_pos i) hdvd)]
    exact ⟨hdvd, Nat.dvd_refl _⟩

namespace SlabShape

theorem nodeAlign_dvd_nodeSize (value : Layout) (pageSize : Nat) :
    (ofValue value pageSize).nodeAlign ∣ (ofValue value pageSize).nodeSize :=
  dvd_alignUp _ _

/-- What nodes have to be aligned to is a power of two, as it is for values. -/
theorem isPowerOfTwo_nodeAlign {value : Layout} (h : value.align.isPowerOfTwo) (pageSize : Nat) :
    (ofValue value pageSize).nodeAlign.isPowerOfTwo := by
  show (max linkAlign value.align).isPowerOfTwo
  rcases Nat.le_total linkAlign value.align with hle | hle
  · rwa [Nat.max_eq_right hle]
  · rw [Nat.max_eq_left hle]
    exact ⟨2, rfl⟩

end SlabShape

/-! ## Groves that grew over a lawful source -/

namespace Grove

variable {σ : Type} [RawSource σ]

/-- Everything in the grove happened since its region was new, and the source was lawful. -/
def Grown (g : Grove σ) : Prop :=
  ∃ (c : PoolConfig) (source : σ) (s : Session σ), Session.create c { source } = .ok s ∧
    Steps ⟨s.region, []⟩ g ∧ Lawful g.region.heap.journal

variable {g : Grove σ} {t : Tenant} {b : Buffer}

/-- Slabs lie where their layout says, at multiples of the page size of their trie. -/
theorem Grown.dvd_base (h : g.Grown) (ht : t ∈ g.tenants) (hb : b ∈ t.store.slabBuffers) :
    t.store.shape.slabAlign ∣ b.base := by
  obtain ⟨c, source, s, hs, hsteps, hlawful⟩ := h
  have hcreated : s.region.Balanced [] := Session.balanced_create hs
  have hbalanced : g.region.Balanced [] := hcreated.steps (Steps.region hsteps)
  have htended : g.Tended := hsteps.tended hcreated hlawful
    ⟨fun t ht => absurd ht List.not_mem_nil, fun t ht => absurd ht List.not_mem_nil,
      List.nil_subperm⟩
  -- a slab is tracked, so it was granted and never given back
  have htracked : b ∈ LargeRecord.buffers g.region.pool.large :=
    htended.tracked.subset (List.mem_flatMap.mpr ⟨t, ht, hb⟩)
  have hheld : b ∈ g.region.pool.held := List.mem_append_right _ htracked
  have houtstanding : b ∈ outstanding g.region.heap.journal := by
    rw [← hbalanced.ledger.live_eq]
    exact hbalanced.ledger.perm.symm.subset hheld
  have halign := hlawful.align_dvd_base houtstanding
  obtain ⟨base, -, rfl⟩ := List.mem_map.mp hb
  exact halign

end Grove

namespace SlabShape

/-- Whatever grows over a lawful source, nodes of this shape lie at multiples of `align`. -/
def NodesAt (shape : SlabShape) (align : Nat) : Prop :=
  ∀ (σ : Type) [RawSource σ] (g : Grove σ), g.Grown → ∀ t ∈ g.tenants, t.store.shape = shape →
    ∀ i < t.store.handedOut, ∃ address, t.store.address? i = some address ∧ align ∣ address

variable {value : Layout} {pageSize : Nat}

/-- **What nodes are aligned to.** Nodes lie at multiples of the page size or of what they have to
be aligned to, whichever is smaller. -/
theorem nodesAt_min (hvalue : value.align.isPowerOfTwo) (hpage : pageSize.isPowerOfTwo) :
    (ofValue value pageSize).NodesAt (min pageSize (ofValue value pageSize).nodeAlign) := by
  intro σ _ g hgrown t ht hshape i hi
  obtain ⟨slab, hslab, hextent⟩ := NodeStore.exists_slab hi
  obtain ⟨address, haddress, heq⟩ := Option.map_eq_some_iff.mp hextent
  obtain ⟨rfl, -⟩ := Extent.mk.inj heq
  refine ⟨_, haddress, ?_⟩
  obtain ⟨hdvd, hdvd'⟩ := min_dvd_of_isPowerOfTwo hpage (isPowerOfTwo_nodeAlign hvalue pageSize)
  apply Nat.dvd_add
  · -- the slab is aligned to pages
    have hbase := hgrown.dvd_base ht (List.mem_map_of_mem (List.mem_of_getElem? hslab))
    rw [hshape] at hbase
    exact Nat.dvd_trans hdvd hbase
  · -- and the nodes before this one leave it as well aligned
    rw [hshape]
    exact Nat.dvd_mul_left_of_dvd (Nat.dvd_trans hdvd' (nodeAlign_dvd_nodeSize value pageSize)) _

end SlabShape

/-! ## A source that aligns no more than it must -/

/-- A source that grants every request, each buffer behind what it granted before and at an odd
multiple of the alignment. -/
structure Skewed where
  pageSize : Nat
  frontier : Nat := 0

namespace Skewed

/-- Where the next buffer of an alignment starts. -/
def nextBase (s : Skewed) (align : Nat) : Nat :=
  alignUp s.frontier (2 * align) + align

instance : RawSource Skewed where
  allocate s l := (some (s.nextBase l.align), { s with frontier := s.nextBase l.align + l.size })
  release s _ := s
  pageSize := Skewed.pageSize

/-- A buffer is aligned as asked for. -/
theorem dvd_nextBase (s : Skewed) (align : Nat) : align ∣ s.nextBase align :=
  Nat.dvd_add (Nat.dvd_trans (Nat.dvd_mul_left align 2) (dvd_alignUp _ _)) (Nat.dvd_refl align)

/-- A buffer is aligned to no more than asked for. -/
theorem not_dvd_nextBase (s : Skewed) {align more : Nat} (hpos : 0 < align)
    (hmore : 2 * align ∣ more) : ¬ more ∣ s.nextBase align := by
  intro hdvd
  have htwice : 2 * align ∣ align :=
    (Nat.dvd_add_right (dvd_alignUp s.frontier (2 * align))).mp (Nat.dvd_trans hmore hdvd)
  have hle := Nat.le_of_dvd hpos htwice
  omega

/-- A buffer comes after everything before it. -/
theorem le_nextBase (s : Skewed) {align : Nat} (h : 0 < align) : s.frontier ≤ s.nextBase align :=
  Nat.le_trans (le_alignUp s.frontier (Nat.mul_pos (by decide) h)) (Nat.le_add_right _ _)

/-- Grants were lawful, and what is outstanding lies before everything that comes. -/
structure Stacked (h : Heap Skewed) : Prop where
  lawful : Lawful h.journal
  stop_le : ∀ b ∈ outstanding h.journal, b.extent.stop ≤ h.source.frontier

variable {h : Heap Skewed} {r : Region Skewed}

theorem stacked_empty (source : Skewed) : Stacked { source } :=
  ⟨trivial, fun _ hb => absurd hb List.not_mem_nil⟩

theorem Stacked.note (hs : Stacked h) (event : Event) : Stacked (h.note event) :=
  ⟨hs.lawful, hs.stop_le⟩

/-- The source grants what is asked for, and stays lawful. -/
theorem Stacked.allocate (hs : Stacked h) {l : Layout} (hpos : 0 < l.align) :
    ∃ heap, h.allocate l = (some (h.source.nextBase l.align), heap) ∧ Stacked heap := by
  have hle := h.source.le_nextBase hpos
  refine ⟨_, rfl, ⟨h.source.dvd_nextBase l.align, fun c hc => ?_, hs.lawful⟩, fun c hc => ?_⟩
  · exact .inr (Nat.le_trans (hs.stop_le c hc) hle)
  · rcases List.mem_cons.mp hc with rfl | hold
    · exact Nat.le_refl _
    · have hstop := hs.stop_le c hold
      show c.extent.stop ≤ h.source.nextBase l.align + l.size
      omega

/-- A range is served, from a new block if need be. -/
theorem Stacked.reserve (hs : Stacked r.heap) (size align : Nat) :
    ∃ start r', r.reserve size align = (.ok start, r') ∧ Stacked r'.heap := by
  obtain ⟨heap, hgrant, hheap⟩ :=
    hs.allocate (l := r.pool.config.blockLayout) (by decide : 0 < blockAlign)
  rcases reserve_cases r size align with
    ⟨start, chain, -, heq⟩ | ⟨base, heap', -, hop, heq⟩ | ⟨heap', -, hop, -⟩
  · exact ⟨_, _, heq, hs.lawful, hs.stop_le⟩
  · rw [hgrant] at hop
    cases hop
    exact ⟨_, _, heq, hheap.lawful, hheap.stop_le⟩
  · rw [hgrant] at hop
    cases hop

/-- A buffer of its own is granted, and aligned as asked for and no more. -/
theorem Stacked.allocateAligned (hs : Stacked r.heap) {size align : Nat} (hsize : 0 < size)
    (hvalid : (⟨size, align⟩ : Layout).Valid) :
    ∃ r', r.allocateAligned size align = (.ok (r.heap.source.nextBase align), r') ∧
      Stacked r'.heap := by
  obtain ⟨k, hk⟩ := hvalid.1
  obtain ⟨heap, hgrant, hheap⟩ :=
    hs.allocate (l := ⟨size, align⟩) (Nat.lt_of_lt_of_eq (Nat.two_pow_pos k) hk.symm)
  rcases allocateAligned_cases r size align with
    ⟨hinvalid, -⟩ | ⟨heap', -, -, hop, -⟩ | ⟨base, heap', -, -, hop, heq⟩
  · exact absurd ⟨hsize, hvalid⟩ hinvalid
  · rw [hgrant] at hop
    cases hop
  rw [hgrant] at hop
  cases hop
  -- the record of the buffer has its range, too
  obtain ⟨start, r₁, hreserve, hr₁⟩ :=
    Stacked.reserve (r := { r with heap }) hheap largeRecordSize wordAlign
  rcases link_cases { r with heap } ⟨r.heap.source.nextBase align, ⟨size, align⟩⟩ with
    ⟨address, r', hop, hlink⟩ | ⟨fault, r', hop, -⟩ <;> rw [hreserve] at hop <;> cases hop
  exact ⟨_, heq.trans hlink, hr₁.lawful, hr₁.stop_le⟩

end Skewed

/-! ## Where nodes are misaligned -/

namespace Grove

open SlabShape Skewed

/-- The first node of a trie lies where its first slab does. -/
theorem exists_first_node {shape : SlabShape} {pageSize : Nat} (hpaged : shape.Paged pageSize)
    (hobtainable : shape.Obtainable) {r : Region Skewed} (hs : Stacked r.heap) :
    ∃ (t : Trie UInt32 Unit) (r' : Region Skewed),
      ({ nodes := { shape } } : Trie UInt32 Unit).link r [] none = (.ok (), t, r') ∧
      t.nodes.shape = shape ∧ t.nodes.handedOut = 1 ∧
      t.nodes.address? 0 = some (r.heap.source.nextBase shape.slabAlign) ∧ Stacked r'.heap := by
  obtain ⟨r', hop, hr'⟩ := hs.allocateAligned hobtainable.1 hobtainable.2
  have hpos := hpaged.perSlab_pos
  refine ⟨{ nodes := { shape, slabs := #[r.heap.source.nextBase shape.slabAlign],
                       remaining := shape.perSlab - 1 },
            root := .node 0 none none .absent .absent },
    r'.note (.slabTaken (r.heap.source.nextBase shape.slabAlign) shape.perSlab),
    ?_, rfl, ?_, ?_, hr'.note _⟩
  · -- one node is missing, and it is the first one of a new slab
    have htake : ({ shape } : NodeStore).take r = (.ok 0,
        { shape, slabs := #[r.heap.source.nextBase shape.slabAlign],
          remaining := shape.perSlab - 1 },
        r'.note (.slabTaken (r.heap.source.nextBase shape.slabAlign) shape.perSlab)) := by
      simp [NodeStore.take, NodeStore.carve, NodeStore.replenish, hop, NodeStore.capacity,
        NodeStore.indexBound]
    simp [Trie.link, Branch.get, Branch.missing, NodeStore.takeMany, htake, Branch.graft]
  · show 1 * shape.perSlab - (shape.perSlab - 1) = 1
    omega
  · simp [NodeStore.address?]

/-- Over a source that aligns buffers to no more than it must, a grove grows with a trie whose first
node lies at no multiple of twice the page size. -/
theorem exists_skewed {shape : SlabShape} {pageSize : Nat} (hpaged : shape.Paged pageSize)
    (hobtainable : shape.Obtainable) :
    ∃ (g : Grove Skewed) (t : Tenant), g.Grown ∧ t ∈ g.tenants ∧ t.store.shape = shape ∧
      0 < t.store.handedOut ∧ ∃ address, t.store.address? 0 = some address ∧
        ∀ more, 2 * pageSize ∣ more → ¬ more ∣ address := by
  -- a new region with pages of this size
  obtain ⟨s, hs, hpage, hstacked⟩ : ∃ s : Session Skewed,
      Session.create default { source := { pageSize } } = .ok s ∧
        s.region.heap.pageSize = pageSize ∧ Stacked s.region.heap := by
    obtain ⟨heap, hgrant, hheap⟩ :=
      (stacked_empty { pageSize }).allocate (l := (default : PoolConfig).blockLayout) (by decide)
    cases hgrant
    exact ⟨_, rfl, rfl, hheap.note _⟩
  obtain ⟨t, r', hlink, hshape, hout, haddress, hr'⟩ :=
    exists_first_node hpaged hobtainable hstacked
  have hplant := Step.plant ⟨s.region, []⟩ (hpage.symm ▸ hpaged) UInt32 Unit
  have hroot : ([] : List Bool).length ≤ PrefixKey.width UInt32 := Nat.zero_le _
  have hlinked := Step.link s.region [] [] ({ nodes := { shape } } : Trie UInt32 Unit) hroot none
  rw [hlink] at hlinked
  refine ⟨_, ⟨t⟩, ⟨default, { pageSize }, s, hs, (Relation.ReflTransGen.single hplant).tail hlinked,
    hr'.lawful⟩, List.mem_cons_self, hshape, hout ▸ Nat.one_pos, _, haddress, ?_⟩
  intro more hmore
  rw [hpaged.slabAlign_eq]
  exact not_dvd_nextBase _ hpaged.page_pos hmore

end Grove

namespace SlabShape

/-- **Nodes are aligned on pages that are large enough.** For values of any layout, over any source
that aligns buffers as asked for: nodes lie at multiples of the page size or of the alignment that
they need, whichever is smaller. So on pages of at least that alignment every node of every trie is
aligned. On smaller pages this cannot be relied on, as there are a source and a trie of which the
first node is not. -/
theorem nodesAt_nodeAlign_iff {value : Layout} {pageSize : Nat}
    (hvalue : value.align.isPowerOfTwo) (hpage : pageSize.isPowerOfTwo)
    (hobtainable : (ofValue value pageSize).Obtainable) :
    (ofValue value pageSize).NodesAt (min pageSize (ofValue value pageSize).nodeAlign) ∧
      ((ofValue value pageSize).NodesAt (ofValue value pageSize).nodeAlign ↔
        (ofValue value pageSize).nodeAlign ≤ pageSize) := by
  have hleast := nodesAt_min hvalue hpage
  refine ⟨hleast, ?_, ?_⟩
  · intro haligned
    by_contra hlt
    obtain ⟨g, t, hgrown, ht, hshape, hout, address, haddress, hskewed⟩ :=
      Grove.exists_skewed (paged_ofValue value hpage) hobtainable
    obtain ⟨address', haddress', hdvd⟩ := haligned Skewed g hgrown t ht hshape 0 hout
    rw [haddress] at haddress'
    cases haddress'
    -- a larger power of two is a multiple of twice the page size
    refine hskewed _ ?_ hdvd
    obtain ⟨j, hj⟩ := isPowerOfTwo_nodeAlign hvalue pageSize
    obtain ⟨i, rfl⟩ := hpage
    rw [hj, Nat.not_le, Nat.pow_lt_pow_iff_right (by decide)] at hlt
    rw [hj, ← Nat.pow_succ']
    exact Nat.pow_dvd_pow 2 hlt
  · intro hle
    rwa [Nat.min_eq_right hle] at hleast

/-- Nodes for words of eight bytes are aligned on pages of eight bytes, for instance. On pages of
four bytes, which are enough for the links of a node, they are not. -/
theorem nodesAt_nodeAlign_iff_words :
    (ofValue ⟨8, 8⟩ 8).NodesAt 8 ∧ (ofValue ⟨8, 8⟩ 4).NodesAt 4 ∧ ¬ (ofValue ⟨8, 8⟩ 4).NodesAt 8 := by
  have hword : (8 : Nat).isPowerOfTwo := ⟨3, rfl⟩
  have hlink : (4 : Nat).isPowerOfTwo := ⟨2, rfl⟩
  have hlarge : (ofValue ⟨8, 8⟩ 8).Obtainable := ⟨by decide, hword, by decide⟩
  have hsmall : (ofValue ⟨8, 8⟩ 4).Obtainable := ⟨by decide, hlink, by decide⟩
  refine ⟨?_, ?_, fun haligned => ?_⟩
  · exact (nodesAt_nodeAlign_iff hword hword hlarge).2.mpr (by decide)
  · exact (nodesAt_nodeAlign_iff hword hlink hsmall).1
  · exact absurd ((nodesAt_nodeAlign_iff hword hlink hsmall).2.mp haligned) (by decide)

end SlabShape

namespace Grove

/-- A trie for single bytes, on pages of two bytes. Its nodes need an alignment of four, but its slab
is asked for with an alignment of two. A source that aligns it as asked for puts the root elsewhere
than at a multiple of four. -/
theorem misaligned_on_small_pages :
    ∃ s g, Session.create (.withSize 256) { source := ({ pageSize := 2 } : Skewed) } = .ok s ∧
      g = (⟨s.region, []⟩ : Grove Skewed).create UInt32 Nat ⟨1, 1⟩ .none ∧
      Lawful g.region.heap.journal ∧
      g.tenants.map (fun t => (t.store.shape.nodeAlign, t.store.address? 0)) = [(4, some 274)] ∧
      .granted ⟨274, ⟨28, 2⟩⟩ ∈ g.region.heap.journal ∧ ¬ 4 ∣ 274 := by
  have hcheck :
      (match Session.create (.withSize 256) { source := ({ pageSize := 2 } : Skewed) } with
      | .ok s =>
        let g := (⟨s.region, []⟩ : Grove Skewed).create UInt32 Nat ⟨1, 1⟩ .none
        decide (Lawful g.region.heap.journal ∧
          g.tenants.map (fun t => (t.store.shape.nodeAlign, t.store.address? 0)) =
            [(4, some 274)] ∧
          .granted ⟨274, ⟨28, 2⟩⟩ ∈ g.region.heap.journal)
      | .error _ => false) = true := by
    decide +kernel
  rcases h : Session.create (.withSize 256) { source := ({ pageSize := 2 } : Skewed) } with
    ⟨fault, heap⟩ | s <;> rw [h] at hcheck
  · cases hcheck
  · obtain ⟨hlawful, hnodes, hgranted⟩ := of_decide_eq_true hcheck
    exact ⟨s, _, rfl, rfl, hlawful, hnodes, hgranted, by decide⟩

end Grove

end RegionTrie
