import RegionTrie.Proofs.Region.Acquisition
import RegionTrie.Proofs.Trie.Levels

/-!
# Creating a trie

The creation of a trie asks its region for slabs and for nothing else. If all of them are granted,
the trie is complete up to the depth asked for; if one is declined, the creation ends with that
fault, and the slabs granted before it stay with the region. A depth that is too large is refused
before anything is asked for.

## Main definitions

* `Trie.createSigned`: creation with the depth packed into a signed number
* `Region.Proceeds`: what becomes of a region in the course of a creation

## Main results

* `NodeStore.proceeds_takeMany`, `Trie.proceeds_link`: taking nodes and linking a path proceed
* `Trie.proceeds_create`: and so does a creation
* `Trie.create_exact`: how creations end
-/

namespace RegionTrie

/-- The fault of an outcome, if it is one. -/
def faultOf {α : Type} : Except Fault α → Option Fault
  | .ok _ => none
  | .error fault => some fault

variable {σ : Type}

namespace Region

/-- From one region to another, requests for buffers of a layout were made, one after the other, and
the last step ended in a fault or not. Every buffer that was granted is live and tracked, a request
that was declined is the fault, and the fault is not that of a depth. -/
structure Proceeds (l : Layout) (r : Region σ) (requests : List (Except Fault Unit))
    (fault : Option Fault) (r' : Region σ) : Prop where
  acquires : Acquires l (requests.countP Except.toBool) r r'
  declined : ∀ cause, .error cause ∈ requests → fault = some cause
  depth : ∀ n, fault ≠ some (.invalidDepth n)

namespace Proceeds

variable {l : Layout} {r r₁ r₂ : Region σ} {requests rest : List (Except Fault Unit)}
  {fault : Option Fault}

theorem nothing (r : Region σ) (hdepth : ∀ n, fault ≠ some (.invalidDepth n)) :
    Proceeds l r [] fault r where
  acquires := .refl r
  declined _ h := by cases h
  depth := hdepth

theorem idle (r : Region σ) : Proceeds l r [] none r :=
  nothing r fun n heq => by cases heq

/-- After a step without a fault comes the next one. -/
theorem append (h : Proceeds l r requests none r₁) (h₁ : Proceeds l r₁ rest fault r₂) :
    Proceeds l r (requests ++ rest) fault r₂ where
  acquires := by
    rw [List.countP_append]
    exact h.acquires.trans h₁.acquires
  declined cause hmem := by
    rcases List.mem_append.mp hmem with hfirst | hrest
    · cases h.declined cause hfirst
    · exact h₁.declined cause hrest
  depth := h₁.depth

/-- A step without a fault may turn out to be in vain for another reason. -/
theorem fail (h : Proceeds l r requests none r₁) (hdepth : ∀ n, fault ≠ some (.invalidDepth n)) :
    Proceeds l r requests fault r₁ where
  acquires := h.acquires
  declined cause hmem := by cases h.declined cause hmem
  depth := hdepth

end Proceeds

variable [RawSource σ]

/-- A buffer of its own is asked for by one request. -/
theorem proceeds_allocateAligned (r : Region σ) (size align : Nat) :
    Proceeds ⟨size, align⟩ r [(r.allocateAligned size align).1.map fun _ => ()]
      (faultOf (r.allocateAligned size align).1) (r.allocateAligned size align).2 := by
  have hacquires := acquires_allocateAligned r size align
  have hdepth : ∀ n, (r.allocateAligned size align).1 ≠ .error (.invalidDepth n) := by
    intro n hfault
    rcases hop : r.allocateAligned size align with ⟨fault | base, r'⟩ <;> rw [hop] at hfault <;>
      cases hfault
    by_cases hvalid : 0 < size ∧ (⟨size, align⟩ : Layout).Valid
    · obtain ⟨_, _, hexhausted⟩ := fault_of_allocateAligned hvalid.1 hvalid.2 hop
      cases hexhausted
    · rw [allocateAligned, if_neg hvalid] at hop
      cases hop
  rcases hop : r.allocateAligned size align with ⟨fault | base, r'⟩ <;>
    rw [hop] at hacquires hdepth
  · exact ⟨hacquires, by simp [Except.map, faultOf],
      fun n heq => hdepth n (congrArg Except.error (Option.some.inj heq))⟩
  · exact ⟨hacquires, by simp [Except.map], fun n heq => by cases heq⟩

end Region

open Region

namespace NodeStore

variable [RawSource σ]

theorem proceeds_replenish (s : NodeStore) (r : Region σ) :
    Proceeds ⟨s.shape.slabSize, s.shape.slabAlign⟩ r (s.replenishRequests r)
      (faultOf (s.replenish r).1) (s.replenish r).2.2 := by
  unfold replenishRequests replenish
  split
  · have hslab := proceeds_allocateAligned r s.shape.slabSize s.shape.slabAlign
    rcases hop : r.allocateAligned s.shape.slabSize s.shape.slabAlign with ⟨fault | slab, r'⟩ <;>
      rw [hop] at hslab
    · exact hslab
    · exact ⟨hslab.acquires.note _, hslab.declined, hslab.depth⟩
  · exact .idle r

theorem proceeds_take (s : NodeStore) (r : Region σ) :
    Proceeds ⟨s.shape.slabSize, s.shape.slabAlign⟩ r (s.takeRequests r)
      (faultOf (s.take r).1) (s.take r).2.2 := by
  unfold takeRequests take
  cases s.free with
  | cons index free => exact .idle r
  | nil =>
    have hslab := s.proceeds_replenish r
    unfold carve
    rcases hop : s.replenish r with ⟨fault | ⟨⟩, s', r'⟩ <;> rw [hop] at hslab
    · exact hslab
    · dsimp only
      split
      · exact hslab
      · exact hslab.fail fun n heq => by cases heq

/-- Taking nodes asks for slabs one after the other. -/
theorem proceeds_takeMany {s : NodeStore} (hs : s.Sound) (r : Region σ) (n : Nat) :
    Proceeds ⟨s.shape.slabSize, s.shape.slabAlign⟩ r (s.takeManyRequests r n)
      (s.takeMany r n).1.fault (s.takeMany r n).2.2 := by
  induction n generalizing s r with
  | zero => exact .idle r
  | succ n ih =>
    have hone := s.proceeds_take r
    rw [takeManyRequests, takeMany]
    rcases take_supply hs r with ⟨index, s', r', heq, hnext⟩ | ⟨fault, s', r', heq, -⟩ <;>
      rw [heq] at hone ⊢
    · have hrest := ih hnext.sound r'
      rw [hnext.shape] at hrest
      exact hone.append hrest
    · rw [List.append_nil]
      exact hone

end NodeStore

namespace Trie

open NodeStore

variable {K V : Type} [RawSource σ]

/-- Linking a path asks for the slabs that its nodes need. -/
theorem proceeds_link {t : Trie K V} (ht : t.nodes.Sound) (r : Region σ) (path : List Bool)
    (value : Option V) :
    Proceeds ⟨t.nodes.shape.slabSize, t.nodes.shape.slabAlign⟩ r (t.linkRequests r path)
      (faultOf (t.link r path value).1) (t.link r path value).2.2 := by
  have htake := proceeds_takeMany ht r (t.root.missing path)
  unfold linkRequests link
  split
  · exact .nothing r fun n heq => by cases heq
  · rcases hop : t.nodes.takeMany r (t.root.missing path) with ⟨⟨indices, fault⟩, nodes, r'⟩
    rw [hop] at htake
    cases fault <;> exact htake

variable [PrefixKey K] {shape : SlabShape}

theorem proceeds_linkLevel {t : Trie K V} (ht : t.nodes.Sound ∧ t.nodes.shape = shape)
    (r : Region σ) (length first count : Nat) :
    Proceeds ⟨shape.slabSize, shape.slabAlign⟩ r (t.linkLevelRequests r length first count)
        (faultOf (t.linkLevel r length first count).1) (t.linkLevel r length first count).2.2 ∧
      (t.linkLevel r length first count).2.1.nodes.Sound ∧
      (t.linkLevel r length first count).2.1.nodes.shape = shape := by
  induction count generalizing t r first with
  | zero => exact ⟨.idle r, ht⟩
  | succ count ih =>
    let path := PrefixKey.selected (PrefixKey.ofPrefix first length : K) (PrefixKey.mask length)
    have hone := proceeds_link ht.1 r path none
    obtain ⟨indices, hsupplied⟩ := supplies_link ht.1 r path none
    have hlinked := And.intro hsupplied.sound (hsupplied.shape.trans ht.2)
    rw [ht.2] at hone
    simp only [linkLevelRequests, linkLevel]
    rcases hop : t.link r path none with ⟨fault | ⟨⟩, t', r'⟩ <;> rw [hop] at hone hlinked
    · rw [List.append_nil]
      exact ⟨hone, hlinked⟩
    · obtain ⟨hrest, hall⟩ := ih hlinked r' (first + 1)
      exact ⟨hone.append hrest, hall⟩

theorem proceeds_linkLevels {t : Trie K V} (ht : t.nodes.Sound ∧ t.nodes.shape = shape)
    (r : Region σ) (first count : Nat) :
    Proceeds ⟨shape.slabSize, shape.slabAlign⟩ r (t.linkLevelsRequests r first count)
      (faultOf (t.linkLevels r first count).1) (t.linkLevels r first count).2.2 := by
  induction count generalizing t r first with
  | zero => exact .idle r
  | succ count ih =>
    obtain ⟨hone, hall⟩ := proceeds_linkLevel ht r first 0 (1 <<< first)
    rw [linkLevelsRequests, linkLevels]
    rcases hop : t.linkLevel r first 0 (1 <<< first) with ⟨fault | ⟨⟩, t', r'⟩ <;>
      rw [hop] at hone hall
    · rw [List.append_nil]
      exact hone
    · exact hone.append (ih hall r' (first + 1))

/-- **A creation** asks for slabs one after the other, unless the depth is too large. -/
theorem proceeds_create (value : Layout) (p : Preallocation) (r : Region σ)
    (hfits : ¬ min (PrefixKey.width K) deepestPreallocation <
      p.levels (.ofValue value r.heap.pageSize)) :
    Proceeds ⟨(SlabShape.ofValue value r.heap.pageSize).slabSize,
        (SlabShape.ofValue value r.heap.pageSize).slabAlign⟩ r (createRequests K V value p r)
      (faultOf (create (K := K) (V := V) value p r).1)
      (create (K := K) (V := V) value p r).2 := by
  have hbare : (bare value r.heap.pageSize : Trie K V).nodes.Sound :=
    sound_empty value r.heap.pageSize
  have htop := proceeds_link hbare r [] none
  obtain ⟨indices, hsupplied⟩ := supplies_link hbare r [] none
  have hlinked := And.intro hsupplied.sound hsupplied.shape
  unfold createRequests create
  simp only [if_neg hfits]
  rcases hop : (bare value r.heap.pageSize : Trie K V).link r [] none with ⟨fault | ⟨⟩, top, r₁⟩ <;>
    rw [hop] at htop hlinked <;> unfold bare at hop <;> rw [hop]
  · rw [List.append_nil]
    exact htop
  · have hbelow := proceeds_linkLevels hlinked r₁ 1
      (p.levels (.ofValue value r.heap.pageSize))
    dsimp only
    rcases hlevels : top.linkLevels r₁ 1 (p.levels (.ofValue value r.heap.pageSize)) with
      ⟨fault | ⟨⟩, t, r₂⟩ <;> rw [hlevels] at hbelow
    · exact htop.append hbelow
    · have hall := htop.append hbelow
      refine ⟨?_, hall.declined, hall.depth⟩
      dsimp only
      split
      · exact hall.acquires
      · exact hall.acquires.note _

/-! ## How creations end -/

/-- Create a trie that is laid out as a signed number says. -/
def createSigned (value : Layout) (n : Int) (r : Region σ) : Except Fault (Trie K V) × Region σ :=
  match Preallocation.ofSigned n with
  | .error fault => (.error fault, r)
  | .ok p => create value p r

/-- A depth that is not too large is no reason to refuse a creation. -/
theorem create_ne_invalidDepth {value : Layout} {p : Preallocation} {r : Region σ}
    (hwidth : deepestPreallocation ≤ PrefixKey.width K)
    (hdepth : p.levels (.ofValue value r.heap.pageSize) ≤ deepestPreallocation) (n : Int) :
    (create (K := K) (V := V) value p r).1 ≠ .error (.invalidDepth n) := by
  have hproceeds := proceeds_create (K := K) (V := V) value p r
    (by rwa [Nat.min_eq_right hwidth, Nat.not_lt])
  intro hfault
  rw [hfault] at hproceeds
  exact hproceeds.depth n rfl

theorem levels_default_le (shape : SlabShape) : Preallocation.default.levels shape ≤ 8 := by
  show shape.defaultDepth ≤ 8
  unfold SlabShape.defaultDepth
  split <;> decide

/-- A depth that is too large is refused before anything is asked for. -/
theorem create_tooDeep {value : Layout} {p : Preallocation} {r : Region σ}
    (hwidth : deepestPreallocation ≤ PrefixKey.width K)
    (hdepth : deepestPreallocation < p.levels (.ofValue value r.heap.pageSize)) :
    create (K := K) (V := V) value p r =
      (.error (.invalidDepth (p.levels (.ofValue value r.heap.pageSize))), r) := by
  unfold create
  rw [Nat.min_eq_right hwidth]
  exact if_pos hdepth

/-- **A signed number is refused as a depth** below minus one and above the deepest preallocation,
before anything is asked for, and no other number is. -/
theorem createSigned_invalidDepth (hwidth : deepestPreallocation ≤ PrefixKey.width K)
    (value : Layout) (n : Int) (r : Region σ) :
    (n < -1 ∨ deepestPreallocation < n →
      createSigned (K := K) (V := V) value n r = (.error (.invalidDepth n), r)) ∧
    (¬ (n < -1 ∨ deepestPreallocation < n) →
      ∀ m, (createSigned (K := K) (V := V) value n r).1 ≠ .error (.invalidDepth m)) := by
  have hdeepest : deepestPreallocation = 32 := rfl
  have hbound : Preallocation.depthBound = 4294967296 := rfl
  unfold createSigned Preallocation.ofSigned
  by_cases hzero : n = 0
  · -- the root alone
    simp only [if_pos hzero]
    exact ⟨fun hbad => by omega, fun _ => create_ne_invalidDepth hwidth (Nat.zero_le _)⟩
  by_cases hminus : n = -1
  · -- the default depth
    simp only [if_neg hzero, if_pos hminus]
    exact ⟨fun hbad => by omega, fun _ =>
      create_ne_invalidDepth hwidth (Nat.le_trans (levels_default_le _) (by decide))⟩
  by_cases hnamed : 0 < n ∧ n < Preallocation.depthBound
  · -- a depth that can be named, and may be too large nevertheless
    simp only [if_neg hzero, if_neg hminus, if_pos hnamed]
    have hself : (n.toNat : Int) = n := Int.toNat_of_nonneg (Int.le_of_lt hnamed.1)
    refine ⟨fun hbad => ?_, fun hgood => create_ne_invalidDepth hwidth ?_⟩
    · rw [create_tooDeep (p := .depth n.toNat) hwidth (by show _ < n.toNat; omega)]
      show _ = (Except.error (Fault.invalidDepth n), r)
      rw [← hself]
      rfl
    · show n.toNat ≤ _
      omega
  · simp only [if_neg hzero, if_neg hminus, if_neg hnamed]
    exact ⟨fun _ => trivial, fun hgood => absurd hgood (by omega)⟩

/-- A depth that can be laid out can be named by a number. -/
theorem exists_ofSigned {depth : Nat} (h : depth ≤ deepestPreallocation) :
    ∃ p, Preallocation.ofSigned depth = .ok p ∧ ∀ shape, p.levels shape = depth := by
  have hbound : deepestPreallocation < Preallocation.depthBound := by decide
  cases depth with
  | zero => exact ⟨.none, rfl, fun _ => rfl⟩
  | succ depth =>
    refine ⟨.depth (depth + 1), ?_, fun _ => rfl⟩
    unfold Preallocation.ofSigned
    rw [if_neg (by omega), if_neg (by omega), if_pos (by omega)]
    rfl

/-- What a failed creation leaves: it ends with the fault of a request that was declined, and all
buffers that were granted are live and tracked. -/
theorem create_declined (hwidth : deepestPreallocation ≤ PrefixKey.width K) (value : Layout)
    (p : Preallocation) (r : Region σ) :
    (∀ fault, .error fault ∈ createRequests K V value p r →
      (create (K := K) (V := V) value p r).1 = .error fault) ∧
    Region.Acquires ⟨(SlabShape.ofValue value r.heap.pageSize).slabSize,
        (SlabShape.ofValue value r.heap.pageSize).slabAlign⟩
      ((createRequests K V value p r).countP Except.toBool) r
      (create (K := K) (V := V) value p r).2 := by
  by_cases hdepth : deepestPreallocation < p.levels (.ofValue value r.heap.pageSize)
  · have hnone : createRequests K V value p r = [] := by
      unfold createRequests
      rw [Nat.min_eq_right hwidth]
      exact if_pos hdepth
    rw [hnone, create_tooDeep hwidth hdepth]
    exact ⟨fun fault hmem => (by cases hmem), .refl r⟩
  · have hproceeds := proceeds_create (K := K) (V := V) value p r
      (by rwa [Nat.min_eq_right hwidth])
    refine ⟨fun fault hmem => ?_, hproceeds.acquires⟩
    have hfault := hproceeds.declined fault hmem
    rcases hop : (create (K := K) (V := V) value p r).1 with fault' | t <;> rw [hop] at hfault
    · rw [Option.some.inj hfault]
    · cases hfault

variable [LawfulPrefixKey K]

/-- **How creations end**, for keys of at least 32 bits, as keys of all four types are. If all slabs
that it asks for are granted, the creation of a trie to a depth of at most 31, which may be given as
such, as a signed number or by default, succeeds, and the trie is complete up to this depth. A
signed number is refused as a depth, before anything is asked for, if it is below minus one or above
32, and otherwise a creation never ends with such a refusal. If a slab is declined, the creation
ends with the fault of that request; and in any case all slabs that were granted, of the size and
alignment that slabs have, are live and tracked by the region. -/
theorem create_exact (hwidth : deepestPreallocation ≤ PrefixKey.width K) (value : Layout)
    (r : Region σ) :
    let shape := SlabShape.ofValue value r.heap.pageSize
    (∀ p : Preallocation, p.levels shape ≤ 31 →
      (∀ outcome ∈ createRequests K V value p r, outcome = .ok ()) →
        ∃ (t : Trie K V) (r' : Region σ), create value p r = (.ok t, r') ∧
          t.Complete (p.levels shape) ∧ t.nodes.shape = shape) ∧
    (∀ depth : Nat, depth ≤ 31 →
      ∃ p, Preallocation.ofSigned depth = .ok p ∧ p.levels shape = depth) ∧
    (Preallocation.ofSigned (-1) = .ok .default ∧ Preallocation.default.levels shape ≤ 8) ∧
    (∀ n : Int,
      (n < -1 ∨ 32 < n →
        createSigned (K := K) (V := V) value n r = (.error (.invalidDepth n), r)) ∧
      (¬ (n < -1 ∨ 32 < n) →
        ∀ m, (createSigned (K := K) (V := V) value n r).1 ≠ .error (.invalidDepth m))) ∧
    ∀ p : Preallocation,
      (∀ fault, .error fault ∈ createRequests K V value p r →
        (create (K := K) (V := V) value p r).1 = .error fault) ∧
      Region.Acquires ⟨shape.slabSize, shape.slabAlign⟩
        ((createRequests K V value p r).countP Except.toBool) r
        (create (K := K) (V := V) value p r).2 := by
  intro shape
  refine ⟨?_, ?_, ⟨rfl, levels_default_le shape⟩, ?_, ?_⟩
  · intro p hdepth hgranted
    exact complete_of_granted hwidth (Nat.lt_succ_of_le hdepth) hgranted
  · intro depth hdepth
    obtain ⟨p, hp, hlevels⟩ := exists_ofSigned (Nat.le_trans hdepth (by decide))
    exact ⟨p, hp, hlevels shape⟩
  · exact fun n => createSigned_invalidDepth hwidth value n r
  · exact fun p => create_declined hwidth value p r

/-- A trie is complete, for instance, where a numbered source grants its one slab. -/
theorem create_exact_tracked :
    deepestPreallocation ≤ PrefixKey.width UInt32 ∧
      ∃ (t : Trie UInt32 Nat) (r : Region Tracker),
        create ⟨8, 8⟩ (.depth 3) (trackedRegion 1024) = (.ok t, r) ∧ t.Complete 3 := by
  have hwidth : deepestPreallocation ≤ PrefixKey.width UInt32 := by decide
  have hgranted : ∀ outcome ∈ createRequests UInt32 Nat ⟨8, 8⟩ (.depth 3) (trackedRegion 1024),
      outcome = .ok () := by
    decide +kernel
  obtain ⟨t, r, heq, hcomplete, -⟩ :=
    (create_exact hwidth ⟨8, 8⟩ (trackedRegion 1024)).1 (.depth 3) (by decide) hgranted
  exact ⟨hwidth, t, r, heq, hcomplete⟩

end Trie

end RegionTrie
