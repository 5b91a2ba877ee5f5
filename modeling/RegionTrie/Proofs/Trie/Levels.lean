import RegionTrie.Proofs.Key.Bits
import RegionTrie.Proofs.Trie.HighWater
import RegionTrie.Proofs.Trie.Structure

/-!
# Levels laid out in advance

A trie is laid out level by level, and each level from the least prefix to the greatest. So every
prefix finds the one before its last bit linked already and lacks one node, which is the next by
number: the nodes are numbered in the order of their length and, among those of one length, in the
order of the number that the bits read as.

## Main definitions

* `Trie.Complete`: a trie of all bit strings up to a length, and nothing else
* `Trie.Laid`: a trie that is laid out up to some prefix

## Main results

* `Trie.Laid.link`: linking the next prefix
* `Trie.Laid.linkLevel`, `Trie.Laid.linkLevels`: linking the rest of a level, and so many levels
* `Trie.complete_of_granted`: a trie is complete if all slabs that it asks for are granted
-/

namespace RegionTrie.Trie

open NodeStore

variable {K V σ : Type} [PrefixKey K]

/-- The trie links all bit strings up to a length and no others, numbered by length and, for one
length, by the number that they read as; its nodes fill as few slabs as can be, and no value is
stored. -/
structure Complete (t : Trie K V) (depth : Nat) : Prop where
  reach : ∀ path, t.reach path =
    if path.length ≤ depth then some (2 ^ path.length - 1 + bitsNumber path) else none
  nodeCount : t.nodeCount = 2 ^ (depth + 1) - 1
  freeCount : t.freeCount = 0
  slabCount : t.slabCount = (2 ^ (depth + 1) - 1) ⌈/⌉ t.nodes.shape.perSlab
  size : t.size = 0
  find : ∀ key, t.find key = none
  get : ∀ key mask, t.get key mask = none

/-- The trie is laid out up to some prefix: it links the bit strings that are shorter than `length`,
and those of this length that read as a number below `count`. -/
structure Laid (t : Trie K V) (shape : SlabShape) (length count : Nat) : Prop where
  wellFormed : t.WellFormed
  vacant : t.Vacant
  snug : t.nodes.Snug
  shape : t.nodes.shape = shape
  free : t.nodes.free = []
  handedOut : t.nodes.handedOut = 2 ^ length - 1 + count
  index : ∀ path, (t.root.after path).index? =
    if path.length < length ∨ path.length = length ∧ bitsNumber path < count then
      some (2 ^ path.length - 1 + bitsNumber path)
    else none

namespace Laid

variable {t : Trie K V} {shape : SlabShape} {length count : Nat}

theorem bare (value : Layout) (pageSize : Nat) :
    (Trie.bare value pageSize : Trie K V).Laid (.ofValue value pageSize) 0 0 where
  wellFormed := wellFormed_bare value pageSize
  vacant := ⟨rfl, Branch.get_absent⟩
  snug := snug_empty _
  shape := rfl
  free := rfl
  handedOut := by simp [Trie.bare, NodeStore.handedOut, capacity]
  index path := by simp [Trie.bare, Branch.index?]

/-- After the last prefix of one length comes the first one of the next. -/
theorem next (h : t.Laid shape length (2 ^ length)) : t.Laid shape (length + 1) 0 where
  wellFormed := h.wellFormed
  vacant := h.vacant
  snug := h.snug
  shape := h.shape
  free := h.free
  handedOut := by
    have hpos := Nat.two_pow_pos length
    rw [h.handedOut, Nat.pow_succ]
    omega
  index path := by
    rw [h.index]
    refine if_congr ⟨?_, fun hlonger => ?_⟩ rfl rfl
    · rintro (hshort | ⟨hlen, -⟩) <;> omega
    · have hlt := bitsNumber_lt path
      rcases Nat.lt_or_eq_of_le (show path.length ≤ length by omega) with hshort | hlen
      · exact .inl hshort
      · exact .inr ⟨hlen, by rwa [hlen] at hlt⟩

/-- A trie that is laid out up to some length is complete. -/
theorem complete {depth : Nat} (h : t.Laid shape (depth + 1) 0) (hdepth : depth < 32) :
    t.Complete depth := by
  have hrooted : t.Rooted := by
    have hroot := h.index []
    rwa [Branch.after_nil, if_pos (.inl (Nat.succ_pos depth))] at hroot
  have hcount := h.wellFormed.nodeCount_add_freeCount
  have hnone : t.freeCount = 0 := congrArg List.length h.free
  have hout : t.nodes.handedOut = 2 ^ (depth + 1) - 1 := h.handedOut
  constructor
  case reach =>
    intro path
    rw [WellFormed.reach_eq ⟨h.wellFormed, hrooted⟩, h.index]
    exact if_congr (by omega) rfl rfl
  case nodeCount => omega
  case freeCount => exact hnone
  case slabCount =>
    have hfew : 2 ^ (depth + 1) ≤ 2 ^ 32 := Nat.pow_le_pow_right (by decide) hdepth
    have hpos := Nat.two_pow_pos (depth + 1)
    rw [← hout]
    refine h.snug.slabs_eq h.wellFormed.store ?_
    show t.nodes.handedOut < 2 ^ 32
    omega
  case size => exact h.vacant.1
  case find => exact fun key => Branch.find_eq_none_iff.mpr fun q _ => h.vacant.2 q
  case get => exact fun key mask => h.vacant.2 _

/-- The next prefix lacks one node. -/
theorem missing_eq_one (h : t.Laid shape length count) (hcount : count < 2 ^ length) :
    t.root.missing (numberBits count length) = 1 := by
  have hlast : (t.root.after (numberBits count length)).index? = none := by
    rw [h.index, length_numberBits, bitsNumber_numberBits hcount, if_neg (by omega)]
  have hlack := Branch.index_after_eq_none_iff.mp hlast
  cases length with
  | zero =>
    -- the empty prefix is that of the root, and there is no node yet
    cases hroot : t.root with
    | absent => rfl
    | node i up v zero one =>
      rw [hroot] at hlack
      exact absurd rfl hlack
  | succ length =>
    -- what comes before the last bit is shorter, so it is linked
    rw [numberBits_succ, Branch.missing_concat] at hlack ⊢
    have hfront : t.root.missing (numberBits (count / 2) length) = 0 := by
      rw [Branch.missing_eq_zero_iff, Branch.holds_iff_index]
      refine ⟨_, (h.index _).trans (if_pos (.inl ?_))⟩
      rw [length_numberBits]
      exact Nat.lt_succ_self length
    have hone := Bool.toNat_le
      (t.root.after (numberBits (count / 2) length ++ [count.testBit 0])).isAbsent
    omega

variable [RawSource σ] {r : Region σ}

/-- **Linking the next prefix** puts in one node, with the next number. -/
theorem link (h : t.Laid shape length count) (hcount : count < 2 ^ length)
    (hlength : length ≤ PrefixKey.width K)
    (hok : (t.link r (numberBits count length) none).1 = .ok ()) :
    (t.link r (numberBits count length) none).2.1.Laid shape length (count + 1) := by
  have hfits : (numberBits count length).length ≤ PrefixKey.width K := by
    rwa [length_numberBits]
  have hwell := h.wellFormed.link r hfits none
  have hvacant := h.vacant.link r (numberBits count length)
  have hsnug := snug_link h.snug h.wellFormed.store r (numberBits count length) none
  have hmissing := h.missing_eq_one hcount
  obtain ⟨taken, nodes, r', -, htake, hfault, heq⟩ := link_of_ok hok
  rw [heq] at hwell hvacant hsnug ⊢
  rw [hmissing] at htake
  obtain ⟨-, -, -, -, hiff, -⟩ := takeMany_spec h.wellFormed.store h.wellFormed.accounts htake
  have htaken := supplies_takeMany h.wellFormed.store r 1
  rw [htake] at htaken
  -- with an empty stack, the one node taken is the next by number
  have hnumber : taken.indices = [2 ^ length - 1 + count] := by
    rw [htaken.upcoming, hiff.mp hfault, upcoming, h.free, h.handedOut]
    rfl
  refine ⟨hwell, hvacant, hsnug, htaken.shape.trans h.shape, ?_, ?_, fun path => ?_⟩
  · rw [htaken.free, h.free, List.drop_nil]
  · rw [htaken.handedOut, hnumber, h.free, h.handedOut]
    rfl
  · show ((t.root.graft none none _ taken.indices).after path).index? = _
    rw [hnumber, Branch.index_after_graft_one hmissing, h.index]
    by_cases hpath : path = numberBits count length
    · rw [if_pos hpath, hpath, length_numberBits, bitsNumber_numberBits hcount,
        if_pos (.inr ⟨rfl, Nat.lt_succ_self count⟩)]
    · rw [if_neg hpath]
      refine if_congr ?_ rfl rfl
      -- another prefix of that length reads as another number
      have hne : path.length = length → bitsNumber path ≠ count := by
        rintro rfl rfl
        exact hpath (numberBits_bitsNumber path).symm
      constructor
      · rintro (hshort | ⟨hlen, hlt⟩)
        · exact .inl hshort
        · exact .inr ⟨hlen, by omega⟩
      · rintro (hshort | ⟨hlen, hlt⟩)
        · exact .inl hshort
        · have hnot := hne hlen
          exact .inr ⟨hlen, by omega⟩

/-- The next prefix is linked if the slab that it may need is granted. -/
theorem link_ok (h : t.Laid shape length count) (hcount : count < 2 ^ length) (hdeep : length < 32)
    (hgranted : ∀ outcome ∈ t.linkRequests r (numberBits count length), outcome = .ok ()) :
    (t.link r (numberBits count length) none).1 = .ok () := by
  refine link_of_granted h.wellFormed.store (h.vacant.2 _) hgranted (fun _ => ?_) none
  -- there is a number for the node
  have hbound : 2 ^ (length + 1) ≤ 2 ^ 32 := Nat.pow_le_pow_right (by decide) hdeep
  have hpos := Nat.two_pow_pos length
  rw [h.missing_eq_one hcount, h.free, h.handedOut]
  rw [Nat.pow_succ] at hbound
  show 2 ^ length - 1 + count + 1 ≤ 2 ^ 32
  omega

section Lawful

variable [LawfulPrefixKey K] (hwidth : deepestPreallocation ≤ PrefixKey.width K)

include hwidth

/-- Linking more prefixes of one length. -/
theorem linkLevel {first : Nat} (h : t.Laid shape length first) (hdeep : length < 32)
    (hcount : first + count ≤ 2 ^ length)
    (hgranted : ∀ outcome ∈ t.linkLevelRequests r length first count, outcome = .ok ()) :
    ∃ t' r', t.linkLevel r length first count = (.ok (), t', r') ∧
      t'.Laid shape length (first + count) := by
  induction count generalizing t r first with
  | zero => exact ⟨t, r, rfl, h⟩
  | succ count ih =>
    have hfits : length ≤ PrefixKey.width K := Nat.le_trans (Nat.le_of_lt hdeep) hwidth
    have hmin : length ≤ min (PrefixKey.width K) 64 :=
      Nat.le_min.mpr ⟨hfits, Nat.le_trans (Nat.le_of_lt hdeep) (by decide)⟩
    simp only [linkLevelRequests, PrefixKey.selected_ofPrefix hmin, List.forall_mem_append]
      at hgranted
    obtain ⟨hfirst, hrest⟩ := hgranted
    have hok := h.link_ok (by omega) hdeep hfirst
    have hlaid := h.link (by omega) hfits hok
    simp only [Trie.linkLevel, PrefixKey.selected_ofPrefix hmin]
    rcases hop : t.link r (numberBits first length) none with ⟨fault | ⟨⟩, t₁, r₁⟩ <;>
      rw [hop] at hok hlaid hrest
    · cases hok
    · obtain ⟨t', r', heq, hall⟩ := ih hlaid (by omega) hrest
      rw [Nat.add_right_comm] at hall
      exact ⟨t', r', heq, hall⟩

/-- Linking all prefixes of so many lengths. -/
theorem linkLevels {first : Nat} (h : t.Laid shape first 0) (hdeep : first + count ≤ 32)
    (hgranted : ∀ outcome ∈ t.linkLevelsRequests r first count, outcome = .ok ()) :
    ∃ t' r', t.linkLevels r first count = (.ok (), t', r') ∧ t'.Laid shape (first + count) 0 := by
  induction count generalizing t r first with
  | zero => exact ⟨t, r, rfl, h⟩
  | succ count ih =>
    rw [linkLevelsRequests, List.forall_mem_append] at hgranted
    obtain ⟨hfirst, hrest⟩ := hgranted
    have hsize : 0 + 1 <<< first ≤ 2 ^ first := by rw [Nat.one_shiftLeft, Nat.zero_add]
    obtain ⟨t₁, r₁, hop, hlaid⟩ := h.linkLevel hwidth (by omega) hsize hfirst
    rw [Nat.one_shiftLeft, Nat.zero_add] at hlaid
    rw [hop] at hrest
    obtain ⟨t', r', heq, hall⟩ := ih hlaid.next (by omega) hrest
    rw [Nat.add_right_comm] at hall
    refine ⟨t', r', ?_, hall⟩
    rw [Trie.linkLevels, hop]
    exact heq

end Lawful

end Laid

variable [RawSource σ] [LawfulPrefixKey K]

/-- **A trie is complete** up to the depth asked for if all slabs that its creation asks for are
granted. -/
theorem complete_of_granted (hwidth : deepestPreallocation ≤ PrefixKey.width K) {value : Layout}
    {p : Preallocation} {r : Region σ}
    (hdeep : p.levels (.ofValue value r.heap.pageSize) < 32)
    (hgranted : ∀ outcome ∈ createRequests K V value p r, outcome = .ok ()) :
    ∃ (t : Trie K V) (r' : Region σ), create value p r = (.ok t, r') ∧
      t.Complete (p.levels (.ofValue value r.heap.pageSize)) ∧
      t.nodes.shape = .ofValue value r.heap.pageSize := by
  unfold createRequests at hgranted
  unfold create
  have hfits : ¬ min (PrefixKey.width K) deepestPreallocation <
      p.levels (.ofValue value r.heap.pageSize) := by
    rw [Nat.min_eq_right hwidth]
    exact Nat.not_lt.mpr (Nat.le_of_lt hdeep)
  simp only [if_neg hfits, List.forall_mem_append] at hgranted ⊢
  obtain ⟨htop, hlevels⟩ := hgranted
  -- the root is the one prefix of length zero
  have hbare := Laid.bare (K := K) (V := V) value r.heap.pageSize
  have hok := hbare.link_ok Nat.one_pos (by decide) htop
  have hlaid := hbare.link Nat.one_pos (Nat.zero_le _) hok
  rcases hop : (bare value r.heap.pageSize : Trie K V).link r [] none with ⟨fault | ⟨⟩, top, r₁⟩ <;>
    rw [hop] at hlevels
  · rw [show numberBits 0 0 = [] from rfl, hop] at hok
    cases hok
  · rw [show numberBits 0 0 = [] from rfl, hop] at hlaid
    obtain ⟨t, r₂, heq, hall⟩ := hlaid.next.linkLevels hwidth (by omega) hlevels
    unfold bare at hop
    rw [hop]
    simp only [heq]
    rw [Nat.zero_add, Nat.add_comm] at hall
    exact ⟨t, _, rfl, hall.complete hdeep, hall.shape⟩

end RegionTrie.Trie
