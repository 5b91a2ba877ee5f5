import Mathlib.Data.List.TakeWhile
import RegionTrie.Trie.Arena

/-!
# Walks down a key

A walk down a key tests the mask at each depth that it comes to, and reads the key there. It goes on
below the leading ones of the mask and no further, so it is a walk along the bits that lie under
them. This holds of each of the walks in an arena: that to a place, that along the nodes that are
there, and that which links new ones. So what a call does depends on these bits alone. Only the walk
that looks for the longest prefix of a key has no mask, and goes along all bits.

## Main definitions

* `Arena.follow`, `Arena.furthest`, `Arena.extendAlong`, `Arena.findAlong`: walks along a list of
  bits
* `Arena.linkAlong`, `Arena.deleteAlong`: calls for a list of bits

## Main results

* `PrefixKey.significant_iff`: a walk that has come to a depth goes on below the leading ones
* `Arena.seek_eq`, `Arena.descend_eq`, `Arena.extend_eq`: each walk goes along the selected bits
* `Arena.link_eq`, `Arena.delete_eq`, `Arena.get_eq`: so each call is for the selected bits
* `Arena.find_eq`: and a search is for all bits
-/

namespace RegionTrie

namespace PrefixKey

variable {K : Type} [PrefixKey K] {key key' mask mask' : K} {depth : Nat}

/-- The leading ones of a mask are those with no clear bit before them. -/
theorem lt_maskLength_iff {i : Nat} :
    i < maskLength mask ↔ ∀ j ≤ i, j < width K ∧ bit mask j = true := by
  constructor
  · -- what is counted are the first positions, so a smaller one is counted too
    intro hi j hj
    have htake : (List.range (width K)).takeWhile (bit mask) = List.range (maskLength mask) := by
      rw [List.prefix_iff_eq_take.mp (List.takeWhile_prefix _), List.take_range]
      exact congrArg List.range (Nat.min_eq_left (maskLength_le mask))
    have hmem : j ∈ (List.range (width K)).takeWhile (bit mask) := by
      rw [htake]
      exact List.mem_range.mpr (Nat.lt_of_le_of_lt hj hi)
    exact ⟨List.mem_range.mp (List.takeWhile_subset _ hmem), List.mem_takeWhile_imp hmem⟩
  · -- the positions up to `i` are taken as a whole
    intro hall
    obtain ⟨rest, hrest⟩ := Nat.exists_eq_add_of_le (hall i (Nat.le_refl i)).1
    rw [maskLength, hrest, List.range_add,
      List.takeWhile_append_of_pos fun j hj =>
        (hall j (Nat.le_of_lt_succ (List.mem_range.mp hj))).2, List.length_append,
      List.length_range]
    omega

/-- Two pairs select the same bits exactly if the masks have equally many leading ones and the keys
agree under them. -/
theorem selected_eq_iff : selected key mask = selected key' mask' ↔
    maskLength mask' = maskLength mask ∧ ∀ i < maskLength mask, bit key' i = bit key i := by
  constructor
  · intro h
    have hlength := congrArg List.length h
    rw [length_selected, length_selected] at hlength
    refine ⟨hlength.symm, fun i hi => ?_⟩
    have hbit := congrArg (·[i]?) h
    simpa [selected, List.getElem?_range, hi, hlength ▸ hi] using hbit.symm
  · rintro ⟨hlength, hbits⟩
    rw [selected, selected, hlength]
    exact List.map_congr_left fun i hi => (hbits i (List.mem_range.mp hi)).symm

/-- A walk that has come to a depth goes on exactly if more ones lead the mask than that. -/
theorem significant_iff (h : depth ≤ maskLength mask) :
    significant mask depth = true ↔ depth < maskLength mask := by
  rw [lt_maskLength_iff, significant, Bool.and_eq_true, decide_eq_true_iff]
  constructor
  · intro hhere j hj
    rcases Nat.lt_or_eq_of_le hj with hlt | rfl
    · exact lt_maskLength_iff.mp (Nat.lt_of_lt_of_le hlt h) j (Nat.le_refl j)
    · exact hhere
  · intro hall
    exact hall depth (Nat.le_refl depth)

/-- The bit read at a depth is the next one of the first bits of a key. -/
theorem drop_map_range {count : Nat} (h : depth < count) (read : Nat → Bool) :
    ((List.range count).map read).drop depth =
      read depth :: ((List.range count).map read).drop (depth + 1) := by
  rw [List.drop_eq_getElem_cons (by simpa using h)]
  simp

theorem drop_selected (h : depth < maskLength mask) :
    (selected key mask).drop depth = bit key depth :: (selected key mask).drop (depth + 1) :=
  drop_map_range h (bit key)

theorem drop_selected_eq_nil (key : K) (h : depth ≤ maskLength mask)
    (hend : ¬ significant mask depth = true) :
    depth = maskLength mask ∧ (selected key mask).drop depth = [] := by
  have hle : maskLength mask ≤ depth := Nat.not_lt.mp (mt (significant_iff h).mpr hend)
  refine ⟨Nat.le_antisymm h hle, List.drop_eq_nil_of_le ?_⟩
  rwa [length_selected]

end PrefixKey

namespace Arena

open PrefixKey

variable {K V : Type}

/-! ## Walks along bits -/

/-- The node at the end of a walk along bits, if all nodes on the way are there. -/
def follow (a : Arena K V) : (path : List Bool) → (node : Nat) → Option Nat
  | [], node => some node
  | bit :: path, node => ((a.memory node).child bit).bind (a.follow path)

/-- The last node of a walk along bits that is there, and the bits that are left from it on. -/
def furthest (a : Arena K V) : (path : List Bool) → (node : Nat) → Nat × List Bool
  | [], node => (node, [])
  | bit :: path, node =>
    match (a.memory node).child bit with
    | none => (node, bit :: path)
    | some next => a.furthest path next

/-- The value passed last on a walk along bits, as far as there are nodes, or else the given one. -/
def findAlong (a : Arena K V) : (path : List Bool) → (node : Nat) → Option V → Option V
  | [], node, value => (a.memory node).value.or value
  | bit :: path, node, value =>
    let passed := (a.memory node).value.or value
    match (a.memory node).child bit with
    | none => passed
    | some next => a.findAlong path next passed

/-- Remove the value at the end of a walk along bits. -/
def deleteAlong {σ : Type} (a : Arena K V) (r : Region σ) (path : List Bool) :
    Option (Except Fault Unit × Arena K V × Region σ) :=
  match a.follow path a.root with
  | none => some (.error .notFound, a, r)
  | some node =>
    let n := a.memory node
    if n.hasChildren || node == a.root then
      if n.value.isNone then some (.error .notFound, a, r)
      else some (.ok (), { a.write node { n with value := none } with size := a.size - 1 }, r)
    else
      let cleared :=
        { a.write node { n with value := none } with size := a.size - n.value.isSome.toNat }
      (cleared.climb r node path.length).map fun (a, r) => (.ok (), a, r)

section Growing

variable {σ : Type} [RawSource σ]

/-- Link a new node for each of the given bits, from a node down: the last one. -/
def extendAlong (a : Arena K V) (r : Region σ) :
    (path : List Bool) → (node : Nat) → Except Fault Nat × Arena K V × Region σ
  | [], node => (.ok node, a, r)
  | bit :: path, node =>
    match a.allocate r (some node) with
    | (.error fault, a, r) => (.error fault, a, r)
    | (.ok next, a, r) =>
      (a.write node ((a.memory node).setChild bit next)).extendAlong r path next

/-- Link the nodes that a walk along bits lacks, and set the value at its end. -/
def linkAlong (a : Arena K V) (r : Region σ) (path : List Bool) (value : Option V) :
    Except Fault Unit × Arena K V × Region σ :=
  match a.furthest path a.root with
  | (node, []) =>
    if (a.memory node).value.isSome then (.error .busy, a, r)
    else (.ok (), a.setValue node value, r)
  | (node, bit :: rest) =>
    match a.extendAlong r (bit :: rest) node with
    | (.error fault, a, r) => (.error fault, a, r)
    | (.ok last, a, r) => (.ok (), a.setValue last value, r)

end Growing

theorem length_furthest_le (a : Arena K V) (path : List Bool) (node : Nat) :
    (a.furthest path node).2.length ≤ path.length := by
  induction path generalizing node with
  | nil => exact Nat.le_refl 0
  | cons bit path ih =>
    rw [furthest]
    cases (a.memory node).child bit with
    | none => exact Nat.le_refl _
    | some next => exact Nat.le_succ_of_le (ih next)

/-- What is left of the bits are the last ones. -/
theorem furthest_eq_drop (a : Arena K V) (path : List Bool) (node : Nat) :
    (a.furthest path node).2 = path.drop (path.length - (a.furthest path node).2.length) := by
  induction path generalizing node with
  | nil => rfl
  | cons bit path ih =>
    rw [furthest]
    cases (a.memory node).child bit with
    | none => simp
    | some next =>
      have hle := a.length_furthest_le path next
      have hplace : path.length + 1 - (a.furthest path next).2.length =
          path.length - (a.furthest path next).2.length + 1 := by omega
      rw [List.length_cons, hplace, List.drop_succ_cons]
      exact ih next

/-! ## Walks along the selected bits -/

variable [PrefixKey K] {key mask : K} {depth : Nat}

/-- **The walk to a place** goes along the selected bits. -/
theorem seek_eq (a : Arena K V) (node : Nat) (hdepth : depth ≤ maskLength mask) :
    a.seek key mask node depth =
      (a.follow ((selected key mask).drop depth) node).map (·, maskLength mask) := by
  fun_induction a.seek key mask node depth with
  | case1 node depth hgo hnone =>
    rw [drop_selected ((significant_iff hdepth).mp hgo), follow, hnone]
    rfl
  | case2 node depth hgo next hnext ih =>
    have hlt := (significant_iff hdepth).mp hgo
    rw [ih hlt, drop_selected hlt, follow, hnext, Option.bind_some]
  | case3 node depth hend =>
    obtain ⟨hlast, hnil⟩ := drop_selected_eq_nil key hdepth hend
    rw [hnil, follow, hlast]
    rfl

/-- **The walk along the nodes that are there** goes along the selected bits. -/
theorem descend_eq (a : Arena K V) (node : Nat) (hdepth : depth ≤ maskLength mask) :
    a.descend key mask node depth =
      ((a.furthest ((selected key mask).drop depth) node).1,
        maskLength mask - (a.furthest ((selected key mask).drop depth) node).2.length) := by
  fun_induction a.descend key mask node depth with
  | case1 node depth hgo hnone =>
    have hlt := (significant_iff hdepth).mp hgo
    rw [drop_selected hlt, furthest, hnone]
    have hlength : (selected key mask).length = maskLength mask := length_selected key mask
    simp only [List.length_cons, List.length_drop, hlength, Prod.mk.injEq, true_and]
    omega
  | case2 node depth hgo next hnext ih =>
    have hlt := (significant_iff hdepth).mp hgo
    rw [ih hlt, drop_selected hlt, furthest, hnext]
  | case3 node depth hend =>
    obtain ⟨hlast, hnil⟩ := drop_selected_eq_nil key hdepth hend
    rw [hnil, furthest, hlast]
    rfl

/-- **The walk that links new nodes** goes along the selected bits. -/
theorem extend_eq {σ : Type} [RawSource σ] (a : Arena K V) (r : Region σ) (node : Nat)
    (hdepth : depth ≤ maskLength mask) :
    a.extend r key mask node depth = a.extendAlong r ((selected key mask).drop depth) node := by
  fun_induction a.extend r key mask node depth with
  | case1 a r node depth hgo fault a' r' hallocate =>
    rw [drop_selected ((significant_iff hdepth).mp hgo), extendAlong, hallocate]
  | case2 a r node depth hgo next a' r' hallocate ih =>
    have hlt := (significant_iff hdepth).mp hgo
    rw [ih hlt, drop_selected hlt, extendAlong, hallocate]
  | case3 a r node depth hend =>
    rw [(drop_selected_eq_nil key hdepth hend).2, extendAlong]

/-- **The walk that looks for a longest prefix** goes along all bits. -/
theorem findFrom_eq (a : Arena K V) (key : K) (node : Nat) (value : Option V)
    (hdepth : depth ≤ width K) :
    a.findFrom key node depth value = a.findAlong ((bits key).drop depth) node value := by
  fun_induction a.findFrom key node depth value with
  | case1 node depth value passed hlt hnone =>
    rw [bits, drop_map_range hlt, findAlong, hnone]
  | case2 node depth value passed hlt next hnext ih =>
    rw [ih hlt, bits, drop_map_range hlt (bit key), findAlong, hnext]
  | case3 node depth value passed hend =>
    have hlast : (bits key).drop depth = [] := by
      refine List.drop_eq_nil_of_le ?_
      rw [length_bits]
      exact Nat.not_lt.mp hend
    rw [hlast, findAlong]

/-! ## Calls -/

theorem find_eq (a : Arena K V) (key : K) : a.find key = a.findAlong (bits key) a.root none := by
  rw [find, findFrom_eq a key a.root none (Nat.zero_le _), List.drop_zero]

theorem get_eq (a : Arena K V) (key mask : K) :
    a.get key mask =
      (a.follow (selected key mask) a.root).bind fun node => (a.memory node).value := by
  rw [get, seek_eq a a.root (Nat.zero_le _), List.drop_zero, Option.bind_map]
  rfl

theorem delete_eq {σ : Type} (a : Arena K V) (r : Region σ) (key mask : K) :
    a.delete r key mask = a.deleteAlong r (selected key mask) := by
  rw [delete, deleteAlong, seek_eq a a.root (Nat.zero_le _), List.drop_zero]
  cases a.follow (selected key mask) a.root with
  | none => rfl
  | some node =>
    rw [length_selected]
    rfl

theorem link_eq {σ : Type} [RawSource σ] (a : Arena K V) (r : Region σ) (key mask : K)
    (value : Option V) : a.link r key mask value = a.linkAlong r (selected key mask) value := by
  have hle := a.length_furthest_le (selected key mask) a.root
  have hdrop := a.furthest_eq_drop (selected key mask) a.root
  rw [length_selected] at hle hdrop
  rw [link, linkAlong, descend_eq a a.root (Nat.zero_le _), List.drop_zero]
  rcases hfar : a.furthest (selected key mask) a.root with ⟨node, rest⟩
  rw [hfar] at hle hdrop
  dsimp only at hle hdrop ⊢
  cases rest with
  | nil =>
    -- the walk has come to the end of the selected bits
    rw [if_neg fun hgo => Nat.lt_irrefl _ ((significant_iff (Nat.sub_le _ _)).mp hgo)]
  | cons bit rest =>
    have hgo : significant mask (maskLength mask - (bit :: rest).length) = true := by
      rw [significant_iff (Nat.sub_le _ _)]
      rw [List.length_cons] at hle ⊢
      omega
    have hextend : a.extend r key mask node (maskLength mask - (bit :: rest).length) =
        a.extendAlong r (bit :: rest) node := by
      rw [extend_eq a r node (Nat.sub_le _ _), ← hdrop]
    rw [if_pos hgo]
    exact hextend ▸ rfl

end Arena

end RegionTrie
