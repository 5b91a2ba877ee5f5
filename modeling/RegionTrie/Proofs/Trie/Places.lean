import Mathlib.Data.List.Basic
import RegionTrie.Trie.Branch

/-!
# Places in a branch

Every node of a branch has its place at the end of a path of bits. What the operations on
branches do is said place by place: which places hold a node, and which value is found there.

## Main definitions

* `Branch.child`, `Branch.after`: the branch after one bit, and after a path
* `Branch.Holds`: there is a node at the end of a path
* `Branch.Erases`: how a removal goes down a path

## Main results

* `get_graft`, `get_erase`: the value at every path after putting in and after removing
* `find_eq_some_iff`, `find_eq_none_iff`: the value found along a path is the one deepest on it
* `holds_graft`, `Holds.of_erase`: the places of nodes after putting in and after removing
* `graft_graft`: nodes put in one batch after the other
-/

namespace RegionTrie.Branch

variable {V : Type}

/-- The branch for one value of the next bit. -/
def child : Branch V → Bool → Branch V
  | absent, _ => absent
  | node _ _ _ zero one, bit => if bit then one else zero

/-- The branch at the end of a path. -/
def after : Branch V → List Bool → Branch V
  | b, [] => b
  | b, bit :: path => (b.child bit).after path

/-- There is a node at the end of a path. -/
def Holds (b : Branch V) (path : List Bool) : Prop :=
  (b.after path).isAbsent = false

instance (b : Branch V) (path : List Bool) : Decidable (b.Holds path) :=
  inferInstanceAs (Decidable (_ = _))

@[simp] theorem after_nil (b : Branch V) : b.after [] = b := by
  cases b <;> rfl

@[simp] theorem after_cons (b : Branch V) (bit : Bool) (path : List Bool) :
    b.after (bit :: path) = (b.child bit).after path := by
  cases b <;> rfl

@[simp] theorem child_absent (bit : Bool) : (absent : Branch V).child bit = absent := rfl

@[simp] theorem after_absent (path : List Bool) : (absent : Branch V).after path = absent := by
  induction path with
  | nil => rfl
  | cons bit path ih => rw [after_cons, child_absent, ih]

theorem after_append (b : Branch V) (path rest : List Bool) :
    b.after (path ++ rest) = (b.after path).after rest := by
  induction path generalizing b with
  | nil => simp
  | cons bit path ih => simp [ih]

@[simp] theorem not_holds_absent (path : List Bool) : ¬ (absent : Branch V).Holds path := by
  simp [Holds, isAbsent]

theorem eq_absent_of_isAbsent {b : Branch V} (h : b.isAbsent = true) : b = absent := by
  cases b with
  | absent => rfl
  | node => cases h

/-- A node after another one is reached through all the nodes between them. -/
theorem Holds.of_append {b : Branch V} {path rest : List Bool} (h : b.Holds (path ++ rest)) :
    b.Holds path := by
  unfold Holds at h ⊢
  rw [after_append] at h
  cases hb : b.after path with
  | absent => simp [hb, isAbsent] at h
  | node => rfl

/-! ## Values -/

@[simp] theorem get_absent (path : List Bool) : (absent : Branch V).get path = none := by
  cases path <;> rfl

@[simp] theorem get_node_nil (i : Nat) (up : Option Nat) (v : Option V) (zero one : Branch V) :
    (node i up v zero one).get [] = v := rfl

@[simp] theorem get_cons (b : Branch V) (bit : Bool) (path : List Bool) :
    b.get (bit :: path) = (b.child bit).get path := by
  cases b with
  | absent => simp
  | node => rfl

@[simp] theorem find_absent (path : List Bool) : (absent : Branch V).find path = none := by
  cases path <;> rfl

theorem find_cons (b : Branch V) (bit : Bool) (path : List Bool) :
    b.find (bit :: path) = ((b.child bit).find path).or (b.get []) := by
  cases b with
  | absent => simp
  | node => rfl

theorem find_nil (b : Branch V) : b.find [] = b.get [] := by
  cases b <;> rfl

theorem get_append (b : Branch V) (path rest : List Bool) :
    b.get (path ++ rest) = (b.after path).get rest := by
  induction path generalizing b with
  | nil => simp
  | cons bit path ih => simp [ih]

/-- A value is found only at a node. -/
theorem holds_of_isSome_get {b : Branch V} {path : List Bool} (h : (b.get path).isSome) :
    b.Holds path := by
  rw [← List.append_nil path, get_append] at h
  unfold Holds
  cases hb : b.after path with
  | absent => simp [hb] at h
  | node => rfl

/-- Nothing is found along a path exactly if none of its prefixes has a value. -/
theorem find_eq_none_iff {b : Branch V} {path : List Bool} :
    b.find path = none ↔ ∀ q, q <+: path → b.get q = none := by
  -- a prefix of the path is empty, or goes the way of its first bit
  induction path generalizing b with
  | nil => simp [find_nil]
  | cons bit path ih =>
    rw [find_cons, Option.or_eq_none_iff, ih]
    constructor
    · rintro ⟨hafter, hhere⟩ q hq
      rcases q with _ | ⟨c, q⟩
      · exact hhere
      · obtain ⟨rfl, hrest⟩ := List.cons_prefix_cons.mp hq
        rw [get_cons]
        exact hafter q hrest
    · intro h
      refine ⟨fun q hq => ?_, h [] (List.nil_prefix)⟩
      rw [← get_cons]
      exact h (bit :: q) (List.cons_prefix_cons.mpr ⟨rfl, hq⟩)

/-- What is found along a path depends on values only. -/
theorem find_congr {b c : Branch V} (h : ∀ q, b.get q = c.get q) (path : List Bool) :
    b.find path = c.find path := by
  induction path generalizing b c with
  | nil => rw [find_nil, find_nil, h]
  | cons bit path ih =>
    have hchild : ∀ q, (b.child bit).get q = (c.child bit).get q := fun q => by
      rw [← get_cons, ← get_cons, h]
    rw [find_cons, find_cons, h, ih hchild]

/-- Where no node lies deeper than a path is long, nothing is found by going on. -/
theorem find_append {b : Branch V} {path : List Bool}
    (h : ∀ q, b.Holds q → q.length ≤ path.length) (rest : List Bool) :
    b.find (path ++ rest) = b.find path := by
  induction path generalizing b with
  | nil =>
    rcases rest with _ | ⟨bit, rest⟩
    · rfl
    · -- the first node has no children
      have hchild : b.child bit = absent := by
        cases hb : b.child bit with
        | absent => rfl
        | node =>
          have hdeep := h [bit] (by rw [Holds, after_cons, hb]; rfl)
          cases hdeep
      rw [List.nil_append, find_cons, hchild, find_absent, find_nil]
      rfl
  | cons bit path ih =>
    have hchild : ∀ q, (b.child bit).Holds q → q.length ≤ path.length := by
      intro q hq
      exact Nat.le_of_succ_le_succ (h (bit :: q) (by rwa [Holds, after_cons]))
    rw [List.cons_append, find_cons, find_cons, ih hchild]

/-- A value is found along a path exactly if it is at the longest prefix that has one. -/
theorem find_eq_some_iff {b : Branch V} {path : List Bool} {v : V} :
    b.find path = some v ↔
      ∃ p, p <+: path ∧ b.get p = some v ∧
        ∀ q, q <+: path → (b.get q).isSome → q.length ≤ p.length := by
  induction path generalizing b with
  | nil => simp [find_nil]
  | cons bit path ih =>
    rw [find_cons, Option.or_eq_some_iff]
    constructor
    · rintro (hfound | ⟨hnone, hhere⟩)
      · -- what is found further down is at a longer prefix than anything here
        obtain ⟨p, hp, hv, hlongest⟩ := ih.mp hfound
        refine ⟨bit :: p, List.cons_prefix_cons.mpr ⟨rfl, hp⟩, by rw [get_cons, hv], ?_⟩
        intro q hq hsome
        rcases q with _ | ⟨c, q⟩
        · exact Nat.zero_le _
        · obtain ⟨rfl, hrest⟩ := List.cons_prefix_cons.mp hq
          rw [get_cons] at hsome
          exact Nat.succ_le_succ (hlongest q hrest hsome)
      · -- nothing is found further down, so no longer prefix than the empty one has a value
        refine ⟨[], List.nil_prefix, hhere, ?_⟩
        intro q hq hsome
        rcases q with _ | ⟨c, q⟩
        · exact Nat.le_refl _
        · obtain ⟨rfl, hrest⟩ := List.cons_prefix_cons.mp hq
          rw [get_cons, find_eq_none_iff.mp hnone q hrest] at hsome
          simp at hsome
    · rintro ⟨p, hp, hv, hlongest⟩
      rcases p with _ | ⟨c, p⟩
      · refine .inr ⟨find_eq_none_iff.mpr fun q hq => ?_, hv⟩
        -- a value further down would be at a longer prefix than the empty one
        cases hsome : (b.child bit).get q with
        | none => rfl
        | some w =>
          have hlen := hlongest (bit :: q) (List.cons_prefix_cons.mpr ⟨rfl, hq⟩)
            (by rw [get_cons, hsome]; rfl)
          simp at hlen
      · obtain ⟨rfl, hrest⟩ := List.cons_prefix_cons.mp hp
        refine .inl (ih.mpr ⟨p, hrest, by rwa [get_cons] at hv, fun q hq hsome => ?_⟩)
        have hlen := hlongest (c :: q) (List.cons_prefix_cons.mpr ⟨rfl, hq⟩)
          (by rwa [get_cons])
        simpa using hlen

/-! ## Putting nodes in -/

theorem missing_absent (path : List Bool) : (absent : Branch V).missing path = path.length + 1 := by
  cases path <;> rfl

theorem missing_cons (b : Branch V) (bit : Bool) (path : List Bool) :
    b.missing (bit :: path) = (b.child bit).missing path + b.isAbsent.toNat := by
  cases b with
  | absent => simp [missing_absent, isAbsent]
  | node => simp [missing, child, isAbsent]

/-- Nodes put in leave every value alone but the one at the end of the path, and set that one
exactly if they reach it. -/
theorem get_graft (value : Option V) (b : Branch V) (up : Option Nat) (path : List Bool)
    (fresh : List Nat) (q : List Bool) :
    (graft value b up path fresh).get q =
      if q = path ∧ b.missing path ≤ fresh.length then value else b.get q := by
  -- one node is put in or passed by for each bit, until the path or the indices end
  fun_induction graft value b up path fresh generalizing q with
  | case1 up path => simp [missing_absent]
  | case2 up i fresh => cases q <;> simp [missing_absent, child]
  | case3 up path i fresh ih =>
    rcases q with _ | ⟨bit, q⟩
    · simp
    · cases bit <;> simp [child, ih, missing_absent]
  | case4 up path i fresh ih =>
    rcases q with _ | ⟨bit, q⟩
    · simp
    · cases bit <;> simp [child, ih, missing_absent]
  | case5 i up v zero one up' fresh => cases q <;> simp [missing, child]
  | case6 i up v zero one up' path fresh ih =>
    rcases q with _ | ⟨bit, q⟩
    · simp
    · cases bit <;> simp [child, ih, missing]
  | case7 i up v zero one up' path fresh ih =>
    rcases q with _ | ⟨bit, q⟩
    · simp
    · cases bit <;> simp [child, ih, missing]

/-- The places of nodes after nodes were put in: the old ones, and the prefixes of the path that
the new nodes suffice for. -/
theorem holds_graft {value : Option V} {b : Branch V} {up : Option Nat} {path : List Bool}
    {fresh : List Nat} {q : List Bool} :
    (graft value b up path fresh).Holds q ↔
      b.Holds q ∨ q <+: path ∧ b.missing q ≤ fresh.length := by
  -- a new node is at a prefix of the path, and uses up one index more than the one above it
  fun_induction graft value b up path fresh generalizing q with
  | case1 up path => simp [missing_absent]
  | case2 up i fresh =>
    rcases q with _ | ⟨bit, q⟩
    · simp [Holds, isAbsent, missing_absent]
    · cases bit <;> simp [Holds, child, isAbsent]
  | case3 up path i fresh ih | case4 up path i fresh ih =>
    rcases q with _ | ⟨bit, q⟩
    · simp [Holds, isAbsent, missing_absent]
    · have hbelow := ih (q := q)
      cases bit <;> simp_all [Holds, child, isAbsent, missing_absent, List.cons_prefix_cons]
  | case5 i up v zero one up' fresh =>
    rcases q with _ | ⟨bit, q⟩
    · simp [Holds, isAbsent]
    · cases bit <;> simp [Holds, child]
  | case6 i up v zero one up' path fresh ih | case7 i up v zero one up' path fresh ih =>
    rcases q with _ | ⟨bit, q⟩
    · simp [Holds, isAbsent]
    · have hbelow := ih (q := q)
      cases bit <;> simp_all [Holds, child, missing, List.cons_prefix_cons]

/-- No node is missing along a path exactly if there is one at the end of it. -/
theorem missing_eq_zero_iff {b : Branch V} {path : List Bool} :
    b.missing path = 0 ↔ b.Holds path := by
  induction path generalizing b with
  | nil => cases b <;> simp [missing, Holds, isAbsent]
  | cons bit path ih =>
    cases b with
    | absent => simp [missing_absent]
    | node i up v zero one => simpa [missing_cons, isAbsent, Holds] using ih

/-- One node more is missing on a path that goes on where nothing is. -/
theorem missing_concat (b : Branch V) (path : List Bool) (bit : Bool) :
    b.missing (path ++ [bit]) = b.missing path + (b.after (path ++ [bit])).isAbsent.toNat := by
  induction path generalizing b with
  | nil =>
    rw [List.nil_append, missing_cons, after_cons, after_nil]
    cases b with
    | absent => simp [missing, isAbsent]
    | node i up v zero one =>
      cases hb : (node i up v zero one).child bit <;> simp [missing, isAbsent]
  | cons first path ih =>
    rw [List.cons_append, missing_cons, missing_cons, ih, after_cons]
    omega

/-- Where one node is missing at the end of a path, all before it are there. -/
theorem holds_of_missing_eq_one {b : Branch V} {path q : List Bool} (h : b.missing path = 1)
    (hpre : q <+: path) (hne : q ≠ path) : b.Holds q := by
  rcases List.eq_nil_or_concat' path with rfl | ⟨front, bit, rfl⟩
  · exact absurd (List.prefix_nil.mp hpre) hne
  · -- the last node is missing, so the one before it is there
    have habsent : (b.after (front ++ [bit])).isAbsent = true := by
      cases hlast : (b.after (front ++ [bit])).isAbsent with
      | true => rfl
      | false =>
        rw [missing_eq_zero_iff.mpr hlast] at h
        cases h
    rw [missing_concat, habsent] at h
    have hfront : b.Holds front := missing_eq_zero_iff.mp (by simpa using h)
    obtain ⟨rest, hrest⟩ := (List.prefix_concat_iff.mp hpre).resolve_left hne
    rw [← hrest] at hfront
    exact hfront.of_append

/-- The nodes of a path are there up to some depth and missing from there on. -/
theorem exists_depth {b : Branch V} (h : b.isAbsent = false) (path : List Bool) :
    ∃ depth, depth ≤ path.length ∧ ∀ k, k ≤ path.length → b.missing (path.take k) = k - depth := by
  induction path generalizing b with
  | nil =>
    refine ⟨0, Nat.le_refl 0, fun k hk => ?_⟩
    obtain rfl := Nat.le_zero.mp hk
    cases b with
    | absent => cases h
    | node => rfl
  | cons bit path ih =>
    have hhere : b.missing [] = 0 := by
      cases b with
      | absent => cases h
      | node => rfl
    by_cases hchild : (b.child bit).isAbsent = false
    · -- the path goes on in the child
      obtain ⟨depth, hle, hall⟩ := ih hchild
      refine ⟨depth + 1, Nat.succ_le_succ hle, fun k hk => ?_⟩
      rcases k with _ | k
      · rw [List.take_zero, hhere, Nat.zero_sub]
      · rw [List.take_succ_cons, missing_cons, hall k (Nat.le_of_succ_le_succ hk), h]
        simp
    · -- and otherwise nothing more of it is there
      have habsent : b.child bit = absent := eq_absent_of_isAbsent (by simpa using hchild)
      refine ⟨0, Nat.zero_le _, fun k hk => ?_⟩
      rcases k with _ | k
      · exact hhere
      · rw [List.take_succ_cons, missing_cons, habsent, missing_absent, h, List.length_take]
        have hk : k ≤ path.length := Nat.le_of_succ_le_succ hk
        simp [Nat.min_eq_left hk]

/-- Nodes put in for a part of a path leave the others missing. -/
theorem missing_graft {value : Option V} {b : Branch V} {up : Option Nat} {path : List Bool}
    {fresh : List Nat} :
    (graft value b up path fresh).missing path = b.missing path - fresh.length := by
  fun_induction graft value b up path fresh with
  | case1 up path => simp
  | case2 up i fresh => simp [missing]
  | case3 up path i fresh ih | case4 up path i fresh ih => simp [missing, ih, missing_absent]
  | case5 i up v zero one up' fresh => simp [missing]
  | case6 i up v zero one up' path fresh ih | case7 i up v zero one up' path fresh ih =>
    simpa [missing] using ih

/-- Nodes are put in one after the other: those that did not suffice and then others come to the
same as all of them at once. -/
theorem graft_graft {value : Option V} {b : Branch V} {up : Option Nat} {path : List Bool}
    {fresh : List Nat} (h : fresh.length < b.missing path) (more : List Nat) :
    graft value (graft value b up path fresh) up path more =
      graft value b up path (fresh ++ more) := by
  fun_induction graft value b up path fresh with
  | case1 up path => rfl
  | case2 up i fresh => simp [missing] at h
  | case3 up path i fresh ih | case4 up path i fresh ih =>
    rw [List.cons_append, graft, graft, ih (by simpa [missing_absent] using h)]
  | case5 i up v zero one up' fresh => simp [missing] at h
  | case6 i up v zero one up' path fresh ih | case7 i up v zero one up' path fresh ih =>
    rw [graft, graft, ih (by simpa [missing] using h)]

/-! ## Removing -/

/-- How a removal goes down a path. At the end of it a node without children goes, or a value does.
Further up the child is replaced by what is left of it, or, where nothing is left of it and the node
serves no other purpose, the node goes too. -/
inductive Erases : Branch V → List Bool → Erasure V → Prop
  | leaf {i : Nat} {up : Option Nat} {v : Option V} (hup : up.isSome) :
      Erases (node i up v absent absent) [] ⟨absent, [i], v.isSome⟩
  | value {i : Nat} {up : Option Nat} {v : V} {zero one : Branch V} :
      Erases (node i up (some v) zero one) [] ⟨node i up none zero one, [], true⟩
  | prune {i : Nat} {up : Option Nat} {zero one : Branch V} {bit : Bool} {path : List Bool}
      {e : Erasure V} (hbelow : Erases ((node i up none zero one).child bit) path e)
      (hup : up.isSome) (hgone : e.branch = absent)
      (hother : (node i up none zero one).child (!bit) = absent) :
      Erases (node i up none zero one) (bit :: path) ⟨absent, e.recycled ++ [i], e.valued⟩
  | keep {i : Nat} {up : Option Nat} {v : Option V} {zero one : Branch V} {bit : Bool}
      {path : List Bool} {e : Erasure V}
      (hbelow : Erases ((node i up v zero one).child bit) path e) :
      Erases (node i up v zero one) (bit :: path)
        { e with branch := (node i up v zero one).setChild bit e.branch }

/-- At the end of its path a removal takes away a node without children, other than the root, or
else a value. -/
theorem erase_nil_cases {i : Nat} {up : Option Nat} {v : Option V} {zero one : Branch V}
    {e : Erasure V} (h : (node i up v zero one).erase [] = some e) :
    (up.isSome ∧ zero = absent ∧ one = absent ∧ e = ⟨absent, [i], v.isSome⟩) ∨
    (∃ w, v = some w ∧ (up = none ∨ zero ≠ absent ∨ one ≠ absent) ∧
      e = ⟨node i up none zero one, [], true⟩) := by
  simp only [erase] at h
  split at h
  · next hgone =>
    simp only [Bool.and_eq_true] at hgone
    obtain ⟨⟨hup, hzero⟩, hone⟩ := hgone
    cases h
    exact .inl ⟨hup, eq_absent_of_isAbsent hzero, eq_absent_of_isAbsent hone, rfl⟩
  · next hstays =>
    split at h
    · next hv =>
      obtain ⟨w, rfl⟩ := Option.isSome_iff_exists.mp hv
      cases h
      refine .inr ⟨w, rfl, ?_, rfl⟩
      cases up <;> cases zero <;> cases one <;> simp_all [isAbsent]
    · cases h

/-- Before the end of its path a removal goes on in a child, and then takes away the node too if
nothing is left of the child and the node serves no other purpose. -/
theorem erase_cons_cases {i : Nat} {up : Option Nat} {v : Option V} {zero one : Branch V}
    {bit : Bool} {path : List Bool} {e : Erasure V}
    (h : (node i up v zero one).erase (bit :: path) = some e) :
    ∃ e', ((node i up v zero one).child bit).erase path = some e' ∧
      ((e'.branch = absent ∧ up.isSome ∧ v = none ∧
          (node i up v zero one).child (!bit) = absent ∧
          e = ⟨absent, e'.recycled ++ [i], e'.valued⟩) ∨
        ((e'.branch = absent →
            up = none ∨ v.isSome ∨ (node i up v zero one).child (!bit) ≠ absent) ∧
          e = { e' with branch := (node i up v zero one).setChild bit e'.branch })) := by
  simp only [erase, Option.map_eq_some_iff] at h
  obtain ⟨e', he', heq⟩ := h
  refine ⟨e', he', ?_⟩
  split at heq
  · next hgone =>
    simp only [Bool.and_eq_true] at hgone
    obtain ⟨habsent, hidle⟩ := hgone
    have hbranch := eq_absent_of_isAbsent habsent
    rw [hbranch] at hidle
    -- the node is idle without the child, so it has no value and no other child
    have hnode : up.isSome ∧ v = none ∧ (node i up v zero one).child (!bit) = absent := by
      cases bit <;> cases up <;> cases v <;> cases zero <;> cases one <;>
        simp_all [setChild, isIdle, child]
    exact .inl ⟨hbranch, hnode.1, hnode.2.1, hnode.2.2, heq.symm⟩
  · next hstays =>
    refine .inr ⟨fun hbranch => ?_, heq.symm⟩
    rw [hbranch] at hstays
    cases bit <;> cases up <;> cases v <;> cases zero <;> cases one <;>
      simp_all [setChild, isIdle, child, isAbsent]

/-- A removal goes down its path in one of these ways. -/
theorem erases_of_erase {b : Branch V} {path : List Bool} {e : Erasure V}
    (h : b.erase path = some e) : Erases b path e := by
  induction path generalizing b e with
  | nil =>
    cases b with
    | absent => cases h
    | node i up v zero one =>
      rcases erase_nil_cases h with ⟨hup, rfl, rfl, rfl⟩ | ⟨w, rfl, -, rfl⟩
      · exact .leaf hup
      · exact .value
  | cons bit path ih =>
    cases b with
    | absent => cases h
    | node i up v zero one =>
      obtain ⟨e', he', ⟨hgone, hup, rfl, hother, rfl⟩ | ⟨-, rfl⟩⟩ := erase_cons_cases h
      · exact .prune (ih he') hup hgone hother
      · exact .keep (ih he')

theorem child_setChild_self {i : Nat} {up : Option Nat} {v : Option V} {zero one b : Branch V}
    (bit : Bool) : ((node i up v zero one).setChild bit b).child bit = b := by
  cases bit <;> rfl

theorem child_setChild_of_ne {b c : Branch V} {bit bit' : Bool} (h : bit' ≠ bit) :
    (b.setChild bit c).child bit' = b.child bit' := by
  cases b <;> cases bit <;> cases bit' <;> first | rfl | exact absurd rfl h

theorem get_nil_setChild (b c : Branch V) (bit : Bool) : (b.setChild bit c).get [] = b.get [] := by
  cases b <;> cases bit <;> rfl

/-- A removal leaves every value alone but the one at the end of the path, which is gone. -/
theorem get_erase {b : Branch V} {path : List Bool} {e : Erasure V} (h : b.erase path = some e)
    (q : List Bool) : e.branch.get q = if q = path then none else b.get q := by
  replace h := erases_of_erase h
  induction h generalizing q with
  | leaf hup => rcases q with _ | ⟨bit', q⟩ <;> simp [child]
  | value => rcases q with _ | ⟨bit', q⟩ <;> simp [child]
  | @prune i up zero one bit path e hbelow hup hgone hother ih =>
    rcases q with _ | ⟨bit', q⟩
    · simp
    · have hnone := ih q
      rw [hgone, get_absent] at hnone
      by_cases hbit : bit' = bit
      · -- nothing is left of the child on the path
        subst hbit
        simpa [get_cons] using hnone
      · -- and the other child was absent before
        obtain rfl : bit' = !bit := Bool.eq_not.mpr hbit
        rw [get_cons (node i up none zero one), hother]
        simp
  | @keep i up v zero one bit path e hbelow ih =>
    rcases q with _ | ⟨bit', q⟩
    · simp [get_nil_setChild]
    · by_cases hbit : bit' = bit
      · subst hbit
        simp only [get_cons, child_setChild_self, List.cons.injEq, true_and]
        exact ih q
      · simp [get_cons, child_setChild_of_ne hbit, hbit]

/-- Whether a removal took a value away. -/
theorem valued_erase {b : Branch V} {path : List Bool} {e : Erasure V}
    (h : b.erase path = some e) : e.valued = (b.get path).isSome := by
  replace h := erases_of_erase h
  induction h with
  | leaf hup => rfl
  | value => rfl
  | prune hbelow hup hgone hother ih =>
    rw [get_cons]
    exact ih
  | keep hbelow ih =>
    rw [get_cons]
    exact ih

/-- Where there is a value, there is something to remove. -/
theorem isSome_erase_of_isSome_get {b : Branch V} {path : List Bool} (h : (b.get path).isSome) :
    (b.erase path).isSome := by
  induction path generalizing b with
  | nil =>
    cases b with
    | absent => simp at h
    | node i up v zero one =>
      simp only [get_node_nil] at h
      simp only [erase, h]
      split <;> rfl
  | cons bit path ih =>
    cases b with
    | absent => simp at h
    | node i up v zero one =>
      rw [get_cons] at h
      simpa [erase, child] using ih h

/-- A removal puts no node where none was. -/
theorem Holds.of_erase {b : Branch V} {path : List Bool} {e : Erasure V} {q : List Bool}
    (h : b.erase path = some e) (hq : e.branch.Holds q) : b.Holds q := by
  replace h := erases_of_erase h
  induction h generalizing q with
  | leaf hup => exact absurd hq (not_holds_absent q)
  | value =>
    rcases q with _ | ⟨bit', q⟩
    · rfl
    · simpa [Holds, child] using hq
  | prune hbelow hup hgone hother ih => exact absurd hq (not_holds_absent q)
  | @keep i up v zero one bit path e hbelow ih =>
    rcases q with _ | ⟨bit', q⟩
    · rfl
    · unfold Holds at hq ⊢
      rw [after_cons] at hq ⊢
      by_cases hbit : bit' = bit
      · subst hbit
        rw [child_setChild_self] at hq
        exact ih hq
      · rwa [child_setChild_of_ne hbit] at hq

end RegionTrie.Branch
