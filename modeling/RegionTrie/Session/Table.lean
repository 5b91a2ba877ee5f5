/-!
# Tables

Small tables from numbers to entries, with the entry set last in front.

## Main definitions

* `Table`: the entries with their numbers
* `Table.get?`, `Table.set`, `Table.erase`: looking up, replacing and removing an entry

## Main results

* `get?_set_self`, `get?_set_of_ne`: an entry is found under its own number, and others stay
* `get?_erase_self`, `get?_erase_of_ne`: an entry that was removed is gone, and others stay
* `exists_of_get?`: where an entry is found, and what stays without it
-/

namespace RegionTrie

/-- A table from numbers to entries. -/
structure Table (α : Type) where
  entries : List (Nat × α) := []

namespace Table

variable {α : Type}

/-- The entry with a number. -/
def get? (t : Table α) (n : Nat) : Option α :=
  t.entries.lookup n

/-- The table without the entry with a number. -/
def erase (t : Table α) (n : Nat) : Table α :=
  ⟨t.entries.filter fun e => e.1 != n⟩

/-- Put an entry under a number, in place of the one before. -/
def set (t : Table α) (n : Nat) (entry : α) : Table α :=
  ⟨(n, entry) :: (t.erase n).entries⟩

theorem get?_set_self (t : Table α) (n : Nat) (entry : α) :
    (t.set n entry).get? n = some entry := by
  simp [get?, set]

theorem lookup_filter_ne (entries : List (Nat × α)) {n m : Nat} (h : m ≠ n) :
    (entries.filter fun e => e.1 != n).lookup m = entries.lookup m := by
  induction entries with
  | nil => rfl
  | cons e rest ih =>
    obtain ⟨k, entry⟩ := e
    by_cases hk : k = n
    · have hm : (m == k) = false := by simpa [hk] using h
      rw [List.filter_cons_of_neg (by simpa using hk), List.lookup_cons, hm]
      exact ih
    · rw [List.filter_cons_of_pos (by simpa using hk), List.lookup_cons, List.lookup_cons, ih]

theorem get?_erase_self (t : Table α) (n : Nat) : (t.erase n).get? n = none := by
  rw [get?, List.lookup_eq_none_iff]
  intro e he
  have hkept : e.1 ≠ n := by simpa using (List.mem_filter.mp he).2
  simpa using hkept.symm

theorem get?_erase_of_ne (t : Table α) {n m : Nat} (h : m ≠ n) : (t.erase n).get? m = t.get? m :=
  lookup_filter_ne t.entries h

theorem get?_set_of_ne (t : Table α) {n m : Nat} (h : m ≠ n) (entry : α) :
    (t.set n entry).get? m = t.get? m := by
  have hm : (m == n) = false := by simpa using h
  simp only [get?, set, erase, List.lookup_cons, hm, lookup_filter_ne t.entries h]

/-- An entry that is found stands between others, and what stays when it is removed is among
those. -/
theorem exists_of_get? {t : Table α} {n : Nat} {entry : α} (h : t.get? n = some entry) :
    ∃ front back, t.entries = front ++ (n, entry) :: back ∧
      (t.erase n).entries.Sublist (front ++ back) := by
  obtain ⟨front, back, heq, -⟩ := List.lookup_eq_some_iff.mp h
  refine ⟨front, back, heq, ?_⟩
  simp only [erase, heq, List.filter_append, List.filter_cons, bne_self_eq_false,
    Bool.false_eq_true, if_false]
  exact List.filter_sublist.append List.filter_sublist

end Table

end RegionTrie
