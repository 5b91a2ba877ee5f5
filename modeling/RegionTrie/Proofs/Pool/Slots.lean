import RegionTrie.Proofs.Pool.Plan

/-!
# Records and slots

A plan has a slot for every record of a large buffer. A record holds a buffer exactly if its slot
names an errand, and then that errand was told where the buffer starts. So the plan finds the record
that takes a new buffer, and the record from which a buffer is freed, without any address.

## Main definitions

* `LargeRecord.Tracks`: a record has the buffer that a slot names

## Main results

* `LargeRecord.occupy?_tracks`, `LargeRecord.vacate?_tracks`: a buffer comes into the record, and is
  taken out of the record, that the plan says
-/

namespace RegionTrie

/-- A record has the buffer whose base address the errand of a slot was told. -/
inductive LargeRecord.Tracks (names : List (Option Nat)) : LargeRecord → Option Nat → Prop
  | vacant (address : Nat) : Tracks names ⟨address, none⟩ none
  | occupied (address : Nat) {b : Buffer} {n : Nat} (h : names[n]? = some (some b.base)) :
    Tracks names ⟨address, some b⟩ (some n)

namespace LargeRecord

variable {names : List (Option Nat)} {records : List LargeRecord} {slots : List (Option Nat)}

theorem Tracks.append {record : LargeRecord} {slot : Option Nat} (h : Tracks names record slot)
    (more : List (Option Nat)) : Tracks (names ++ more) record slot := by
  cases h with
  | vacant address => exact .vacant address
  | occupied address h =>
    obtain ⟨hlt, -⟩ := List.getElem?_eq_some_iff.mp h
    exact .occupied address ((List.getElem?_append_left hlt).trans h)

/-- A new buffer comes into the record whose slot the plan takes, or both find none. -/
theorem occupy?_tracks (h : List.Forall₂ (Tracks names) records slots) (b : Buffer) (probes : Nat) :
    (∃ records' slots', occupy? b probes records = some records' ∧
      Plan.occupy? names.length probes slots = some slots' ∧
      List.Forall₂ (Tracks (names ++ [some b.base])) records' slots') ∨
    (occupy? b probes records = none ∧ Plan.occupy? names.length probes slots = none) := by
  induction h generalizing probes with
  | nil => cases probes <;> exact .inr ⟨rfl, rfl⟩
  | cons hfirst hrest ih =>
    cases probes with
    | zero => exact .inr ⟨rfl, rfl⟩
    | succ probes =>
      cases hfirst with
      | vacant address =>
        left
        refine ⟨_, _, rfl, rfl, .cons (.occupied address ?_) (hrest.imp fun _ _ h => h.append _)⟩
        exact List.getElem?_concat_length
      | occupied address hname =>
        rcases ih probes with ⟨records', slots', hrecords, hslots, htracks⟩ | ⟨hrecords, hslots⟩
        · left
          refine ⟨_, _, ?_, ?_, .cons ((Tracks.occupied address hname).append _) htracks⟩
          · rw [occupy?, hrecords]
            rfl
          · rw [Plan.occupy?, hslots]
            rfl
        · right
          rw [occupy?, Plan.occupy?, hrecords, hslots]
          exact ⟨rfl, rfl⟩

/-- No slot names an errand that was told no address. -/
theorem vacate?_eq_none_of_tracks (h : List.Forall₂ (Tracks names) records slots) {i : Nat}
    (hname : names[i]?.join = none) : Plan.vacate? i slots = none := by
  induction h with
  | nil => rfl
  | @cons record slot records slots hfirst _ ih =>
    have hne : slot ≠ some i := by
      rintro rfl
      cases hfirst with
      | occupied address h =>
        rw [h] at hname
        cases hname
    rw [Plan.vacate?, if_neg hne, ih]
    rfl

/-- A record without the buffer in question is passed over. -/
theorem vacate?_cons_of_forall_ne {record : LargeRecord} {address : Nat}
    (h : ∀ b, record.held = some b → b.base ≠ address) (rest : List LargeRecord) :
    vacate? address (record :: rest) =
      (vacate? address rest).map fun (b, rest) => (b, record :: rest) := by
  rw [vacate?]
  split
  · next b hheld => rw [if_neg (h b hheld)]
  · rfl

/-- The buffer that an errand was told about is taken out of the record whose slot has it, if no
other errand was told the same address. -/
theorem vacate?_tracks (h : List.Forall₂ (Tracks names) records slots) {i address : Nat}
    (hname : names[i]? = some (some address))
    (hclear : address ∈ (buffers records).map Buffer.base →
      ∀ j, names[j]? = some (some address) → j = i) :
    (∃ b records' slots', vacate? address records = some (b, records') ∧
      Plan.vacate? i slots = some slots' ∧ List.Forall₂ (Tracks names) records' slots') ∨
    (vacate? address records = none ∧ Plan.vacate? i slots = none) := by
  induction h with
  | nil => exact .inr ⟨rfl, rfl⟩
  | @cons record slot records slots hfirst hrest ih =>
    by_cases hslot : slot = some i
    · -- the errand was told where the buffer of this record starts
      subst hslot
      cases hfirst with
      | @occupied first b _ hb =>
        have hbase : b.base = address := by
          rw [hname] at hb
          cases hb
          rfl
        left
        refine ⟨b, _, _, ?_, ?_, .cons (.vacant first) hrest⟩
        · simp only [vacate?, if_pos hbase]
        · rw [Plan.vacate?, if_pos rfl]
    · -- and where the slot names another errand, the record has another buffer
      have hpass : ∀ b, record.held = some b → b.base ≠ address := by
        intro b hheld hbase
        cases hfirst with
        | vacant first => cases hheld
        | @occupied first _ n hb =>
          cases hheld
          rw [hbase] at hb
          exact hslot (congrArg some (hclear (by simp [buffers, hbase]) n hb))
      have hrestclear : address ∈ (buffers records).map Buffer.base →
          ∀ j, names[j]? = some (some address) → j = i := by
        intro hmem
        have hsuffix : buffers records <:+ buffers (record :: records) :=
          (List.suffix_cons record records).filterMap _
        exact hclear (List.map_subset _ hsuffix.subset hmem)
      rw [vacate?_cons_of_forall_ne hpass, Plan.vacate?, if_neg hslot]
      rcases ih hrestclear with ⟨b, records', slots', hrecords, hslots, htracks⟩ |
        ⟨hrecords, hslots⟩
      · exact .inl ⟨b, record :: records', slot :: slots', by rw [hrecords]; rfl,
          by rw [hslots]; rfl, .cons hfirst htracks⟩
      · exact .inr ⟨by rw [hrecords]; rfl, by rw [hslots]; rfl⟩

end LargeRecord

end RegionTrie
