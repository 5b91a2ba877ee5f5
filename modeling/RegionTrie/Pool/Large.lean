import RegionTrie.Layout

/-!
# Large records

A buffer obtained directly from the raw source is tracked by a record inside a block. When the
buffer is freed its record stays linked and can track a later one.

## Main definitions

* `LargeRecord`: where the record lies, and the buffer it tracks, if any
* `LargeRecord.occupy?`: let one of the first few records without a buffer track a new one
* `LargeRecord.vacate?`: take the buffer at an address out of its record
* `LargeRecord.buffers`: the buffers tracked by a list of records

## Main results

* `buffers_occupy?`, `buffers_vacate?`: one buffer more, or one less, and the others as before
* `vacate?_eq_none_iff`: nothing can be taken out exactly where no buffer starts
-/

namespace RegionTrie

/-- The record of a large buffer. -/
structure LargeRecord where
  address : Nat
  held : Option Buffer
deriving DecidableEq

namespace LargeRecord

/-- The buffers that are tracked, in the order of their records. -/
def buffers (records : List LargeRecord) : List Buffer :=
  records.filterMap LargeRecord.held

/-- Let the first record without a buffer among the first `probes` ones track `b`. -/
def occupy? (b : Buffer) (probes : Nat) (records : List LargeRecord) : Option (List LargeRecord) :=
  match probes, records with
  | 0, _ => none
  | _, [] => none
  | n + 1, record :: rest =>
    match record.held with
    | none => some ({ record with held := some b } :: rest)
    | some _ => (occupy? b n rest).map (record :: ·)

/-- Take the buffer that starts at `address` out of the first record that tracks one. -/
def vacate? (address : Nat) (records : List LargeRecord) :
    Option (Buffer × List LargeRecord) :=
  match records with
  | [] => none
  | record :: rest =>
    match record.held with
    | some b =>
      if b.base = address then some (b, { record with held := none } :: rest)
      else (vacate? address rest).map fun (b, rest) => (b, record :: rest)
    | none => (vacate? address rest).map fun (b, rest) => (b, record :: rest)

theorem buffers_occupy? {b : Buffer} {probes : Nat} {records after : List LargeRecord}
    (h : occupy? b probes records = some after) :
    ∃ front back, buffers records = front ++ back ∧ buffers after = front ++ b :: back := by
  induction records generalizing probes after with
  | nil => cases probes <;> simp [occupy?] at h
  | cons record rest ih =>
    cases probes with
    | zero => simp [occupy?] at h
    | succ n =>
      cases hheld : record.held with
      | none =>
        simp only [occupy?, hheld, Option.some.injEq] at h
        subst h
        exact ⟨[], buffers rest, by simp [buffers, hheld], by simp [buffers]⟩
      | some c =>
        simp only [occupy?, hheld, Option.map_eq_some_iff] at h
        obtain ⟨tail, htail, rfl⟩ := h
        obtain ⟨front, back, hbefore, hafter⟩ := ih htail
        exact ⟨c :: front, back, by simp_all [buffers], by simp_all [buffers]⟩

theorem buffers_vacate? {address : Nat} {b : Buffer} {records after : List LargeRecord}
    (h : vacate? address records = some (b, after)) :
    b.base = address ∧
      ∃ front back, buffers records = front ++ b :: back ∧ buffers after = front ++ back := by
  induction records generalizing after with
  | nil => simp [vacate?] at h
  | cons record rest ih =>
    cases hheld : record.held with
    | none =>
      simp only [vacate?, hheld, Option.map_eq_some_iff] at h
      obtain ⟨⟨c, tail⟩, htail, heq⟩ := h
      obtain ⟨rfl, rfl⟩ := Prod.mk.inj heq
      obtain ⟨hbase, front, back, hbefore, hafter⟩ := ih htail
      exact ⟨hbase, front, back, by simp_all [buffers], by simp_all [buffers]⟩
    | some c =>
      by_cases hc : c.base = address
      · simp only [vacate?, hheld, if_pos hc, Option.some.injEq] at h
        obtain ⟨rfl, rfl⟩ := Prod.mk.inj h
        exact ⟨hc, [], buffers rest, by simp [buffers, hheld], by simp [buffers]⟩
      · simp only [vacate?, hheld, if_neg hc, Option.map_eq_some_iff] at h
        obtain ⟨⟨d, tail⟩, htail, heq⟩ := h
        obtain ⟨rfl, rfl⟩ := Prod.mk.inj heq
        obtain ⟨hbase, front, back, hbefore, hafter⟩ := ih htail
        exact ⟨hbase, c :: front, back, by simp_all [buffers], by simp_all [buffers]⟩

theorem vacate?_eq_none_iff {address : Nat} {records : List LargeRecord} :
    vacate? address records = none ↔ ∀ b ∈ buffers records, b.base ≠ address := by
  induction records with
  | nil => simp [vacate?, buffers]
  | cons record rest ih =>
    cases hheld : record.held with
    | none => simpa [vacate?, hheld, buffers] using ih
    | some c =>
      by_cases hc : c.base = address
      · simp [vacate?, hheld, hc, buffers]
      · simpa [vacate?, hheld, hc, buffers] using ih

end LargeRecord

end RegionTrie
