import RegionTrie.Proofs.Region.Cleanups
import RegionTrie.Proofs.Session.Custody

/-!
# Handlers are accounted for

The cleanup records of a pool are the cleanups in the books of its users, in the same order, and the
journal says of handlers what the books say. Every handler ever supplied is either armed or has come
to its end, once.

## Main definitions

* `Custody.Enrolled`: records, handles and fates agree with the books, and handlers add up

## Main results

* `Custody.Enrolled.register`, `Custody.Enrolled.rearm` and others: what is done to cleanups keeps
  the books right
-/

namespace RegionTrie

/-! ## Entries -/

/-- Serial number, payload and handler of a cleanup, which records and books agree about. -/
structure CleanupEntry where
  serial : Nat
  payload : Extent
  handler : Option Nat

/-- The entry with another handler, if it is the one with this serial number. -/
def CleanupEntry.arm (e : CleanupEntry) (serial : Nat) (handler : Option Nat) : CleanupEntry :=
  if e.serial = serial then { e with handler } else e

/-- The handlers that run are those that are armed, whatever they see. -/
theorem CleanupEntry.handlers_of_runs (payload : Extent → List UInt8)
    (entries : List CleanupEntry) :
    (entries.flatMap fun e => e.handler.toList.map (Effect.ran · (payload e.payload))).filterMap
      Effect.handler? = entries.filterMap CleanupEntry.handler := by
  induction entries with
  | nil => rfl
  | cons e entries ih =>
    rw [List.flatMap_cons, List.filterMap_append, ih]
    cases hhandler : e.handler <;> simp [hhandler, Effect.handler?]

/-- What a record says about its cleanup. -/
def CleanupRecord.entry (record : CleanupRecord) : CleanupEntry :=
  ⟨record.serial, record.payload, record.handler⟩

theorem CleanupRecord.entry_setHandler (records : List CleanupRecord) (c : Cleanup)
    (handler : Option Nat) :
    (setHandler records c handler).map entry =
      (records.map entry).map (·.arm c.serial handler) := by
  simp only [setHandler, List.map_map]
  refine List.map_congr_left fun record _ => ?_
  by_cases h : record.serial = c.serial <;> simp [entry, CleanupEntry.arm, h]

namespace Registration

/-- What the books say about a cleanup, apart from the bytes of its payload. -/
def entry (g : Registration) : CleanupEntry :=
  ⟨g.serial, g.payload.extent, g.handler⟩

theorem entry_arm (g : Registration) (serial : Nat) (handler : Option Nat) :
    (g.arm serial handler).entry = g.entry.arm serial handler := by
  by_cases h : g.serial = serial <;> simp [entry, arm, CleanupEntry.arm, h]

theorem arm_of_ne {g : Registration} {serial : Nat} (h : g.serial ≠ serial)
    (handler : Option Nat) : g.arm serial handler = g :=
  if_neg h

theorem serial_arm (g : Registration) (serial : Nat) (handler : Option Nat) :
    (g.arm serial handler).serial = g.serial := by
  unfold arm
  split <;> rfl

end Registration

namespace Table

variable {α : Type}

/-- An entry that is found under a number is in the table. -/
theorem mem_of_get? {t : Table α} {n : Nat} {entry : α} (h : t.get? n = some entry) :
    (n, entry) ∈ t.entries := by
  obtain ⟨front, back, heq, -⟩ := exists_of_get? h
  rw [heq]
  exact List.mem_append_right _ List.mem_cons_self

theorem mem_erase {t : Table α} {n : Nat} {e : Nat × α} (h : e ∈ (t.erase n).entries) :
    e ∈ t.entries :=
  (List.mem_filter.mp h).1

end Table

namespace Custody

/-- Records and handles agree with the roll, the journal agrees with the books about what became of
handlers, and every handler ever supplied is armed or has come to its end, once. -/
structure Enrolled {σ : Type} (c : Custody) (s : Session σ) : Prop where
  roll_eq : s.region.pool.cleanups.map CleanupRecord.entry = c.roll.map Registration.entry
  serials : c.roll.map (·.serial) = (List.range c.roll.length).reverse
  handles : ∀ entry ∈ s.cleanups.entries, entry.2.serial < c.roll.length
  fates_eq : Journal.fates s.region.heap.journal = c.fates
  account : (c.fates.filterMap Effect.handler? ++ c.armed).Perm c.supplied

variable {c : Custody}

theorem handler?_discarded (handlers : List Nat) :
    (handlers.map Effect.discarded).filterMap Effect.handler? = handlers := by
  rw [List.filterMap_map]
  exact List.filterMap_some

/-- One handler goes out of the armed ones where another comes in. -/
theorem armed_rearm (hnodup : (c.roll.map (·.serial)).Nodup) {serial : Nat} {g : Registration}
    (hg : c.registration? serial = some g) (fate : List UInt8 → Nat → Effect)
    (handler : Option Nat) :
    (g.handler.toList ++ (c.rearm serial fate handler).armed).Perm
      (handler.toList ++ c.armed) := by
  obtain ⟨hserial, front, back, hroll, hfront⟩ := List.find?_eq_some_iff_append.mp hg
  rw [beq_iff_eq] at hserial
  -- no other cleanup has the serial number
  have hback : ∀ x ∈ back, x.serial ≠ serial := by
    rw [hroll, List.map_append, List.map_cons, List.nodup_append, List.nodup_cons] at hnodup
    intro x hx heq
    refine hnodup.2.1.1 ?_
    rw [hserial, ← heq]
    exact List.mem_map_of_mem hx
  have hothers : ∀ l : List Registration, (∀ x ∈ l, x.serial ≠ serial) →
      l.map (·.arm serial handler) = l := by
    intro l hl
    exact (List.map_congr_left fun x hx => Registration.arm_of_ne (hl x hx) handler).trans
      (List.map_id l)
  have hfront' : ∀ x ∈ front, x.serial ≠ serial := by
    intro x hx
    simpa using hfront x hx
  have harm : (g.arm serial handler).handler = handler := by
    rw [Registration.arm, if_pos hserial]
  have hcons : ∀ (x : Registration) (l : List Registration),
      (x :: l).filterMap (·.handler) = x.handler.toList ++ l.filterMap (·.handler) := by
    intro x l
    cases hx : x.handler <;> simp [hx]
  refine List.perm_iff_count.mpr fun a => ?_
  simp only [armed, rearm, hroll, List.map_append, List.map_cons, hothers front hfront',
    hothers back hback, List.filterMap_append, hcons, harm, List.count_append]
  omega

variable {σ : Type}

namespace Enrolled

variable {c' : Custody} {s s' : Session σ}

/-- Only what the books say about cleanups and handlers matters. -/
theorem congr (h : c.Enrolled s)
    (hroll : c'.roll.map Registration.entry = c.roll.map Registration.entry)
    (hsupplied : c'.supplied = c.supplied) (hfates : c'.fates = c.fates)
    (hrecords : s'.region.pool.cleanups = s.region.pool.cleanups)
    (hjournal : Journal.fates s'.region.heap.journal = Journal.fates s.region.heap.journal)
    (hhandles : s'.cleanups = s.cleanups) : c'.Enrolled s' := by
  have hserials : c'.roll.map (·.serial) = c.roll.map (·.serial) := by
    have hserials := congrArg (List.map CleanupEntry.serial) hroll
    rwa [List.map_map, List.map_map] at hserials
  have harmed : c'.armed = c.armed := by
    have hhandlers := congrArg (List.filterMap CleanupEntry.handler) hroll
    rwa [List.filterMap_map, List.filterMap_map] at hhandlers
  have hlength : c'.roll.length = c.roll.length := by
    have hmap := congrArg List.length hroll
    rwa [List.length_map, List.length_map] at hmap
  constructor
  · rw [hrecords, hroll]
    exact h.roll_eq
  · rw [hserials, hlength]
    exact h.serials
  · rw [hhandles, hlength]
    exact h.handles
  · rw [hjournal, hfates]
    exact h.fates_eq
  · rw [hfates, harmed, hsupplied]
    exact h.account

/-- Supplying memory is nothing to cleanups. -/
theorem supply (h : c.Enrolled s) {new : List Extent} (hsupplies : s.region.Supplies s'.region new)
    (hhandles : s'.cleanups = s.cleanups) : c.Enrolled s' :=
  h.congr rfl rfl rfl hsupplies.cleanups_eq hsupplies.fates_eq hhandles

/-- The handlers that run at the end are those that are armed. -/
theorem handlers_of_runs (h : c.Enrolled s) (payload : Extent → List UInt8) :
    (s.region.pool.cleanups.flatMap fun record =>
        record.handler.toList.map (Effect.ran · (payload record.payload))).filterMap
      Effect.handler? = c.armed := by
  have hruns := CleanupEntry.handlers_of_runs payload
    (s.region.pool.cleanups.map CleanupRecord.entry)
  rw [List.flatMap_map] at hruns
  refine hruns.trans ?_
  rw [h.roll_eq, List.filterMap_map]
  rfl

theorem length_cleanups (h : c.Enrolled s) : s.region.pool.cleanups.length = c.roll.length := by
  have hmap := congrArg List.length h.roll_eq
  rwa [List.length_map, List.length_map] at hmap

/-- No cleanup has the next serial number. -/
theorem serial_ne (h : c.Enrolled s) :
    ∀ record ∈ s.region.pool.cleanups, record.serial ≠ s.region.pool.cleanups.length := by
  intro record hrecord heq
  have hserials := congrArg (List.map CleanupEntry.serial) h.roll_eq
  rw [List.map_map, List.map_map] at hserials
  have hmem : record.serial ∈ c.roll.map (·.serial) :=
    hserials ▸ List.mem_map_of_mem (f := CleanupEntry.serial ∘ CleanupRecord.entry) hrecord
  rw [h.serials, List.mem_reverse, List.mem_range, heq, h.length_cleanups] at hmem
  exact Nat.lt_irrefl _ hmem

theorem nodup (h : c.Enrolled s) : (c.roll.map (·.serial)).Nodup := by
  rw [h.serials]
  exact (List.reverse_perm _).nodup_iff.mpr List.nodup_range

/-- The record that a handle names is the cleanup in the books. -/
theorem exists_of_handle (h : c.Enrolled s) {handle : Cleanup}
    (hhandle : handle.serial < c.roll.length) :
    ∃ record g, s.region.cleanup? handle = some record ∧
      c.registration? handle.serial = some g ∧ g ∈ c.roll ∧ g.serial = handle.serial ∧
      record.payload = g.payload.extent ∧ record.handler = g.handler := by
  -- the books have the serial number
  have hmem : handle.serial ∈ c.roll.map (·.serial) := by
    rw [h.serials, List.mem_reverse, List.mem_range]
    exact hhandle
  obtain ⟨g', hg', hserial'⟩ := List.mem_map.mp hmem
  have hsome : (c.registration? handle.serial).isSome := by
    rw [registration?, List.find?_isSome]
    exact ⟨g', hg', beq_iff_eq.mpr hserial'⟩
  obtain ⟨g, hg⟩ := Option.isSome_iff_exists.mp hsome
  -- and both lists are searched for it in the same way
  have hfind := congrArg (List.find? fun e : CleanupEntry => e.serial == handle.serial)
    h.roll_eq
  rw [List.find?_map, List.find?_map] at hfind
  have hboth : (s.region.cleanup? handle).map CleanupRecord.entry =
      (c.registration? handle.serial).map Registration.entry := hfind
  rw [hg, Option.map_some, Option.map_eq_some_iff] at hboth
  obtain ⟨record, hrecord, hentry⟩ := hboth
  simp only [CleanupRecord.entry, Registration.entry, CleanupEntry.mk.injEq] at hentry
  obtain ⟨hserial, -⟩ := List.find?_eq_some_iff_append.mp hg
  exact ⟨record, g, hrecord, hg, List.mem_of_find?_eq_some hg, beq_iff_eq.mp hserial, hentry.2⟩

/-- A handler comes to its end, and another one is installed or none. -/
theorem rearm (h : c.Enrolled s) {handle : Cleanup} (hhandle : handle.serial < c.roll.length)
    {fate : List UInt8 → Nat → Effect} (hfate : ∀ bytes id, (fate bytes id).handler? = some id)
    (handler : Option Nat) {r : Region σ} (hpool : r.pool = s.region.pool)
    (hfates : Journal.fates r.heap.journal =
      ((c.registration? handle.serial).bind fun g =>
        g.handler.map (fate g.payload.bytes)).toList ++ Journal.fates s.region.heap.journal)
    (hhandles : s'.cleanups.entries ⊆ s.cleanups.entries)
    (hregion : s'.region = r.arm handle handler) :
    (c.rearm handle.serial fate handler).Enrolled s' := by
  obtain ⟨record, g, -, hg, -⟩ := h.exists_of_handle hhandle
  have hlength : (c.rearm handle.serial fate handler).roll.length = c.roll.length :=
    List.length_map _
  constructor
  case roll_eq =>
    -- records and books are changed in the same place
    rw [hregion]
    show (CleanupRecord.setHandler r.pool.cleanups handle handler).map CleanupRecord.entry =
      (c.roll.map (·.arm handle.serial handler)).map Registration.entry
    rw [CleanupRecord.entry_setHandler, hpool, h.roll_eq, List.map_map, List.map_map]
    exact List.map_congr_left fun g _ => (g.entry_arm handle.serial handler).symm
  case serials =>
    rw [hlength, ← h.serials]
    show (c.roll.map (·.arm handle.serial handler)).map (·.serial) = _
    rw [List.map_map]
    exact List.map_congr_left fun g _ => g.serial_arm handle.serial handler
  case handles =>
    rw [hlength]
    exact fun entry hentry => h.handles entry (hhandles hentry)
  case fates_eq =>
    rw [hregion]
    show Journal.fates r.heap.journal = _
    rw [hfates, h.fates_eq]
    rfl
  case account =>
    have harmed := armed_rearm h.nodup hg fate handler
    have hended : ((g.handler.map (fate g.payload.bytes)).toList).filterMap Effect.handler? =
        g.handler.toList := by
      cases g.handler with
      | none => rfl
      | some id => simp [hfate]
    show (((_ : Option Effect).toList ++ c.fates).filterMap Effect.handler? ++ _).Perm
      (handler.toList ++ c.supplied)
    rw [hg, Option.bind_some, List.filterMap_append, hended]
    refine List.perm_iff_count.mpr fun a => ?_
    have haccount := h.account.count_eq a
    have hswap := harmed.count_eq a
    simp only [List.count_append] at haccount hswap ⊢
    omega

/-- A handler that is supplied in vain is disposed of at once. -/
theorem refuse (h : c.Enrolled s) {r : Region σ} {new : List Extent}
    (hsupplies : s.region.Supplies r new) (handler : Option Nat)
    (hregion : s'.region = r.discard handler) (hhandles : s'.cleanups = s.cleanups) :
    (c.refuse handler).Enrolled s' where
  roll_eq := by
    rw [hregion, Region.pool_discard, hsupplies.cleanups_eq]
    exact h.roll_eq
  serials := h.serials
  handles := by
    rw [hhandles]
    exact h.handles
  fates_eq := by
    rw [hregion, Region.fates_discard, hsupplies.fates_eq, h.fates_eq]
    rfl
  account := by
    show (List.filterMap Effect.handler? (_ ++ c.fates) ++ c.armed).Perm _
    rw [List.filterMap_append, handler?_discarded, List.append_assoc]
    exact h.account.append_left _

/-- A cleanup that is registered is enrolled with its handler. -/
theorem register (h : c.Enrolled s) {start size : Nat} {handler : Option Nat}
    (hregisters : s.region.Registers s'.region size handler start)
    (hhandles : ∀ entry ∈ s'.cleanups.entries,
      entry.2 = ⟨s.region.pool.cleanups.length⟩ ∨ entry ∈ s.cleanups.entries) :
    (c.register start size handler).Enrolled s' := by
  have hlength := h.length_cleanups
  obtain ⟨address, hrecords⟩ := hregisters.cleanups_eq
  constructor
  case roll_eq =>
    rw [hrecords, List.map_cons, h.roll_eq, hlength]
    simp [Custody.register, CleanupRecord.entry, Registration.entry, Holding.extent]
  case serials =>
    show c.roll.length :: c.roll.map (·.serial) = (List.range (c.roll.length + 1)).reverse
    rw [h.serials, List.range_succ, List.reverse_append]
    rfl
  case handles =>
    intro entry hentry
    show entry.2.serial < c.roll.length + 1
    rcases hhandles entry hentry with heq | hold
    · rw [heq, hlength]
      exact Nat.lt_succ_self _
    · exact Nat.lt_succ_of_lt (h.handles entry hold)
  case fates_eq =>
    rw [hregisters.fates_eq]
    exact h.fates_eq
  case account =>
    have harmed : (c.register start size handler).armed = handler.toList ++ c.armed := by
      cases handler <;> rfl
    rw [harmed]
    refine List.perm_iff_count.mpr fun a => ?_
    have haccount := h.account.count_eq a
    simp only [Custody.register, List.count_append] at haccount ⊢
    omega

variable [RawSource σ]

/-- A reset disposes of every handler that is armed. -/
theorem reset (h : c.Enrolled s) : c.reset.Enrolled { s.forget with region := s.region.reset } where
  roll_eq := by
    show s.region.reset.pool.cleanups.map _ = []
    rw [Region.pool_reset]
    rfl
  serials := rfl
  handles := by
    intro entry hentry
    cases hentry
  fates_eq := by
    show Journal.fates s.region.reset.heap.journal = _
    have hhandlers := congrArg (List.filterMap CleanupEntry.handler) h.roll_eq
    rw [List.filterMap_map, List.filterMap_map] at hhandlers
    rw [Region.fates_reset, h.fates_eq]
    exact congrArg (fun l => (l.map Effect.discarded).reverse ++ c.fates) hhandlers
  account := by
    show (List.filterMap Effect.handler? (_ ++ c.fates) ++ []).Perm _
    rw [List.append_nil, List.filterMap_append, List.filterMap_reverse, handler?_discarded]
    refine List.Perm.trans ?_ h.account
    exact ((List.reverse_perm _).append_right _).trans List.perm_append_comm

end Enrolled

end Custody

end RegionTrie
