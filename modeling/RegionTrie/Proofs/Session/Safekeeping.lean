import RegionTrie.Heap.Tracker
import RegionTrie.Proofs.Session.Books

/-!
# What is kept is safe

A session keeps safe what its users keep in it, for any careful acts in any order and any refusals
of the source. Contents are disturbed by nothing except a store through the very same allocation,
and handlers come to their end once, seeing their payloads if they run.

## Main definitions

* `Session.Touches`: an act stores through a holding or gives it up

## Main results

* `Session.contents_undisturbed`: memory shows the bytes last stored through every allocation
* `Session.handlers_once`: every handler is run or disposed of, once, and the end of a session runs
  those that are armed
-/

namespace RegionTrie

namespace Session

open Region

variable {σ : Type} [RawSource σ]

/-- The act stores through this holding, or gives it up. -/
def Touches (s : Session σ) (c : Custody) (k : Holding) : Act σ → Prop
  | .turn (.ask (.fill range _) _) | .write range _ _ => s.ranges.get? range = some k.extent
  | .turn (.ask (.writePayload cleanup _ _) _) =>
    ∃ handle ∈ s.cleanups.get? cleanup, ∃ g ∈ c.registration? handle.serial,
      g.payload.extent = k.extent
  | .turn (.ask (.free range offset) _) =>
    ∃ e ∈ s.ranges.get? range, k.startsAt (e.start + offset)
  | .turn (.free address) => k.startsAt address
  | .turn (.ask .reset _) => True
  | _ => False

theorem mem_live_store {c : Custody} {k : Holding} (hk : k ∈ c.live) {e : Extent}
    (hne : e ≠ k.extent) (offset : Nat) (bytes : List UInt8) :
    k ∈ (c.store e offset bytes).live := by
  rw [Custody.live_store]
  refine List.mem_map.mpr ⟨k, hk, if_neg hne.symm⟩

theorem mem_live_gain {c : Custody} {k : Holding} (hk : k ∈ c.live)
    (outcome : Except Refusal Answer) (bytes : Nat → List UInt8) :
    k ∈ (c.gain outcome bytes).live := by
  unfold Custody.gain
  split
  · exact hk
  split
  · exact hk
  · exact List.mem_cons_of_mem _ hk

theorem mem_live_afterFree {c : Custody} {k : Holding} (hk : k ∈ c.live) (r : Region σ)
    {address : Nat} (hne : ¬ k.startsAt address) : k ∈ (c.afterFree r address).live := by
  unfold Custody.afterFree
  split
  · exact hk
  · rw [Custody.live_lose]
    exact List.mem_filter.mpr ⟨hk, by simpa using hne⟩

/-- The books change only what an act touches. -/
theorem mem_live_after {s : Session σ} {c : Custody} {a : Act σ} {k : Holding} (hk : k ∈ c.live)
    (hnot : ¬ s.Touches c k a) : k ∈ (c.after s a).live := by
  cases a with
  | write range offset bytes =>
    simp only [Custody.after, Custody.withRange]
    split
    · exact hk
    · next e hrange =>
      exact mem_live_store hk (fun heq => hnot (hrange.trans (congrArg some heq))) _ _
  | disturb start bytes => exact hk
  | turn t =>
    cases t with
    | free address => exact mem_live_afterFree hk s.region hnot
    | adjust f => exact hk
    | ask q hq =>
      cases q with
      | allocate | allocatePacked | allocateZeroed | allocateAligned | allocateLayout
      | allocateValue | allocateSlice | allocateText => exact mem_live_gain hk _ _
      | free range offset =>
        simp only [Custody.after, Custody.afterRequest, Custody.withRange]
        split
        · exact hk
        · next e hrange =>
          exact mem_live_afterFree hk s.region fun hstarts => hnot ⟨e, hrange, hstarts⟩
      | fill range byte =>
        simp only [Custody.after, Custody.afterRequest, Custody.withRange]
        split
        · exact hk
        · next e hrange =>
          exact mem_live_store hk (fun heq => hnot (hrange.trans (congrArg some heq))) _ _
      | reset => exact absurd trivial hnot
      | addCleanup cleanup size handler =>
        simp only [Custody.after, Custody.afterRequest, Custody.afterAdd]
        split
        · exact hk
        · exact List.perm_middle.mem_iff.mpr (List.mem_cons_of_mem _ hk)
      | setHandler | disarm | runNow =>
        simp only [Custody.after, Custody.afterRequest, Custody.withHandle]
        split
        · exact hk
        · rw [Custody.live_rearm]
          exact hk
      | writePayload cleanup offset bytes =>
        simp only [Custody.after, Custody.afterRequest, Custody.withHandle, Custody.afterPayload]
        split
        · exact hk
        · next handle hhandle =>
          split
          · exact hk
          · next g hg =>
            exact mem_live_store hk (fun heq => hnot ⟨handle, hhandle, g, hg, heq⟩) offset bytes
      | _ => exact hk

/-- **Contents are not disturbed.** After any careful acts over a source that grants what it should,
memory shows the bytes last stored through every allocation and every payload that is still kept,
and requests to read answer with them. Whatever is done next, these bytes stay as they are unless it
is a store through the very same allocation, or gives that up. -/
theorem contents_undisturbed {config : PoolConfig} {source : σ} {s : Session σ}
    (h : create config { source } = .ok s) (acts : List (Act σ)) (hcareful : s.Careful {} acts)
    (hlawful : Journal.Lawful (s.attend {} acts).1.region.heap.journal) :
    let t := (s.attend {} acts).1
    let c := (s.attend {} acts).2
    (∀ k ∈ c.live, t.region.contents k.extent = k.bytes) ∧
      (∀ k ∈ c.ranges, ∀ n, t.ranges.get? n = some k.extent →
        t.perform (.read n) = (.ok (.bytes k.bytes), t)) ∧
      (∀ n handle, t.cleanups.get? n = some handle →
        ∃ g ∈ c.roll, g.serial = handle.serial ∧
          (g.kept → t.perform (.readPayload n) =
            (.ok (.payload g.handler.isSome g.payload.bytes), t))) ∧
      ∀ a, t.Allowed c a → Journal.Lawful (t.act a).region.heap.journal →
        ∀ k ∈ c.live, ¬ t.Touches c k a →
          k ∈ (c.after t a).live ∧
            (t.act a).region.contents k.extent = t.region.contents k.extent := by
  intro t c
  obtain ⟨hkept, hsettled⟩ : t.Kept c ∧ t.region.Settled := kept_of_create h hcareful hlawful
  refine ⟨hkept.shown.contents_eq, ?_, ?_, ?_⟩
  · intro k hk n hrange
    have hcontents := hkept.shown.contents_eq k (List.mem_append_left _ hk)
    simp only [perform, withRange, hrange, hcontents]
  · intro n handle hhandle
    obtain ⟨record, g, hrecord, -, hmem, hserial, hpayload, hhandler⟩ :=
      hkept.enrolled.exists_of_handle (hkept.enrolled.handles _ (Table.mem_of_get? hhandle))
    refine ⟨g, hmem, hserial, fun hg => ?_⟩
    have hlive := Custody.mem_live_of_mem_roll hmem hg
    simp only [perform, withCleanup, hhandle, payloadAnswer, Region.isArmed, Region.handler?,
      Region.payload, hrecord, Option.bind_some, hhandler, hpayload,
      hkept.shown.contents_eq _ hlive]
  · intro a hallowed hnext k hk hnot
    have hkept' := kept_act hkept hsettled (settled_act hsettled hnext) hallowed
    have hlive := mem_live_after hk hnot
    exact ⟨hlive, (hkept'.shown.contents_eq k hlive).trans (hkept.shown.contents_eq k hk).symm⟩

/-- Contents stay undisturbed, for instance, where dirty bytes of a block are handed out again and a
trie grows among a range and a payload that are written, over a numbered source that stops
granting. -/
theorem contents_undisturbed_tracked :
    ∃ s acts, create (.withSize 256) { source := ({} : Tracker) } = .ok s ∧
      acts = [.turn (.ask (.allocate (some 0) 64) trivial), .turn (.ask (.fill 0 255) trivial),
        .turn (.ask .reset trivial), .turn (.ask (.allocateZeroed (some 1) 8) trivial),
        .turn (.ask (.addCleanup 0 4 (some 7)) trivial), .write 1 2 [1, 2],
        .turn (.ask (.createTrie 0 .word (.unsigned 4) (.plain .none)) trivial),
        .turn (.ask (.insert 0 0xC0000000 (.length 2) 5) trivial),
        .turn (.ask (.allocate (some 2) 1000) trivial),
        .turn (.ask (.writePayload 0 1 [9]) trivial), .turn (.adjust (·.withBudget (some 0))),
        .turn (.ask (.allocate none 1000) trivial), .turn (.ask (.free 2 0) trivial)] ∧
      s.Careful {} acts ∧ Journal.Lawful (s.attend {} acts).1.region.heap.journal ∧
        (s.attend {} acts).2.live.map (·.bytes) = [[0, 0, 1, 2, 0, 0, 0, 0], [0, 9, 0, 0]] ∧
        ∀ k ∈ (s.attend {} acts).2.live,
          (s.attend {} acts).1.region.contents k.extent = k.bytes := by
  obtain ⟨acts, hacts⟩ : ∃ acts : List (Act Tracker),
      acts = [.turn (.ask (.allocate (some 0) 64) trivial), .turn (.ask (.fill 0 255) trivial),
        .turn (.ask .reset trivial), .turn (.ask (.allocateZeroed (some 1) 8) trivial),
        .turn (.ask (.addCleanup 0 4 (some 7)) trivial), .write 1 2 [1, 2],
        .turn (.ask (.createTrie 0 .word (.unsigned 4) (.plain .none)) trivial),
        .turn (.ask (.insert 0 0xC0000000 (.length 2) 5) trivial),
        .turn (.ask (.allocate (some 2) 1000) trivial),
        .turn (.ask (.writePayload 0 1 [9]) trivial), .turn (.adjust (·.withBudget (some 0))),
        .turn (.ask (.allocate none 1000) trivial), .turn (.ask (.free 2 0) trivial)] := ⟨_, rfl⟩
  have hcheck : (match create (.withSize 256) { source := ({} : Tracker) } with
      | .ok s => decide (s.Careful {} acts ∧
          Journal.Lawful (s.attend {} acts).1.region.heap.journal ∧
          (s.attend {} acts).2.live.map (·.bytes) = [[0, 0, 1, 2, 0, 0, 0, 0], [0, 9, 0, 0]])
      | .error _ => false) = true := by
    rw [hacts]
    decide +kernel
  rcases h : create (.withSize 256) { source := ({} : Tracker) } with ⟨fault, heap⟩ | s <;>
    rw [h] at hcheck
  · cases hcheck
  · obtain ⟨hcareful, hlawful, hlive⟩ := of_decide_eq_true hcheck
    obtain ⟨hcontents, -⟩ := contents_undisturbed h acts hcareful hlawful
    exact ⟨s, acts, rfl, hacts, hcareful, hlawful, hlive, hcontents⟩

/-! ## Handlers -/

/-- **Every handler comes to its end once.** After any careful acts over a source that grants what
it should, every handler ever supplied is armed or was run or disposed of, once, and the journal has
these runs and disposals as the books have them. There are as many cleanups as in the books; one
that a handle names says truly, when it is run now, whether there was a handler; and payloads lie in
live buffers. When the session ends then, handlers run before anything is given back: exactly those
that are armed, newest cleanup first, each on what was last stored in its payload, as long as no
payload was freed on its own. So in the end every handler ever supplied was run or disposed of,
once. -/
theorem handlers_once {config : PoolConfig} {source : σ} {s : Session σ}
    (h : create config { source } = .ok s) (acts : List (Act σ)) (hcareful : s.Careful {} acts)
    (hlawful : Journal.Lawful (s.attend {} acts).1.region.heap.journal) :
    let t := (s.attend {} acts).1
    let c := (s.attend {} acts).2
    Journal.fates t.region.heap.journal = c.fates ∧
      (c.fates.filterMap Effect.handler? ++ c.armed).Perm c.supplied ∧
      t.region.pool.cleanupCount = c.roll.length ∧
      (∀ n handle, t.cleanups.get? n = some handle →
        ∃ g ∈ c.roll, g.serial = handle.serial ∧
          (t.perform (.runNow n)).1 = .ok (.flag g.handler.isSome)) ∧
      (∀ g ∈ c.roll, g.kept → 0 < g.payload.bytes.length →
        ∃ b ∈ t.region.heap.live,
          b.base ≤ g.payload.start ∧ g.payload.extent.stop ≤ b.extent.stop) ∧
      ∃ during after, t.close.journal = after ++ (during ++ t.region.heap.journal) ∧
        (∀ b, .released b ∉ during) ∧ Journal.fates after = [] ∧
        ((∀ g ∈ c.roll, g.kept) → Journal.fates during =
          (c.roll.flatMap fun g => g.handler.toList.map (.ran · g.payload.bytes)).reverse) ∧
        ((Journal.fates t.close.journal).filterMap Effect.handler?).Perm c.supplied := by
  intro t c
  obtain ⟨hkept, hsettled⟩ : t.Kept c ∧ t.region.Settled := kept_of_create h hcareful hlawful
  refine ⟨hkept.enrolled.fates_eq, hkept.enrolled.account, hkept.enrolled.length_cleanups, ?_, ?_,
    ?_⟩
  · intro n handle hhandle
    obtain ⟨record, g, hrecord, -, hmem, hserial, -, hhandler⟩ :=
      hkept.enrolled.exists_of_handle (hkept.enrolled.handles _ (Table.mem_of_get? hhandle))
    refine ⟨g, hmem, hserial, ?_⟩
    simp only [perform, withCleanup, hhandle, Region.runNow, hrecord, hhandler]
  · intro g hg hkeptg hpos
    have hlive := Custody.mem_live_of_mem_roll hg hkeptg
    exact (hsettled.lot_in_live (hkept.shown.mem_lots hlive hpos)).1
  · obtain ⟨during, hduring, hnone, hruns⟩ := t.region.journal_runCleanups
    obtain ⟨after, hafter, hfates⟩ := t.region.journal_close
    have hjournal : t.close.journal = after ++ (during ++ t.region.heap.journal) := by
      rw [← hduring]
      exact hafter
    refine ⟨during, after, hjournal, hnone, hfates, fun hall => ?_, ?_⟩
    · rw [hruns, hkept.runs_eq hall]
    · rw [hjournal, Journal.fates_append, Journal.fates_append, hfates, List.nil_append, hruns,
        hkept.enrolled.fates_eq, List.filterMap_append, List.filterMap_reverse,
        hkept.enrolled.handlers_of_runs t.region.contents]
      refine List.Perm.trans ?_ hkept.enrolled.account
      exact ((List.reverse_perm _).append_right _).trans List.perm_append_comm

/-- One handler is replaced, one runs at once, one is refused with its cleanup for want of a buffer,
and the end of the session runs the two that are armed, the newer cleanup first. -/
theorem handlers_once_tracked :
    ∃ s acts, create (.withSize 256) { source := ({} : Tracker) } = .ok s ∧
      acts = [.turn (.ask (.addCleanup 0 4 (some 1)) trivial),
        .turn (.ask (.addCleanup 1 1000 (some 2)) trivial),
        .turn (.ask (.addCleanup 2 2 (some 3)) trivial), .turn (.ask (.runNow 1) trivial),
        .turn (.ask (.setHandler 0 4) trivial), .turn (.adjust (·.withBudget (some 0))),
        .turn (.ask (.addCleanup 3 1000 (some 5)) trivial),
        .turn (.ask (.writePayload 0 1 [9]) trivial)] ∧
      s.Careful {} acts ∧ Journal.Lawful (s.attend {} acts).1.region.heap.journal ∧
        ∃ during after, (s.attend {} acts).1.close.journal =
            after ++ (during ++ (s.attend {} acts).1.region.heap.journal) ∧
          Journal.fates during = [.ran 4 [0, 9, 0, 0], .ran 3 [0, 0]] ∧
          ((Journal.fates (s.attend {} acts).1.close.journal).filterMap Effect.handler?).Perm
            [5, 4, 3, 2, 1] := by
  obtain ⟨acts, hacts⟩ : ∃ acts : List (Act Tracker),
      acts = [.turn (.ask (.addCleanup 0 4 (some 1)) trivial),
        .turn (.ask (.addCleanup 1 1000 (some 2)) trivial),
        .turn (.ask (.addCleanup 2 2 (some 3)) trivial), .turn (.ask (.runNow 1) trivial),
        .turn (.ask (.setHandler 0 4) trivial), .turn (.adjust (·.withBudget (some 0))),
        .turn (.ask (.addCleanup 3 1000 (some 5)) trivial),
        .turn (.ask (.writePayload 0 1 [9]) trivial)] := ⟨_, rfl⟩
  have hcheck : (match create (.withSize 256) { source := ({} : Tracker) } with
      | .ok s => decide (s.Careful {} acts ∧
          Journal.Lawful (s.attend {} acts).1.region.heap.journal ∧
          (∀ g ∈ (s.attend {} acts).2.roll, g.kept) ∧
          ((s.attend {} acts).2.roll.flatMap fun g =>
            g.handler.toList.map (Effect.ran · g.payload.bytes)).reverse =
              [.ran 4 [0, 9, 0, 0], .ran 3 [0, 0]] ∧
          (s.attend {} acts).2.supplied = [5, 4, 3, 2, 1])
      | .error _ => false) = true := by
    rw [hacts]
    decide +kernel
  rcases h : create (.withSize 256) { source := ({} : Tracker) } with ⟨fault, heap⟩ | s <;>
    rw [h] at hcheck
  · cases hcheck
  · obtain ⟨hcareful, hlawful, hkept, hruns, hsupplied⟩ := of_decide_eq_true hcheck
    obtain ⟨-, -, -, -, -, during, after, hjournal, -, -, hduring, hperm⟩ :=
      handlers_once h acts hcareful hlawful
    exact ⟨s, acts, rfl, hacts, hcareful, hlawful, during, after, hjournal,
      (hduring hkept).trans hruns, hsupplied ▸ hperm⟩

end Session

end RegionTrie
