import Mathlib.Data.List.Flatten
import RegionTrie.Proofs.Session.Contents
import RegionTrie.Proofs.Session.Handlers

/-!
# The books of the users are right

Whatever the users of a session do with what is still theirs, and whatever the session writes into
memory of its own, the books stay right: memory shows what they say about contents, and records and
journal agree with what they say about cleanups.

## Main definitions

* `Session.Kept`: the books are right

## Main results

* `Session.Kept.gain`, `Session.Kept.store`, `Session.Kept.rearm` and others: what an act may come
  down to keeps the books right
* `Session.kept_perform`, `Session.kept_act`: so does every request and every act that is allowed
* `Session.kept_attend`, `Session.kept_of_create`: after any careful acts the books are right
-/

namespace RegionTrie

open Region

namespace Session

variable {σ : Type} {s s' : Session σ} {c : Custody}

/-! ## Slabs of the tries in a table -/

theorem slabs_set (s : Session σ) (n : Nat) (t : SessionTrie) :
    ({ s with tries := s.tries.set n t } : Session σ).slabs =
      t.trie.nodes.slabExtents ++ ({ s with tries := s.tries.erase n } : Session σ).slabs :=
  rfl

theorem slabs_erase_sublist (s : Session σ) (n : Nat) :
    ({ s with tries := s.tries.erase n } : Session σ).slabs.Sublist s.slabs :=
  List.filter_sublist.flatMap _

/-- A trie that is taken out takes its slabs with it. -/
theorem slabs_erase_of_get? {n : Nat} {t : SessionTrie} (h : s.tries.get? n = some t) :
    (t.trie.nodes.slabExtents ++ ({ s with tries := s.tries.erase n } : Session σ).slabs).Subperm
      s.slabs := by
  obtain ⟨front, back, heq, hrest⟩ := Table.exists_of_get? h
  have hslabs : s.slabs.Perm (t.trie.nodes.slabExtents ++
      (front ++ back).flatMap fun entry => entry.2.trie.nodes.slabExtents) := by
    rw [slabs, heq]
    exact List.perm_middle.flatMap_right _
  exact ((hrest.flatMap _).append_left _).subperm.trans hslabs.symm.subperm

/-- The books are right. -/
structure Kept (s : Session σ) (c : Custody) : Prop where
  shown : c.Shown s
  enrolled : c.Enrolled s

namespace Kept

/-- Memory is supplied to tries, or to nobody. -/
theorem supply (h : s.Kept c) (hsettled : s'.region.Settled) {new : List Extent}
    (hsupplies : s.region.Supplies s'.region new)
    (hslabs : ∀ e, s'.slabs.count e ≤ new.count e + s.slabs.count e)
    (hhandles : s'.cleanups = s.cleanups) : s'.Kept c where
  shown := by
    refine h.shown.provide hsettled hsupplies.toProvides (fun e => ?_) fun k hk => .inl hk
    have hle := hslabs e
    omega
  enrolled := h.enrolled.supply hsupplies hhandles

/-- Memory is supplied to a user. -/
theorem gain (h : s.Kept c) (hsettled : s'.region.Settled) {k : Holding}
    (hsupplies : s.region.Supplies s'.region (Extent.solid [k.extent]))
    (hshows : s'.region.contents k.extent = k.bytes) (htries : s'.tries = s.tries)
    (hhandles : s'.cleanups = s.cleanups) :
    s'.Kept { c with ranges := k :: c.ranges } where
  shown := by
    refine h.shown.provide hsettled hsupplies.toProvides (fun e => ?_) fun l hl => ?_
    · have hoccupied : ({ c with ranges := k :: c.ranges } : Custody).occupied =
          Extent.solid [k.extent] ++ c.occupied := by
        simp only [Custody.occupied, Custody.live, Extent.solid, List.cons_append, List.map_cons,
          ← List.filter_append, List.nil_append]
      have hsame : s'.slabs = s.slabs := by rw [slabs, htries, slabs]
      rw [hoccupied, hsame, List.count_append]
      omega
    · rcases List.mem_cons.mp hl with rfl | hl
      · exact .inr hshows
      · exact .inl hl
  enrolled := (h.enrolled.supply hsupplies hhandles).congr rfl rfl rfl rfl rfl rfl

theorem store (h : s.Kept c) (hsettled : s.region.Settled) {e : Extent} (he : c.Keeps e)
    (offset : Nat) (bytes : List UInt8) :
    ({ s with
      region := s.region.store (e.start + offset)
        (bytes.take (e.size - offset)).toArray } : Session σ).Kept (c.store e offset bytes) where
  shown := h.shown.store hsettled he offset bytes
  enrolled := by
    refine h.enrolled.congr ?_ rfl rfl rfl rfl rfl
    simp [Custody.store, Registration.entry, Function.comp_def]

theorem disturb (h : s.Kept c) (hsettled : s.region.Settled) {start : Nat} {bytes : List UInt8}
    (hprivate : ∀ i < bytes.length, s.Private (start + i)) :
    ({ s with region := s.region.store start bytes.toArray } : Session σ).Kept c where
  shown := h.shown.disturb hsettled hprivate
  enrolled := h.enrolled.congr rfl rfl rfl rfl rfl rfl

/-! ## Requests for memory -/

theorem afterRange (h : s.Kept c) {keep : Option Nat} {size : Nat}
    {op : Except Fault Nat × Region σ} {f : Nat → Answer} {bytes : Nat → List UInt8}
    (hsettled : op.2.Settled) (hlends : s.region.Lends op bytes)
    (hf : ∀ start, (f start).start? = some start ∨ (f start).start? = none) :
    (s.afterRange keep size op f).2.Kept (c.gain (s.afterRange keep size op f).1 bytes) := by
  rcases op with ⟨fault | start, r⟩
  · refine h.supply hsettled (hlends : s.region.Supplies r []) (fun e => ?_) rfl
    exact Nat.le_add_left _ _
  · obtain ⟨hsupplies, hshows⟩ := hlends
    -- remembering the range under a number is nothing to the region
    have hsession : (({ s with region := r } : Session σ).keepRange keep ⟨start, size⟩).region = r ∧
        (({ s with region := r } : Session σ).keepRange keep ⟨start, size⟩).tries = s.tries ∧
        (({ s with region := r } : Session σ).keepRange keep ⟨start, size⟩).cleanups =
          s.cleanups := by
      cases keep <;> exact ⟨rfl, rfl, rfl⟩
    obtain ⟨hregion, htries, hhandles⟩ := hsession
    show Kept (({ s with region := r } : Session σ).keepRange keep ⟨start, size⟩)
      (c.gain (.ok (f start)) bytes)
    unfold Custody.gain
    rcases hf start with hstart | hstart <;> simp only [hstart]
    · refine h.gain (k := ⟨start, bytes start⟩) ?_ ?_ ?_ htries hhandles
      all_goals rw [hregion]
      · exact hsettled
      · exact hsupplies
      · exact hshows
    · rw [← hregion] at hsettled hsupplies
      refine h.supply hsettled hsupplies (fun e => ?_) hhandles
      rw [slabs, htries]
      exact Nat.le_add_left _ _

/-- Memory that is not written shows what happens to be there. -/
theorem afterRange_contents (h : s.Kept c) {keep : Option Nat} {size : Nat}
    {op : Except Fault Nat × Region σ}
    (hsettled : (s.afterRange keep size op fun start => .place (.address start)).2.region.Settled)
    (herror : ∀ fault r, op = (.error fault, r) → s.region.Fails fault r)
    (hok : ∀ start r, op = (.ok start, r) →
      s.region.Supplies r (Extent.solid [⟨start, size⟩])) :
    (s.afterRange keep size op fun start => .place (.address start)).2.Kept
      (c.gain (s.afterRange keep size op fun start => .place (.address start)).1 fun start =>
        (s.afterRange keep size op fun start => .place (.address start)).2.region.contents
          ⟨start, size⟩) := by
  simp only [region_afterRange] at hsettled ⊢
  exact h.afterRange hsettled (lends_contents herror hok) fun _ => .inl rfl

theorem afterLayout (h : s.Kept c) {keep : Option Nat} {l : Layout}
    {op : Except Fault Nat × Region σ} {f : Place → Region σ → Nat → Answer}
    {bytes : Nat → List UInt8} (hsettled : op.2.Settled) (hlends : s.region.Lends op bytes)
    (haddress : ∀ r start, (f (.address start) r start).start? = some start)
    (hdangling : ∀ r start, (f (.dangling l.align) r start).start? = none) :
    (s.afterLayout keep l op f).2.Kept (c.gain (s.afterLayout keep l op f).1 bytes) := by
  unfold Session.afterLayout
  split
  · exact h.afterRange hsettled hlends fun start => .inr (hdangling op.2 start)
  · exact h.afterRange hsettled hlends fun start => .inl (haddress op.2 start)

/-! ## Cleanups -/

/-- A handler comes to its end, and another one is installed or none. -/
theorem rearm (h : s.Kept c) (hsettled : s'.region.Settled) {handle : Cleanup}
    (hhandle : handle.serial < c.roll.length) {fate : List UInt8 → Nat → Effect}
    (hfate : ∀ bytes id, (fate bytes id).handler? = some id) (handler : Option Nat) {r : Region σ}
    (hprovides : s.region.Provides r []) (hpool : r.pool = s.region.pool)
    (hfates : Journal.fates r.heap.journal =
      ((c.registration? handle.serial).bind fun g =>
        g.handler.map (fate g.payload.bytes)).toList ++ Journal.fates s.region.heap.journal)
    (hregion : s'.region = r.arm handle handler) (htries : s'.tries = s.tries)
    (hhandles : s'.cleanups.entries ⊆ s.cleanups.entries) :
    s'.Kept (c.rearm handle.serial fate handler) where
  shown := by
    have harm := hprovides.trans (r.provides_arm handle handler)
    rw [← hregion] at harm
    refine h.shown.provide hsettled harm (fun e => ?_) fun k hk => .inl ?_
    · rw [Custody.occupied, Custody.live_rearm, slabs, htries]
      exact Nat.le_add_left _ _
    · rwa [Custody.live_rearm] at hk
  enrolled := h.enrolled.rearm hhandle hfate handler hpool hfates hhandles hregion

/-- A cleanup is refused, and so is the handler that came with it. -/
theorem refuse (h : s.Kept c) {r : Region σ} {new : List Extent}
    (hsupplies : s.region.Supplies r new) (handler : Option Nat)
    (hsettled : (r.discard handler).Settled) :
    ({ s with region := r.discard handler } : Session σ).Kept (c.refuse handler) where
  shown := by
    have hprovides := hsupplies.toProvides.trans (r.provides_discard handler)
    refine h.shown.provide hsettled hprovides (fun e => ?_) fun k hk => .inl hk
    exact Nat.le_add_left _ _
  enrolled := h.enrolled.refuse hsupplies handler rfl rfl

/-- A cleanup is registered under a number. -/
theorem register (h : s.Kept c) {r : Region σ} {start size : Nat} {handler : Option Nat}
    (hregisters : s.region.Registers r size handler start) (hsettled : r.Settled) (n : Nat) :
    ({ s with
      region := r,
      cleanups := s.cleanups.set n ⟨s.region.pool.cleanups.length⟩ } : Session σ).Kept
        (c.register start size handler) where
  shown := by
    -- the payload comes to what is kept
    have hlive : (c.register start size handler).live.Perm
        (⟨start, List.replicate size 0⟩ :: c.live) :=
      List.perm_middle
    have hoccupied : (c.register start size handler).occupied.Perm
        (Extent.solid [⟨start, size⟩] ++ c.occupied) := by
      have hfilter := (hlive.map (·.extent)).filter fun e : Extent => decide (0 < e.size)
      refine hfilter.trans (List.Perm.of_eq ?_)
      simp only [List.map_cons, Holding.extent, List.length_replicate, Custody.occupied,
        Extent.solid, ← List.filter_append, List.cons_append, List.nil_append]
    refine h.shown.provide hsettled hregisters.provides (fun e => ?_) fun k hk => ?_
    · rw [hoccupied.count_eq, List.count_append, Nat.add_assoc]
      exact Nat.le_refl _
    · rcases List.mem_cons.mp (hlive.mem_iff.mp hk) with rfl | hk
      · simp only [Holding.extent, List.length_replicate]
        exact .inr hregisters.zeros
      · exact .inl hk
  enrolled := by
    refine h.enrolled.register hregisters fun entry hentry => ?_
    rcases List.mem_cons.mp hentry with rfl | hold
    · exact .inl rfl
    · exact .inr (Table.mem_erase hold)

/-- Bytes stored in a payload are stored through what is kept. -/
theorem writePayload (h : s.Kept c) (hsettled : s.region.Settled) {handle : Cleanup}
    (hhandle : handle.serial < c.roll.length) (hkeeps : c.KeepsPayload handle.serial)
    (offset : Nat) (bytes : List UInt8) :
    ({ s with region := s.region.writePayload handle offset bytes } : Session σ).Kept
      (c.afterPayload handle.serial offset bytes) := by
  obtain ⟨record, g, hrecord, hg, hmem, hserial, hpayload, -⟩ := h.enrolled.exists_of_handle hhandle
  have hlive : c.Keeps g.payload.extent :=
    ⟨g.payload, Custody.mem_live_of_mem_roll hmem (hkeeps g hmem hserial), rfl⟩
  simp only [Region.writePayload, Custody.afterPayload, hrecord, hg, hpayload]
  exact h.store hsettled hlive offset bytes

theorem setHandler (h : s.Kept c) {handle : Cleanup} (hhandle : handle.serial < c.roll.length)
    (handler : Option Nat)
    (hsettled : ((s.region.discard (s.region.handler? handle)).arm handle handler).Settled) :
    ({ s with
      region := (s.region.discard (s.region.handler? handle)).arm handle handler } :
        Session σ).Kept (c.rearm handle.serial (fun _ => .discarded) handler) := by
  obtain ⟨record, g, hrecord, hg, -, -, -, hhandler⟩ := h.enrolled.exists_of_handle hhandle
  refine h.rearm hsettled hhandle (fun _ _ => rfl) handler (s.region.provides_discard _)
    (s.region.pool_discard _) ?_ rfl rfl (List.Subset.refl _)
  rw [fates_discard, Region.handler?, hrecord, hg, Option.bind_some, Option.bind_some, hhandler]
  cases g.handler <;> rfl

/-- A handler that is run now sees its payload. -/
theorem runNow (h : s.Kept c) {handle : Cleanup} (hhandle : handle.serial < c.roll.length)
    (hkeeps : c.KeepsPayload handle.serial) (n : Nat)
    (hsettled : (s.region.runNow handle).2.Settled) :
    ({ s with
      region := (s.region.runNow handle).2, cleanups := s.cleanups.erase n } : Session σ).Kept
        (c.rearm handle.serial (fun payload id => .ran id payload) none) := by
  obtain ⟨record, g, hrecord, hg, hmem, hserial, hpayload, hhandler⟩ :=
    h.enrolled.exists_of_handle hhandle
  have hlive := Custody.mem_live_of_mem_roll hmem (hkeeps g hmem hserial)
  simp only [Region.runNow, hrecord] at hsettled ⊢
  refine h.rearm hsettled hhandle (fun _ _ => rfl) none (s.region.provides_runHandler record)
    (s.region.pool_runHandler record) ?_ rfl rfl fun entry hentry => Table.mem_erase hentry
  rw [fates_runHandler, hpayload, h.shown.contents_eq _ hlive, hhandler, hg, Option.bind_some]
  cases g.handler <;> rfl

/-- Handlers that run at the end see what is kept. -/
theorem runs_eq (h : s.Kept c) (hall : ∀ g ∈ c.roll, g.kept) :
    (s.region.pool.cleanups.flatMap fun record =>
        record.handler.toList.map (Effect.ran · (s.region.contents record.payload))) =
      c.roll.flatMap fun g => g.handler.toList.map (Effect.ran · g.payload.bytes) := by
  have hentries := congrArg (List.flatMap fun e : CleanupEntry =>
    e.handler.toList.map (Effect.ran · (s.region.contents e.payload))) h.enrolled.roll_eq
  rw [List.flatMap_map, List.flatMap_map] at hentries
  refine hentries.trans (List.flatMap_congr fun g hg => ?_)
  simp only [Registration.entry,
    h.shown.contents_eq _ (Custody.mem_live_of_mem_roll hg (hall g hg))]

/-! ## Requests that name something

If nothing has the number that is named, nothing is done. -/

theorem withRange (h : s.Kept c) {n : Nat} {f : Extent → Except Refusal Answer × Session σ}
    {g : Extent → Custody}
    (hf : ∀ e, s.ranges.get? n = some e → (f e).2.Kept (g e)) :
    (s.withRange n f).2.Kept (c.withRange (s.ranges.get? n) g) := by
  unfold Session.withRange Custody.withRange
  cases hrange : s.ranges.get? n with
  | none => exact h
  | some e => exact hf e hrange

/-- A handle that has a number names a cleanup in the books. -/
theorem withCleanup (h : s.Kept c) {n : Nat} {f : Cleanup → Except Refusal Answer × Session σ}
    {g : Nat → Custody} (hsettled : (s.withCleanup n f).2.region.Settled)
    (hf : ∀ handle, s.cleanups.get? n = some handle → handle.serial < c.roll.length →
      (f handle).2.region.Settled → (f handle).2.Kept (g handle.serial)) :
    (s.withCleanup n f).2.Kept (c.withHandle (s.cleanups.get? n) g) := by
  unfold Session.withCleanup Custody.withHandle at *
  cases hhandle : s.cleanups.get? n with
  | none => exact h
  | some handle =>
    rw [hhandle] at hsettled
    exact hf handle hhandle (h.enrolled.handles _ (Table.mem_of_get? hhandle)) hsettled

theorem withTrie (h : s.Kept c) {n : Nat} {f : SessionTrie → Except Refusal Answer × Session σ}
    (hsettled : (s.withTrie n f).2.region.Settled)
    (hf : ∀ t, s.tries.get? n = some t → (f t).2.region.Settled → (f t).2.Kept c) :
    (s.withTrie n f).2.Kept c := by
  unfold Session.withTrie at *
  cases htrie : s.tries.get? n with
  | none => exact h
  | some t =>
    rw [htrie] at hsettled
    exact hf t htrie hsettled

/-! ## Tries -/

theorem dropTrie (h : s.Kept c) (n : Nat) (hsettled : s.region.Settled) :
    ({ s with tries := s.tries.erase n } : Session σ).Kept c := by
  refine h.supply hsettled (.refl s.region) (fun e => ?_) rfl
  exact Nat.le_trans ((s.slabs_erase_sublist n).count_le e) (Nat.le_add_left _ _)

theorem afterTrie (h : s.Kept c) {n : Nat} {t : SessionTrie} (ht : s.tries.get? n = some t)
    {op : Except Fault Unit × Trie t.keys.Carrier Nat × Region σ}
    (hsettled : op.2.2.Settled) (hdraws : t.trie.nodes.Draws s.region op.2.1.nodes op.2.2) :
    (s.afterTrie n t op).2.Kept c := by
  obtain ⟨new, hslabs, hsupplies⟩ := hdraws
  refine h.supply hsettled hsupplies (fun e => ?_) rfl
  -- the trie in the table has its old slabs and the new ones
  have herase := (slabs_erase_of_get? ht).count_le e
  have hset := congrArg (List.count e) (s.slabs_set n { t with trie := op.2.1 })
  simp only [hslabs, List.count_append] at herase hset
  show List.count e
    ({ s with tries := s.tries.set n { t with trie := op.2.1 } } : Session σ).slabs ≤ _
  omega

variable [RawSource σ]

theorem createTrie (h : s.Kept c) {n : Nat} {keys : KeyKind} {values : ValueKind}
    {depth : DepthChoice} (hsettled : (s.createTrie n keys values depth).2.region.Settled) :
    (s.createTrie n keys values depth).2.Kept c := by
  unfold Session.createTrie at hsettled ⊢
  cases hdepth : depth.resolve with
  | error fault => exact h
  | ok p =>
    obtain ⟨new, hsupplies, hslabs⟩ :=
      Trie.supplies_create (K := keys.Carrier) (V := Nat) values.layout p s.region
    simp only [hdepth] at hsettled ⊢
    rcases hop : Trie.create (K := keys.Carrier) (V := Nat) values.layout p s.region with
      ⟨fault | t, r⟩ <;> rw [hop] at hsupplies hslabs hsettled
    · exact h.supply hsettled hsupplies (fun e => Nat.le_add_left _ _) rfl
    · refine h.supply hsettled hsupplies (fun e => ?_) rfl
      have herase := (s.slabs_erase_sublist n).count_le e
      have hset := congrArg (List.count e) (s.slabs_set n ⟨keys, values, t⟩)
      simp only [hslabs t rfl, List.count_append] at hset
      show List.count e ({ s with tries := s.tries.set n ⟨keys, values, t⟩ } : Session σ).slabs ≤ _
      omega

theorem addCleanup (h : s.Kept c) {n size : Nat} {handler : Option Nat}
    (hsettled : (s.addCleanup n size handler).2.region.Settled) :
    (s.addCleanup n size handler).2.Kept
      (c.afterAdd (s.addCleanup n size handler).1 (s.addCleanup n size handler).2.region size
        handler) := by
  -- where the payload starts is read off the newest record
  have hok : ∀ (r : Region σ) (start : Nat), s.region.Registers r size handler start →
      r.Settled → ({ s with
        region := r,
        cleanups := s.cleanups.set n ⟨s.region.pool.cleanups.length⟩ } : Session σ).Kept
          (c.afterAdd (.ok (payloadAnswer r ⟨s.region.pool.cleanups.length⟩)) r size handler) := by
    intro r start hregisters hr
    obtain ⟨address, hcleanups⟩ := hregisters.cleanups_eq
    have hkept := h.register hregisters hr n
    simpa only [Custody.afterAdd, hcleanups, List.head?_cons, Option.map_some, Option.getD_some]
      using hkept
  unfold Session.addCleanup at hsettled ⊢
  cases handler with
  | none =>
    dsimp only at hsettled ⊢
    rcases hop : s.region.addCleanup size with ⟨fault | handle, r⟩ <;> rw [hop] at hsettled
    · obtain ⟨new, hsupplies⟩ := supplies_addCleanup_error hop
      exact h.refuse hsupplies none hsettled
    · obtain ⟨rfl, start, hregisters⟩ := registers_addCleanup hop
      exact hok r start hregisters hsettled
  | some id =>
    dsimp only at hsettled ⊢
    rcases hop : s.region.addCleanupWith size id with ⟨fault | handle, r⟩ <;> rw [hop] at hsettled
    · unfold addCleanupWith at hop
      rcases hadd : s.region.addCleanup size with ⟨fault' | handle', r'⟩ <;> rw [hadd] at hop <;>
        cases hop
      obtain ⟨new, hsupplies⟩ := supplies_addCleanup_error hadd
      exact h.refuse hsupplies (some id) hsettled
    · obtain ⟨rfl, start, hregisters⟩ := registers_addCleanupWith hop h.enrolled.serial_ne
      exact hok r start hregisters hsettled

/-! ## Everything else -/

/-- A large buffer that is freed takes only itself away. -/
theorem free (h : s.Kept c) (hsettled : s.region.Settled) {address : Nat}
    (hslabs : ∀ slab ∈ s.slabs, slab.start ≠ address) :
    ({ s with region := (s.region.free address).2 } : Session σ).Kept
      (c.afterFree s.region address) := by
  unfold Custody.afterFree
  rcases hop : s.region.free address with ⟨fault | ⟨⟩, r⟩
  · rw [free_eq_error hop]
    exact h
  · obtain ⟨b, -, -, -, -, -, hcleanups, hfates⟩ := free_eq_ok hop
    refine ⟨h.shown.lose hsettled hop hslabs, h.enrolled.congr ?_ rfl rfl hcleanups hfates rfl⟩
    simp [Custody.lose, Registration.entry, Function.comp_def]

end Kept

variable [RawSource σ]

/-- A request that is allowed keeps the books right. -/
theorem kept_perform (h : s.Kept c) (hsettled : s.region.Settled) {q : Request} (hq : q.WellFormed)
    (hsettled' : (s.perform q).2.region.Settled) (hallowed : s.Allowed c (.turn (.ask q hq))) :
    (s.perform q).2.Kept (c.afterRequest s q) := by
  cases q with
  | allocate keep size =>
    exact h.afterRange_contents hsettled' (fun _ _ hop => fails_of_allocate hop)
      fun _ _ hop => (supplies_allocate hop).solid
  | allocatePacked keep size =>
    exact h.afterRange_contents hsettled' (fun _ _ hop => fails_of_allocatePacked hop)
      fun _ _ hop => (supplies_allocatePacked hop).solid
  | allocateAligned keep size align =>
    exact h.afterRange_contents hsettled' (fun _ _ hop => fails_of_allocateAligned hop)
      fun _ _ hop => (supplies_allocateAligned hop).solid
  | allocateZeroed keep size =>
    simp only [perform, region_afterRange] at hsettled'
    exact h.afterRange hsettled' (s.region.lends_allocateZeroed size) fun _ => .inl rfl
  | allocateLayout keep l =>
    simp only [perform, region_afterLayout] at hsettled'
    have hlends : s.region.Lends (s.region.allocateLayout l) fun start =>
        (s.region.allocateLayout l).2.contents ⟨start, l.size⟩ :=
      lends_contents (fun _ _ hop => fails_of_allocateLayout hop)
        fun _ _ hop => supplies_allocateLayout hop
    simp only [Custody.afterRequest, perform, region_afterLayout]
    exact h.afterLayout hsettled' hlends (fun _ _ => rfl) fun _ _ => rfl
  | allocateValue keep kind value =>
    simp only [perform, region_afterLayout] at hsettled'
    exact h.afterLayout hsettled' (s.region.lends_allocateCopy _ _) (fun _ _ => rfl) fun _ _ => rfl
  | allocateSlice keep kind values =>
    simp only [perform, region_afterLayout] at hsettled'
    exact h.afterLayout hsettled' (s.region.lends_allocateCopy _ _) (fun _ _ => rfl) fun _ _ => rfl
  | allocateText keep text =>
    simp only [perform, region_afterLayout] at hsettled'
    exact h.afterLayout hsettled' (s.region.lends_allocateCopy _ _) (fun _ _ => rfl) fun _ _ => rfl
  | free range offset =>
    refine h.withRange ?_
    intro e hrange
    exact h.free hsettled (hallowed e hrange)
  | fill range byte =>
    refine h.withRange ?_
    intro e hrange
    have hstore := h.store hsettled (hallowed e hrange) 0 (List.replicate e.size byte)
    simpa using hstore
  | reset => exact ⟨.reset c s, h.enrolled.reset⟩
  | addCleanup cleanup size handler => exact h.addCleanup hsettled'
  | setHandler cleanup id =>
    simp only [Custody.afterRequest]
    refine h.withCleanup hsettled' ?_
    intro handle hhandle hserial hrearmed
    exact h.setHandler hserial (some id) hrearmed
  | disarm cleanup =>
    simp only [Custody.afterRequest]
    refine h.withCleanup hsettled' ?_
    intro handle hhandle hserial hrearmed
    exact h.setHandler hserial none hrearmed
  | writePayload cleanup offset bytes =>
    simp only [Custody.afterRequest]
    refine h.withCleanup hsettled' ?_
    intro handle hhandle hserial _
    exact h.writePayload hsettled hserial (hallowed handle hhandle) offset bytes
  | runNow cleanup =>
    simp only [Custody.afterRequest]
    refine h.withCleanup hsettled' ?_
    intro handle hhandle hserial hrun
    exact h.runNow hserial (hallowed handle hhandle) cleanup hrun
  | createTrie trie keys values depth => exact h.createTrie hsettled'
  | insert trie key mask value =>
    refine h.withTrie hsettled' ?_
    intro t htrie hlinked
    exact h.afterTrie htrie hlinked (t.trie.draws_link s.region _ _)
  | delete trie key mask =>
    refine h.withTrie hsettled' ?_
    intro t htrie hunlinked
    exact h.afterTrie htrie hunlinked (t.trie.draws_unlink s.region _)
  | dropTrie trie => exact h.dropTrie trie hsettled
  | summary => exact h
  | read range =>
    simp only [perform, withRange]
    cases s.ranges.get? range <;> exact h
  | readPayload cleanup =>
    simp only [perform, withCleanup]
    cases s.cleanups.get? cleanup <;> exact h
  | get | find | findMany | trieSummary => exact h.withTrie hsettled' fun _ _ _ => h

/-- An act that is allowed keeps the books right. -/
theorem kept_act (h : s.Kept c) (hsettled : s.region.Settled) {a : Act σ}
    (hsettled' : (s.act a).region.Settled) (hallowed : s.Allowed c a) :
    (s.act a).Kept (c.after s a) := by
  cases a with
  | turn t =>
    cases t with
    | ask q hq => exact kept_perform h hsettled hq hsettled' hallowed
    | free address => exact h.free hsettled hallowed
    | adjust f =>
      exact h.supply hsettled' (.of_heap rfl rfl rfl) (fun e => Nat.le_add_left _ _) rfl
  | write range offset bytes =>
    simp only [act, Custody.after, Custody.withRange]
    cases hrange : s.ranges.get? range with
    | none => exact h
    | some e => exact h.store hsettled (hallowed e hrange) offset bytes
  | disturb start bytes => exact h.disturb hsettled hallowed

/-- What is settled stays settled whatever is done, as long as grants are lawful. -/
theorem settled_act (hsettled : s.region.Settled) {a : Act σ}
    (hlawful : Journal.Lawful (s.act a).region.heap.journal) : (s.act a).region.Settled :=
  hsettled.steps (s.steps_act a) hlawful

/-- After any careful acts the books are right. -/
theorem kept_attend (h : s.Kept c) (hsettled : s.region.Settled) {acts : List (Act σ)}
    (hcareful : s.Careful c acts)
    (hlawful : Journal.Lawful (s.attend c acts).1.region.heap.journal) :
    (s.attend c acts).1.Kept (s.attend c acts).2 ∧ (s.attend c acts).1.region.Settled := by
  induction acts generalizing s c with
  | nil => exact ⟨h, hsettled⟩
  | cons a rest ih =>
    -- what is lawful in the end was lawful after the first act
    have hfirst := hlawful.of_suffix ((s.act a).steps_attend (c.after s a) rest).suffix
    have hsettled' := settled_act hsettled hfirst
    exact ih (kept_act h hsettled hsettled' hcareful.1) hsettled' hcareful.2 hlawful

/-- A new session is settled if what comes of it is lawful. -/
theorem settled_create {config : PoolConfig} {source : σ} (h : create config { source } = .ok s)
    {r : Region σ} (hsteps : Steps s.region r) (hlawful : Journal.Lawful r.heap.journal) :
    s.region.Settled := by
  have hfirst := hlawful.of_suffix hsteps.suffix
  exact ⟨balanced_create h, placed_create h hfirst, hfirst⟩

/-- There is nothing in the books of a new session. -/
theorem kept_create {config : PoolConfig} {source : σ}
    (h : create config { source } = .ok s) : s.Kept {} := by
  obtain ⟨base, heap, largestSmall, -, -, hgrant, -, rfl⟩ := create_ok h
  have hfates := (Heap.memory_allocate { source } config.blockLayout).2
  rw [hgrant] at hfates
  refine ⟨⟨fun e => Nat.zero_le _, fun k hk => by cases hk⟩, ⟨rfl, rfl, ?_, hfates, .refl _⟩⟩
  intro entry hentry
  cases hentry

/-- After any careful acts in a new session the books are right. -/
theorem kept_of_create {config : PoolConfig} {source : σ} (h : create config { source } = .ok s)
    {acts : List (Act σ)} (hcareful : s.Careful {} acts)
    (hlawful : Journal.Lawful (s.attend {} acts).1.region.heap.journal) :
    (s.attend {} acts).1.Kept (s.attend {} acts).2 ∧ (s.attend {} acts).1.region.Settled := by
  have hsettled := settled_create h (s.steps_attend {} acts) hlawful
  exact kept_attend (kept_create h) hsettled hcareful hlawful

end Session

end RegionTrie
