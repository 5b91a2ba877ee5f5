import RegionTrie.Proofs.Heap.Log
import RegionTrie.Proofs.Session.Turns
import RegionTrie.Proofs.Trie.Grove

/-!
# The tries of a session

The tries that a session holds live in its region, next to everything else that is requested of it.
So the two make up a grove, and a session that is played for any number of turns takes its grove
through steps, as long as no slab of its tries is given back except by a reset, which forgets the
tries as well. What is true of every grove is therefore true of the tries of every session, whatever
is requested between two calls of theirs.

A grove lists its tries in some order, and a session puts those first that changed last. So steps
lead to the grove of a session up to the order of its tries.

## Main definitions

* `Session.grove`: the region of a session with the tries that it holds
* `Session.Spares`: the turn gives back no slab of these tries, or forgets them
* `Grove.Alike`: two groves are the same up to the order of their tries

## Main results

* `Session.exists_steps_take`: a turn that spares slabs comes down to steps of the grove
* `Session.exists_steps_play`: so does a whole session
* `Session.exists_steps_of_create`: the tries of a session are a grove that began with none
-/

namespace RegionTrie

/-- A trie of a session, with the types of its keys and values. -/
def SessionTrie.tenant (t : SessionTrie) : Tenant :=
  ⟨t.trie⟩

namespace Grove

variable {σ : Type}

/-- The groves are the same up to the order of their tries. -/
structure Alike (g g' : Grove σ) : Prop where
  region_eq : g.region = g'.region
  perm : g.tenants.Perm g'.tenants

theorem Alike.mem_slabs {g g' : Grove σ} (h : g.Alike g') {b : Buffer} (hb : b ∈ g.slabs) :
    b ∈ g'.slabs :=
  (h.perm.flatMap_right _).mem_iff.mp hb

variable [RawSource σ]

/-- Tries may go one after the other until these are left. -/
theorem steps_of_sublist (r : Region σ) {kept tenants : List Tenant} (h : kept.Sublist tenants)
    (front : List Tenant) : Steps ⟨r, front ++ tenants⟩ ⟨r, front ++ kept⟩ := by
  induction h generalizing front with
  | slnil => exact .refl
  | cons t _ ih => exact .head (.fell r front _ t) (ih front)
  | cons_cons t _ ih =>
    have hrest := ih (front ++ [t])
    rwa [List.append_assoc, List.append_assoc] at hrest

/-- Steps that lead to more tries than these lead to these as well. -/
theorem exists_steps_of_subperm {g : Grove σ} {r : Region σ} {kept tenants : List Tenant}
    (h : Steps g ⟨r, tenants⟩) (hsub : kept.Subperm tenants) :
    ∃ g', Steps g g' ∧ g'.Alike ⟨r, kept⟩ := by
  obtain ⟨listed, hperm, hsublist⟩ := hsub
  exact ⟨⟨r, listed⟩, h.trans (steps_of_sublist r hsublist []), rfl, hperm⟩

end Grove

namespace Session

open Grove

variable {σ : Type}

/-- The region of a session with the tries that it holds. -/
def grove (s : Session σ) : Grove σ :=
  ⟨s.region, s.tries.entries.map fun e => e.2.tenant⟩

/-! ## Tries in a table -/

/-- The tries that stay in the table when there is none under a number any more. -/
def tenantsBut (s : Session σ) (n : Nat) : List Tenant :=
  (s.tries.erase n).entries.map fun e => e.2.tenant

theorem tenantsBut_sublist (s : Session σ) (n : Nat) :
    (s.tenantsBut n).Sublist s.grove.tenants :=
  List.filter_sublist.map _

/-- A trie in the table stands before all that stay when it is taken out. -/
theorem subperm_of_get? {s : Session σ} {n : Nat} {t : SessionTrie}
    (h : s.tries.get? n = some t) : (t.tenant :: s.tenantsBut n).Subperm s.grove.tenants := by
  obtain ⟨front, back, heq, hrest⟩ := Table.exists_of_get? h
  have htenants : s.grove.tenants.Perm (t.tenant :: (front ++ back).map fun e => e.2.tenant) := by
    rw [grove, heq]
    exact List.perm_middle.map _
  exact ((hrest.map _).cons_cons _).subperm.trans htenants.symm.subperm

variable [RawSource σ]

/-- The turn gives back no slab of a trie that the session holds, unless it forgets all of these. -/
def Spares (s : Session σ) (turn : Turn σ) : Prop :=
  turn ≠ .ask .reset trivial → ∀ b ∈ s.grove.slabs,
    .released b ∉ (s.take turn).region.heap.effectsSince s.region.heap.journal.length

variable {s : Session σ} {g : Grove σ}

/-! ## Turns -/

/-- What leads on wherever there is a trie under the number leads on in any case. -/
theorem exists_steps_withTrie (h : g.Alike s.grove) {n : Nat}
    {f : SessionTrie → Except Refusal Answer × Session σ}
    (hf : ∀ t, s.tries.get? n = some t → ∃ g', Steps g g' ∧ g'.Alike (f t).2.grove) :
    ∃ g', Steps g g' ∧ g'.Alike (s.withTrie n f).2.grove := by
  unfold withTrie
  cases ht : s.tries.get? n with
  | none => exact ⟨g, .refl, h⟩
  | some t => exact hf t ht

/-- What is done to a region alone leaves its tries where they are. -/
theorem exists_steps_of_tries_eq (h : g.Alike s.grove) {s' : Session σ}
    (hsteps : Region.Steps s.region s'.region) (htries : s'.tries = s.tries)
    (hspares : ∀ b ∈ s.grove.slabs,
      .released b ∉ s'.region.heap.effectsSince s.region.heap.journal.length) :
    ∃ g', Steps g g' ∧ g'.Alike s'.grove := by
  -- what is written meanwhile is what comes before the old journal
  obtain ⟨after, hafter⟩ := Region.Steps.suffix hsteps
  rw [Heap.effectsSince_of_append hafter.symm] at hspares
  have hregion : g.region = s.region := h.region_eq
  rw [← hregion] at hsteps hafter
  have hwork := g.steps_of_region hsteps hafter.symm fun b hb hreleased =>
    hspares b (h.mem_slabs hb) (List.mem_reverse.mpr hreleased)
  refine ⟨_, hwork, rfl, ?_⟩
  rw [grove, htries]
  exact h.perm

/-- A call of a trie in the table comes down to steps. -/
theorem exists_steps_of_call (h : g.Alike s.grove) {n : Nat} {t : SessionTrie}
    (ht : s.tries.get? n = some t) (c : TrieCall t.keys.Carrier Nat) :
    ∃ g', Steps g g' ∧
      g'.Alike ⟨(t.trie.call s.region c).2.2,
        ⟨(t.trie.call s.region c).2.1⟩ :: s.tenantsBut n⟩ := by
  obtain ⟨region, tenants⟩ := g
  obtain ⟨rfl, hperm⟩ := h
  have hsub := (subperm_of_get? ht).trans hperm.symm.subperm
  -- the trie stands somewhere among those of the grove, and what stays stands around it
  obtain ⟨front, back, rfl⟩ := List.append_of_mem (hsub.subset List.mem_cons_self)
  have hrest : (s.tenantsBut n).Subperm (front ++ back) :=
    (List.subperm_cons _).mp (hsub.trans List.perm_middle.subperm)
  refine exists_steps_of_subperm (steps_call s.region front back t.trie c) ?_
  exact ((List.subperm_cons _).mpr hrest).trans List.perm_middle.symm.subperm

/-- A trie is created under a number, and the one before goes. -/
theorem exists_steps_createTrie (h : g.Alike s.grove)
    (hpage : s.region.heap.pageSize.isPowerOfTwo) (n : Nat) (keys : KeyKind) (values : ValueKind)
    (depth : DepthChoice) :
    ∃ g', Steps g g' ∧ g'.Alike (s.createTrie n keys values depth).2.grove := by
  unfold createTrie
  cases depth.resolve with
  | error fault => exact ⟨g, .refl, h⟩
  | ok p =>
    have hregion : g.region = s.region := h.region_eq
    have hcreate := g.steps_create keys.Carrier Nat values.layout p (hregion ▸ hpage)
    dsimp only
    unfold Grove.create at hcreate
    rw [hregion] at hcreate
    rcases hop : Trie.create (K := keys.Carrier) (V := Nat) values.layout p s.region with
      ⟨fault | t, r⟩ <;> rw [hop] at hcreate
    · exact ⟨_, hcreate, rfl, h.perm⟩
    · refine exists_steps_of_subperm hcreate ((List.subperm_cons _).mpr ?_)
      exact (s.tenantsBut_sublist n).subperm.trans h.perm.symm.subperm

/-- **A turn comes down to steps of the grove** if it spares the slabs. -/
theorem exists_steps_take (h : g.Alike s.grove) (hpage : s.region.heap.pageSize.isPowerOfTwo)
    {turn : Turn σ} (hspares : s.Spares turn) :
    ∃ g', Steps g g' ∧ g'.Alike (s.take turn).grove := by
  have hsteps := s.steps_take turn
  cases turn with
  | free | adjust => exact exists_steps_of_tries_eq h hsteps rfl (hspares nofun)
  | ask q hq =>
    cases q with
    | reset =>
      -- the tries are gone with everything else
      refine ⟨⟨g.region.reset, []⟩, .single (.reset g), ?_, .nil⟩
      rw [h.region_eq]
      rfl
    | createTrie n keys values depth => exact exists_steps_createTrie h hpage n keys values depth
    | insert n key mask value =>
      exact exists_steps_withTrie h fun t ht =>
        exists_steps_of_call h ht (.insert (PrefixKey.ofNat key) mask.mask value)
    | delete n key mask =>
      exact exists_steps_withTrie h fun t ht =>
        exists_steps_of_call h ht (.delete (PrefixKey.ofNat key) mask.mask)
    | get n | find n | findMany n | trieSummary n =>
      exact exists_steps_withTrie h (n := n) fun t ht => ⟨g, .refl, h⟩
    | dropTrie n =>
      obtain ⟨region, tenants⟩ := g
      obtain ⟨rfl, hperm⟩ := h
      refine exists_steps_of_subperm .refl ?_
      exact (s.tenantsBut_sublist n).subperm.trans hperm.symm.subperm
    | _ => exact exists_steps_of_tries_eq h hsteps (tries_perform rfl Request.noConfusion) (hspares nofun)

/-- **A session takes its grove through steps**, as long as pages are powers of two and every turn
spares the slabs. -/
theorem exists_steps_play (h : g.Alike s.grove) {turns : List (Turn σ)}
    (hspares : ∀ first turn rest, turns = first ++ turn :: rest →
      (s.play first).region.heap.pageSize.isPowerOfTwo ∧ (s.play first).Spares turn) :
    ∃ g', Steps g g' ∧ g'.Alike (s.play turns).grove := by
  -- the grove that one turn leads to is where the next turn starts
  induction turns generalizing s g with
  | nil => exact ⟨g, .refl, h⟩
  | cons turn turns ih =>
    obtain ⟨hpage, hspare⟩ := hspares [] turn turns rfl
    obtain ⟨g₁, hfirst, h₁⟩ := exists_steps_take h hpage hspare
    obtain ⟨g₂, hrest, h₂⟩ := ih h₁ fun first next rest heq =>
      hspares (turn :: first) next rest (congrArg (turn :: ·) heq)
    exact ⟨g₂, hfirst.trans hrest, h₂⟩

/-- The tries of a session are a grove that began with the region alone. -/
theorem exists_steps_of_create {c : PoolConfig} {source : σ} (h : create c { source } = .ok s)
    {turns : List (Turn σ)}
    (hspares : ∀ first turn rest, turns = first ++ turn :: rest →
      (s.play first).region.heap.pageSize.isPowerOfTwo ∧ (s.play first).Spares turn) :
    ∃ g, Steps ⟨s.region, []⟩ g ∧ g.Alike (s.play turns).grove := by
  refine exists_steps_play ?_ hspares
  -- a session that was just created holds no trie
  obtain ⟨base, heap, largestSmall, -, -, -, -, rfl⟩ := create_ok h
  exact ⟨rfl, .nil⟩

end Session

end RegionTrie
