import Mathlib.Data.List.Pairwise
import RegionTrie.Proofs.Session.Placement
import RegionTrie.Proofs.Trie.Addresses
import RegionTrie.Proofs.Trie.Steps

/-!
# Several tries in one region

Any number of tries, with keys and values of any types, share a region with each other and with
everything else that takes memory from it. Whatever happens, each of them keeps slabs of its own,
as long as none of these is given back. So no two nodes share a byte, whether they belong to one
trie or to two, and no node shares a byte with a block or with a buffer that is no slab of its trie.
The tries of a session are such tries (`Session.exists_steps_of_create`).

## Main definitions

* `Grove`: a region with the tries that live in it
* `Grove.Step`, `Grove.Steps`: what can happen to it
* `Grove.Tended`: what is true of every grove

## Main results

* `Grove.steps_create`, `Grove.steps_call`: creating a trie and calling one come down to steps
* `Grove.steps_of_region`: so does whatever else the region does without giving a slab back
* `Grove.Step.tended`: every step keeps slabs where they are
* `Grove.nodes_apart`: every node lies in its slab and apart from everything else
-/

namespace RegionTrie

/-- A trie with the types of its keys and of its values. -/
structure Tenant where
  {K V : Type}
  [keys : PrefixKey K]
  trie : Trie K V

instance (t : Tenant) : PrefixKey t.K :=
  t.keys

/-- The nodes of a tenant. -/
abbrev Tenant.store (t : Tenant) : NodeStore :=
  t.trie.nodes

/-- A region with the tries that live in it. -/
structure Grove (σ : Type) where
  region : Region σ
  tenants : List Tenant

/-- A trie that has no node yet is well formed, whatever the size of its nodes. -/
theorem Trie.wellFormed_planted {K V : Type} [PrefixKey K] {shape : SlabShape} {pageSize : Nat}
    (h : shape.Paged pageSize) : ({ nodes := { shape } } : Trie K V).WellFormed where
  store :=
    { perSlab_pos := fun _ => h.perSlab_pos
      remaining_le := Nat.zero_le _
      obtainable := fun hne => absurd rfl hne }
  accounts := NodeStore.accounts_empty shape
  linked := trivial
  shallow path hpath := absurd hpath (Branch.not_holds_absent path)
  size_eq := rfl

namespace Grove

variable {σ : Type}

/-- The slabs of all tries. -/
def slabs (g : Grove σ) : List Buffer :=
  g.tenants.flatMap fun t => t.store.slabBuffers

/-- Where the nodes of all tries lie that were ever handed out. -/
def nodes (g : Grove σ) : List Extent :=
  g.tenants.flatMap fun t => t.store.nodes

/-! ## What is true of every grove -/

/-- Every trie is well formed, has slabs of whole pages, and all slabs are tracked, each for one
trie. -/
structure Tended (g : Grove σ) : Prop where
  wellFormed : ∀ t ∈ g.tenants, t.trie.WellFormed
  paged : ∀ t ∈ g.tenants, t.store.shape.Paged t.store.shape.slabAlign
  tracked : g.slabs.Subperm (LargeRecord.buffers g.region.pool.large)

/-- A trie that changes and obtains slabs meanwhile leaves the others alone. -/
theorem Tended.replace {r r' : Region σ} {front back : List Tenant} {t t' : Tenant}
    {taken : List Nat} (h : Tended ⟨r, front ++ t :: back⟩)
    (hobtains : t.store.Obtains r t'.store r' taken) (hwell : t'.trie.WellFormed) :
    Tended ⟨r', front ++ t' :: back⟩ := by
  -- the slabs of the trie that changes, and then all others
  have hslabs : ∀ (region : Region σ) (u : Tenant),
      (slabs ⟨region, front ++ u :: back⟩).Perm
        (u.store.slabBuffers ++ (slabs ⟨region, front⟩ ++ slabs ⟨region, back⟩)) := by
    intro region u
    simp only [slabs, List.flatMap_append, List.flatMap_cons]
    exact List.perm_append_comm_assoc _ _ _
  refine ⟨?_, ?_, ?_⟩
  · intro u hu
    rcases List.mem_append.mp hu with hfront | hrest
    · exact h.wellFormed u (List.mem_append_left _ hfront)
    · rcases List.mem_cons.mp hrest with rfl | hback
      · exact hwell
      · exact h.wellFormed u (List.mem_append_right _ (List.mem_cons_of_mem _ hback))
  · intro u hu
    rcases List.mem_append.mp hu with hfront | hrest
    · exact h.paged u (List.mem_append_left _ hfront)
    · rcases List.mem_cons.mp hrest with rfl | hback
      · rw [hobtains.shape_eq]
        exact h.paged t (List.mem_append_right _ List.mem_cons_self)
      · exact h.paged u (List.mem_append_right _ (List.mem_cons_of_mem _ hback))
  · refine (hslabs r' t').subperm_right.mpr (hobtains.subperm ?_)
    exact (hslabs r t).subperm_right.mp h.tracked

variable {g : Grove σ}

/-- The slabs of all tries lie apart from each other. -/
theorem Tended.pairwise_slabs (h : g.Tended) (hbalanced : g.region.Balanced [])
    (hlawful : Journal.Lawful g.region.heap.journal) :
    g.slabs.Pairwise fun b c => b.extent.Apart c.extent := by
  obtain ⟨l, hperm, hsublist⟩ := h.tracked
  have hlarge := (List.pairwise_append.mp (hbalanced.pairwise_apart hlawful)).2.1
  exact (hperm.pairwise_iff fun hapart => hapart.symm).mp (hlarge.sublist hsublist)

/-- Nodes lie apart from each other, in one trie and in two. -/
theorem Tended.pairwise_nodes (h : g.Tended)
    (hslabs : g.slabs.Pairwise fun b c => b.extent.Apart c.extent) :
    g.nodes.Pairwise Extent.Apart := by
  obtain ⟨hone, htwo⟩ := List.pairwise_flatMap.mp hslabs
  refine List.pairwise_flatMap.mpr
    ⟨fun t ht => NodeStore.pairwise_nodes (h.paged t ht) (hone t ht), ?_⟩
  refine htwo.imp_of_mem fun {t u} ht hu hapart e he f hf => ?_
  obtain ⟨b, hb, hstart, hstop⟩ := NodeStore.exists_slab_of_mem (h.paged t ht) he
  obtain ⟨c, hc, hstart', hstop'⟩ := NodeStore.exists_slab_of_mem (h.paged u hu) hf
  exact NodeStore.apart_of_within (hapart b hb c hc) hstart hstop hstart' hstop'

/-! ## Steps -/

variable [RawSource σ]

/-- What can happen to a region and the tries that live in it. -/
inductive Step : Grove σ → Grove σ → Prop
  /-- Something else is done to the region, and no slab is given back. -/
  | work (g : Grove σ) {r : Region σ} (h : Region.Step g.region r)
      (hkept : ∀ b ∈ g.slabs, b ∈ LargeRecord.buffers g.region.pool.large →
        b ∈ LargeRecord.buffers r.pool.large) :
      Step g { g with region := r }
  /-- Everything is forgotten, and the tries are gone. -/
  | reset (g : Grove σ) : Step g ⟨g.region.reset, []⟩
  /-- There is a new trie that has no node yet, with nodes of any size. -/
  | plant (g : Grove σ) {shape : SlabShape} (hshape : shape.Paged g.region.heap.pageSize)
      (K V : Type) [PrefixKey K] :
      Step g { g with tenants := ⟨({ nodes := { shape } } : Trie K V)⟩ :: g.tenants }
  /-- A path of a trie is linked. -/
  | link (r : Region σ) (front back : List Tenant) {K V : Type} [PrefixKey K] (t : Trie K V)
      {path : List Bool} (hpath : path.length ≤ PrefixKey.width K) (value : Option V) :
      Step ⟨r, front ++ ⟨t⟩ :: back⟩
        ⟨(t.link r path value).2.2, front ++ ⟨(t.link r path value).2.1⟩ :: back⟩
  /-- A path of a trie is unlinked. -/
  | unlink (r : Region σ) (front back : List Tenant) {K V : Type} [PrefixKey K] (t : Trie K V)
      (path : List Bool) :
      Step ⟨r, front ++ ⟨t⟩ :: back⟩
        ⟨(t.unlink r path).2.2, front ++ ⟨(t.unlink r path).2.1⟩ :: back⟩
  /-- A trie is gone. Its slabs stay with the region. -/
  | fell (r : Region σ) (front back : List Tenant) (t : Tenant) :
      Step ⟨r, front ++ t :: back⟩ ⟨r, front ++ back⟩

/-- Any number of steps. -/
abbrev Steps : Grove σ → Grove σ → Prop :=
  Relation.ReflTransGen Step

/-! ## Tries are created and called

Between the calls of tries the region may do anything that gives no slab of theirs back. -/

/-- Whatever a region does without giving a slab back comes down to steps. -/
theorem steps_of_region (g : Grove σ) {r : Region σ} (h : Region.Steps g.region r)
    {after : List Effect} (hafter : r.heap.journal = after ++ g.region.heap.journal)
    (hkept : ∀ b ∈ g.slabs, .released b ∉ after) : Steps g { g with region := r } := by
  induction h generalizing after with
  | refl => exact .refl
  | @tail middle r hsteps hstep ih =>
    -- what the last step writes comes after all that was written before it
    obtain ⟨before, hbefore⟩ := Region.Steps.suffix hsteps
    obtain ⟨last, hlast⟩ := hstep.suffix
    have hjournal : after ++ g.region.heap.journal = last ++ before ++ g.region.heap.journal := by
      rw [← hafter, ← hlast, ← hbefore, List.append_assoc]
    rw [List.append_cancel_right hjournal] at hkept
    have hearlier := ih hbefore.symm fun b hb hreleased =>
      hkept b hb (List.mem_append_right _ hreleased)
    refine hearlier.tail (.work { g with region := middle } hstep fun b hb htracked => ?_)
    exact hstep.keeps htracked hlast.symm fun hreleased =>
      hkept b hb (List.mem_append_left _ hreleased)

/-- The grove after the creation of a trie. -/
def create (g : Grove σ) (K V : Type) [PrefixKey K] (value : Layout) (p : Preallocation) :
    Grove σ :=
  match Trie.create (K := K) (V := V) value p g.region with
  | (.ok t, r) => ⟨r, ⟨t⟩ :: g.tenants⟩
  | (.error _, r) => { g with region := r }

/-- The creation of a trie comes down to steps, whether or not a trie comes out. -/
theorem steps_create (g : Grove σ) (K V : Type) [PrefixKey K] (value : Layout) (p : Preallocation)
    (hpage : g.region.heap.pageSize.isPowerOfTwo) : Steps g (g.create K V value p) := by
  have hplant := Step.plant g (SlabShape.paged_ofValue value hpage) K V
  have hroot : ([] : List Bool).length ≤ PrefixKey.width K := Nat.zero_le _
  have htop := Relation.ReflTransGen.tail (.single hplant)
    (Step.link g.region [] g.tenants (Trie.bare value g.region.heap.pageSize : Trie K V) hroot none)
  have hlevels (top : Trie K V) (r : Region σ) (depth : Nat)
      (h : Steps g ⟨r, ⟨top⟩ :: g.tenants⟩) :
      Steps g ⟨(top.linkLevels r 1 depth).2.2, ⟨(top.linkLevels r 1 depth).2.1⟩ :: g.tenants⟩ :=
    Trie.linkLevels_induction (P := fun t r' => Steps g ⟨r', ⟨t⟩ :: g.tenants⟩)
      (fun t r' key mask ht =>
        ht.tail (.link r' [] g.tenants t (Trie.length_selected_le key mask) none)) h 1 depth
  unfold create
  rcases Trie.create_cases (K := K) (V := V) value p g.region with
    ⟨fault, heq⟩ | ⟨fault, t, r₁, hop, heq⟩ | ⟨top, r₁, fault, t, r₂, depth, hop, hbelow, heq⟩ |
    ⟨top, r₁, t, r₂, depth, hop, hbelow, heq⟩ <;> rw [heq]
  all_goals
    rw [hop] at htop
  · -- a trie of which only the slabs are left
    exact htop.tail (.fell r₁ [] g.tenants ⟨t⟩)
  all_goals
    have hall := hlevels top r₁ depth htop
    rw [hbelow] at hall
  · exact hall.tail (.fell r₂ [] g.tenants ⟨t⟩)
  · dsimp only
    split
    · exact hall
    · exact hall.tail (.work _ (.note r₂ fun _ => Event.noConfusion) fun _ _ hb => hb)

/-- A call of a trie comes down to steps. -/
theorem steps_call (r : Region σ) (front back : List Tenant) {K V : Type} [PrefixKey K]
    (t : Trie K V) (c : TrieCall K V) :
    Steps ⟨r, front ++ ⟨t⟩ :: back⟩
      ⟨(t.call r c).2.2, front ++ ⟨(t.call r c).2.1⟩ :: back⟩ := by
  cases c with
  | insert key mask value =>
    exact .single (.link r front back t (Trie.length_selected_le key mask) (some value))
  | delete key mask => exact .single (.unlink r front back t (PrefixKey.selected key mask))
  | get | find => exact .refl

variable {g' : Grove σ}

/-- The region goes through steps of its own. -/
theorem Step.region (h : Step g g') : Region.Steps g.region g'.region := by
  cases h with
  | work _ hstep hkept => exact hstep.steps
  | reset => exact (Region.Step.reset g.region).steps
  | plant | fell => exact .refl
  | link r front back t hpath value => exact t.steps_link r _ value
  | unlink r front back t path => exact t.steps_unlink r path

theorem Steps.region (h : Steps g g') : Region.Steps g.region g'.region := by
  induction h with
  | refl => exact .refl
  | tail _ hstep ih => exact ih.trans hstep.region

/-- **Every step keeps slabs where they are.** -/
theorem Step.tended (h : Step g g') (hbalanced : g.region.Balanced [])
    (hlawful : Journal.Lawful g.region.heap.journal) (htended : g.Tended) : g'.Tended := by
  cases h with
  | work _ hstep hkept =>
    -- slabs start at different addresses, so each of them is still tracked for itself
    have hlive : g.region.heap.live.Pairwise fun b c => b.extent.Apart c.extent := by
      rw [hbalanced.ledger.live_eq]
      exact hlawful.pairwise_apart
    have hnodup := (hbalanced.nodup_tracked hlive).of_map
    have hslabs : g.slabs.Nodup := by
      obtain ⟨l, hperm, hsublist⟩ := htended.tracked
      exact hperm.nodup_iff.mp (hnodup.sublist hsublist)
    refine ⟨htended.wellFormed, htended.paged, List.subperm_of_subset hslabs fun b hb => ?_⟩
    exact hkept b hb (htended.tracked.subset hb)
  | reset => exact ⟨fun t ht => absurd ht List.not_mem_nil, fun t ht => absurd ht List.not_mem_nil,
      List.nil_subperm⟩
  | plant _ hshape K V =>
    have hsame := hshape.slabAlign_eq
    refine ⟨List.forall_mem_cons.mpr ⟨Trie.wellFormed_planted hshape, htended.wellFormed⟩,
      List.forall_mem_cons.mpr ⟨?_, htended.paged⟩, htended.tracked⟩
    show SlabShape.Paged _ _
    rwa [hsame]
  | link r front back t hpath value =>
    obtain ⟨taken, hobtains⟩ := t.obtains_link r _ value
    have hwell := htended.wellFormed ⟨t⟩ (List.mem_append_right _ List.mem_cons_self)
    exact htended.replace (t := ⟨t⟩) hobtains (hwell.link r hpath value)
  | unlink r front back t path =>
    have hwell := htended.wellFormed ⟨t⟩ (List.mem_append_right _ List.mem_cons_self)
    exact htended.replace (t := ⟨t⟩) (t.obtains_unlink r path) (hwell.unlink r path)
  | fell r front back t =>
    have hsub : (front ++ back).Sublist (front ++ t :: back) :=
      (List.sublist_cons_self t back).append_left front
    refine ⟨fun u hu => htended.wellFormed u (hsub.subset hu),
      fun u hu => htended.paged u (hsub.subset hu), ?_⟩
    refine List.Subperm.trans (List.Sublist.subperm ?_) htended.tracked
    simp only [slabs, List.flatMap_append, List.flatMap_cons]
    exact (List.sublist_append_right _ _).append_left _

theorem Steps.tended (h : Steps g g') (hbalanced : g.region.Balanced [])
    (hlawful : Journal.Lawful g'.region.heap.journal) (htended : g.Tended) : g'.Tended := by
  induction h with
  | refl => exact htended
  | tail hsteps hstep ih =>
    have hbefore := hlawful.of_suffix (Region.Steps.suffix hstep.region)
    exact hstep.tended (hbalanced.steps (Steps.region hsteps)) hbefore (ih hbefore)

/-- **Every node has memory of its own.** Whatever happens to a region and to the tries that live in
it, short of freeing a slab of theirs, for values of any size and pages of any size: a slab is the
least positive number of pages that holds a node. The nodes that a trie links and those that it
keeps for later are all that it ever took, by their numbers. Each of these belongs to a slab that
the trie has and lies inside it, apart from every block and every large buffer that is not this
slab. And no two nodes overlap, of whatever tries they are. -/
theorem nodes_apart {c : PoolConfig} {source : σ} {s : Session σ}
    (h : Session.create c { source } = .ok s) (hsteps : Steps ⟨s.region, []⟩ g)
    (hlawful : Journal.Lawful g.region.heap.journal) :
    (∀ t ∈ g.tenants,
      t.store.shape.slabAlign.isPowerOfTwo ∧
      IsLeast {size | 0 < size ∧ t.store.shape.slabAlign ∣ size ∧ t.store.shape.nodeSize ≤ size}
        t.store.shape.slabSize ∧
      1 ≤ t.store.shape.perSlab ∧
      t.store.Accounts t.trie.root.indices ∧
      ∀ i < t.store.handedOut, ∃ slab ∈ LargeRecord.buffers g.region.pool.large,
        i / t.store.shape.perSlab < t.trie.slabCount ∧
        t.store.slabs[i / t.store.shape.perSlab]? = some slab.base ∧
        slab.layout = ⟨t.store.shape.slabSize, t.store.shape.slabAlign⟩ ∧
        i % t.store.shape.perSlab * t.store.shape.nodeSize + t.store.shape.nodeSize ≤
          t.store.shape.slabSize ∧
        ∃ node, node = ⟨slab.base + i % t.store.shape.perSlab * t.store.shape.nodeSize,
            t.store.shape.nodeSize⟩ ∧
          t.store.extent? i = some node ∧
          (∀ block ∈ g.region.pool.chain.blocks,
            node.Apart ⟨block.base, g.region.pool.config.size⟩) ∧
          ∀ b ∈ LargeRecord.buffers g.region.pool.large, b ≠ slab → node.Apart b.extent) ∧
      g.nodes.Pairwise Extent.Apart := by
  have hcreated : s.region.Balanced [] := Session.balanced_create h
  have hbalanced : g.region.Balanced [] := hcreated.steps (Steps.region hsteps)
  have htended : g.Tended := hsteps.tended hcreated hlawful
    ⟨fun t ht => absurd ht List.not_mem_nil, fun t ht => absurd ht List.not_mem_nil,
      List.nil_subperm⟩
  have hheld := List.pairwise_append.mp (hbalanced.pairwise_apart hlawful)
  refine ⟨fun t ht => ?_,
    htended.pairwise_nodes (htended.pairwise_slabs hbalanced hlawful)⟩
  have hpaged := htended.paged t ht
  refine ⟨hpaged.page, hpaged.isLeast, hpaged.perSlab_pos, (htended.wellFormed t ht).accounts, ?_⟩
  intro i hi
  obtain ⟨base, hbase, hextent⟩ := NodeStore.exists_slab hi
  have hoffset := hpaged.offset_le i
  -- the slab is one of those that are tracked
  have hmem : (⟨base, t.store.shape.slabLayout⟩ : Buffer) ∈
      LargeRecord.buffers g.region.pool.large :=
    htended.tracked.subset (List.mem_flatMap.mpr
      ⟨t, ht, List.mem_map_of_mem (List.mem_of_getElem? hbase)⟩)
  have hwithin : ∀ other : Extent,
      Extent.Apart ⟨base, t.store.shape.slabSize⟩ other →
        Extent.Apart ⟨base + i % t.store.shape.perSlab * t.store.shape.nodeSize,
          t.store.shape.nodeSize⟩ other := by
    intro other hapart
    simp only [Extent.Apart, Extent.stop] at hapart ⊢
    omega
  refine ⟨_, hmem, NodeStore.div_lt_size hi, ?_, rfl, hoffset, _, rfl, hextent, ?_, ?_⟩
  · rw [← hbase, Array.getElem?_toList]
  · intro block hblock
    have hapart := hheld.2.2 ⟨block.base, g.region.pool.config.blockLayout⟩
      (List.mem_map_of_mem (List.mem_map_of_mem hblock)) _ hmem
    exact hwithin _ hapart.symm
  · intro b hb hne
    have hsymm : Std.Symm fun b c : Buffer => b.extent.Apart c.extent :=
      ⟨fun _ _ hapart => hapart.symm⟩
    exact hwithin _ (hheld.2.1.forall hmem hb hne.symm)

/-- Two tries share a region, for instance, one with several nodes in each of two slabs and one with
nodes larger than pages. -/
theorem nodes_apart_tracked :
    ∃ s p, Session.create (.withSize 256) { source := ({ pageSize := 512 } : Tracker) } = .ok s ∧
      p = .depth 3 ∧
      let g := ((⟨s.region, []⟩ : Grove Tracker).create UInt32 Nat ⟨8, 8⟩ p).create
        UInt32 Nat ⟨1000, 4⟩ .none
      (g.tenants.map fun t => (t.store.shape.slabSize, t.store.shape.perSlab, t.trie.slabCount)) =
          [(1536, 1, 1), (512, 12, 2)] ∧
        g.nodes.length = 16 ∧ g.nodes.Pairwise Extent.Apart := by
  obtain ⟨p, hp⟩ : ∃ p : Preallocation, p = .depth 3 := ⟨_, rfl⟩
  have hcheck :
      (match Session.create (.withSize 256) { source := ({ pageSize := 512 } : Tracker) } with
      | .ok s =>
        let first := (⟨s.region, []⟩ : Grove Tracker).create UInt32 Nat ⟨8, 8⟩ p
        let g := first.create UInt32 Nat ⟨1000, 4⟩ .none
        decide (s.region.heap.pageSize = 2 ^ 9 ∧ first.region.heap.pageSize = 2 ^ 9 ∧
          Journal.Lawful g.region.heap.journal ∧
          (g.tenants.map fun t =>
            (t.store.shape.slabSize, t.store.shape.perSlab, t.trie.slabCount)) =
              [(1536, 1, 1), (512, 12, 2)] ∧
          g.nodes.length = 16)
      | .error _ => false) = true := by
    rw [hp]
    decide +kernel
  rcases h : Session.create (.withSize 256) { source := ({ pageSize := 512 } : Tracker) } with
    ⟨fault, heap⟩ | s <;> rw [h] at hcheck
  · cases hcheck
  · obtain ⟨hpage, hpage', hlawful, hshapes, hlength⟩ := of_decide_eq_true hcheck
    have hsteps := (steps_create ⟨s.region, []⟩ UInt32 Nat ⟨8, 8⟩ p ⟨9, hpage⟩).trans
      (steps_create _ UInt32 Nat ⟨1000, 4⟩ .none ⟨9, hpage'⟩)
    exact ⟨s, p, rfl, hp, hshapes, hlength, (nodes_apart h hsteps hlawful).2⟩

end Grove

end RegionTrie
