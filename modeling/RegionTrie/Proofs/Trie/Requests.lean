import RegionTrie.Proofs.Trie.Run

/-!
# Requests for slabs

All that a trie takes from its region is slabs, and all that becomes of it depends on whether it
gets them, not on where they lie. So two tries that start alike and are changed alike, each in a
region of its own, stay alike as long as their requests for slabs end alike, the first with the
first and so on.

## Main definitions

* `NodeStore.takeManyRequests`, `Trie.linkRequests`: how the requests for slabs end that a change of
  a trie makes
* `Trie.runRequests`, `Trie.createRequests`: the same for a run of a trie, and for its creation
* `EndsAlike`, `MetAlike`: outcomes that are alike, and requests that end alike
* `NodeStore.Twin`, `Trie.Twin`: stores and tries that differ only in where their slabs lie

## Main results

* `NodeStore.Twin.takeMany`: twin stores whose requests end alike hand out the same nodes
* `Trie.Twin.link`, `Trie.Twin.unlink`: twin tries whose requests end alike stay twins
-/

namespace RegionTrie

/-! ## Outcomes -/

/-- Two outcomes are alike: both are successes, with results in the relation `R`, or both are
faults, in the relation `E`. -/
inductive EndsAlike {α β : Type} (E : Fault → Fault → Prop) (R : α → β → Prop) :
    Except Fault α → Except Fault β → Prop where
  | ok {a : α} {b : β} (h : R a b) : EndsAlike E R (.ok a) (.ok b)
  | error {fault fault' : Fault} (h : E fault fault') : EndsAlike E R (.error fault) (.error fault')

/-- As far as both lists go, their outcomes are alike, the first with the first and so on. -/
def MetAlike (E : Fault → Fault → Prop) (requests requests' : List (Except Fault Unit)) : Prop :=
  ∀ (i : Nat) (outcome outcome' : Except Fault Unit), requests[i]? = some outcome →
    requests'[i]? = some outcome' → EndsAlike E Eq outcome outcome'

namespace MetAlike

variable {E : Fault → Fault → Prop} {first rest first' rest' : List (Except Fault Unit)}

theorem refl (hE : ∀ fault, E fault fault) (requests : List (Except Fault Unit)) :
    MetAlike E requests requests := by
  intro i outcome outcome' h h'
  obtain rfl := Option.some.inj (h.symm.trans h')
  cases outcome with
  | error fault => exact .error (hE fault)
  | ok => exact .ok rfl

/-- What holds of all requests holds of those made first. -/
theorem of_append (h : MetAlike E (first ++ rest) (first' ++ rest')) : MetAlike E first first' := by
  intro i outcome outcome' hi hi'
  refine h i outcome outcome' ?_ ?_
  · rwa [List.getElem?_append_left (List.getElem?_eq_some_iff.mp hi).1]
  · rwa [List.getElem?_append_left (List.getElem?_eq_some_iff.mp hi').1]

/-- After equally many requests on both sides, the others are alike too. -/
theorem after_append (h : MetAlike E (first ++ rest) (first' ++ rest'))
    (hlen : first'.length = first.length) : MetAlike E rest rest' := by
  intro i outcome outcome' hi hi'
  refine h (first.length + i) outcome outcome' ?_ ?_
  · rwa [List.getElem?_append_right (Nat.le_add_right _ _), Nat.add_sub_cancel_left]
  · rwa [← hlen, List.getElem?_append_right (Nat.le_add_right _ _), Nat.add_sub_cancel_left]

theorem single {outcome outcome' : Except Fault Unit} (h : MetAlike E [outcome] [outcome']) :
    EndsAlike E Eq outcome outcome' :=
  h 0 outcome outcome' rfl rfl

end MetAlike

/-! ## The requests that are made -/

section Requests

variable {σ : Type} [RawSource σ]

namespace NodeStore

/-- A slab is asked for if no node remains. -/
def replenishRequests (s : NodeStore) (r : Region σ) : List (Except Fault Unit) :=
  if s.remaining = 0 then
    [(r.allocateAligned s.shape.slabSize s.shape.slabAlign).1.map fun _ => ()]
  else []

/-- The requests made when a node is taken: none if one is on the stack. -/
def takeRequests (s : NodeStore) (r : Region σ) : List (Except Fault Unit) :=
  match s.free with
  | [] => s.replenishRequests r
  | _ :: _ => []

/-- The requests made when so many nodes are taken. -/
def takeManyRequests (s : NodeStore) (r : Region σ) : Nat → List (Except Fault Unit)
  | 0 => []
  | n + 1 =>
    s.takeRequests r ++
      match s.take r with
      | (.error _, _, _) => []
      | (.ok _, s, r) => s.takeManyRequests r n

end NodeStore

namespace Trie

variable {K V : Type}

/-- The requests made when a path is linked. -/
def linkRequests (t : Trie K V) (r : Region σ) (path : List Bool) : List (Except Fault Unit) :=
  if (t.root.get path).isSome then []
  else t.nodes.takeManyRequests r (t.root.missing path)

variable [PrefixKey K]

/-- The requests made in the course of a call: only insertions make any. -/
def callRequests (t : Trie K V) (r : Region σ) : TrieCall K V → List (Except Fault Unit)
  | .insert key mask _ => t.linkRequests r (PrefixKey.selected key mask)
  | .delete .. => []
  | .get .. => []
  | .find .. => []

/-- The requests made in the course of a run. -/
def runRequests (t : Trie K V) (r : Region σ) :
    List (TrieTurn K V σ) → List (Except Fault Unit)
  | [] => []
  | turn :: rest =>
    t.callRequests (turn.meanwhile r) turn.call ++
      match t.call (turn.meanwhile r) turn.call with
      | (_, t, r) => t.runRequests r rest

theorem runRequests_append (t : Trie K V) (r : Region σ) (first rest : List (TrieTurn K V σ)) :
    t.runRequests r (first ++ rest) =
      t.runRequests r first ++ (t.run r first).2.1.runRequests (t.run r first).2.2 rest := by
  induction first generalizing t r with
  | nil => rfl
  | cons turn first ih => simp only [List.cons_append, runRequests, run, ih, List.append_assoc]

/-- The requests made when `count` prefixes of one length are linked. -/
def linkLevelRequests (t : Trie K V) (r : Region σ) (length first : Nat) :
    (count : Nat) → List (Except Fault Unit)
  | 0 => []
  | count + 1 =>
    let key : K := PrefixKey.ofPrefix first length
    t.linkRequests r (PrefixKey.selected key (PrefixKey.mask length)) ++
      match t.link r (PrefixKey.selected key (PrefixKey.mask length)) none with
      | (.error _, _, _) => []
      | (.ok (), t, r) => t.linkLevelRequests r length (first + 1) count

/-- The requests made when all prefixes of `count` lengths are linked. -/
def linkLevelsRequests (t : Trie K V) (r : Region σ) (first : Nat) :
    (count : Nat) → List (Except Fault Unit)
  | 0 => []
  | count + 1 =>
    t.linkLevelRequests r first 0 (1 <<< first) ++
      match t.linkLevel r first 0 (1 <<< first) with
      | (.error _, _, _) => []
      | (.ok (), t, r) => t.linkLevelsRequests r (first + 1) count

/-- The requests made when a trie is created. -/
def createRequests (K V : Type) [PrefixKey K] (value : Layout) (p : Preallocation) (r : Region σ) :
    List (Except Fault Unit) :=
  let depth := p.levels (SlabShape.ofValue value r.heap.pageSize)
  if min (PrefixKey.width K) deepestPreallocation < depth then []
  else
    let bare : Trie K V := bare value r.heap.pageSize
    bare.linkRequests r [] ++
      match bare.link r [] none with
      | (.error _, _, _) => []
      | (.ok (), t, r) => t.linkLevelsRequests r 1 depth

end Trie

end Requests

/-! ## Twins -/

variable {σ σ' : Type} {E : Fault → Fault → Prop}

namespace NodeStore

/-- Two stores differ at most in where their slabs lie. -/
structure Twin (s s' : NodeStore) : Prop where
  shape : s'.shape = s.shape
  slabs : s'.slabs.size = s.slabs.size
  remaining : s'.remaining = s.remaining
  free : s'.free = s.free

namespace Twin

variable {s s' : NodeStore}

theorem capacity (h : s.Twin s') : s'.capacity = s.capacity := by
  rw [NodeStore.capacity, h.slabs, h.shape, NodeStore.capacity]

theorem linked (h : s.Twin s') : s'.linked = s.linked := by
  rw [NodeStore.linked, h.capacity, h.remaining, h.free, NodeStore.linked]

theorem recycle (h : s.Twin s') (indices : List Nat) :
    (s.recycle indices).Twin (s'.recycle indices) where
  shape := h.shape
  slabs := h.slabs
  remaining := h.remaining
  free := congrArg (indices.reverse ++ ·) h.free

variable [RawSource σ] [RawSource σ'] {r : Region σ} {r' : Region σ'}

theorem replenish (h : s.Twin s')
    (hmet : MetAlike E (s.replenishRequests r) (s'.replenishRequests r')) :
    EndsAlike E Eq (s.replenish r).1 (s'.replenish r').1 ∧
      (s.replenish r).2.1.Twin (s'.replenish r').2.1 ∧
      (s'.replenishRequests r').length = (s.replenishRequests r).length := by
  unfold replenishRequests at hmet ⊢
  unfold NodeStore.replenish
  rw [h.remaining, h.shape] at hmet ⊢
  by_cases hzero : s.remaining = 0
  · -- one slab is asked for on either side
    simp only [if_pos hzero] at hmet ⊢
    have hone := hmet.single
    rcases hop : r.allocateAligned s.shape.slabSize s.shape.slabAlign with ⟨fault | slab, r₁⟩ <;>
      rcases hop' : r'.allocateAligned s.shape.slabSize s.shape.slabAlign with
        ⟨fault' | slab', r₁'⟩ <;>
      rw [hop, hop'] at hone <;> cases hone
    case error.error hfault => exact ⟨.error hfault, h, rfl⟩
    case ok.ok =>
      refine ⟨.ok rfl, ⟨rfl, ?_, rfl, h.free⟩, rfl⟩
      simp [h.slabs]
  · -- nothing is asked for
    simp only [if_neg hzero]
    exact ⟨.ok rfl, h, trivial⟩

theorem carve (h : s.Twin s') (hE : ∀ fault, E fault fault)
    (hmet : MetAlike E (s.replenishRequests r) (s'.replenishRequests r')) :
    EndsAlike E Eq (s.carve r).1 (s'.carve r').1 ∧ (s.carve r).2.1.Twin (s'.carve r').2.1 := by
  obtain ⟨hends, htwin, -⟩ := h.replenish hmet
  unfold NodeStore.carve
  rcases hop : s.replenish r with ⟨fault | ⟨⟩, s₁, r₁⟩ <;>
    rcases hop' : s'.replenish r' with ⟨fault' | ⟨⟩, s₁', r₁'⟩ <;>
    rw [hop, hop'] at hends htwin <;> cases hends
  case error.error hfault => exact ⟨.error hfault, htwin⟩
  case ok.ok =>
    -- the next number is the same on either side
    have hindex : s₁'.capacity - s₁'.remaining = s₁.capacity - s₁.remaining := by
      rw [htwin.capacity, htwin.remaining]
    dsimp only
    rw [hindex, htwin.shape]
    split
    · exact ⟨.ok rfl, rfl, htwin.slabs, congrArg (· - 1) htwin.remaining, htwin.free⟩
    · exact ⟨.error (hE _), htwin⟩

theorem take (h : s.Twin s') (hE : ∀ fault, E fault fault)
    (hmet : MetAlike E (s.takeRequests r) (s'.takeRequests r')) :
    EndsAlike E Eq (s.take r).1 (s'.take r').1 ∧ (s.take r).2.1.Twin (s'.take r').2.1 ∧
      (s'.takeRequests r').length = (s.takeRequests r).length := by
  unfold takeRequests at hmet ⊢
  unfold NodeStore.take
  rw [h.free] at hmet ⊢
  cases hfree : s.free with
  | nil =>
    rw [hfree] at hmet
    obtain ⟨hends, htwin⟩ := h.carve hE hmet
    exact ⟨hends, htwin, (h.replenish hmet).2.2⟩
  | cons index free => exact ⟨.ok rfl, ⟨h.shape, h.slabs, h.remaining, rfl⟩, rfl⟩

/-- Twin stores hand out the same nodes. -/
theorem takeMany (h : s.Twin s') (hE : ∀ fault, E fault fault) {n : Nat}
    (hmet : MetAlike E (s.takeManyRequests r n) (s'.takeManyRequests r' n)) :
    (s'.takeMany r' n).1.indices = (s.takeMany r n).1.indices ∧
      Option.Rel E (s.takeMany r n).1.fault (s'.takeMany r' n).1.fault ∧
      (s.takeMany r n).2.1.Twin (s'.takeMany r' n).2.1 ∧
      (s'.takeManyRequests r' n).length = (s.takeManyRequests r n).length := by
  induction n generalizing s s' r r' with
  | zero => exact ⟨rfl, .none, h, rfl⟩
  | succ n ih =>
    rw [takeManyRequests, takeManyRequests] at hmet ⊢
    obtain ⟨hends, htwin, hlen⟩ := h.take hE hmet.of_append
    have hmet := hmet.after_append hlen
    rw [NodeStore.takeMany, NodeStore.takeMany, List.length_append, List.length_append, hlen]
    rcases hop : s.take r with ⟨fault | index, s₁, r₁⟩ <;>
      rcases hop' : s'.take r' with ⟨fault' | index', s₁', r₁'⟩ <;>
      rw [hop, hop'] at hends htwin hmet <;> cases hends
    case error.error hfault => exact ⟨rfl, .some hfault, htwin, rfl⟩
    case ok.ok hindex =>
      obtain rfl : index = index' := hindex
      obtain ⟨hindices, hfault, hrest, hcount⟩ := ih htwin hmet
      exact ⟨congrArg (index :: ·) hindices, hfault, hrest, congrArg (_ + ·) hcount⟩

end Twin

end NodeStore

namespace Trie

variable {K K' V : Type}

/-- Two tries, whatever their keys, have the same nodes and differ at most in where their slabs
lie. -/
structure Twin (t : Trie K V) (t' : Trie K' V) : Prop where
  nodes : t.nodes.Twin t'.nodes
  root : t'.root = t.root
  size : t'.size = t.size

namespace Twin

variable {t : Trie K V} {t' : Trie K' V} {r : Region σ} {r' : Region σ'}

/-- Twin tries remove what is at a path alike. -/
theorem unlink (h : t.Twin t') (hE : ∀ fault, E fault fault) (path : List Bool) :
    EndsAlike E Eq (t.unlink r path).1 (t'.unlink r' path).1 ∧
      (t.unlink r path).2.1.Twin (t'.unlink r' path).2.1 := by
  unfold Trie.unlink
  rw [h.root]
  cases t.root.erase path with
  | none => exact ⟨.error (hE _), h⟩
  | some e => exact ⟨.ok rfl, h.nodes.recycle _, rfl, congrArg (· - _) h.size⟩

variable [RawSource σ] [RawSource σ']

/-- Twin tries link a path alike. -/
theorem link (h : t.Twin t') (hE : ∀ fault, E fault fault) {path : List Bool} (value : Option V)
    (hmet : MetAlike E (t.linkRequests r path) (t'.linkRequests r' path)) :
    EndsAlike E Eq (t.link r path value).1 (t'.link r' path value).1 ∧
      (t.link r path value).2.1.Twin (t'.link r' path value).2.1 ∧
      (t'.linkRequests r' path).length = (t.linkRequests r path).length := by
  unfold linkRequests at hmet ⊢
  unfold Trie.link
  rw [h.root] at hmet ⊢
  cases hget : (t.root.get path).isSome with
  | true => exact ⟨.error (hE _), h, rfl⟩
  | false =>
    simp only [hget, Bool.false_eq_true, if_false] at hmet ⊢
    obtain ⟨hindices, hfault, hnodes, hlen⟩ := h.nodes.takeMany hE hmet
    rcases hop : t.nodes.takeMany r (t.root.missing path) with ⟨⟨indices, fault⟩, nodes, r₁⟩
    rcases hop' : t'.nodes.takeMany r' (t.root.missing path) with ⟨⟨indices', fault'⟩, nodes', r₁'⟩
    rw [hop, hop'] at hindices hfault hnodes
    obtain rfl : indices' = indices := hindices
    cases hfault with
    | none => exact ⟨.ok rfl, ⟨hnodes, rfl, congrArg (· + _) h.size⟩, hlen⟩
    | some hfault => exact ⟨.error hfault, ⟨hnodes, rfl, h.size⟩, hlen⟩

end Twin

end Trie

end RegionTrie
