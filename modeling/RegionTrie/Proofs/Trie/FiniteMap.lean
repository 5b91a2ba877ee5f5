import Mathlib.Data.Finmap
import RegionTrie.Proofs.Trie.Simulation

/-!
# Tries as finite maps

Seen from outside a trie is a finite map from bit strings to values. The map is read off the log of
calls and answers alone: an insertion that was carried out binds a prefix, a deletion that was
carried out unbinds it, and nothing else changes anything. Every answer that a trie gives is one
that this map allows, whichever requests for memory were granted. And so is every answer that comes
of the links in memory, as an arena carries a trie through every run.

## Main definitions

* `PrefixMap`, `PrefixMap.remember`, `PrefixMap.ofLog`: the map, and how the log determines it
* `PrefixMap.Longest`: the value bound to the longest prefix of a key
* `PrefixMap.Allows`: the answers to a call that a map allows
* `Trie.Represents`: a trie holds the bindings of a map

## Main results

* `Trie.Represents.call`: a call keeps the trie and the map in step
* `Trie.Represents.allows`: a trie answers as its map allows
* `Arena.run_refines_map`: so does every arena after every run
-/

namespace RegionTrie

/-- A finite map from prefixes to values. -/
abbrev PrefixMap (V : Type) := Finmap fun _ : List Bool => V

namespace PrefixMap

variable {K V : Type}

theorem keys_insert (m : PrefixMap V) (path : List Bool) (value : V) :
    (m.insert path value).keys = insert path m.keys := by
  ext q
  rw [Finmap.mem_keys, Finmap.mem_insert, Finset.mem_insert, Finmap.mem_keys]

theorem eq_empty_iff_card {m : PrefixMap V} : m = ∅ ↔ m.keys.card = 0 := by
  rw [Finset.card_eq_zero]
  constructor
  · rintro rfl
    rfl
  · intro hkeys
    apply Finmap.ext_lookup
    intro path
    rw [Finmap.lookup_empty, Finmap.lookup_eq_none, ← Finmap.mem_keys, hkeys]
    exact Finset.notMem_empty path

/-- What there is to find for a key: the value bound to the longest prefix of it, and nothing if no
prefix is bound. -/
def Longest (m : PrefixMap V) (key : List Bool) : Option V → Prop
  | none => ∀ q, q <+: key → q ∉ m
  | some value =>
    ∃ p, p <+: key ∧ m.lookup p = some value ∧ ∀ q, q <+: key → q ∈ m → q.length ≤ p.length

variable [PrefixKey K]

/-- The map after a call and the answer to it: only changes that were carried out count. -/
def remember (m : PrefixMap V) : TrieCall K V × TrieAnswer V → PrefixMap V
  | (.insert key mask value, .done) =>
    m.insert ((PrefixKey.bits key).take (PrefixKey.maskLength mask)) value
  | (.delete key mask, .done) => m.erase ((PrefixKey.bits key).take (PrefixKey.maskLength mask))
  | _ => m

/-- The map that a log determines. -/
def ofLog (log : List (TrieCall K V × TrieAnswer V)) : PrefixMap V :=
  log.foldl remember ∅

/-- The answers that a map allows. An insertion is refused as busy exactly where the prefix is
bound, and otherwise only for want of memory; a deletion finds nothing only where the prefix is not
bound. -/
def Allows (m : PrefixMap V) : TrieCall K V → TrieAnswer V → Prop
  | .insert key mask _, answer =>
    if (PrefixKey.bits key).take (PrefixKey.maskLength mask) ∈ m then answer = .refused .busy
    else answer = .done ∨ ∃ size align, answer = .refused (.exhausted size align)
  | .delete key mask, answer =>
    answer = .done ∨
      answer = .refused .notFound ∧
        (PrefixKey.bits key).take (PrefixKey.maskLength mask) ∉ m
  | .get key mask, answer =>
    answer = .found (m.lookup ((PrefixKey.bits key).take (PrefixKey.maskLength mask)))
  | .find key, answer => ∃ found, answer = .found found ∧ m.Longest (PrefixKey.bits key) found

end PrefixMap

namespace Trie

variable {K V σ : Type}

/-- A trie holds the bindings of a map, and its size is their number. -/
structure Represents (t : Trie K V) (m : PrefixMap V) : Prop where
  lookup_eq : ∀ path, m.lookup path = t.root.get path
  card_eq : m.keys.card = t.size

theorem Vacant.represents {t : Trie K V} (ht : t.Vacant) : t.Represents ∅ where
  lookup_eq path := by rw [Finmap.lookup_empty, ht.2]
  card_eq := ht.1.symm

namespace Represents

variable {t : Trie K V} {m : PrefixMap V}

theorem mem_iff (h : t.Represents m) (path : List Bool) : path ∈ m ↔ (t.root.get path).isSome := by
  rw [← Finmap.lookup_isSome, h.lookup_eq]

theorem notMem_iff (h : t.Represents m) (path : List Bool) :
    path ∉ m ↔ t.root.get path = none := by
  rw [← Finmap.lookup_eq_none, h.lookup_eq]

/-- What is found along a path is the value bound to its longest prefix. -/
theorem longest (h : t.Represents m) (path : List Bool) : m.Longest path (t.root.find path) := by
  cases hfind : t.root.find path with
  | none =>
    intro q hq
    rw [h.notMem_iff]
    exact Branch.find_eq_none_iff.mp hfind q hq
  | some value =>
    obtain ⟨p, hp, hget, hlongest⟩ := Branch.find_eq_some_iff.mp hfind
    refine ⟨p, hp, by rw [h.lookup_eq, hget], ?_⟩
    intro q hq hmem
    exact hlongest q hq ((h.mem_iff q).mp hmem)

theorem isEmpty_iff (h : t.Represents m) : t.isEmpty ↔ m = ∅ := by
  rw [PrefixMap.eq_empty_iff_card, h.card_eq, isEmpty, beq_iff_eq]

/-! ## Changes -/

/-- Nodes that do not reach the end of a path leave every binding alone. -/
theorem graft_of_lt (h : t.Represents m) {nodes : NodeStore} {value : Option V} {path : List Bool}
    {fresh : List Nat} (hlt : fresh.length < t.root.missing path) :
    Represents ({ t with nodes, root := t.root.graft value none path fresh } : Trie K V) m where
  lookup_eq q := by
    rw [h.lookup_eq, Branch.get_graft, if_neg]
    rintro ⟨-, hle⟩
    omega
  card_eq := h.card_eq

/-- Nodes that reach the end of a path bind it. -/
theorem graft_of_le (h : t.Represents m) {nodes : NodeStore} {value : V} {path : List Bool}
    {fresh : List Nat} (hle : t.root.missing path ≤ fresh.length) (hnone : path ∉ m) :
    Represents
      ({ nodes, root := t.root.graft (some value) none path fresh, size := t.size + 1 } : Trie K V)
      (m.insert path value) where
  lookup_eq q := by
    rw [Branch.get_graft]
    by_cases hq : q = path
    · rw [if_pos ⟨hq, hle⟩, hq, Finmap.lookup_insert]
    · rw [if_neg fun hand => hq hand.1, Finmap.lookup_insert_of_ne _ hq, h.lookup_eq]
  card_eq := by
    rw [PrefixMap.keys_insert, Finset.card_insert_of_notMem, h.card_eq]
    rwa [Finmap.mem_keys]

/-- A removal unbinds the path. -/
theorem erase (h : t.Represents m) {nodes : NodeStore} {path : List Bool} {e : Branch.Erasure V}
    (herase : t.root.erase path = some e) :
    Represents ({ nodes, root := e.branch, size := t.size - e.valued.toNat } : Trie K V)
      (m.erase path) where
  lookup_eq q := by
    rw [Branch.get_erase herase]
    by_cases hq : q = path
    · rw [if_pos hq, hq, Finmap.lookup_erase]
    · rw [if_neg hq, Finmap.lookup_erase_ne hq, h.lookup_eq]
  card_eq := by
    rw [Finmap.keys_erase, Branch.valued_erase herase]
    -- the node may have gone without a value, and then no binding does
    by_cases hmem : path ∈ m
    · rw [Finset.card_erase_of_mem (Finmap.mem_keys.mpr hmem), h.card_eq, (h.mem_iff path).mp hmem]
      rfl
    · rw [Finset.erase_eq_of_notMem fun hkeys => hmem (Finmap.mem_keys.mp hkeys), h.card_eq,
        (h.notMem_iff path).mp hmem]
      rfl

/-- What a deletion answers, and that the map keeps in step. -/
theorem delete (h : t.Represents m) (r : Region σ) (path : List Bool) :
    (path ∉ m ∧ ∃ r', t.unlink r path = (.error .notFound, t, r')) ∨
    ∃ t' r', t.unlink r path = (.ok (), t', r') ∧ t'.Represents (m.erase path) := by
  rcases unlink_cases t r path with ⟨hnone, heq⟩ | ⟨e, r', herase, heq⟩
  · refine .inl ⟨?_, r, heq⟩
    intro hmem
    -- a value would be something to remove
    have hsome := Branch.isSome_erase_of_isSome_get ((h.mem_iff path).mp hmem)
    rw [hnone] at hsome
    cases hsome
  · exact .inr ⟨_, r', heq, h.erase herase⟩

/-! ## Calls -/

variable [PrefixKey K] [RawSource σ]

/-- What an insertion answers, and that the map keeps in step. -/
theorem insert (h : t.Represents m) (ht : t.WellFormed ∧ t.Rooted) (r : Region σ) (path : List Bool)
    (value : V) :
    (path ∈ m ∧ ∃ r', t.link r path (some value) = (.error .busy, t, r')) ∨
    (path ∉ m ∧ ∃ t' r', t.link r path (some value) = (.ok (), t', r') ∧
      t'.Represents (m.insert path value)) ∨
    (path ∉ m ∧ ∃ t' r' size align,
      t.link r path (some value) = (.error (.exhausted size align), t', r') ∧ t'.Represents m) := by
  rcases link_cases t r path (some value) with
    ⟨hsome, heq⟩ | ⟨taken, nodes, r', hnone, htake, hfault, heq⟩ |
    ⟨taken, nodes, r', fault, hnone, htake, hfault, heq⟩
  · exact .inl ⟨(h.mem_iff path).mpr hsome, r, heq⟩
  · -- all missing nodes were obtained, so the new value is in its place
    have hpath := (h.notMem_iff path).mpr hnone
    obtain ⟨-, -, -, -, hiff, -⟩ := NodeStore.takeMany_spec ht.1.store ht.1.accounts htake
    have hle : t.root.missing path ≤ taken.indices.length := Nat.le_of_eq (hiff.mp hfault).symm
    exact .inr (.inl ⟨hpath, _, r', heq, h.graft_of_le hle hpath⟩)
  · have hpath := (h.notMem_iff path).mpr hnone
    obtain ⟨-, -, -, hle, hiff, hexhausted⟩ :=
      NodeStore.takeMany_spec ht.1.store ht.1.accounts htake
    obtain ⟨size, align, rfl⟩ := hexhausted fault hfault (WellFormed.obtainable ht)
    -- a fault means that fewer nodes were obtained than the path lacks
    have hlt : taken.indices.length < t.root.missing path := by
      apply Nat.lt_of_le_of_ne hle
      intro hlen
      rw [hiff.mpr hlen] at hfault
      cases hfault
    exact .inr (.inr ⟨hpath, _, r', size, align, heq, h.graft_of_lt hlt⟩)

/-- A call keeps a trie and its map in step. -/
theorem call (h : t.Represents m) (ht : t.WellFormed ∧ t.Rooted) (r : Region σ)
    (c : TrieCall K V) :
    (t.call r c).2.1.Represents (m.remember (c, (t.call r c).1)) := by
  cases c with
  | insert key mask value =>
    simp only [Trie.call, Trie.insert, PrefixKey.selected_eq_take]
    rcases h.insert ht r ((PrefixKey.bits key).take (PrefixKey.maskLength mask)) value with
      ⟨-, r', heq⟩ | ⟨-, t', r', heq, hrep⟩ | ⟨-, t', r', size, align, heq, hrep⟩ <;>
      rw [heq]
    · exact h
    · exact hrep
    · exact hrep
  | delete key mask =>
    simp only [Trie.call, Trie.delete, PrefixKey.selected_eq_take]
    rcases h.delete r ((PrefixKey.bits key).take (PrefixKey.maskLength mask)) with
      ⟨-, r', heq⟩ | ⟨t', r', heq, hrep⟩ <;>
      rw [heq]
    · exact h
    · exact hrep
  | get key mask => exact h
  | find key => exact h

/-- A trie answers as its map allows. -/
theorem allows (h : t.Represents m) (ht : t.WellFormed ∧ t.Rooted) (r : Region σ)
    (c : TrieCall K V) : m.Allows c (t.call r c).1 := by
  cases c with
  | insert key mask value =>
    simp only [Trie.call, Trie.insert, PrefixKey.selected_eq_take, PrefixMap.Allows]
    rcases h.insert ht r ((PrefixKey.bits key).take (PrefixKey.maskLength mask)) value with
      ⟨hmem, r', heq⟩ | ⟨hmem, t', r', heq, -⟩ | ⟨hmem, t', r', size, align, heq, -⟩ <;>
      rw [heq]
    · rw [if_pos hmem]
      rfl
    · rw [if_neg hmem]
      exact .inl rfl
    · rw [if_neg hmem]
      exact .inr ⟨size, align, rfl⟩
  | delete key mask =>
    simp only [Trie.call, Trie.delete, PrefixKey.selected_eq_take, PrefixMap.Allows]
    rcases h.delete r ((PrefixKey.bits key).take (PrefixKey.maskLength mask)) with
      ⟨hmem, r', heq⟩ | ⟨t', r', heq, -⟩ <;>
      rw [heq]
    · exact .inr ⟨rfl, hmem⟩
    · exact .inl rfl
  | get key mask =>
    simp only [Trie.call, Trie.get, PrefixKey.selected_eq_take, PrefixMap.Allows]
    rw [h.lookup_eq]
  | find key => exact ⟨_, rfl, h.longest (PrefixKey.bits key)⟩

/-- A run keeps a trie and its map in step. -/
theorem run (h : t.Represents m) (ht : t.WellFormed ∧ t.Rooted) (r : Region σ)
    (turns : List (TrieTurn K V σ)) :
    (t.run r turns).2.1.Represents ((t.run r turns).1.foldl PrefixMap.remember m) := by
  -- the map reads the log in the order in which the trie wrote it
  induction turns generalizing t m r with
  | nil => exact h
  | cons turn rest ih =>
    have hcall := h.call ht (turn.meanwhile r) turn.call
    exact ih hcall (WellFormed.call ht (turn.meanwhile r) turn.call) _

end Represents

end Trie

namespace Arena

variable {K V σ : Type} [PrefixKey K] [RawSource σ]

/-- **An arena is a finite map**, whatever memory held before and whatever memory can be had. Every
run of a created arena ends, with the log of the trie that is created in the same region, and the
arena carries that trie. The size is then the number of bindings of the map that the log determines,
the arena is empty exactly if that map is, and every call ends, with an answer that the map allows.
-/
theorem run_refines_map {memory : Nat → Node V} {value : Layout} {p : Preallocation}
    {r₀ r₁ : Region σ} {a : Arena K V} (h : create memory value p r₀ = (.ok a, r₁)) (r : Region σ)
    (turns : List (TrieTurn K V σ)) :
    ∃ (t : Trie K V) (a' : Arena K V), Trie.create value p r₀ = (.ok t, r₁) ∧
      let ran := t.run r turns
      a.run r turns = some (ran.1, a', ran.2.2) ∧ a'.Carries ran.2.1 ∧
      a'.size = (PrefixMap.ofLog ran.1).keys.card ∧ (a'.isEmpty ↔ PrefixMap.ofLog ran.1 = ∅) ∧
      ∀ (r' : Region σ) (c : TrieCall K V), ∃ answer after, a'.call r' c = some (answer, after) ∧
        answer = (ran.2.1.call r' c).1 ∧ (PrefixMap.ofLog ran.1).Allows c answer := by
  -- the trie holds the bindings of the map
  obtain ⟨t, hcreate, hcarries⟩ := carries_of_create h
  obtain ⟨hcreated, hvacant⟩ := Trie.wellFormed_create hcreate
  have hrep := hvacant.represents.run hcreated r turns
  have hwell := Trie.WellFormed.run hcreated r turns
  obtain ⟨ended, hrun, hends⟩ := hcarries.run hcreated r turns
  obtain ⟨a', rfl, hcarries'⟩ := hends.exists_arena
  refine ⟨t, a', hcreate, hrun, hcarries', hcarries'.size.trans hrep.card_eq.symm, ?_,
    fun r' c => ?_⟩
  · rw [isEmpty, hcarries'.size]
    exact hrep.isEmpty_iff
  · obtain ⟨ended, hcall, hends⟩ := hcarries'.call hwell r' c
    obtain ⟨after, rfl, -⟩ := hends.exists_arena
    exact ⟨_, _, hcall, rfl, hrep.allows hwell r' c⟩

/-- The map is right, for instance, where one of two values stored over a numbered source was
removed again, in memory that held links and values at first. -/
theorem run_refines_map_tracked :
    ∃ (a : Arena UInt32 Nat) (r : Region Tracker),
      create (fun _ => ⟨some 0, some 1, some 2, some 9⟩) ⟨8, 8⟩ .none (Trie.trackedRegion 1024) =
        (.ok a, r) ∧
      ∃ log a' r', a.run r
          [⟨id, .insert 0 0xC0000000 7⟩, ⟨id, .insert 0 0x80000000 8⟩, ⟨id, .delete 0 0xC0000000⟩] =
          some (log, a', r') ∧
        a'.size = (PrefixMap.ofLog log).keys.card ∧
        ∃ answer after, a'.call r (.find 0) = some (answer, after) ∧
          (PrefixMap.ofLog log).Allows (.find (0 : UInt32)) answer := by
  rcases h : create (K := UInt32) (V := Nat) (fun _ => ⟨some 0, some 1, some 2, some 9⟩) ⟨8, 8⟩
    .none (Trie.trackedRegion 1024) with ⟨fault | a, r⟩
  · have hok : (create (K := UInt32) (V := Nat) (fun _ => ⟨some 0, some 1, some 2, some 9⟩) ⟨8, 8⟩
        .none (Trie.trackedRegion 1024)).1.toBool := by decide +kernel
    rw [h] at hok
    cases hok
  · obtain ⟨t, a', -, hrun, -, hsize, -, hanswers⟩ := run_refines_map h r
      [⟨id, .insert 0 0xC0000000 7⟩, ⟨id, .insert 0 0x80000000 8⟩, ⟨id, .delete 0 0xC0000000⟩]
    obtain ⟨answer, after, hcall, -, hallows⟩ := hanswers r (.find 0)
    exact ⟨a, r, rfl, _, a', _, hrun, hsize, answer, after, hcall, hallows⟩

end Arena

end RegionTrie
