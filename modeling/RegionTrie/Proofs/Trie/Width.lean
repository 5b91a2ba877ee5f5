import Mathlib.Data.List.Forall2
import RegionTrie.Proofs.Key.Bits
import RegionTrie.Proofs.Trie.Requests

/-!
# Tries of words and tries of octets

A trie of octets does not notice that its keys are wider than it needs. Let every key and every mask
of a trie of words be followed by zeros: then a trie of octets that is created and changed in the
same way has the same nodes in the same places and gives the same answers, as long as its requests
for slabs end as those of the trie of words do. Walks that end with the key in one trie end in the
other at the first clear bit of a mask, or where there is no node.

## Main definitions

* `TrieCall.widen`: a call with zeros after its key and its mask
* `TrieAnswer.Alike`: answers that are alike
* `Trie.Mirrors`: a trie of octets looks like a trie of words

## Main results

* `Trie.Twin.linkLevels`, `Trie.Twin.create`: laying out levels in advance does not depend on the
  type of the keys
* `Trie.Twin.call`, `Trie.Twin.run`: tries that are twins stay twins in the course of a run
* `Trie.width_independent`: a trie of octets mirrors a trie of words, from its creation on
-/

namespace RegionTrie

/-- The same call for a trie of octets: every key and every mask is followed by zeros. -/
def TrieCall.widen {V : Type} : TrieCall UInt32 V → TrieCall Octets V
  | .insert key mask value => .insert (.ofWord key) (.ofWord mask) value
  | .delete key mask => .delete (.ofWord key) (.ofWord mask)
  | .get key mask => .get (.ofWord key) (.ofWord mask)
  | .find key => .find (.ofWord key)

/-- Two answers are alike: they are the same, or refusals with faults in the relation `E`. -/
inductive TrieAnswer.Alike {V : Type} (E : Fault → Fault → Prop) :
    TrieAnswer V → TrieAnswer V → Prop where
  | done : Alike E .done .done
  | refused {fault fault' : Fault} (h : E fault fault') : Alike E (.refused fault) (.refused fault')
  | found (value : Option V) : Alike E (.found value) (.found value)

theorem EndsAlike.ofOutcome {V : Type} {E : Fault → Fault → Prop}
    {outcome outcome' : Except Fault Unit} (h : EndsAlike E Eq outcome outcome') :
    TrieAnswer.Alike (V := V) E (.ofOutcome outcome) (.ofOutcome outcome') := by
  cases h with
  | ok => exact .done
  | error hfault => exact .refused hfault

namespace Trie

open PrefixKey

/-- A trie of octets looks like a trie of words: the same indices stand in the same places, with the
same values, the counts are the same, and what is found for octets is what is found for the word
that they begin with. -/
structure Mirrors {V : Type} (t : Trie UInt32 V) (t' : Trie Octets V) : Prop where
  root : t'.root = t.root
  size : t'.size = t.size
  nodeCount : t'.nodeCount = t.nodeCount
  freeCount : t'.freeCount = t.freeCount
  slabCount : t'.slabCount = t.slabCount
  find (key : UInt32) (octets : Octets) : (bits octets).take 32 = bits key →
    t'.find octets = t.find key

namespace Twin

variable {V σ σ' : Type} {E : Fault → Fault → Prop}

section Words

variable {t : Trie UInt32 V} {t' : Trie Octets V}

theorem find (h : t.Twin t') (ht : t.WellFormed) {key : UInt32} {octets : Octets}
    (hkey : (bits octets).take 32 = bits key) : t'.find octets = t.find key := by
  have hsplit : bits octets = bits key ++ (bits octets).drop 32 := by
    rw [← hkey, List.take_append_drop]
  rw [Trie.find, Trie.find, h.root, hsplit]
  refine Branch.find_append (fun q hq => ?_) _
  rw [length_bits]
  exact ht.shallow q hq

theorem mirrors (h : t.Twin t') (ht : t.WellFormed) : t.Mirrors t' where
  root := h.root
  size := h.size
  nodeCount := h.nodes.linked
  freeCount := congrArg List.length h.nodes.free
  slabCount := h.nodes.slabs
  find _ _ hkey := h.find ht hkey

variable [RawSource σ] [RawSource σ'] {r : Region σ} {r' : Region σ'}

/-- Twin tries answer a call and its wide form alike, and stay twins. -/
theorem call (h : t.Twin t') (ht : t.WellFormed) (hE : ∀ fault, E fault fault)
    (c : TrieCall UInt32 V)
    (hmet : MetAlike E (t.callRequests r c) (t'.callRequests r' c.widen)) :
    (t.call r c).1.Alike E (t'.call r' c.widen).1 ∧
      (t.call r c).2.1.Twin (t'.call r' c.widen).2.1 ∧
      (t'.callRequests r' c.widen).length = (t.callRequests r c).length := by
  cases c with
  | insert key mask value =>
    simp only [TrieCall.widen, callRequests, Trie.call, Trie.insert, Octets.selected_ofWord]
      at hmet ⊢
    obtain ⟨hends, htwin, hlen⟩ := h.link hE (some value) hmet
    exact ⟨hends.ofOutcome, htwin, hlen⟩
  | delete key mask =>
    simp only [TrieCall.widen, callRequests, Trie.call, Trie.delete, Octets.selected_ofWord]
    obtain ⟨hends, htwin⟩ := h.unlink hE (selected key mask)
    exact ⟨hends.ofOutcome, htwin, trivial⟩
  | get key mask =>
    simp only [TrieCall.widen, callRequests, Trie.call, Trie.get, Octets.selected_ofWord, h.root]
    exact ⟨.found _, h, trivial⟩
  | find key =>
    have hfind : t'.find (.ofWord key) = t.find key := by
      refine h.find ht ?_
      rw [Octets.bits_ofWord]
      exact List.take_left' (length_bits key)
    simp only [TrieCall.widen, callRequests, Trie.call, hfind]
    exact ⟨.found _, h, trivial⟩

/-- Twin tries answer all calls of a run alike, and stay twins. -/
theorem run (h : t.Twin t') (ht : t.WellFormed ∧ t.Rooted) (hE : ∀ fault, E fault fault)
    {turns : List (TrieTurn UInt32 V σ)} {turns' : List (TrieTurn Octets V σ')}
    (hturns : List.Forall₂ (fun turn turn' => turn'.call = turn.call.widen) turns turns')
    (hmet : MetAlike E (t.runRequests r turns) (t'.runRequests r' turns')) :
    List.Forall₂ (fun entry entry' => entry.2.Alike E entry'.2) (t.run r turns).1
        (t'.run r' turns').1 ∧
      (t.run r turns).2.1.Twin (t'.run r' turns').2.1 := by
  induction hturns generalizing t t' r r' with
  | nil => exact ⟨.nil, h⟩
  | @cons turn turn' rest rest' hturn hrest ih =>
    simp only [runRequests, Trie.run, hturn] at hmet ⊢
    -- the requests of the first call end alike, so both sides make equally many of them
    obtain ⟨hanswer, htwin, hlen⟩ := h.call ht.1 hE turn.call hmet.of_append
    obtain ⟨hanswers, hall⟩ := ih htwin (WellFormed.call ht _ turn.call) (hmet.after_append hlen)
    exact ⟨.cons hanswer hanswers, hall⟩

end Words

/-! ## Levels laid out in advance -/

section Levels

variable {K K' : Type} [PrefixKey K] [PrefixKey K'] [LawfulPrefixKey K] [LawfulPrefixKey K']
  [RawSource σ] [RawSource σ'] {t : Trie K V} {t' : Trie K' V} {r : Region σ} {r' : Region σ'}

/-- Twin tries lay out prefixes of one length alike. -/
theorem linkLevel (h : t.Twin t') (hE : ∀ fault, E fault fault) {length : Nat}
    (hK : length ≤ min (width K) 64) (hK' : length ≤ min (width K') 64) (first count : Nat)
    (hmet : MetAlike E (t.linkLevelRequests r length first count)
      (t'.linkLevelRequests r' length first count)) :
    EndsAlike E Eq (t.linkLevel r length first count).1 (t'.linkLevel r' length first count).1 ∧
      (t.linkLevel r length first count).2.1.Twin (t'.linkLevel r' length first count).2.1 ∧
      (t'.linkLevelRequests r' length first count).length =
        (t.linkLevelRequests r length first count).length := by
  induction count generalizing t t' r r' first with
  | zero => exact ⟨.ok rfl, h, rfl⟩
  | succ count ih =>
    -- the path is that of the number on either side
    simp only [linkLevelRequests, Trie.linkLevel, selected_ofPrefix hK, selected_ofPrefix hK']
      at hmet ⊢
    obtain ⟨hends, htwin, hlen⟩ := h.link hE none hmet.of_append
    have hmet := hmet.after_append hlen
    rw [List.length_append, List.length_append, hlen]
    rcases hop : t.link r _ none with ⟨fault | ⟨⟩, t₁, r₁⟩ <;>
      rcases hop' : t'.link r' _ none with ⟨fault' | ⟨⟩, t₁', r₁'⟩ <;>
      rw [hop, hop'] at hends htwin hmet <;> cases hends
    case error.error hfault => exact ⟨.error hfault, htwin, rfl⟩
    case ok.ok =>
      obtain ⟨hends, hrest, hcount⟩ := ih htwin (first + 1) hmet
      exact ⟨hends, hrest, congrArg (_ + ·) hcount⟩

/-- Twin tries lay out levels alike that no key is too narrow for. -/
theorem linkLevels (h : t.Twin t') (hE : ∀ fault, E fault fault)
    (hK : deepestPreallocation ≤ width K) (hK' : deepestPreallocation ≤ width K')
    {first count : Nat} (hdeep : first + count ≤ deepestPreallocation + 1)
    (hmet : MetAlike E (t.linkLevelsRequests r first count)
      (t'.linkLevelsRequests r' first count)) :
    EndsAlike E Eq (t.linkLevels r first count).1 (t'.linkLevels r' first count).1 ∧
      (t.linkLevels r first count).2.1.Twin (t'.linkLevels r' first count).2.1 := by
  induction count generalizing t t' r r' first with
  | zero => exact ⟨.ok rfl, h⟩
  | succ count ih =>
    have hfits : first ≤ deepestPreallocation := by omega
    have hnumber : first ≤ 64 := Nat.le_trans hfits (by decide)
    rw [linkLevelsRequests, linkLevelsRequests] at hmet
    obtain ⟨hends, htwin, hlen⟩ := h.linkLevel hE (Nat.le_min.mpr ⟨Nat.le_trans hfits hK, hnumber⟩)
      (Nat.le_min.mpr ⟨Nat.le_trans hfits hK', hnumber⟩) 0 (1 <<< first) hmet.of_append
    have hmet := hmet.after_append hlen
    rw [Trie.linkLevels, Trie.linkLevels]
    rcases hop : t.linkLevel r first 0 (1 <<< first) with ⟨fault | ⟨⟩, t₁, r₁⟩ <;>
      rcases hop' : t'.linkLevel r' first 0 (1 <<< first) with ⟨fault' | ⟨⟩, t₁', r₁'⟩ <;>
      rw [hop, hop'] at hends htwin hmet <;> cases hends
    case error.error hfault => exact ⟨.error hfault, htwin⟩
    case ok.ok => exact ih htwin (by omega) hmet

/-- The creation of a trie ends alike for any two types of keys that are wide enough, and what is
created are twins. -/
theorem create (hE : ∀ fault, E fault fault) (hK : deepestPreallocation ≤ width K)
    (hK' : deepestPreallocation ≤ width K') {value : Layout} {p : Preallocation}
    (hpage : r'.heap.pageSize = r.heap.pageSize)
    (hmet : MetAlike E (createRequests K V value p r) (createRequests K' V value p r')) :
    EndsAlike E (fun (t : Trie K V) (t' : Trie K' V) => t.Twin t') (Trie.create value p r).1
      (Trie.create value p r').1 := by
  unfold createRequests at hmet
  unfold Trie.create
  rw [hpage, Nat.min_eq_right hK, Nat.min_eq_right hK'] at hmet ⊢
  by_cases hdepth : deepestPreallocation < p.levels (SlabShape.ofValue value r.heap.pageSize)
  · simp only [if_pos hdepth]
    exact .error (hE _)
  · simp only [if_neg hdepth] at hmet ⊢
    -- nothing tells the bare tries apart
    have hbare : Twin (bare value r.heap.pageSize : Trie K V)
        (bare value r.heap.pageSize : Trie K' V) := ⟨⟨rfl, rfl, rfl, rfl⟩, rfl, rfl⟩
    obtain ⟨hends, htwin, hlen⟩ := hbare.link hE none hmet.of_append
    have hmet := hmet.after_append hlen
    rcases hop : (bare value r.heap.pageSize : Trie K V).link r [] none with
      ⟨fault | ⟨⟩, top, r₁⟩ <;>
      rcases hop' : (bare value r.heap.pageSize : Trie K' V).link r' [] none with
        ⟨fault' | ⟨⟩, top', r₁'⟩ <;>
      rw [hop, hop'] at hends htwin hmet <;> cases hends <;> unfold bare at hop hop' <;>
      simp only [hop, hop']
    case error.error hfault => exact .error hfault
    case ok.ok =>
      obtain ⟨hends, hall⟩ := htwin.linkLevels hE hK hK' (by omega) hmet
      rcases hlevels : top.linkLevels r₁ 1 _ with ⟨fault | ⟨⟩, t₂, r₂⟩ <;>
        rcases hlevels' : top'.linkLevels r₁' 1 _ with ⟨fault' | ⟨⟩, t₂', r₂'⟩ <;>
        rw [hlevels, hlevels'] at hends hall <;> cases hends
      case error.error hfault => exact .error hfault
      case ok.ok => exact .ok hall

end Levels

end Twin

variable {V σ σ' : Type} [RawSource σ] [RawSource σ'] {E : Fault → Fault → Prop}

/-- **A trie does not depend on the width of its keys.** A trie of words and a trie of octets for
values of the same layout, on pages of the same size, laid out to the same depth, are created with
the same outcome and mirror each other. From then on they answer all calls of a run alike, where
those of the trie of octets have zeros after keys and masks, and mirror each other after every
call. What others do to the regions is arbitrary on either side, as long as the requests for slabs
end alike, each with the other of the same number. Whatever `E` takes for the same fault of a
request is the same fault of an answer: equality, or any coarser relation. -/
theorem width_independent (hE : ∀ fault, E fault fault) {value : Layout} {p : Preallocation}
    {r₀ : Region σ} {r₀' : Region σ'} (hpage : r₀'.heap.pageSize = r₀.heap.pageSize)
    (hmet : MetAlike E (createRequests UInt32 V value p r₀) (createRequests Octets V value p r₀')) :
    EndsAlike E Mirrors (create (K := UInt32) (V := V) value p r₀).1
        (create (K := Octets) (V := V) value p r₀').1 ∧
      ∀ (t : Trie UInt32 V) (t' : Trie Octets V),
        (create value p r₀).1 = .ok t → (create value p r₀').1 = .ok t' →
        ∀ (r : Region σ) (r' : Region σ') (turns : List (TrieTurn UInt32 V σ))
          (turns' : List (TrieTurn Octets V σ')),
          List.Forall₂ (fun turn turn' => turn'.call = turn.call.widen) turns turns' →
          MetAlike E (t.runRequests r turns) (t'.runRequests r' turns') →
          List.Forall₂ (fun entry entry' => entry.2.Alike E entry'.2) (t.run r turns).1
              (t'.run r' turns').1 ∧
            ∀ n, (t.run r (turns.take n)).2.1.Mirrors (t'.run r' (turns'.take n)).2.1 := by
  have hends := Twin.create hE (by decide) (by decide) hpage hmet
  have hcreated : ∀ t, (create (K := UInt32) (V := V) value p r₀).1 = .ok t →
      t.WellFormed ∧ t.Rooted := by
    intro t ht
    exact (wellFormed_create (Prod.ext ht rfl)).1
  constructor
  · rcases hop : (create (K := UInt32) (V := V) value p r₀).1 with fault | t <;>
      rcases hop' : (create (K := Octets) (V := V) value p r₀').1 with fault' | t' <;>
      rw [hop, hop'] at hends <;> cases hends
    case error.error hfault => exact .error hfault
    case ok.ok htwin => exact .ok (htwin.mirrors (hcreated t hop).1)
  · intro t t' ht ht' r r' turns turns' hturns hrun
    rw [ht, ht'] at hends
    cases hends with
    | ok htwin =>
      refine ⟨(htwin.run (hcreated t ht) hE hturns hrun).1, fun n => ?_⟩
      -- the requests of the first calls come before the others
      rw [← List.take_append_drop n turns, ← List.take_append_drop n turns', runRequests_append,
        runRequests_append] at hrun
      have hfirst := htwin.run (hcreated t ht) hE (List.forall₂_take n hturns) hrun.of_append
      exact hfirst.2.mirrors (WellFormed.run (hcreated t ht) r _).1

/-- Tries mirror each other, for instance, in two regions with blocks of different sizes. -/
theorem width_independent_tracked :
    ∃ (t : Trie UInt32 Nat) (r : Region Tracker) (t' : Trie Octets Nat) (r' : Region Tracker),
      create ⟨8, 8⟩ (.depth 1) (trackedRegion 1024) = (.ok t, r) ∧
      create ⟨8, 8⟩ (.depth 1) (trackedRegion 512) = (.ok t', r') ∧
      (t.run r [⟨id, .insert 0 0xC0000000 7⟩, ⟨id, .delete 0 0xC0000000⟩]).2.1.Mirrors
        (t'.run r' [⟨id, .insert (.ofWord 0) (.ofWord 0xC0000000) 7⟩,
          ⟨id, .delete (.ofWord 0) (.ofWord 0xC0000000)⟩]).2.1 := by
  let turns : List (TrieTurn UInt32 Nat Tracker) :=
    [⟨id, .insert 0 0xC0000000 7⟩, ⟨id, .delete 0 0xC0000000⟩]
  let turns' : List (TrieTurn Octets Nat Tracker) :=
    [⟨id, .insert (.ofWord 0) (.ofWord 0xC0000000) 7⟩,
      ⟨id, .delete (.ofWord 0) (.ofWord 0xC0000000)⟩]
  have hpage : (trackedRegion 512).heap.pageSize = (trackedRegion 1024).heap.pageSize := rfl
  have hcreate : MetAlike Eq
      (createRequests UInt32 Nat ⟨8, 8⟩ (.depth 1) (trackedRegion 1024))
      (createRequests Octets Nat ⟨8, 8⟩ (.depth 1) (trackedRegion 512)) := by
    have hsame : createRequests Octets Nat ⟨8, 8⟩ (.depth 1) (trackedRegion 512) =
        createRequests UInt32 Nat ⟨8, 8⟩ (.depth 1) (trackedRegion 1024) := by decide +kernel
    rw [hsame]
    exact .refl (fun _ => rfl) _
  have hrun :
      ((create ⟨8, 8⟩ (.depth 1) (trackedRegion 512)).1.toOption.map fun t' : Trie Octets Nat =>
        t'.runRequests (create (K := Octets) (V := Nat) ⟨8, 8⟩ (.depth 1) (trackedRegion 512)).2
          turns') =
      ((create ⟨8, 8⟩ (.depth 1) (trackedRegion 1024)).1.toOption.map fun t : Trie UInt32 Nat =>
        t.runRequests (create (K := UInt32) (V := Nat) ⟨8, 8⟩ (.depth 1) (trackedRegion 1024)).2
          turns) := by decide +kernel
  have hok : (create (K := UInt32) (V := Nat) ⟨8, 8⟩ (.depth 1) (trackedRegion 1024)).1.toBool := by
    decide +kernel
  obtain ⟨hends, hall⟩ := width_independent (fun _ => rfl) hpage hcreate
  rcases h : create (K := UInt32) (V := Nat) ⟨8, 8⟩ (.depth 1) (trackedRegion 1024) with
    ⟨fault | t, r⟩ <;>
    rcases h' : create (K := Octets) (V := Nat) ⟨8, 8⟩ (.depth 1) (trackedRegion 512) with
      ⟨fault' | t', r'⟩ <;>
    rw [h, h'] at hends hrun hall <;> rw [h] at hok <;> cases hends
  · cases hok
  · have hsame : t'.runRequests r' turns' = t.runRequests r turns := Option.some.inj hrun
    obtain ⟨-, hmirrors⟩ := hall t t' rfl rfl r r' turns turns'
      (.cons rfl (.cons rfl .nil)) (hsame ▸ MetAlike.refl (fun _ => rfl) _)
    exact ⟨t, r, t', r', rfl, rfl, hmirrors 2⟩

end Trie

end RegionTrie
