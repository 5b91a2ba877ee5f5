import RegionTrie.Region.Copy
import RegionTrie.Region.Lifecycle
import RegionTrie.Session.Table
import RegionTrie.Session.Request
import RegionTrie.Session.Answer

/-!
# Sessions

A session is a region together with everything that its user still holds: ranges of memory,
handles of cleanups, and tries. Requests drive it one by one.

## Main definitions

* `Session`: region, ranges, cleanups and tries
* `Session.perform`: carry a request out
* `Session.step`, `Session.run`: carry requests out and say what can be observed
* `Session.create`, `Session.close`: the beginning and the end
-/

namespace RegionTrie

/-- A trie with the kinds of its keys and its values. -/
structure SessionTrie where
  keys : KeyKind
  values : ValueKind
  trie : Trie keys.Carrier Nat

namespace SessionTrie

/-- The numbers of the trie that show from outside. -/
def counts (t : SessionTrie) : TrieCounts :=
  ⟨t.trie.size, t.trie.nodeCount, t.trie.freeCount, t.trie.slabCount⟩

/-- The value of the longest stored prefix of the key that reads as this number. -/
def find (t : SessionTrie) (key : Nat) : Option Nat :=
  t.trie.find (PrefixKey.ofNat key)

end SessionTrie

/-- A region and what its user holds. -/
structure Session (σ : Type) where
  region : Region σ
  ranges : Table Extent := {}
  cleanups : Table Cleanup := {}
  tries : Table SessionTrie := {}

namespace Session

variable {σ : Type}

/-- The outcome of an operation as the outcome of a request. -/
def outcome {α : Type} (e : Except Fault α) (f : α → Answer) : Except Refusal Answer :=
  match e with
  | .ok a => .ok (f a)
  | .error fault => .error (.fault fault)

/-- Remember a range under a number, if one was given. -/
def keepRange (s : Session σ) (keep : Option Nat) (e : Extent) : Session σ :=
  match keep with
  | none => s
  | some n => { s with ranges := s.ranges.set n e }

/-- The session after an operation that answered with the start of a range of `size` bytes. -/
def afterRange (s : Session σ) (keep : Option Nat) (size : Nat)
    (op : Except Fault Nat × Region σ) (f : Nat → Answer) :
    Except Refusal Answer × Session σ :=
  match op with
  | (.ok start, region) => (.ok (f start), { s with region }.keepRange keep ⟨start, size⟩)
  | (.error fault, region) => (.error (.fault fault), { s with region })

/-- The session after an operation on memory for a layout: no bytes lie nowhere and are not
remembered. -/
def afterLayout (s : Session σ) (keep : Option Nat) (l : Layout)
    (op : Except Fault Nat × Region σ) (f : Place → Region σ → Nat → Answer) :
    Except Refusal Answer × Session σ :=
  if l.size = 0 then
    s.afterRange none 0 op fun start => f (.dangling l.align) op.2 start
  else
    s.afterRange keep l.size op fun start => f (.address start) op.2 start

/-- Carry on with the range that has a number. -/
def withRange (s : Session σ) (n : Nat)
    (f : Extent → Except Refusal Answer × Session σ) : Except Refusal Answer × Session σ :=
  match s.ranges.get? n with
  | none => (.error .noRange, s)
  | some e => f e

/-- Carry on with the cleanup that has a number. -/
def withCleanup (s : Session σ) (n : Nat)
    (f : Cleanup → Except Refusal Answer × Session σ) : Except Refusal Answer × Session σ :=
  match s.cleanups.get? n with
  | none => (.error .noCleanup, s)
  | some c => f c

/-- Carry on with the trie that has a number. -/
def withTrie (s : Session σ) (n : Nat)
    (f : SessionTrie → Except Refusal Answer × Session σ) : Except Refusal Answer × Session σ :=
  match s.tries.get? n with
  | none => (.error .noTrie, s)
  | some t => f t

/-- The session after an operation that changed the trie with a number. -/
def afterTrie (s : Session σ) (n : Nat) (t : SessionTrie)
    (op : Except Fault Unit × Trie t.keys.Carrier Nat × Region σ) :
    Except Refusal Answer × Session σ :=
  (outcome op.1 fun _ => .done,
    { s with region := op.2.2, tries := s.tries.set n { t with trie := op.2.1 } })

/-- What a cleanup's payload holds, and whether a handler is armed. -/
def payloadAnswer (r : Region σ) (c : Cleanup) : Answer :=
  .payload (r.isArmed c) (r.payload c)

/-- Forget every cleanup and trie. -/
def forget (s : Session σ) : Session σ :=
  { s with cleanups := {}, tries := {} }

variable [RawSource σ]

/-- The region from outside. -/
def regionSummary (s : Session σ) : RegionSummary :=
  let pool := s.region.pool
  { largestSmall := pool.largestSmall, blockSize := pool.blockSize,
    pageSize := s.region.heap.pageSize, config := pool.config,
    live := s.region.heap.live.length, text := pool.inspect }

/-- Register a cleanup under a number. -/
def addCleanup (s : Session σ) (n size : Nat) (handler : Option Nat) :
    Except Refusal Answer × Session σ :=
  let op := match handler with
    | none => s.region.addCleanup size
    | some id => s.region.addCleanupWith size id
  match op with
  | (.error fault, region) => (.error (.fault fault), { s with region })
  | (.ok c, region) =>
    (.ok (payloadAnswer region c), { s with region, cleanups := s.cleanups.set n c })

/-- Create a trie under a number. -/
def createTrie (s : Session σ) (n : Nat) (keys : KeyKind) (values : ValueKind)
    (depth : DepthChoice) : Except Refusal Answer × Session σ :=
  match depth.resolve with
  | .error fault => (.error (.fault fault), s)
  | .ok p =>
    match Trie.create values.layout p s.region with
    | (.error fault, region) => (.error (.fault fault), { s with region })
    | (.ok trie, region) =>
      (.ok .done, { s with region, tries := s.tries.set n ⟨keys, values, trie⟩ })

/-- Carry a request out. -/
def perform (s : Session σ) : Request → Except Refusal Answer × Session σ
  | .allocate keep size =>
    s.afterRange keep size (s.region.allocate size) fun start => .place (.address start)
  | .allocatePacked keep size =>
    s.afterRange keep size (s.region.allocatePacked size) fun start => .place (.address start)
  | .allocateZeroed keep size =>
    s.afterRange keep size (s.region.allocateZeroed size) fun start => .place (.address start)
  | .allocateAligned keep size align =>
    s.afterRange keep size (s.region.allocateAligned size align) fun start =>
      .place (.address start)
  | .allocateLayout keep l =>
    s.afterLayout keep l (s.region.allocateLayout l) fun place _ _ => .place place
  | .allocateValue keep kind value =>
    s.afterLayout keep kind.layout (s.region.allocateValue kind value) fun place r start =>
      .value place kind (r.value kind start)
  | .allocateSlice keep kind values =>
    s.afterLayout keep ⟨kind.layout.size * values.length, kind.layout.align⟩
      (s.region.allocateSlice kind values) fun place r start =>
        .slice place kind (r.slice kind start values.length)
  | .allocateText keep text =>
    s.afterLayout keep ⟨text.utf8ByteSize, 1⟩ (s.region.allocateText text) fun place r start =>
      .text place (r.text ⟨start, text.utf8ByteSize⟩)
  | .free range offset =>
    s.withRange range fun e =>
      let op := s.region.free (e.start + offset)
      (outcome op.1 fun _ => .done, { s with region := op.2 })
  | .fill range byte =>
    s.withRange range fun e =>
      (.ok .done, { s with region := s.region.store e.start (Array.replicate e.size byte) })
  | .read range => s.withRange range fun e => (.ok (.bytes (s.region.contents e)), s)
  | .summary => (.ok (.region s.regionSummary), s)
  | .reset => (.ok .done, { s.forget with region := s.region.reset })
  | .addCleanup cleanup size handler => s.addCleanup cleanup size handler
  | .setHandler cleanup handler =>
    s.withCleanup cleanup fun c => (.ok .done, { s with region := s.region.setHandler c handler })
  | .disarm cleanup =>
    s.withCleanup cleanup fun c => (.ok .done, { s with region := s.region.disarm c })
  | .writePayload cleanup offset bytes =>
    s.withCleanup cleanup fun c =>
      let region := s.region.writePayload c offset bytes
      (.ok (.bytes (region.payload c)), { s with region })
  | .readPayload cleanup =>
    s.withCleanup cleanup fun c => (.ok (payloadAnswer s.region c), s)
  | .runNow cleanup =>
    s.withCleanup cleanup fun c =>
      let op := s.region.runNow c
      (.ok (.flag op.1), { s with region := op.2, cleanups := s.cleanups.erase cleanup })
  | .createTrie trie keys values depth => s.createTrie trie keys values depth
  | .insert trie key mask value =>
    s.withTrie trie fun t =>
      s.afterTrie trie t (t.trie.insert s.region (PrefixKey.ofNat key) mask.mask value)
  | .delete trie key mask =>
    s.withTrie trie fun t =>
      s.afterTrie trie t (t.trie.delete s.region (PrefixKey.ofNat key) mask.mask)
  | .get trie key mask =>
    s.withTrie trie fun t =>
      (.ok (.found t.values (t.trie.get (PrefixKey.ofNat key) mask.mask)), s)
  | .find trie key => s.withTrie trie fun t => (.ok (.found t.values (t.find key)), s)
  | .findMany trie keys =>
    s.withTrie trie fun t => (.ok (.foundMany t.values (keys.map t.find)), s)
  | .trieSummary trie =>
    s.withTrie trie fun t =>
      (.ok (.trie ⟨t.trie.isEmpty, t.trie.inspect, s.region.pool.blockCount⟩), s)
  | .dropTrie trie =>
    (.ok (.flag (s.tries.get? trie).isSome), { s with tries := s.tries.erase trie })

/-- What can be observed after a request that was about a trie, or about none, given how long the
journal was before it. -/
def respond (s : Session σ) (trie : Option Nat) (written : Nat)
    (outcome : Except Refusal Answer) : Response :=
  { outcome
    blocks := s.region.pool.blockCount
    large := s.region.pool.largeCount
    cleanups := s.region.pool.cleanupCount
    trie := (trie.bind s.tries.get?).map SessionTrie.counts
    effects := s.region.heap.effectsSince written }

/-- Carry a request out and say what can be observed. -/
def step (s : Session σ) (q : Request) : Response × Session σ :=
  let (outcome, after) := s.perform q
  (after.respond q.trie? s.region.heap.journal.length outcome, after)

/-- Carry requests out one after the other. -/
def run (s : Session σ) : List Request → List Response × Session σ
  | [] => ([], s)
  | q :: rest =>
    let (response, s) := s.step q
    let (responses, s) := s.run rest
    (response :: responses, s)

/-- Start a session on a heap. If no pool can be created there, the heap is what remains. -/
def create (c : PoolConfig) (h : Heap σ) : Except (Fault × Heap σ) (Session σ) :=
  match Pool.create c h with
  | (.ok pool, heap) => .ok { region := { pool, heap } }
  | (.error fault, heap) => .error (fault, heap)

/-- End the session: forget what is held and close the region. -/
def close (s : Session σ) : Heap σ :=
  s.forget.region.close

/-- Let the raw source change by itself between two requests. -/
def adjustSource (s : Session σ) (f : σ → σ) : Session σ :=
  let heap := { s.region.heap with source := f s.region.heap.source }
  { s with region := { s.region with heap } }

end Session

end RegionTrie
