import RegionTrie.Proofs.Session.Custody
import RegionTrie.Proofs.Session.Ledger
import RegionTrie.Proofs.Trie.Tracked

/-!
# Buffers on loan

A session lends large buffers to its users: those that it hands out for requests that no block can
serve, those that hold large payloads of cleanups, and the slabs of tries. A loan ends when the
buffer is freed by its start, or when everything is forgotten. This module keeps the loans from
requests and what they answer with, without a look at the records of the pool, and compares the two.

## Main definitions

* `Session.lent`: the large buffers that a turn hands out
* `Session.retained`: those among given ones that a turn does not give back
* `Session.loans`: the buffers on loan after several turns

## Main results

* `Session.gains_perform`: what a request gains is what it lends
-/

namespace RegionTrie

/-! ## The bytes of copies -/

theorem ValueKind.length_encodeAll (kind : ValueKind) (values : List Nat) :
    (kind.encodeAll values).length = kind.layout.size * values.length := by
  unfold encodeAll
  simp [List.length_flatMap, length_encode, Nat.mul_comm]

theorem length_toList_loop (bytes : ByteArray) (i : Nat) (taken : List UInt8) :
    (ByteArray.toList.loop bytes i taken).length = (bytes.size - i) + taken.length := by
  fun_induction ByteArray.toList.loop bytes i taken with
  | case1 i taken hlt ih =>
    rw [ih, List.length_cons]
    omega
  | case2 i taken hge =>
    rw [List.length_reverse]
    omega

theorem length_utf8 (text : String) : text.toUTF8.toList.length = text.utf8ByteSize := by
  show (ByteArray.toList.loop text.toUTF8 0 []).length = _
  rw [length_toList_loop]
  exact String.size_toByteArray

/-! ## What is lent -/

/-- The layout for which the source is asked when a request is carried out that no block can
serve. -/
def Request.layout? (p : Pool) : Request → Option Layout
  | .allocate _ size | .allocatePacked _ size | .allocateZeroed _ size | .addCleanup _ size _ =>
    p.layoutOf? size
  | .allocateAligned _ size align => some ⟨size, align⟩
  | .allocateLayout _ l => p.layoutFor? l
  | .allocateValue _ kind _ => p.layoutFor? kind.layout
  | .allocateSlice _ kind values =>
    p.layoutFor? ⟨kind.layout.size * values.length, kind.layout.align⟩
  | .allocateText _ text => p.layoutFor? ⟨text.utf8ByteSize, 1⟩
  | _ => none

/-- The request asks for no memory and gives none back. -/
def Request.Idle : Request → Prop
  | .fill .. | .read _ | .summary | .setHandler .. | .disarm _ | .writePayload ..
  | .readPayload _ | .runNow _ | .get .. | .find .. | .findMany .. | .trieSummary _
  | .dropTrie _ => True
  | _ => False

/-- The buffer that an answer hands out where the source was asked for a layout. -/
def Answer.lent (l? : Option Layout) (outcome : Except Refusal Answer) : List Buffer :=
  match l?, outcome with
  | some l, .ok answer => answer.start?.toList.map (⟨·, l⟩)
  | _, _ => []

namespace Session

open Region

variable {σ : Type}

theorem gains_afterRange {s : Session σ} {keep : Option Nat} {size : Nat}
    {op : Except Fault Nat × Region σ} {f : Nat → Answer} {l? : Option Layout}
    (hgains : s.region.Gains op.2 (obtained l? op.1))
    (hf : ∀ start, (f start).start? = some start) :
    s.region.Gains (s.afterRange keep size op f).2.region
      (Answer.lent l? (s.afterRange keep size op f).1) := by
  rw [region_afterRange]
  rcases op with ⟨fault | start, r⟩
  · rw [obtained_error] at hgains
    cases l? <;> exact hgains
  · cases l? with
    | none => exact hgains
    | some l =>
      show s.region.Gains r ((f start).start?.toList.map (⟨·, l⟩))
      rw [hf start]
      exact hgains

/-- No buffer is handed out for no bytes. -/
theorem gains_afterLayout {s : Session σ} {keep : Option Nat} {l : Layout}
    {op : Except Fault Nat × Region σ} {f : Place → Region σ → Nat → Answer}
    (hgains : s.region.Gains op.2 (obtained (s.region.pool.layoutFor? l) op.1))
    (hf : ∀ r start, (f (.address start) r start).start? = some start) :
    s.region.Gains (s.afterLayout keep l op f).2.region
      (Answer.lent (s.region.pool.layoutFor? l) (s.afterLayout keep l op f).1) := by
  unfold afterLayout
  split
  · next hzero =>
    have hnone : s.region.pool.layoutFor? l = none := by
      rw [Pool.layoutFor?, if_pos (.inl hzero)]
    rw [hnone, obtained_none] at hgains
    rw [hnone, region_afterRange]
    exact hgains
  · exact gains_afterRange hgains fun start => hf op.2 start

variable [RawSource σ]

/-- The shape of the slabs that a request may take. -/
def slabShape? (s : Session σ) : Request → Option SlabShape
  | .createTrie _ _ values _ => some (.ofValue values.layout s.region.heap.pageSize)
  | .insert trie .. => (s.tries.get? trie).map (·.trie.nodes.shape)
  | _ => none

/-- The large buffers that are handed out when a request is carried out: what its answer gives
access to, the payload of a new cleanup, and the slabs of a trie, whether or not the request that
took them succeeds in the end. -/
def lentFor (s : Session σ) (q : Request) : List Buffer :=
  let op := s.perform q
  let l? := q.layout? s.region.pool
  let slabs := Journal.slabs (op.2.region.heap.effectsSince s.region.heap.journal.length)
  match q with
  | .addCleanup .. =>
    match op.1, op.2.region.pool.cleanups.head? with
    | .ok _, some record => obtained l? (.ok record.payload.start)
    | _, _ => []
  | .createTrie .. | .insert .. =>
    (s.slabShape? q).toList.flatMap fun shape => slabs.map (⟨·, shape.slabLayout⟩)
  | _ => Answer.lent l? op.1

/-- The large buffers that a turn hands out. -/
def lent (s : Session σ) : Turn σ → List Buffer
  | .ask q _ => s.lentFor q
  | _ => []

/-- Those among the given buffers that a turn does not give back. -/
def retained (s : Session σ) (loans : List Buffer) : Turn σ → List Buffer
  | .ask .reset _ => []
  | .ask (.free range offset) _ =>
    match s.ranges.get? range with
    | none => loans
    | some e => loans.filter (·.base ≠ e.start + offset)
  | .free address => loans.filter (·.base ≠ address)
  | _ => loans

/-- The large buffers that several turns hand out. -/
def lentDuring (s : Session σ) : List (Turn σ) → List Buffer
  | [] => []
  | turn :: rest => s.lent turn ++ (s.take turn).lentDuring rest

/-- The buffers on loan after several turns, when the given ones were before. -/
def loans (s : Session σ) (before : List Buffer) : List (Turn σ) → List Buffer
  | [] => before
  | turn :: rest => (s.take turn).loans (s.lent turn ++ s.retained before turn) rest

/-! ## Requests -/

variable {s : Session σ}

theorem gains_addCleanup (s : Session σ) (n size : Nat) (handler : Option Nat) :
    s.region.Gains (s.perform (.addCleanup n size handler)).2.region
      (s.lentFor (.addCleanup n size handler)) := by
  show s.region.Gains (s.addCleanup n size handler).2.region
    (match (s.addCleanup n size handler).1,
        (s.addCleanup n size handler).2.region.pool.cleanups.head? with
      | .ok _, some record => obtained (s.region.pool.layoutOf? size) (.ok record.payload.start)
      | _, _ => [])
  unfold addCleanup
  rcases s.region.gains_addCleanup size with
    ⟨fault, r, hop, hgains⟩ | ⟨c, record, r, hop, hnewest, hgains⟩
  · cases handler with
    | none =>
      simp only [hop]
      exact hgains
    | some id =>
      simp only [addCleanupWith, hop]
      exact hgains.congr (congrArg Pool.large (r.pool_discard (some id)))
  · cases handler with
    | none =>
      simp only [hop, hnewest]
      exact hgains
    | some id =>
      -- installing the handler moves no payload
      have hpool : (r.setHandler c id).pool =
          { r.pool with cleanups := CleanupRecord.setHandler r.pool.cleanups c (some id) } := by
        unfold setHandler arm
        rw [pool_discard]
      obtain ⟨newest, hhead, hpayload⟩ : ∃ newest,
          (r.setHandler c id).pool.cleanups.head? = some newest ∧
            newest.payload = record.payload := by
        refine ⟨if record.serial = c.serial then { record with handler := some id } else record,
          ?_, ?_⟩
        · rw [hpool, CleanupRecord.setHandler, List.head?_map, hnewest, Option.map_some]
        · split <;> rfl
      simp only [addCleanupWith, hop, hhead, hpayload]
      refine hgains.congr ?_
      rw [hpool]

/-- The slabs that a change of a trie obtains are the ones that the journal tells of since. -/
theorem gains_of_obtains {nodes nodes' : NodeStore} {r r' : Region σ} {taken : List Nat}
    (h : nodes.Obtains r nodes' r' taken) (hsteps : Steps r r') :
    r.Gains r' ((Journal.slabs (r'.heap.effectsSince r.heap.journal.length)).map
      (⟨·, nodes.shape.slabLayout⟩)) := by
  rw [h.slabs_since hsteps.suffix]
  exact List.Perm.trans h.gains ((List.reverse_perm _).append_right _)

theorem gains_createTrie (s : Session σ) (n : Nat) (keys : KeyKind) (values : ValueKind)
    (depth : DepthChoice) :
    s.region.Gains (s.perform (.createTrie n keys values depth)).2.region
      (s.lentFor (.createTrie n keys values depth)) := by
  show s.region.Gains (s.createTrie n keys values depth).2.region
    ([SlabShape.ofValue values.layout s.region.heap.pageSize].flatMap fun shape =>
      (Journal.slabs ((s.createTrie n keys values depth).2.region.heap.effectsSince
        s.region.heap.journal.length)).map (⟨·, shape.slabLayout⟩))
  rw [List.flatMap_singleton]
  have hsteps := s.steps_createTrie n keys values depth
  suffices hobtains : ∃ nodes taken,
      NodeStore.Obtains { shape := SlabShape.ofValue values.layout s.region.heap.pageSize } s.region
        nodes (s.createTrie n keys values depth).2.region taken by
    obtain ⟨nodes, taken, hobtains⟩ := hobtains
    exact gains_of_obtains hobtains hsteps
  unfold createTrie
  cases depth.resolve with
  | error fault => exact ⟨_, [], .refl _ s.region⟩
  | ok p =>
    obtain ⟨nodes, taken, hobtains, -⟩ :=
      Trie.obtains_create (K := keys.Carrier) (V := Nat) values.layout p s.region
    dsimp only
    rcases hop : Trie.create (K := keys.Carrier) (V := Nat) values.layout p s.region with
      ⟨fault | t, r⟩ <;> rw [hop] at hobtains <;> exact ⟨nodes, taken, hobtains⟩

theorem gains_insert (s : Session σ) (n key : Nat) (mask : MaskChoice) (value : Nat) :
    s.region.Gains (s.perform (.insert n key mask value)).2.region
      (s.lentFor (.insert n key mask value)) := by
  have hsteps := s.steps_perform (q := .insert n key mask value) trivial
  show s.region.Gains (s.perform (.insert n key mask value)).2.region
    (((s.tries.get? n).map (·.trie.nodes.shape)).toList.flatMap fun shape =>
      (Journal.slabs ((s.perform (.insert n key mask value)).2.region.heap.effectsSince
        s.region.heap.journal.length)).map (⟨·, shape.slabLayout⟩))
  simp only [perform, withTrie] at hsteps ⊢
  cases htrie : s.tries.get? n with
  | none => exact .refl s.region
  | some t =>
    rw [Option.map_some, Option.toList_some, List.flatMap_singleton]
    rw [htrie] at hsteps
    obtain ⟨taken, hobtains⟩ := t.trie.obtains_link s.region
      (PrefixKey.selected (PrefixKey.ofNat key : t.keys.Carrier) mask.mask) (some value)
    exact gains_of_obtains hobtains hsteps

/-- A request that is not about memory leaves the records of large buffers alone. -/
theorem large_perform (s : Session σ) {q : Request} (h : q.Idle) :
    (s.perform q).2.region.pool.large = s.region.pool.large := by
  let P : Session σ → Prop := fun s' => s'.region.pool.large = s.region.pool.large
  cases q with
  | summary | dropTrie => rfl
  | fill range | read range => exact withRange_induction (P := P) rfl range fun e => rfl
  | readPayload n => exact withCleanup_induction (P := P) rfl n fun c => rfl
  | get n | find n | findMany n | trieSummary n =>
    exact withTrie_induction (P := P) rfl n fun t => rfl
  | setHandler n | disarm n =>
    refine withCleanup_induction (P := P) rfl n fun c => ?_
    have hpool := congrArg Pool.large (s.region.pool_discard (s.region.handler? c))
    exact hpool
  | writePayload n offset bytes =>
    refine withCleanup_induction (P := P) rfl n fun c => ?_
    show (s.region.writePayload c offset bytes).pool.large = s.region.pool.large
    unfold writePayload
    cases s.region.cleanup? c <;> rfl
  | runNow n =>
    refine withCleanup_induction (P := P) rfl n fun c => ?_
    show (s.region.runNow c).2.pool.large = s.region.pool.large
    unfold runNow
    cases s.region.cleanup? c with
    | none => rfl
    | some record =>
      have hpool := congrArg Pool.large (s.region.pool_runHandler record)
      exact hpool
  | _ => exact h.elim

/-- **A request gains what it lends**, if it is not one that gives buffers back. -/
theorem gains_perform (s : Session σ) {q : Request} (hreset : q ≠ .reset)
    (hfree : ∀ range offset, q ≠ .free range offset) :
    s.region.Gains (s.perform q).2.region (s.lentFor q) := by
  cases q with
  | allocate keep size => exact gains_afterRange (s.region.gains_allocate size) fun _ => rfl
  | allocatePacked keep size =>
    exact gains_afterRange (s.region.gains_allocatePacked size) fun _ => rfl
  | allocateZeroed keep size =>
    exact gains_afterRange (s.region.gains_allocateZeroed size) fun _ => rfl
  | allocateAligned keep size align =>
    exact gains_afterRange (s.region.gains_allocateAligned size align) fun _ => rfl
  | allocateLayout keep l =>
    exact gains_afterLayout (s.region.gains_allocateLayout l) fun _ _ => rfl
  | allocateValue keep kind value =>
    have hcopy := s.region.gains_allocateCopy kind.layout.align (kind.encode value)
    rw [kind.length_encode] at hcopy
    exact gains_afterLayout hcopy fun _ _ => rfl
  | allocateSlice keep kind values =>
    have hcopy := s.region.gains_allocateCopy kind.layout.align (kind.encodeAll values)
    rw [kind.length_encodeAll] at hcopy
    exact gains_afterLayout hcopy fun _ _ => rfl
  | allocateText keep text =>
    have hcopy := s.region.gains_allocateCopy 1 text.toUTF8.toList
    rw [length_utf8] at hcopy
    exact gains_afterLayout hcopy fun _ _ => rfl
  | free range offset => exact absurd rfl (hfree range offset)
  | reset => exact absurd rfl hreset
  | addCleanup n size handler => exact gains_addCleanup s n size handler
  | createTrie n keys values depth => exact gains_createTrie s n keys values depth
  | insert n key mask value => exact gains_insert s n key mask value
  | delete n key mask =>
    simp only [perform, withTrie]
    cases s.tries.get? n with
    | none => exact .refl s.region
    | some t => exact (t.trie.obtains_unlink s.region _).gains
  | _ => exact gains_nothing (s.large_perform trivial)

end Session

end RegionTrie
