import Mathlib.Data.List.TakeWhile
import QjsNet.Generator
import QjsNet.Lib.Ledger
import QjsNet.Lib.Pieces

/- What the operations of a generator do to the data, as long as it has not ended.

   The ledger of a generator (`Generator.ledger`) has the bytes it accepted, those
   its reads were given and those it holds. Both delivery loops hand the front of the
   queue to the oldest read some number of times (`Delivers`), which on the ledger
   passes bytes on; putting a block into the queue, merged or cut or as it is,
   accepts its bytes (`enqueueBlock_open`). A yield to a waiting read is the one
   operation that lets bytes past the queue. -/
namespace QjsNet

/-- The bytes a read was given. -/
def Settlement.bytes : Settlement → Bytes
  | .resolved (.iteratorResult value false) => jsInputChars value
  | _ => []

/-- The bytes of the settlements, in order. -/
def settledBytes (s : List (Nat × Settlement)) : Bytes := s.flatMap (·.2.bytes)

@[simp] theorem settledBytes_nil : settledBytes [] = [] := rfl

@[simp] theorem settledBytes_append (s t : List (Nat × Settlement)) :
    settledBytes (s ++ t) = settledBytes s ++ settledBytes t := List.flatMap_append ..

@[simp] theorem settledBytes_cons (e : Nat × Settlement) (s : List (Nat × Settlement)) :
    settledBytes (e :: s) = e.2.bytes ++ settledBytes s := List.flatMap_cons ..

/-- The value the item is delivered as. -/
def Generator.chunkOf (gen : Generator) (i : QueueItem) : JSValue :=
  if i.block.size ≠ 0 then gen.blockFn.apply i.block.data else .undefined

@[simp] theorem jsInputChars_chunkOf (gen : Generator) (i : QueueItem) :
    jsInputChars (gen.chunkOf i) = i.block.data := by
  unfold Generator.chunkOf
  split
  · exact jsInputChars_apply _ _
  · next h => exact (ByteBlock.size_eq_zero.1 (by simpa using h)).symm

def Generator.ledger (gen : Generator) (accepted : Bytes) : Fifo.Ledger UInt8 :=
  ⟨accepted, settledBytes gen.ctx.settlements, itemsBytes gen.queue.items⟩

/-- The callbacks of the items are functions of the script among `fns`. -/
def UserCallbacks (fns : Nat → Prop) (items : List QueueItem) : Prop :=
  ∀ i ∈ items, ∀ fn, i.unref = some fn → ∃ f, fns f ∧ fn = .function f

variable {fns : Nat → Prop}

theorem userCallbacks_nil : UserCallbacks fns [] := fun _ h => absurd h List.not_mem_nil

theorem userCallbacks_append {is js : List QueueItem} :
    UserCallbacks fns (is ++ js) ↔ UserCallbacks fns is ∧ UserCallbacks fns js := by
  simp only [UserCallbacks, List.mem_append]
  refine ⟨?_, ?_⟩
  · intro h
    exact ⟨fun i hi => h i (Or.inl hi), fun i hi => h i (Or.inr hi)⟩
  · intro hx i h'
    obtain ⟨h1, h2⟩ := hx
    rcases h' with hi | hi
    · exact h1 i hi
    · exact h2 i hi

theorem userCallbacks_singleton {i : QueueItem} :
    UserCallbacks fns [i] ↔ ∀ fn, i.unref = some fn → ∃ f, fns f ∧ fn = .function f := by
  simp only [UserCallbacks, List.mem_singleton, forall_eq]

theorem UserCallbacks.drop {items : List QueueItem} (h : UserCallbacks fns items) (k : Nat) :
    UserCallbacks fns (items.drop k) :=
  fun i hi => h i (List.mem_of_mem_drop hi)

theorem OpenItems.drop {items : List QueueItem} (h : OpenItems items) (k : Nat) :
    OpenItems (items.drop k) :=
  fun i hi => h i (List.mem_of_mem_drop hi)

/-- Such a callback settles no promise, and calls none of the other functions. -/
theorem callUnref_user {unref : Option JSValue}
    (h : ∀ fn, unref = some fn → ∃ f, fns f ∧ fn = .function f) (ctx : JSContext) :
    (callUnref ctx unref).settlements = ctx.settlements ∧
      (∀ c, ¬ fns c → (callUnref ctx unref).callsOf (.function c) = ctx.callsOf (.function c)) ∧
      (callUnref ctx unref).promises = ctx.promises := by
  cases unref with
  | none => exact ⟨rfl, fun _ _ => rfl, rfl⟩
  | some fn =>
    obtain ⟨f, hf, rfl⟩ := h fn rfl
    refine ⟨by simp [callUnref], ?_, rfl⟩
    intro c hc
    have hne : f ≠ c := by
      intro h'
      obtain rfl := h'
      exact hc hf
    simp [callUnref, callsOf_jsCall, hne]

/-! ## Delivery -/

/-- What the first reads and items give. -/
def deliveries (gen : Generator) (reads : List AsyncRead) (items : List QueueItem) :
    List (Nat × Settlement) :=
  List.zipWith (fun rd i => (rd.capability, .resolved (.iteratorResult (gen.chunkOf i) false)))
    reads items

/-- `gen'` is `gen` after the first `k` items went to the first `k` reads. -/
structure Delivers (fns : Nat → Prop) (gen gen' : Generator) (k : Nat) : Prop where
  frame : ∃ q ctx n m, gen' = { gen with
    iterator := { gen.iterator with reads := gen.iterator.reads.drop k }, q, ctx,
    bytesRead := n, chunksRead := m }
  reads : k ≤ gen.iterator.reads.length
  count : k ≤ gen.queue.items.length
  hasQueue : gen'.q.isSome = gen.q.isSome
  items : gen'.queue.items = gen.queue.items.drop k
  continuous : gen'.queue.continuous = gen.queue.continuous
  settlements : gen'.ctx.settlements = gen.ctx.settlements ++
    deliveries gen (gen.iterator.reads.take k) (gen.queue.items.take k)
  calls : ∀ c, ¬ fns c → gen'.ctx.callsOf (.function c) = gen.ctx.callsOf (.function c)
  promises : gen'.ctx.promises = gen.ctx.promises
  called : gen'.ctx.called = gen.ctx.called ++ (gen.queue.items.take k).flatMap QueueItem.calls
  bytesRead : gen'.bytesRead = gen.bytesRead

variable {gen gen' gen'' : Generator} {k : Nat}

theorem Delivers.zero (fns : Nat → Prop) (gen : Generator) : Delivers fns gen gen 0 where
  frame := ⟨gen.q, gen.ctx, gen.bytesRead, gen.chunksRead, rfl⟩
  reads := Nat.zero_le _
  count := Nat.zero_le _
  hasQueue := rfl
  items := rfl
  continuous := rfl
  settlements := (List.append_nil _).symm
  calls := fun _ _ => rfl
  promises := rfl
  called := (List.append_nil _).symm
  bytesRead := rfl

theorem Delivers.iterator (h : Delivers fns gen gen' k) :
    gen'.iterator = { gen.iterator with reads := gen.iterator.reads.drop k } := by
  obtain ⟨q, ctx, n, m, rfl⟩ := h.frame
  rfl

theorem Delivers.chunkOf (h : Delivers fns gen gen' k) (i : QueueItem) :
    gen'.chunkOf i = gen.chunkOf i := by
  obtain ⟨q, ctx, n, m, rfl⟩ := h.frame
  rfl

theorem Delivers.succ (h1 : Delivers fns gen gen' 1) (h2 : Delivers fns gen' gen'' k) :
    Delivers fns gen gen'' (k + 1) := by
  have hreads : gen'.iterator.reads = gen.iterator.reads.drop 1 := by rw [h1.iterator]
  have hr := h2.reads
  have hc := h2.count
  rw [hreads, List.length_drop] at hr
  rw [h1.items, List.length_drop] at hc
  have h1r := h1.reads
  have h1c := h1.count
  obtain ⟨i, is, hi⟩ : ∃ i is, gen.queue.items = i :: is := List.exists_cons_of_length_pos h1c
  refine ⟨?_, ?_, ?_, ?_, ?_, ?_, ?_, ?_, ?_, ?_, h2.bytesRead.trans h1.bytesRead⟩
  · obtain ⟨q', ctx', n', m', hgen'⟩ := h1.frame
    obtain ⟨q, ctx, n, m, hgen''⟩ := h2.frame
    refine ⟨q, ctx, n, m, ?_⟩
    rw [hgen'', hgen']
    simp only [List.drop_drop, Nat.add_comm 1 k]
  · omega
  · omega
  · rw [h2.hasQueue, h1.hasQueue]
  · rw [h2.items, h1.items, List.drop_drop, Nat.add_comm 1 k]
  · rw [h2.continuous, h1.continuous]
  · rw [h2.settlements, h1.settlements, List.append_assoc, hreads, h1.items]
    congr 1
    -- The first delivery is that of the heads, the others those of the tails.
    obtain ⟨rd, reads, hrd⟩ : ∃ rd reads, gen.iterator.reads = rd :: reads :=
      List.exists_cons_of_length_pos h1r
    simp [deliveries, hrd, hi, h1.chunkOf]
  · intro c hcf
    rw [h2.calls c hcf, h1.calls c hcf]
  · rw [h2.promises, h1.promises]
  · rw [h2.called, h1.called, h1.items, hi, List.append_assoc]
    simp

theorem settledBytes_deliveries (gen : Generator) : ∀ (reads : List AsyncRead)
    (items : List QueueItem), items.length ≤ reads.length →
    settledBytes (deliveries gen reads items) = itemsBytes items
  | _, [], _ => by simp [deliveries]
  | [], i :: is, h => by simp at h
  | rd :: reads, i :: is, h => by
    have ih := settledBytes_deliveries gen reads is (by simpa using h)
    unfold deliveries at ih ⊢
    rw [List.zipWith_cons_cons, settledBytes_cons, ih, itemsBytes_cons]
    simp [Settlement.bytes]

theorem deliveries_isYield (gen : Generator) (reads : List AsyncRead) (items : List QueueItem) :
    ∀ e ∈ deliveries gen reads items, e.2.isYield = true := by
  intro e he
  obtain ⟨n, hn, rfl⟩ := List.mem_iff_getElem.1 he
  simp [deliveries, Settlement.isYield]

/-- On the ledger a delivery passes on the bytes of the items. -/
theorem Delivers.ledger (h : Delivers fns gen gen' k) (accepted : Bytes) :
    gen'.ledger accepted
      = Fifo.pass (gen.ledger accepted) (itemsBytes (gen.queue.items.take k)).length := by
  have hsplit := itemsBytes_take_drop gen.queue.items k
  have hlen : (gen.queue.items.take k).length ≤ (gen.iterator.reads.take k).length := by
    have hreads := h.reads
    have hcount := h.count
    simp only [List.length_take]
    omega
  unfold Generator.ledger Fifo.pass
  rw [h.settlements, h.items, settledBytes_append, settledBytes_deliveries gen _ _ hlen,
    ← hsplit, List.take_left, List.drop_left]

theorem queue_of_q {q : Queue} (h : gen.q = some q) : gen.queue = q := by
  unfold Generator.queue
  rw [h]
  rfl

theorem deliverFront_open {q : Queue} {i : QueueItem} {is : List QueueItem} {rd : AsyncRead}
    {reads : List AsyncRead} (hq : gen.q = some q) (hitems : q.items = i :: is)
    (hreads : gen.iterator.reads = rd :: reads) (hopen : OpenItems q.items)
    (huser : UserCallbacks fns q.items) :
    Delivers fns gen (deliverFront gen q).1 1 ∧ (deliverFront gen q).2 = false := by
  have hi : i.done = false := hopen i (by simp [hitems])
  obtain ⟨hs, hc, hp⟩ := callUnref_user (fun fn h => huser i (by simp [hitems]) fn h) gen.ctx
  have hqueue := queue_of_q hq
  let ctx := jsCall (callUnref gen.ctx i.unref) (.resolve rd.capability)
    [.iteratorResult (gen.chunkOf i) false]
  obtain ⟨m, heq⟩ : ∃ m, deliverFront gen q = ({ gen with
      iterator := { gen.iterator with reads }, q := some q.delHead, ctx,
      chunksRead := m }, false) := by
    simp only [deliverFront, dequeueValue, queueNext_cons hitems hi]
    split
    · simp only [Generator.addRead, emplace_cons hreads]
      exact ⟨_, rfl⟩
    · simp only [emplace_cons hreads]
      exact ⟨_, rfl⟩
  rw [heq]
  refine ⟨?_, rfl⟩
  refine ⟨?_, ?_, ?_, ?_, ?_, ?_, ?_, ?_, ?_, ?_, rfl⟩
  · exact ⟨some q.delHead, ctx, gen.bytesRead, m, by rw [hreads]; rfl⟩
  · simp [hreads]
  · simp [hqueue, hitems]
  · simp [hq]
  · simp [Generator.queue, hq]
  · simp [Generator.queue, hq]
  · simp [ctx, hs, hreads, hqueue, hitems, deliveries]
  · intro c hcf
    simp [ctx, callsOf_jsCall, hc c hcf]
  · simp [ctx, hp]
  · simp [ctx, callUnref_called, hqueue, hitems]

theorem q_of_items {i : QueueItem} {is : List QueueItem} (h : gen.queue.items = i :: is) :
    ∃ q, gen.q = some q ∧ q.items = i :: is := by
  cases hq : gen.q with
  | none =>
    rw [Generator.queue, hq] at h
    cases h
  | some q => exact ⟨q, rfl, by rw [← queue_of_q hq, h]⟩

/-- `generator_update` may deliver the item: a buffering generator holds a short piece back, unless
it is closing. -/
def Generator.ready (gen : Generator) (i : QueueItem) : Bool :=
  gen.iterator.closing || !gen.buffering || decide (gen.chunkSize ≤ i.block.size)

theorem Delivers.ready (h : Delivers fns gen gen' k) : gen'.ready = gen.ready := by
  obtain ⟨q, ctx, n, m, rfl⟩ := h.frame
  rfl

/-- After a delivery of the front, the rest of the items that are ready may be delivered. -/
theorem min_takeWhile {α : Type} {p : α → Bool} {x : α} (hx : p x = true) (n : Nat)
    (xs : List α) :
    min n (xs.takeWhile p).length + 1 = min (n + 1) ((x :: xs).takeWhile p).length := by
  rw [List.takeWhile_cons, if_pos hx, List.length_cons]
  omega

/-- The loop of `generator_update` delivers, until the reads or the items that are ready are used
up. -/
theorem updateLoop_ready : ∀ (fuel : Nat) (gen : Generator), OpenItems gen.queue.items →
    UserCallbacks fns gen.queue.items → fuel = gen.iterator.reads.length →
    Delivers fns gen (updateLoop fuel gen).1
        (min gen.iterator.reads.length (gen.queue.items.takeWhile gen.ready).length) ∧
      (updateLoop fuel gen).2
        = min gen.iterator.reads.length (gen.queue.items.takeWhile gen.ready).length := by
  intro fuel
  induction fuel with
  | zero =>
    intro gen _ _ hfuel
    rw [← hfuel, Nat.zero_min]
    exact ⟨.zero fns gen, rfl⟩
  | succ fuel ih =>
    intro gen hopen huser hfuel
    obtain ⟨rd, reads, hreads⟩ : ∃ rd reads, gen.iterator.reads = rd :: reads :=
      List.exists_cons_of_length_pos (by omega)
    cases hitems : gen.queue.items with
    | nil =>
      have hend : updateLoop (fuel + 1) gen = (gen, 0) := by
        cases hq : gen.q <;> simp [updateLoop, hq, hitems]
      rw [hend, List.takeWhile_nil, List.length_nil, Nat.min_zero]
      exact ⟨.zero fns gen, rfl⟩
    | cons i is =>
      obtain ⟨q, hq, hqi⟩ := q_of_items hitems
      have hqopen : OpenItems q.items := queue_of_q hq ▸ hopen
      have hquser : UserCallbacks fns q.items := queue_of_q hq ▸ huser
      obtain ⟨h1, hdone⟩ := deliverFront_open hq hqi hreads hqopen hquser
      have hwait : (!gen.iterator.closing && gen.buffering
          && decide (i.block.size < gen.chunkSize)) = !gen.ready i := by
        unfold Generator.ready
        rw [Bool.not_or, Bool.not_or, Bool.not_not, ← decide_not]
        simp only [Nat.not_le]
      cases hready : gen.ready i with
      | false =>
        have hend : updateLoop (fuel + 1) gen = (gen, 0) := by
          simp only [updateLoop, hq, hitems, hreads, List.isEmpty_cons, Bool.false_eq_true,
            if_false, hwait, hready, Bool.not_false, if_true]
        rw [hend, List.takeWhile_cons, hready, if_neg Bool.false_ne_true, List.length_nil,
          Nat.min_zero]
        exact ⟨.zero fns gen, rfl⟩
      | true =>
        have hturn : updateLoop (fuel + 1) gen =
            ((updateLoop fuel (deliverFront gen q).1).1,
              (updateLoop fuel (deliverFront gen q).1).2 + 1) := by
          simp only [updateLoop, hq, hitems, hreads, List.isEmpty_cons, Bool.false_eq_true,
            if_false, hwait, hready, Bool.not_true, hdone]
        obtain ⟨h2, hk⟩ := ih (deliverFront gen q).1
          (h1.items ▸ hopen.drop 1) (h1.items ▸ huser.drop 1)
          (by rw [h1.iterator, List.length_drop]; omega)
        have hlen : (deliverFront gen q).1.iterator.reads.length = reads.length := by
          rw [h1.iterator, hreads]
          rfl
        rw [h1.ready, h1.items, hitems, hlen, List.drop_one, List.tail_cons] at h2 hk
        rw [hturn, hreads, List.length_cons, ← min_takeWhile hready]
        exact ⟨h1.succ h2, congrArg (· + 1) hk⟩

/-- Without bounds on the pieces it goes on until the reads or the items are used up. -/
theorem updateLoop_open (fuel : Nat) (gen : Generator) (hopen : OpenItems gen.queue.items)
    (huser : UserCallbacks fns gen.queue.items) (hfuel : fuel = gen.iterator.reads.length) :
    ∃ k, Delivers fns gen (updateLoop fuel gen).1 k ∧ (updateLoop fuel gen).2 = k ∧
      (gen.iterator.closing = true → k = min gen.iterator.reads.length gen.queue.items.length) := by
  obtain ⟨h, hk⟩ := updateLoop_ready fuel gen hopen huser hfuel
  refine ⟨_, h, hk, ?_⟩
  intro hclosing
  have hall : gen.queue.items.takeWhile gen.ready = gen.queue.items := by
    rw [List.takeWhile_eq_self_iff]
    intro i _
    simp [Generator.ready, hclosing]
  rw [hall]

/-- The loop of `generator_write` asks for the chunk size whether the generator is buffering or
not. -/
def Generator.full (gen : Generator) (i : QueueItem) : Bool := decide (gen.chunkSize ≤ i.block.size)

theorem Delivers.full (h : Delivers fns gen gen' k) : gen'.full = gen.full := by
  obtain ⟨q, ctx, n, m, rfl⟩ := h.frame
  rfl

/-- While the generator is not closing, both loops ask for the same. -/
theorem ready_eq_full (hclosing : gen.iterator.closing = false)
    (hsize : gen.buffering = false → gen.chunkSize = 0) : gen.ready = gen.full := by
  funext i
  unfold Generator.ready Generator.full
  rw [hclosing, Bool.false_or]
  cases hbuf : gen.buffering with
  | true => rfl
  | false => simp [hsize hbuf]

theorem writeLoop_full : ∀ (fuel : Nat) (gen : Generator), OpenItems gen.queue.items →
    UserCallbacks fns gen.queue.items → fuel = gen.iterator.reads.length →
    Delivers fns gen (writeLoop fuel gen)
      (min gen.iterator.reads.length (gen.queue.items.takeWhile gen.full).length) := by
  intro fuel
  induction fuel with
  | zero =>
    intro gen _ _ hfuel
    rw [← hfuel, Nat.zero_min]
    exact .zero fns gen
  | succ fuel ih =>
    intro gen hopen huser hfuel
    obtain ⟨rd, reads, hreads⟩ : ∃ rd reads, gen.iterator.reads = rd :: reads :=
      List.exists_cons_of_length_pos (by omega)
    have hpending : asynciteratorPending gen.iterator = true := by
      simp [asynciteratorPending, hreads]
    cases hitems : gen.queue.items with
    | nil =>
      have hend : writeLoop (fuel + 1) gen = gen := by
        cases hq : gen.q <;> simp [writeLoop, hq, hitems]
      rw [hend, List.takeWhile_nil, List.length_nil, Nat.min_zero]
      exact .zero fns gen
    | cons i is =>
      obtain ⟨q, hq, hqi⟩ := q_of_items hitems
      have hqopen : OpenItems q.items := queue_of_q hq ▸ hopen
      have hquser : UserCallbacks fns q.items := queue_of_q hq ▸ huser
      obtain ⟨h1, _⟩ := deliverFront_open hq hqi hreads hqopen hquser
      cases hfull : gen.full i with
      | false =>
        have hfull' : decide (gen.chunkSize ≤ i.block.size) = false := hfull
        have hend : writeLoop (fuel + 1) gen = gen := by
          simp only [writeLoop, hq, hitems, hpending, hfull', Bool.and_false, Bool.false_eq_true,
            if_false]
        rw [hend, List.takeWhile_cons, hfull, if_neg Bool.false_ne_true, List.length_nil, Nat.min_zero]
        exact .zero fns gen
      | true =>
        have hfull' : decide (gen.chunkSize ≤ i.block.size) = true := hfull
        have hturn : writeLoop (fuel + 1) gen = writeLoop fuel (deliverFront gen q).1 := by
          simp only [writeLoop, hq, hitems, hpending, hfull', Bool.and_true, if_true]
        have h2 := ih (deliverFront gen q).1
          (h1.items ▸ hopen.drop 1) (h1.items ▸ huser.drop 1)
          (by rw [h1.iterator, List.length_drop]; omega)
        have hlen : (deliverFront gen q).1.iterator.reads.length = reads.length := by
          rw [h1.iterator, hreads]
          rfl
        rw [h1.full, h1.items, hitems, hlen, List.drop_one, List.tail_cons] at h2
        rw [hturn, hreads, List.length_cons, ← min_takeWhile hfull]
        exact h1.succ h2

/-- A direct write is a value for the read that waits. -/
theorem direct_iff : gen.direct = true ↔ gen.buffering = false ∧ gen.queue.continuous = false ∧
    gen.queue.items = [] ∧ gen.iterator.reads ≠ [] := by
  unfold Generator.direct
  rw [gen.queue.size_eq]
  simp [asynciteratorPending, and_assoc]

/-! ## Putting a block into the queue -/

/-- The bytes of the items. -/
def itemsData (items : List QueueItem) : List Bytes := items.map (·.block.data)

theorem itemsBytes_eq_flatten (items : List QueueItem) :
    itemsBytes items = (itemsData items).flatten := List.flatMap_def ..

/-- The pieces of a block behind a position: open items without callbacks, which together are
the rest of the block and of which all but the last have the size that was asked for. With size 0
there is no end of it. -/
structure PiecesFrom (blk : ByteBlock) (chunkSize pos : Nat) (extra : List QueueItem) : Prop where
  opened : OpenItems extra
  unref : ∀ i ∈ extra, i.unref = none
  bytes : itemsBytes extra = blk.data.drop pos
  pieces : Cut.Pieces chunkSize (itemsData extra)
  rest : blk.size ≤ pos → extra = []
  size : pos < blk.size → 0 < chunkSize
  ne : ∀ d ∈ itemsData extra, d ≠ []

theorem piecesFrom_nil {blk : ByteBlock} {chunkSize pos : Nat} (h : blk.size ≤ pos) :
    PiecesFrom blk chunkSize pos [] :=
  ⟨openItems_nil, fun _ hi => absurd hi List.not_mem_nil, (List.drop_eq_nil_of_le h).symm,
    Cut.pieces_nil, fun _ => rfl, fun hlt => absurd h (Nat.not_le_of_lt hlt),
    fun _ hd => absurd hd List.not_mem_nil⟩

/-- The piece and what follows it are the block from `pos` on. -/
theorem PiecesFrom.cons {blk : ByteBlock} {chunkSize pos stop : Nat} {extra : List QueueItem}
    (h : PiecesFrom blk chunkSize stop extra) (hlt : pos < blk.size)
    (hstop : stop = min blk.size (pos + chunkSize)) :
    PiecesFrom blk chunkSize pos (⟨blockSlice blk pos stop, none, false, none⟩ :: extra) := by
  have hc : 0 < chunkSize := by
    by_contra hzero
    have hpos : stop = pos := by omega
    exact hzero (h.size (hpos ▸ hlt))
  have hsize : stop ≤ blk.data.length := hstop ▸ Nat.min_le_left _ _
  have hlen : (blockSlice blk pos stop).data.length = stop - pos := by
    rw [data_blockSlice, List.length_drop, List.length_take, Nat.min_eq_left hsize]
  refine ⟨openItems_cons.2 ⟨rfl, h.opened⟩, ?_, ?_, ?_, ?_, fun _ => hc, ?_⟩
  · intro i hi
    rcases List.mem_cons.1 hi with rfl | hi
    · rfl
    · exact h.unref i hi
  · have hpos : pos ≤ (blk.data.take stop).length := by
      rw [List.length_take, Nat.min_eq_left hsize]
      omega
    calc (blockSlice blk pos stop).data ++ itemsBytes extra
        = (blk.data.take stop).drop pos ++ blk.data.drop stop := by rw [data_blockSlice, h.bytes]
      _ = (blk.data.take stop ++ blk.data.drop stop).drop pos :=
        (List.drop_append_of_le_length hpos).symm
      _ = blk.data.drop pos := by rw [List.take_append_drop]
  · by_cases hlast : blk.size ≤ stop
    · rw [h.rest hlast]
      refine Cut.pieces_singleton ?_
      rw [hlen]
      omega
    · refine h.pieces.cons ?_
      rw [hlen]
      omega
  · intro hge
    omega
  · intro d hd
    rcases List.mem_cons.1 hd with rfl | hd
    · rw [← List.length_pos_iff, hlen]
      omega
    · exact h.ne d hd

theorem rechunk_open (blk : ByteBlock) (chunkSize fuel pos : Nat) {q q' : Queue}
    (hopen : queueComplete q = false) (h : rechunk blk chunkSize fuel pos q = some q') :
    ∃ extra, q'.items = q.items ++ extra ∧ q'.continuous = q.continuous ∧
      PiecesFrom blk chunkSize pos extra := by
  refine @rechunk_induct blk chunkSize (fun pos q q' => queueComplete q = false →
    ∃ extra, q'.items = q.items ++ extra ∧ q'.continuous = q.continuous ∧
      PiecesFrom blk chunkSize pos extra) ?_ ?_ fuel pos q q' h hopen
  · intro pos q hge _
    exact ⟨[], (List.append_nil _).symm, rfl, piecesFrom_nil hge⟩
  · intro pos q q' hlt hrest hopen
    let stop := min blk.size (pos + chunkSize)
    let piece : QueueItem := ⟨blockSlice blk pos stop, none, false, none⟩
    simp only [queueAdd_incomplete hopen] at hrest
    have hpiece : queueComplete (q.addTail piece) = false := queueComplete_snoc (addTail_items q piece)
    obtain ⟨extra, hitems, hcont, hpieces⟩ := hrest hpiece
    refine ⟨piece :: extra, ?_, hcont, hpieces.cons hlt rfl⟩
    rw [hitems, addTail_items, List.append_assoc, List.singleton_append]

/-- Cutting the last item keeps the bytes of the queue. -/
theorem splitItem_open {q q' : Queue} {init : List QueueItem} {last : QueueItem} {chunkSize : Nat}
    (hitems : q.items = init ++ [last]) (hdone : last.done = false)
    (h : splitItem q init.length last.block chunkSize = some q') :
    ∃ first extra, q'.items = init ++ [{ last with block := first }] ++ extra ∧ OpenItems extra ∧
      (∀ i ∈ extra, i.unref = none) ∧ first.data ++ itemsBytes extra = last.block.data ∧
      q'.continuous = q.continuous ∧ Cut.Pieces chunkSize (first.data :: itemsData extra) ∧
      (last.block.data = [] → extra = []) ∧
      (last.block.data ≠ [] → ∀ d ∈ first.data :: itemsData extra, d ≠ []) := by
  unfold splitItem at h
  split at h
  · next hsize =>
    let first := blockSlice last.block 0 chunkSize
    have hmod : (q.modify init.length fun i => { i with block := first }).items
        = init ++ [{ last with block := first }] := by
      rw [modify_items, hitems, modify_snoc]
    have hmopen : queueComplete (q.modify init.length fun i => { i with block := first }) = false :=
      (queueComplete_snoc hmod).trans hdone
    obtain ⟨extra, hq', hcont, hpieces⟩ := rechunk_open _ _ _ _ hmopen h
    have hlen : first.data.length = chunkSize := by
      rw [data_blockSlice, List.drop_zero, List.length_take]
      exact Nat.min_eq_left (Nat.le_of_lt hsize)
    refine ⟨first, extra, by rw [hq', hmod], hpieces.opened, hpieces.unref, ?_, hcont,
      hpieces.pieces.cons hlen, ?_, ?_⟩
    · calc first.data ++ itemsBytes extra
          = last.block.data.take chunkSize ++ last.block.data.drop chunkSize := by
            rw [hpieces.bytes, data_blockSlice, List.drop_zero]
        _ = last.block.data := List.take_append_drop ..
    · intro hnil
      rw [ByteBlock.size_eq_zero.2 hnil] at hsize
      exact absurd hsize (Nat.not_lt_zero _)
    · intro _ d hd
      rcases List.mem_cons.1 hd with rfl | hd
      · rw [← List.length_pos_iff, hlen]
        exact hpieces.size hsize
      · exact hpieces.ne d hd
  · next hsize =>
    obtain rfl := Option.some.inj h
    exact ⟨last.block, [], by rw [hitems, List.append_nil], openItems_nil,
      fun i hi => absurd hi List.not_mem_nil, List.append_nil _, rfl,
      Cut.pieces_singleton (Nat.le_of_not_lt hsize), fun _ => rfl,
      fun hne d hd => List.mem_singleton.1 hd ▸ hne⟩

/-- A cut comes to its end unless the pieces are empty. -/
theorem rechunk_total (blk : ByteBlock) {chunkSize : Nat} (hc : 0 < chunkSize) :
    ∀ (fuel pos : Nat) (q : Queue), 0 < fuel → blk.size < fuel + pos →
    ∃ q', rechunk blk chunkSize fuel pos q = some q' := by
  intro fuel
  induction fuel with
  | zero =>
    intro _ _ hfuel _
    cases hfuel
  | succ fuel ih =>
    intro pos q _ hsize
    unfold rechunk
    split
    · refine ih _ _ ?_ ?_
      · omega
      · omega
    · exact ⟨q, rfl⟩

theorem splitItem_total (q : Queue) (n : Nat) (blk : ByteBlock) {chunkSize : Nat}
    (hc : 0 < chunkSize) : ∃ q', splitItem q n blk chunkSize = some q' := by
  unfold splitItem
  split
  · exact rechunk_total blk hc _ _ _ (Nat.succ_pos _) (by omega)
  · exact ⟨q, rfl⟩

/-- The bytes of the last item, which a merge adds to. -/
def lastData (items : List QueueItem) : Bytes := (items.getLast?.map (·.block.data)).getD []

theorem itemsBytes_lastData (items : List QueueItem) :
    itemsBytes items.dropLast ++ lastData items = itemsBytes items := by
  unfold lastData
  rcases List.eq_nil_or_concat' items with rfl | ⟨init, last, rfl⟩
  · rfl
  · simp

/-- A buffering generator merges the block into the last item and cuts this. -/
theorem enqueueBlock_cut {blk : ByteBlock} {callback : JSValue} {ret : Nat}
    (hopen : OpenItems gen.queue.items) (hbuf : gen.buffering = true)
    (h : enqueueBlock gen blk callback = some (gen', ret)) :
    ∃ q first extra, gen' = gen.setQueue q ∧ q.continuous = false ∧
      q.items = gen.queue.items.dropLast ++ first :: extra ∧ OpenItems (first :: extra) ∧
      first.unref = gen.queue.items.getLast?.bind (·.unref) ∧ (∀ i ∈ extra, i.unref = none) ∧
      itemsBytes (first :: extra) = lastData gen.queue.items ++ blk.data ∧
      Cut.Pieces gen.chunkSize (itemsData (first :: extra)) ∧
      (lastData gen.queue.items ++ blk.data = [] → extra = []) ∧
      (lastData gen.queue.items ++ blk.data ≠ [] → ∀ d ∈ itemsData (first :: extra), d ≠ []) ∧
      ret = (lastData gen.queue.items ++ blk.data).length := by
  obtain ⟨last, hitems, hn, hdone, hdata, hunref⟩ :=
    @queuePut_merges (gen.queue.setContinuous true) hopen rfl blk
  have hitems' : ((queuePut (gen.queue.setContinuous true) blk).1.setContinuous false).items
      = gen.queue.items.dropLast ++ [last] := hitems
  have hlast : last.block.data = lastData gen.queue.items ++ blk.data := hdata
  have hqueue : (createQueue gen).queue = gen.queue := rfl
  have hbuf' : (createQueue gen).buffering = true := hbuf
  simp only [enqueueBlock, hqueue, hbuf', if_true, hn, setContinuous_items, hitems,
    List.getElem?_concat_length, Option.elim_some] at h
  obtain ⟨q, hsplit, heq⟩ := Option.bind_eq_some_iff.1 h
  obtain ⟨first, extra, hq, hextra, hextraUnref, hbytes, hcont, hpieces, hnil, hne⟩ :=
    splitItem_open hitems' hdone hsplit
  rw [hlast] at hbytes hnil hne
  simp only [Option.some.injEq, Prod.mk.injEq] at heq
  refine ⟨q, { last with block := first }, extra, heq.1.symm, hcont, ?_,
    openItems_cons.2 ⟨hdone, hextra⟩, hunref, hextraUnref, ?_, hpieces, hnil, hne, ?_⟩
  · rw [hq, List.append_assoc, List.singleton_append]
  · rw [itemsBytes_cons]
    exact hbytes
  · rw [← heq.2, ← hlast]
    rfl

/-- Any other generator puts it into an item of its own, or in continuous mode into the last one,
and hands the callback to this item. -/
theorem enqueueBlock_plain {blk : ByteBlock} {callback : JSValue} {ret : Nat}
    (hopen : OpenItems gen.queue.items) (hbuf : gen.buffering = false)
    (h : enqueueBlock gen blk callback = some (gen', ret)) :
    ∃ q item, gen' = gen.setQueue q ∧ q.continuous = gen.queue.continuous ∧
      q.items = (if gen.queue.continuous then gen.queue.items.dropLast else gen.queue.items)
        ++ [item] ∧
      item.done = false ∧
      item.block.data = (if gen.queue.continuous then lastData gen.queue.items else []) ++ blk.data ∧
      item.unref = (if callback.isFunction then some callback
        else if gen.queue.continuous then gen.queue.items.getLast?.bind (·.unref) else none) ∧
      ret = blk.size := by
  have hput : ∃ init last, (queuePut gen.queue blk).1.items = init ++ [last] ∧
      (queuePut gen.queue blk).2 = some init.length ∧
      (queuePut gen.queue blk).1.continuous = gen.queue.continuous ∧
      init = (if gen.queue.continuous then gen.queue.items.dropLast else gen.queue.items) ∧
      last.done = false ∧
      last.block.data = (if gen.queue.continuous then lastData gen.queue.items else []) ++ blk.data ∧
      last.unref = (if gen.queue.continuous then gen.queue.items.getLast?.bind (·.unref)
        else none) := by
    cases hc : gen.queue.continuous with
    | true =>
      obtain ⟨last, hitems, hn, hdone, hdata, hunref⟩ := queuePut_merges hopen hc blk
      exact ⟨_, last, hitems, hn, (queuePut_continuous _ _).trans hc, rfl, hdone, hdata, hunref⟩
    | false =>
      rw [queuePut_separate hopen hc]
      exact ⟨_, _, addTail_items .., rfl, hc, rfl, rfl, rfl, rfl⟩
  obtain ⟨init, last, hitems, hn, hcont, rfl, hdone, hdata, hunref⟩ := hput
  have hqueue : (createQueue gen).queue = gen.queue := rfl
  have hbuf' : (createQueue gen).buffering = false := hbuf
  simp only [enqueueBlock, hqueue, hbuf', Bool.false_eq_true, if_false, hn, Option.some.injEq,
    Prod.mk.injEq] at h
  obtain ⟨rfl, rfl⟩ := h
  cases hfn : callback.isFunction with
  | true =>
    refine ⟨_, { last with unref := some callback }, rfl, ?_, ?_, hdone, hdata, rfl, rfl⟩
    · exact hcont
    · simp only [if_true, modify_items, hitems, modify_snoc]
  | false => exact ⟨_, last, rfl, hcont, hitems, hdone, hdata, hunref, rfl⟩

/-- **Enqueueing accepts the bytes.** Merged, cut into pieces or as it is, a block goes into an
open queue whole, behind what is there. -/
theorem enqueueBlock_open {blk : ByteBlock} {callback : JSValue} {ret : Nat}
    (hopen : OpenItems gen.queue.items) (huser : UserCallbacks fns gen.queue.items)
    (hcb : callback.isFunction = true → ∃ f, fns f ∧ callback = .function f)
    (h : enqueueBlock gen blk callback = some (gen', ret)) :
    ∃ q, gen' = gen.setQueue q ∧ OpenItems q.items ∧ UserCallbacks fns q.items ∧
      itemsBytes q.items = itemsBytes gen.queue.items ++ blk.data ∧
      q.continuous = (if gen.buffering then false else gen.queue.continuous) := by
  have hinit : ∀ {is : List QueueItem}, is ⊆ gen.queue.items →
      OpenItems is ∧ UserCallbacks fns is :=
    fun hsub => ⟨fun i hi => hopen i (hsub hi), fun i hi => huser i (hsub hi)⟩
  -- The item that takes the bytes of the last one keeps its callback.
  have hold : ∀ fn, gen.queue.items.getLast?.bind (·.unref) = some fn →
      ∃ f, fns f ∧ fn = .function f := by
    intro fn hfn
    obtain ⟨i, hi, hfn⟩ := Option.bind_eq_some_iff.1 hfn
    exact huser i (List.mem_of_getLast? hi) fn hfn
  cases hbuf : gen.buffering with
  | true =>
    obtain ⟨q, first, extra, rfl, hcont, hitems, hnew, hfirst, hextra, hbytes, _⟩ :=
      enqueueBlock_cut hopen hbuf h
    obtain ⟨hio, hiu⟩ := hinit (List.dropLast_subset _)
    refine ⟨q, rfl, ?_, ?_, ?_, hcont⟩
    · rw [hitems]
      exact openItems_append.2 ⟨hio, hnew⟩
    · rw [hitems]
      refine userCallbacks_append.2 ⟨hiu, ?_⟩
      intro i hi fn hfn
      rcases List.mem_cons.1 hi with rfl | hi
      · exact hold fn (hfirst ▸ hfn)
      · rw [hextra i hi] at hfn
        cases hfn
    · rw [hitems, itemsBytes_append, hbytes, ← List.append_assoc, itemsBytes_lastData]
  | false =>
    obtain ⟨q, item, rfl, hcont, hitems, hdone, hdata, hunref, _⟩ :=
      enqueueBlock_plain hopen hbuf h
    obtain ⟨hio, hiu⟩ := hinit (show (if gen.queue.continuous then gen.queue.items.dropLast
      else gen.queue.items) ⊆ gen.queue.items by
        split
        · exact List.dropLast_subset _
        · exact List.Subset.refl _)
    refine ⟨q, rfl, ?_, ?_, ?_, hcont⟩
    · rw [hitems]
      exact openItems_append.2 ⟨hio, openItems_cons.2 ⟨hdone, openItems_nil⟩⟩
    · rw [hitems]
      refine userCallbacks_append.2 ⟨hiu, userCallbacks_singleton.2 ?_⟩
      intro fn hfn
      rw [hunref] at hfn
      split at hfn
      · next hfunction =>
        obtain rfl := Option.some.inj hfn
        exact hcb hfunction
      · split at hfn
        · exact hold fn hfn
        · cases hfn
    · rw [hitems, itemsBytes_append, itemsBytes_cons, itemsBytes_nil, List.append_nil, hdata]
      split
      · rw [← List.append_assoc, itemsBytes_lastData]
      · rfl

end QjsNet
