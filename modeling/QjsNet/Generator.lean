import QjsNet.AsyncIterator
import QjsNet.Queue

/- The generator (`generator.c`): an async iterator with a chunk queue behind it.

   A write goes to the read that waits when nothing is queued, and into the queue
   otherwise; a read takes the front of the queue. A buffering generator merges
   what is written and cuts it into pieces of `chunk_size`; a continuous one
   collects everything in one item and gives it to `callback` at the end.

   `callback` shares its storage with the `resolve` member of `resolve_reject`
   (a C union), so `Generator.callback` reads that member. `bytes_written` and the
   other counters do not wrap here. What the executor returns is kept by the C code
   but tested only for being a function, which a promise is not, so it is left out.

   `none` is a failed assertion, a null queue that is dereferenced, or a loop that
   never ends.

   Correspondence (C ↔ Lean):
     `create_queue`, `dequeue_value`, `enqueue_block`, `enqueue_value`
       ↔ `createQueue`, `dequeueValue`, `enqueueBlock`, `enqueueValue`
     `start_executor`, `generator_callback`, `generator_update`
       ↔ `startExecutor`, `generatorCallback`, `generatorUpdate`
     `generator_next`, `_write`, `_push`, `_throw`, `_yield`, `_enqueue`
       ↔ `generatorNext`, `generatorWrite`, `generatorPush`, `generatorThrow`, `generatorYield`,
         `generatorEnqueue`
     `generator_started`, `generator_stopped` ↔ `generatorStarted`, `generatorStopped`
     `generator_stop`, `_finish`, `_continuous`, `_buffering`
       ↔ `generatorStop`, `generatorFinish`, `generatorContinuous`, `generatorBuffering` -/
namespace QjsNet

structure Generator where
  iterator : AsyncIterator
  ctx : JSContext
  q : Option Queue
  executor : JSValue
  /-- What the last push returned; before, the field holds no object. -/
  promise : Option JSWrappedPromiseRecord
  resolveReject : ResolveFunctions
  bytesWritten : Nat
  bytesRead : Nat
  chunksWritten : Nat
  chunksRead : Nat
  chunkSize : Nat
  started : Bool
  buffering : Bool
  blockFn : BlockFn
  deriving DecidableEq, Repr

/-- The other view of the union. -/
def Generator.callback (gen : Generator) : JSValue := gen.resolveReject.resolve

def Generator.setCallback (gen : Generator) (callback : JSValue) : Generator :=
  { gen with resolveReject := { gen.resolveReject with resolve := callback } }

def generatorNew (ctx : JSContext) : Generator where
  iterator := asynciteratorZero
  ctx := ctx
  q := none
  executor := .undefined
  promise := none
  resolveReject := ⟨.undefined, .undefined⟩
  bytesWritten := 0
  bytesRead := 0
  chunksWritten := 0
  chunksRead := 0
  chunkSize := 0
  started := false
  buffering := false
  blockFn := .toarraybuffer

/-- The queue of a generator after `create_queue`. -/
def Generator.queue (gen : Generator) : Queue := gen.q.getD queueNew

def Generator.setQueue (gen : Generator) (q : Queue) : Generator := { gen with q := some q }

/-- `gen->closing = TRUE;` -/
def Generator.setClosing (gen : Generator) : Generator :=
  { gen with iterator := { gen.iterator with closing := true } }

def createQueue (gen : Generator) : Generator := gen.setQueue gen.queue

/-- `gen->bytes_written += n; gen->chunks_written += 1;` -/
def Generator.addWritten (gen : Generator) (n : Nat) : Generator :=
  { gen with bytesWritten := gen.bytesWritten + n, chunksWritten := gen.chunksWritten + 1 }

/-- `gen->bytes_read += n; gen->chunks_read += 1;` -/
def Generator.addRead (gen : Generator) (n : Nat) : Generator :=
  { gen with bytesRead := gen.bytesRead + n, chunksRead := gen.chunksRead + 1 }

/-- `dequeue_value`, from the queue `q`: the value and whether it ends the stream. The
conversion takes the memory out of a block with data, so only an allocated empty block is
counted as read. -/
def dequeueValue (gen : Generator) (q : Queue) : Generator × JSValue × Bool :=
  let (q, ctx, blk, done, _) := queueNext q gen.ctx
  let ret := if blk.size ≠ 0 then gen.blockFn.apply blk.data else .undefined
  let gen := { gen with q := some q, ctx }
  (if blk = some [] then gen.addRead 0 else gen, ret, done)

/-- The loop of `enqueue_block` that cuts what is left of `blk` after `pos`. Without fuel it
has not come to an end. -/
def rechunk (blk : ByteBlock) (chunkSize : Nat) : Nat → Nat → Queue → Option Queue
  | 0, _, _ => none
  | fuel + 1, pos, q =>
    if pos < blk.size then
      let stop := min blk.size (pos + chunkSize)
      rechunk blk chunkSize fuel stop (queueAdd q (blockSlice blk pos stop)).1
    else some q

/-- What `enqueue_block` does with the item it has put into the queue of a buffering
generator. Each turn of the loop takes at least one byte unless `chunk_size` is 0. -/
def splitItem (q : Queue) (n : Nat) (blk : ByteBlock) (chunkSize : Nat) : Option Queue :=
  if blk.size > chunkSize then
    rechunk blk chunkSize (blk.size + 1) chunkSize
      (q.modify n fun i => { i with block := blockSlice blk 0 chunkSize })
  else some q

def enqueueBlock (gen : Generator) (blk : ByteBlock) (callback : JSValue) :
    Option (Generator × Nat) :=
  let gen := createQueue gen
  if gen.buffering then
    -- `q->continuous` is set for this one `queue_put`, so that it merges
    let (q, item) := queuePut (gen.queue.setContinuous true) blk
    let q := q.setContinuous false
    match item with
    | none => some (gen.setQueue q, blk.size)
    | some n => do
      -- what is cut is the merged block, and its size is what is reported
      let blk : ByteBlock := (q.items[n]?).elim none (·.block)
      let q ← splitItem q n blk gen.chunkSize
      some (gen.setQueue q, blk.size)
  else
    let (q, item) := queuePut gen.queue blk
    match item with
    | none => some (gen.setQueue q, blk.size)
    | some n =>
      let q := if callback.isFunction then q.modify n fun i => { i with unref := some callback }
               else q
      some (gen.setQueue q, blk.size)

def enqueueValue (gen : Generator) (value callback : JSValue) : Option (Generator × Nat) :=
  enqueueBlock gen (blockCopy (jsInputChars value)) callback

def startExecutor (gen : Generator) : Generator × Bool :=
  if gen.executor.isFunction then
    ({ gen with executor := .undefined, ctx := jsCall gen.ctx gen.executor [] }, true)
  else (gen, false)

def generatorCallback (gen : Generator) (argument : JSValue) : Generator :=
  if gen.callback.isFunction then
    { gen.setCallback .null with ctx := jsCall gen.ctx gen.callback [argument] }
  else gen

/-- Give the front of the queue `q` to the oldest read; whether it ends the stream. -/
def deliverFront (gen : Generator) (q : Queue) : Generator × Bool :=
  let (gen, chunk, done) := dequeueValue gen q
  let (it, ctx, _) := asynciteratorEmplace gen.iterator chunk done gen.ctx
  ({ gen with iterator := it, ctx }, done)

/-- The loop of `generator_update`, with the number of its turns. -/
def updateLoop : Nat → Generator → Generator × Nat
  | 0, gen => (gen, 0)
  | fuel + 1, gen =>
    match gen.q, gen.queue.items with
    | some q, front :: _ =>
      if gen.iterator.reads.isEmpty then (gen, 0)
      else if !gen.iterator.closing && gen.buffering && decide (front.block.size < gen.chunkSize) then
        (gen, 0)
      else
        -- `closing` lets a short piece through, since nothing will be merged into it
        let (gen, done) := deliverFront gen q
        let gen := if done then { gen with iterator := { gen.iterator with closed := true } } else gen
        let (gen, i) := updateLoop fuel gen
        (gen, i + 1)
    | _, _ => (gen, 0)

/-- Every turn settles a read, so there are no more turns than reads. -/
def generatorUpdate (gen : Generator) : Generator × Nat :=
  updateLoop gen.iterator.reads.length gen

/-- `generator_next` up to the call of the executor or the callback. -/
def generatorNextBegin (gen : Generator) (arg : JSValue) : Option (Generator × JSValue) := do
  let (it, ctx, ret) ← asynciteratorNext gen.iterator arg gen.ctx
  let gen := { gen with iterator := it, ctx }
  let (gen, executed) := startExecutor gen
  if !executed && !gen.started then
    some ({ generatorCallback gen arg with started := true }, ret)
  else some (gen, ret)

/-- The rest of `generator_next`. -/
def generatorNextEnd (gen : Generator) : Generator :=
  let (gen, n) := if gen.q.isSome then generatorUpdate gen else (gen, 0)
  if n = 0 && (gen.iterator.closing || gen.iterator.closed) then
    let (it, ctx, stopped) := asynciteratorStop gen.iterator .undefined gen.ctx
    -- every read that still waits is answered by the stop
    let it := if stopped then { it with closing := false, closed := true } else it
    { gen with iterator := it, ctx }
  else gen

def generatorNext (gen : Generator) (arg : JSValue) : Option (Generator × JSValue) := do
  let (gen, ret) ← generatorNextBegin gen arg
  some (generatorNextEnd gen, ret)

/-- The loop of `generator_write` after a chunk was queued. -/
def writeLoop : Nat → Generator → Generator
  | 0, gen => gen
  | fuel + 1, gen =>
    match gen.q, gen.queue.items with
    | some q, front :: _ =>
      if asynciteratorPending gen.iterator && decide (gen.chunkSize ≤ front.block.size) then
        writeLoop fuel (deliverFront gen q).1
      else gen
    | _, _ => gen

/-- A chunk may go straight to a read. -/
def Generator.direct (gen : Generator) : Bool :=
  !gen.buffering && !gen.queue.continuous && gen.queue.size = 0 && asynciteratorPending gen.iterator

/-- `asynciterator_yield(&gen->iterator, value, gen->ctx)` -/
def iteratorYield (gen : Generator) (value : JSValue) : Generator × Bool :=
  let (it, ctx, yielded) := asynciteratorYield gen.iterator value gen.ctx
  ({ gen with iterator := it, ctx }, yielded)

/-- `generator_write`, with the number of bytes it reports. -/
def generatorWrite (gen : Generator) (data : Bytes) (callback : JSValue) :
    Option (Generator × Nat) := do
  let (gen, ret) ←
    if gen.direct then
      -- the conversion has taken the memory, so no bytes are counted as read
      some ((iteratorYield gen (gen.blockFn.apply data)).1.addRead 0, data.length)
    else do
      let (gen, ret) ← enqueueBlock gen (blockCopy data) callback
      some (writeLoop gen.iterator.reads.length gen, ret)
  some (gen.addWritten ret, ret)

/-- `generator_yield`: a read that waits gets the value itself, whatever is queued. -/
def generatorYield (gen : Generator) (value callback : JSValue) : Option (Generator × Bool) := do
  let (gen, yielded) := iteratorYield gen value
  let (gen, ret) ←
    if yielded then
      let n := (jsInputChars value).length
      some (gen.addRead n, n)
    else enqueueValue gen value callback
  some (gen.addWritten ret, true)

/-- The part of `generator_stop` that hands a continuous queue to its callbacks. -/
def stopContinuous (gen : Generator) (q : Queue) : Generator :=
  match queueLastChunk q with
  | none => gen.setQueue q
  | some n =>
    match q.items[n]? with
    | none => gen.setQueue q
    | some item =>
      let chunk := if item.block.size ≠ 0 then gen.blockFn.apply item.block.data else .undefined
      -- the conversion took the memory, and the item stays in the queue without it
      let q := if item.block.size ≠ 0 then q.modify n fun i => { i with block := none } else q
      -- an undefined argument starts with a null word and ends the argument list
      let args := if chunk = .undefined then [] else [chunk]
      let ctx := item.unref.elim gen.ctx fun fn => jsCall gen.ctx fn args
      let ctx := if gen.callback.isFunction then jsCall ctx gen.callback [chunk] else ctx
      { gen.setQueue q with ctx }

/-- The part of `generator_stop` that closes the queue, if there is one. -/
def stopQueue (gen : Generator) : Option Generator :=
  match gen.q with
  | none => some gen
  | some q => do
    let (q, _) ← queueClose q
    some (if q.continuous then stopContinuous gen q else gen.setQueue q)

/-- The part of `generator_stop` that ends the iterator. -/
def stopIterator (gen : Generator) (arg : JSValue) : Generator × Bool :=
  if asynciteratorPending gen.iterator then
    let (it, ctx, ret) := asynciteratorStop gen.iterator arg gen.ctx
    ({ gen with iterator := it, ctx }, ret)
  -- the argument is dropped: no read is there to carry it
  else (gen.setClosing, true)

def generatorStop (gen : Generator) (arg : JSValue) : Option (Generator × Bool) :=
  if gen.iterator.closed then some (gen, false)
  else do
    let gen ← stopQueue gen
    some (stopIterator gen arg)

/-- `js_async_reject(gen->ctx, &gen->resolve_reject, error)` -/
def Generator.rejectPush (gen : Generator) (error : JSValue) : Generator :=
  let (ctx, resolveReject, _) := jsAsyncReject gen.ctx gen.resolveReject error
  { gen with ctx, resolveReject }

/-- `generator_push`: the functions of the new promise overwrite those of the last one. -/
def generatorPush (gen : Generator) (value : JSValue) : Option (Generator × JSValue) := do
  let p := gen.ctx.promises
  let (ctx, resolveReject, ret) := jsAsyncCreate gen.ctx
  let (gen, yielded) ← generatorYield { gen with ctx, resolveReject } value .undefined
  let gen := if yielded then gen else gen.rejectPush .undefined
  some ({ gen with promise := some (jsPromiseWrap p) }, ret)

def generatorStarted (gen : Generator) : Bool := !gen.executor.isFunction

def generatorStopped (gen : Generator) : Bool := gen.iterator.closing || gen.iterator.closed

/-- The test in `generator_throw`. -/
def Generator.unhandled (gen : Generator) : Bool :=
  !generatorStarted gen || generatorStopped gen || (gen.q.isSome && !queueEmpty gen.queue) ||
    gen.promise.elim false fun wpr => !(wpr.thened || wpr.catched)

def generatorThrow (gen : Generator) (error : JSValue) : Option (Generator × JSValue) :=
  if gen.unhandled then do
    let (ctx, funcs, ret) := jsAsyncCreate gen.ctx
    let (ctx, _, _) := jsAsyncReject ctx funcs error
    let (gen, _) ← generatorStop { gen with ctx } .undefined
    some (gen, ret)
  else generatorNext (gen.rejectPush error) .undefined

def generatorContinuous (gen : Generator) (callback : JSValue) : Generator × Bool :=
  let gen := createQueue gen
  let (q, _) := queueContinuous gen.queue
  let gen := if callback.isFunction then gen.setCallback callback else gen
  (gen.setQueue (q.setContinuous true), true)

def generatorFinish (gen : Generator) : Option (Generator × Bool) :=
  let gen := gen.setClosing
  match gen.q with
  | none => none
  | some q =>
    -- only the front item goes to the callback, and the queue stays open
    if q.continuous && !gen.callback.isNullish then
      let (gen, ret, _) := dequeueValue gen q
      some ({ gen with ctx := jsCall gen.ctx gen.callback [ret] }, true)
    else do
      let (gen, _) := generatorUpdate gen
      let (q, _) ← queueClose gen.queue
      some (gen.setQueue q, false)

def generatorEnqueue (gen : Generator) (value : JSValue) : Option (Generator × Nat) :=
  enqueueValue (createQueue gen) value .undefined

/-- `generator_buffering`; the field is a `uint32_t`. -/
def generatorBuffering (gen : Generator) (chunkSize : Nat) : Generator × Bool :=
  ({ createQueue gen with chunkSize := chunkSize % 2 ^ 32, buffering := true }, true)

theorem dequeueValue_fst (gen : Generator) (q : Queue) : ∃ n, (dequeueValue gen q).1 =
    { gen with q := some (queueNext q gen.ctx).1, ctx := (queueNext q gen.ctx).2.1, chunksRead := n } := by
  rcases h : queueNext q gen.ctx with ⟨q', ctx, blk, done, binary⟩
  simp only [dequeueValue, h]
  split
  · exact ⟨_, rfl⟩
  · exact ⟨_, rfl⟩

/-- What the cutting loop comes to: `P` holds when nothing is left behind `pos`, and of a piece in
front of the rest when it holds of the rest. -/
theorem rechunk_induct {blk : ByteBlock} {chunkSize : Nat} {P : Nat → Queue → Queue → Prop}
    (hend : ∀ pos q, blk.size ≤ pos → P pos q q)
    (hpiece : ∀ pos q q', pos < blk.size →
      P (min blk.size (pos + chunkSize))
        (queueAdd q (blockSlice blk pos (min blk.size (pos + chunkSize)))).1 q' → P pos q q') :
    ∀ (fuel pos : Nat) {q q' : Queue}, rechunk blk chunkSize fuel pos q = some q' → P pos q q' := by
  intro fuel
  induction fuel with
  | zero =>
    intro _ _ _ h
    cases h
  | succ fuel ih =>
    intro pos q q' h
    unfold rechunk at h
    split at h
    · next hlt => exact hpiece pos q q' hlt (ih _ h)
    · next hge =>
      obtain rfl := Option.some.inj h
      exact hend pos q (Nat.le_of_not_lt hge)

theorem iteratorYield_nil {gen : Generator} {v : JSValue} (hreads : gen.iterator.reads = []) :
    iteratorYield gen v = (gen, false) := by
  simp [iteratorYield, yield_nil hreads]

theorem iteratorYield_cons {gen : Generator} {v : JSValue} {rd : AsyncRead} {reads : List AsyncRead}
    (hreads : gen.iterator.reads = rd :: reads) :
    iteratorYield gen v = ({ gen with
      iterator := { gen.iterator with reads }
      ctx := jsCall gen.ctx (.resolve rd.capability) [.iteratorResult v false] }, true) := by
  simp only [iteratorYield, yield_cons hreads]

/-- `asynciterator_stop(&gen->iterator, value, gen->ctx)` -/
def iteratorStop (gen : Generator) (value : JSValue) : Generator :=
  { gen with
    iterator := (asynciteratorStop gen.iterator value gen.ctx).1
    ctx := (asynciteratorStop gen.iterator value gen.ctx).2.1 }

theorem iteratorStop_nil {gen : Generator} {v : JSValue} (hreads : gen.iterator.reads = []) :
    iteratorStop gen v = gen.setClosing := by
  simp only [iteratorStop, stop_idle hreads, Generator.setClosing]

theorem iteratorStop_cons {gen : Generator} {v : JSValue} {rd : AsyncRead} {reads : List AsyncRead}
    (hreads : gen.iterator.reads = rd :: reads) :
    iteratorStop gen v = { gen with
      iterator := ⟨[], true, false⟩
      ctx := (rejectReads .null reads
        (jsCall gen.ctx (.resolve rd.capability) [.iteratorResult v true])).1 } := by
  simp only [iteratorStop, stop_cons hreads]

theorem iteratorStop_reads (gen : Generator) (v : JSValue) :
    (iteratorStop gen v).iterator.reads = [] := by
  cases hreads : gen.iterator.reads with
  | nil =>
    rw [iteratorStop_nil hreads]
    exact hreads
  | cons rd reads => rw [iteratorStop_cons hreads]

/-- Setting `closing` is what a stop of an iterator without reads does. -/
theorem stopIterator_eq (gen : Generator) (v : JSValue) :
    stopIterator gen v = (iteratorStop gen v, true) := by
  unfold stopIterator
  cases hreads : gen.iterator.reads with
  | nil =>
    rw [pending_eq_false.2 hreads, iteratorStop_nil hreads]
    rfl
  | cons rd reads =>
    rw [pending_eq_true.2 (by simp [hreads]), if_pos rfl, stop_cons hreads, iteratorStop_cons hreads]

/-- The flags that `generator_next` sets are those the stop has set. -/
theorem generatorNextEnd_eq {gen gen₁ : Generator} {n : Nat}
    (h : (if gen.q.isSome then generatorUpdate gen else (gen, 0)) = (gen₁, n)) :
    generatorNextEnd gen = if n = 0 && (gen₁.iterator.closing || gen₁.iterator.closed)
      then iteratorStop gen₁ .undefined else gen₁ := by
  unfold generatorNextEnd
  rw [h]
  simp only
  split
  · cases hreads : gen₁.iterator.reads with
    | nil =>
      rw [iteratorStop_nil hreads, stop_idle hreads]
      rfl
    | cons rd reads =>
      rw [iteratorStop_cons hreads, stop_cons hreads]
      rfl
  · rfl

/-! ## The queue and the iterator of a changed generator -/

@[simp] theorem setQueue_queue (gen : Generator) (q : Queue) : (gen.setQueue q).queue = q := rfl

@[simp] theorem setQueue_q (gen : Generator) (q : Queue) : (gen.setQueue q).q = some q := rfl

@[simp] theorem setQueue_iterator (gen : Generator) (q : Queue) :
    (gen.setQueue q).iterator = gen.iterator := rfl

@[simp] theorem setQueue_ctx (gen : Generator) (q : Queue) : (gen.setQueue q).ctx = gen.ctx := rfl

@[simp] theorem setQueue_callback (gen : Generator) (q : Queue) :
    (gen.setQueue q).callback = gen.callback := rfl

@[simp] theorem setQueue_executor (gen : Generator) (q : Queue) :
    (gen.setQueue q).executor = gen.executor := rfl

@[simp] theorem setClosing_queue (gen : Generator) : gen.setClosing.queue = gen.queue := rfl

@[simp] theorem setClosing_q (gen : Generator) : gen.setClosing.q = gen.q := rfl

@[simp] theorem setClosing_reads (gen : Generator) :
    gen.setClosing.iterator.reads = gen.iterator.reads := rfl

@[simp] theorem setClosing_closing (gen : Generator) : gen.setClosing.iterator.closing = true := rfl

@[simp] theorem setClosing_ctx (gen : Generator) : gen.setClosing.ctx = gen.ctx := rfl

@[simp] theorem setClosing_callback (gen : Generator) : gen.setClosing.callback = gen.callback := rfl

end QjsNet
