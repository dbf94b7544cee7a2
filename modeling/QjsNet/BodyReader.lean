import QjsNet.Generator

/- Reading a whole body with `arrayBuffer()`, `text()` or `json()`.

   A reader puts the body's generator into continuous mode with the resolving
   function of a new promise, so that the promise is resolved with everything that is
   collected. What the script gets is that promise, or one made from it by `then`;
   a `Reaction` is the function given to `then`, and `none` an exception it throws.

   `BodyGenerator` is a generator nobody reads from, with its queue and its callback:
   the only kind of generator a body is collected in. Writes, the switch and the two
   endings compute on it, whatever the queue is.

   `JSON.parse` is a parameter: the value of a text, or `none`. -/
namespace QjsNet

inductive BodyReader where
  | arrayBuffer
  | text
  | json
  deriving DecidableEq, Repr

abbrev Reaction := JSValue → Option JSValue

/-- The promise of a capability, followed by the reactions of `then` calls. -/
structure ReaderPromise where
  capability : Nat
  reactions : List Reaction

/-- What becomes of it when the capability is settled: its value, or `none` for a rejection. -/
def ReaderPromise.outcome (r : ReaderPromise) : Settlement → Option JSValue
  | .resolved v => r.reactions.foldlM (fun v reaction => reaction v) v
  | .rejected _ => none

/-- `js_arraybuffer_tostring` -/
def jsArraybufferTostring : Reaction
  | .arrayBuffer data => some (.string data)
  | _ => none

/-- `JSON.parse` of a string; no reader gives it another value. -/
def jsonParse (parse : Bytes → Option JSValue) : Reaction
  | .string chars => parse chars
  | _ => none

/-- What the reader is to give for a body. -/
def BodyReader.expected (parse : Bytes → Option JSValue) (body : Bytes) :
    BodyReader → Option JSValue
  | .arrayBuffer => some (.arrayBuffer body)
  | .text => some (.string body)
  | .json => parse body

/-- The context once a reader has its promise. -/
def JSContext.withPromise (ctx : JSContext) : JSContext := { ctx with promises := ctx.promises + 1 }

/-- Between the contexts one promise was settled once, and it was the reader's, with this
outcome. -/
def GetsOnce (before after : JSContext) (r : ReaderPromise) (outcome : Option JSValue) : Prop :=
  ∃ s, after.settlements = before.settlements ++ [(r.capability, s)] ∧ r.outcome s = outcome

/-! ## Generators without reads -/

structure BodyGenerator where
  ctx : JSContext
  q : Option Queue
  callback : JSValue
  blockFn : BlockFn
  bytesWritten : Nat
  chunksWritten : Nat

def BodyGenerator.gen (b : BodyGenerator) : Generator :=
  { generatorNew b.ctx with
    q := b.q, resolveReject := ⟨b.callback, .undefined⟩, blockFn := b.blockFn,
    bytesWritten := b.bytesWritten, chunksWritten := b.chunksWritten }

def BodyGenerator.new (ctx : JSContext) : BodyGenerator :=
  ⟨ctx, none, .undefined, .toarraybuffer, 0, 0⟩

theorem generatorNew_eq (ctx : JSContext) : generatorNew ctx = (BodyGenerator.new ctx).gen := rfl

def BodyGenerator.queue (b : BodyGenerator) : Queue := b.q.getD queueNew

/-- `data` put into the queue. -/
def BodyGenerator.put (b : BodyGenerator) (data : Bytes) : BodyGenerator :=
  { b with q := some (queuePut b.queue (blockCopy data)).1,
           bytesWritten := b.bytesWritten + data.length, chunksWritten := b.chunksWritten + 1 }

/-- In continuous mode, for a callback when it is a function. -/
def BodyGenerator.switch (b : BodyGenerator) (callback : JSValue) : BodyGenerator :=
  { b with q := some ((queueContinuous b.queue).1.setContinuous true),
           callback := if callback.isFunction then callback else b.callback }

theorem write_body (b : BodyGenerator) (data : Bytes) :
    generatorWrite b.gen data .undefined = some ((b.put data).gen, data.length) := by
  have hdirect : b.gen.direct = false := by simp [Generator.direct, asynciteratorPending,
    BodyGenerator.gen, generatorNew, asynciteratorZero]
  have henq : enqueueBlock b.gen (blockCopy data) .undefined
      = some (b.gen.setQueue (queuePut b.queue (blockCopy data)).1, data.length) := by
    have hbuf : (createQueue b.gen).buffering = false := rfl
    have hqueue : (createQueue b.gen).queue = b.queue := rfl
    simp only [enqueueBlock, hbuf, hqueue, Bool.false_eq_true, if_false]
    -- Whether the queue takes the chunk or not, the same state and size are reported.
    cases (queuePut b.queue (blockCopy data)).2 <;> rfl
  simp only [generatorWrite, hdirect, Bool.false_eq_true, if_false, henq]
  rfl

theorem continuous_body (b : BodyGenerator) (callback : JSValue) :
    (generatorContinuous b.gen callback).1 = (b.switch callback).gen := by
  unfold generatorContinuous BodyGenerator.switch
  cases h : callback.isFunction <;> rfl

/-! ## One item that collects -/

/-- A continuous queue of one chunk. -/
def oneItem (blk : ByteBlock) : Queue := ⟨[⟨blk, none, false, none⟩], 1, true, rfl⟩

theorem queuePut_oneItem (blk : ByteBlock) (data : Bytes) :
    queuePut (oneItem blk) (blockCopy data) = (oneItem (some (blk.data ++ data)), some 0) := by
  obtain ⟨hitems, hcont, hn⟩ :=
    @queuePut_continuous_snoc (oneItem blk) [] ⟨blk, none, false, none⟩ rfl rfl rfl (blockCopy data)
  exact Prod.ext (Queue.ext_items hitems hcont) hn

theorem queueContinuous_oneItem (blk : ByteBlock) :
    (queueContinuous (oneItem blk)).1.setContinuous true = oneItem blk := by
  have hl : queueLastChunk ((oneItem blk).setContinuous true) = some 0 := by
    simp [queueLastChunk, oneItem, lastIdx?, QueueItem.isChunk]
  simp only [queueContinuous, hl]
  rfl

/-- The value a block is collected as. -/
def chunkValue (f : BlockFn) (blk : ByteBlock) : JSValue :=
  if blk.size ≠ 0 then f.apply blk.data else .undefined

theorem stop_oneItem (b : BodyGenerator) (blk : ByteBlock) (hq : b.q = some (oneItem blk))
    (arg : JSValue) :
    ∃ gen, generatorStop b.gen arg = some (gen, true) ∧
      gen.ctx = (if b.callback.isFunction then jsCall b.ctx b.callback [chunkValue b.blockFn blk]
        else b.ctx) ∧
      gen.iterator = ⟨[], false, true⟩ ∧ gen.executor = .undefined ∧ gen.callback = b.callback := by
  obtain ⟨ctx, q, callback, f, n, m⟩ := b
  obtain rfl : q = some (oneItem blk) := hq
  have hopen : OpenItems (oneItem blk).items := openItems_cons.2 ⟨rfl, openItems_nil⟩
  have hl : queueLastChunk ((oneItem blk).addTail doneItem) = some 0 := by
    simp [queueLastChunk, oneItem, lastIdx?, QueueItem.isChunk, doneItem]
  let gen := stopContinuous (BodyGenerator.mk ctx (some (oneItem blk)) callback f n m).gen
    ((oneItem blk).addTail doneItem)
  have hqueue : stopQueue (BodyGenerator.mk ctx (some (oneItem blk)) callback f n m).gen
      = some gen := by
    simp only [stopQueue, BodyGenerator.gen, queueClose_open hopen]
    rfl
  have hgen : ∃ q' ctx', gen = { (BodyGenerator.mk ctx (some (oneItem blk)) callback f n m).gen with
      q := q', ctx := ctx' } ∧
      ctx' = if callback.isFunction then jsCall ctx callback [chunkValue f blk] else ctx := by
    unfold gen stopContinuous
    rw [hl]
    exact ⟨_, _, rfl, rfl⟩
  obtain ⟨q', ctx', hgen, hctx⟩ := hgen
  have hclosed : (BodyGenerator.mk ctx (some (oneItem blk)) callback f n m).gen.iterator.closed
      = false := rfl
  refine ⟨gen.setClosing, ?_, ?_, ?_, ?_, ?_⟩
  · have hidle : stopIterator gen arg = (gen.setClosing, true) := by
      rw [hgen]
      rfl
    simp only [generatorStop, hclosed, Bool.false_eq_true, if_false, hqueue, Option.bind_eq_bind,
      Option.bind_some, hidle]
  all_goals
    rw [hgen]
    first | exact hctx | rfl

end QjsNet
