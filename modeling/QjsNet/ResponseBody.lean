import QjsNet.BodyReader
import QjsNet.Lib.PartialRun
import QjsNet.Utils

/- The body of a response on the client (`minnet-client-http.c`, `minnet-response.c`).

   Every chunk that arrives is written to the generator of the response, and at
   completion the generator is finished. A blocking fetch puts the generator into
   continuous mode before it starts, and its readers take the one item that has
   collected everything. Otherwise a reader makes the switch when it is called: the
   chunks that came before stay separate, later ones are merged into the last of
   them, and the finish gives the reader the first one.

   So in the blocking mode `text()` and `arrayBuffer()` always read the body. In the other
   mode it is read when the reader is called before the second chunk (or there is nothing
   after the first), there is a body, and the reader is not `json()`, whose promise is
   resolved with the text (`response_read_iff`). A blocking `json()` gives the block itself
   to the parser of QuickJS, which looks for a NUL behind the text: no block has one.

   Correspondence (C ↔ Lean):
     `response_generator`               ↔ `Response.body`, which is there
     `LWS_CALLBACK_RECEIVE_CLIENT_HTTP_READ` ↔ `receiveClientHttpRead`
     `LWS_CALLBACK_COMPLETED_CLIENT_HTTP` ↔ `completedClientHttp`
     `minnet_response_method`           ↔ `minnetResponseMethod`
     `JS_ParseJSON2`                    ↔ `JsonParser`, a parameter
     `block_tojson`                     ↔ `blockTojson` -/
namespace QjsNet

/-- `JS_ParseJSON2` with `JS_PARSE_JSON_EXT`: the value of a text, or `none`. It is for texts with
a NUL behind them, and what it makes of a text may depend on the memory there. -/
structure JsonParser where
  run : Bytes → Bytes → Option JSValue
  terminated : ∀ text behind, run text (0 :: behind) = run text [0]

/-- The value of a text. -/
def JsonParser.parse (parser : JsonParser) (text : Bytes) : Option JSValue := parser.run text [0]

/-- `behind` is the memory behind the block; there is no text at a null pointer. -/
def blockTojson (parser : JsonParser) (behind : Bytes) (blk : ByteBlock) :
    Option (Option JSValue) :=
  blk.map fun text => parser.run text behind

structure Response where
  sync : Bool
  body : Generator

/-- The response of a fetch; `f` is `block_tostring` when it is announced as text. -/
def fetchResponse (ctx : JSContext) (f : BlockFn) (sync : Bool) : Response :=
  let gen := { generatorNew ctx with blockFn := f }
  ⟨sync, if sync then (generatorContinuous gen .null).1 else gen⟩

def receiveClientHttpRead (resp : Response) (chunk : Bytes) : Option Response := do
  let (body, _) ← generatorWrite resp.body chunk .undefined
  some { resp with body }

def completedClientHttp (resp : Response) : Option Response := do
  let (body, _) ← generatorFinish resp.body
  some { resp with body }

/-- What a reader returns: a value, `none` for an exception, or a promise. -/
inductive ReaderResult where
  | value (v : Option JSValue)
  | promise (r : ReaderPromise)

def BodyReader.blockFn : BodyReader → BlockFn
  | .arrayBuffer => .toarraybuffer
  | .text | .json => .tostring

def minnetResponseMethod (parser : JsonParser) (behind : Bytes) (resp : Response)
    (magic : BodyReader) : Option (Response × ReaderResult) :=
  if resp.sync then do
    let gen := { resp.body with blockFn := magic.blockFn }
    let q ← gen.q
    -- `done` and `binary` are not looked at
    let (q, ctx, blk, _, _) := queueNext q gen.ctx
    let ret ← match magic with
      | .arrayBuffer | .text => some (some (magic.blockFn.apply blk.data))
      | .json => blockTojson parser behind blk
    some ({ resp with body := { gen.setQueue q with ctx } }, .value ret)
  else
    let p := resp.body.ctx.promises
    let (ctx, funcs, _) := jsAsyncCreate resp.body.ctx
    let (gen, _) := generatorContinuous { resp.body with ctx, blockFn := magic.blockFn } funcs.resolve
    some ({ resp with body := gen }, .promise ⟨p, []⟩)

/-! ## Calls of a reader -/

/-- A reader is called after the first `n` chunks or after completion, or after completion of a
blocking fetch. -/
inductive ReadCall where
  | reads (reader : BodyReader) (n : Nat)
  | readsLate (reader : BodyReader)
  | readsBlocking (reader : BodyReader)
  deriving DecidableEq, Repr

def ReadCall.reader : ReadCall → BodyReader
  | .reads reader _ | .readsLate reader | .readsBlocking reader => reader

def receiveAll (resp : Response) (chunks : List Bytes) : Option Response :=
  PartialRun.run receiveClientHttpRead resp chunks

/-- The response at the end, and what the call returned. -/
def readResponse (parser : JsonParser) (behind : Bytes) (ctx : JSContext) (f : BlockFn)
    (chunks : List Bytes) : ReadCall → Option (Response × ReaderResult)
  | .reads reader n => do
    let resp ← receiveAll (fetchResponse ctx f false) (chunks.take n)
    let (resp, result) ← minnetResponseMethod parser behind resp reader
    let resp ← receiveAll resp (chunks.drop n)
    let resp ← completedClientHttp resp
    some (resp, result)
  | .readsLate reader => do
    let resp ← receiveAll (fetchResponse ctx f false) chunks
    let resp ← completedClientHttp resp
    minnetResponseMethod parser behind resp reader
  | .readsBlocking reader => do
    let resp ← receiveAll (fetchResponse ctx f true) chunks
    let resp ← completedClientHttp resp
    minnetResponseMethod parser behind resp reader

/-- The call yields the whole body: as the value it returns, or as the outcome of its promise,
settled once. -/
def YieldsBody (parser : JsonParser) (behind : Bytes) (ctx : JSContext) (f : BlockFn)
    (chunks : List Bytes) (call : ReadCall) : Prop :=
  ∃ resp result, readResponse parser behind ctx f chunks call = some (resp, result) ∧
    match result with
    | .value v => v = call.reader.expected parser.parse chunks.flatten
    | .promise r => GetsOnce ctx resp.body.ctx r (call.reader.expected parser.parse chunks.flatten)

/-- The bytes in front of the queue at completion, when a reader was called after the first `n`
chunks: the first chunk if a second one had come, and otherwise everything. -/
def frontBytes (chunks : List Bytes) (n : Nat) : Bytes :=
  if (chunks.take n).length ≤ 1 then chunks.flatten else chunks.headD []

/-- For a reader called in time the front holds the whole body, and there is one. `json()` gives
the text of the front, so the body must be a JSON text for just that string. A blocking `json()`
needs a block, and memory behind it that makes no difference to the parser. -/
def ReadReady (parser : JsonParser) (behind : Bytes) (chunks : List Bytes) : ReadCall → Prop
  | .reads .json n => parser.parse chunks.flatten
    = some (if frontBytes chunks n = [] then .undefined else .string (frontBytes chunks n))
  | .reads _ n => chunks.flatten ≠ [] ∧ frontBytes chunks n = chunks.flatten
  | .readsLate _ => False
  | .readsBlocking .json =>
    chunks ≠ [] ∧ parser.run chunks.flatten behind = parser.parse chunks.flatten
  | .readsBlocking _ => True

/-! ## Chunks in the queue -/

def BodyGenerator.puts (b : BodyGenerator) (chunks : List Bytes) : BodyGenerator :=
  chunks.foldl BodyGenerator.put b

theorem receiveAll_body : ∀ (chunks : List Bytes) (sync : Bool) (b : BodyGenerator),
    receiveAll ⟨sync, b.gen⟩ chunks = some ⟨sync, (b.puts chunks).gen⟩ := by
  intro chunks
  induction chunks with
  | nil =>
    intro _ _
    exact rfl
  | cons chunk chunks ih =>
    intro sync b
    have hstep : receiveClientHttpRead ⟨sync, b.gen⟩ chunk = some ⟨sync, (b.put chunk).gen⟩ := by
      simp only [receiveClientHttpRead, write_body]
      rfl
    exact PartialRun.run_cons_iff.2 ⟨_, hstep, ih sync (b.put chunk)⟩

theorem puts_frame : ∀ (chunks : List Bytes) (b : BodyGenerator),
    (b.puts chunks).ctx = b.ctx ∧ (b.puts chunks).callback = b.callback ∧
      (b.puts chunks).blockFn = b.blockFn := by
  intro chunks
  induction chunks with
  | nil =>
    intro _
    exact ⟨rfl, rfl, rfl⟩
  | cons chunk chunks ih =>
    intro b
    exact ih (b.put chunk)

theorem puts_q : ∀ (chunks : List Bytes) (b : BodyGenerator), b.q = some b.queue →
    (b.puts chunks).q = some (b.puts chunks).queue := by
  intro chunks
  induction chunks with
  | nil =>
    intro _ h
    exact h
  | cons chunk chunks ih =>
    intro b _
    exact ih (b.put chunk) rfl

theorem put_queue (b : BodyGenerator) (chunk : Bytes) :
    (b.put chunk).queue = (queuePut b.queue (blockCopy chunk)).1 := rfl

theorem puts_queue : ∀ (chunks : List Bytes) (b : BodyGenerator),
    (b.puts chunks).queue = queuePuts b.queue chunks := by
  intro chunks
  induction chunks with
  | nil =>
    intro _
    exact rfl
  | cons chunk chunks ih =>
    intro b
    exact ih (b.put chunk)

theorem puts_merged : ∀ (chunks : List Bytes) (b : BodyGenerator) {init : List QueueItem}
    {last : QueueItem}, b.queue.items = init ++ [last] → last.done = false →
    b.queue.continuous = true →
    ∃ blk : ByteBlock, (b.puts chunks).queue.items = init ++ [{ last with block := blk }] ∧
      blk.data = last.block.data ++ chunks.flatten ∧ (b.puts chunks).queue.continuous = true ∧
      (blk = none ↔ last.block = none ∧ chunks = []) := by
  intro chunks
  induction chunks with
  | nil =>
    intro b init last hitems _ hc
    exact ⟨last.block, hitems, (List.append_nil _).symm, hc, by simp⟩
  | cons chunk chunks ih =>
    intro b init last hitems hlast hc
    obtain ⟨hput, hcont, -⟩ := queuePut_continuous_snoc hitems hlast hc (blockCopy chunk)
    rw [← put_queue] at hput hcont
    obtain ⟨blk, hitems', hdata, hcont', hnone⟩ := ih (b.put chunk) hput hlast hcont
    refine ⟨blk, hitems', ?_, hcont', by simp [hnone]⟩
    calc blk.data = (last.block.data ++ chunk) ++ chunks.flatten := hdata
      _ = last.block.data ++ (chunk :: chunks).flatten := by
        rw [List.flatten_cons, List.append_assoc]

/-! ## The switch and the finish -/

/-- The switch finds the last chunk, or adds an item to collect in. -/
theorem queueContinuous_collects {q : Queue} (hopen : OpenItems q.items) :
    ∃ init last, (queueContinuous q).1.items = init ++ [last] ∧ last.done = false ∧
      (q.items = init ++ [last] ∨
        q.items = [] ∧ init = [] ∧ last = ⟨none, none, false, none⟩) := by
  rcases List.eq_nil_or_concat' q.items with hnil | ⟨init, last, hsnoc⟩
  · have hl : queueLastChunk (q.setContinuous true) = none := by
      simp [queueLastChunk, hnil, lastIdx?]
    refine ⟨[], ⟨none, none, false, none⟩, ?_, rfl, Or.inr ⟨hnil, rfl, rfl⟩⟩
    simp [queueContinuous, hl, hnil]
  · have hlast : last.done = false :=
      (openItems_cons.1 (openItems_append.1 (hsnoc ▸ hopen)).2).1
    have hl : queueLastChunk (q.setContinuous true) = some init.length := by
      unfold queueLastChunk
      rw [setContinuous_items, hsnoc]
      exact lastIdx?_snoc (by simp [QueueItem.isChunk, hlast]) init
    refine ⟨init, last, ?_, hlast, Or.inl hsnoc⟩
    simp [queueContinuous, hl, hsnoc]

theorem finish_front (b : BodyGenerator) {q : Queue} {i : QueueItem} {is : List QueueItem}
    (hq : b.q = some q) (hitems : q.items = i :: is) (hi : i.done = false)
    (hunref : i.unref = none) (hcont : q.continuous = true) (hcb : b.callback.isNullish = false) :
    ∃ gen, generatorFinish b.gen = some (gen, true) ∧
      gen.ctx = jsCall b.ctx b.callback [chunkValue b.blockFn i.block] := by
  obtain ⟨ctx, q', callback, f, n, m⟩ := b
  obtain rfl : q' = some q := hq
  let gen := (BodyGenerator.mk ctx (some q) callback f n m).gen.setClosing
  have hq' : gen.q = some q := rfl
  have hcb' : gen.callback.isNullish = false := hcb
  have hctx : (dequeueValue gen q).1.ctx = ctx ∧ (dequeueValue gen q).1.callback = callback ∧
      (dequeueValue gen q).2.1 = chunkValue f i.block := by
    simp only [dequeueValue, queueNext_cons hitems hi, hunref, callUnref]
    split <;> exact ⟨rfl, rfl, rfl⟩
  obtain ⟨hctx, hcallback, hvalue⟩ := hctx
  let ctx' := jsCall (dequeueValue gen q).1.ctx (dequeueValue gen q).1.callback
    [(dequeueValue gen q).2.1]
  refine ⟨{ (dequeueValue gen q).1 with ctx := ctx' }, ?_, ?_⟩
  · simp only [generatorFinish]
    rw [show (BodyGenerator.mk ctx (some q) callback f n m).gen.setClosing = gen from rfl, hq']
    simp only [hcont, hcb', Bool.not_false, Bool.and_self, if_true]
    rfl
  · simp only [ctx', hctx, hcallback, hvalue]

theorem finish_closes (b : BodyGenerator) {q : Queue} (hq : b.q = some q)
    (hopen : OpenItems q.items) (hcb : b.callback.isNullish = true) :
    generatorFinish b.gen = some (b.gen.setClosing.setQueue (q.addTail doneItem), false) := by
  obtain ⟨ctx, q', callback, f, n, m⟩ := b
  obtain rfl : q' = some q := hq
  let gen := (BodyGenerator.mk ctx (some q) callback f n m).gen.setClosing
  have hq' : gen.q = some q := rfl
  have hcb' : gen.callback.isNullish = true := hcb
  have hupd : generatorUpdate gen = (gen, 0) := rfl
  have hqueue : gen.queue = q := rfl
  simp only [generatorFinish]
  rw [show (BodyGenerator.mk ctx (some q) callback f n m).gen.setClosing = gen from rfl, hq']
  simp only [hcb', Bool.not_true, Bool.and_false, Bool.false_eq_true, if_false, hupd, hqueue,
    queueClose_open hopen]
  rfl

/-! ## The calls -/

variable {parser : JsonParser} {behind : Bytes} {ctx : JSContext} {f : BlockFn}

/-- A body that a reader waits for. -/
def BodyGenerator.read (b : BodyGenerator) (reader : BodyReader) : BodyGenerator :=
  { b with ctx := b.ctx.withPromise, blockFn := reader.blockFn }.switch (.resolve b.ctx.promises)

theorem method_async (b : BodyGenerator) (reader : BodyReader) :
    minnetResponseMethod parser behind ⟨false, b.gen⟩ reader
      = some (⟨false, (b.read reader).gen⟩, .promise ⟨b.ctx.promises, []⟩) := by
  have hswitch := continuous_body { b with ctx := b.ctx.withPromise, blockFn := reader.blockFn }
    (.resolve b.ctx.promises)
  simp only [minnetResponseMethod, Bool.false_eq_true, if_false, jsAsyncCreate]
  exact congrArg (fun gen => some ((⟨false, gen⟩ : Response),
    ReaderResult.promise ⟨b.ctx.promises, []⟩)) hswitch

/-- What a blocking reader makes of the block in front of the queue. -/
def BodyReader.ofBlock (parser : JsonParser) (behind : Bytes) (blk : ByteBlock) :
    BodyReader → Option (Option JSValue)
  | .arrayBuffer => some (some (.arrayBuffer blk.data))
  | .text => some (some (.string blk.data))
  | .json => blockTojson parser behind blk

/-- In the blocking mode a reader takes the front of the queue. -/
theorem method_blocking {gen : Generator} {q : Queue} {i : QueueItem} {is : List QueueItem}
    (hq : gen.q = some q) (hitems : q.items = i :: is) (hi : i.done = false)
    (hunref : i.unref = none) (reader : BodyReader) :
    ∃ body, minnetResponseMethod parser behind ⟨true, gen⟩ reader
      = (reader.ofBlock parser behind i.block).map fun v => (⟨true, body⟩, .value v) := by
  let gen' : Generator := { gen with blockFn := reader.blockFn }
  refine ⟨{ gen'.setQueue q.delHead with ctx := gen.ctx }, ?_⟩
  simp only [minnetResponseMethod, if_true, Option.bind_eq_bind, hq, Option.bind_some,
    queueNext_cons hitems hi, hunref, callUnref]
  cases reader with
  | arrayBuffer => rfl
  | text => rfl
  | json => cases i.block <;> rfl

/-- The generator of a new response. -/
def BodyGenerator.fetched (ctx : JSContext) (f : BlockFn) : BodyGenerator :=
  ⟨ctx, none, .undefined, f, 0, 0⟩

theorem fetchResponse_async : fetchResponse ctx f false = ⟨false, (BodyGenerator.fetched ctx f).gen⟩ :=
  rfl

theorem fetchResponse_blocking :
    fetchResponse ctx f true = ⟨true, ((BodyGenerator.fetched ctx f).switch .null).gen⟩ := by
  have hswitch := continuous_body (BodyGenerator.fetched ctx f) .null
  exact congrArg (Response.mk true) hswitch

/-- Before a reader asks for the body its chunks are queued one by one. -/
theorem fetched_items (ctx : JSContext) (f : BlockFn) (chunks : List Bytes) :
    ((BodyGenerator.fetched ctx f).puts chunks).queue.items = chunks.map chunkItem := by
  rw [puts_queue, (queuePuts_separate chunks openItems_nil rfl).1]
  rfl

/-- What is in front of the queue when the response is complete. -/
theorem front_spec (ctx : JSContext) (f : BlockFn) (chunks : List Bytes) (reader : BodyReader)
    (n : Nat) :
    ∃ q i is, ((((BodyGenerator.fetched ctx f).puts (chunks.take n)).read reader).puts
        (chunks.drop n)).q = some q ∧ q.items = i :: is ∧ i.done = false ∧ i.unref = none ∧
      q.continuous = true ∧ i.block.data = frontBytes chunks n := by
  let b₁ := (BodyGenerator.fetched ctx f).puts (chunks.take n)
  let b₂ := b₁.read reader
  have hitems₁' : b₁.queue.items = (chunks.take n).map chunkItem :=
    fetched_items ctx f (chunks.take n)
  have hopen₁ : OpenItems b₁.queue.items := hitems₁' ▸ chunkItems_open _
  obtain ⟨init, last, hswitch, hlast, hfrom⟩ := queueContinuous_collects hopen₁
  have hitems₂ : b₂.queue.items = init ++ [last] := hswitch
  obtain ⟨blk, hitems, hdata, hcont, -⟩ := puts_merged (chunks.drop n) b₂ hitems₂ hlast rfl
  have hq : (b₂.puts (chunks.drop n)).q = some (b₂.puts (chunks.drop n)).queue := puts_q _ _ rfl
  have hflatten : (chunks.take n).flatten ++ (chunks.drop n).flatten = chunks.flatten := by
    rw [← List.flatten_append, List.take_append_drop]
  rw [hitems₁'] at hfrom
  -- What is in front was queued before the call, unless nothing was.
  rcases hfrom with hfrom | ⟨hnil, rfl, rfl⟩
  · cases init with
    | nil =>
      obtain ⟨chunk, hchunk, rfl⟩ := List.map_eq_singleton_iff.1 hfrom
      refine ⟨_, _, [], hq, hitems, rfl, rfl, hcont, ?_⟩
      have hfront : frontBytes chunks n = chunks.flatten := by simp [frontBytes, hchunk]
      rw [hfront, ← hflatten, hchunk, hdata, List.flatten_singleton]
      rfl
    | cons i is =>
      obtain ⟨chunk, rest, hchunks, rfl, hrest⟩ := List.map_eq_cons_iff.1 hfrom
      refine ⟨_, _, _, hq, hitems, rfl, rfl, hcont, ?_⟩
      -- Later chunks went into the last item, and the front is the first chunk as it came.
      have hlong : ¬ (chunks.take n).length ≤ 1 := by
        have hne : rest ≠ [] := by
          intro h
          obtain rfl := h
          exact absurd hrest.symm (by simp)
        have hpos := List.length_pos_iff.2 hne
        rw [hchunks, List.length_cons]
        omega
      have hhead : chunks.headD [] = chunk := by
        rw [← List.take_append_drop n chunks, hchunks]
        rfl
      rw [frontBytes, if_neg hlong, hhead]
      rfl
  · have hchunks : chunks.take n = [] := List.map_eq_nil_iff.1 hnil
    refine ⟨_, _, [], hq, hitems, rfl, rfl, hcont, ?_⟩
    have hfront : frontBytes chunks n = chunks.flatten := by simp [frontBytes, hchunks]
    rw [hfront, ← hflatten, hchunks, hdata]
    rfl

/-- Called in time, a reader's promise is resolved once, with the front of the queue. -/
theorem reads_spec (chunks : List Bytes) (reader : BodyReader) (n : Nat) :
    ∃ resp blk, readResponse parser behind ctx f chunks (.reads reader n)
        = some (resp, .promise ⟨ctx.promises, []⟩) ∧ ByteBlock.data blk = frontBytes chunks n ∧
      resp.body.ctx.settlements
        = ctx.settlements ++ [(ctx.promises, .resolved (chunkValue reader.blockFn blk))] := by
  obtain ⟨q, i, is, hq, hitems, hi, hunref, hcont, hdata⟩ := front_spec ctx f chunks reader n
  let b₁ := (BodyGenerator.fetched ctx f).puts (chunks.take n)
  let b₂ := (b₁.read reader).puts (chunks.drop n)
  obtain ⟨hctx₁, -, -⟩ := puts_frame (chunks.take n) (BodyGenerator.fetched ctx f)
  obtain ⟨hctx₂, hcb₂, hf₂⟩ := puts_frame (chunks.drop n) (b₁.read reader)
  have hctx : b₂.ctx = ctx.withPromise := by
    rw [hctx₂]
    exact congrArg JSContext.withPromise hctx₁
  have hcb : b₂.callback = .resolve ctx.promises := by
    rw [hcb₂]
    exact congrArg (fun c : JSContext => JSValue.resolve c.promises) hctx₁
  have hfn : b₂.blockFn = reader.blockFn := hf₂
  obtain ⟨gen, hfinish, hgen⟩ := finish_front b₂ hq hitems hi hunref hcont (by rw [hcb]; rfl)
  have hcomplete : completedClientHttp ⟨false, b₂.gen⟩ = some ⟨false, gen⟩ := by
    simp only [completedClientHttp, hfinish]
    rfl
  refine ⟨⟨false, gen⟩, i.block, ?_, hdata, ?_⟩
  · rw [readResponse, fetchResponse_async]
    simp only [receiveAll_body, Option.bind_eq_bind, Option.bind_some, method_async]
    rw [show completedClientHttp ⟨false, ((((BodyGenerator.fetched ctx f).puts
      (chunks.take n)).read reader).puts (chunks.drop n)).gen⟩ = some ⟨false, gen⟩ from hcomplete]
    simp only [Option.bind_some, hctx₁]
    rfl
  · simp only [hgen, hctx, hcb, hfn]
    exact settlements_resolve _ _ _

/-- After completion nothing gives a reader its body. -/
theorem late_spec {chunks : List Bytes} {reader : BodyReader} {resp : Response}
    {result : ReaderResult}
    (h : readResponse parser behind ctx f chunks (.readsLate reader) = some (resp, result)) :
    (∃ r, result = .promise r) ∧ resp.body.ctx.settlements = ctx.settlements := by
  let b := (BodyGenerator.fetched ctx f).puts chunks
  obtain ⟨hctx, hcb, -⟩ := puts_frame chunks (BodyGenerator.fetched ctx f)
  obtain ⟨resp₁, h1, h2⟩ : ∃ resp₁, completedClientHttp ⟨false, b.gen⟩ = some resp₁ ∧
      minnetResponseMethod parser behind resp₁ reader = some (resp, result) := by
    rw [readResponse, fetchResponse_async] at h
    simp only [receiveAll_body, Option.bind_eq_bind, Option.bind_some] at h
    exact Option.bind_eq_some_iff.1 h
  have hnullish : b.callback.isNullish = true := by
    rw [hcb]
    rfl
  have hresp₁ : resp₁.sync = false ∧ resp₁.body.ctx = ctx := by
    cases hq : b.q with
    | none =>
      -- Without a chunk there is no queue, and the finish dereferences a null pointer.
      have hcrash : completedClientHttp ⟨false, b.gen⟩ = none := by
        have hq' : b.gen.setClosing.q = none := hq
        simp only [completedClientHttp, generatorFinish, hq']
        rfl
      rw [hcrash] at h1
      cases h1
    | some q =>
      have hqueue : b.queue = q := by rw [BodyGenerator.queue, hq]; rfl
      have hitems' : b.queue.items = chunks.map chunkItem := fetched_items ctx f chunks
      have hopen : OpenItems q.items := by
        rw [← hqueue, hitems']
        exact chunkItems_open _
      have hdone := finish_closes b hq hopen hnullish
      simp only [completedClientHttp, hdone] at h1
      obtain rfl := Option.some.inj h1
      exact ⟨rfl, hctx⟩
  obtain ⟨hsync, hctx₁⟩ := hresp₁
  simp only [minnetResponseMethod, hsync, Bool.false_eq_true, if_false, jsAsyncCreate] at h2
  obtain ⟨rfl, rfl⟩ := Prod.mk.inj (Option.some.inj h2)
  refine ⟨⟨_, rfl⟩, ?_⟩
  exact (show _ = resp₁.body.ctx.settlements from rfl).trans (congrArg JSContext.settlements hctx₁)

theorem not_yields_late (chunks : List Bytes) (reader : BodyReader) :
    ¬ YieldsBody parser behind ctx f chunks (.readsLate reader) := by
  intro h'
  obtain ⟨resp, result, hread, hgets⟩ := h'
  obtain ⟨⟨r, rfl⟩, hs⟩ := late_spec hread
  obtain ⟨s, hs', -⟩ := hgets
  have hlen := congrArg List.length (hs.symm.trans hs')
  simp at hlen

/-- In the blocking mode the body is in one item, which the reader takes. -/
theorem blocking_spec (chunks : List Bytes) (reader : BodyReader) :
    ∃ resp blk, readResponse parser behind ctx f chunks (.readsBlocking reader)
        = (reader.ofBlock parser behind blk).map (fun v => (resp, .value v)) ∧
      blk.data = chunks.flatten ∧ (blk = none ↔ chunks = []) := by
  let b := ((BodyGenerator.fetched ctx f).switch .null).puts chunks
  obtain ⟨-, hcb, -⟩ := puts_frame chunks ((BodyGenerator.fetched ctx f).switch .null)
  obtain ⟨blk, hitems, hdata, -, hnone⟩ :=
    @puts_merged chunks ((BodyGenerator.fetched ctx f).switch .null) [] ⟨none, none, false, none⟩
      rfl rfl rfl
  have hq : b.q = some b.queue := puts_q _ _ rfl
  have hopen : OpenItems b.queue.items := by
    rw [hitems]
    exact openItems_cons.2 ⟨rfl, openItems_nil⟩
  have hnullish : b.callback.isNullish = true := by
    rw [hcb]
    rfl
  let gen := b.gen.setClosing.setQueue (b.queue.addTail doneItem)
  have hcomplete : completedClientHttp ⟨true, b.gen⟩ = some ⟨true, gen⟩ := by
    simp only [completedClientHttp, finish_closes b hq hopen hnullish]
    rfl
  have hclosed : (b.queue.addTail doneItem).items = ⟨blk, none, false, none⟩ :: [doneItem] := by
    rw [addTail_items, hitems]
    rfl
  obtain ⟨body, hmethod⟩ :=
    @method_blocking parser behind gen _ _ _ rfl hclosed rfl rfl reader
  refine ⟨⟨true, body⟩, blk, ?_, hdata, by simpa using hnone⟩
  simp only [readResponse, fetchResponse_blocking, receiveAll_body, Option.bind_eq_bind,
    Option.bind_some]
  rw [show completedClientHttp ⟨true, (((BodyGenerator.fetched ctx f).switch .null).puts
    chunks).gen⟩ = some ⟨true, gen⟩ from hcomplete]
  exact hmethod

theorem yields_blocking (chunks : List Bytes) (reader : BodyReader) :
    YieldsBody parser behind ctx f chunks (.readsBlocking reader) ↔
      ReadReady parser behind chunks (.readsBlocking reader) := by
  obtain ⟨resp, blk, hread, hdata, hnone⟩ := @blocking_spec parser behind ctx f chunks reader
  have hvalue : YieldsBody parser behind ctx f chunks (.readsBlocking reader) ↔
      reader.ofBlock parser behind blk = some (reader.expected parser.parse chunks.flatten) := by
    constructor
    · rintro ⟨resp', result, hread', hgets⟩
      obtain ⟨v, hv, heq⟩ := Option.map_eq_some_iff.1 (hread.symm.trans hread')
      obtain ⟨-, rfl⟩ := Prod.mk.inj heq
      rw [hv]
      exact congrArg some hgets
    · intro hv
      exact ⟨resp, _, by rw [hread, hv, Option.map_some], rfl⟩
  rw [hvalue]
  cases reader with
  | arrayBuffer => exact iff_of_true (by rw [BodyReader.ofBlock, hdata]; rfl) trivial
  | text => exact iff_of_true (by rw [BodyReader.ofBlock, hdata]; rfl) trivial
  | json =>
    cases blk with
    | none =>
      have hempty := hnone.1 rfl
      exact iff_of_false (fun h => by cases h) fun h => h.1 hempty
    | some text =>
      obtain rfl : text = chunks.flatten := hdata
      have hne : chunks ≠ [] := fun h => by cases hnone.2 h
      refine ⟨fun h => ⟨hne, Option.some.inj h⟩, fun h => congrArg some h.2⟩

theorem yields_reads (chunks : List Bytes) (reader : BodyReader) (n : Nat) :
    YieldsBody parser behind ctx f chunks (.reads reader n) ↔
      ReadReady parser behind chunks (.reads reader n) := by
  obtain ⟨resp, blk, hread, hdata, hs⟩ := @reads_spec parser behind ctx f chunks reader n
  have hvalue : YieldsBody parser behind ctx f chunks (.reads reader n) ↔
      some (chunkValue reader.blockFn blk) = reader.expected parser.parse chunks.flatten := by
    refine ⟨?_, ?_⟩
    · intro h'
      obtain ⟨resp', result, hread', hgets⟩ := h'
      obtain ⟨rfl, rfl⟩ := Prod.mk.inj (Option.some.inj (hread.symm.trans hread'))
      obtain ⟨st, hs', hout⟩ := hgets
      have heq := List.append_cancel_left (hs.symm.trans hs')
      obtain ⟨-, rfl⟩ := Prod.mk.inj (List.cons.inj heq).1
      exact hout
    · intro hout
      exact ⟨resp, _, hread, _, hs, hout⟩
  rw [hvalue]
  by_cases hfront : frontBytes chunks n = []
  -- The front has no bytes, and the promise is resolved with undefined.
  · have hundefined : chunkValue reader.blockFn blk = .undefined := by
      rw [chunkValue, ByteBlock.size_eq_zero.2 (hdata.trans hfront)]
      rfl
    rw [hundefined]
    cases reader with
    | json => simp only [BodyReader.expected, ReadReady, hfront, if_true, eq_comm]
    | arrayBuffer | text =>
      refine iff_of_false (fun h => by cases h) ?_
      intro h'
      obtain ⟨hne, heq⟩ := h'
      exact hne (heq.symm.trans hfront)
  · have hsize : blk.size ≠ 0 := by
      intro hzero
      exact hfront (hdata.symm.trans (ByteBlock.size_eq_zero.1 hzero))
    have hchunk : chunkValue reader.blockFn blk = reader.blockFn.apply (frontBytes chunks n) := by
      rw [chunkValue, if_pos hsize, hdata]
    rw [hchunk]
    cases reader with
    | json => simp only [BodyReader.expected, ReadReady, hfront, if_false, eq_comm, BodyReader.blockFn,
        BlockFn.apply]
    | arrayBuffer | text =>
      simp only [BodyReader.expected, ReadReady, BodyReader.blockFn, BlockFn.apply, Option.some.injEq,
        JSValue.arrayBuffer.injEq, JSValue.string.injEq]
      refine ⟨?_, ?_⟩
      · intro heq
        exact ⟨fun hnil => hfront (heq.trans hnil), heq⟩
      · exact fun h => h.2

/-- **When a response body is read.** However it is split, a call yields the whole body once if
and only if it is made in the blocking mode, or in time and with the whole of a body that is not
empty in front of the queue; a `json()` that is not blocking must have a body that says what the
front is, and a blocking one memory behind the block that the parser takes for its end. -/
theorem response_read_iff (parser : JsonParser) (behind : Bytes) (ctx : JSContext) (f : BlockFn)
    (chunks : List Bytes) (call : ReadCall) :
    YieldsBody parser behind ctx f chunks call ↔ ReadReady parser behind chunks call := by
  cases call with
  | reads reader n => exact yields_reads chunks reader n
  | readsLate reader => exact iff_of_false (not_yields_late chunks reader) (fun h => h)
  | readsBlocking reader => exact yields_blocking chunks reader

/-- The value of digits; they are read up to a NUL. -/
def digitsParser : JsonParser where
  run text behind :=
    let digits := text ++ behind.takeWhile (· ≠ 0)
    if !digits.isEmpty && digits.all isdigit then
      some (.int (digits.foldl (fun n c => 10 * n + (c.toNat - 48)) 0))
    else none
  terminated text behind := by simp

/-- Two chunks, then `text()`, then completion: the promise is resolved with the first chunk. And
a blocking `json()` of `1` with a `2` in the memory behind it gives 12. -/
theorem response_loses_chunk :
    ((readResponse digitsParser [0] .new .toarraybuffer [[97], [98]] (.reads .text 2)).map
      fun result => result.1.body.ctx.settlements) = some [(0, .resolved (.string [97]))] ∧
    ¬ YieldsBody digitsParser [0] .new .toarraybuffer [[97], [98]] (.reads .text 2) ∧
    ¬ YieldsBody digitsParser [50, 0] .new .toarraybuffer [[49]] (.readsBlocking .json) := by
  refine ⟨rfl, ?_, ?_⟩
  · rintro ⟨resp, result, hread, hgets⟩
    obtain ⟨rfl, rfl⟩ := Prod.mk.inj (Option.some.inj hread)
    obtain ⟨s, hs, hout⟩ := hgets
    obtain ⟨-, rfl⟩ := Prod.mk.inj (List.cons.inj hs).1
    cases hout
  · rintro ⟨resp, result, hread, hgets⟩
    obtain ⟨rfl, rfl⟩ := Prod.mk.inj (Option.some.inj hread)
    exact absurd hgets (by decide)

end QjsNet
