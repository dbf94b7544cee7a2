import QjsNet.BodyReader
import QjsNet.GeneratorClose
import QjsNet.ServerMatch

/- The body of a POST request on the server (`minnet-server-http.c`, `minnet-request.c`).

   Every body event that has data writes it to the generator of the request, in
   continuous mode, so the generator holds one item with everything so far. At
   completion the generator is stopped, which gives the item to a reader that has
   been installed, and only then does the handler of `onPost` get its iterator.

   So a reader called before completion gets the body, unless there is none, in
   which case its promise is resolved with `undefined`; a reader called later waits
   for ever; and an iterator is at its end at once. `body_delivered_iff` puts this
   together.

   Correspondence (C ↔ Lean):
     `request_new`                         ↔ `requestNew`
     `LWS_CALLBACK_HTTP_BODY`, no form parser ↔ `httpBody`
     `LWS_CALLBACK_HTTP_BODY_COMPLETION`   ↔ `httpBodyCompletion`
     `minnet_request_method`               ↔ `minnetRequestMethod`

   The handlers of `onRead` and of the mount are not consumers of the generator;
   what they do with the request is the call of a reader at that moment. -/
namespace QjsNet

structure Request where
  method : HttpMethod
  body : Option Generator

def requestNew (method : HttpMethod) (ctx : JSContext) : Request :=
  ⟨method, if method = .post then some (generatorNew ctx) else none⟩

/-- A body event. -/
def httpBody (ctx : JSContext) (req : Request) (chunk : Bytes) : Option Request :=
  if chunk.length ≠ 0 then do
    let gen := req.body.getD (generatorNew ctx)
    -- null is no function, so a callback that has been set stays
    let gen := if gen.q.isNone || !gen.queue.continuous then (generatorContinuous gen .null).1
               else gen
    let (gen, _) ← generatorWrite gen chunk .undefined
    some { req with body := some gen }
  else some req

def httpBodyCompletion (req : Request) : Option Request :=
  match req.body with
  | none => some req
  | some gen => do
    let (gen, _) ← generatorStop gen .undefined
    some { req with body := some gen }

/-- The functions given to `then`, in order. -/
def BodyReader.reactions (parse : Bytes → Option JSValue) : BodyReader → List Reaction
  | .arrayBuffer => []
  | .text => [jsArraybufferTostring]
  | .json => [jsArraybufferTostring, jsonParse parse]

/-- Without a body the result is `undefined`. -/
def minnetRequestMethod (parse : Bytes → Option JSValue) (req : Request) (magic : BodyReader) :
    Request × Option ReaderPromise :=
  match req.body with
  | none => (req, none)
  | some gen =>
    let p := gen.ctx.promises
    let (ctx, funcs, _) := jsAsyncCreate gen.ctx
    let (gen, _) := generatorContinuous { gen with ctx } funcs.resolve
    ({ req with body := some gen }, some ⟨p, magic.reactions parse⟩)

/-! ## Consumers -/

/-- The consumer calls a reader after the first `n` body events or after completion, or iterates
what `onPost` is given. -/
inductive Consumer where
  | reads (reader : BodyReader) (n : Nat)
  | readsLate (reader : BodyReader)
  | iterates
  deriving DecidableEq, Repr

/-- The body events, then completion. -/
def receive (ctx : JSContext) (req : Request) (chunks : List Bytes) : Option Request :=
  (PartialRun.run (httpBody ctx) req chunks).bind httpBodyCompletion

def readDuring (parse : Bytes → Option JSValue) (ctx : JSContext) (chunks : List Bytes)
    (reader : BodyReader) (n : Nat) : Option (Request × Option ReaderPromise) := do
  let req ← PartialRun.run (httpBody ctx) (requestNew .post ctx) (chunks.take n)
  let (req, promise) := minnetRequestMethod parse req reader
  let req ← receive ctx req (chunks.drop n)
  some (req, promise)

def readAfter (parse : Bytes → Option JSValue) (ctx : JSContext) (chunks : List Bytes)
    (reader : BodyReader) : Option (Request × Option ReaderPromise) := do
  let req ← receive ctx (requestNew .post ctx) chunks
  some (minnetRequestMethod parse req reader)

/-- The consumer gets the whole body: as the outcome of its promise, settled once, or in the
chunks it reads before the first last result. -/
def Delivered (parse : Bytes → Option JSValue) (ctx : JSContext) (chunks : List Bytes) :
    Consumer → Prop
  | .reads reader n => ∃ req r gen, readDuring parse ctx chunks reader n = some (req, some r) ∧
    req.body = some gen ∧ GetsOnce ctx gen.ctx r (reader.expected parse chunks.flatten)
  | .readsLate reader => ∃ req r gen, readAfter parse ctx chunks reader = some (req, some r) ∧
    req.body = some gen ∧ GetsOnce ctx gen.ctx r (reader.expected parse chunks.flatten)
  | .iterates => ∃ req gen args gen' before p v,
    receive ctx (requestNew .post ctx) chunks = some req ∧ req.body = some gen ∧
    PartialRun.run readStep gen args = some gen' ∧
    gen'.ctx.settlements
      = ctx.settlements ++ before ++ [(p, .resolved (.iteratorResult v true))] ∧
    (∀ e ∈ before, e.2.isDone = false) ∧ settledBytes before = chunks.flatten

/-- A reader called in time needs a body, unless its promise is to be rejected anyway; an
iterator must have nothing to give. -/
def DeliveryReady (parse : Bytes → Option JSValue) (chunks : List Bytes) : Consumer → Prop
  | .reads reader _ => chunks.flatten ≠ [] ∨ reader = .json ∧ parse [] = none
  | .readsLate _ => False
  | .iterates => chunks.flatten = []

/-! ## Gathering the body -/

/-- A request that has gathered `blk`, for `callback`. -/
def gathered (ctx : JSContext) (callback : JSValue) (blk : ByteBlock) (n m : Nat) : Request :=
  ⟨.post, some (BodyGenerator.mk ctx (some (oneItem blk)) callback .toarraybuffer n m).gen⟩

variable {c ctx : JSContext} {callback : JSValue} {parse : Bytes → Option JSValue}

theorem httpBody_gathered (blk : ByteBlock) (n m : Nat) (chunk : Bytes) :
    ∃ blk' n' m', httpBody c (gathered ctx callback blk n m) chunk
        = some (gathered ctx callback blk' n' m') ∧ blk'.data = blk.data ++ chunk := by
  by_cases hchunk : chunk.length = 0
  · refine ⟨blk, n, m, by simp [httpBody, hchunk], ?_⟩
    rw [List.length_eq_zero_iff.1 hchunk, List.append_nil]
  · let b := BodyGenerator.mk ctx (some (oneItem blk)) callback .toarraybuffer n m
    have hput : b.put chunk = ⟨ctx, some (oneItem (some (blk.data ++ chunk))), callback,
        .toarraybuffer, n + chunk.length, m + 1⟩ := by
      have hqueue : b.queue = oneItem blk := rfl
      simp only [BodyGenerator.put, hqueue, queuePut_oneItem, b]
    refine ⟨some (blk.data ++ chunk), n + chunk.length, m + 1, ?_, rfl⟩
    have hq : b.gen.q.isNone = false := rfl
    have hcont : b.gen.queue.continuous = true := rfl
    have hw := write_body b chunk
    rw [hput] at hw
    simp only [httpBody, gathered, ne_eq, hchunk, not_false_eq_true, if_true, Option.getD_some,
      show (BodyGenerator.mk ctx (some (oneItem blk)) callback .toarraybuffer n m) = b from rfl,
      hq, hcont, Bool.not_true, Bool.or_self, Bool.false_eq_true, if_false, hw]
    rfl

theorem bodies_gathered : ∀ (chunks : List Bytes) (blk : ByteBlock) (n m : Nat),
    ∃ blk' n' m', PartialRun.run (httpBody c) (gathered ctx callback blk n m) chunks
        = some (gathered ctx callback blk' n' m') ∧ blk'.data = blk.data ++ chunks.flatten := by
  intro chunks
  induction chunks with
  | nil =>
    intro blk n m
    exact ⟨blk, n, m, rfl, by simp⟩
  | cons chunk chunks ih =>
    intro blk n m
    obtain ⟨blk₁, n₁, m₁, h1, hdata₁⟩ := @httpBody_gathered c ctx callback blk n m chunk
    obtain ⟨blk₂, n₂, m₂, h2, hdata₂⟩ := ih blk₁ n₁ m₁
    refine ⟨blk₂, n₂, m₂, PartialRun.run_cons_iff.2 ⟨_, h1, h2⟩, ?_⟩
    calc blk₂.data = blk₁.data ++ chunks.flatten := hdata₂
      _ = (blk.data ++ chunk) ++ chunks.flatten := by rw [hdata₁]
      _ = blk.data ++ (chunk :: chunks).flatten := by rw [List.flatten_cons, List.append_assoc]

theorem switch_new : (BodyGenerator.new ctx).switch callback =
    ⟨ctx, some (oneItem none), if callback.isFunction then callback else .undefined,
      .toarraybuffer, 0, 0⟩ := rfl

theorem switch_oneItem {blk : ByteBlock} {cb : JSValue} {n m : Nat} :
    (BodyGenerator.mk ctx (some (oneItem blk)) cb .toarraybuffer n m).switch callback =
      ⟨ctx, some (oneItem blk), if callback.isFunction then callback else cb, .toarraybuffer,
        n, m⟩ := by
  have h := queueContinuous_oneItem blk
  simp only [BodyGenerator.switch, BodyGenerator.queue, Option.getD_some, h]

theorem httpBody_new {chunk : Bytes} (h : chunk ≠ []) :
    httpBody ctx (requestNew .post ctx) chunk
      = some (gathered ctx .undefined (some chunk) chunk.length 1) := by
  have hlen : chunk.length ≠ 0 := fun hlen => h (List.length_eq_zero_iff.1 hlen)
  let b : BodyGenerator := ⟨ctx, some (oneItem none), .undefined, .toarraybuffer, 0, 0⟩
  have hswitch : (generatorContinuous (generatorNew ctx) .null).1 = b.gen := by
    rw [generatorNew_eq, continuous_body, switch_new]
    rfl
  have hput : b.put chunk = ⟨ctx, some (oneItem (some chunk)), .undefined, .toarraybuffer,
      chunk.length, 1⟩ := by
    have hqueue : b.queue = oneItem none := rfl
    simp only [BodyGenerator.put, hqueue, queuePut_oneItem, b]
    simp
  have hw := write_body b chunk
  rw [hput] at hw
  have hnone : (generatorNew ctx).q.isNone = true := rfl
  simp only [httpBody, requestNew, hlen, ne_eq, not_false_eq_true, if_true, Option.getD_some,
    hnone, Bool.true_or, hswitch, hw]
  rfl

theorem bodies_new : ∀ chunks : List Bytes,
    (PartialRun.run (httpBody ctx) (requestNew .post ctx) chunks = some (requestNew .post ctx) ∧
      chunks.flatten = []) ∨
    ∃ blk n m, PartialRun.run (httpBody ctx) (requestNew .post ctx) chunks
        = some (gathered ctx .undefined blk n m) ∧ blk.data = chunks.flatten ∧ chunks.flatten ≠ [] := by
  intro chunks
  induction chunks with
  | nil =>
    exact Or.inl ⟨rfl, rfl⟩
  | cons chunk chunks ih =>
    by_cases hchunk : chunk = []
    -- An event without data does not touch the generator.
    · have hsame : httpBody ctx (requestNew .post ctx) chunk = some (requestNew .post ctx) := by
        rw [hchunk]
        rfl
      rw [PartialRun.run_cons, hsame, Option.bind_some, List.flatten_cons, hchunk, List.nil_append]
      exact ih
    · obtain ⟨blk, n, m, h, hdata⟩ :=
        @bodies_gathered ctx ctx .undefined chunks (some chunk) chunk.length 1
      refine Or.inr ⟨blk, n, m, PartialRun.run_cons_iff.2 ⟨_, httpBody_new hchunk, h⟩, hdata, ?_⟩
      rw [List.flatten_cons]
      exact fun hnil => hchunk (List.append_eq_nil_iff.1 hnil).1

/-! ## Readers -/

theorem method_new (reader : BodyReader) :
    minnetRequestMethod parse (requestNew .post ctx) reader
      = (gathered ctx.withPromise (.resolve ctx.promises) none 0 0,
        some ⟨ctx.promises, reader.reactions parse⟩) := by
  have hswitch := continuous_body (BodyGenerator.new ctx.withPromise) (.resolve ctx.promises)
  rw [switch_new] at hswitch
  have hgen : (generatorContinuous (BodyGenerator.new ctx.withPromise).gen
      (.resolve ctx.promises)) = (_, true) := Prod.ext hswitch rfl
  simp only [minnetRequestMethod, requestNew, jsAsyncCreate]
  exact congrArg (fun r : Generator × Bool => ((⟨.post, some r.1⟩ : Request),
    some (ReaderPromise.mk ctx.promises (reader.reactions parse)))) hgen

theorem method_gathered (blk : ByteBlock) (n m : Nat) (reader : BodyReader) :
    minnetRequestMethod parse (gathered ctx callback blk n m) reader
      = (gathered ctx.withPromise (.resolve ctx.promises) blk n m,
        some ⟨ctx.promises, reader.reactions parse⟩) := by
  have hswitch := continuous_body
    (BodyGenerator.mk ctx.withPromise (some (oneItem blk)) callback .toarraybuffer n m)
    (.resolve ctx.promises)
  rw [switch_oneItem] at hswitch
  have hgen : (generatorContinuous (BodyGenerator.mk ctx.withPromise (some (oneItem blk)) callback
      .toarraybuffer n m).gen (.resolve ctx.promises)) = (_, true) := Prod.ext hswitch rfl
  simp only [minnetRequestMethod, gathered, jsAsyncCreate]
  exact congrArg (fun r : Generator × Bool => ((⟨.post, some r.1⟩ : Request),
    some (ReaderPromise.mk ctx.promises (reader.reactions parse)))) hgen

/-- Called before completion, a reader's promise is resolved once, with what was gathered. -/
theorem readDuring_spec (chunks : List Bytes) (reader : BodyReader) (n : Nat) :
    ∃ req gen blk, readDuring parse ctx chunks reader n
        = some (req, some ⟨ctx.promises, reader.reactions parse⟩) ∧ req.body = some gen ∧
      blk.data = chunks.flatten ∧
      gen.ctx.settlements
        = ctx.settlements ++ [(ctx.promises, .resolved (chunkValue .toarraybuffer blk))] := by
  obtain ⟨req₁, blk₁, k, m, h1, hmethod, hdata₁⟩ : ∃ req₁ blk₁ k m,
      PartialRun.run (httpBody ctx) (requestNew .post ctx) (chunks.take n) = some req₁ ∧
      minnetRequestMethod parse req₁ reader
        = (gathered ctx.withPromise (.resolve ctx.promises) blk₁ k m,
          some ⟨ctx.promises, reader.reactions parse⟩) ∧
      blk₁.data = (chunks.take n).flatten := by
    rcases @bodies_new ctx (chunks.take n) with ⟨h1, hnil⟩ | ⟨blk, k, m, h1, hdata, _⟩
    · exact ⟨_, none, 0, 0, h1, method_new reader, hnil.symm⟩
    · exact ⟨_, blk, k, m, h1, method_gathered blk k m reader, hdata⟩
  obtain ⟨blk, k', m', h2, hdata⟩ :=
    @bodies_gathered ctx ctx.withPromise (.resolve ctx.promises) (chunks.drop n) blk₁ k m
  let b : BodyGenerator :=
    ⟨ctx.withPromise, some (oneItem blk), .resolve ctx.promises, .toarraybuffer, k', m'⟩
  obtain ⟨gen, hstop, hctx, _⟩ := stop_oneItem b blk rfl .undefined
  have hcomplete : httpBodyCompletion
      (gathered ctx.withPromise (.resolve ctx.promises) blk k' m') = some ⟨.post, some gen⟩ := by
    simp only [httpBodyCompletion, gathered]
    rw [show generatorStop (BodyGenerator.mk ctx.withPromise (some (oneItem blk))
      (.resolve ctx.promises) .toarraybuffer k' m').gen .undefined = some (gen, true) from hstop]
    rfl
  refine ⟨⟨.post, some gen⟩, gen, blk, ?_, rfl, ?_, ?_⟩
  · simp only [readDuring, h1, Option.bind_eq_bind, Option.bind_some, hmethod, receive, h2,
      hcomplete]
  · calc blk.data = blk₁.data ++ (chunks.drop n).flatten := hdata
      _ = (chunks.take n).flatten ++ (chunks.drop n).flatten := by rw [hdata₁]
      _ = chunks.flatten := by rw [← List.flatten_append, List.take_append_drop]
  · rw [hctx]
    exact settlements_resolve _ _ _

/-- What a reader makes of the body that was gathered. -/
theorem reader_outcome (p : Nat) (reader : BodyReader) (blk : ByteBlock) :
    (ReaderPromise.mk p (reader.reactions parse)).outcome
        (.resolved (chunkValue .toarraybuffer blk)) = reader.expected parse blk.data ↔
      blk.data ≠ [] ∨ reader = .json ∧ parse [] = none := by
  by_cases hblk : blk.data = []
  -- Without bytes the promise is resolved with undefined, which no reaction accepts.
  · have hvalue : chunkValue .toarraybuffer blk = .undefined := by
      rw [chunkValue, ByteBlock.size_eq_zero.2 hblk]
      rfl
    rw [hvalue, hblk]
    cases reader with
    | arrayBuffer | text =>
      simp [ReaderPromise.outcome, BodyReader.reactions, BodyReader.expected, jsArraybufferTostring]
    | json =>
      simp [ReaderPromise.outcome, BodyReader.reactions, BodyReader.expected, jsArraybufferTostring]
      exact eq_comm
  · have hvalue : chunkValue .toarraybuffer blk = .arrayBuffer blk.data := by
      have hsize : blk.size ≠ 0 := fun hsize => hblk (ByteBlock.size_eq_zero.1 hsize)
      rw [chunkValue, if_pos hsize]
      rfl
    rw [hvalue]
    refine iff_of_true ?_ (Or.inl hblk)
    cases reader with
    | arrayBuffer => rfl
    | text => rfl
    | json =>
      simp [ReaderPromise.outcome, BodyReader.reactions, BodyReader.expected, jsArraybufferTostring,
        jsonParse]

/-- After completion the generator is at its end, and no promise has been settled. -/
theorem receive_spec (chunks : List Bytes) :
    ∃ gen, receive ctx (requestNew .post ctx) chunks = some ⟨.post, some gen⟩ ∧ gen.ctx = ctx ∧
      Ended gen := by
  rcases @bodies_new ctx chunks with ⟨h, _⟩ | ⟨blk, n, m, h, _, _⟩
  · refine ⟨(generatorNew ctx).setClosing, ?_, rfl, ⟨rfl, Or.inl rfl, rfl, rfl⟩⟩
    rw [receive, h]
    rfl
  · let b : BodyGenerator := ⟨ctx, some (oneItem blk), .undefined, .toarraybuffer, n, m⟩
    obtain ⟨gen, hstop, hctx, hit, hexec, hcb⟩ := stop_oneItem b blk rfl .undefined
    refine ⟨gen, ?_, hctx, ⟨by rw [hit], Or.inl (by rw [hit]), hexec, by rw [hcb]; rfl⟩⟩
    rw [receive, h, Option.bind_some]
    simp only [httpBodyCompletion, gathered]
    rw [show generatorStop (BodyGenerator.mk ctx (some (oneItem blk)) .undefined .toarraybuffer
      n m).gen .undefined = some (gen, true) from hstop]
    rfl

theorem method_settlements {gen gen' : Generator} {req' : Request} {m : HttpMethod}
    {reader : BodyReader} {r : Option ReaderPromise}
    (h : minnetRequestMethod parse ⟨m, some gen⟩ reader = (req', r)) (hbody : req'.body = some gen') :
    gen'.ctx.settlements = gen.ctx.settlements := by
  obtain ⟨rfl, -⟩ := Prod.mk.inj h
  obtain rfl := Option.some.inj hbody
  rfl

theorem delivered_reads (chunks : List Bytes) (reader : BodyReader) (n : Nat) :
    Delivered parse ctx chunks (.reads reader n) ↔
      chunks.flatten ≠ [] ∨ reader = .json ∧ parse [] = none := by
  obtain ⟨req, gen, blk, hread, hbody, hdata, hs⟩ :=
    @readDuring_spec ctx parse chunks reader n
  rw [← hdata, ← @reader_outcome parse ctx.promises reader blk]
  refine ⟨?_, ?_⟩
  · intro h
    obtain ⟨req', r, gen', hread', hbody', s, hs', hout⟩ := h
    obtain ⟨rfl, hr⟩ := Prod.mk.inj (Option.some.inj (hread.symm.trans hread'))
    obtain rfl := Option.some.inj hr
    obtain rfl := Option.some.inj (hbody.symm.trans hbody')
    have heq := List.append_cancel_left (hs.symm.trans hs')
    obtain ⟨-, rfl⟩ := Prod.mk.inj (List.cons.inj heq).1
    exact hdata ▸ hout
  · intro hout
    exact ⟨req, _, gen, hread, hbody, _, hs, hdata ▸ hout⟩

theorem delivered_readsLate (chunks : List Bytes) (reader : BodyReader) :
    ¬ Delivered parse ctx chunks (.readsLate reader) := by
  intro h
  obtain ⟨req, r, gen', hread, hbody, s, hs, -⟩ := h
  obtain ⟨gen, hreceive, hctx, -⟩ := @receive_spec ctx chunks
  -- The reader's own promise would have to be settled, and the call settles nothing.
  rw [readAfter, hreceive] at hread
  have hsame := method_settlements (Option.some.inj hread) hbody
  rw [hs, hctx] at hsame
  have hlen := congrArg List.length hsame
  simp at hlen

theorem delivered_iterates (chunks : List Bytes) :
    Delivered parse ctx chunks .iterates ↔ chunks.flatten = [] := by
  obtain ⟨gen, hreceive, hctx, hended⟩ := @receive_spec ctx chunks
  refine ⟨?_, ?_⟩
  · intro h
    obtain ⟨req, gen', args, gen₁, before, p, v, hreceive', hbody, hrun, hs, hbefore, hbytes⟩ := h
    obtain rfl := Option.some.inj (hreceive.symm.trans hreceive')
    obtain rfl := Option.some.inj hbody
    obtain ⟨gen₂, tail, hrun', -, hs', -, htail⟩ := endedReads_spec args hended
    obtain rfl := Option.some.inj (hrun.symm.trans hrun')
    rw [hs, hctx, List.append_assoc] at hs'
    have hsplit := List.append_cancel_left hs'
    -- Everything the iterator reads is an empty last result, so nothing comes before one.
    cases before with
    | nil => exact hbytes.symm
    | cons e before =>
      have hdone := hbefore e List.mem_cons_self
      have hmem : e ∈ tail := by
        rw [← hsplit]
        exact List.mem_cons_self
      rw [htail e hmem] at hdone
      cases hdone
  · intro hnil
    obtain ⟨gen₁, hstep, -, hs⟩ := endedRead_spec hended .undefined
    refine ⟨_, gen, [.undefined], gen₁, [], gen.ctx.promises, .undefined, hreceive, rfl,
      PartialRun.run_cons_iff.2 ⟨gen₁, hstep, rfl⟩, ?_, ?_, hnil.symm⟩
    · rw [hs, hctx, List.append_nil]
      rfl
    · exact fun e he => absurd he List.not_mem_nil

/-- **When the body is delivered.** However it is split, a consumer gets the whole body once if
and only if it is a reader called before completion of a body that is not empty, or an iterator
over an empty one. (A `json()` of an empty body is rejected, as it should.) -/
theorem body_delivered_iff (parse : Bytes → Option JSValue) (ctx : JSContext)
    (chunks : List Bytes) (consumer : Consumer) :
    Delivered parse ctx chunks consumer ↔ DeliveryReady parse chunks consumer := by
  cases consumer with
  | reads reader n => exact delivered_reads chunks reader n
  | readsLate reader => exact iff_of_false (delivered_readsLate chunks reader) id
  | iterates => exact delivered_iterates chunks

/-- A body of one byte: the first result the handler of `onPost` reads is the last one, and the
promise of a `text()` called after completion is never settled. -/
theorem body_lost_after_completion :
    ((receive .new (requestNew .post .new) [[1]]).bind fun req => req.body.bind fun gen =>
      (readStep gen .undefined).map fun gen => gen.ctx.settlements) = some [(0, emptyLast)] ∧
    ¬ Delivered (fun _ => none) .new [[1]] .iterates ∧
    ((readAfter (fun _ => none) .new [[1]] .text).bind fun result =>
      result.1.body.map fun gen => gen.ctx.settlements) = some [] ∧
    ¬ Delivered (fun _ => none) .new [[1]] (.readsLate .text) := by
  refine ⟨rfl, ?_, rfl, delivered_readsLate _ _⟩
  intro h
  exact absurd ((delivered_iterates [[1]]).1 h) (by decide)

end QjsNet
