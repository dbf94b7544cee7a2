import QjsNet.Session

/- An HTTP session of the server (`minnet-server-http.c`).

   The body of a response comes from three producers: a synchronous or asynchronous
   iterator of the script, whose chunks go through the send queue, and the queue of
   the Response's own body. One writeable event writes at most one chunk.
   `session_queue` looks at the send queue first and at the body's queue when that is
   empty. The event asks it again and again, while it keeps the pointer it got first:
   a `QueuePtr` says which queue a pointer means, and `stale` is the queue of a response
   that the event has replaced.

   `none` is a failed assertion, a null queue that is dereferenced, or a read behind the
   data of a bound function. `lws_write` takes the whole buffer it is given. What
   `lws_callback_http_dummy` does with the end of a file is a parameter, and so are what
   the functions that write headers return and what an uninitialised `qsize` holds. The
   numbers the callbacks return to libwebsockets are left out, but for the one that
   `serve_response` returns to the event.

   Correspondence (C ↔ Lean):
     `session_queue`                   ↔ `sessionQueue`
     `js_iterator_next`, `js_buffer_from`, `js_buffer_new`
       ↔ `jsIteratorNext`, `jsBufferFrom`, `jsBufferNew`
     `serve_generator`, `serve_promise`, `serve_callback`
       ↔ `serveGenerator`, `servePromise`, `serveCallback`
     `serve_resolved`, `serve_rejected` ↔ `serveResolved`, `serveRejected`
     `serve_response`                  ↔ `serveResponse`
     `http_server_writeable`           ↔ `httpServerWriteable`
     `LWS_CALLBACK_HTTP_WRITEABLE`     ↔ `httpWriteable` -/
namespace QjsNet

/-- `LWS_WRITE_HTTP`, `LWS_WRITE_HTTP_FINAL` -/
def lwsWriteHttp : Int := 3
def lwsWriteHttpFinal : Int := 7

structure LwsHttp where
  h2 : Bool
  /-- How often `lws_callback_http_dummy` completes the transaction at the end of a file. -/
  fileCompletion : Nat
  /-- The value that a bound `next` reads behind its data (`jsFunctionBound`) can be read, and the
  iterators take no notice of it. -/
  boundNext : Bool
  deriving DecidableEq, Repr

/-- `{ value, done }`, as an iterator of the script gives it. -/
structure IterResult where
  value : JSValue
  done : Bool
  deriving DecidableEq, Repr

/-- An iterator: `next()` gives its results one after the other, `none` being an exception, or
it gives a promise. -/
inductive Producer where
  | sync (results : List (Option IterResult))
  | async
  deriving DecidableEq, Repr

inductive NextValue where
  | promise
  | exception
  | value (v : JSValue) (done : Bool)
  deriving DecidableEq, Repr

/-- What a call of the iterator's `next` gives. -/
def Producer.next : Producer → Producer × NextValue
  | .async => (.async, .promise)
  | .sync [] => (.sync [], .value .undefined true)
  | .sync (none :: results) => (.sync results, .exception)
  | .sync (some r :: results) => (.sync results, .value r.value r.done)

/-- The `next` of an object is called as a function that `js_function_bind_this` has made. -/
def jsIteratorNext (boundNext : Bool) (p : Producer) : Option (Producer × NextValue) :=
  if boundNext then some p.next else none

/-- The data of a string, a buffer or a view of one. -/
def jsBufferFrom : JSValue → Option Bytes
  | .string chars => some chars
  | .arrayBuffer data => some data
  | .typedArray buffer _ _ => some buffer
  | _ => none

/-- The data of a string or a buffer. -/
def jsBufferNew : JSValue → Option Bytes
  | .string chars => some chars
  | .arrayBuffer data => some data
  | _ => none

/-- What the headers of a Response say: its status, and whether there is a Location. -/
structure ResponseHead where
  status : Nat
  location : Bool
  deriving DecidableEq, Repr

structure HttpConnection extends Connection where
  waitResolve : Nat
  responseSent : Bool
  /-- `session->generator`, when it is an object. -/
  generator : Option Producer
  /-- The queue of the body of the Response in `session->resp_obj`. -/
  bodyq : Option Queue
  /-- `opaque->resp` is set. -/
  hasResp : Bool
  /-- The headers of that response. -/
  head : ResponseHead
  /-- How often the transaction has been completed. -/
  completed : Nat
  /-- The Content-Length in the headers, when they have one. -/
  announced : Option Nat
  deriving DecidableEq, Repr

/-- After `session_init`. -/
def HttpConnection.fresh (ctx : JSContext) : HttpConnection where
  toConnection := .fresh ctx
  waitResolve := 0
  responseSent := false
  generator := none
  bodyq := none
  hasResp := false
  head := ⟨200, false⟩
  completed := 0
  announced := none

namespace HttpConnection

def setSendq (c : HttpConnection) (q : Queue) : HttpConnection :=
  { c with session := { c.session with sendq := q } }

/-- `session_want_write(session, wsi);` -/
def wantWrite (c : HttpConnection) : HttpConnection :=
  { c with toConnection := sessionWantWrite c.toConnection }

/-- `session->want_write = FALSE;` -/
def clearWantWrite (c : HttpConnection) : HttpConnection :=
  { c with session := { c.session with wantWrite := false } }

/-- A writeable event arrives: the request it answers is used up. -/
def woken (c : HttpConnection) : HttpConnection := { c with toConnection := c.toConnection.wake }

/-- `lws_http_transaction_completed(wsi);`, `n` times. -/
def complete (c : HttpConnection) (n : Nat) : HttpConnection := { c with completed := c.completed + n }

end HttpConnection

/-! ## Pointers to queues -/

inductive QueuePtr where
  | null
  | sendq
  | body
  | stale (q : Queue)

def sessionQueue (c : HttpConnection) : QueuePtr :=
  if c.session.sendq.size ≠ 0 then .sendq
  else if c.bodyq.isSome then .body
  else .null

def HttpConnection.deref (c : HttpConnection) : QueuePtr → Option Queue
  | .null => none
  | .sendq => some c.session.sendq
  | .body => c.bodyq
  | .stale q => some q

/-- Change the queue behind a pointer. -/
def HttpConnection.store (c : HttpConnection) (p : QueuePtr) (q : Queue) : HttpConnection :=
  match p with
  | .sendq => c.setSendq q
  | .body => { c with bodyq := some q }
  | .null | .stale _ => c

/-- `queue_close(p);` -/
def HttpConnection.closeAt (c : HttpConnection) (p : QueuePtr) : Option HttpConnection := do
  let q ← c.deref p
  let (q, _) ← queueClose q
  some (c.store p q)

/-! ## The producers -/

def servePromise (c : HttpConnection) : HttpConnection := { c with waitResolve := c.waitResolve + 1 }

/-- The turn of the loop in `serve_generator`, and whether the iterator is done. -/
def generatorTurn (lws : LwsHttp) (c : HttpConnection) : Option (HttpConnection × Bool) :=
  match c.generator with
  | none => some (c, true)
  | some p => do
    let (p, ret) ← jsIteratorNext lws.boundNext p
    let c := { c with generator := some p }
    match ret with
    | .promise => some (servePromise c, false)
    | .exception => some (c, true)
    | .value v done =>
      match jsBufferFrom v with
      | some data => some (c.setSendq (queueWrite c.session.sendq data).1, done)
      | none => some (c, done)

def serveGenerator (lws : LwsHttp) (c : HttpConnection) : Option (HttpConnection × Bool) :=
  if c.waitResolve ≠ 0 || queueComplete c.session.sendq then none
  else do
    let (c, done) ← generatorTurn lws c
    some (if c.waitResolve = 0 && (queueBytes c.session.sendq ≠ 0 || done) then c.wantWrite else c,
      done)

/-- A fulfilled promise with an iterator result. -/
def serveResolved (c : HttpConnection) (r : IterResult) : Option HttpConnection :=
  if c.waitResolve = 0 then none
  else do
    let c := { c with waitResolve := c.waitResolve - 1 }
    let c := match jsBufferNew r.value with
      | some data => (c.setSendq (queueWrite c.session.sendq data).1).wantWrite
      | none => c
    if r.done then
      let (q, _) ← queueClose c.session.sendq
      some (c.setSendq q).wantWrite
    else some c

/-- What the handler of a mount returned. -/
inductive HandlerResult where
  | sync
  | async
  | generator (p : Producer)
  deriving DecidableEq, Repr

def serveCallback (lws : LwsHttp) (c : HttpConnection) : HandlerResult → Option HttpConnection
  | .sync => some c.wantWrite
  | .async => some (servePromise c)
  | .generator p => do
    let (c, _) ← serveGenerator lws { c with generator := some p }
    some c

/-! ## A writeable event -/

/-- What the functions of libwebsockets that write headers return in an event: `lws_http_redirect`,
and whether `lws_add_http_common_headers` and `lws_finalize_write_http_header` fail. -/
structure HeaderWrites where
  redirect : Int
  commonFails : Bool
  finalizeFails : Bool
  deriving DecidableEq, Repr

/-- All headers are written. A redirect returns how many bytes it has written. -/
def HeaderWrites.good : HeaderWrites := ⟨1, false, false⟩

def ResponseHead.redirects (head : ResponseHead) : Bool := 300 ≤ head.status && head.status ≤ 399

/-- `opaque->resp`, or a new response without a body. -/
def HttpConnection.withResponse (c : HttpConnection) : HttpConnection :=
  if c.hasResp then c else { c with bodyq := none, hasResp := true, head := ⟨200, false⟩ }

/-- A new response takes the place of the one whose queue the pointer may point to. -/
def HttpConnection.pointer (c : HttpConnection) (p : QueuePtr) : QueuePtr :=
  match p, c.hasResp, c.bodyq with
  | .body, false, some q => .stale q
  | p, _, _ => p

/-- `serve_response`, and what it returns. -/
def serveResponse (headers : HeaderWrites) (c : HttpConnection) (p : QueuePtr) :
    HttpConnection × QueuePtr × Nat :=
  if c.responseSent then (c, p, 0)
  else
    let p := c.pointer p
    let c := c.withResponse
    if c.head.redirects && c.head.location && headers.redirect ≠ 0 then (c, p, 1)
    else if !c.head.redirects && headers.commonFails then (c, p, 1)
    else if headers.finalizeFails then (c, p, 2)
    else
      let announced := if c.head.redirects then none
        else (c.deref (sessionQueue c)).bind fun q =>
          if queueComplete q then some (queueBytes q) else none
      ({ c with responseSent := true, announced }, p, 0)

/-- The writes of one chunk; `complete` says whether the queue it was taken from is. -/
def bodyWrites (h2 complete : Bool) (n : Int) : Nat → Bytes → List LwsWrite
  | 0, _ => []
  | fuel + 1, rest =>
    if rest.length > 0 then
      let l := if h2 then (if rest.length > 1024 then 1024 else rest.length) else rest.length
      let wp := if complete && rest.length = l then lwsWriteHttpFinal else n
      ⟨rest.take l, wp⟩ :: bodyWrites h2 complete n fuel (rest.drop l)
    else []

/-- Each write takes at least one byte. -/
def writeChunk (lws : LwsHttp) (c : HttpConnection) (complete : Bool) (n : Int) (chunk : Bytes) :
    HttpConnection :=
  { c with wsi := { c.wsi with
      written := c.wsi.written ++ bodyWrites lws.h2 complete n chunk.length chunk } }

def httpServerWriteable (lws : LwsHttp) (c : HttpConnection) (done : Bool) :
    Option (HttpConnection × Bool) := do
  let p := sessionQueue c
  let q ← c.deref p
  let n := if done then lwsWriteHttpFinal else lwsWriteHttp
  let (c, done) :=
    if queueBytes q ≠ 0 then
      let (q, ctx, buf, done, _) := queueNext q c.ctx
      (writeChunk lws { c.store p q with ctx } (queueComplete q) n buf.data, done)
    else (c, true)
  let q ← c.deref p
  -- the call that asked for the next event here is a comment in the source
  some (if done || queueClosed q then (c.complete 1, true) else (c, false))

/-- The first part of the event: an empty queue is filled by the generator. `qsize` is left as
it was when there is no queue. -/
def fillQueue (lws : LwsHttp) (c : HttpConnection) (p : QueuePtr) (qsize : Nat) :
    Option (HttpConnection × QueuePtr × Nat) :=
  -- `qsize` is a `uint32_t`
  let size := (c.deref p).elim qsize fun q => queueBytes q % 2 ^ 32
  if ((c.deref p).all fun q => queueBytes q % 2 ^ 32 = 0 && !(queueClosed q || queueComplete q))
      && c.waitResolve = 0 then do
    let (c, done) ← serveGenerator lws c
    -- only when the generator is done is the queue asked for again
    let p := if done then sessionQueue c else p
    if done && (c.deref p).isSome then
      let c ← c.closeAt p
      some (c, p, size)
    else some (c, p, size)
  else some (c, p, size)

/-- The second part writes, and ends the response when all is written. -/
def writeBody (lws : LwsHttp) (c : HttpConnection) (p : QueuePtr) : Option HttpConnection :=
  match c.deref p with
  | none => some c
  | some q => do
    let (c, completed) ← httpServerWriteable lws c (queueClosed q)
    if completed then
      let c := c.complete lws.fileCompletion
      let q ← c.deref p
      -- the file handler has run before; the queue may still hold its end
      some (if q.size = 0 then c.complete 1 else c)
    else some c

/-- The last part asks the generator for the next chunk, when something was written. -/
def refill (lws : LwsHttp) (c : HttpConnection) (p : QueuePtr) (qsize : Nat) :
    Option HttpConnection :=
  if qsize ≠ 0 && !c.session.wantWrite then do
    let q ← c.deref p
    if !(queueClosed q || queueComplete q) && c.waitResolve = 0 then
      let (c, done) ← serveGenerator lws c
      if done then c.closeAt p else some c
    else some c
  else some c

def httpWriteable (lws : LwsHttp) (headers : HeaderWrites) (qsize : Nat) (c : HttpConnection) :
    Option HttpConnection :=
  let p := sessionQueue c
  if !c.session.wantWrite && !(c.deref p).any queueComplete then some c
  else
    let c := c.wantWrite.clearWantWrite
    let (c, p, ret) := serveResponse headers c p
    -- the event returns, and nothing asks for another one
    if ret ≠ 0 then some c
    else do
      let (c, p, qsize) ← fillQueue lws c p qsize
      let c ← writeBody lws c p
      refill lws c p qsize

/-! ## Pointers -/

variable {c c' : HttpConnection}

theorem sessionQueue_sendq (h : c.session.sendq.items ≠ []) : sessionQueue c = .sendq := by
  have hsize : c.session.sendq.size ≠ 0 := by
    rw [c.session.sendq.size_eq]
    exact fun hlen => h (List.length_eq_zero_iff.1 hlen)
  rw [sessionQueue, if_pos hsize]

theorem sessionQueue_empty (h : c.session.sendq.items = []) :
    sessionQueue c = if c.bodyq.isSome then .body else .null := by
  have hsize : ¬ c.session.sendq.size ≠ 0 := by
    rw [c.session.sendq.size_eq, h]
    exact fun hne => hne rfl
  rw [sessionQueue, if_neg hsize]

theorem deref_sessionQueue {q : Queue} (h : c.deref (sessionQueue c) = some q) :
    (sessionQueue c = .sendq ∧ c.session.sendq = q ∧ q.items ≠ []) ∨
      (sessionQueue c = .body ∧ c.bodyq = some q ∧ c.session.sendq.items = []) := by
  by_cases hitems : c.session.sendq.items = []
  · rw [sessionQueue_empty hitems] at h ⊢
    split at h
    · next hbody => exact Or.inr ⟨if_pos hbody, h, hitems⟩
    · cases h
  · rw [sessionQueue_sendq hitems] at h ⊢
    obtain rfl := Option.some.inj h
    exact Or.inl ⟨rfl, rfl, hitems⟩

theorem queueBytes_ne_zero {q : Queue} (h : queueBytes q ≠ 0) : ∃ i is, q.items = i :: is := by
  cases hitems : q.items with
  | nil =>
    rw [queueBytes_eq, hitems] at h
    exact absurd rfl h
  | cons i is => exact ⟨i, is, rfl⟩

@[simp] theorem wantWrite_sendq' : c.wantWrite.session.sendq = c.session.sendq :=
  wantWrite_sendq

@[simp] theorem wantWrite_set' : c.wantWrite.session.wantWrite = true := wantWrite_set

/-! ## The generator -/

/-- The next value has no data, and more may follow. -/
def HttpConnection.Silent (c : HttpConnection) : Prop :=
  ∃ v results, c.generator = some (.sync (some ⟨v, false⟩ :: results)) ∧ jsBufferFrom v = none

variable {lws : LwsHttp}

theorem jsIteratorNext_iff {boundNext : Bool} {p : Producer} {r : Producer × NextValue} :
    jsIteratorNext boundNext p = some r ↔ boundNext = true ∧ r = p.next := by
  unfold jsIteratorNext
  rw [Option.ite_none_right_eq_some, Option.some.injEq, eq_comm (a := p.next)]

/-- What one turn of the generator can do: a promise is pending, or it is done, or the send
queue has one more item, or nothing happened. -/
theorem generatorTurn_cases {r : HttpConnection × Bool} (h : generatorTurn lws c = some r) :
    ∃ g, (r = (servePromise { c with generator := g }, false)) ∨
      (∃ q, r = ({ c with generator := g }.setSendq q, true)) ∨
      (∃ data, r = ({ c with generator := g }.setSendq (queueWrite c.session.sendq data).1, false)) ∨
      (r = ({ c with generator := g }, false) ∧ c.Silent) := by
  unfold generatorTurn at h
  cases hg : c.generator with
  | none =>
    rw [hg] at h
    obtain rfl := Option.some.inj h
    refine ⟨none, Or.inr (Or.inl ⟨c.session.sendq, ?_⟩)⟩
    simp only [HttpConnection.setSendq, ← hg]
  | some p =>
    rw [hg] at h
    obtain ⟨⟨p', ret⟩, hnext, h⟩ := Option.bind_eq_some_iff.1 h
    obtain ⟨-, hret⟩ := jsIteratorNext_iff.1 hnext
    refine ⟨some p', ?_⟩
    cases p with
    | async =>
      obtain ⟨rfl, rfl⟩ := Prod.mk.inj hret
      exact Or.inl (Option.some.inj h).symm
    | sync results =>
      cases results with
      | nil =>
        obtain ⟨rfl, rfl⟩ := Prod.mk.inj hret
        exact Or.inr (Or.inl ⟨c.session.sendq, (Option.some.inj h).symm⟩)
      | cons r results =>
        cases r with
        | none =>
          obtain ⟨rfl, rfl⟩ := Prod.mk.inj hret
          exact Or.inr (Or.inl ⟨c.session.sendq, (Option.some.inj h).symm⟩)
        | some r =>
          obtain ⟨v, done⟩ := r
          obtain ⟨rfl, rfl⟩ := Prod.mk.inj hret
          dsimp only at h
          cases hv : jsBufferFrom v with
          | none =>
            rw [hv] at h
            obtain rfl := Option.some.inj h
            cases done with
            | true => exact Or.inr (Or.inl ⟨c.session.sendq, rfl⟩)
            | false => exact Or.inr (Or.inr (Or.inr ⟨rfl, v, results, hg, hv⟩))
          | some data =>
            rw [hv] at h
            obtain rfl := Option.some.inj h
            cases done with
            | true => exact Or.inr (Or.inl ⟨_, rfl⟩)
            | false => exact Or.inr (Or.inr (Or.inl ⟨data, rfl⟩))

end QjsNet
