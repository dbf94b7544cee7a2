import QjsNet.ClientIterator
import QjsNet.ClientUpload
import QjsNet.CloseFrame

/- How the script learns that a client's connection has begun, and that it has ended
   (`client_callback`, the cases of closing, `LWS_CALLBACK_CLIENT_ESTABLISHED` and
   `LWS_CALLBACK_WSI_DESTROY`).

   A client that is not blocking is asked for with a promise. When the connection ends, the
   first read of its iterator gets the last result, and nothing else is done; only when no
   read waits is the promise rejected and the handler called. The iterator is not marked as
   ended, so what comes later is handed on as before.

   The library reports an error of the connection only before it is established, and it is
   established at most once. The script has the client from then on. `none` is an event in
   any other state. The promise and the handlers have a context of their own here. The
   callback's return value is left out.

   What is proved:
     1. `reads_answered` — in every interleaving with messages and reads, the `k`-th read is
        settled by the `k`-th message or end that goes to a read; an end goes to a read
        exactly when one waits, and the handler is called with it otherwise;
     2. `end_told_iff` — when some read learns that the connection has ended;
     3. `connect_settled` — the promise is settled once, by the first event that can.

   Correspondence (C ↔ Lean):
     `minnet_client_closure` (promise and handlers)  ↔ `ClientConnection.connect`
     `client_callback` (closing)                     ↔ `clientClosing`
     its `context.error`, `atoi`                     ↔ `clientError`, `atoi`
     its `asynciterator_emplace` and `_throw`        ↔ `closeIterator`
     `LWS_CALLBACK_CLIENT_ESTABLISHED`, `..._RAW_CONNECTED` ↔ `clientEstablished`
     `LWS_CALLBACK_WSI_DESTROY`                      ↔ `clientDestroy`
     `js_async_pending`                              ↔ `jsAsyncPending` -/
namespace QjsNet

open PartialRun

inductive CloseReason where
  | clientClosed
  | rawClose
  | wsPeerInitiatedClose
  | clientConnectionError
  deriving DecidableEq, Repr

/-- A client as its script is told about it. The functions of the handlers whose context is set. -/
structure ClientConnection where
  status : SocketState
  promise : ResolveFunctions
  error : JSValue
  wsObj : JSValue
  reqObj : JSValue
  respObj : JSValue
  onConnect : Option JSValue
  onClose : Option JSValue
  onError : Option JSValue
  ctx : JSContext
  deriving DecidableEq, Repr

/-- With the handlers of the options, or else the functions of the promise. -/
def ClientConnection.connect (ctx : JSContext) (onConnect onClose : Option JSValue) :
    ClientConnection :=
  let (ctx, promise, _) := jsAsyncCreate ctx
  { status := .CONNECTING, promise, error := .null, wsObj := .null, reqObj := .null,
    respObj := .null, onConnect := some (onConnect.getD promise.resolve),
    onClose := some (onClose.getD promise.reject), onError := none, ctx }

def jsAsyncPending (funcs : ResolveFunctions) : Bool :=
  !(decide (funcs.resolve = .null) && decide (funcs.reject = .null))

/-- A number that fits an `int`. -/
def atoi (s : Bytes) : Int :=
  let (minus, x) := takeSign (s.dropWhile isspace)
  let n : Int := digitsValue (x.takeWhile isdigit)
  if minus then -n else n

/-- `"conn fail: "` -/
def connFail : Bytes := [99, 111, 110, 110, 32, 102, 97, 105, 108, 58, 32]

/-- `client->context.error` and `err`. -/
def clientError (strerror : Int → Bytes) (reason : CloseReason) (input : Option Bytes) :
    JSValue × Int :=
  match reason, input with
  | .clientConnectionError, some msg =>
    if connFail.isPrefixOf msg then
      let err := atoi (msg.drop 11)
      (.string (strerror err), err)
    else (.string msg, -1)
  | _, _ => (.undefined, -1)

/-- The iterator, and whether a read has learnt of the end. -/
def closeIterator (gen : Generator) (reason : CloseReason) (error : JSValue) : Generator × Bool :=
  let (it, ctx, ended) :=
    if reason ≠ .clientConnectionError then asynciteratorEmplace gen.iterator .null true gen.ctx
    else (gen.iterator, gen.ctx, false)
  if ended then ({ gen with iterator := it, ctx }, true)
  else
    let (it, ctx, thrown) := asynciteratorThrow it error ctx
    ({ gen with iterator := it, ctx }, thrown)

def ClientConnection.closeArgs (c : ClientConnection) (reason : CloseReason) (err : Int)
    (input : Option Bytes) : Option (List JSValue) :=
  if reason = .clientConnectionError then
    some [c.wsObj, .undefined, c.error, if err ≠ -1 then .int err else .undefined]
  else clientCloseArgs c.wsObj input

/-- `client->on.error` or `client->on.close` -/
def ClientConnection.closeHandler (c : ClientConnection) (reason : CloseReason) : Option JSValue :=
  if reason = .clientConnectionError then c.onError else c.onClose

def ClientConnection.tell (c : ClientConnection) (reason : CloseReason) (err : Int)
    (input : Option Bytes) : Option ClientConnection :=
  match c.closeHandler reason with
  | none => some c
  | some fn => do
    let args ← c.closeArgs reason err input
    some { c with ctx := jsCall c.ctx fn args }

def ClientConnection.reject (c : ClientConnection) : ClientConnection :=
  if jsAsyncPending c.promise then
    let (ctx, promise, _) := jsAsyncReject c.ctx c.promise c.error
    { c with ctx, promise }
  else c

def clientClosing (strerror : Int → Bytes) (c : ClientConnection) (gen : Option Generator)
    (reason : CloseReason) (input : Option Bytes) :
    Option (ClientConnection × Option Generator) := do
  let (error, err) := clientError strerror reason input
  -- `LWS_CALLBACK_CLIENT_CLOSED` sets `CLOSED` before it falls through to this
  let c := { c with error, status := .CLOSING }
  match gen with
  | some gen =>
    let (gen, heard) := closeIterator gen reason error
    if heard then some (c, some gen)
    else (c.reject.tell reason err input).map (·, some gen)
  | none => (c.reject.tell reason err input).map (·, none)

def ClientConnection.resolve (c : ClientConnection) (cli : JSValue) : ClientConnection :=
  if jsAsyncPending c.promise then
    let (ctx, promise, _) := jsAsyncResolve c.ctx c.promise cli
    { c with ctx, promise }
  else c

/-- `cli` and `req` are the new objects of the client and its request. -/
def clientEstablished (c : ClientConnection) (raw : Bool) (ws cli req : JSValue) :
    ClientConnection :=
  let wsObj := if c.wsObj.isObject then c.wsObj else ws
  let c := { c with status := .OPEN, wsObj }.resolve cli
  match c.onConnect with
  | none => c
  | some fn =>
    let c := if raw then c else { c with reqObj := req }
    { c with ctx := jsCall c.ctx fn [c.wsObj, c.reqObj, c.respObj] }

/-- An error that is `undefined` rejects, and any other value resolves. -/
def clientDestroy (c : ClientConnection) : ClientConnection :=
  let (ctx, promise, _) :=
    if c.error = .undefined then jsAsyncReject c.ctx c.promise c.error
    else jsAsyncResolve c.ctx c.promise c.error
  { c with ctx, promise, error := .undefined }

/-! ## The system -/

/-- A client with the reads of its iterator, and what has come for them: the messages that went to
the generator, and the ends that a read waited for. -/
structure ClientLife where
  io : IterLink
  conn : ClientConnection
  answers : List Answer

inductive ClientLifeEvent where
  | io (e : IterLinkEvent)
  | established (raw : Bool) (ws cli req : JSValue)
  | closing (reason : CloseReason) (input : Option Bytes)
  | destroy
  | setHandlers (onConnect onClose onError : Option JSValue)
  deriving DecidableEq, Repr

/-- The messages that an event has given to the generator. -/
def IterLink.gained (s s' : IterLink) : List Answer :=
  (s'.link.client.iterated.drop s.link.client.iterated.length).map Answer.message

/-- The promise of the read of the iterator that waits first. -/
def oldestRead (gen : Option Generator) : Option Nat :=
  gen.bind fun gen => gen.iterator.reads.head?.map (·.capability)

/-- A read of the iterator waits. -/
def ClientLife.waits (s : ClientLife) : Bool := (oldestRead s.io.link.client.gen).isSome

def clientLifeStep (strerror : Int → Bytes) (s : ClientLife) : ClientLifeEvent → Option ClientLife
  | .io e =>
    if e = .iterate ∧ s.conn.status = .CONNECTING then none
    else do
      let io ← iterLinkStep s.io e
      some { s with io, answers := s.answers ++ s.io.gained io }
  | .established raw ws cli req =>
    if s.conn.status = .CONNECTING then
      some { s with conn := clientEstablished s.conn raw ws cli req }
    else none
  | .closing reason input =>
    if reason = .clientConnectionError ∧ s.conn.status ≠ .CONNECTING then none
    else do
      let (conn, gen) ← clientClosing strerror s.conn s.io.link.client.gen reason input
      let link ← serverLinkStep s.io.link (.script gen s.io.link.client.onMessage)
      let answers := if s.waits then s.answers ++ [.last] else s.answers
      some ⟨{ s.io with link }, conn, answers⟩
  | .destroy => some { s with conn := clientDestroy s.conn }
  | .setHandlers onConnect onClose onError =>
    some { s with conn := { s.conn with onConnect, onClose, onError } }

def ClientLife.fresh (buffering : Option Nat) (binary : Bool) (onMessage : Option JSValue)
    (wsObj : JSValue) (ctx : JSContext) (conn : ClientConnection) : ClientLife :=
  ⟨.fresh buffering binary onMessage wsObj ctx, conn, []⟩

def ClientLifeEvent.isClosing : ClientLifeEvent → Bool
  | .closing _ _ => true
  | _ => false

/-- The handler that is set is called, if one is. -/
def ClientConnection.Emits (c : ClientConnection) (reason : CloseReason) (err : Int)
    (input : Option Bytes) (calls : List Call) : Prop :=
  match c.closeHandler reason with
  | none => calls = []
  | some fn => ∃ args, c.closeArgs reason err input = some args ∧ calls = [⟨fn, args⟩]

/-- The rejection of a promise that waits. -/
def ClientConnection.rejection (c : ClientConnection) : List Call :=
  if c.promise.reject.isNullish then [] else [⟨c.promise.reject, [c.error]⟩]

/-- How an end of the connection is told. The read that waits first is given the last result, and
nothing else is done. When none waits, the promise of the connection is rejected if it still
waits, and the handler that is set is called. -/
def ClientLife.HearsEnd (strerror : Int → Bytes) (s : ClientLife) (reason : CloseReason)
    (input : Option Bytes) (s' : ClientLife) : Prop :=
  match oldestRead s.io.link.client.gen with
  | some p => s'.conn.ctx = s.conn.ctx ∧ ∃ gen gen', s.io.link.client.gen = some gen ∧
      s'.io.link.client.gen = some gen' ∧
      gen'.ctx = jsCall gen.ctx (.resolve p) [.iteratorResult .null true]
  | none => s'.io.link.client.gen = s.io.link.client.gen ∧
      let conn := { s.conn with error := (clientError strerror reason input).1 }
      ∃ calls, conn.Emits reason (clientError strerror reason input).2 input calls ∧
        s'.conn.ctx.log = s.conn.ctx.log ++ conn.rejection ++ calls

variable {strerror : Int → Bytes} {c c' : ClientConnection} {gen : Generator}
  {reason : CloseReason} {input : Option Bytes} {error : JSValue} {err : Int}

/-! ## The promise -/

theorem reject_ofPromise {p : Nat} (h : c.promise = .ofPromise p) :
    c.reject = { c with ctx := jsCall c.ctx (.reject p) [c.error], promise := .zero } := by
  have hpending : jsAsyncPending (.ofPromise p) = true := rfl
  unfold ClientConnection.reject
  rw [h, if_pos hpending, jsAsyncReject_ofPromise]

theorem reject_zero (h : c.promise = .zero) : c.reject = c := by
  unfold ClientConnection.reject
  rw [h, if_neg (by decide)]

theorem resolve_ofPromise {p : Nat} (h : c.promise = .ofPromise p) (cli : JSValue) :
    c.resolve cli = { c with ctx := jsCall c.ctx (.resolve p) [cli], promise := .zero } := by
  have hpending : jsAsyncPending (.ofPromise p) = true := rfl
  unfold ClientConnection.resolve
  rw [h, if_pos hpending, jsAsyncResolve_ofPromise]

theorem resolve_zero (h : c.promise = .zero) (cli : JSValue) : c.resolve cli = c := by
  unfold ClientConnection.resolve
  rw [h, if_neg (by decide)]

@[simp] theorem reject_status (c : ClientConnection) : c.reject.status = c.status := by
  unfold ClientConnection.reject
  split <;> rfl

@[simp] theorem resolve_status (c : ClientConnection) (cli : JSValue) :
    (c.resolve cli).status = c.status := by
  unfold ClientConnection.resolve
  split <;> rfl

theorem reject_emits {calls : List Call} :
    c.reject.Emits reason err input calls ↔ c.Emits reason err input calls := by
  unfold ClientConnection.reject
  split <;> exact Iff.rfl

theorem reject_log (c : ClientConnection) : c.reject.ctx.log = c.ctx.log ++ c.rejection := by
  unfold ClientConnection.reject ClientConnection.rejection jsAsyncReject
  by_cases hnull : c.promise.reject.isNullish = true
  · simp only [hnull, if_true, List.append_nil]
    split <;> rfl
  · have hpending : jsAsyncPending c.promise = true := by
      by_contra hidle
      simp only [jsAsyncPending, Bool.not_eq_true', Bool.not_eq_false, Bool.and_eq_true,
        decide_eq_true_eq] at hidle
      exact hnull (hidle.2 ▸ rfl)
    simp only [hnull, hpending, if_true]
    rfl

/-! ## The end of a connection -/

theorem closeIterator_idle (hreads : gen.iterator.reads = []) :
    closeIterator gen reason error = (gen, false) := by
  unfold closeIterator
  rw [emplace_nil hreads]
  simp [asynciteratorThrow, hreads]

theorem closeIterator_waits {rd : AsyncRead} {reads : List AsyncRead}
    (hreason : reason ≠ .clientConnectionError) (hreads : gen.iterator.reads = rd :: reads) :
    closeIterator gen reason error =
      ({ gen with
        iterator := { gen.iterator with reads }
        ctx := jsCall gen.ctx (.resolve rd.capability) [.iteratorResult .null true] }, true) := by
  unfold closeIterator
  rw [if_pos hreason, emplace_cons hreads]
  rfl

/-- `c'` is `c` after its handler was called. -/
structure Tells (reason : CloseReason) (err : Int) (input : Option Bytes)
    (c c' : ClientConnection) : Prop where
  status : c'.status = c.status
  promise : c'.promise = c.promise
  called : ∃ calls, c.Emits reason err input calls ∧ c'.ctx.log = c.ctx.log ++ calls

theorem tell_tells (h : c.tell reason err input = some c') : Tells reason err input c c' := by
  unfold ClientConnection.tell at h
  cases hhandler : c.closeHandler reason with
  | none =>
    rw [hhandler] at h
    obtain rfl := Option.some.inj h
    refine ⟨rfl, rfl, [], ?_, (List.append_nil _).symm⟩
    rw [ClientConnection.Emits, hhandler]
  | some fn =>
    rw [hhandler] at h
    obtain ⟨args, hargs, h⟩ := Option.bind_eq_some_iff.1 h
    obtain rfl := Option.some.inj h
    refine ⟨rfl, rfl, [⟨fn, args⟩], ?_, rfl⟩
    rw [ClientConnection.Emits, hhandler]
    exact ⟨args, hargs, rfl⟩

/-- What the closing case does, when no error of the connection comes while a read waits. -/
inductive Closes (strerror : Int → Bytes) (reason : CloseReason) (input : Option Bytes)
    (c c' : ClientConnection) : Option Generator → Option Generator → Prop where
  | read (gen : Generator) (rd : AsyncRead) (reads : List AsyncRead) :
      gen.iterator.reads = rd :: reads →
      c' = { c with error := (clientError strerror reason input).1, status := .CLOSING } →
      Closes strerror reason input c c' (some gen) (some { gen with
        iterator := { gen.iterator with reads }
        ctx := jsCall gen.ctx (.resolve rd.capability) [.iteratorResult .null true] })
  | others (gen? : Option Generator) : oldestRead gen? = none →
      Tells reason (clientError strerror reason input).2 input
        ({ c with error := (clientError strerror reason input).1,
                  status := .CLOSING } : ClientConnection).reject c' →
      Closes strerror reason input c c' gen? gen?

theorem oldestRead_cons {rd : AsyncRead} {reads : List AsyncRead}
    (hreads : gen.iterator.reads = rd :: reads) : oldestRead (some gen) = some rd.capability := by
  simp [oldestRead, hreads]

theorem oldestRead_nil (hreads : gen.iterator.reads = []) : oldestRead (some gen) = none := by
  simp [oldestRead, hreads]

theorem clientClosing_closes {gen? gen?' : Option Generator}
    (hlate : reason = .clientConnectionError → gen? = none)
    (h : clientClosing strerror c gen? reason input = some (c', gen?')) :
    Closes strerror reason input c c' gen? gen?' := by
  unfold clientClosing at h
  cases gen? with
  | none =>
    obtain ⟨c₁, htell, heq⟩ := Option.map_eq_some_iff.1 h
    obtain ⟨rfl, rfl⟩ := Prod.mk.inj heq
    exact .others none rfl (tell_tells htell)
  | some gen =>
    simp only at h
    cases hreads : gen.iterator.reads with
    | nil =>
      rw [closeIterator_idle hreads] at h
      obtain ⟨c₁, htell, heq⟩ := Option.map_eq_some_iff.1 h
      obtain ⟨rfl, rfl⟩ := Prod.mk.inj heq
      exact .others (some gen) (oldestRead_nil hreads) (tell_tells htell)
    | cons rd reads =>
      have hreason : reason ≠ .clientConnectionError := fun heq => nomatch hlate heq
      rw [closeIterator_waits hreason hreads] at h
      obtain ⟨rfl, rfl⟩ := Prod.mk.inj (Option.some.inj h)
      exact .read gen rd reads hreads rfl

theorem Closes.status {gen? gen?' : Option Generator}
    (h : Closes strerror reason input c c' gen? gen?') : c'.status = .CLOSING := by
  cases h with
  | read gen rd reads _ hc' => rw [hc']
  | others _ _ htells => exact htells.status.trans (reject_status _)

theorem clientEstablished_tells (c : ClientConnection) (raw : Bool) (ws cli req : JSValue) :
    ∃ (wsObj : JSValue) (c₁ : ClientConnection),
      c₁ = ({ c with status := .OPEN, wsObj } : ClientConnection).resolve cli ∧
      (clientEstablished c raw ws cli req).status = c₁.status ∧
      (clientEstablished c raw ws cli req).promise = c₁.promise ∧
      ∃ new, (clientEstablished c raw ws cli req).ctx.settlements = c₁.ctx.settlements ++ new := by
  refine ⟨if c.wsObj.isObject then c.wsObj else ws, _, rfl, ?_⟩
  unfold clientEstablished
  simp only
  generalize ({ c with status := .OPEN, wsObj := if c.wsObj.isObject then c.wsObj else ws } :
    ClientConnection).resolve cli = c₁
  split
  · exact ⟨rfl, rfl, [], (List.append_nil _).symm⟩
  · cases raw <;> exact ⟨rfl, rfl, _, settlements_jsCall ..⟩

theorem ClientIterates.close {m m' : MinnetClient} {asked : List Nat} {answers : List Answer}
    {gen?' : Option Generator} (h : ClientIterates m asked answers)
    (hcloses : Closes strerror reason input c c' m.gen gen?') (hgen' : m'.gen = gen?')
    (hhanded : m'.handed = m.handed) :
    ClientIterates m' asked
      (if (oldestRead m.gen).isSome then answers ++ [.last] else answers) := by
  generalize hgen : m.gen = gen? at hcloses
  cases hcloses with
  | others gen? hidle _ =>
    rw [hidle]
    exact h.congr (hgen'.trans hgen.symm) hhanded
  | read gen rd reads hreads _ =>
    rw [oldestRead_cons hreads, Option.isSome_some, if_pos rfl]
    cases h with
    | before hnone => exact nomatch hnone.symm.trans hgen
    | within gen₁ given earlier taken left hsome hit hcaught hgiven hanswers hothers hsplit =>
      obtain rfl : gen₁ = gen := Option.some.inj (hsome.symm.trans hgen)
      have hleft : left = [] := by
        refine List.map_eq_nil_iff.1 (hcaught.resolve_left ?_)
        rw [hreads]
        exact List.cons_ne_nil _ _
      have hit' := hit.emplace hreads .null true
      refine .within _ _ earlier (taken ++ [.last]) left hgen' hit' ?_
        (List.rel_append hgiven (.cons .last .nil)) ?_ hothers ?_
      · rw [hleft]
        exact Or.inr rfl
      · rw [hanswers, hleft, List.map_nil, List.append_nil, List.append_nil]
      · have hmessages : (answers ++ [Answer.last]).filterMap Answer.message?
            = answers.filterMap Answer.message? := by
          rw [List.filterMap_append]
          exact List.append_nil _
        rw [hhanded, hsplit, hmessages]

/-! ## One event -/

theorem iterLinkStep_none {s s' : IterLink} {e : IterLinkEvent} {a : Framing.Assembly Int UInt8}
    (h : ServerLinkInv s.link a) (hnone : s.link.client.gen = none) (he : e ≠ .iterate)
    (hstep : iterLinkStep s e = some s') : s'.link.client.gen = none := by
  cases e with
  | iterate => exact absurd rfl he
  | speak e =>
    obtain rfl := Option.some.inj hstep
    exact hnone
  | setOnMessage onMessage =>
    obtain rfl := Option.some.inj hstep
    exact hnone
  | next arg =>
    obtain ⟨gen, hgen, -⟩ := Option.bind_eq_some_iff.1 hstep
    exact nomatch hgen.symm.trans hnone
  | fragment n final =>
    obtain ⟨link, hlink, rfl⟩ := Option.map_eq_some_iff.1 hstep
    obtain ⟨⟨f, wire⟩, hnext, hrest⟩ := Option.bind_eq_some_iff.1 hlink
    obtain ⟨client, hreceive, hl⟩ := Option.bind_eq_some_iff.1 hrest
    obtain rfl := Option.some.inj hl
    rcases receive_handOver h.receives (h.whole.first hnext) hreceive with hsame | hover
    · exact hsame.1.trans hnone
    · obtain ⟨c₀, msg, hgen, -, hover⟩ := hover
      have hnone₀ : c₀.gen = none := hgen.trans hnone
      unfold MinnetClient.handOver at hover
      rw [hnone₀] at hover
      obtain rfl := Option.some.inj hover
      exact (emitMessage_gen c₀ msg).trans hnone₀

/-- What holds before the first end of the connection, and after it. -/
structure ClientLifeInv (s : ClientLife) (ended : Bool) : Prop where
  link : ∃ a, ServerLinkInv s.io.link a
  early : s.conn.status = .CONNECTING → s.io.link.client.gen = none
  closing : ended = true ↔ s.conn.status = .CLOSING
  open_ : s.conn.status ≠ .CLOSED

/-- What the reads of a client made without `buffering` have been given. -/
structure ReadsInv (s : ClientLife) : Prop where
  plain : s.io.buffering = none
  iterates : ClientIterates s.io.link.client s.io.asked s.answers

variable {s s' : ClientLife} {ended : Bool}

theorem ClientLifeInv.closes (h : ClientLifeInv s ended)
    (hstep : clientLifeStep strerror s (.closing reason input) = some s') :
    Closes strerror reason input s.conn s'.conn s.io.link.client.gen s'.io.link.client.gen ∧
      (∃ a, ServerLinkInv s'.io.link a) ∧ s'.io.buffering = s.io.buffering ∧
      s'.io.asked = s.io.asked ∧ s'.io.link.client.handed = s.io.link.client.handed ∧
      s'.answers = if s.waits then s.answers ++ [.last] else s.answers := by
  obtain ⟨hearly, hstep⟩ := Option.ite_none_left_eq_some.1 hstep
  obtain ⟨⟨conn, gen?'⟩, hclosing, hrest⟩ := Option.bind_eq_some_iff.1 hstep
  obtain ⟨link, hlink, hs'⟩ := Option.bind_eq_some_iff.1 hrest
  obtain rfl := Option.some.inj hs'
  have hlate : reason = .clientConnectionError → s.io.link.client.gen = none := by
    intro hreason
    exact h.early (Decidable.not_not.1 fun hopen => hearly ⟨hreason, hopen⟩)
  obtain ⟨a, ha⟩ := h.link
  have hlink' := serverLinkStep_inv ha hlink
  obtain rfl := Option.some.inj hlink
  exact ⟨clientClosing_closes hlate hclosing, hlink', rfl, rfl, rfl, rfl⟩

/-- **One event** keeps the state of the socket and the library. -/
theorem clientLifeStep_inv {e : ClientLifeEvent} (h : ClientLifeInv s ended)
    (hstep : clientLifeStep strerror s e = some s') :
    ClientLifeInv s' (ended || e.isClosing) := by
  cases e with
  | io e =>
    obtain ⟨hlate, hstep⟩ := Option.ite_none_left_eq_some.1 hstep
    obtain ⟨io, hio, hs'⟩ := Option.bind_eq_some_iff.1 hstep
    obtain rfl := Option.some.inj hs'
    obtain ⟨a, ha⟩ := h.link
    show ClientLifeInv _ (ended || false)
    rw [Bool.or_false]
    refine ⟨(iterLinkStep_link ha hio).1, ?_, h.closing, h.open_⟩
    intro hconnecting
    exact iterLinkStep_none ha (h.early hconnecting) (fun he => hlate ⟨he, hconnecting⟩) hio
  | closing reason input =>
    obtain ⟨hcloses, hlink, -⟩ := h.closes hstep
    have hstatus := hcloses.status
    refine ⟨hlink, ?_, ?_, ?_⟩
    · intro hconnecting
      exact nomatch hstatus.symm.trans hconnecting
    · exact iff_of_true (Bool.or_true ended) hstatus
    · intro hclosed
      exact nomatch hstatus.symm.trans hclosed
  | established raw ws cli req =>
    obtain ⟨hconnecting, hs'⟩ := Option.ite_none_right_eq_some.1 hstep
    obtain rfl := Option.some.inj hs'
    obtain ⟨wsObj, _, rfl, hstatus, -, -⟩ := clientEstablished_tells s.conn raw ws cli req
    have hopen : (clientEstablished s.conn raw ws cli req).status = .OPEN :=
      hstatus.trans (resolve_status _ _)
    show ClientLifeInv _ (ended || false)
    rw [Bool.or_false]
    refine ⟨h.link, ?_, iff_of_false ?_ ?_, ?_⟩
    · intro hc
      exact nomatch hopen.symm.trans hc
    · intro hended
      exact nomatch hconnecting.symm.trans (h.closing.1 hended)
    · intro hc
      exact nomatch hopen.symm.trans hc
    · intro hc
      exact nomatch hopen.symm.trans hc
  | destroy =>
    obtain rfl := Option.some.inj hstep
    show ClientLifeInv _ (ended || false)
    rw [Bool.or_false]
    exact ⟨h.link, h.early, h.closing, h.open_⟩
  | setHandlers onConnect onClose onError =>
    obtain rfl := Option.some.inj hstep
    show ClientLifeInv _ (ended || false)
    rw [Bool.or_false]
    exact ⟨h.link, h.early, h.closing, h.open_⟩

theorem gained_eq {io io' : IterLink} {answers : List Answer} {ms : List JSValue}
    (h : ClientIterates io.link.client io.asked answers)
    (h' : ClientIterates io'.link.client io'.asked (answers ++ ms.map .message)) :
    io.gained io' = ms.map Answer.message := by
  rw [IterLink.gained, h'.iterated, h.iterated, List.filterMap_append, filterMap_messages,
    List.drop_left]

/-- **One event** answers reads in their order. -/
theorem clientLifeStep_reads {e : ClientLifeEvent} (h : ClientLifeInv s ended) (hr : ReadsInv s)
    (hstep : clientLifeStep strerror s e = some s') : ReadsInv s' := by
  cases e with
  | io e =>
    obtain ⟨-, hstep⟩ := Option.ite_none_left_eq_some.1 hstep
    obtain ⟨io, hio, hs'⟩ := Option.bind_eq_some_iff.1 hstep
    obtain rfl := Option.some.inj hs'
    obtain ⟨a, ha⟩ := h.link
    obtain ⟨ms, hiterates⟩ := iterLinkStep_answers ha hr.plain hr.iterates hio
    rw [← gained_eq hr.iterates hiterates] at hiterates
    exact ⟨(iterLinkStep_link ha hio).2.trans hr.plain, hiterates⟩
  | closing reason input =>
    obtain ⟨hcloses, -, hplain, hasked, hhanded, hanswers⟩ := h.closes hstep
    refine ⟨hplain.trans hr.plain, ?_⟩
    rw [hasked, hanswers]
    exact hr.iterates.close hcloses rfl hhanded
  | established raw ws cli req =>
    obtain ⟨-, hs'⟩ := Option.ite_none_right_eq_some.1 hstep
    obtain rfl := Option.some.inj hs'
    exact ⟨hr.plain, hr.iterates⟩
  | destroy =>
    obtain rfl := Option.some.inj hstep
    exact ⟨hr.plain, hr.iterates⟩
  | setHandlers onConnect onClose onError =>
    obtain rfl := Option.some.inj hstep
    exact ⟨hr.plain, hr.iterates⟩

/-- An end goes to the read that waits first, or to the handler. -/
theorem closing_heard (h : ClientLifeInv s ended)
    (hstep : clientLifeStep strerror s (.closing reason input) = some s') :
    s.HearsEnd strerror reason input s' := by
  obtain ⟨hcloses, -⟩ := h.closes hstep
  unfold ClientLife.HearsEnd
  generalize s.io.link.client.gen = gen?, s'.io.link.client.gen = gen?' at hcloses
  cases hcloses with
  | read gen rd reads hreads hconn =>
    rw [oldestRead_cons hreads, hconn]
    exact ⟨rfl, _, _, rfl, rfl, rfl⟩
  | others _ hidle htells =>
    rw [hidle]
    refine ⟨rfl, ?_⟩
    obtain ⟨calls, hemits, hlog⟩ := htells.called
    have hcalls := reject_emits.1 hemits
    refine ⟨calls, hcalls, ?_⟩
    rw [hlog, reject_log]
    rfl

/-! ## Whole runs -/

theorem clientLife_run (es : List ClientLifeEvent) : ∀ {s s' : ClientLife} {ended : Bool},
    ClientLifeInv s ended → run (clientLifeStep strerror) s es = some s' →
    ClientLifeInv s' (ended || es.any (·.isClosing)) := by
  induction es with
  | nil =>
    intro s s' ended hs h
    obtain rfl := Option.some.inj h
    rw [List.any_nil, Bool.or_false]
    exact hs
  | cons e es ih =>
    intro s s' ended hs h
    obtain ⟨s₁, h1, h2⟩ := run_cons_iff.1 h
    rw [List.any_cons, ← Bool.or_assoc]
    exact ih (clientLifeStep_inv hs h1) h2

theorem clientLifeInv_fresh (buffering : Option Nat) (binary : Bool) (onMessage : Option JSValue)
    (wsObj : JSValue) (ctx cctx : JSContext) (onConnect onClose : Option JSValue) :
    ClientLifeInv (.fresh buffering binary onMessage wsObj ctx (.connect cctx onConnect onClose))
      false where
  link := ⟨_, serverLinkInv_fresh rfl rfl rfl wsObj ctx⟩
  early := fun _ => rfl
  closing := iff_of_false Bool.false_ne_true nofun
  open_ := nofun

/-- The state of a client made without `buffering`. -/
def ClientLifeReads (s : ClientLife) : Prop := (∃ ended, ClientLifeInv s ended) ∧ ReadsInv s

theorem clientLifeReads_fresh (binary : Bool) (onMessage : Option JSValue) (wsObj : JSValue)
    (ctx cctx : JSContext) (onConnect onClose : Option JSValue) :
    ClientLifeReads (.fresh none binary onMessage wsObj ctx (.connect cctx onConnect onClose)) :=
  ⟨⟨false, clientLifeInv_fresh none binary onMessage wsObj ctx cctx onConnect onClose⟩,
    rfl, .before rfl rfl rfl fun _ hx => absurd hx List.not_mem_nil⟩

theorem clientLifeStep_lifeReads (s : ClientLife) (e : ClientLifeEvent) (s' : ClientLife)
    (h : ClientLifeReads s) (hstep : clientLifeStep strerror s e = some s') :
    ClientLifeReads s' := by
  obtain ⟨⟨ended, hinv⟩, hr⟩ := h
  exact ⟨⟨_, clientLifeStep_inv hinv hstep⟩, clientLifeStep_reads hinv hr hstep⟩

/-- **What the reads of a client are given.** In every run of a client made without the options of
buffering, with the server's sends and writeable events, fragments of any length, reads, changes of
the handlers, and the beginning and the ends of the connection in any order, the messages that went
to the generator are the last ones of those that have arrived, which are the first ones the server
has sent. The `k`-th read is settled when the `k`-th of these messages, or of the ends that a read
waited for, has come, by it, and no sooner. Every end goes to the read that waits first, or else to
the handler that is set; from the first on the state is `CLOSING`, and it is never `CLOSED`. -/
theorem reads_answered (strerror : Int → Bytes) (binary : Bool) (onMessage : Option JSValue)
    (wsObj : JSValue) (ctx cctx : JSContext) (onConnect onClose : Option JSValue)
    (es : List ClientLifeEvent) {s : ClientLife}
    (h : run (clientLifeStep strerror) (.fresh none binary onMessage wsObj ctx
      (.connect cctx onConnect onClose)) es = some s) :
    s.io.link.client.messages =
        (s.io.link.server.passed.take s.io.link.client.messages.length).map
          s.io.link.client.payload ∧
      s.answers.filterMap Answer.message? <:+ s.io.link.client.messages ∧
      (∀ (gen : Generator) (k p : Nat), s.io.link.client.gen = some gen → s.io.asked[k]? = some p →
        match s.answers[k]? with
        | some x => ∃ r, gen.ctx.outcome p = some r ∧ Settles x r
        | none => gen.ctx.outcome p = none) ∧
      (∀ pre reason input post s₁ s₂, es = pre ++ .closing reason input :: post →
        run (clientLifeStep strerror) (.fresh none binary onMessage wsObj ctx
          (.connect cctx onConnect onClose)) pre = some s₁ →
        clientLifeStep strerror s₁ (.closing reason input) = some s₂ →
        s₁.HearsEnd strerror reason input s₂ ∧
          s₂.answers = if s₁.waits then s₁.answers ++ [.last] else s₁.answers) ∧
      (es.any (·.isClosing) = true ↔ s.conn.status = .CLOSING) ∧ s.conn.status ≠ .CLOSED := by
  have hfresh := clientLifeReads_fresh binary onMessage wsObj ctx cctx onConnect onClose
  have hinv := clientLife_run es
    (clientLifeInv_fresh none binary onMessage wsObj ctx cctx onConnect onClose) h
  rw [Bool.false_or] at hinv
  obtain ⟨-, hreads⟩ := run_induct clientLifeStep_lifeReads es hfresh h
  obtain ⟨a, hlink⟩ := hinv.link
  have hsuffix := hreads.iterates.suffix
  rw [hreads.iterates.iterated] at hsuffix
  refine ⟨hlink.first_messages, hsuffix, fun gen k p hgen hp => hreads.iterates.outcome hgen hp,
    ?_, hinv.closing, hinv.open_⟩
  intro pre reason input post s₁ s₂ _ hpre hstep
  obtain ⟨⟨ended, hinv₁⟩, -⟩ := run_induct clientLifeStep_lifeReads pre hfresh hpre
  exact ⟨closing_heard hinv₁ hstep, (hinv₁.closes hstep).2.2.2.2.2⟩

/-- The loop reads a message and waits; the connection ends, the loop with it, and then once
more. -/
def closesTwice : List ClientLifeEvent :=
  [.established false (.object 1) (.object 2) (.object 3), .io .iterate, .io (.next .undefined),
    .io (.speak (.send (.string [97]))), .io (.speak (.writeable ⟨[], .undefined⟩)),
    .io (.fragment 1 true), .io (.next .undefined),
    .closing .wsPeerInitiatedClose (some [3, 232]), .closing .clientClosed none]

theorem reads_answered_closesTwice :
    ∃ s gen, run (clientLifeStep fun _ => []) (.fresh none false none .undefined .new
        (.connect .new none none)) closesTwice = some s ∧ s.io.link.client.gen = some gen ∧
      s.answers = [.message (.string [97]), .last] ∧ ∃ r, gen.ctx.outcome 1 = some r ∧
        Settles .last r := by
  refine ⟨_, _, rfl, rfl, rfl, ?_⟩
  exact (reads_answered (fun _ => []) false none .undefined .new .new none none closesTwice
    rfl).2.2.1 _ 1 1 rfl rfl

/-! ## A loop that goes on -/

/-- A read of the iterator was given the last result. -/
def MinnetClient.ToldEnd (c : MinnetClient) (asked : List Nat) : Prop :=
  ∃ gen p, c.gen = some gen ∧ p ∈ asked ∧
    gen.ctx.outcome p = some (.resolved (.iteratorResult .null true))

theorem settles_last {x : Answer} (h : Settles x (.resolved (.iteratorResult .null true))) :
    x = .last := by
  cases h with
  | last => rfl

theorem ClientIterates.told_iff {m : MinnetClient} {asked : List Nat} {answers : List Answer}
    (h : ClientIterates m asked answers) : m.ToldEnd asked ↔ .last ∈ answers := by
  constructor
  · rintro ⟨gen, p, hgen, hp, hr⟩
    obtain ⟨k, hk⟩ := List.mem_iff_getElem?.1 hp
    have hread := h.outcome hgen hk
    cases hx : answers[k]? with
    | none =>
      rw [hx] at hread
      exact nomatch hread.symm.trans hr
    | some x =>
      rw [hx] at hread
      obtain ⟨r, hr', hsettles⟩ := hread
      obtain rfl := Option.some.inj (hr'.symm.trans hr)
      exact settles_last hsettles ▸ List.mem_of_getElem? hx
  · intro hlast
    cases h with
    | before hnone hasked hanswers hothers =>
      rw [hanswers] at hlast
      exact absurd hlast List.not_mem_nil
    | within gen given earlier taken left hsome hit hcaught hgiven hanswers hothers hsplit =>
      rw [hanswers] at hlast
      have htaken : .last ∈ taken := by
        refine (List.mem_append.1 hlast).resolve_right ?_
        intro hmem
        obtain ⟨m, -, hm⟩ := List.mem_map.1 hmem
        cases hm
      -- The read at this place of the list was given what is at this place of `given`.
      obtain ⟨k, hk, htk⟩ := List.mem_iff_getElem.1 htaken
      have hgk : k < given.length := hgiven.length_eq ▸ hk
      have hasked : k < asked.length := by
        have hlength := congrArg List.length hit.reads
        have hanswered := congrArg List.length hit.answers
        simp only [List.length_append, List.length_map] at hlength hanswered
        omega
      have hsettles : Settles .last given[k] := htk ▸ hgiven.get hk hgk
      refine ⟨gen, asked[k], hsome, List.getElem_mem hasked, ?_⟩
      rw [hit.outcome (List.getElem?_eq_getElem hasked), List.getElem?_eq_getElem hgk]
      generalize given[k] = r at hsettles
      cases hsettles
      rfl

def ClientLife.ToldEnd (s : ClientLife) : Prop := s.io.link.client.ToldEnd s.io.asked

/-- Some read has been told of the end, if there is one. -/
def ClientLife.EndTold (s : ClientLife) : Prop := s.conn.status = .CLOSING → s.ToldEnd

/-- An end of the connection comes while a read waits, or when one has been told already. -/
def ClientLife.Heeds (s : ClientLife) (e : ClientLifeEvent) : Prop :=
  e.isClosing = true → s.waits = true ∨ s.ToldEnd

theorem step_endTold {e : ClientLifeEvent} (h : ClientLifeReads s) (htold : s.EndTold)
    (hstep : clientLifeStep strerror s e = some s') : s'.EndTold ↔ s.Heeds e := by
  obtain ⟨-, hr'⟩ := clientLifeStep_lifeReads s e s' h hstep
  obtain ⟨⟨ended, hinv⟩, hr⟩ := h
  have htold' : s'.ToldEnd ↔ .last ∈ s'.answers := hr'.iterates.told_iff
  have hbefore : s.ToldEnd ↔ .last ∈ s.answers := hr.iterates.told_iff
  cases e with
  | closing reason input =>
    obtain ⟨hcloses, -, -, -, -, hanswers⟩ := hinv.closes hstep
    have hlast : s'.ToldEnd ↔ s.waits = true ∨ s.ToldEnd := by
      rw [htold', hbefore, hanswers]
      cases s.waits <;> simp
    exact ⟨fun hs' _ => hlast.1 (hs' hcloses.status), fun hheeds _ => hlast.2 (hheeds rfl)⟩
  | io e =>
    refine iff_of_true ?_ nofun
    obtain ⟨-, hstep⟩ := Option.ite_none_left_eq_some.1 hstep
    obtain ⟨io, -, hs'⟩ := Option.bind_eq_some_iff.1 hstep
    obtain rfl := Option.some.inj hs'
    intro hclosing
    exact htold'.2 (List.mem_append_left _ (hbefore.1 (htold hclosing)))
  | established raw ws cli req =>
    refine iff_of_true ?_ nofun
    intro hclosing
    have hended : (ended || false) = true := (clientLifeStep_inv hinv hstep).closing.2 hclosing
    rw [Bool.or_false] at hended
    obtain ⟨hconnecting, -⟩ := Option.ite_none_right_eq_some.1 hstep
    exact nomatch hconnecting.symm.trans (hinv.closing.1 hended)
  | destroy =>
    obtain rfl := Option.some.inj hstep
    exact iff_of_true htold nofun
  | setHandlers onConnect onClose onError =>
    obtain rfl := Option.some.inj hstep
    exact iff_of_true htold nofun

/-- **When a loop learns of the end.** The iterator keeps no record that the connection has ended.
So in a run it is always true that once the connection has ended some read has been told, exactly if
each end comes while a read waits, or when one has been told. -/
theorem end_told_iff (strerror : Int → Bytes) (binary : Bool) (onMessage : Option JSValue)
    (wsObj : JSValue) (ctx cctx : JSContext) (onConnect onClose : Option JSValue)
    (es : List ClientLifeEvent) :
    Throughout (clientLifeStep strerror) ClientLife.EndTold (.fresh none binary onMessage wsObj ctx
        (.connect cctx onConnect onClose)) es ↔
      Meets (clientLifeStep strerror) ClientLife.Heeds (.fresh none binary onMessage wsObj ctx
        (.connect cctx onConnect onClose)) es :=
  throughout_iff_meets clientLifeStep_lifeReads (fun _ _ _ h hP hstep => step_endTold h hP hstep) es
    (clientLifeReads_fresh binary onMessage wsObj ctx cctx onConnect onClose) nofun

/-! ## The promise of the connection -/

/-- What an event settles the promise with, if it is the first to do so. -/
def ClientLifeEvent.decides (strerror : Int → Bytes) : ClientLifeEvent → Option Settlement
  | .established _ _ cli _ => some (.resolved cli)
  | .closing reason input => some (.rejected (clientError strerror reason input).1)
  -- nothing has set the error, which is null from the start
  | .destroy => some (.resolved .null)
  | .io _ => none
  | .setHandlers .. => none

/-- The promise waits, or was settled with `x`. -/
def ConnectState (p : Nat) (c : ClientConnection) : Option Settlement → Prop
  | none => c.promise = .ofPromise p ∧ c.ctx.outcome p = none
  | some x => c.promise = .zero ∧ c.ctx.outcome p = some x

theorem ConnectState.outcome {p : Nat} {o : Option Settlement} (h : ConnectState p c o) :
    c.ctx.outcome p = o := by
  cases o with
  | none => exact h.2
  | some x => exact h.2

theorem outcome_first {ctx : JSContext} {p : Nat} {x : Settlement} {ctx' : JSContext}
    (hnone : ctx.outcome p = none) (h : ctx'.settlements = ctx.settlements ++ [(p, x)]) :
    ctx'.outcome p = some x := by
  rw [JSContext.outcome, settlementsOf_append h, outcome_eq_none.1 hnone]
  simp

theorem settlements_calls {ctx ctx' : JSContext} {calls : List Call}
    (h : ctx'.log = ctx.log ++ calls) :
    ctx'.settlements = ctx.settlements ++ calls.filterMap Call.settlement? := by
  rw [JSContext.settlements, h, List.filterMap_append]
  rfl

theorem ConnectState.settled {p : Nat} {o : Option Settlement} {new : List (Nat × Settlement)}
    {x : Settlement} (h : ConnectState p c (o.or (some x))) (hpromise : c'.promise = c.promise)
    (hnew : c'.ctx.settlements = c.ctx.settlements ++ new) :
    ConnectState p c' (o.or (some x)) := by
  cases o with
  | none => exact ⟨hpromise.trans h.1, outcome_append hnew h.2⟩
  | some _ => exact ⟨hpromise.trans h.1, outcome_append hnew h.2⟩

theorem ConnectState.resolve {p : Nat} {o : Option Settlement} (h : ConnectState p c o)
    (cli : JSValue) : ConnectState p (c.resolve cli) (o.or (some (.resolved cli))) := by
  cases o with
  | none =>
    rw [resolve_ofPromise h.1]
    exact ⟨rfl, outcome_first h.2 (settlements_resolve _ _ _)⟩
  | some x =>
    rw [resolve_zero h.1]
    exact h

theorem ConnectState.reject {p : Nat} {o : Option Settlement} (h : ConnectState p c o) :
    ConnectState p c.reject (o.or (some (.rejected c.error))) := by
  cases o with
  | none =>
    rw [reject_ofPromise h.1]
    exact ⟨rfl, outcome_first h.2 (settlements_reject _ _ _)⟩
  | some x =>
    rw [reject_zero h.1]
    exact h

/-- The promise, and that nothing has happened while it waits. -/
structure Connects (p : Nat) (s : ClientLife) (o : Option Settlement) : Prop where
  state : ConnectState p s.conn o
  early : o = none → s.conn.error = .null ∧ s.conn.status = .CONNECTING

theorem or_some_ne_none {α : Type} {o : Option α} {x : α} : o.or (some x) ≠ none := by
  cases o <;> nofun

theorem step_connects {p : Nat} {o : Option Settlement} {e : ClientLifeEvent}
    (h : ClientLifeInv s ended) (hc : Connects p s o)
    (hstep : clientLifeStep strerror s e = some s') :
    Connects p s' (o.or (e.decides strerror)) := by
  cases e with
  | io e =>
    obtain ⟨-, hstep⟩ := Option.ite_none_left_eq_some.1 hstep
    obtain ⟨io, -, hs'⟩ := Option.bind_eq_some_iff.1 hstep
    obtain rfl := Option.some.inj hs'
    rw [ClientLifeEvent.decides, Option.or_none]
    exact ⟨hc.state, hc.early⟩
  | setHandlers onConnect onClose onError =>
    obtain rfl := Option.some.inj hstep
    rw [ClientLifeEvent.decides, Option.or_none]
    exact ⟨by cases o <;> exact hc.state, hc.early⟩
  | established raw ws cli req =>
    obtain ⟨-, hs'⟩ := Option.ite_none_right_eq_some.1 hstep
    obtain rfl := Option.some.inj hs'
    obtain ⟨wsObj, _, rfl, -, hpromise, new, hnew⟩ :=
      clientEstablished_tells s.conn raw ws cli req
    have hopened : ConnectState p { s.conn with status := .OPEN, wsObj } o := by
      cases o <;> exact hc.state
    exact ⟨(hopened.resolve cli).settled hpromise hnew, fun hnone => absurd hnone or_some_ne_none⟩
  | destroy =>
    obtain rfl := Option.some.inj hstep
    refine ⟨?_, fun hnone => absurd hnone or_some_ne_none⟩
    cases o with
    | none =>
      obtain ⟨herror, -⟩ := hc.early rfl
      obtain ⟨hpromise, hnone⟩ := hc.state
      simp only [clientDestroy, herror, hpromise, jsAsyncResolve_ofPromise]
      exact ⟨rfl, outcome_first hnone (settlements_resolve _ _ _)⟩
    | some x =>
      have hidle : clientDestroy s.conn = { s.conn with error := .undefined } := by
        obtain ⟨hpromise, -⟩ := hc.state
        simp only [clientDestroy, hpromise]
        split <;> rfl
      show ConnectState p (clientDestroy s.conn) (some x)
      rw [hidle]
      exact hc.state
  | closing reason input =>
    obtain ⟨hcloses, -⟩ := h.closes hstep
    refine ⟨?_, fun hnone => absurd hnone or_some_ne_none⟩
    have hgen : o = none → s.io.link.client.gen = none := fun ho => h.early (hc.early ho).2
    generalize s.io.link.client.gen = gen?, s'.io.link.client.gen = gen?' at hcloses hgen
    cases hcloses with
    | read gen rd reads hreads hconn =>
      cases o with
      | none => exact nomatch hgen rfl
      | some x =>
        rw [hconn]
        exact hc.state
    | others _ hidle htells =>
      obtain ⟨calls, -, hlog⟩ := htells.called
      have hended : ConnectState p { s.conn with
          error := (clientError strerror reason input).1, status := .CLOSING } o := by
        cases o <;> exact hc.state
      exact hended.reject.settled htells.promise (settlements_calls hlog)

theorem connects_run (es : List ClientLifeEvent) : ∀ {s s' : ClientLife} {ended : Bool} {p : Nat}
    {o : Option Settlement}, ClientLifeInv s ended → Connects p s o →
    run (clientLifeStep strerror) s es = some s' →
    Connects p s' (o.or (es.findSome? (·.decides strerror))) := by
  induction es with
  | nil =>
    intro s s' ended p o hs hc h
    obtain rfl := Option.some.inj h
    rw [List.findSome?_nil, Option.or_none]
    exact hc
  | cons e es ih =>
    intro s s' ended p o hs hc h
    obtain ⟨s₁, h1, h2⟩ := run_cons_iff.1 h
    have hrest := ih (clientLifeStep_inv hs h1) (step_connects hs hc h1) h2
    rw [Option.or_assoc] at hrest
    rw [List.findSome?_cons]
    cases hd : e.decides strerror with
    | none =>
      rw [hd] at hrest
      exact hrest
    | some x =>
      rw [hd] at hrest
      exact hrest

/-- **The promise of a connection.** Whatever happens to a client that is not blocking, the promise
it was asked for with is settled by the first of these events and by no other: it is resolved with
the client when the connection is established, rejected with the error when it ends before that, and
resolved with null when it is destroyed before either. -/
theorem connect_settled (strerror : Int → Bytes) (buffering : Option Nat) (binary : Bool)
    (onMessage : Option JSValue) (wsObj : JSValue) (ctx cctx : JSContext) (hnew : cctx.outcome cctx.promises = none)
    (onConnect onClose : Option JSValue) (es : List ClientLifeEvent) {s : ClientLife}
    (h : run (clientLifeStep strerror) (.fresh buffering binary onMessage wsObj ctx
      (.connect cctx onConnect onClose)) es = some s) :
    s.conn.ctx.outcome cctx.promises = es.findSome? (·.decides strerror) := by
  have hfresh : Connects cctx.promises (.fresh buffering binary onMessage wsObj ctx
      (.connect cctx onConnect onClose)) none := ⟨⟨rfl, hnew⟩, fun _ => ⟨rfl, rfl⟩⟩
  have hrun := connects_run es
    (clientLifeInv_fresh buffering binary onMessage wsObj ctx cctx onConnect onClose) hfresh h
  rw [Option.none_or] at hrun
  exact hrun.state.outcome

/-- The connection fails with an error's number, and is then destroyed. -/
def failsToConnect : List ClientLifeEvent :=
  [.closing .clientConnectionError (some (connFail ++ [49, 49, 49])), .destroy]

theorem connect_settled_fails :
    ∃ s, run (clientLifeStep fun err => if err = 111 then [110, 111] else [])
        (.fresh none false none .undefined .new (.connect .new none none)) failsToConnect = some s ∧
      s.conn.ctx.outcome 0 = some (.rejected (.string [110, 111])) :=
  ⟨_, rfl, connect_settled (fun err => if err = 111 then [110, 111] else []) none false none
    .undefined .new .new rfl none none failsToConnect rfl⟩

end QjsNet
