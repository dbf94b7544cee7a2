import QjsNet.Session
import QjsNet.Lib.PartialRun
import QjsNet.Lib.Ledger

/- WebSocket messages (`minnet_ws_send`, and the writeable events of a server and a
   client session).

   `send()` writes at once when the connection is marked writable, and queues the
   message otherwise; a writeable event sends one queued message. The server
   handler never sets the mark, so its messages go through the queue. The client
   handler sets it before it sends the first message and never clears it, so from
   then on a message overtakes what the queue still holds.

   The ledger of a session (`WsState.ledger`) has the messages passed to `send()`,
   those written and those queued. Every call and event is one operation on that
   ledger (`wsStep_ledger`), and the order of the messages is that it balances.

   Correspondence (C ↔ Lean):
     `minnet_ws_send`                          ↔ `minnetWsSend`
     `LWS_CALLBACK_SERVER_WRITEABLE`           ↔ `wsWriteable` with `Role.server`
     `LWS_CALLBACK_CLIENT_WRITEABLE`           ↔ `wsWriteable` with `Role.client`
     `minnet_client_set` (`CLIENT_ONWRITEABLE`) ↔ `setOnWriteable` (`minnetClientSet`) -/
namespace QjsNet

inductive Role where
  | server
  | client
  deriving DecidableEq, Repr

/-- A WebSocket session. `writable` is the mark in the socket's opaque data, `onWriteable` the
client's handler when it has a context. -/
structure WebSocket where
  conn : Connection
  role : Role
  wsObj : JSValue
  writable : Bool
  onWriteable : Option JSValue
  deriving DecidableEq, Repr

def WebSocket.fresh (role : Role) (wsObj : JSValue) (ctx : JSContext) : WebSocket :=
  ⟨.fresh ctx, role, wsObj, false, none⟩

/-- `js_is_arraybuffer` of the buffer that `js_input_chars` takes from a value. -/
def JSValue.hasArrayBuffer : JSValue → Bool
  | .arrayBuffer _ | .typedArray .. => true
  | _ => false

def JSValue.isString : JSValue → Bool
  | .string _ => true
  | _ => false

/-- `minnet_ws_send` of an open socket. `protocol` is the argument after the data (and its
offset and length), as an `int32`, when there is one. -/
def minnetWsSend (ws : WebSocket) (value : JSValue) (protocol : Option Int) : WebSocket × JSValue :=
  let data := jsInputChars value
  if ws.writable then
    let protocol := protocol.getD (if value.isString then lwsWriteText else lwsWriteBinary)
    let (wsi, result) := lwsWrite ws.conn.wsi data protocol
    ({ ws with conn := { ws.conn with wsi } }, .int result)
  else
    match wsEnqueue ws.conn (blockCopy data) with
    -- the queue refused the message, and the call returns no promise
    | (conn, none) => ({ ws with conn }, .undefined)
    | (conn, some item) =>
      let (ctx, fns, ret) := jsAsyncCreate conn.ctx
      let q := conn.session.sendq.modify item fun i =>
        { i with binary := some value.hasArrayBuffer, unref := some fns.resolve }
      ({ ws with conn := { conn with ctx, session := { conn.session with sendq := q } } }, ret)

/-- A writeable event. `call` is what the client's handler does when there is one; the messages that
it sends follow the event. -/
def wsWriteable (ws : WebSocket) (call : WriteableCall) : WebSocket :=
  let conn := ws.conn.wake
  match ws.role, ws.onWriteable with
  | .server, _ => { ws with conn := (sessionWritable conn).1 }
  | .client, none => { ws with writable := true, conn := (sessionWritable conn).1 }
  | .client, some fn =>
    -- the handler is called instead of `session_writable`, so nothing is sent
    let (onWriteable, wsi) := emitWriteable fn conn.wsi call
    { ws with onWriteable, conn := { conn with ctx := jsCall conn.ctx fn [ws.wsObj], wsi } }

/-- The setter of `onwriteable`, outside of the handler. -/
def setOnWriteable (ws : WebSocket) (value : JSValue) : WebSocket :=
  let (onWriteable, wsi) := minnetClientSet (ws.onWriteable, ws.conn.wsi) value
  { ws with onWriteable, conn := { ws.conn with wsi } }

/-! ## Runs -/

inductive WsEvent where
  | send (value : JSValue) (protocol : Option Int)
  | writeable (call : WriteableCall)
  | setOnWriteable (value : JSValue)
  deriving DecidableEq, Repr

/-- A session, with the messages passed to `send()` so far. -/
structure WsState where
  ws : WebSocket
  passed : List Bytes
  deriving DecidableEq, Repr

def WsState.fresh (role : Role) (wsObj : JSValue) (ctx : JSContext) : WsState :=
  ⟨.fresh role wsObj ctx, []⟩

def wsStep (s : WsState) : WsEvent → Option WsState
  | .send value protocol =>
    some ⟨(minnetWsSend s.ws value protocol).1, s.passed ++ [jsInputChars value]⟩
  | .writeable call => some { s with ws := wsWriteable s.ws call }
  | .setOnWriteable value => some { s with ws := setOnWriteable s.ws value }

def WsState.queue (s : WsState) : List QueueItem := s.ws.conn.session.sendq.items

def WsState.written (s : WsState) : List Bytes := s.ws.conn.wsi.written.map LwsWrite.data

def WsState.queued (s : WsState) : List Bytes := s.queue.map (·.block.data)

def WsState.ledger (s : WsState) : Fifo.Ledger Bytes := ⟨s.passed, s.written, s.queued⟩

/-- The messages written, then those queued, are the messages sent, in call order. -/
def InOrder (s : WsState) : Prop := s.written ++ s.queued = s.passed

theorem inOrder_iff (s : WsState) : InOrder s ↔ Fifo.Balanced s.ledger := Iff.rfl

/-! ## One event, on the ledger -/

theorem send_direct {s : WsState} {v : JSValue} {p : Option Int} (hw : s.ws.writable = true) :
    WsState.ledger ⟨(minnetWsSend s.ws v p).1, s.passed ++ [jsInputChars v]⟩
        = Fifo.bypass s.ledger [jsInputChars v] ∧
      (minnetWsSend s.ws v p).1.conn.session.sendq = s.ws.conn.session.sendq := by
  simp [minnetWsSend, hw, lwsWrite, WsState.ledger, Fifo.bypass, WsState.written, WsState.queued,
    WsState.queue]

theorem send_queued {s : WsState} {v : JSValue} {p : Option Int} (hw : s.ws.writable = false)
    (hopen : OpenItems s.queue) :
    WsState.ledger ⟨(minnetWsSend s.ws v p).1, s.passed ++ [jsInputChars v]⟩
        = Fifo.accept s.ledger [jsInputChars v] ∧
      OpenItems (minnetWsSend s.ws v p).1.conn.session.sendq.items := by
  have h := @wsEnqueue_open s.ws.conn hopen (blockCopy (jsInputChars v))
  simp only [minnetWsSend, hw, Bool.false_eq_true, if_false, h]
  simp only [WsState.ledger, Fifo.accept, WsState.written, WsState.queued, WsState.queue,
    wantWrite_sendq, wantWrite_written, modify_items, addTail_items, modify_snoc, List.map_append]
  exact ⟨rfl, openItems_append.2 ⟨hopen, openItems_cons.2 ⟨rfl, openItems_nil⟩⟩⟩

/-- A writeable event passes on one message, or none when the handler takes it. -/
theorem writeable_ledger {s : WsState} {call : WriteableCall} (hopen : OpenItems s.queue) :
    (∃ n, WsState.ledger { s with ws := wsWriteable s.ws call } = Fifo.pass s.ledger n) ∧
      OpenItems (wsWriteable s.ws call).conn.session.sendq.items := by
  obtain ⟨hitems, hwritten, _⟩ := writable_spec s.ws.conn.wake hopen
  have hsent : ∀ ws : WebSocket, ws.conn = (sessionWritable s.ws.conn.wake).1 →
      WsState.ledger { s with ws } = Fifo.pass s.ledger 1 ∧
        OpenItems ws.conn.session.sendq.items := by
    intro ws hws
    refine ⟨?_, ?_⟩
    · simp only [WsState.ledger, WsState.written, WsState.queued, WsState.queue, hws, hitems,
        hwritten, Fifo.pass, List.map_take, List.map_tail, List.drop_one]
      rfl
    · rw [hws, hitems]
      intro i hi
      exact hopen i (List.mem_of_mem_tail hi)
  cases hr : s.ws.role with
  | server =>
    obtain ⟨h1, h2⟩ := hsent { s.ws with conn := (sessionWritable s.ws.conn.wake).1 } rfl
    simp only [wsWriteable, hr]
    exact ⟨⟨1, hr ▸ h1⟩, h2⟩
  | client =>
    cases hon : s.ws.onWriteable with
    | none =>
      obtain ⟨h1, h2⟩ := hsent
        { s.ws with writable := true, conn := (sessionWritable s.ws.conn.wake).1 } rfl
      simp only [wsWriteable, hr, hon]
      exact ⟨⟨1, hr ▸ hon ▸ h1⟩, h2⟩
    | some fn =>
      -- The handler has taken the event, and the queue waits for another one.
      refine ⟨⟨0, ?_⟩, ?_⟩
      · simp only [Fifo.pass_zero, WsState.ledger, WsState.written, WsState.queued, WsState.queue,
          wsWriteable, hr, hon, emitWriteable_written]
        rfl
      · simp only [wsWriteable, hr, hon]
        exact hopen

theorem setOnWriteable_ledger (s : WsState) (v : JSValue) :
    WsState.ledger { s with ws := setOnWriteable s.ws v } = s.ledger ∧
      (setOnWriteable s.ws v).conn.session.sendq = s.ws.conn.session.sendq := by
  refine ⟨?_, rfl⟩
  simp only [WsState.ledger, WsState.written, WsState.queued, WsState.queue, setOnWriteable,
    minnetClientSet_written]

theorem wsStep_open (s : WsState) (e : WsEvent) (s' : WsState) (h : OpenItems s.queue)
    (hstep : wsStep s e = some s') : OpenItems s'.queue := by
  cases e with
  | send v p =>
    obtain rfl := Option.some.inj hstep
    by_cases hw : s.ws.writable = true
    · unfold WsState.queue
      rw [(@send_direct s v p hw).2]
      exact h
    · exact (send_queued (by simpa using hw) h).2
  | writeable call =>
    obtain rfl := Option.some.inj hstep
    exact (writeable_ledger h).2
  | setOnWriteable v =>
    obtain rfl := Option.some.inj hstep
    unfold WsState.queue
    rw [(setOnWriteable_ledger s v).2]
    exact h

/-! ## The order of the messages -/

/-- A message sent past the queue is equal to all that wait in it; an empty queue is the usual
case. -/
def NoOvertaking (s : WsState) : WsEvent → Prop
  | .send value _ => s.ws.writable = true → ∀ m ∈ s.queued, m = jsInputChars value
  | _ => True

theorem wsStep_inOrder (s : WsState) (e : WsEvent) (s' : WsState) (hopen : OpenItems s.queue)
    (h : InOrder s) (hstep : wsStep s e = some s') : InOrder s' ↔ NoOvertaking s e := by
  rw [inOrder_iff] at h ⊢
  cases e with
  | send v p =>
    obtain rfl := Option.some.inj hstep
    by_cases hw : s.ws.writable = true
    · rw [(send_direct hw).1, Fifo.bypass_balanced_iff h, Fifo.cons_comm_iff]
      exact ⟨fun hall _ => hall, fun hno => hno hw⟩
    · rw [(send_queued (by simpa using hw) hopen).1]
      exact iff_of_true (Fifo.accept_balanced h) fun hw' => absurd hw' hw
  | writeable call =>
    obtain rfl := Option.some.inj hstep
    obtain ⟨n, hn⟩ := (@writeable_ledger s call hopen).1
    rw [hn]
    exact iff_of_true (Fifo.pass_balanced h) trivial
  | setOnWriteable v =>
    obtain rfl := Option.some.inj hstep
    rw [(setOnWriteable_ledger s v).1]
    exact iff_of_true h trivial

/-- **When messages keep their order.** In a run of sends and writeable events on a server or
client session, the messages written followed by those queued are the messages sent in every
state if and only if no `send()` writes past a queue with a different message. -/
theorem ws_order_iff (role : Role) (wsObj : JSValue) (ctx : JSContext) (events : List WsEvent) :
    PartialRun.Throughout wsStep InOrder (.fresh role wsObj ctx) events ↔
      PartialRun.Meets wsStep NoOvertaking (.fresh role wsObj ctx) events :=
  PartialRun.throughout_iff_meets wsStep_open wsStep_inOrder events openItems_nil rfl

/-- A client that sends, is woken, and sends again: the third message overtakes the second. -/
theorem ws_order_broken :
    ∃ s, PartialRun.run wsStep (.fresh .client (.object 0) .new)
        [.send (.string [1]) none, .send (.string [2]) none, .writeable ⟨[], .undefined⟩,
          .send (.string [3]) none] = some s ∧
      s.passed = [[1], [2], [3]] ∧ s.written = [[1], [3]] ∧ s.queued = [[2]] ∧ ¬ InOrder s := by
  refine ⟨_, rfl, by decide, by decide, by decide, ?_⟩
  intro h
  exact absurd h (by decide : ¬ ([[1], [3]] ++ [[2]] : List Bytes) = [[1], [2], [3]])

end QjsNet
