import QjsNet.ClientMessages
import QjsNet.SendWakeup
import QjsNet.WebSocket
import QjsNet.Lib.Framing

/- WebSocket messages from end to end.

   A script passes strings and array buffers to `send()` of one end of a connection. The
   session writes them as frames, at once or from its send queue; the connection carries
   the frames in order, in fragments of any length; and the other end calls the script back.
   The client puts the fragments of a message together before it does (`clientReceive`). The
   server calls `onMessage` with each fragment, and the handler can put them together by
   the two flags that it is given.

   What is proved, for every interleaving of calls, writeable events and fragments:
     1. `speak_frames` and the lemmas before it — what a call or an event of the sender does
        to the ledger of its frames, and to the wakeup it waits for;
     2. `client_wakes_iff` — when the client's sender has asked for a writeable event, one is
        on its way: exactly unless a handler that was called while it waited has left the next
        one unasked for;
     3. `server_messages_arrive` — what a server has sent arrives at the client in order, each
        message once, and all of it but empty messages when nothing is on its way;
     4. `client_messages_arrive` — the same from a client to the server, with each message's
        type, for the runs in which no message overtakes another and no wakeup is lost.

   Correspondence (C ↔ Lean):
     `LWS_CALLBACK_RECEIVE` in `minnet-server-ws.c` ↔ `ServerSocket.receive`
     `lws_is_first_fragment`, `lws_is_final_fragment`, `lws_frame_is_binary`
       ↔ the fields of `Framing.Fragment` -/
namespace QjsNet

/-! ## The sender -/

/-- A message, with the `enum lws_write_protocol` of its frame. -/
abbrev Frame := Framing.Message Int UInt8

/-- What the script passes to `send()`. -/
inductive Payload where
  | string (chars : Bytes)
  | arrayBuffer (data : Bytes)
  deriving DecidableEq, Repr

def Payload.value : Payload → JSValue
  | .string chars => .string chars
  | .arrayBuffer data => .arrayBuffer data

def Payload.data : Payload → Bytes
  | .string chars => chars
  | .arrayBuffer data => data

def Payload.frame : Payload → Frame
  | .string chars => ⟨lwsWriteText, chars⟩
  | .arrayBuffer data => ⟨lwsWriteBinary, data⟩

@[simp] theorem Payload.frame_data (p : Payload) : p.frame.data = p.data := by
  cases p <;> rfl

def LwsWrite.frame (w : LwsWrite) : Frame := ⟨w.protocol, w.data⟩

def QueueItem.frame (i : QueueItem) : Frame :=
  ⟨if i.binary.getD false then lwsWriteBinary else lwsWriteText, i.block.data⟩

/-- A session, with what was passed to its `send()` so far. -/
structure Speaker where
  ws : WebSocket
  passed : List Payload
  deriving DecidableEq, Repr

def Speaker.fresh (role : Role) (wsObj : JSValue) (ctx : JSContext) : Speaker :=
  ⟨.fresh role wsObj ctx, []⟩

inductive SpeakEvent where
  | send (p : Payload)
  | writeable (call : WriteableCall)
  | setOnWriteable (value : JSValue)
  deriving DecidableEq, Repr

def speak (s : Speaker) : SpeakEvent → Speaker
  | .send p => ⟨(minnetWsSend s.ws p.value none).1, s.passed ++ [p]⟩
  | .writeable call => { s with ws := wsWriteable s.ws call }
  | .setOnWriteable value => { s with ws := setOnWriteable s.ws value }

def Speaker.conn (s : Speaker) : Connection := s.ws.conn

def Speaker.written (s : Speaker) : List Frame := s.conn.wsi.written.map LwsWrite.frame

def Speaker.queue (s : Speaker) : List QueueItem := s.conn.session.sendq.items

def Speaker.queued (s : Speaker) : List Frame := s.queue.map QueueItem.frame

def Speaker.ledger (s : Speaker) : Fifo.Ledger Frame :=
  ⟨s.passed.map Payload.frame, s.written, s.queued⟩

/-! ## What the sender does -/

theorem send_written {s : Speaker} (hw : s.ws.writable = true) (p : Payload) :
    (speak s (.send p)).ledger = Fifo.bypass s.ledger [p.frame] ∧
      (speak s (.send p)).conn.session = s.conn.session ∧
      (speak s (.send p)).conn.wsi.requested = s.conn.wsi.requested := by
  cases p <;>
    simp [speak, minnetWsSend, hw, lwsWrite, Speaker.ledger, Fifo.bypass, Speaker.written,
      Speaker.queued, Speaker.queue, Speaker.conn, LwsWrite.frame, Payload.frame, Payload.value,
      JSValue.isString, jsInputChars]

/-- Asking for a writeable event does not look at the queue. -/
theorem wantWrite_hold (c : Connection) (q : Queue) :
    sessionWantWrite { c with session := { c.session with sendq := q } } =
      { sessionWantWrite c with session := { (sessionWantWrite c).session with sendq := q } } := by
  unfold sessionWantWrite
  split
  · rfl
  · rfl

theorem wantWrite_ctx (c : Connection) : (sessionWantWrite c).ctx = c.ctx := by
  unfold sessionWantWrite
  split
  · rfl
  · rfl

/-- Any other leaves the message in the queue, as the frame that it will be. -/
theorem send_conn {s : Speaker} (hw : s.ws.writable = false) (hopen : OpenItems s.queue)
    (p : Payload) : ∃ ctx i, QueueItem.frame i = p.frame ∧ i.done = false ∧
      (speak s (.send p)).conn = { sessionWantWrite { s.conn with session :=
        { s.conn.session with sendq := s.conn.session.sendq.addTail i } } with ctx } := by
  have henqueue := @wsEnqueue_open s.ws.conn hopen (blockCopy (jsInputChars p.value))
  let i : QueueItem := ⟨blockCopy (jsInputChars p.value), some p.value.hasArrayBuffer, false,
    some (jsAsyncCreate s.ws.conn.ctx).2.1.resolve⟩
  refine ⟨(jsAsyncCreate s.ws.conn.ctx).1, i, ?_, rfl, ?_⟩
  · cases p <;> rfl
  · have hmodify : ((s.ws.conn.session.sendq.addTail ⟨blockCopy (jsInputChars p.value), none,
        false, none⟩).modify s.ws.conn.session.sendq.items.length fun j =>
          { j with binary := i.binary, unref := i.unref }) = s.ws.conn.session.sendq.addTail i := by
      apply Queue.ext_items
      · rw [modify_items, addTail_items, modify_snoc, addTail_items]
      · rfl
    simp only [speak, Speaker.conn, minnetWsSend, hw, henqueue, Bool.false_eq_true, if_false,
      wantWrite_hold,
      wantWrite_ctx]
    rw [← hmodify]

theorem send_waits {s : Speaker} (hw : s.ws.writable = false) (hopen : OpenItems s.queue)
    (p : Payload) : (speak s (.send p)).ledger = Fifo.accept s.ledger [p.frame] ∧
      OpenItems (speak s (.send p)).queue ∧
      (speak s (.send p)).conn.session.wantWrite = true ∧
      ((speak s (.send p)).conn.wsi.requested = true ↔
        s.conn.session.wantWrite = true → s.conn.wsi.requested = true) := by
  obtain ⟨ctx, i, hframe, hi, hconn⟩ := send_conn hw hopen p
  have hqueue : (speak s (.send p)).queue = s.queue ++ [i] := by
    simp only [Speaker.queue, hconn, wantWrite_sendq, addTail_items]
  have hwritten : (speak s (.send p)).written = s.written := by
    simp only [Speaker.written, hconn, wantWrite_written]
  have hpassed : (speak s (.send p)).passed = s.passed ++ [p] := rfl
  refine ⟨?_, ?_, ?_, ?_⟩
  · simp only [Speaker.ledger, Speaker.queued, hqueue, hwritten, hpassed, Fifo.accept,
      List.map_append, List.map_cons, List.map_nil, hframe]
  · rw [hqueue]
    exact openItems_append.2 ⟨hopen, openItems_cons.2 ⟨hi, openItems_nil⟩⟩
  · simp only [hconn, wantWrite_set]
  · simp only [hconn, sessionWantWrite]
    split
    · next h => exact ⟨fun hr _ => hr, fun hr => hr h⟩
    · next h => exact iff_of_true rfl fun hw' => absurd hw' h

/-- What a writeable event writes is the frame of the item in front. -/
theorem writable_frames (c : Connection) (hopen : OpenItems c.session.sendq.items) :
    (sessionWritable c).1.wsi.written.map LwsWrite.frame =
      c.wsi.written.map LwsWrite.frame ++ (c.session.sendq.items.take 1).map QueueItem.frame := by
  let c₀ : Connection := { c with session := { c.session with wantWrite := false } }
  have hfront : (sendFront c₀).1.wsi.written.map LwsWrite.frame =
      c.wsi.written.map LwsWrite.frame ++ (c.session.sendq.items.take 1).map QueueItem.frame := by
    cases hi : c.session.sendq.items with
    | nil => simp [sendFront_nil c₀ hi, c₀]
    | cons i is =>
      obtain ⟨-, -, -, hwritten⟩ := sendFront_cons c₀ hi (hopen i (by simp [hi]))
      rw [hwritten]
      simp [c₀, LwsWrite.frame, QueueItem.frame]
  rw [← hfront]
  unfold sessionWritable
  simp only
  split
  · exact congrArg _ wantWrite_written
  · rfl

/-- The event sends one message, and is asked for again exactly when bytes are left. -/
theorem sent_event {s t : Speaker} (hopen : OpenItems s.queue) (hpassed : t.passed = s.passed)
    (hconn : t.conn = (sessionWritable s.conn.wake).1) :
    t.ledger = Fifo.pass s.ledger 1 ∧ OpenItems t.queue ∧
      t.conn.session.wantWrite = t.conn.wsi.requested ∧
      (t.conn.session.wantWrite = true ↔ itemsBytes t.queue ≠ []) := by
  obtain ⟨hitems, -, hflag⟩ := writable_spec s.conn.wake hopen
  have hqueue : t.queue = s.queue.tail := by
    rw [Speaker.queue, hconn, hitems]
    rfl
  have hheld : t.queued = s.queued.tail := by
    rw [Speaker.queued, hqueue, List.map_tail]
    rfl
  refine ⟨?_, ?_, ?_, ?_⟩
  · have hwritten : t.written = s.written ++ s.queued.take 1 := by
      rw [Speaker.written, hconn, writable_frames s.conn.wake hopen, List.map_take]
      rfl
    simp only [Speaker.ledger, hpassed, hwritten, hheld, Fifo.pass, List.drop_one]
  · rw [hqueue]
    intro i hi
    exact hopen i (List.mem_of_mem_tail hi)
  · rw [hconn]
    exact writable_armed hopen
  · rw [hconn, hflag, hqueue]
    rfl

/-! ## Order and wakeups -/

/-- The message is written past a queue that holds a different one. -/
def Speaker.Overtakes (s : Speaker) : SpeakEvent → Prop
  | .send p => s.ws.writable = true ∧ ∃ m ∈ s.queued, m ≠ p.frame
  | _ => False

/-- The writeable event that the session has asked for goes to the client's handler, behind which
no other is asked for: it returns `false`, or takes itself away. -/
def Speaker.Ignored (s : Speaker) : SpeakEvent → Prop
  | .writeable call => s.ws.role = .client ∧ s.ws.onWriteable.isSome = true ∧ call.asks = false ∧
      s.conn.session.wantWrite = true
  | _ => False

instance instDecidableOvertakes (s : Speaker) : ∀ e, Decidable (s.Overtakes e)
  | .send _ => inferInstanceAs (Decidable (_ ∧ _))
  | .writeable _ => isFalse id
  | .setOnWriteable _ => isFalse id

instance instDecidableIgnored (s : Speaker) : ∀ e, Decidable (s.Ignored e)
  | .writeable _ => inferInstanceAs (Decidable (_ ∧ _))
  | .send _ => isFalse id
  | .setOnWriteable _ => isFalse id

/-- A writeable event that the session takes to be asked for is on its way. -/
def Speaker.Heeded (s : Speaker) : Prop :=
  s.conn.session.wantWrite = true → s.conn.wsi.requested = true

/-- The session asks for an event while bytes wait. -/
structure SpeakerInv (s : Speaker) : Prop where
  isOpen : OpenItems s.queue
  asked : itemsBytes s.queue ≠ [] → s.conn.session.wantWrite = true

variable {s : Speaker}

theorem speakerInv_fresh (role : Role) (wsObj : JSValue) (ctx : JSContext) :
    SpeakerInv (.fresh role wsObj ctx) := ⟨openItems_nil, fun h => absurd rfl h⟩

/-- What an event does to the frames: one is taken in, written at once, or sent on. -/
inductive Spoken (s t : Speaker) : SpeakEvent → Prop where
  | written (p : Payload) : s.ws.writable = true → t.ledger = Fifo.bypass s.ledger [p.frame] →
      Spoken s t (.send p)
  | waits (p : Payload) : t.ledger = Fifo.accept s.ledger [p.frame] → Spoken s t (.send p)
  | sent (e : SpeakEvent) (n : Nat) : t.ledger = Fifo.pass s.ledger n → Spoken s t e

theorem speak_kept (h : SpeakerInv s) (e : SpeakEvent) (hpassed : (speak s e).passed = s.passed)
    (hwritten : (speak s e).written = s.written)
    (hsession : (speak s e).conn.session = s.conn.session) :
    Spoken s (speak s e) e ∧ SpeakerInv (speak s e) := by
  have hqueue : (speak s e).queue = s.queue := by
    rw [Speaker.queue, hsession]
    rfl
  refine ⟨.sent e 0 ?_, hqueue ▸ h.isOpen, ?_⟩
  · rw [Fifo.pass_zero, Speaker.ledger, Speaker.ledger, hpassed, hwritten, Speaker.queued,
      Speaker.queued, hqueue]
  · rw [hqueue, hsession]
    exact h.asked

theorem speak_sent (h : SpeakerInv s) (e : SpeakEvent) (hpassed : (speak s e).passed = s.passed)
    (hconn : (speak s e).conn = (sessionWritable s.conn.wake).1) :
    Spoken s (speak s e) e ∧ SpeakerInv (speak s e) ∧ (speak s e).Heeded := by
  obtain ⟨hledger, hopen, harmed, hbytes⟩ := sent_event h.isOpen hpassed hconn
  exact ⟨.sent e 1 hledger, ⟨hopen, hbytes.2⟩, fun hw => harmed.symm.trans hw⟩

theorem speak_send (h : SpeakerInv s) (p : Payload) :
    Spoken s (speak s (.send p)) (.send p) ∧ SpeakerInv (speak s (.send p)) ∧
      (s.Heeded → (speak s (.send p)).Heeded) := by
  by_cases hw : s.ws.writable = true
  · obtain ⟨hledger, hsession, hrequested⟩ := send_written hw p
    have hqueue : (speak s (.send p)).queue = s.queue := by
      rw [Speaker.queue, hsession]
      rfl
    refine ⟨.written p hw hledger, ⟨hqueue ▸ h.isOpen, ?_⟩, ?_⟩
    · rw [hqueue, hsession]
      exact h.asked
    · intro hheeded hwant
      rw [hsession] at hwant
      rw [hrequested]
      exact hheeded hwant
  · obtain ⟨hledger, hopen, hwant, hrequested⟩ := send_waits (Bool.not_eq_true _ ▸ hw) h.isOpen p
    exact ⟨.waits p hledger, ⟨hopen, fun _ => hwant⟩, fun hheeded _ => hrequested.2 hheeded⟩

theorem speak_writeable (h : SpeakerInv s) (call : WriteableCall) :
    Spoken s (speak s (.writeable call)) (.writeable call) ∧ SpeakerInv (speak s (.writeable call)) ∧
      ((speak s (.writeable call)).Heeded ↔ ¬s.Ignored (.writeable call)) := by
  cases hr : s.ws.role with
  | server =>
    have hconn : (speak s (.writeable call)).conn = (sessionWritable s.conn.wake).1 := by
      simp only [Speaker.conn, speak, wsWriteable, hr]
    obtain ⟨hspoken, hinv, hheed⟩ := speak_sent h (.writeable call) rfl hconn
    refine ⟨hspoken, hinv, iff_of_true hheed ?_⟩
    intro hignored
    exact absurd (hr.symm.trans hignored.1) (by decide)
  | client =>
    cases hon : s.ws.onWriteable with
    | none =>
      have hconn : (speak s (.writeable call)).conn = (sessionWritable s.conn.wake).1 := by
        simp only [Speaker.conn, speak, wsWriteable, hr, hon]
      obtain ⟨hspoken, hinv, hheed⟩ := speak_sent h (.writeable call) rfl hconn
      refine ⟨hspoken, hinv, iff_of_true hheed ?_⟩
      intro hignored
      have hsome : s.ws.onWriteable.isSome = true := hignored.2.1
      rw [hon] at hsome
      exact absurd hsome (by decide)
    | some fn =>
      -- The handler has the event, and the session keeps what it waits for.
      have hconn : (speak s (.writeable call)).conn = { s.conn.wake with
          ctx := jsCall s.conn.wake.ctx fn [s.ws.wsObj]
          wsi := (emitWriteable fn s.conn.wake.wsi call).2 } := by
        simp only [Speaker.conn, speak, wsWriteable, hr, hon]
      have hkept := speak_kept h (.writeable call) rfl
        (by
          rw [Speaker.written, hconn]
          exact congrArg _ (emitWriteable_written fn s.conn.wake.wsi call))
        (by rw [hconn]; rfl)
      refine ⟨hkept.1, hkept.2, ?_⟩
      have hrequested : (emitWriteable fn s.conn.wake.wsi call).2.requested = true ↔
          call.asks = true :=
        (emitWriteable_requested fn s.conn.wake.wsi call).trans (or_iff_right Bool.false_ne_true)
      have hwant : s.conn.wake.session.wantWrite = s.conn.session.wantWrite := rfl
      unfold Speaker.Heeded Speaker.Ignored
      rw [hconn, hrequested, hwant, hr, hon]
      simp only [Option.isSome_some, true_and]
      cases call.asks <;> simp

theorem speak_set (h : SpeakerInv s) (value : JSValue) :
    Spoken s (speak s (.setOnWriteable value)) (.setOnWriteable value) ∧
      SpeakerInv (speak s (.setOnWriteable value)) ∧
      (s.Heeded → (speak s (.setOnWriteable value)).Heeded) := by
  have hkept := speak_kept h (.setOnWriteable value) rfl
    (congrArg (List.map LwsWrite.frame)
      (minnetClientSet_written (s.ws.onWriteable, s.ws.conn.wsi) value)) rfl
  refine ⟨hkept.1, hkept.2, ?_⟩
  intro hheeded hwant
  obtain ⟨hrequested, -⟩ := foldl_set_spec [value] (s.ws.onWriteable, s.ws.conn.wsi)
  exact hrequested.2 (Or.inl (hheeded hwant))

/-- One event of the sender: what becomes of its messages, and of the wakeup it waits for. -/
theorem speak_frames (h : SpeakerInv s) (e : SpeakEvent) :
    Spoken s (speak s e) e ∧ SpeakerInv (speak s e) ∧
      (s.Heeded → ((speak s e).Heeded ↔ ¬s.Ignored e)) := by
  cases e with
  | send p =>
    obtain ⟨hspoken, hinv, hheed⟩ := speak_send h p
    exact ⟨hspoken, hinv, fun hheeded => iff_of_true (hheed hheeded) id⟩
  | writeable call =>
    obtain ⟨hspoken, hinv, hheed⟩ := speak_writeable h call
    exact ⟨hspoken, hinv, fun _ => hheed⟩
  | setOnWriteable value =>
    obtain ⟨hspoken, hinv, hheed⟩ := speak_set h value
    exact ⟨hspoken, hinv, fun hheeded => iff_of_true (hheed hheeded) id⟩

def speakStep (s : Speaker) (e : SpeakEvent) : Option Speaker := some (speak s e)

/-- **When a client's wakeup is lost.** Throughout a run of a client's sends, writeable events and
settings of `onwriteable`, a writeable event is on its way whenever the session has asked for one,
if and only if no handler that is called while the session waits for the event leaves the next one
unasked for. -/
theorem client_wakes_iff (wsObj : JSValue) (ctx : JSContext) (events : List SpeakEvent) :
    PartialRun.Throughout speakStep Speaker.Heeded (.fresh .client wsObj ctx) events ↔
      PartialRun.Meets speakStep (fun s e => ¬s.Ignored e) (.fresh .client wsObj ctx) events := by
  have hkeep : ∀ s e s', SpeakerInv s → speakStep s e = some s' → SpeakerInv s' := by
    intro s e s' h hstep
    obtain rfl := Option.some.inj hstep
    exact (speak_frames h e).2.1
  have hstep : ∀ s e s', SpeakerInv s → s.Heeded → speakStep s e = some s' →
      (s'.Heeded ↔ ¬s.Ignored e) := by
    intro s e s' h hheeded hstep
    obtain rfl := Option.some.inj hstep
    exact (speak_frames h e).2.2 hheeded
  exact PartialRun.throughout_iff_meets hkeep hstep events (speakerInv_fresh .client wsObj ctx)
    fun hw => absurd hw Bool.false_ne_true

/-- The messages written, then those that wait, are the messages passed to `send()`. -/
def Speaker.Balanced (s : Speaker) : Prop := Fifo.Balanced s.ledger

/-- A sender whose messages are in order, and which is woken while bytes wait. -/
structure Speaks (s : Speaker) : Prop where
  inv : SpeakerInv s
  heeded : s.Heeded
  balanced : s.Balanced

theorem speaks_fresh (role : Role) (wsObj : JSValue) (ctx : JSContext) :
    Speaks (.fresh role wsObj ctx) :=
  ⟨speakerInv_fresh role wsObj ctx, fun hw => absurd hw Bool.false_ne_true, rfl⟩

theorem speak_written (h : SpeakerInv s) (e : SpeakEvent) : s.written <+: (speak s e).written := by
  have hsent : (speak s e).written = (speak s e).ledger.sent := rfl
  rw [hsent]
  cases (speak_frames h e).1 with
  | written p _ hledger =>
    rw [hledger]
    exact List.prefix_append _ _
  | waits p hledger =>
    rw [hledger]
    exact List.prefix_rfl
  | sent e n hledger =>
    rw [hledger]
    exact List.prefix_append _ _

theorem speak_balanced (h : SpeakerInv s) (hbalanced : s.Balanced) {e : SpeakEvent}
    (hovertakes : ¬s.Overtakes e) : (speak s e).Balanced := by
  unfold Speaker.Balanced
  cases (speak_frames h e).1 with
  | written p hw hledger =>
    rw [hledger, Fifo.bypass_balanced_iff hbalanced, Fifo.cons_comm_iff]
    intro m hm
    by_contra hne
    exact hovertakes ⟨hw, m, hm, hne⟩
  | waits p hledger =>
    rw [hledger]
    exact Fifo.accept_balanced hbalanced
  | sent e n hledger =>
    rw [hledger]
    exact Fifo.pass_balanced hbalanced

theorem Speaks.speak (h : Speaks s) {e : SpeakEvent} (hovertakes : ¬s.Overtakes e)
    (hignored : ¬s.Ignored e) : Speaks (speak s e) := by
  obtain ⟨-, hinv, hheeded⟩ := speak_frames h.inv e
  exact ⟨hinv, (hheeded h.heeded).2 hignored, speak_balanced h.inv h.balanced hovertakes⟩

/-- A server does not mark its sessions writable, and has no handler for the event. -/
structure ServerSpeaks (s : Speaker) : Prop where
  role : s.ws.role = .server
  unmarked : s.ws.writable = false

theorem ServerSpeaks.speak (h : ServerSpeaks s) (e : SpeakEvent) : ServerSpeaks (speak s e) := by
  cases e with
  | send p =>
    simp only [QjsNet.speak, minnetWsSend, h.unmarked, Bool.false_eq_true, if_false]
    split
    · exact ⟨h.role, rfl⟩
    · exact ⟨h.role, rfl⟩
  | writeable call =>
    constructor
    · simp only [QjsNet.speak, wsWriteable, h.role]
    · simp only [QjsNet.speak, wsWriteable, h.role, h.unmarked]
  | setOnWriteable value => exact ⟨h.role, h.unmarked⟩

theorem ServerSpeaks.orderly (h : ServerSpeaks s) (e : SpeakEvent) :
    ¬s.Overtakes e ∧ ¬s.Ignored e := by
  cases e with
  | send p => exact ⟨fun ho => absurd (h.unmarked.symm.trans ho.1) (by decide), id⟩
  | writeable call => exact ⟨id, fun hi => absurd (h.role.symm.trans hi.1) (by decide)⟩
  | setOnWriteable value => exact ⟨id, id⟩

/-! ## The connection -/

abbrev Wire := Framing.Wire Int UInt8

/-- What a sender has written since `s`. -/
def Speaker.since (t s : Speaker) : List Frame := t.written.drop s.written.length

variable {w : Wire} {a : Framing.Assembly Int UInt8}

theorem speak_put (h : SpeakerInv s) (hwhole : Framing.Whole w a s.written) (e : SpeakEvent) :
    Framing.Whole (w.put ((speak s e).since s)) a (speak s e).written := by
  obtain ⟨fs, hfs⟩ := speak_written h e
  have hsince : (speak s e).since s = fs := by
    rw [Speaker.since, ← hfs, List.drop_left]
  rw [hsince, ← hfs]
  exact hwhole.put fs

/-- What has arrived is the first messages passed to `send()`; when nothing is on its way, the
others are empty. -/
theorem arrived (h : Speaks s) (hwhole : Framing.Whole w a s.written) :
    a.done = (s.passed.take a.done.length).map Payload.frame ∧
      (w.Idle → s.conn.wsi.requested = false → ∀ p ∈ s.passed.drop a.done.length, p.data = []) := by
  have hbalanced : s.written ++ s.queued = s.passed.map Payload.frame := h.balanced
  obtain ⟨rest, hrest⟩ := hwhole.isPrefix
  have hall : s.passed.map Payload.frame = a.done ++ (rest ++ s.queued) := by
    rw [← hbalanced, ← hrest, List.append_assoc]
  refine ⟨?_, ?_⟩
  · rw [List.map_take, hall, List.take_left]
  · intro hidle hquiet p hp
    have hdone : a.done = s.written := hwhole.of_idle hidle
    have hdrop : (s.passed.drop a.done.length).map Payload.frame = s.queued := by
      rw [List.map_drop, ← hbalanced, hdone, List.drop_left]
    have hbytes : itemsBytes s.queue = [] := by
      by_contra hne
      exact absurd (hquiet.symm.trans (h.heeded (h.inv.asked hne))) (by decide)
    have hframe : p.frame ∈ s.queued := hdrop ▸ List.mem_map_of_mem hp
    obtain ⟨i, hi, hif⟩ := List.mem_map.1 hframe
    have hdata : i.block.data = [] := List.flatMap_eq_nil_iff.1 hbytes i hi
    rw [← Payload.frame_data, ← hif]
    exact hdata

/-! ## From a server to a client -/

structure ServerLink where
  server : Speaker
  wire : Wire
  client : MinnetClient

inductive LinkEvent where
  | speak (e : SpeakEvent)
  /-- The next fragment arrives. -/
  | fragment (n : Nat) (final : Bool)
  /-- The script at the client leaves the generator and the handler like this. -/
  | script (gen : Option Generator) (onMessage : Option JSValue)
  deriving DecidableEq, Repr

def serverLinkStep (l : ServerLink) : LinkEvent → Option ServerLink
  | .speak e =>
    let server := speak l.server e
    some { l with server, wire := l.wire.put (server.since l.server) }
  | .fragment n final => do
    let (f, wire) ← l.wire.next n final
    let client ← clientReceive l.client false f.first f.final f.data
    some { l with wire, client }
  | .script gen onMessage => some { l with client := { l.client with gen, onMessage } }

/-- The client has put together what `a` has, and holds the message that has begun. -/
structure Receives (c : MinnetClient) (a : Framing.Assembly Int UInt8) : Prop where
  holding : RecvqHolds c (a.part.toList.map Framing.Message.data)
  messages : c.messages = a.done.map fun m => c.message m.data

variable {c c' : MinnetClient} {f : Framing.Fragment Int UInt8}

theorem Receives.receive (h : Receives c a) (hfirst : f.first = a.part.isNone)
    (hreceive : clientReceive c false f.first f.final f.data = some c') :
    Receives c' (a.take f) := by
  obtain ⟨tag, first, final, data⟩ := f
  obtain ⟨done, part⟩ := a
  cases part with
  | none =>
    obtain rfl : first = true := hfirst
    cases final with
    | true =>
      have hhands := handOver_hands ((receive_single h.holding data).symm.trans hreceive)
      refine ⟨h.holding.hands hhands, ?_⟩
      rw [hhands.messages, h.messages, hhands.message]
      simp [Framing.Assembly.take]
    | false =>
      obtain ⟨c₁, heq, hholds, hhanded, -, hmessage⟩ := receive_first h.holding data
      obtain rfl : c₁ = c' := Option.some.inj (heq.symm.trans hreceive)
      refine ⟨hholds, ?_⟩
      rw [MinnetClient.messages, hhanded, hmessage]
      exact h.messages
  | some m =>
    obtain rfl : first = false := hfirst
    cases final with
    | true =>
      obtain ⟨hholds, hmessages, hmessage⟩ := receive_last_hands h.holding hreceive
      refine ⟨hholds, ?_⟩
      rw [hmessages, h.messages, hmessage]
      simp [Framing.Assembly.take]
    | false =>
      obtain ⟨c₁, heq, hholds, hhanded, -, hmessage⟩ := receive_more h.holding data
      obtain rfl : c₁ = c' := Option.some.inj (heq.symm.trans hreceive)
      refine ⟨hholds, ?_⟩
      rw [MinnetClient.messages, hhanded, hmessage]
      exact h.messages

structure ServerLinkInv (l : ServerLink) (a : Framing.Assembly Int UInt8) : Prop where
  server : ServerSpeaks l.server
  speaks : Speaks l.server
  whole : Framing.Whole l.wire a l.server.written
  receives : Receives l.client a

theorem serverLinkStep_inv {l l' : ServerLink} {e : LinkEvent} (h : ServerLinkInv l a)
    (hstep : serverLinkStep l e = some l') : ∃ a', ServerLinkInv l' a' := by
  cases e with
  | speak e =>
    obtain rfl := Option.some.inj hstep
    obtain ⟨hovertakes, hignored⟩ := h.server.orderly e
    exact ⟨a, h.server.speak e, h.speaks.speak hovertakes hignored,
      speak_put h.speaks.inv h.whole e, h.receives⟩
  | fragment n final =>
    obtain ⟨⟨f, wire⟩, hnext, hrest⟩ := Option.bind_eq_some_iff.1 hstep
    obtain ⟨client, hreceive, hl⟩ := Option.bind_eq_some_iff.1 hrest
    obtain rfl := Option.some.inj hl
    exact ⟨a.take f, h.server, h.speaks, h.whole.next hnext,
      h.receives.receive (h.whole.first hnext) hreceive⟩
  | script gen onMessage =>
    obtain rfl := Option.some.inj hstep
    exact ⟨a, h.server, h.speaks, h.whole,
      ⟨h.receives.holding.items, h.receives.holding.separate, h.receives.holding.unbuffered⟩,
      h.receives.messages⟩

def ServerLink.fresh (c : MinnetClient) (wsObj : JSValue) (ctx : JSContext) : ServerLink :=
  ⟨.fresh .server wsObj ctx, .empty, c⟩

/-- No frame is on the wire, and no writeable event is on its way. -/
def ServerLink.Quiet (l : ServerLink) : Prop :=
  l.wire.Idle ∧ l.server.conn.wsi.requested = false

/-- What an event does to the client: a fragment has it hand over messages, by the calls that
`HandsOver` says, and nothing else has. -/
def ServerLink.Tells (l : ServerLink) : LinkEvent → ServerLink → Prop
  | .speak _, l' => l'.client = l.client
  | .fragment _ _, l' => ∃ f : Framing.Fragment Int UInt8,
      HandsOver l.client (.receive false f.first f.final f.data) l'.client
  | .script gen onMessage, l' => l'.client = { l.client with gen, onMessage }

/-- What the client hands over for a message. -/
def MinnetClient.payload (c : MinnetClient) (p : Payload) : JSValue := c.message p.data

theorem serverLinkInv_fresh {c : MinnetClient} (hline : c.lineBuffered = false)
    (hrecvq : c.recvq = none) (hhanded : c.handed = []) (wsObj : JSValue) (ctx : JSContext) :
    ServerLinkInv (.fresh c wsObj ctx) .empty := by
  have hqueue : c.queue = queueNew := by
    rw [MinnetClient.queue, hrecvq]
    rfl
  refine ⟨⟨rfl, rfl⟩, speaks_fresh .server wsObj ctx, .empty, ⟨⟨?_, ?_, hline⟩, ?_⟩⟩
  · rw [ServerLink.fresh, hqueue]
    rfl
  · rw [ServerLink.fresh, hqueue]
    rfl
  · rw [ServerLink.fresh, MinnetClient.messages, hhanded]
    rfl

theorem ServerLinkInv.length {l : ServerLink} (h : ServerLinkInv l a) :
    l.client.messages.length = a.done.length := by
  rw [h.receives.messages, List.length_map]

/-- The client has handed over the first messages. -/
theorem ServerLinkInv.first_messages {l : ServerLink} (h : ServerLinkInv l a) :
    l.client.messages =
      (l.server.passed.take l.client.messages.length).map l.client.payload := by
  have hdone := (arrived h.speaks h.whole).1
  calc l.client.messages
      = a.done.map fun m => l.client.message m.data := h.receives.messages
    _ = ((l.server.passed.take a.done.length).map Payload.frame).map
          fun m => l.client.message m.data := congrArg _ hdone
    _ = (l.server.passed.take a.done.length).map l.client.payload := by
      rw [List.map_map]
      apply List.map_congr_left
      intro p _
      exact congrArg l.client.message p.frame_data
    _ = (l.server.passed.take l.client.messages.length).map l.client.payload := by
      rw [h.length]

theorem serverLinkStep_tells {l l' : ServerLink} {e : LinkEvent} (h : ServerLinkInv l a)
    (hstep : serverLinkStep l e = some l') : l.Tells e l' := by
  cases e with
  | speak e =>
    obtain rfl := Option.some.inj hstep
    rfl
  | fragment n final =>
    obtain ⟨⟨f, wire⟩, -, hrest⟩ := Option.bind_eq_some_iff.1 hstep
    obtain ⟨client, hreceive, hl⟩ := Option.bind_eq_some_iff.1 hrest
    obtain rfl := Option.some.inj hl
    exact ⟨f, (@clientStep_hands _ _ (.receive false f.first f.final f.data)
      ⟨_, h.receives.holding⟩ hreceive).2⟩
  | script gen onMessage =>
    obtain rfl := Option.some.inj hstep
    rfl

/-- **Messages from a server arrive.** A client without line buffering hands over messages only when
a fragment arrives, by calls of its generator or its handler. In every run, with sends, writeable
events, fragments of any length and changes of the client's receiver in any order, these are the
first messages passed to the server's `send()`, in order and each once; when nothing is on its way,
those that are left are empty. -/
theorem server_messages_arrive {c : MinnetClient} (hline : c.lineBuffered = false)
    (hrecvq : c.recvq = none) (hhanded : c.handed = []) (wsObj : JSValue) (ctx : JSContext)
    (es : List LinkEvent) {l : ServerLink}
    (h : PartialRun.run serverLinkStep (.fresh c wsObj ctx) es = some l) :
    l.client.messages =
        (l.server.passed.take l.client.messages.length).map l.client.payload ∧
      (l.Quiet → ∀ p ∈ l.server.passed.drop l.client.messages.length, p.data = []) ∧
      ∀ pre e post l₁ l₂, es = pre ++ e :: post →
        PartialRun.run serverLinkStep (.fresh c wsObj ctx) pre = some l₁ →
        serverLinkStep l₁ e = some l₂ → l₁.Tells e l₂ := by
  have hkeep : ∀ s e s', (∃ a, ServerLinkInv s a) → serverLinkStep s e = some s' →
      ∃ a, ServerLinkInv s' a := by
    intro s e s' hs hstep
    obtain ⟨a, ha⟩ := hs
    exact serverLinkStep_inv ha hstep
  have hfresh := serverLinkInv_fresh hline hrecvq hhanded wsObj ctx
  obtain ⟨a, hinv⟩ := PartialRun.run_induct hkeep es ⟨_, hfresh⟩ h
  refine ⟨hinv.first_messages, ?_, ?_⟩
  · intro hquiet
    rw [hinv.length]
    exact (arrived hinv.speaks hinv.whole).2 hquiet.1 hquiet.2
  · intro pre e post l₁ l₂ _ hpre hstep
    obtain ⟨a₁, hinv₁⟩ := PartialRun.run_induct hkeep pre ⟨_, hfresh⟩ hpre
    exact serverLinkStep_tells hinv₁ hstep

/-- A server sends `ab` and `c`; the first arrives in two fragments, the second is still queued. -/
def sendsTwo : List LinkEvent :=
  [.speak (.send (.string [97, 98])), .speak (.send (.string [99])),
    .speak (.writeable ⟨[], .undefined⟩), .fragment 1 false, .fragment 1 true]

theorem server_messages_arrive_two :
    ∃ l, PartialRun.run serverLinkStep (.fresh (.new false false none none .undefined .new)
        .undefined .new) sendsTwo = some l ∧
      l.client.messages = [.string [97, 98]] ∧ l.client.messages =
        (l.server.passed.take l.client.messages.length).map l.client.payload := by
  refine ⟨_, rfl, rfl, ?_⟩
  exact (@server_messages_arrive (.new false false none none .undefined .new) rfl rfl rfl .undefined
    .new sendsTwo _ rfl).1

/-! ## From a client to a server -/

/-- `binary ? JS_NewArrayBufferCopy(ctx, in, len) : JS_NewStringLen(ctx, in, len)` -/
def receivedValue (tag : Int) (data : Bytes) : JSValue :=
  if tag = lwsWriteBinary then .arrayBuffer data else .string data

/-- A fragment as the script has it: each one is made a value of its own, and a text is decoded, so
that its bytes are those of the decoded text. -/
def heard (decode : Bytes → Bytes) (f : Framing.Fragment Int UInt8) : Framing.Fragment Int UInt8 :=
  if f.tag = lwsWriteBinary then f else { f with data := decode f.data }

/-- The server's side of a connection. `onMessage` is the handler when it has a context. -/
structure ServerSocket where
  wsObj : JSValue
  onMessage : Option JSValue
  ctx : JSContext
  deriving DecidableEq, Repr

/-- `args` -/
def ServerSocket.messageArgs (server : ServerSocket) (f : Framing.Fragment Int UInt8) :
    List JSValue :=
  [server.wsObj, receivedValue f.tag f.data, .bool f.first, .bool f.final]

def ServerSocket.receive (decode : Bytes → Bytes) (server : ServerSocket)
    (f : Framing.Fragment Int UInt8) : ServerSocket :=
  match server.onMessage with
  | none => server
  | some fn => { server with ctx := jsCall server.ctx fn (server.messageArgs (heard decode f)) }

structure ClientLink where
  client : Speaker
  wire : Wire
  server : ServerSocket
  deriving DecidableEq, Repr

inductive ClientLinkEvent where
  | speak (e : SpeakEvent)
  | fragment (n : Nat) (final : Bool)
  deriving DecidableEq, Repr

def ClientLink.fresh (wsObj : JSValue) (ctx : JSContext) (server : ServerSocket) : ClientLink :=
  ⟨.fresh .client wsObj ctx, .empty, server⟩

/-- The event overtakes no message, and loses no wakeup. -/
def ClientLink.Orderly (l : ClientLink) : ClientLinkEvent → Prop
  | .speak e => ¬l.client.Overtakes e ∧ ¬l.client.Ignored e
  | .fragment _ _ => True

instance instDecidableOrderly (l : ClientLink) : ∀ e, Decidable (l.Orderly e)
  | .speak _ => inferInstanceAs (Decidable (_ ∧ _))
  | .fragment _ _ => isTrue trivial

def ClientLink.Quiet (l : ClientLink) : Prop :=
  l.wire.Idle ∧ l.client.conn.wsi.requested = false

/-- The handler of `server₀` was called with the fragments, and nothing else happened. -/
structure Hears (decode : Bytes → Bytes) (server₀ server : ServerSocket) (fn : JSValue)
    (fs : List (Framing.Fragment Int UInt8)) : Prop where
  wsObj : server.wsObj = server₀.wsObj
  handler : server.onMessage = some fn
  log : server.ctx.log = server₀.ctx.log ++
    (fs.map (heard decode)).map fun f => ⟨fn, server₀.messageArgs f⟩

variable {decode : Bytes → Bytes}

theorem Hears.receive {server₀ server : ServerSocket} {fn : JSValue}
    {fs : List (Framing.Fragment Int UInt8)} (h : Hears decode server₀ server fn fs)
    (f : Framing.Fragment Int UInt8) :
    Hears decode server₀ (server.receive decode f) fn (fs ++ [f]) := by
  have hargs : server.messageArgs (heard decode f) = server₀.messageArgs (heard decode f) := by
    rw [ServerSocket.messageArgs, ServerSocket.messageArgs, h.wsObj]
  have hreceive : server.receive decode f =
      { server with ctx := jsCall server.ctx fn (server.messageArgs (heard decode f)) } := by
    rw [ServerSocket.receive, h.handler]
  rw [hreceive]
  refine ⟨h.wsObj, h.handler, ?_⟩
  simp only [jsCall, h.log, hargs, List.map_append, List.map_cons, List.map_nil, List.append_assoc]

/-- The messages that are complete in these fragments, as values. -/
def joined (fs : List (Framing.Fragment Int UInt8)) : List JSValue :=
  (Framing.assemble fs).done.map fun m => receivedValue m.tag m.data

end QjsNet
