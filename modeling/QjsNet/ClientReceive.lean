import QjsNet.GeneratorChunks
import QjsNet.Lib.PartialRun

/- What a client does with the data it receives (`client_callback`, the cases
   `LWS_CALLBACK_RECEIVE`, `LWS_CALLBACK_CLIENT_RECEIVE` and `LWS_CALLBACK_RAW_RX`).

   A message that comes in one fragment is handed over at once. The first fragment of
   a longer one starts an item of the receive queue, the others are appended to
   it, and the last one hands over what the queue holds. With line buffering every
   event goes through the queue, line by line.

   A message goes to the generator when there is one, otherwise to the `onmessage`
   handler. `handed` records every message in order, with its receiver, and is what the
   generator and the handler are called with (`Hands.taken`). Between two
   events the script may use the generator or set the handler (`ClientEvent.script`).
   `none` is a call of the generator that does not return.

   `queue_next` stores the `binary` member of the item, which nobody has set, in a
   variable that is not read again; it is left out.

   Correspondence (C ↔ Lean):
     `client_callback` (receive)             ↔ `clientReceive`
     its loop over the receive queue         ↔ `drainRecvq`
     the body of that loop                   ↔ `MinnetClient.handOver` -/
namespace QjsNet

inductive Receiver where
  | generator
  | handler (fn : JSValue)
  | nobody
  deriving DecidableEq, Repr

structure Handover where
  receiver : Receiver
  msg : JSValue
  deriving DecidableEq, Repr

structure MinnetClient where
  recvq : Option Queue
  lineBuffered : Bool
  binary : Bool
  gen : Option Generator
  /-- The function of the handler, when its context is set. -/
  onMessage : Option JSValue
  wsObj : JSValue
  ctx : JSContext
  handed : List Handover
  deriving DecidableEq, Repr

/-- A client that has received nothing. -/
def MinnetClient.new (lineBuffered binary : Bool) (gen : Option Generator)
    (onMessage : Option JSValue) (wsObj : JSValue) (ctx : JSContext) : MinnetClient :=
  ⟨none, lineBuffered, binary, gen, onMessage, wsObj, ctx, []⟩

/-- The message made of the bytes. -/
def MinnetClient.message (client : MinnetClient) (data : Bytes) : JSValue :=
  if !client.binary || client.lineBuffered then .string data else .arrayBuffer data

def MinnetClient.record (client : MinnetClient) (receiver : Receiver) (msg : JSValue) :
    MinnetClient :=
  { client with handed := client.handed ++ [⟨receiver, msg⟩] }

/-- `callback_emit(&client->on.message, countof(argv), argv)` -/
def MinnetClient.emitMessage (client : MinnetClient) (msg : JSValue) : MinnetClient :=
  match client.onMessage with
  | none => client.record .nobody msg
  | some fn => { client.record (.handler fn) msg with ctx := jsCall client.ctx fn [client.wsObj, msg] }

def MinnetClient.handOver (client : MinnetClient) (msg : JSValue) : Option MinnetClient :=
  match client.gen with
  | none => some (client.emitMessage msg)
  | some gen => do
    let (gen, yielded) ← generatorYield gen msg .undefined
    let client := { client.record .generator msg with gen := some gen }
    some (if yielded then client else client.emitMessage msg)

/-- Every turn but the last takes an item out of the queue. -/
def drainRecvq : Nat → MinnetClient → Option MinnetClient
  | 0, client => some client
  | fuel + 1, client =>
    match client.recvq with
    | none => some client
    | some q =>
      if q.size = 0 then some client
      else do
        let (q, ctx, blk, done, _) := queueNext q client.ctx
        let client := { client with recvq := some q, ctx }
        let client ← client.handOver (client.message blk.data)
        if done then some client else drainRecvq fuel client

/-- The receive queue, if it was there from the start. -/
def MinnetClient.queue (client : MinnetClient) : Queue := client.recvq.getD queueNew

def MinnetClient.hold (client : MinnetClient) (q : Queue) : MinnetClient :=
  { client with recvq := some q }

/-- The receive queue with the data of an event. -/
def MinnetClient.enqueued (client : MinnetClient) (first : Bool) (data : Bytes) : Queue :=
  if client.lineBuffered then (queuePutline client.queue data).1
  else if first then (queueWrite client.queue data).1
  else (queueAppend client.queue data).1

def clientReceive (client : MinnetClient) (raw first final : Bool) (data : Bytes) :
    Option MinnetClient :=
  let first := raw || first
  let final := raw || final
  if first && final && !client.lineBuffered then client.handOver (client.message data)
  else
    let q := client.enqueued first data
    if final then drainRecvq q.size (client.hold q) else some (client.hold q)

inductive ClientEvent where
  /-- `LWS_CALLBACK_RAW_RX`, or a receive event of a WebSocket with the flags of its fragment. -/
  | receive (raw first final : Bool) (data : Bytes)
  /-- The script leaves the generator and the handler like this. -/
  | script (gen : Option Generator) (onMessage : Option JSValue)
  deriving DecidableEq, Repr

def ClientEvent.data : ClientEvent → Bytes
  | .receive _ _ _ data => data
  | .script .. => []

def ClientEvent.isReceive : ClientEvent → Bool
  | .receive .. => true
  | .script .. => false

def clientStep (client : MinnetClient) : ClientEvent → Option MinnetClient
  | .receive raw first final data => clientReceive client raw first final data
  | .script gen onMessage => some { client with gen, onMessage }

/-! ## Handing over -/

/-- Where a message goes. -/
def MinnetClient.receiver (client : MinnetClient) : Receiver :=
  if client.gen.isSome then .generator else client.onMessage.elim .nobody .handler

/-- The messages that were handed over, whoever took them. -/
def MinnetClient.messages (client : MinnetClient) : List JSValue := client.handed.map (·.msg)

/-- What takes the messages: the generator, and the calls that are made. -/
structure Intake where
  gen : Option Generator
  ctx : JSContext
  deriving DecidableEq, Repr

/-- A message goes to `generator_yield` when there is a generator, otherwise to the handler that is
set. -/
def Intake.take (onMessage : Option JSValue) (wsObj : JSValue) (i : Intake) (msg : JSValue) :
    Option Intake :=
  match i.gen with
  | some gen => (generatorYield gen msg .undefined).map fun y => { i with gen := some y.1 }
  | none => some (onMessage.elim i fun fn => { i with ctx := jsCall i.ctx fn [wsObj, msg] })

def MinnetClient.intake (client : MinnetClient) : Intake := ⟨client.gen, client.ctx⟩

/-- The messages were handed over to the receiver of `c`, which took them one after the other, and
nothing else is different but the generator and the context. -/
structure Hands (c c' : MinnetClient) (msgs : List JSValue) : Prop where
  handed : c'.handed = c.handed ++ msgs.map (⟨c.receiver, ·⟩)
  receiver : c'.receiver = c.receiver
  recvq : c'.recvq = c.recvq
  lineBuffered : c'.lineBuffered = c.lineBuffered
  binary : c'.binary = c.binary
  onMessage : c'.onMessage = c.onMessage
  wsObj : c'.wsObj = c.wsObj
  taken : msgs.foldlM (Intake.take c.onMessage c.wsObj) c.intake = some c'.intake

variable {c c' : MinnetClient} {msgs : List JSValue} {msg : JSValue}

theorem Hands.messages (h : Hands c c' msgs) : c'.messages = c.messages ++ msgs := by
  unfold MinnetClient.messages
  rw [h.handed, List.map_append, List.map_map]
  exact congrArg _ (List.map_id'' (fun _ => rfl) msgs)

theorem Hands.message (h : Hands c c' msgs) : c'.message = c.message := by
  funext data
  unfold MinnetClient.message
  rw [h.binary, h.lineBuffered]

theorem emitMessage_hands (hgen : c.gen = none) (msg : JSValue) : Hands c (c.emitMessage msg) [msg] := by
  have hreceiver : c.receiver = c.onMessage.elim .nobody .handler := by
    simp [MinnetClient.receiver, hgen]
  unfold MinnetClient.emitMessage
  cases hfn : c.onMessage with
  | none =>
    refine ⟨by rw [hreceiver, hfn]; rfl, rfl, rfl, rfl, rfl, rfl, rfl, ?_⟩
    rw [List.foldlM_cons, Intake.take, MinnetClient.intake, hgen, hfn]
    exact congrArg (fun gen => some (Intake.mk gen c.ctx)) hgen.symm
  | some fn =>
    refine ⟨by rw [hreceiver, hfn]; rfl, rfl, rfl, rfl, rfl, rfl, rfl, ?_⟩
    rw [List.foldlM_cons, Intake.take, MinnetClient.intake, hgen, hfn]
    exact congrArg (fun gen => some (Intake.mk gen (jsCall c.ctx fn [c.wsObj, msg]))) hgen.symm

theorem generatorYield_true {gen gen' : Generator} {v cb : JSValue} {yielded : Bool}
    (h : generatorYield gen v cb = some (gen', yielded)) : yielded = true := by
  unfold generatorYield at h
  cases hy : iteratorYield gen v with
  | mk gen₁ b =>
    simp only [hy] at h
    split at h
    · exact (Prod.mk.inj (Option.some.inj h)).2.symm
    · obtain ⟨⟨gen₂, ret⟩, -, h2⟩ := Option.bind_eq_some_iff.1 h
      exact (Prod.mk.inj (Option.some.inj h2)).2.symm

theorem handOver_hands (h : c.handOver msg = some c') : Hands c c' [msg] := by
  unfold MinnetClient.handOver at h
  cases hgen : c.gen with
  | none =>
    simp only [hgen] at h
    exact Option.some.inj h ▸ emitMessage_hands hgen msg
  | some gen =>
    simp only [hgen] at h
    obtain ⟨⟨gen', yielded⟩, hyield, hc'⟩ := Option.bind_eq_some_iff.1 h
    rw [generatorYield_true hyield] at hc'
    have hreceiver : c.receiver = .generator := by
      simp [MinnetClient.receiver, hgen]
    rw [← Option.some.inj hc']
    refine ⟨by rw [hreceiver]; rfl, hreceiver.symm, rfl, rfl, rfl, rfl, rfl, ?_⟩
    rw [List.foldlM_cons, Intake.take, MinnetClient.intake, hgen]
    simp only [hyield]
    rfl

/-! ## A generator that returns -/

/-- Nothing is cut into empty pieces. -/
def Generator.Cuts (gen : Generator) : Prop := gen.buffering = true → 0 < gen.chunkSize

theorem enqueueBlock_keeps {gen gen' : Generator} {blk : ByteBlock} {cb : JSValue} {ret : Nat}
    (h : enqueueBlock gen blk cb = some (gen', ret)) : ∃ q, gen' = gen.setQueue q := by
  simp only [enqueueBlock] at h
  split at h
  · split at h
    · exact ⟨_, (Prod.mk.inj (Option.some.inj h)).1.symm⟩
    · obtain ⟨q, -, hq⟩ := Option.bind_eq_some_iff.1 h
      exact ⟨q, (Prod.mk.inj (Option.some.inj hq)).1.symm⟩
  · split at h
    · exact ⟨_, (Prod.mk.inj (Option.some.inj h)).1.symm⟩
    · exact ⟨_, (Prod.mk.inj (Option.some.inj h)).1.symm⟩

theorem generatorYield_total {gen : Generator} (hcuts : gen.Cuts) (v cb : JSValue) :
    ∃ gen', generatorYield gen v cb = some (gen', true) ∧ gen'.Cuts := by
  unfold generatorYield
  cases hreads : gen.iterator.reads with
  | nil =>
    rw [iteratorYield_nil hreads]
    obtain ⟨gen', ret, henq⟩ := enqueueBlock_total hcuts (blockCopy (jsInputChars v)) cb
    obtain ⟨q, rfl⟩ := enqueueBlock_keeps henq
    have henq' : enqueueValue gen v cb = some (gen.setQueue q, ret) := henq
    simp only [Bool.false_eq_true, if_false, henq']
    exact ⟨_, rfl, hcuts⟩
  | cons rd reads =>
    rw [iteratorYield_cons hreads]
    simp only [if_true]
    exact ⟨_, rfl, hcuts⟩

/-- The client has no generator or one that returns. -/
def MinnetClient.Cuts (client : MinnetClient) : Prop := ∀ gen ∈ client.gen, gen.Cuts

theorem emitMessage_gen (c : MinnetClient) (msg : JSValue) : (c.emitMessage msg).gen = c.gen := by
  unfold MinnetClient.emitMessage
  split
  · rfl
  · rfl

theorem handOver_total (hcuts : c.Cuts) (msg : JSValue) : ∃ c', c.handOver msg = some c' ∧ c'.Cuts := by
  unfold MinnetClient.handOver
  cases hgen : c.gen with
  | none =>
    refine ⟨_, rfl, ?_⟩
    intro gen h
    rw [emitMessage_gen, hgen] at h
    cases h
  | some gen =>
    obtain ⟨gen', hyield, hcuts'⟩ := generatorYield_total (hcuts gen hgen) msg .undefined
    simp only [hyield]
    refine ⟨_, rfl, ?_⟩
    intro gen₁ h
    exact Option.some.inj h ▸ hcuts'

/-! ## Draining the queue -/

/-- The chunks were handed over, and the queue is empty. -/
structure Emptied (c c' : MinnetClient) (chunks : List Bytes) : Prop where
  hands : Hands { c with recvq := c'.recvq } c' (chunks.map c.message)
  empty : ∃ q, c'.recvq = some q ∧ q.items = [] ∧ q.continuous = c.queue.continuous

theorem drainRecvq_nil {q : Queue} (hq : c.recvq = some q) (hitems : q.items = []) (fuel : Nat) :
    drainRecvq fuel c = some c := by
  cases fuel with
  | zero => rfl
  | succ fuel =>
    rw [drainRecvq, hq]
    simp only [q.size_eq, hitems, List.length_nil, if_true]

theorem drainRecvq_cons {q : Queue} {chunk : Bytes} {chunks : List Bytes} (hq : c.recvq = some q)
    (hitems : q.items = chunkItem chunk :: chunks.map chunkItem) (fuel : Nat) :
    drainRecvq (fuel + 1) c
      = ((c.hold q.delHead).handOver (c.message chunk)).bind (drainRecvq fuel) := by
  have hsize : q.size ≠ 0 := by
    rw [q.size_eq, hitems, List.length_cons]
    exact Nat.succ_ne_zero _
  rw [drainRecvq, hq]
  simp only [hsize, if_false, queueNext_cons hitems rfl]
  rfl

theorem delHead_chunks {q : Queue} {chunk : Bytes} {chunks : List Bytes}
    (hitems : q.items = chunkItem chunk :: chunks.map chunkItem) :
    q.delHead.items = chunks.map chunkItem := by
  rw [delHead_items, hitems]
  rfl

theorem drainRecvq_chunks (chunks : List Bytes) : ∀ {c c' : MinnetClient} {q : Queue} {fuel : Nat},
    c.recvq = some q → q.items = chunks.map chunkItem → chunks.length ≤ fuel →
    drainRecvq fuel c = some c' → Emptied c c' chunks := by
  induction chunks with
  | nil =>
    intro c c' q fuel hq hitems _ h
    rw [drainRecvq_nil hq hitems] at h
    obtain rfl := Option.some.inj h
    exact ⟨⟨(List.append_nil _).symm, rfl, rfl, rfl, rfl, rfl, rfl, rfl⟩, q, hq, hitems, by
      rw [MinnetClient.queue, hq]; rfl⟩
  | cons chunk chunks ih =>
    intro c c' q fuel hq hitems hfuel h
    cases fuel with
    | zero => exact absurd hfuel (Nat.not_succ_le_zero _)
    | succ fuel =>
      rw [drainRecvq_cons hq hitems] at h
      obtain ⟨c₁, h1, h2⟩ := Option.bind_eq_some_iff.1 h
      have hfirst := handOver_hands h1
      have hrest := ih hfirst.recvq (delHead_chunks hitems) (Nat.le_of_succ_le_succ hfuel) h2
      refine ⟨⟨?_, hrest.hands.receiver.trans hfirst.receiver, rfl,
        hrest.hands.lineBuffered.trans hfirst.lineBuffered,
        hrest.hands.binary.trans hfirst.binary, hrest.hands.onMessage.trans hfirst.onMessage,
        hrest.hands.wsObj.trans hfirst.wsObj, ?_⟩, ?_⟩
      · have hhanded : c'.handed = c₁.handed ++ (chunks.map c₁.message).map (⟨c₁.receiver, ·⟩) :=
          hrest.hands.handed
        rw [hhanded, hfirst.handed, hfirst.message, hfirst.receiver, List.append_assoc]
        rfl
      · have hfirsttaken := hfirst.taken
        have hresttaken := hrest.hands.taken
        rw [hfirst.message] at hresttaken
        rw [List.map_cons, List.foldlM_cons]
        simp only [List.foldlM_cons, List.foldlM_nil, bind_pure] at hfirsttaken
        refine Option.bind_eq_some_iff.2 ⟨c₁.intake, hfirsttaken, ?_⟩
        rw [show c.onMessage = c₁.onMessage from hfirst.onMessage.symm,
          show c.wsObj = c₁.wsObj from hfirst.wsObj.symm]
        exact hresttaken
      · obtain ⟨q', hq', hempty, hcont⟩ := hrest.empty
        refine ⟨q', hq', hempty, hcont.trans ?_⟩
        rw [MinnetClient.queue, MinnetClient.queue, hfirst.recvq, hq]
        rfl

theorem drainRecvq_total (chunks : List Bytes) : ∀ {c : MinnetClient} {q : Queue} (fuel : Nat),
    c.Cuts → c.recvq = some q → q.items = chunks.map chunkItem →
    ∃ c', drainRecvq fuel c = some c' ∧ c'.Cuts := by
  induction chunks with
  | nil =>
    intro c q fuel hcuts hq hitems
    exact ⟨c, drainRecvq_nil hq hitems fuel, hcuts⟩
  | cons chunk chunks ih =>
    intro c q fuel hcuts hq hitems
    cases fuel with
    | zero => exact ⟨c, rfl, hcuts⟩
    | succ fuel =>
      obtain ⟨c₁, h1, hcuts₁⟩ :=
        @handOver_total (c.hold q.delHead) hcuts (c.message chunk)
      obtain ⟨c', h2, hcuts'⟩ := ih fuel hcuts₁ (handOver_hands h1).recvq (delHead_chunks hitems)
      exact ⟨c', by rw [drainRecvq_cons hq hitems, h1]; exact h2, hcuts'⟩

/-- What an event does: the messages that are handed over go to the receiver at that time, which
takes them one after the other. The script calls nobody on the client's behalf. -/
def HandsOver (c : MinnetClient) (ev : ClientEvent) (c' : MinnetClient) : Prop :=
  ∃ msgs : List JSValue, c'.handed = c.handed ++ msgs.map (⟨c.receiver, ·⟩) ∧
    if ev.isReceive then msgs.foldlM (Intake.take c.onMessage c.wsObj) c.intake = some c'.intake
    else msgs = [] ∧ c'.ctx = c.ctx

theorem Hands.handsOver {raw first final : Bool} {d : Bytes} {msgs : List JSValue}
    (h : Hands c c' msgs) : HandsOver c (.receive raw first final d) c' := ⟨msgs, h.handed, h.taken⟩

end QjsNet
