import QjsNet.Queue

/- A session and its connection (`session.c`, and `ws_enqueue` of `ws.c`).

   `lws_callback_on_writable` asks libwebsockets for one writeable event; `Wsi.requested`
   says that one has been asked for and not come yet. `lws_write` takes the whole
   buffer it is given, and `Wsi.written` lists those buffers in order.

   Correspondence (C ↔ Lean):
     `session_want_write`, `session_writable` ↔ `sessionWantWrite`, `sessionWritable`
     `ws_enqueue` ↔ `wsEnqueue`
     `minnet_client_set` (`CLIENT_ONWRITEABLE`) ↔ `minnetClientSet`
     a client's writeable event with a handler  ↔ `emitWriteable` -/
namespace QjsNet

/-- One `lws_write`, with its `enum lws_write_protocol`. -/
structure LwsWrite where
  data : Bytes
  protocol : Int
  deriving DecidableEq, Repr

/-- `LWS_WRITE_TEXT`, `LWS_WRITE_BINARY` -/
def lwsWriteText : Int := 0
def lwsWriteBinary : Int := 1

structure Wsi where
  requested : Bool
  written : List LwsWrite
  deriving DecidableEq, Repr

def lwsCallbackOnWritable (wsi : Wsi) : Wsi := { wsi with requested := true }

def lwsWrite (wsi : Wsi) (data : Bytes) (protocol : Int) : Wsi × Int :=
  ({ wsi with written := wsi.written ++ [⟨data, protocol⟩] }, data.length)

/-! ## The handler of writeable events -/

/-- `minnet_client_set` of `CLIENT_ONWRITEABLE`: the handler, when its context is set, and the
socket. -/
def minnetClientSet (handler : Option JSValue × Wsi) (value : JSValue) : Option JSValue × Wsi :=
  if value = .null then (none, handler.2) else (some value, lwsCallbackOnWritable handler.2)

/-- What a call of the handler does: the values that it sets `onwriteable` to, and the one that it
returns. -/
structure WriteableCall where
  sets : List JSValue
  ret : JSValue
  deriving DecidableEq, Repr

/-- A writeable event that goes to the handler: `on.writeable.ctx` is looked at again behind the
call. -/
def emitWriteable (fn : JSValue) (wsi : Wsi) (call : WriteableCall) : Option JSValue × Wsi :=
  let (handler, wsi) := call.sets.foldl minnetClientSet (some fn, wsi)
  let handler := if call.ret = .bool false then none else handler
  (handler, if handler.isSome then lwsCallbackOnWritable wsi else wsi)

/-- Another event is asked for: the handler is set anew, or it stays and does not return `false`. -/
def WriteableCall.asks (call : WriteableCall) : Bool :=
  call.sets.any (· ≠ .null) || (call.sets.isEmpty && call.ret ≠ .bool false)

theorem minnetClientSet_written (handler : Option JSValue × Wsi) (value : JSValue) :
    (minnetClientSet handler value).2.written = handler.2.written := by
  unfold minnetClientSet
  split <;> rfl

theorem foldl_set_written (values : List JSValue) : ∀ handler : Option JSValue × Wsi,
    (values.foldl minnetClientSet handler).2.written = handler.2.written := by
  induction values with
  | nil => intro _; rfl
  | cons value values ih =>
    intro handler
    rw [List.foldl_cons, ih, minnetClientSet_written]

theorem emitWriteable_written (fn : JSValue) (wsi : Wsi) (call : WriteableCall) :
    (emitWriteable fn wsi call).2.written = wsi.written := by
  have hasked : ∀ (handler : Option JSValue) (wsi : Wsi),
      (if handler.isSome then lwsCallbackOnWritable wsi else wsi).written = wsi.written := by
    intro handler wsi
    split <;> rfl
  unfold emitWriteable
  dsimp only
  rw [hasked]
  exact foldl_set_written call.sets (some fn, wsi)

/-- A handler is there behind the settings when there are none or the last is not null; an event
is asked for when one of them is not null. -/
theorem foldl_set_spec (values : List JSValue) : ∀ handler : Option JSValue × Wsi,
    ((values.foldl minnetClientSet handler).2.requested = true ↔
      handler.2.requested = true ∨ values.any (· ≠ .null) = true) ∧
    ((values.foldl minnetClientSet handler).1.isSome = true →
      (values.any (· ≠ .null) = true ∨ (values = [] ∧ handler.1.isSome = true))) := by
  induction values with
  | nil =>
    intro handler
    exact ⟨by simp, fun h => Or.inr ⟨rfl, h⟩⟩
  | cons value values ih =>
    intro handler
    obtain ⟨hrequested, hsome⟩ := ih (minnetClientSet handler value)
    rw [List.foldl_cons, List.any_cons]
    by_cases hnull : value = .null
    · have hset : minnetClientSet handler value = (none, handler.2) := if_pos hnull
      rw [hset] at hrequested hsome ⊢
      refine ⟨by simpa [hnull] using hrequested, fun h => Or.inl ?_⟩
      rcases hsome h with hany | ⟨-, hnone⟩
      · rw [hany, Bool.or_true]
      · cases hnone
    · have hset : minnetClientSet handler value = (some value, lwsCallbackOnWritable handler.2) :=
        if_neg hnull
      rw [hset] at hrequested ⊢
      exact ⟨iff_of_true (hrequested.2 (Or.inl rfl)) (Or.inr (by simp [hnull])),
        fun _ => Or.inl (by simp [hnull])⟩

theorem emitWriteable_requested (fn : JSValue) (wsi : Wsi) (call : WriteableCall) :
    (emitWriteable fn wsi call).2.requested = true ↔ wsi.requested = true ∨ call.asks = true := by
  obtain ⟨hrequested, hsome⟩ := foldl_set_spec call.sets (some fn, wsi)
  have hempty : call.sets = [] → (call.sets.foldl minnetClientSet (some fn, wsi)).1 = some fn := by
    intro h
    rw [h]
    rfl
  unfold emitWriteable WriteableCall.asks
  dsimp only
  rw [Bool.or_eq_true, Bool.and_eq_true, List.isEmpty_iff, decide_eq_true_eq]
  by_cases hret : call.ret = .bool false
  · rw [if_pos hret]
    simpa [hret] using hrequested
  · rw [if_neg hret]
    split
    · next hhandler =>
      refine iff_of_true rfl (Or.inr ?_)
      rcases hsome hhandler with hany | ⟨hnil, -⟩
      · exact Or.inl hany
      · exact Or.inr ⟨hnil, hret⟩
    · next hhandler =>
      have hne : call.sets ≠ [] := fun h => hhandler (by rw [hempty h]; rfl)
      simpa [hne] using hrequested

structure Session where
  sendq : Queue
  wantWrite : Bool
  deriving DecidableEq, Repr

/-- `session_zero` -/
def sessionZero : Session := ⟨queueNew, false⟩

/-- The session, its `lws*` and the context its callbacks run in. -/
structure Connection where
  session : Session
  wsi : Wsi
  ctx : JSContext
  deriving DecidableEq, Repr

def Connection.fresh (ctx : JSContext) : Connection := ⟨sessionZero, ⟨false, []⟩, ctx⟩

def sessionWantWrite (c : Connection) : Connection :=
  if c.session.wantWrite then c
  else { c with wsi := lwsCallbackOnWritable c.wsi, session := { c.session with wantWrite := true } }

/-- The part of `session_writable` that sends the message in front, with its result. -/
def sendFront (c : Connection) : Connection × Int :=
  if c.session.sendq.size > 0 then
    let (q, ctx, chunk, _, binary) := queueNext c.session.sendq c.ctx
    let (wsi, ret) := lwsWrite c.wsi chunk.data
      (if binary.getD false then lwsWriteBinary else lwsWriteText)
    ({ c with session := { c.session with sendq := q }, wsi, ctx }, ret)
  else (c, 0)

/-- `session_writable`: one message is sent, and the callback is requested again when bytes
are left. -/
def sessionWritable (c : Connection) : Connection × Int :=
  let c := { c with session := { c.session with wantWrite := false } }
  let (c, ret) := sendFront c
  -- bytes are counted, not items
  (if queueBytes c.session.sendq > 0 then sessionWantWrite c else c, ret)

/-- `ws_enqueue`, for a socket whose session is open; the position is the item's. -/
def wsEnqueue (c : Connection) (chunk : ByteBlock) : Connection × Option Nat :=
  let (q, item) := queueAdd c.session.sendq chunk
  let c := { c with session := { c.session with sendq := q } }
  (if item.isSome then sessionWantWrite c else c, item)

/-! ## What each operation does -/

/-- A writeable event arrives: the request it answers is used up. -/
def Connection.wake (c : Connection) : Connection := { c with wsi := { c.wsi with requested := false } }

variable {c : Connection}

@[simp] theorem wantWrite_sendq : (sessionWantWrite c).session.sendq = c.session.sendq := by
  unfold sessionWantWrite
  split <;> rfl

@[simp] theorem wantWrite_written : (sessionWantWrite c).wsi.written = c.wsi.written := by
  unfold sessionWantWrite
  split <;> rfl

@[simp] theorem wantWrite_set : (sessionWantWrite c).session.wantWrite = true := by
  unfold sessionWantWrite
  split
  · next h => exact h
  · rfl

/-- The flag says whether an event has been asked for. -/
def Connection.Armed (c : Connection) : Prop := c.session.wantWrite = c.wsi.requested

theorem Connection.Armed.wantWrite (h : c.Armed) : (sessionWantWrite c).Armed := by
  unfold sessionWantWrite Connection.Armed at *
  split
  · exact h
  · rfl

theorem sendFront_nil (c : Connection) (h : c.session.sendq.items = []) : sendFront c = (c, 0) := by
  simp [sendFront, c.session.sendq.size_eq, h]

theorem sendFront_cons (c : Connection) {i : QueueItem} {is : List QueueItem}
    (h : c.session.sendq.items = i :: is) (hi : i.done = false) :
    (sendFront c).1.session.sendq = c.session.sendq.delHead ∧
      (sendFront c).1.session.wantWrite = c.session.wantWrite ∧
      (sendFront c).1.wsi.requested = c.wsi.requested ∧
      (sendFront c).1.wsi.written = c.wsi.written
        ++ [⟨i.block.data, if i.binary.getD false then lwsWriteBinary else lwsWriteText⟩] := by
  simp [sendFront, c.session.sendq.size_eq, h, queueNext_cons h hi, lwsWrite]

/-- A writeable event sends the message in front and leaves the others in order; another event
is asked for exactly when bytes are left. -/
theorem writable_spec (c : Connection) (h : OpenItems c.session.sendq.items) :
    (sessionWritable c).1.session.sendq.items = c.session.sendq.items.tail ∧
      (sessionWritable c).1.wsi.written.map LwsWrite.data
        = c.wsi.written.map LwsWrite.data ++ (c.session.sendq.items.take 1).map (·.block.data) ∧
      ((sessionWritable c).1.session.wantWrite = true
        ↔ itemsBytes c.session.sendq.items.tail ≠ []) := by
  let c₀ : Connection := { c with session := { c.session with wantWrite := false } }
  have hq : c₀.session.sendq = c.session.sendq := rfl
  obtain ⟨hsendq, hflag, hwritten⟩ :
      (sendFront c₀).1.session.sendq.items = c.session.sendq.items.tail ∧
      (sendFront c₀).1.session.wantWrite = false ∧
      (sendFront c₀).1.wsi.written.map LwsWrite.data
        = c.wsi.written.map LwsWrite.data ++ (c.session.sendq.items.take 1).map (·.block.data) := by
    cases hi : c.session.sendq.items with
    | nil => simp [sendFront_nil c₀ hi, hi, c₀]
    | cons i is =>
      obtain ⟨h1, h2, _, h4⟩ := sendFront_cons c₀ hi (h i (by simp [hi]))
      refine ⟨by rw [h1, delHead_items, hq, hi, List.tail_cons], h2, ?_⟩
      rw [h4]
      simp [c₀]
  have hbytes : queueBytes (sendFront c₀).1.session.sendq > 0
      ↔ itemsBytes c.session.sendq.items.tail ≠ [] := by
    rw [queueBytes_eq, hsendq, gt_iff_lt, List.length_pos_iff]
  have hw : (sessionWritable c).1 = if queueBytes (sendFront c₀).1.session.sendq > 0
      then sessionWantWrite (sendFront c₀).1 else (sendFront c₀).1 := rfl
  rw [hw]
  split
  · next hb => exact ⟨by rw [wantWrite_sendq, hsendq], by rw [wantWrite_written, hwritten],
      by simp [hbytes.1 hb]⟩
  · next hb =>
    refine ⟨hsendq, hwritten, ?_⟩
    refine ⟨?_, ?_⟩
    · intro hf
      exact absurd (hflag.symm.trans hf) Bool.false_ne_true
    · intro hne
      exact absurd (hbytes.2 hne) hb

theorem wsEnqueue_open (h : OpenItems c.session.sendq.items) (chunk : ByteBlock) :
    wsEnqueue c chunk =
      (sessionWantWrite { c with session := { c.session with
          sendq := c.session.sendq.addTail ⟨chunk, none, false, none⟩ } },
        some c.session.sendq.items.length) := by
  simp [wsEnqueue, queueAdd_open h]

end QjsNet
