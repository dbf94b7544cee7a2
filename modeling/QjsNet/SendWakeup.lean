import QjsNet.Session
import QjsNet.Lib.PartialRun

/- Wakeups of the send queue.

   Messages are put into a session's send queue, and writeable events take them
   out, one at a time. A message left in the queue is sent only if another event
   has been asked for. `session_writable` decides by the number of bytes left, so it
   asks for none when all messages left are empty: `send_wakeup_iff` says that this
   is the only way a message is left without a wakeup. -/
namespace QjsNet

inductive SendEvent where
  | enqueue (message : Bytes)
  | writeable
  deriving DecidableEq, Repr

def sendStep (c : Connection) : SendEvent → Option Connection
  | .enqueue message => some (wsEnqueue c (blockCopy message)).1
  | .writeable => some (sessionWritable c.wake).1

/-- A message that waits has an event on its way. -/
def NoLostWakeup (c : Connection) : Prop :=
  c.session.sendq.items ≠ [] → c.session.wantWrite = true ∧ c.wsi.requested = true

/-- The event leaves no message behind, or at least one that is not empty. -/
def LeavesBytes (c : Connection) : SendEvent → Prop
  | .enqueue _ => True
  | .writeable =>
    c.session.sendq.items.tail = [] ∨ itemsBytes c.session.sendq.items.tail ≠ []

/-- What holds whatever the messages are: nothing ends the queue, and the flag is set exactly
while an event is on its way. -/
structure SendInv (c : Connection) : Prop where
  isOpen : OpenItems c.session.sendq.items
  armed : c.Armed

theorem sendInv_fresh (ctx : JSContext) : SendInv (.fresh ctx) := ⟨openItems_nil, rfl⟩

/-- After an event the flag is down, and so is the request, unless both are raised again. -/
theorem writable_armed {c : Connection} (h : OpenItems c.session.sendq.items) :
    (sessionWritable c.wake).1.Armed := by
  let c₀ : Connection := { c.wake with session := { c.session with wantWrite := false } }
  have hfront : (sendFront c₀).1.Armed := by
    cases hi : c.session.sendq.items with
    | nil =>
      rw [sendFront_nil c₀ hi]
      rfl
    | cons i is =>
      obtain ⟨_, h2, h3, _⟩ := sendFront_cons c₀ hi (h i (by simp [hi]))
      unfold Connection.Armed
      rw [h2, h3]
      rfl
  have hw : (sessionWritable c.wake).1 = if queueBytes (sendFront c₀).1.session.sendq > 0
      then sessionWantWrite (sendFront c₀).1 else (sendFront c₀).1 := rfl
  rw [hw]
  split
  · exact hfront.wantWrite
  · exact hfront

theorem sendStep_inv (c : Connection) (e : SendEvent) (c' : Connection) (h : SendInv c)
    (hstep : sendStep c e = some c') : SendInv c' := by
  cases e with
  | enqueue message =>
    obtain rfl := Option.some.inj hstep
    rw [wsEnqueue_open h.isOpen]
    refine ⟨?_, Connection.Armed.wantWrite h.armed⟩
    rw [wantWrite_sendq]
    exact openItems_append.2 ⟨h.isOpen, openItems_cons.2 ⟨rfl, openItems_nil⟩⟩
  | writeable =>
    obtain rfl := Option.some.inj hstep
    refine ⟨?_, writable_armed h.isOpen⟩
    rw [(writable_spec c.wake h.isOpen).1]
    intro i hi
    exact h.isOpen i (List.mem_of_mem_tail hi)

/-- An enqueue always leaves a wakeup behind; an event does so exactly when it is needed and
bytes are left. -/
theorem sendStep_wakeup (c : Connection) (e : SendEvent) (c' : Connection) (h : SendInv c)
    (_ : NoLostWakeup c) (hstep : sendStep c e = some c') :
    NoLostWakeup c' ↔ LeavesBytes c e := by
  have harmed : c'.Armed := (sendStep_inv c e c' h hstep).armed
  have hiff : NoLostWakeup c' ↔ (c'.session.sendq.items ≠ [] → c'.session.wantWrite = true) := by
    unfold NoLostWakeup
    rw [← show c'.session.wantWrite = c'.wsi.requested from harmed, and_self]
  rw [hiff]
  cases e with
  | enqueue message =>
    obtain rfl := Option.some.inj hstep
    rw [wsEnqueue_open h.isOpen]
    simp [LeavesBytes]
  | writeable =>
    obtain rfl := Option.some.inj hstep
    obtain ⟨hitems, _, hflag⟩ := writable_spec c.wake h.isOpen
    rw [hitems, hflag]
    -- The flag says that bytes are left, the property asks for it when messages are.
    change (c.session.sendq.items.tail ≠ [] → itemsBytes c.session.sendq.items.tail ≠ []) ↔
      c.session.sendq.items.tail = [] ∨ itemsBytes c.session.sendq.items.tail ≠ []
    rw [Classical.or_iff_not_imp_left]

/-- **When no wakeup is lost.** In a run of enqueues and writeable events, every state that
holds a message has an event on its way if and only if no event leaves messages behind that
are all empty. -/
theorem send_wakeup_iff (ctx : JSContext) (events : List SendEvent) :
    PartialRun.Throughout sendStep NoLostWakeup (.fresh ctx) events ↔
      PartialRun.Meets sendStep LeavesBytes (.fresh ctx) events :=
  PartialRun.throughout_iff_meets sendStep_inv sendStep_wakeup events (sendInv_fresh ctx)
    fun h => absurd rfl h

/-- Two empty messages: the first event sends one, and no second event ever comes. -/
theorem send_wakeup_lost :
    ∃ c, PartialRun.run sendStep (.fresh .new) [.enqueue [], .enqueue [], .writeable] = some c ∧
      c.session.sendq.items.length = 1 ∧ c.session.wantWrite = false ∧ ¬ NoLostWakeup c := by
  refine ⟨_, rfl, by decide, by decide, ?_⟩
  intro h
  exact absurd (h (by decide)).1 (by decide)

end QjsNet
