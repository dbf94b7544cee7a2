import QjsNet.FunctionBind
import QjsNet.PollSet

/- The event loop of the script, and the descriptors libwebsockets waits for (`minnet.c`).

   libwebsockets tells what it waits for on a descriptor, and the callback for it is handed one
   handler for reading and one for writing, or null. The default callback hands them on to
   `os.setReadHandler` and `os.setWriteHandler`. Both handlers are one function, bound to a
   number each; it asks `poll()` when libwebsockets waits for both, and has the descriptor
   serviced.

   `LwsFds` is the side of libwebsockets: a connection has one descriptor at most, a
   descriptor belongs to one connection, and nothing is waited for when it is deleted. `none`
   is what libwebsockets or the event loop does not do, or a handler whose connection is gone.

   What is proved:
     1. `poll_bridge_refines` — the handlers do what a loop does that polls the descriptors of
        libwebsockets itself, as long as the default callback is in place;
     2. `poll_bridge_tracks_iff` — exactly then there is a handler for what is waited for, and
        no other.

   Correspondence (C ↔ Lean):
     `LWSIOHandler`, with the magic of its function ↔ `LwsIoHandler`
     `lws_iohandler`, `minnet_io_handler` ↔ `lwsIohandler`, `minnetIoHandler`
     `minnet_io_handlers`, `wsi_iohandler` ↔ `minnetIoHandlers`, `wsiIohandler`
     `minnet_fd_callback_closure` ↔ `PollBridge.emit` with `OnFd.default`
     `wsi_handle_poll` ↔ `wsiHandlePoll`
     `js_function_bind_1` ↔ `jsFunctionBind1` -/
namespace QjsNet

/-- `POLLIN` and `POLLOUT` -/
def pollInOut : Nat := 1 ||| 4

/-- `POLLIN | POLLOUT | POLLERR` -/
def pio : Nat := 1 ||| 4 ||| 8

/-- What `poll()` reports without being asked: `POLLERR | POLLHUP | POLLNVAL`. -/
def pollAlways : Nat := 8 ||| 16 ||| 32

/-- The event of a handler: `WRITE_HANDLER` if `wr` is set. -/
def handlerEvent (wr : Bool) : Nat := if wr then 4 else 1

/-- `READ_HANDLER` and `WRITE_HANDLER` -/
def handlerNumber (wr : Bool) : JSValue := .int (if wr then 1 else 0)

structure LwsIoHandler where
  lwsi : Nat
  magic : Nat
  deriving DecidableEq, Repr

/-- The callback `on.fd`: none, the one that is installed if the script gives none, or one of the
script. -/
inductive OnFd where
  | absent
  | default
  | script
  deriving DecidableEq, Repr

/-- A call of `lws_service_fd`. -/
structure ServiceCall where
  lwsi : Nat
  pollfd : PollFd
  deriving DecidableEq, Repr

/-- `polls` has the `poll` member of every connection that is not gone, `closures` what the
functions of `minnet_io_handler` belong to, and `table` the handlers of the event loop. -/
structure PollBridge where
  polls : Nat → Option PollFd
  closures : List LwsIoHandler
  table : Int → Bool → Option BoundFunction
  onFd : OnFd
  told : List (Int × Option BoundFunction × Option BoundFunction)
  served : List ServiceCall

def jsFunctionBind1 (func arg : JSValue) : Option BoundFunction := jsFunctionBindArgv func 1 [arg]

/-- The function, and the new closure. -/
def minnetIoHandler (b : PollBridge) (fd : Int) (events wsi : Nat) : JSValue × PollBridge :=
  (.function b.closures.length,
    { b with
      closures := b.closures ++ [⟨wsi, events⟩]
      polls := Function.update b.polls wsi (some ⟨fd, events, 0⟩) })

/-- One of the two handlers; `some none` is null. -/
def outHandler (func : JSValue) (events : Nat) (wr : Bool) : Option (Option BoundFunction) :=
  if events &&& handlerEvent wr ≠ 0 then (jsFunctionBind1 func (handlerNumber wr)).map some
  else some none

def minnetIoHandlers (b : PollBridge) (wsi : Nat) (fd : Int) (events : Nat) :
    Option (PollBridge × Option BoundFunction × Option BoundFunction) := do
  let events := events &&& pollInOut
  let (func, b) := if events ≠ 0 then minnetIoHandler b fd events wsi else (.null, b)
  let read ← outHandler func events false
  let write ← outHandler func events true
  return (b, read, write)

/-- `callback_emit(&on.fd, 3, argv)` -/
def PollBridge.emit (b : PollBridge) (fd : Int) (read write : Option BoundFunction) : PollBridge :=
  match b.onFd with
  | .absent => b
  | .default =>
    { b with table := Function.update b.table fd fun wr => if wr then write else read }
  | .script => { b with told := b.told ++ [(fd, read, write)] }

def wsiIohandler (b : PollBridge) (wsi : Nat) (fd : Int) (events : Nat) : Option PollBridge := do
  let (b, read, write) ← minnetIoHandlers b wsi fd events
  return b.emit fd read write

inductive LwsPollReason where
  | lockPoll
  | unlockPoll
  | addPollFd
  | delPollFd
  | changeModePollFd
  deriving DecidableEq, Repr

def wsiHandlePoll (b : PollBridge) (reason : LwsPollReason) (wsi : Nat) (fd : Int) (events : Nat) :
    Option PollBridge :=
  match reason with
  | .lockPoll | .unlockPoll => some b
  | .addPollFd | .delPollFd | .changeModePollFd =>
    if b.onFd = .absent then some b else wsiIohandler b wsi fd events

/-- `ready` is what `poll()` finds on the descriptor. -/
def lwsIohandler (b : PollBridge) (closure : LwsIoHandler) (wr : JSValue) (ready : Nat) :
    Option PollBridge := do
  let p ← b.polls closure.lwsi
  let revents := closure.magic &&& handlerEvent (decide (wr = handlerNumber true))
  let revents := if revents &&& pio ≠ closure.magic then ready &&& (p.events ||| pollAlways)
    else revents
  let b := { b with polls := Function.update b.polls closure.lwsi (some { p with revents }) }
  return if revents &&& pio ≠ 0 then
    { b with
      served := b.served ++ [⟨closure.lwsi, ⟨p.fd, closure.magic, revents &&& pio⟩⟩] }
  else b

/-- What a bound function calls: the function of a closure, with the number it is bound to. -/
def callIohandler (ready : Nat) (b : PollBridge) (c : FunctionCall) : Option PollBridge :=
  match c.func, c.args with
  | .function k, wr :: _ => (b.closures[k]?).bind fun closure => lwsIohandler b closure wr ready
  | _, _ => none

/-- The event loop calls a handler, without arguments. -/
def PollBridge.callHandler (b : PollBridge) (f : BoundFunction) (ready : Nat) :
    Option PollBridge := do
  let (calls, _) ← f.call .undefined []
  calls.foldlM (callIohandler ready) b

/-! ## The side of libwebsockets -/

/-- The descriptor of a connection with what is waited for, and the connection of a descriptor. -/
structure LwsFds where
  live : Nat → Bool
  sock : Nat → Option (Int × Nat)
  owner : Int → Option Nat

def LwsFds.create (l : LwsFds) (wsi : Nat) : Option LwsFds :=
  if l.live wsi then none else some { l with live := Function.update l.live wsi true }

def LwsFds.destroy (l : LwsFds) (wsi : Nat) : Option LwsFds :=
  if l.live wsi && (l.sock wsi).isNone then
    some { l with live := Function.update l.live wsi false }
  else none

def LwsFds.notify (l : LwsFds) (reason : LwsPollReason) (wsi : Nat) (fd : Int) (events : Nat) :
    Option LwsFds :=
  match reason with
  | .lockPoll | .unlockPoll => some l
  | .addPollFd =>
    if l.live wsi && (l.sock wsi).isNone && (l.owner fd).isNone then
      some { l with
        sock := Function.update l.sock wsi (some (fd, events))
        owner := Function.update l.owner fd (some wsi) }
    else none
  | .changeModePollFd =>
    if (l.sock wsi).map Prod.fst = some fd then
      some { l with sock := Function.update l.sock wsi (some (fd, events)) }
    else none
  | .delPollFd =>
    if (l.sock wsi).map Prod.fst = some fd ∧ events = 0 then
      some { l with
        sock := Function.update l.sock wsi none
        owner := Function.update l.owner fd none }
    else none

/-- The connection of a descriptor, and what it waits for. -/
def LwsFds.asked (l : LwsFds) (fd : Int) : Option (Nat × Nat) :=
  (l.owner fd).bind fun wsi => (l.sock wsi).map fun s => (wsi, s.2 &&& pollInOut)

def LwsFds.mask (l : LwsFds) (fd : Int) : Nat := (l.asked fd).elim 0 Prod.snd

inductive PollEvent where
  | create (wsi : Nat)
  | poll (reason : LwsPollReason) (wsi : Nat) (fd : Int) (events : Nat)
  | destroy (wsi : Nat)
  /-- The script sets `onfd`. -/
  | setOnFd (onFd : OnFd)
  /-- A descriptor is ready, and its handler is called. -/
  | ready (fd : Int) (wr : Bool) (revents : Nat)
  deriving DecidableEq, Repr

structure PollSystem where
  lws : LwsFds
  bridge : PollBridge

def pollInit : PollSystem :=
  ⟨⟨fun _ => false, fun _ => none, fun _ => none⟩,
    ⟨fun _ => none, [], fun _ _ => none, .default, [], []⟩⟩

def pollStep (s : PollSystem) : PollEvent → Option PollSystem
  | .create wsi => (s.lws.create wsi).map fun lws =>
      ⟨lws, { s.bridge with polls := Function.update s.bridge.polls wsi (some ⟨0, 0, 0⟩) }⟩
  | .poll reason wsi fd events => do
    let lws ← s.lws.notify reason wsi fd events
    let bridge ← wsiHandlePoll s.bridge reason wsi fd events
    return ⟨lws, bridge⟩
  | .destroy wsi => (s.lws.destroy wsi).map fun lws =>
      ⟨lws, { s.bridge with polls := Function.update s.bridge.polls wsi none }⟩
  | .setOnFd onFd => some { s with bridge := { s.bridge with onFd } }
  | .ready fd wr revents => do
    let f ← s.bridge.table fd wr
    if revents &&& handlerEvent wr = 0 then none
    else
      let bridge ← s.bridge.callHandler f revents
      return { s with bridge }

/-! ## A loop over the descriptors of libwebsockets -/

/-- `served` are the calls of `lws_service_fd`, with those events only that were waited for. -/
structure PollLoop where
  lws : LwsFds
  served : List ServiceCall

def loopStep (s : PollLoop) : PollEvent → Option PollLoop
  | .create wsi => (s.lws.create wsi).map fun lws => { s with lws }
  | .poll reason wsi fd events =>
    (s.lws.notify reason wsi fd events).map fun lws => { s with lws }
  | .destroy wsi => (s.lws.destroy wsi).map fun lws => { s with lws }
  | .setOnFd _ => some s
  | .ready fd wr revents => do
    let (wsi, events) ← s.lws.asked fd
    if events &&& handlerEvent wr = 0 ∨ revents &&& handlerEvent wr = 0 then none
    else
      return { s with served := s.served ++ [⟨wsi, ⟨fd, events, revents &&& events⟩⟩] }

def ServiceCall.waited (c : ServiceCall) : ServiceCall :=
  { c with pollfd := { c.pollfd with revents := c.pollfd.revents &&& c.pollfd.events } }

def PollSystem.loop (s : PollSystem) : PollLoop := ⟨s.lws, s.bridge.served.map ServiceCall.waited⟩

/-- libwebsockets tells what it waits for. -/
def LwsPollReason.notifies : LwsPollReason → Bool
  | .lockPoll | .unlockPoll => false
  | _ => true

/-- The default callback is told. -/
def PollSystem.Heard (s : PollSystem) : PollEvent → Prop
  | .poll reason _ _ _ => reason.notifies = true → s.bridge.onFd = .default
  | _ => True

/-- The event loop has a handler for what libwebsockets waits for, and for nothing else. -/
def PollSystem.Tracks (s : PollSystem) : Prop :=
  ∀ fd wr, (s.bridge.table fd wr).isSome ↔ s.lws.mask fd &&& handlerEvent wr ≠ 0

/-- What libwebsockets waits for changes, and the default callback is not told. -/
def PollSystem.Unheard (s : PollSystem) : PollEvent → Prop
  | .poll reason _ fd events =>
    reason.notifies = true ∧ s.bridge.onFd ≠ .default ∧ events &&& pollInOut ≠ s.lws.mask fd
  | _ => False

/-! ## Events -/

variable {n m ready : Nat} {wr : Bool}

theorem pollInOut_cases (n : Nat) : n &&& pollInOut = 0 ∨ n &&& pollInOut = 1 ∨
    n &&& pollInOut = 4 ∨ n &&& pollInOut = 5 := by
  have hall : ∀ k ≤ pollInOut, k &&& pollInOut = k → k = 0 ∨ k = 1 ∨ k = 4 ∨ k = 5 := by decide
  apply hall _ Nat.and_le_right
  rw [Nat.and_assoc, Nat.and_self]

theorem handlerEvent_cases (n : Nat) (wr : Bool) :
    n &&& handlerEvent wr = 0 ∨ n &&& handlerEvent wr = handlerEvent wr := by
  have hall : ∀ wr, ∀ k ≤ handlerEvent wr, k &&& handlerEvent wr = k →
      k = 0 ∨ k = handlerEvent wr := by
    decide
  apply hall wr _ Nat.and_le_right
  rw [Nat.and_assoc, Nat.and_self]

/-- What is waited for is given by its two events. -/
theorem pollInOut_ext {n m : Nat} (h : ∀ wr, (n &&& pollInOut) &&& handlerEvent wr ≠ 0 ↔
    (m &&& pollInOut) &&& handlerEvent wr ≠ 0) : n &&& pollInOut = m &&& pollInOut := by
  have hr := h false
  have hw := h true
  rcases pollInOut_cases n with hn | hn | hn | hn <;>
    rcases pollInOut_cases m with hm | hm | hm | hm <;>
    rw [hn, hm] at hr hw ⊢ <;> simp [handlerEvent] at hr hw

/-- `revents` of a handler that is called for a ready descriptor. -/
def handlerRevents (m : Nat) (wr : Bool) (ready : Nat) : Nat :=
  if (m &&& handlerEvent wr) &&& pio ≠ m then ready &&& (m ||| pollAlways)
  else m &&& handlerEvent wr

theorem waited_cases (hm : m &&& pollInOut = m) (hwait : m &&& handlerEvent wr ≠ 0) :
    m = handlerEvent wr ∨ m = pollInOut := by
  rcases pollInOut_cases m with h | h | h | h <;> rw [hm] at h <;> subst h <;> cases wr <;>
    revert hwait <;> decide

theorem handlerRevents_waited (hm : m &&& pollInOut = m) (hwait : m &&& handlerEvent wr ≠ 0)
    (hready : ready &&& handlerEvent wr ≠ 0) :
    handlerRevents m wr ready &&& pio ≠ 0 ∧
      (handlerRevents m wr ready &&& pio) &&& m = ready &&& m := by
  rcases waited_cases hm hwait with rfl | rfl
  · have hkeep : handlerEvent wr &&& handlerEvent wr &&& pio = handlerEvent wr := by
      cases wr <;> rfl
    rw [Nat.and_self] at hkeep
    have hrev : handlerRevents (handlerEvent wr) wr ready = handlerEvent wr := by
      rw [handlerRevents, Nat.and_self, hkeep, if_neg (not_not_intro rfl)]
    rw [hrev, hkeep, Nat.and_self]
    refine ⟨?_, ((handlerEvent_cases ready wr).resolve_left hready).symm⟩
    cases wr <;> decide
  · -- Both are waited for, and `poll()` is asked.
    have hrev : handlerRevents pollInOut wr ready = ready &&& (pollInOut ||| pollAlways) := by
      rw [handlerRevents, if_pos]
      cases wr <;> decide
    have hshort (k : Nat) : ready &&& (pollInOut ||| pollAlways) &&& pio &&& k =
        ready &&& ((pollInOut ||| pollAlways) &&& pio &&& k) := by
      rw [Nat.and_assoc, Nat.and_assoc, ← Nat.and_assoc (pollInOut ||| pollAlways)]
    rw [hrev]
    refine ⟨?_, hshort pollInOut⟩
    intro hzero
    apply hready
    calc ready &&& handlerEvent wr
        = ready &&& ((pollInOut ||| pollAlways) &&& pio &&& handlerEvent wr) := by cases wr <;> rfl
      _ = ready &&& (pollInOut ||| pollAlways) &&& pio &&& handlerEvent wr := (hshort _).symm
      _ = 0 := by rw [hzero, Nat.zero_and]

/-! ## Descriptors and connections -/

structure LwsFds.Valid (l : LwsFds) : Prop where
  live : ∀ wsi, (l.sock wsi).isSome → l.live wsi = true
  sock : ∀ fd wsi, l.owner fd = some wsi → ∃ events, l.sock wsi = some (fd, events)
  owner : ∀ fd wsi events, l.sock wsi = some (fd, events) → l.owner fd = some wsi

variable {l l' : LwsFds} {fd : Int} {wsi events : Nat} {reason : LwsPollReason}

theorem LwsFds.Valid.asked_eq (h : l.Valid) (hsock : l.sock wsi = some (fd, events)) :
    l.asked fd = some (wsi, events &&& pollInOut) := by
  rw [LwsFds.asked, h.owner fd wsi events hsock, Option.bind_some, hsock]
  rfl

theorem LwsFds.asked_none (h : l.owner fd = none) : l.asked fd = none := by
  rw [LwsFds.asked, h]
  rfl

/-- What is waited for on a descriptor depends on that descriptor's connection only. -/
theorem LwsFds.asked_congr (howner : l'.owner fd = l.owner fd)
    (hsock : ∀ wsi, l.owner fd = some wsi → l'.sock wsi = l.sock wsi) :
    l'.asked fd = l.asked fd := by
  rw [LwsFds.asked, LwsFds.asked, howner]
  cases hw : l.owner fd with
  | none => rfl
  | some wsi => rw [Option.bind_some, Option.bind_some, hsock wsi hw]

theorem LwsFds.mask_asked (h : l.asked fd = some (wsi, m)) : l.mask fd = m := by
  rw [LwsFds.mask, h]
  rfl

theorem LwsFds.mask_masked (l : LwsFds) (fd : Int) : l.mask fd &&& pollInOut = l.mask fd := by
  cases hasked : l.asked fd with
  | none =>
    rw [LwsFds.mask, hasked]
    exact Nat.zero_and _
  | some p =>
    obtain ⟨wsi, -, hs⟩ := Option.bind_eq_some_iff.1 hasked
    obtain ⟨s, -, rfl⟩ := Option.map_eq_some_iff.1 hs
    rw [LwsFds.mask_asked hasked, Nat.and_assoc, Nat.and_self]

theorem LwsFds.Valid.create (h : l.Valid) (hc : l.create wsi = some l') :
    l'.Valid ∧ l'.asked = l.asked ∧ ¬l.live wsi = true := by
  unfold LwsFds.create at hc
  split at hc
  · cases hc
  · next hdead =>
    cases hc
    refine ⟨⟨?_, h.sock, h.owner⟩, rfl, hdead⟩
    intro w hw
    simp only [Function.update_apply, h.live w hw, ite_self]

theorem LwsFds.Valid.destroy (h : l.Valid) (hc : l.destroy wsi = some l') :
    l'.Valid ∧ l'.asked = l.asked ∧ l.sock wsi = none := by
  unfold LwsFds.destroy at hc
  split at hc
  · next hcond =>
    cases hc
    obtain ⟨-, hnone⟩ := Bool.and_eq_true_iff.1 hcond
    have hsock : l.sock wsi = none := Option.isNone_iff_eq_none.1 hnone
    refine ⟨⟨?_, h.sock, h.owner⟩, rfl, hsock⟩
    intro w hw
    have hne : w ≠ wsi := by
      rintro rfl
      rw [hsock] at hw
      cases hw
    simp only [Function.update_of_ne hne]
    exact h.live w hw
  · cases hc

/-- What a notification does: the descriptor is asked for what it says, and no other descriptor
changes, nor belongs to the connection. -/
structure LwsFds.Notified (l l' : LwsFds) (wsi : Nat) (fd : Int) (events : Nat) : Prop where
  valid : l'.Valid
  asked : l'.asked fd = some (wsi, events &&& pollInOut) ∨ l'.asked fd = none ∧ events = 0
  others : ∀ fd', fd' ≠ fd → l'.asked fd' = l.asked fd' ∧ l.owner fd' ≠ some wsi

theorem LwsFds.Valid.others (h : l.Valid) (hsock : l.sock wsi = some (fd, events)) {fd' : Int}
    (hne : fd' ≠ fd) : l.owner fd' ≠ some wsi := by
  intro howner
  obtain ⟨events', hs⟩ := h.sock fd' wsi howner
  rw [hsock] at hs
  cases hs
  exact hne rfl

/-- A connection gets a descriptor that is no other's, or loses it. -/
def LwsFds.assign (l : LwsFds) (wsi : Nat) (fd : Int) (events : Option Nat) : LwsFds :=
  { l with
    sock := Function.update l.sock wsi (events.map fun ev => (fd, ev))
    owner := Function.update l.owner fd (events.map fun _ => wsi) }

theorem LwsFds.Valid.assign {events : Option Nat} (h : l.Valid) (hlive : events.isSome → l.live wsi)
    (hfd : ∀ fd', fd' ≠ fd → l.owner fd' ≠ some wsi)
    (howner : ∀ w ev, w ≠ wsi → l.sock w ≠ some (fd, ev)) : (l.assign wsi fd events).Valid := by
  refine ⟨?_, ?_, ?_⟩
  · intro w hw
    by_cases hwsi : w = wsi
    · simp only [LwsFds.assign, hwsi, Function.update_self, Option.isSome_map] at hw
      exact hwsi ▸ hlive hw
    · simp only [LwsFds.assign, Function.update_of_ne hwsi] at hw
      exact h.live w hw
  · intro fd' w hw
    by_cases hne : fd' = fd
    · simp only [LwsFds.assign, hne, Function.update_self] at hw
      obtain ⟨ev, hev, rfl⟩ := Option.map_eq_some_iff.1 hw
      refine ⟨ev, ?_⟩
      simp [LwsFds.assign, hev, hne]
    · simp only [LwsFds.assign, Function.update_of_ne hne] at hw
      have hwsi : w ≠ wsi := fun heq => hfd fd' hne (heq ▸ hw)
      simp only [LwsFds.assign, Function.update_of_ne hwsi]
      exact h.sock fd' w hw
  · intro fd' w ev hw
    by_cases hwsi : w = wsi
    · simp only [LwsFds.assign, hwsi, Function.update_self] at hw
      obtain ⟨ev', hev, heq⟩ := Option.map_eq_some_iff.1 hw
      cases heq
      simp [LwsFds.assign, hev, hwsi]
    · simp only [LwsFds.assign, Function.update_of_ne hwsi] at hw
      have hne : fd' ≠ fd := by
        rintro rfl
        exact howner w ev hwsi hw
      simp only [LwsFds.assign, Function.update_of_ne hne]
      exact h.owner fd' w ev hw

theorem LwsFds.assign_asked {events : Option Nat} (hfd : ∀ fd', fd' ≠ fd → l.owner fd' ≠ some wsi)
    {fd' : Int} (hne : fd' ≠ fd) : (l.assign wsi fd events).asked fd' = l.asked fd' := by
  refine LwsFds.asked_congr (Function.update_of_ne hne ..) ?_
  intro w hw
  have hwsi : w ≠ wsi := fun heq => hfd fd' hne (heq ▸ hw)
  exact Function.update_of_ne hwsi ..

/-- Every notification is such an assignment. -/
theorem LwsFds.Valid.notify_assign (h : l.Valid) (hr : reason.notifies = true)
    (hn : l.notify reason wsi fd events = some l') :
    ∃ evs : Option Nat, l' = l.assign wsi fd evs ∧ (evs.isSome → l.live wsi) ∧
      (evs = some events ∨ evs = none ∧ events = 0) ∧
      (∀ fd', fd' ≠ fd → l.owner fd' ≠ some wsi) ∧ ∀ w ev, w ≠ wsi → l.sock w ≠ some (fd, ev) := by
  have hother (ev : Nat) (hsock : l.sock wsi = some (fd, ev)) (w ev' : Nat) (hw : w ≠ wsi) :
      l.sock w ≠ some (fd, ev') := by
    intro hs
    exact hw (Option.some.inj ((h.owner fd w ev' hs).symm.trans (h.owner fd wsi ev hsock)))
  cases reason with
  | lockPoll => cases hr
  | unlockPoll => cases hr
  | addPollFd =>
    obtain ⟨hcond, ⟨⟩⟩ := Option.ite_none_right_eq_some.1 hn
    simp only [Bool.and_eq_true, Option.isNone_iff_eq_none] at hcond
    obtain ⟨⟨hlive, hsock⟩, howner⟩ := hcond
    refine ⟨some events, rfl, fun _ => hlive, Or.inl rfl, ?_, ?_⟩
    · intro fd' _ hw
      obtain ⟨ev, hs⟩ := h.sock fd' wsi hw
      cases hsock.symm.trans hs
    · intro w ev _ hs
      cases howner.symm.trans (h.owner fd w ev hs)
  | changeModePollFd =>
    obtain ⟨hcond, ⟨⟩⟩ := Option.ite_none_right_eq_some.1 hn
    obtain ⟨⟨fd, ev⟩, hsock, rfl⟩ := Option.map_eq_some_iff.1 hcond
    refine ⟨some events, ?_, fun _ => h.live wsi (by rw [hsock]; rfl), Or.inl rfl, ?_,
      hother ev hsock⟩
    · have hsame : Function.update l.owner fd (some wsi) = l.owner := by
        rw [Function.update_eq_self_iff, h.owner fd wsi ev hsock]
      simp only [LwsFds.assign, Option.map_some, hsame]
    · exact fun fd' hne => h.others hsock hne
  | delPollFd =>
    obtain ⟨⟨hcond, hev⟩, ⟨⟩⟩ := Option.ite_none_right_eq_some.1 hn
    obtain ⟨⟨fd, ev⟩, hsock, rfl⟩ := Option.map_eq_some_iff.1 hcond
    exact ⟨none, rfl, nofun, Or.inr ⟨rfl, hev⟩, fun fd' hne => h.others hsock hne, hother ev hsock⟩

theorem LwsFds.Valid.notified (h : l.Valid) (hr : reason.notifies = true)
    (hn : l.notify reason wsi fd events = some l') : l.Notified l' wsi fd events := by
  obtain ⟨evs, rfl, hlive, hevs, hfd, howner⟩ := h.notify_assign hr hn
  have hvalid := h.assign hlive hfd howner
  refine ⟨hvalid, ?_, fun fd' hne => ⟨LwsFds.assign_asked hfd hne, hfd fd' hne⟩⟩
  rcases hevs with rfl | ⟨rfl, hzero⟩
  · exact Or.inl (hvalid.asked_eq (Function.update_self ..))
  · exact Or.inr ⟨LwsFds.asked_none (Function.update_self ..), hzero⟩

/-! ## Handlers -/

variable {b b' : PollBridge} {k : Nat}

/-- What the event loop has for a handler. -/
def handlerFunction (k : Nat) (wr : Bool) : BoundFunction := ⟨1, [.function k, handlerNumber wr]⟩

/-- The function of a handler, and the `poll` member, are those of a connection that waits for `m`.
-/
structure HandlerFor (b : PollBridge) (wsi : Nat) (fd : Int) (m k : Nat) (p : PollFd) : Prop where
  closure : b.closures[k]? = some ⟨wsi, m⟩
  poll : b.polls wsi = some p
  fd : p.fd = fd
  events : p.events = m

theorem outHandler_eq (k m : Nat) (wr : Bool) : outHandler (.function k) m wr =
    some (if m &&& handlerEvent wr ≠ 0 then some (handlerFunction k wr) else none) := by
  rw [outHandler]
  split <;> rfl

/-- A notification that the default callback is told of. -/
structure Told (b b' : PollBridge) (wsi : Nat) (fd : Int) (m : Nat) : Prop where
  onFd : b'.onFd = b.onFd
  served : b'.served = b.served
  closures : b.closures <+: b'.closures
  table : ∀ fd', fd' ≠ fd → b'.table fd' = b.table fd'
  polls : ∀ w, w ≠ wsi → b'.polls w = b.polls w
  idle : ∀ wr, m &&& handlerEvent wr = 0 → b'.table fd wr = none
  busy : ∀ wr, m &&& handlerEvent wr ≠ 0 → ∃ k p,
    b'.table fd wr = some (handlerFunction k wr) ∧ HandlerFor b' wsi fd m k p

theorem minnetIoHandlers_zero (b : PollBridge) (wsi : Nat) (fd : Int)
    (h : events &&& pollInOut = 0) : minnetIoHandlers b wsi fd events = some (b, none, none) := by
  simp [minnetIoHandlers, h, outHandler]

theorem minnetIoHandlers_some (b : PollBridge) (wsi : Nat) (fd : Int)
    (h : events &&& pollInOut ≠ 0) : minnetIoHandlers b wsi fd events =
      some ((minnetIoHandler b fd (events &&& pollInOut) wsi).2,
        if events &&& pollInOut &&& handlerEvent false ≠ 0 then
          some (handlerFunction b.closures.length false) else none,
        if events &&& pollInOut &&& handlerEvent true ≠ 0 then
          some (handlerFunction b.closures.length true) else none) := by
  simp only [minnetIoHandlers, ne_eq, h, not_false_eq_true, if_true, minnetIoHandler, outHandler_eq]
  rfl

theorem wsiIohandler_told (hb : b.onFd = .default) (wsi : Nat) (fd : Int) (events : Nat) :
    ∃ b', wsiIohandler b wsi fd events = some b' ∧ Told b b' wsi fd (events &&& pollInOut) := by
  by_cases hzero : events &&& pollInOut = 0
  · refine ⟨b.emit fd none none, ?_, ?_⟩
    · rw [wsiIohandler, minnetIoHandlers_zero b wsi fd hzero]
      rfl
    rw [hzero]
    simp only [PollBridge.emit, hb]
    refine ⟨hb.symm, rfl, List.prefix_refl _, ?_, fun _ _ => rfl, ?_, ?_⟩
    · exact fun fd' hne => Function.update_of_ne hne ..
    · intro wr _
      simp
    · intro wr hne
      exact absurd (Nat.zero_and _) hne
  · refine ⟨_, by rw [wsiIohandler, minnetIoHandlers_some b wsi fd hzero]; rfl, ?_⟩
    simp only [PollBridge.emit, minnetIoHandler, hb]
    refine ⟨hb.symm, rfl, List.prefix_append .., ?_, ?_, ?_, ?_⟩
    · exact fun fd' hne => Function.update_of_ne hne ..
    · exact fun w hne => Function.update_of_ne hne ..
    · intro wr hwr
      cases wr <;> simp [hwr]
    · intro wr hwr
      refine ⟨b.closures.length, ⟨fd, events &&& pollInOut, 0⟩, ?_, ?_, Function.update_self ..,
        rfl, rfl⟩
      · cases wr <;> simp [hwr]
      · rw [List.getElem?_append_right (Nat.le_refl _), Nat.sub_self]
        rfl

theorem callHandler_eq (b : PollBridge) (k : Nat) (wr : Bool) (ready : Nat) :
    b.callHandler (handlerFunction k wr) ready =
      (b.closures[k]?).bind fun c => lwsIohandler b c (handlerNumber wr) ready := by
  have hcall : (handlerFunction k wr).call .undefined [] =
      some ([⟨.function k, .undefined, [handlerNumber wr]⟩], .last) :=
    @bound_small [handlerNumber wr] (by rw [List.length_singleton]; decide)
      (.function k) .undefined [] []
  rw [PollBridge.callHandler, hcall]
  simp [callIohandler]

theorem handlerNumber_eq (wr : Bool) : decide (handlerNumber wr = handlerNumber true) = wr := by
  cases wr <;> rfl

/-- The handler of a descriptor that is ready has it serviced. -/
theorem HandlerFor.called {p : PollFd} (h : HandlerFor b wsi fd m k p) (hm : m &&& pollInOut = m)
    (hwait : m &&& handlerEvent wr ≠ 0) (hready : ready &&& handlerEvent wr ≠ 0) :
    b.callHandler (handlerFunction k wr) ready = some
      { b with
        polls := Function.update b.polls wsi (some { p with revents := handlerRevents m wr ready })
        served := b.served ++
          [⟨wsi, ⟨fd, m, handlerRevents m wr ready &&& pio⟩⟩] } := by
  obtain ⟨hclosure, hpoll, rfl, rfl⟩ := h
  obtain ⟨hne, -⟩ := handlerRevents_waited hm hwait hready
  have hrev : (if p.events &&& handlerEvent wr &&& pio ≠ p.events then
        ready &&& (p.events ||| pollAlways) else p.events &&& handlerEvent wr) =
      handlerRevents p.events wr ready := rfl
  rw [callHandler_eq, hclosure, Option.bind_some, lwsIohandler, hpoll, handlerNumber_eq]
  simp only [Option.bind_eq_bind, Option.bind_some, hrev, if_pos hne]
  rfl

/-! ## The bridge -/

variable {s s' : PollSystem} {e : PollEvent}

/-- There are the handlers of what is waited for, and they belong to the connection that waits. -/
structure PollSystem.Bridged (s : PollSystem) : Prop where
  valid : s.lws.Valid
  idle : ∀ fd wr, s.lws.mask fd &&& handlerEvent wr = 0 → s.bridge.table fd wr = none
  busy : ∀ fd wr wsi m, s.lws.asked fd = some (wsi, m) → m &&& handlerEvent wr ≠ 0 → ∃ k p,
    s.bridge.table fd wr = some (handlerFunction k wr) ∧ HandlerFor s.bridge wsi fd m k p

theorem pollInit_bridged : pollInit.Bridged := by
  refine ⟨⟨nofun, nofun, nofun⟩, fun _ _ _ => rfl, nofun⟩

/-- A connection that waits is there, and has a descriptor. -/
theorem LwsFds.Valid.of_asked (h : l.Valid) (ha : l.asked fd = some (wsi, m)) :
    l.live wsi = true ∧ (l.sock wsi).isSome ∧ m &&& pollInOut = m := by
  obtain ⟨w, howner, hs⟩ := Option.bind_eq_some_iff.1 ha
  obtain ⟨s, hsock, heq⟩ := Option.map_eq_some_iff.1 hs
  cases heq
  have hsome : (l.sock wsi).isSome := by
    rw [hsock]
    rfl
  refine ⟨h.live wsi hsome, hsome, ?_⟩
  rw [Nat.and_assoc, Nat.and_self]

theorem LwsFds.mask_congr (h : l'.asked fd = l.asked fd) : l'.mask fd = l.mask fd := by
  rw [LwsFds.mask, LwsFds.mask, h]

theorem PollSystem.Bridged.keep (h : s.Bridged) (hvalid : s'.lws.Valid)
    (hasked : s'.lws.asked = s.lws.asked) (htable : s'.bridge.table = s.bridge.table)
    (hclosures : s'.bridge.closures = s.bridge.closures)
    (hpolls : ∀ fd wsi m p, s.lws.asked fd = some (wsi, m) → s.bridge.polls wsi = some p →
      ∃ p', s'.bridge.polls wsi = some p' ∧ p'.fd = p.fd ∧ p'.events = p.events) : s'.Bridged := by
  refine ⟨hvalid, ?_, ?_⟩
  · intro fd wr hm
    rw [LwsFds.mask_congr (congrFun hasked fd)] at hm
    rw [htable]
    exact h.idle fd wr hm
  · intro fd wr wsi m ha hm
    rw [hasked] at ha
    obtain ⟨k, p, ht, hk⟩ := h.busy fd wr wsi m ha hm
    obtain ⟨p', hp', hfd, hev⟩ := hpolls fd wsi m p ha hk.poll
    refine ⟨k, p', by rw [htable, ht], ?_, hp', hfd.trans hk.fd, hev.trans hk.events⟩
    rw [hclosures]
    exact hk.closure

theorem PollSystem.Bridged.told (h : s.Bridged) (hn : s.lws.Notified l' wsi fd events)
    (ht : Told s.bridge b' wsi fd (events &&& pollInOut)) : PollSystem.Bridged ⟨l', b'⟩ := by
  refine ⟨hn.valid, ?_, ?_⟩
  · intro fd' wr hm
    by_cases hne : fd' = fd
    · subst hne
      apply ht.idle wr
      rcases hn.asked with ha | ⟨-, rfl⟩
      · rwa [LwsFds.mask_asked ha] at hm
      · rw [Nat.zero_and, Nat.zero_and]
    · have hsame : l'.mask fd' = s.lws.mask fd' := LwsFds.mask_congr (hn.others fd' hne).1
      show b'.table fd' wr = none
      rw [ht.table fd' hne]
      exact h.idle fd' wr (hsame ▸ hm)
  · intro fd' wr w m ha hm
    by_cases hne : fd' = fd
    · subst hne
      have ha' : l'.asked fd' = some (w, m) := ha
      rcases hn.asked with hasked | ⟨hnone, -⟩
      · cases hasked.symm.trans ha'
        exact ht.busy wr hm
      · cases hnone.symm.trans ha'
    · obtain ⟨hsame, howner⟩ := hn.others fd' hne
      have ha' : s.lws.asked fd' = some (w, m) := hsame.symm.trans ha
      have hw : w ≠ wsi := by
        rintro rfl
        obtain ⟨w', how, hs⟩ := Option.bind_eq_some_iff.1 ha'
        obtain ⟨_, -, heq⟩ := Option.map_eq_some_iff.1 hs
        cases heq
        exact howner how
      obtain ⟨k, p, htable, hk⟩ := h.busy fd' wr w m ha' hm
      refine ⟨k, p, ?_, ?_, ?_, hk.fd, hk.events⟩
      · show b'.table fd' wr = _
        rw [ht.table fd' hne, htable]
      · obtain ⟨more, hmore⟩ := ht.closures
        show b'.closures[k]? = _
        rw [← hmore, List.getElem?_append_left (List.getElem?_eq_some_iff.1 hk.closure).1,
          hk.closure]
      · show b'.polls w = _
        rw [ht.polls w hw, hk.poll]

/-- A step does what the loop does, and keeps the handlers. -/
def PollSystem.Follows (s : PollSystem) (e : PollEvent) : Prop :=
  (pollStep s e).map PollSystem.loop = loopStep s.loop e ∧
    ∀ s', pollStep s e = some s' → s'.Bridged

theorem PollSystem.Bridged.create (h : s.Bridged) (wsi : Nat) : s.Follows (.create wsi) := by
  rw [PollSystem.Follows, pollStep, loopStep, PollSystem.loop]
  cases hc : s.lws.create wsi with
  | none => exact ⟨rfl, nofun⟩
  | some l' =>
    obtain ⟨hvalid, hasked, hdead⟩ := h.valid.create hc
    refine ⟨rfl, ?_⟩
    rintro _ ⟨⟩
    refine h.keep hvalid hasked rfl rfl ?_
    intro fd w m p ha hp
    have hne : w ≠ wsi := fun heq => hdead (heq ▸ (h.valid.of_asked ha).1)
    exact ⟨p, (Function.update_of_ne hne ..).trans hp, rfl, rfl⟩

theorem PollSystem.Bridged.destroy (h : s.Bridged) (wsi : Nat) : s.Follows (.destroy wsi) := by
  rw [PollSystem.Follows, pollStep, loopStep, PollSystem.loop]
  cases hc : s.lws.destroy wsi with
  | none => exact ⟨rfl, nofun⟩
  | some l' =>
    obtain ⟨hvalid, hasked, hnone⟩ := h.valid.destroy hc
    refine ⟨rfl, ?_⟩
    rintro _ ⟨⟩
    refine h.keep hvalid hasked rfl rfl ?_
    intro fd w m p ha hp
    have hne : w ≠ wsi := by
      rintro rfl
      have hsome := (h.valid.of_asked ha).2.1
      rw [hnone] at hsome
      cases hsome
    exact ⟨p, (Function.update_of_ne hne ..).trans hp, rfl, rfl⟩

theorem PollSystem.Bridged.setOnFd (h : s.Bridged) (onFd : OnFd) : s.Follows (.setOnFd onFd) := by
  refine ⟨rfl, ?_⟩
  rintro _ ⟨⟩
  exact h.keep h.valid rfl rfl rfl fun _ _ _ p _ hp => ⟨p, hp, rfl, rfl⟩

/-- Only what the library says of its descriptors is passed on. -/
theorem notify_quiet {l : LwsFds} (hr : reason.notifies = false)
    (hn : l.notify reason wsi fd events = some l') (b : PollBridge) :
    wsiHandlePoll b reason wsi fd events = some b ∧ l' = l := by
  cases reason <;> cases hr <;> cases hn <;> exact ⟨rfl, rfl⟩

theorem PollSystem.Bridged.poll (h : s.Bridged)
    (hheard : s.Heard (.poll reason wsi fd events)) : s.Follows (.poll reason wsi fd events) := by
  rw [PollSystem.Follows, pollStep, loopStep, PollSystem.loop]
  cases hn : s.lws.notify reason wsi fd events with
  | none => exact ⟨rfl, nofun⟩
  | some l' =>
    cases hr : reason.notifies with
    | false =>
      obtain ⟨hquiet, rfl⟩ := notify_quiet hr hn s.bridge
      simp only [Option.bind_eq_bind, Option.bind_some, hquiet]
      refine ⟨rfl, ?_⟩
      rintro _ ⟨⟩
      exact h
    | true =>
      have hdefault : s.bridge.onFd = .default := hheard hr
      obtain ⟨b', hb', htold⟩ := wsiIohandler_told hdefault wsi fd events
      have hpoll : wsiHandlePoll s.bridge reason wsi fd events = some b' := by
        cases reason <;> cases hr <;> rw [wsiHandlePoll, hdefault] <;> exact hb'
      simp only [Option.bind_eq_bind, Option.bind_some, hpoll]
      refine ⟨?_, ?_⟩
      · show some (PollSystem.loop ⟨l', b'⟩) = _
        rw [PollSystem.loop, htold.served]
        rfl
      · rintro _ ⟨⟩
        exact h.told (h.valid.notified hr hn) htold

theorem PollSystem.Bridged.serve {k : Nat} {p p' : PollFd} {b' : PollBridge} (h : s.Bridged)
    (hk : HandlerFor s.bridge wsi fd m k p)
    (hb : b' = { s.bridge with
      polls := Function.update s.bridge.polls wsi (some p'), served := b'.served })
    (hsame : p'.fd = p.fd ∧ p'.events = p.events) :
    PollSystem.Bridged ⟨s.lws, b'⟩ := by
  rw [hb]
  refine h.keep h.valid rfl rfl rfl ?_
  intro fd' w m' q _ hq
  by_cases hw : w = wsi
  · subst hw
    cases hk.poll.symm.trans hq
    exact ⟨p', Function.update_self .., hsame.1, hsame.2⟩
  · exact ⟨q, (Function.update_of_ne hw ..).trans hq, rfl, rfl⟩

theorem PollSystem.Bridged.call (h : s.Bridged) (fd : Int) (wr : Bool) (revents : Nat) :
    s.Follows (.ready fd wr revents) := by
  unfold PollSystem.Follows
  have hidle (hm : s.lws.mask fd &&& handlerEvent wr = 0) :
      pollStep s (.ready fd wr revents) = none := by
    rw [pollStep, h.idle fd wr hm]
    rfl
  cases ha : s.lws.asked fd with
  | none =>
    have hnone := hidle (by rw [LwsFds.mask, ha]; exact Nat.zero_and _)
    rw [hnone, loopStep, PollSystem.loop, ha]
    exact ⟨rfl, nofun⟩
  | some p =>
    obtain ⟨wsi, m⟩ := p
    by_cases hm : m &&& handlerEvent wr = 0
    · have hnone := hidle (by rw [LwsFds.mask_asked ha, hm])
      rw [hnone, loopStep, PollSystem.loop, ha]
      refine ⟨?_, nofun⟩
      show none = if _ then _ else _
      rw [if_pos (Or.inl hm)]
    · obtain ⟨k, p, htable, hk⟩ := h.busy fd wr wsi m ha hm
      rw [pollStep, loopStep, PollSystem.loop, ha, htable]
      simp only [Option.bind_eq_bind, Option.bind_some]
      by_cases hready : revents &&& handlerEvent wr = 0
      · rw [if_pos hready, if_pos (Or.inr hready)]
        exact ⟨rfl, nofun⟩
      · have hmasked := (h.valid.of_asked ha).2.2
        rw [if_neg hready, if_neg (not_or_intro hm hready), hk.called hmasked hm hready,
          Option.bind_some]
        refine ⟨?_, ?_⟩
        · have hwaited := (handlerRevents_waited hmasked hm hready).2
          simp [PollSystem.loop, ServiceCall.waited, hwaited]
        · rintro _ ⟨⟩
          exact h.serve hk rfl ⟨rfl, rfl⟩

theorem pollStep_refines (h : s.Bridged) (hheard : s.Heard e) : s.Follows e := by
  cases e with
  | create wsi => exact h.create wsi
  | poll reason wsi fd events => exact h.poll hheard
  | destroy wsi => exact h.destroy wsi
  | setOnFd onFd => exact h.setOnFd onFd
  | ready fd wr revents => exact h.call fd wr revents

/-- **The handlers do what a loop over the descriptors of libwebsockets does.** As long as the
default callback hears of every change, a handler is called just when its connection waits for the
event that came, on a connection that is not gone, and `lws_service_fd` gets the events that came of
those that are waited for. -/
theorem poll_bridge_refines (es : List PollEvent)
    (h : PartialRun.Admits pollStep PollSystem.Heard pollInit es) :
    (PartialRun.run pollStep pollInit es).map PollSystem.loop =
      PartialRun.run loopStep pollInit.loop es :=
  PartialRun.run_refines (fun _ _ hI hok => pollStep_refines hI hok) es pollInit_bridged h

/-- A connection waits for reading, then for both events, is ready for writing, and goes. -/
def connection : List PollEvent :=
  [.create 0, .poll .addPollFd 0 5 1, .poll .changeModePollFd 0 5 5, .ready 5 true 4,
    .poll .delPollFd 0 5 0, .destroy 0]

theorem poll_bridge_refines_connection :
    (PartialRun.run loopStep pollInit.loop connection).map PollLoop.served = some [⟨0, ⟨5, 5, 4⟩⟩] ∧
      (PartialRun.run pollStep pollInit connection).map PollSystem.loop =
        PartialRun.run loopStep pollInit.loop connection := by
  refine ⟨rfl, poll_bridge_refines connection ?_⟩
  refine ⟨trivial, ?_⟩
  rintro _ ⟨⟩
  refine ⟨fun _ => rfl, ?_⟩
  rintro _ ⟨⟩
  refine ⟨fun _ => rfl, ?_⟩
  rintro _ ⟨⟩
  refine ⟨trivial, ?_⟩
  rintro _ ⟨⟩
  refine ⟨fun _ => rfl, ?_⟩
  rintro _ ⟨⟩
  exact ⟨trivial, fun _ _ => trivial⟩

/-! ## What the event loop has handlers for -/

theorem callIohandler_table {c : FunctionCall} (h : callIohandler ready b c = some b') :
    b'.table = b.table := by
  unfold callIohandler at h
  split at h
  · obtain ⟨closure, -, hcall⟩ := Option.bind_eq_some_iff.1 h
    obtain ⟨p, -, hret⟩ := Option.bind_eq_some_iff.1 hcall
    cases hret
    show PollBridge.table (if _ then _ else _) = b.table
    rw [apply_ite PollBridge.table]
    exact ite_self _
  · cases h

theorem callHandler_table {f : BoundFunction} (h : b.callHandler f ready = some b') :
    b'.table = b.table := by
  obtain ⟨⟨calls, ret⟩, -, hrun⟩ := Option.bind_eq_some_iff.1 h
  have hcalls : calls.foldlM (callIohandler ready) b = some b' := hrun
  clear h hrun
  induction calls generalizing b with
  | nil =>
    cases hcalls
    rfl
  | cons c calls ih =>
    rw [List.foldlM_cons] at hcalls
    obtain ⟨b'', hc, hrest⟩ := Option.bind_eq_some_iff.1 hcalls
    rw [ih hrest, callIohandler_table hc]

theorem emit_table (hb : b.onFd ≠ .default) (fd : Int) (read write : Option BoundFunction) :
    (b.emit fd read write).table = b.table := by
  unfold PollBridge.emit
  split
  · rfl
  · next hdefault => exact absurd hdefault hb
  · rfl

/-- Another callback leaves the handlers of the event loop alone. -/
theorem wsiHandlePoll_table (hb : b.onFd ≠ .default)
    (h : wsiHandlePoll b reason wsi fd events = some b') : b'.table = b.table := by
  have hio (h : wsiIohandler b wsi fd events = some b') : b'.table = b.table := by
    by_cases hzero : events &&& pollInOut = 0
    · rw [wsiIohandler, minnetIoHandlers_zero b wsi fd hzero] at h
      cases h
      exact emit_table hb ..
    · rw [wsiIohandler, minnetIoHandlers_some b wsi fd hzero] at h
      cases h
      exact emit_table (b := (minnetIoHandler b fd (events &&& pollInOut) wsi).2) hb ..
  have hnotify (h : (if b.onFd = .absent then some b else wsiIohandler b wsi fd events) = some b') :
      b'.table = b.table := by
    split at h
    · cases h
      rfl
    · exact hio h
  cases reason with
  | lockPoll => cases h; rfl
  | unlockPoll => cases h; rfl
  | addPollFd => exact hnotify h
  | delPollFd => exact hnotify h
  | changeModePollFd => exact hnotify h

theorem LwsFds.Notified.mask (h : l.Notified l' wsi fd events) :
    l'.mask fd = events &&& pollInOut := by
  rcases h.asked with ha | ⟨hnone, rfl⟩
  · exact LwsFds.mask_asked ha
  · rw [LwsFds.mask, hnone, Nat.zero_and]
    rfl

theorem PollSystem.Tracks.keep (h : s.Tracks) (hasked : s'.lws.asked = s.lws.asked)
    (htable : s'.bridge.table = s.bridge.table) : s'.Tracks := by
  intro fd wr
  rw [htable, LwsFds.mask_congr (congrFun hasked fd)]
  exact h fd wr

/-- A notification that the default callback does not hear of must change nothing. -/
theorem unheard_tracks_iff (hP : s.Tracks) (hn : s.lws.Notified l' wsi fd events)
    (htable : b'.table = s.bridge.table) :
    PollSystem.Tracks ⟨l', b'⟩ ↔ events &&& pollInOut = s.lws.mask fd := by
  constructor
  · intro h
    rw [← s.lws.mask_masked fd]
    apply pollInOut_ext
    intro wr
    rw [s.lws.mask_masked fd, ← hn.mask, ← hP fd wr, ← htable]
    exact (h fd wr).symm
  · intro hsame fd' wr
    show (b'.table fd' wr).isSome ↔ l'.mask fd' &&& handlerEvent wr ≠ 0
    rw [htable, hP fd' wr]
    by_cases hne : fd' = fd
    · rw [hne, hn.mask, hsame]
    · rw [LwsFds.mask_congr (hn.others fd' hne).1]

theorem Told.tracks (hP : s.Tracks) (hn : s.lws.Notified l' wsi fd events)
    (ht : Told s.bridge b' wsi fd (events &&& pollInOut)) : PollSystem.Tracks ⟨l', b'⟩ := by
  intro fd' wr
  show (b'.table fd' wr).isSome ↔ l'.mask fd' &&& handlerEvent wr ≠ 0
  by_cases hne : fd' = fd
  · rw [hne, hn.mask]
    by_cases hm : events &&& pollInOut &&& handlerEvent wr = 0
    · rw [ht.idle wr hm]
      exact iff_of_false nofun (not_not_intro hm)
    · obtain ⟨k, p, htable, -⟩ := ht.busy wr hm
      rw [htable]
      exact iff_of_true rfl hm
  · rw [ht.table fd' hne, LwsFds.mask_congr (hn.others fd' hne).1]
    exact hP fd' wr

theorem pollStep_valid (h : s.lws.Valid) (hs : pollStep s e = some s') : s'.lws.Valid := by
  cases e with
  | create wsi =>
    obtain ⟨l', hc, rfl⟩ := Option.map_eq_some_iff.1 hs
    exact (h.create hc).1
  | poll reason wsi fd events =>
    obtain ⟨l', hn, hrest⟩ := Option.bind_eq_some_iff.1 hs
    obtain ⟨b', -, hret⟩ := Option.bind_eq_some_iff.1 hrest
    cases hret
    cases hr : reason.notifies with
    | false =>
      have hsame : l' = s.lws := by
        cases reason <;> cases hr <;> cases hn <;> rfl
      exact hsame ▸ h
    | true => exact (h.notified hr hn).valid
  | destroy wsi =>
    obtain ⟨l', hc, rfl⟩ := Option.map_eq_some_iff.1 hs
    exact (h.destroy hc).1
  | setOnFd onFd =>
    cases hs
    exact h
  | ready fd wr revents =>
    obtain ⟨f, -, hrest⟩ := Option.bind_eq_some_iff.1 hs
    split at hrest
    · cases hrest
    · obtain ⟨b', -, hret⟩ := Option.bind_eq_some_iff.1 hrest
      cases hret
      exact h

/-- One step keeps the handlers, unless it is a change that the default callback does not hear of.
-/
theorem pollStep_tracks_iff (h : s.lws.Valid) (hP : s.Tracks) (hs : pollStep s e = some s') :
    s'.Tracks ↔ ¬s.Unheard e := by
  cases e with
  | create wsi =>
    obtain ⟨l', hc, rfl⟩ := Option.map_eq_some_iff.1 hs
    exact iff_of_true (hP.keep (h.create hc).2.1 rfl) id
  | poll reason wsi fd events =>
    obtain ⟨l', hn, hrest⟩ := Option.bind_eq_some_iff.1 hs
    obtain ⟨b', hpoll, hret⟩ := Option.bind_eq_some_iff.1 hrest
    cases hret
    cases hr : reason.notifies with
    | false =>
      have hsame : l' = s.lws ∧ b' = s.bridge := by
        cases reason <;> cases hr <;> cases hn <;> cases hpoll <;> exact ⟨rfl, rfl⟩
      obtain ⟨rfl, rfl⟩ := hsame
      refine iff_of_true hP ?_
      rintro ⟨hr', -⟩
      cases hr.symm.trans hr'
    | true =>
      have hnotified := h.notified hr hn
      by_cases hdefault : s.bridge.onFd = .default
      · obtain ⟨b'', hb'', htold⟩ := wsiIohandler_told hdefault wsi fd events
        have hsame : b' = b'' := by
          cases reason <;> cases hr <;> rw [wsiHandlePoll, hdefault] at hpoll <;>
            exact Option.some.inj (hpoll.symm.trans hb'')
        rw [hsame]
        exact iff_of_true (htold.tracks hP hnotified) fun hu => hu.2.1 hdefault
      · rw [unheard_tracks_iff hP hnotified (wsiHandlePoll_table hdefault hpoll)]
        constructor
        · exact fun hsame hu => hu.2.2 hsame
        · intro hheard
          by_contra hne
          exact hheard ⟨hr, hdefault, hne⟩
  | destroy wsi =>
    obtain ⟨l', hc, rfl⟩ := Option.map_eq_some_iff.1 hs
    exact iff_of_true (hP.keep (h.destroy hc).2.1 rfl) id
  | setOnFd onFd =>
    cases hs
    exact iff_of_true hP id
  | ready fd wr revents =>
    obtain ⟨f, -, hrest⟩ := Option.bind_eq_some_iff.1 hs
    split at hrest
    · cases hrest
    · obtain ⟨b', hb', hret⟩ := Option.bind_eq_some_iff.1 hrest
      cases hret
      exact iff_of_true (hP.keep rfl (callHandler_table hb')) id

/-- **There is a handler for what libwebsockets waits for, and for nothing else, in every state of a
run, exactly if the default callback hears of every change in it.** A callback that the script sets
takes the changes from then on, and what the event loop had for a descriptor stays. -/
theorem poll_bridge_tracks_iff (es : List PollEvent) :
    PartialRun.Throughout pollStep PollSystem.Tracks pollInit es ↔
      PartialRun.Meets pollStep (fun s e => ¬s.Unheard e) pollInit es := by
  refine PartialRun.throughout_iff_meets (I := fun s => s.lws.Valid)
    (fun _ _ _ h hs => pollStep_valid h hs) (fun _ _ _ h hP hs => pollStep_tracks_iff h hP hs) es
    pollInit_bridged.valid ?_
  intro fd wr
  exact iff_of_false nofun (not_not_intro (Nat.zero_and _))

end QjsNet
