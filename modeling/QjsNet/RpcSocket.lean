import Mathlib.Logic.Function.Basic
import QjsNet.JSValue
import QjsNet.Lib.PartialRun

/- The connections of an `RPCSocket` (`rpc.js`), for any number of sockets.

   `getCallbacks` takes the service out of the `RPCSocket`, and a socket that connects
   gets that service itself for its connection: every entry of `fdlist` is the same
   object, and the last socket is the one it sends to. `isolated_iff` says which runs of
   events keep the sockets apart.

   A socket is named by its descriptor, an object by a number. What a server makes of a
   message is the subject of `RpcServer`; its response is sent in a later step.

   Correspondence (JavaScript ↔ Lean):
     `handle`, `callHandler`, `hasHandler` ↔ `handle`; `none` for an exception
     `remove`                      ↔ `RpcSocket.remove`
     `onConnect`, `onOpen`         ↔ `onOpen`
     `onMessage`, `onError`, `onClose` ↔ `onMessage`, `onError`, `onClose`
     `Connection.onclose`          ↔ `closed`
     `Connection.sendMessage`      ↔ `sendReply` -/
namespace QjsNet

/-- What the service is: a class, which is a function, or an object of one of the two classes. -/
inductive ServiceKind where
  | ctor
  | server
  | client
  deriving DecidableEq, Repr

/-- A call of `onmessage`: the connection with the socket it has then, and the socket and the
message of the event. -/
structure Delivery where
  conn : Nat
  socket : Option Nat
  fd : Nat
  msg : Bytes
  deriving DecidableEq, Repr

/-- The entries of `fdlist`, the `socket` of each object, and what was delivered. -/
structure RpcSocket where
  fdlist : Nat → Option Nat
  socketOf : Nat → Option Nat
  handled : List Delivery

def RpcSocket.new : RpcSocket := ⟨fun _ => none, fun _ => none, []⟩

variable (service : Nat) (kind : Nat → ServiceKind)

/-- The handler is called if the connection is an object, which has handlers for all events. -/
def handle (rpc : RpcSocket) (fd : Nat) (handler : Nat → Option RpcSocket) : Option RpcSocket :=
  (rpc.fdlist fd).bind fun conn => if kind conn = .ctor then some rpc else handler conn

def RpcSocket.remove (rpc : RpcSocket) (fd : Nat) : RpcSocket :=
  { rpc with fdlist := Function.update rpc.fdlist fd none }

/-- The service becomes the connection of the socket, and the socket that of the service. -/
def RpcSocket.attach (rpc : RpcSocket) (fd : Nat) : RpcSocket :=
  { rpc with
    fdlist := Function.update rpc.fdlist fd (some service)
    socketOf := Function.update rpc.socketOf service (some fd) }

/-- `onopen` only logs. -/
def onOpen (rpc : RpcSocket) (fd : Nat) : RpcSocket :=
  (handle kind (rpc.attach service fd) fd fun _ => some (rpc.attach service fd)).getD
    (rpc.attach service fd)

/-- `onmessage` of the connection is called. -/
def deliver (rpc : RpcSocket) (fd : Nat) (msg : Bytes) (conn : Nat) : RpcSocket :=
  { rpc with handled := rpc.handled ++ [⟨conn, rpc.socketOf conn, fd, msg⟩] }

def onMessage (rpc : RpcSocket) (fd : Nat) (msg : Bytes) : RpcSocket :=
  (handle kind rpc fd fun conn => some (deliver rpc fd msg conn)).getD rpc

/-- The first call reads a variable `instance` that is not there. -/
def onError (rpc : RpcSocket) (_fd : Nat) : RpcSocket := rpc

/-- A client has no `cleanup`. -/
def closed (rpc : RpcSocket) (conn : Nat) : Option RpcSocket :=
  if kind conn = .client then none else some rpc

def onClose (rpc : RpcSocket) (fd : Nat) : RpcSocket :=
  ((handle kind rpc fd (closed kind rpc)).map fun rpc => rpc.remove fd).getD rpc

/-! ## Events in any order -/

/-- `opened`, `last` and `received` keep what has happened: the sockets that are open, the last one
that connected, and the messages that came. A reply is the number of a delivery with the socket it
goes to. -/
structure SocketRun where
  rpc : RpcSocket
  opened : Nat → Bool
  last : Option Nat
  received : List (Nat × Bytes)
  replies : List (Nat × Option Nat)

def SocketRun.new : SocketRun := ⟨.new, fun _ => false, none, [], []⟩

inductive SocketEvent where
  | connect (fd : Nat)
  | open (fd : Nat)
  | message (fd : Nat) (msg : Bytes)
  | error (fd : Nat)
  | close (fd : Nat)
  /-- The response to what was delivered is there. -/
  | reply (k : Nat)
  deriving DecidableEq, Repr

/-- The response goes to the socket that the connection has now. -/
def sendReply (s : SocketRun) (k : Nat) (d : Delivery) : SocketRun :=
  { s with replies := s.replies ++ [(k, s.rpc.socketOf d.conn)] }

/-- A socket connects or opens. -/
def connected (s : SocketRun) (fd : Nat) : SocketRun :=
  { s with
    rpc := onOpen service kind s.rpc fd
    opened := Function.update s.opened fd true
    last := some fd }

/-- A server responds to a delivery once; the other events may come at any time. -/
def socketStep (s : SocketRun) : SocketEvent → Option SocketRun
  | .connect fd | .open fd => some (connected service kind s fd)
  | .message fd msg =>
    some { s with rpc := onMessage kind s.rpc fd msg, received := s.received ++ [(fd, msg)] }
  | .error fd =>
    some { s with rpc := onError s.rpc fd, opened := Function.update s.opened fd false }
  | .close fd =>
    some { s with rpc := onClose kind s.rpc fd, opened := Function.update s.opened fd false }
  | .reply k => do
    let d : Delivery ← s.rpc.handled[k]?
    if kind d.conn = .server ∧ k ∉ s.replies.map Prod.fst then some (sendReply s k d) else none

/-- An open socket has a connection of its own, and another one none; every message was delivered
once, to the connection of its socket, and its reply went to that socket. -/
structure Isolated (s : SocketRun) : Prop where
  own : ∀ fd, s.opened fd = true → ∃ conn, s.rpc.fdlist fd = some conn ∧
    s.rpc.socketOf conn = some fd ∧ ∀ fd', s.rpc.fdlist fd' = some conn → fd' = fd
  removed : ∀ fd, s.opened fd = false → s.rpc.fdlist fd = none
  delivered : s.rpc.handled.map (fun d => (d.fd, d.msg)) = s.received
  belongs : ∀ d ∈ s.rpc.handled, d.socket = some d.fd
  replied : ∀ k sock d, (k, sock) ∈ s.replies → s.rpc.handled[k]? = some d → sock = some d.fd

/-- No socket opens beside another one, and no error comes from one that is open; a message comes
from a socket that is open, to an object; what closes is no client; and no other socket has
connected between a message and its reply. -/
def KeepsApart (s : SocketRun) : SocketEvent → Prop
  | .connect fd | .open fd => ∀ fd', fd' ≠ fd → s.opened fd' = false
  | .message fd _ => s.opened fd = true ∧ kind service ≠ .ctor
  | .error fd => s.opened fd = false
  | .close fd => s.opened fd = false ∨ kind service ≠ .client
  | .reply k => ∀ d, s.rpc.handled[k]? = some d → s.last = some d.fd

variable {service kind} {s s' : SocketRun} {rpc : RpcSocket} {fd fd' conn k : Nat} {msg : Bytes}

/-! ## What the callbacks do -/

@[simp] theorem attach_fdlist_self (rpc : RpcSocket) (fd : Nat) :
    (rpc.attach service fd).fdlist fd = some service := Function.update_self ..

theorem attach_fdlist_of_ne (rpc : RpcSocket) (h : fd' ≠ fd) :
    (rpc.attach service fd).fdlist fd' = rpc.fdlist fd' := Function.update_of_ne h ..

@[simp] theorem attach_socketOf (rpc : RpcSocket) (fd : Nat) :
    (rpc.attach service fd).socketOf service = some fd := Function.update_self ..

@[simp] theorem remove_fdlist_self (rpc : RpcSocket) (fd : Nat) :
    (rpc.remove fd).fdlist fd = none := Function.update_self ..

theorem remove_fdlist_of_ne (rpc : RpcSocket) (h : fd' ≠ fd) :
    (rpc.remove fd).fdlist fd' = rpc.fdlist fd' := Function.update_of_ne h ..

theorem onOpen_eq (rpc : RpcSocket) (fd : Nat) : onOpen service kind rpc fd = rpc.attach service fd := by
  rw [onOpen, handle, attach_fdlist_self, Option.bind_some]
  split <;> rfl

theorem onMessage_some (h : rpc.fdlist fd = some conn) (hkind : kind conn ≠ .ctor) :
    onMessage kind rpc fd msg = deliver rpc fd msg conn := by
  rw [onMessage, handle, h, Option.bind_some, if_neg hkind, Option.getD_some]

theorem onMessage_ctor (h : rpc.fdlist fd = some conn) (hkind : kind conn = .ctor) :
    onMessage kind rpc fd msg = rpc := by
  rw [onMessage, handle, h, Option.bind_some, if_pos hkind, Option.getD_some]

theorem onMessage_none (h : rpc.fdlist fd = none) : onMessage kind rpc fd msg = rpc := by
  rw [onMessage, handle, h]
  rfl

theorem onClose_none (h : rpc.fdlist fd = none) : onClose kind rpc fd = rpc := by
  rw [onClose, handle, h]
  rfl

theorem onClose_client (h : rpc.fdlist fd = some conn) (hkind : kind conn = .client) :
    onClose kind rpc fd = rpc := by
  have hctor : kind conn ≠ .ctor := by rw [hkind]; decide
  rw [onClose, handle, h, Option.bind_some, if_neg hctor, closed, if_pos hkind]
  rfl

theorem onClose_removes (h : rpc.fdlist fd = some conn) (hkind : kind conn ≠ .client) :
    onClose kind rpc fd = rpc.remove fd := by
  rw [onClose, handle, h, Option.bind_some, closed, if_neg hkind]
  split <;> rfl

theorem onMessage_cases (rpc : RpcSocket) (fd : Nat) (msg : Bytes) :
    onMessage kind rpc fd msg = rpc ∨
      ∃ conn, rpc.fdlist fd = some conn ∧ onMessage kind rpc fd msg = deliver rpc fd msg conn := by
  cases hfd : rpc.fdlist fd with
  | none => exact Or.inl (onMessage_none hfd)
  | some conn =>
    by_cases hkind : kind conn = .ctor
    · exact Or.inl (onMessage_ctor hfd hkind)
    · exact Or.inr ⟨conn, rfl, onMessage_some hfd hkind⟩

theorem onClose_cases (rpc : RpcSocket) (fd : Nat) :
    onClose kind rpc fd = rpc ∨ onClose kind rpc fd = rpc.remove fd := by
  cases hfd : rpc.fdlist fd with
  | none => exact Or.inl (onClose_none hfd)
  | some conn =>
    by_cases hkind : kind conn = .client
    · exact Or.inl (onClose_client hfd hkind)
    · exact Or.inr (onClose_removes hfd hkind)

theorem onClose_other (h : fd' ≠ fd) : (onClose kind rpc fd).fdlist fd' = rpc.fdlist fd' := by
  obtain hsame | hremove := @onClose_cases kind rpc fd
  · rw [hsame]
  · rw [hremove, remove_fdlist_of_ne rpc h]

theorem onClose_socketOf : (onClose kind rpc fd).socketOf = rpc.socketOf := by
  obtain hsame | hremove := @onClose_cases kind rpc fd
  · rw [hsame]
  · rw [hremove]
    rfl

/-! ## Every connection is the service -/

/-- What holds anyway: the connections are all the service, which has the socket that connected
last, and replies are replies to something. -/
structure Shared (service : Nat) (s : SocketRun) : Prop where
  conn : ∀ fd conn, s.rpc.fdlist fd = some conn → conn = service
  last : s.rpc.socketOf service = s.last
  handled : ∀ d ∈ s.rpc.handled, d.conn = service
  replies : ∀ k sock, (k, sock) ∈ s.replies → k < s.rpc.handled.length

theorem socketStep_reply (h : socketStep service kind s (.reply k) = some s') :
    ∃ d, s.rpc.handled[k]? = some d ∧ s' = sendReply s k d := by
  obtain ⟨d, hd, h⟩ := Option.bind_eq_some_iff.1 h
  split at h
  · cases h
    exact ⟨d, hd, rfl⟩
  · cases h

theorem connected_shared (hI : Shared service s) (fd : Nat) :
    Shared service (connected service kind s fd) := by
  rw [connected, onOpen_eq]
  refine ⟨?_, attach_socketOf s.rpc fd, hI.handled, hI.replies⟩
  intro fd' conn hconn
  by_cases hfd : fd' = fd
  · rw [hfd, attach_fdlist_self] at hconn
    exact (Option.some.inj hconn).symm
  · rw [attach_fdlist_of_ne s.rpc hfd] at hconn
    exact hI.conn fd' conn hconn

theorem message_shared (hI : Shared service s) (fd : Nat) (msg : Bytes)
    (received : List (Nat × Bytes)) :
    Shared service { s with rpc := onMessage kind s.rpc fd msg, received } := by
  obtain hsame | ⟨conn, hconn, hdeliver⟩ := @onMessage_cases kind s.rpc fd msg
  · rw [hsame]
    exact ⟨hI.conn, hI.last, hI.handled, hI.replies⟩
  · rw [hdeliver]
    refine ⟨hI.conn, hI.last, ?_, ?_⟩
    · intro d hd
      obtain hd | hd := List.mem_append.1 hd
      · exact hI.handled d hd
      · rw [List.mem_singleton.1 hd]
        exact hI.conn fd conn hconn
    · intro k sock hmem
      rw [deliver, List.length_append]
      exact Nat.lt_add_right _ (hI.replies k sock hmem)

theorem close_shared (hI : Shared service s) (fd : Nat) (opened : Nat → Bool) :
    Shared service { s with rpc := onClose kind s.rpc fd, opened } := by
  obtain hsame | hremove := @onClose_cases kind s.rpc fd
  · rw [hsame]
    exact ⟨hI.conn, hI.last, hI.handled, hI.replies⟩
  · rw [hremove]
    refine ⟨?_, hI.last, hI.handled, hI.replies⟩
    intro fd' conn hconn
    by_cases hfd : fd' = fd
    · rw [hfd, remove_fdlist_self] at hconn
      cases hconn
    · rw [remove_fdlist_of_ne s.rpc hfd] at hconn
      exact hI.conn fd' conn hconn

theorem reply_shared (hI : Shared service s) {d : Delivery} (hd : s.rpc.handled[k]? = some d) :
    Shared service (sendReply s k d) := by
  refine ⟨hI.conn, hI.last, hI.handled, ?_⟩
  intro k' sock hmem
  obtain hmem | hmem := List.mem_append.1 hmem
  · exact hI.replies k' sock hmem
  · obtain ⟨rfl, -⟩ := Prod.mk.inj (List.mem_singleton.1 hmem)
    exact (List.getElem?_eq_some_iff.1 hd).1

theorem socketStep_shared (hI : Shared service s) {e : SocketEvent}
    (h : socketStep service kind s e = some s') : Shared service s' := by
  cases e with
  | connect fd =>
    cases h
    exact connected_shared hI fd
  | «open» fd =>
    cases h
    exact connected_shared hI fd
  | message fd msg =>
    cases h
    exact message_shared hI fd msg _
  | error fd =>
    cases h
    exact ⟨hI.conn, hI.last, hI.handled, hI.replies⟩
  | close fd =>
    cases h
    exact close_shared hI fd _
  | reply k =>
    obtain ⟨d, hd, rfl⟩ := socketStep_reply h
    exact reply_shared hI hd

/-! ## One event -/

/-- The connection of an open socket. -/
theorem Isolated.entry (h : Isolated s) (hI : Shared service s) (hopen : s.opened fd = true) :
    s.rpc.fdlist fd = some service ∧ s.rpc.socketOf service = some fd := by
  obtain ⟨conn, hconn, hsocket, -⟩ := h.own fd hopen
  have heq := hI.conn fd conn hconn
  subst heq
  exact ⟨hconn, hsocket⟩

theorem isolated_open_iff (hI : Shared service s) (h : Isolated s) (fd : Nat) :
    Isolated (connected service kind s fd) ↔ ∀ fd', fd' ≠ fd → s.opened fd' = false := by
  rw [connected, onOpen_eq]
  refine ⟨?_, ?_⟩
  · intro h' fd' hne
    -- another open socket would have the service as well
    by_contra hopen
    have hopen' : s.opened fd' = true := by simpa using hopen
    obtain ⟨conn, hconn, -, honly⟩ := h'.own fd (Function.update_self ..)
    rw [attach_fdlist_self] at hconn
    cases hconn
    refine hne (honly fd' ?_)
    rw [attach_fdlist_of_ne s.rpc hne]
    exact (h.entry hI hopen').1
  · intro hclosed
    refine ⟨?_, ?_, h.delivered, h.belongs, h.replied⟩
    · intro fd' hopen
      have hfd : fd' = fd := by
        by_contra hne
        have hother : s.opened fd' = true := (Function.update_of_ne hne ..).symm.trans hopen
        rw [hclosed fd' hne] at hother
        cases hother
      subst hfd
      refine ⟨service, attach_fdlist_self .., attach_socketOf .., ?_⟩
      intro fd'' hconn
      by_contra hne
      rw [attach_fdlist_of_ne s.rpc hne, h.removed fd'' (hclosed fd'' hne)] at hconn
      cases hconn
    · intro fd' hopen
      have hne : fd' ≠ fd := by
        rintro rfl
        cases (Function.update_self ..).symm.trans hopen
      rw [attach_fdlist_of_ne s.rpc hne]
      exact h.removed fd' (hclosed fd' hne)

theorem isolated_message_iff (hI : Shared service s) (h : Isolated s) (fd : Nat) (msg : Bytes) :
    Isolated { s with
        rpc := onMessage kind s.rpc fd msg, received := s.received ++ [(fd, msg)] } ↔
      s.opened fd = true ∧ kind service ≠ .ctor := by
  -- what is not delivered is missing
  have hmissing : onMessage kind s.rpc fd msg = s.rpc → ¬ Isolated { s with
      rpc := onMessage kind s.rpc fd msg, received := s.received ++ [(fd, msg)] } := by
    intro hsame h'
    have hlength := congrArg List.length h'.delivered
    rw [hsame, h.delivered, List.length_append, List.length_singleton] at hlength
    omega
  cases hopen : s.opened fd with
  | false =>
    refine iff_of_false (hmissing ?_) fun hcond => nomatch hcond.1
    exact onMessage_none (h.removed fd hopen)
  | true =>
    obtain ⟨hconn, hsocket⟩ := h.entry hI hopen
    by_cases hkind : kind service = .ctor
    · exact iff_of_false (hmissing (onMessage_ctor hconn hkind)) fun hcond => hcond.2 hkind
    · refine iff_of_true ?_ ⟨rfl, hkind⟩
      rw [onMessage_some hconn hkind]
      refine ⟨h.own, h.removed, ?_, ?_, ?_⟩
      · rw [deliver, List.map_append, h.delivered]
        rfl
      · intro d hd
        obtain hd | hd := List.mem_append.1 hd
        · exact h.belongs d hd
        · rw [List.mem_singleton.1 hd]
          exact hsocket
      · intro k sock d hmem hd
        refine h.replied k sock d hmem ?_
        rwa [deliver, List.getElem?_append_left (hI.replies k sock hmem)] at hd

theorem update_false_of {opened : Nat → Bool} (h : opened fd = false) :
    Function.update opened fd false = opened := by
  rw [← h, Function.update_eq_self]

/-- The connection of a socket that was open has to go. -/
theorem not_isolated_of_kept (hI : Shared service s) (h : Isolated s) (hopen : s.opened fd = true) :
    ¬ Isolated { s with opened := Function.update s.opened fd false } := by
  intro h'
  have hnone := h'.removed fd (Function.update_self ..)
  rw [(h.entry hI hopen).1] at hnone
  cases hnone

theorem isolated_error_iff (hI : Shared service s) (h : Isolated s) (fd : Nat) :
    Isolated { s with rpc := onError s.rpc fd, opened := Function.update s.opened fd false } ↔
      s.opened fd = false := by
  cases hopen : s.opened fd with
  | true => exact iff_of_false (not_isolated_of_kept hI h hopen) nofun
  | false =>
    refine iff_of_true ?_ rfl
    rw [update_false_of hopen]
    exact h

theorem isolated_close_iff (hI : Shared service s) (h : Isolated s) (fd : Nat) :
    Isolated { s with rpc := onClose kind s.rpc fd, opened := Function.update s.opened fd false } ↔
      s.opened fd = false ∨ kind service ≠ .client := by
  cases hopen : s.opened fd with
  | false =>
    refine iff_of_true ?_ (Or.inl rfl)
    rw [onClose_none (h.removed fd hopen), update_false_of hopen]
    exact h
  | true =>
    obtain ⟨hconn, -⟩ := h.entry hI hopen
    by_cases hkind : kind service = .client
    · refine iff_of_false ?_ (by simp [hkind])
      rw [onClose_client hconn hkind]
      exact not_isolated_of_kept hI h hopen
    · refine iff_of_true ?_ (Or.inr hkind)
      rw [onClose_removes hconn hkind]
      refine ⟨?_, ?_, h.delivered, h.belongs, h.replied⟩
      · intro fd' hopen'
        have hne : fd' ≠ fd := by
          rintro rfl
          cases (Function.update_self ..).symm.trans hopen'
        obtain ⟨conn, hconn', hsocket, honly⟩ := h.own fd' ((Function.update_of_ne hne ..).symm.trans hopen')
        refine ⟨conn, (remove_fdlist_of_ne s.rpc hne).trans hconn', hsocket, ?_⟩
        intro fd'' hconn''
        by_cases hfd : fd'' = fd
        · rw [hfd, remove_fdlist_self] at hconn''
          cases hconn''
        · exact honly fd'' ((remove_fdlist_of_ne s.rpc hfd).symm.trans hconn'')
      · intro fd' hclosed
        by_cases hfd : fd' = fd
        · rw [hfd, remove_fdlist_self]
        · rw [remove_fdlist_of_ne s.rpc hfd]
          exact h.removed fd' ((Function.update_of_ne hfd ..).symm.trans hclosed)

theorem isolated_reply_iff (hI : Shared service s) (h : Isolated s) {d : Delivery}
    (hd : s.rpc.handled[k]? = some d) :
    Isolated (sendReply s k d) ↔ ∀ d, s.rpc.handled[k]? = some d → s.last = some d.fd := by
  have hsocket : s.rpc.socketOf d.conn = s.last := by
    rw [hI.handled d (List.mem_of_getElem? hd), hI.last]
  refine ⟨?_, ?_⟩
  · intro h' d' hd'
    cases hd.symm.trans hd'
    rw [← hsocket]
    exact h'.replied k _ d (List.mem_append_right _ (List.mem_singleton.2 rfl)) hd
  · intro hlast
    refine ⟨h.own, h.removed, h.delivered, h.belongs, ?_⟩
    intro k' sock d' hmem hd'
    obtain hmem | hmem := List.mem_append.1 hmem
    · exact h.replied k' sock d' hmem hd'
    · obtain ⟨rfl, rfl⟩ := Prod.mk.inj (List.mem_singleton.1 hmem)
      cases hd.symm.trans hd'
      rw [hsocket]
      exact hlast d hd

theorem socketStep_isolated_iff {e : SocketEvent} (hI : Shared service s) (h : Isolated s)
    (hstep : socketStep service kind s e = some s') : Isolated s' ↔ KeepsApart service kind s e := by
  cases e with
  | connect fd =>
    cases hstep
    exact isolated_open_iff hI h fd
  | «open» fd =>
    cases hstep
    exact isolated_open_iff hI h fd
  | message fd msg =>
    cases hstep
    exact isolated_message_iff hI h fd msg
  | error fd =>
    cases hstep
    exact isolated_error_iff hI h fd
  | close fd =>
    cases hstep
    exact isolated_close_iff hI h fd
  | reply k =>
    obtain ⟨d, hd, rfl⟩ := socketStep_reply hstep
    exact isolated_reply_iff hI h hd

/-! ## All runs -/

theorem shared_new : Shared service .new := ⟨nofun, rfl, nofun, nofun⟩

theorem isolated_new : Isolated .new :=
  ⟨nofun, fun _ _ => rfl, rfl, nofun, nofun⟩

/-- In every run the sockets are kept apart throughout exactly when each event keeps them apart; and
an error or a close leaves the connections of the other sockets as they are. -/
theorem isolated_iff (service : Nat) (kind : Nat → ServiceKind) :
    (∀ es, PartialRun.Throughout (socketStep service kind) Isolated .new es ↔
      PartialRun.Meets (socketStep service kind) (KeepsApart service kind) .new es) ∧
    ∀ s s' fd, (socketStep service kind s (.error fd) = some s' ∨
        socketStep service kind s (.close fd) = some s') →
      s'.rpc.socketOf = s.rpc.socketOf ∧ ∀ fd', fd' ≠ fd → s'.rpc.fdlist fd' = s.rpc.fdlist fd' := by
  refine ⟨?_, ?_⟩
  · intro es
    exact PartialRun.throughout_iff_meets
      (fun s e s' hI h => socketStep_shared hI h)
      (fun s e s' hI h hstep => socketStep_isolated_iff hI h hstep) es shared_new isolated_new
  · rintro s s' fd (h | h)
    · cases h
      exact ⟨rfl, fun fd' _ => rfl⟩
    · cases h
      exact ⟨onClose_socketOf, fun fd' hne => onClose_other hne⟩

/-- Two sockets have one connection. -/
theorem second_socket_shares : ¬ ∀ service kind es,
    PartialRun.Throughout (socketStep service kind) Isolated .new es := by
  intro h
  have hrun := h 0 (fun _ => .server) [.connect 3, .connect 4]
  obtain ⟨conn, hconn, -, honly⟩ :=
    (hrun [.connect 3, .connect 4] (List.prefix_refl _) _ rfl).own 4 rfl
  cases hconn
  exact absurd (honly 3 rfl) (by decide)

end QjsNet
