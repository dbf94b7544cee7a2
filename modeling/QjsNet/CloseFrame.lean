import QjsNet.Utils

/- The payload of a WebSocket close frame, as the server and the client take it apart.

   The library hands over a pointer and a length, and no pointer (`none`) where there was
   no frame. The server looks at the pointer alone: it reads two bytes and takes everything
   behind them for the reason, with a length that wraps round below two. The client looks
   at the length. `none` is a read outside the payload.

   Correspondence (C ↔ Lean):
     `LWS_CALLBACK_WS_PEER_INITIATED_CLOSE` in `minnet-server-ws.c`
       ↔ `serverWhy`, `serverCloseFrame`, `serverClose`
     `close_status`, `close_reason` in `minnet-client.c` ↔ `closeStatus`, `closeReason`
     the arguments of the client's `onClose`             ↔ `clientCloseArgs`
     `JS_NewStringLen(ctx, in + offset, len)`            ↔ `newStringLen` -/
namespace QjsNet

inductive SocketState where
  | CONNECTING
  | OPEN
  | CLOSING
  | CLOSED
  deriving DecidableEq, Repr

def SocketState.val : SocketState → Nat
  | .CONNECTING => 0
  | .OPEN => 1
  | .CLOSING => 2
  | .CLOSED => 3

def newStringLen (payload : Bytes) (offset len : Nat) : Option JSValue :=
  if offset + len ≤ payload.length then some (.string ((payload.drop offset).take len)) else none

/-- `if(len - 2 > 0) why = JS_NewStringLen(.., len - 2)` -/
def serverWhy (payload : Bytes) : Option JSValue :=
  if 0 < sizeSub payload.length 2 then newStringLen payload 2 (sizeSub payload.length 2)
  else some .undefined

/-- `code` and `why`. -/
def serverCloseFrame : Option Bytes → Option (Int × JSValue)
  | none => some (-1, .undefined)
  | some payload => do
    let c₀ ← payload[0]?
    let c₁ ← payload[1]?
    let why ← serverWhy payload
    return (((c₀.toNat <<< 8) + c₁.toNat : Nat), why)

/-- The state of the connection afterwards, and the arguments `onClose` is called with. -/
def serverClose (status : SocketState) (wsObj : JSValue) (payload : Option Bytes) :
    Option (SocketState × Option (List JSValue)) :=
  if status.val < SocketState.CLOSING.val then
    (serverCloseFrame payload).map fun (code, why) =>
      (.CLOSING, some (if code ≠ -1 then [wsObj, .int code, why] else [wsObj]))
  else some (status, none)

def closeStatus (payload : Bytes) : Option JSValue :=
  if 2 ≤ payload.length then do
    let c₀ ← payload[0]?
    let c₁ ← payload[1]?
    return .int ((c₀.toNat <<< 8) ||| c₁.toNat : Nat)
  else some .undefined

def closeReason (payload : Bytes) : Option JSValue :=
  if 2 < payload.length then newStringLen payload 2 (sizeSub payload.length 2) else some .undefined

/-- The last argument is the error, which a close frame does not set. -/
def clientCloseArgs (wsObj : JSValue) (payload : Option Bytes) : Option (List JSValue) := do
  let status ← closeStatus (payload.getD [])
  let reason ← closeReason (payload.getD [])
  return [wsObj, status, reason, .undefined]

/-! ## What a payload says -/

/-- The first two bytes, most significant first. -/
def closeCode : Bytes → JSValue
  | c₀ :: c₁ :: _ => .int (256 * c₀.toNat + c₁.toNat : Nat)
  | _ => .undefined

/-- What is behind them, if anything is. -/
def closeWhy (payload : Bytes) : JSValue :=
  if 2 < payload.length then .string (payload.drop 2) else .undefined

/-- The code and the reason among the arguments of `onClose`. -/
def closeReported (args : List JSValue) : JSValue × JSValue :=
  (args.getD 1 .undefined, args.getD 2 .undefined)

def closeMeant (payload : Option Bytes) : JSValue × JSValue :=
  (closeCode (payload.getD []), closeWhy (payload.getD []))

/-- The server closes an open connection, reads inside the payload and reports what it says. -/
def ServerDecodes (wsObj : JSValue) (payload : Option Bytes) : Prop :=
  ∀ status : SocketState, status.val < SocketState.CLOSING.val →
    ∃ args, serverClose status wsObj payload = some (.CLOSING, some args) ∧
      closeReported args = closeMeant payload

def ClientDecodes (wsObj : JSValue) (payload : Option Bytes) : Prop :=
  ∃ args, clientCloseArgs wsObj payload = some args ∧ closeReported args = closeMeant payload

variable {payload : Bytes} {wsObj : JSValue}

theorem newStringLen_rest (h : 2 ≤ payload.length) :
    newStringLen payload 2 (payload.length - 2) = some (.string (payload.drop 2)) := by
  have hbound : 2 + (payload.length - 2) ≤ payload.length := by omega
  have hall : (payload.drop 2).take (payload.length - 2) = payload.drop 2 := by
    rw [← List.length_drop, List.take_length]
  rw [newStringLen, if_pos hbound, hall]

theorem reason_eq {hasWhy : Prop} [Decidable hasWhy] (h : 2 ≤ payload.length)
    (hiff : hasWhy ↔ 2 < payload.length) :
    (if hasWhy then newStringLen payload 2 (payload.length - 2) else some .undefined)
      = some (closeWhy payload) := by
  unfold closeWhy
  by_cases hwhy : hasWhy
  · rw [if_pos hwhy, if_pos (hiff.1 hwhy), newStringLen_rest h]
  · rw [if_neg hwhy, if_neg fun hlt => hwhy (hiff.2 hlt)]

/-- Shifting and adding are the same as shifting and joining the bits. -/
theorem closeCode_eq (c₀ c₁ : UInt8) : (c₀.toNat <<< 8) + c₁.toNat = 256 * c₀.toNat + c₁.toNat ∧
    (c₀.toNat <<< 8) ||| c₁.toNat = 256 * c₀.toNat + c₁.toNat := by
  have hshift : c₀.toNat <<< 8 = 256 * c₀.toNat := by
    rw [Nat.shiftLeft_eq, Nat.mul_comm]
  refine ⟨by rw [hshift], ?_⟩
  rw [← Nat.shiftLeft_add_eq_or_of_lt c₁.toNat_lt, hshift]

/-! ## The two decoders -/

theorem serverCloseFrame_cons (c₀ c₁ : UInt8) (rest : Bytes) :
    serverCloseFrame (some (c₀ :: c₁ :: rest))
      = some (((256 * c₀.toNat + c₁.toNat : Nat) : Int), closeWhy (c₀ :: c₁ :: rest)) := by
  have hlen : 2 ≤ (c₀ :: c₁ :: rest).length := Nat.le_add_left 2 rest.length
  have hwhy : serverWhy (c₀ :: c₁ :: rest) = some (closeWhy (c₀ :: c₁ :: rest)) := by
    unfold serverWhy
    rw [sizeSub_of_le hlen]
    exact reason_eq hlen Nat.sub_pos_iff_lt
  rw [← (closeCode_eq c₀ c₁).1]
  simp only [serverCloseFrame, hwhy]
  rfl

theorem closeStatus_eq (payload : Bytes) : closeStatus payload = some (closeCode payload) := by
  match payload with
  | [] => rfl
  | [c] => rfl
  | c₀ :: c₁ :: rest =>
    have hlen : 2 ≤ (c₀ :: c₁ :: rest).length := Nat.le_add_left 2 rest.length
    unfold closeStatus
    rw [if_pos hlen, closeCode, ← (closeCode_eq c₀ c₁).2]
    rfl

theorem closeReason_eq (payload : Bytes) : closeReason payload = some (closeWhy payload) := by
  unfold closeReason
  by_cases hlen : 2 ≤ payload.length
  · rw [sizeSub_of_le hlen]
    exact reason_eq hlen Iff.rfl
  · rw [closeWhy, if_neg (by omega), if_neg (by omega)]

theorem client_decodes (wsObj : JSValue) (payload : Option Bytes) : ClientDecodes wsObj payload := by
  refine ⟨[wsObj, closeCode (payload.getD []), closeWhy (payload.getD []), .undefined], ?_, rfl⟩
  unfold clientCloseArgs
  rw [closeStatus_eq, closeReason_eq]
  rfl

theorem not_serverDecodes {payload : Option Bytes} (h : serverCloseFrame payload = none) :
    ¬ ServerDecodes wsObj payload := by
  intro hdecodes
  obtain ⟨args, hargs, -⟩ := hdecodes .OPEN (by decide)
  rw [serverClose, if_pos (by decide), h] at hargs
  cases hargs

theorem serverDecodes_of {payload : Option Bytes} {code : Int} {why : JSValue}
    (h : serverCloseFrame payload = some (code, why))
    (hmeant : closeReported (if code ≠ -1 then [wsObj, .int code, why] else [wsObj])
      = closeMeant payload) : ServerDecodes wsObj payload := by
  intro status hstatus
  refine ⟨_, ?_, hmeant⟩
  rw [serverClose, if_pos hstatus, h]
  rfl

/-- The server is right when there is no payload, or one with a code. -/
theorem serverDecodes_iff (wsObj : JSValue) (payload : Option Bytes) :
    ServerDecodes wsObj payload ↔ ∀ bytes ∈ payload, 2 ≤ bytes.length := by
  match payload with
  | none => exact iff_of_true (serverDecodes_of rfl rfl) nofun
  | some [] =>
    refine iff_of_false (not_serverDecodes rfl) ?_
    intro h
    exact absurd (h [] rfl) (by decide)
  | some [c] =>
    refine iff_of_false (not_serverDecodes rfl) ?_
    intro h
    exact absurd (h [c] rfl) (Nat.lt_irrefl 1)
  | some (c₀ :: c₁ :: rest) =>
    refine iff_of_true (serverDecodes_of (serverCloseFrame_cons c₀ c₁ rest) ?_) ?_
    · have hne : ((256 * c₀.toNat + c₁.toNat : Nat) : Int) ≠ -1 := by omega
      rw [if_pos hne]
      rfl
    · intro bytes hbytes
      obtain rfl := Option.some.inj hbytes
      exact Nat.le_add_left 2 rest.length

/-- **When both sides of a connection decode a close frame.** They do if and only if the library
hands over no payload or at least the two bytes of the code; it is the server that fails. -/
theorem close_decoding_iff (wsObj : JSValue) (payload : Option Bytes) :
    (ServerDecodes wsObj payload ∧ ClientDecodes wsObj payload) ↔
      ∀ bytes ∈ payload, 2 ≤ bytes.length := by
  rw [and_iff_left (client_decodes wsObj payload)]
  exact serverDecodes_iff wsObj payload

/-- An empty close frame, and one with a single byte. -/
theorem close_frame_short :
    ¬ ServerDecodes (.object 1) (some []) ∧ ¬ ServerDecodes (.object 1) (some [3]) := by
  refine ⟨?_, ?_⟩
  · intro h
    obtain ⟨args, hargs, -⟩ := h .OPEN (by decide)
    cases hargs
  · intro h
    obtain ⟨args, hargs, -⟩ := h .OPEN (by decide)
    cases hargs

end QjsNet
