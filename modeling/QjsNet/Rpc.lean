import Mathlib.Logic.Function.Basic
import QjsNet.JSValue
import QjsNet.Lib.PartialRun

/- The calls of an RPC client and their responses (`rpc.js`).

   `call()` sends a message with a new id and waits until it is sent; what follows the
   wait makes a promise and stores its `resolve` under the id. A response calls what is
   stored under its id. Calls, continuations and responses come in any order, and each
   call gets one response. `rpc_correlates_iff` says when every call settles by its own.

   A message is what the codec makes of it, and every send succeeds. A call's own promise
   settles as the one that its continuation makes.

   Correspondence (JavaScript ↔ Lean):
     `IdSequencer(0)`              ↔ `RpcClient.makeId`
     `sendMessage`                 ↔ `RpcClient.sendMessage`
     `call`, up to the `await`     ↔ `RpcClient.call`
     `call`, behind it             ↔ `RpcClient.register`
     `processMessage`, `onmessage` ↔ `RpcClient.processMessage`, `RpcClient.onmessage` -/
namespace QjsNet

structure RpcMessage where
  method : Bytes
  params : List JSValue
  id : UInt32
  deriving DecidableEq, Repr

/-- A response. Its `error` is not looked at. -/
structure RpcResponse where
  id : Option UInt32
  success : Bool
  result : JSValue
  deriving DecidableEq, Repr

/-- `nextId` is the element of the sequencer's `Uint32Array`, `handlers` the properties of
`#handlers`. -/
structure RpcClient where
  nextId : UInt32
  handlers : UInt32 → Option JSValue
  sent : List RpcMessage
  ctx : JSContext

def RpcClient.new : RpcClient := ⟨0, fun _ => none, [], .new⟩

def RpcClient.makeId (client : RpcClient) : RpcClient × UInt32 :=
  ({ client with nextId := client.nextId + 1 }, client.nextId)

def RpcClient.sendMessage (client : RpcClient) (msg : RpcMessage) : RpcClient :=
  { client with sent := client.sent ++ [msg] }

/-- The first part of `call()`, and the id of the message. -/
def RpcClient.call (client : RpcClient) (method : Bytes) (params : List JSValue) :
    RpcClient × UInt32 :=
  let (client, id) := client.makeId
  (client.sendMessage ⟨method, params, id⟩, id)

/-- The second part of `call()`, and the number of its promise. -/
def RpcClient.register (client : RpcClient) (id : UInt32) : RpcClient × Nat :=
  let (ctx, fns, _) := jsAsyncCreate client.ctx
  ({ client with ctx, handlers := Function.update client.handlers id (some fns.resolve) },
    client.ctx.promises)

/-- `none` when it throws: for a failure it reads a variable `error` that is not there. -/
def RpcClient.processMessage (client : RpcClient) (msg : RpcResponse) : Option RpcClient :=
  if msg.success then
    match msg.id.bind client.handlers with
    | none => some client
    -- the handler stays where it is
    | some fn => some { client with ctx := jsCall client.ctx fn [msg.result] }
  else none

/-- Nothing is sent back, and nothing is left of an exception. -/
def RpcClient.onmessage (client : RpcClient) (msg : RpcResponse) : RpcClient :=
  (client.processMessage msg).getD client

/-! ## Calls and responses in any order -/

structure RpcOutcome where
  success : Bool
  result : JSValue
  deriving DecidableEq, Repr

/-- A call: its promise, once its continuation has run, and its response, once that has come. -/
structure RpcCall where
  id : UInt32
  promise : Option Nat
  response : Option RpcOutcome
  deriving DecidableEq, Repr

structure RpcRun where
  client : RpcClient
  calls : List RpcCall

def RpcRun.new : RpcRun := ⟨.new, []⟩

inductive RpcEvent where
  | call (method : Bytes) (params : List JSValue)
  /-- The continuation of call `k` runs. -/
  | sent (k : Nat)
  /-- The response to call `k` comes, with the id of the call. -/
  | response (k : Nat) (outcome : RpcOutcome)
  deriving DecidableEq, Repr

def RpcRun.register (s : RpcRun) (k : Nat) (c : RpcCall) : RpcRun :=
  let (client, p) := s.client.register c.id
  ⟨client, s.calls.set k { c with promise := some p }⟩

def RpcRun.respond (s : RpcRun) (k : Nat) (c : RpcCall) (outcome : RpcOutcome) : RpcRun :=
  ⟨s.client.onmessage ⟨some c.id, outcome.success, outcome.result⟩,
    s.calls.set k { c with response := some outcome }⟩

def rpcStep (s : RpcRun) : RpcEvent → Option RpcRun
  | .call method params =>
    let (client, id) := s.client.call method params
    some ⟨client, s.calls ++ [⟨id, none, none⟩]⟩
  | .sent k => do
    let c : RpcCall ← s.calls[k]?
    if c.promise = none then some (s.register k c) else none
  | .response k outcome => do
    let c : RpcCall ← s.calls[k]?
    if c.response = none then some (s.respond k c outcome) else none

/-- The continuation of call `k` has run and made promise `p`. -/
def RpcRun.Registered (s : RpcRun) (k : Nat) (c : RpcCall) (p : Nat) : Prop :=
  s.calls[k]? = some c ∧ c.promise = some p

/-- What became of a promise is what the response says. -/
def SettledBy (settled : Option Settlement) : Option RpcOutcome → Prop
  | none => settled = none
  | some outcome =>
    if outcome.success then settled = some (.resolved outcome.result)
    else ∃ error, settled = some (.rejected error)

/-- Every call whose continuation has run is settled by its own response, when that has come, and
not settled otherwise. -/
def Correlated (s : RpcRun) : Prop :=
  ∀ k c p, s.Registered k c p → SettledBy (s.client.ctx.outcome p) c.response

/-- The continuation runs before the response comes, which reports success and finds the handler of
its call; an early response finds at most the handler of a call that is settled. -/
def InStep (s : RpcRun) : RpcEvent → Prop
  | .call .. => True
  | .sent k => ∀ c, s.calls[k]? = some c → c.response = none
  | .response k outcome => ∀ c, s.calls[k]? = some c →
    match c.promise with
    | some p => outcome.success = true ∧ s.client.handlers c.id = some (.resolve p)
    | none => outcome.success = true → ∀ p, s.client.handlers c.id = some (.resolve p) →
        s.client.ctx.outcome p ≠ none

variable {s s' : RpcRun} {k : Nat} {c : RpcCall} {outcome : RpcOutcome} {p : Nat}

/-! ## One event -/

theorem rpcStep_sent (h : rpcStep s (.sent k) = some s') :
    ∃ c, s.calls[k]? = some c ∧ c.promise = none ∧ s' = s.register k c := by
  obtain ⟨c, hc, h⟩ := Option.bind_eq_some_iff.1 h
  split at h
  · next hnone => exact ⟨c, hc, hnone, (Option.some.inj h).symm⟩
  · cases h

theorem rpcStep_response (h : rpcStep s (.response k outcome) = some s') :
    ∃ c, s.calls[k]? = some c ∧ c.response = none ∧ s' = s.respond k c outcome := by
  obtain ⟨c, hc, h⟩ := Option.bind_eq_some_iff.1 h
  split at h
  · next hnone => exact ⟨c, hc, hnone, (Option.some.inj h).symm⟩
  · cases h

theorem getElem?_set_of {calls : List RpcCall} (h : calls[k]? = some c) (c' : RpcCall) (j : Nat) :
    (calls.set k c')[j]? = if k = j then some c' else calls[j]? := by
  have hlt : k < calls.length := (List.getElem?_eq_some_iff.1 h).1
  rw [List.getElem?_set, if_pos hlt]

/-- A response calls what is stored under its id if it reports success, and changes nothing
else. -/
theorem onmessage_spec (client : RpcClient) (id : UInt32) (outcome : RpcOutcome) :
    client.onmessage ⟨some id, outcome.success, outcome.result⟩ = { client with
      ctx := match (if outcome.success then client.handlers id else none) with
        | none => client.ctx
        | some fn => jsCall client.ctx fn [outcome.result] } := by
  cases hs : outcome.success with
  | false => simp [RpcClient.onmessage, RpcClient.processMessage]
  | true =>
    cases hf : client.handlers id <;>
      simp [RpcClient.onmessage, RpcClient.processMessage, hf]

/-- Which promise is whose: the calls have promises of their own, a handler resolves the promise of
a call, whose id it is stored under, and no promise is settled before it is made. -/
structure RpcInv (s : RpcRun) : Prop where
  nextId : s.client.nextId = UInt32.ofNat s.calls.length
  ids : ∀ k (c : RpcCall), s.calls[k]? = some c → c.id = UInt32.ofNat k
  fresh : ∀ k c p, s.Registered k c p → p < s.client.ctx.promises
  distinct : ∀ j k c d p, s.Registered j c p → s.Registered k d p → j = k
  handler : ∀ id fn, s.client.handlers id = some fn →
    ∃ k c p, s.Registered k c p ∧ c.id = id ∧ fn = .resolve p
  stored : ∀ k c p, s.Registered k c p → ∃ fn, s.client.handlers c.id = some fn
  unsettled : ∀ p, s.client.ctx.promises ≤ p → s.client.ctx.outcome p = none

theorem rpcInv_new : RpcInv .new where
  nextId := rfl
  ids := nofun
  fresh := nofun
  distinct := nofun
  handler := nofun
  stored := nofun
  unsettled _ _ := rfl

theorem concat_some {calls : List RpcCall} {d : RpcCall} {j : Nat} :
    (calls ++ [c])[j]? = some d ↔ calls[j]? = some d ∨ (j = calls.length ∧ d = c) := by
  rw [List.getElem?_append]
  split
  · next hlt => exact ⟨.inl, fun h => h.resolve_right fun hj => absurd hj.1 (Nat.ne_of_lt hlt)⟩
  · next hge =>
    rw [List.getElem?_eq_none (Nat.le_of_not_lt hge), List.getElem?_singleton]
    simp only [reduceCtorEq, false_or, Nat.sub_eq_zero_iff_le, Option.ite_none_right_eq_some,
      Option.some.injEq]
    refine and_congr ?_ eq_comm
    omega

theorem call_registered {client : RpcClient} {id : UInt32} {j : Nat} {d : RpcCall} {q : Nat} :
    RpcRun.Registered ⟨client, s.calls ++ [⟨id, none, none⟩]⟩ j d q ↔ s.Registered j d q := by
  unfold RpcRun.Registered
  rw [concat_some]
  refine ⟨?_, fun h => ⟨.inl h.1, h.2⟩⟩
  rintro ⟨hd | ⟨-, rfl⟩, hq⟩
  · exact ⟨hd, hq⟩
  · cases hq

theorem register_registered (hc : s.calls[k]? = some c) (hnone : c.promise = none) {j : Nat}
    {d : RpcCall} {q : Nat} :
    (s.register k c).Registered j d q ↔
      (j = k ∧ d = { c with promise := some s.client.ctx.promises } ∧ q = s.client.ctx.promises) ∨
        s.Registered j d q := by
  unfold RpcRun.Registered
  show (s.calls.set k _)[j]? = some d ∧ _ ↔ _
  rw [getElem?_set_of hc]
  split
  · next hjk =>
    subst hjk
    rw [hc]
    refine ⟨?_, ?_⟩
    · rintro ⟨hd, hq⟩
      obtain rfl := Option.some.inj hd
      exact .inl ⟨rfl, rfl, (Option.some.inj hq).symm⟩
    · rintro (⟨-, rfl, rfl⟩ | ⟨hd, hq⟩)
      · exact ⟨rfl, rfl⟩
      · obtain rfl := Option.some.inj hd
        rw [hnone] at hq
        cases hq
  · next hjk => exact ⟨.inr, fun h => h.resolve_left fun h' => hjk h'.1.symm⟩

theorem respond_registered (hc : s.calls[k]? = some c) {j : Nat} {d : RpcCall} {q : Nat} :
    (s.respond k c outcome).Registered j d q ↔
      ∃ d', s.Registered j d' q ∧ d = if j = k then { d' with response := some outcome } else d' := by
  unfold RpcRun.Registered
  show (s.calls.set k _)[j]? = some d ∧ _ ↔ _
  rw [getElem?_set_of hc]
  by_cases hjk : j = k
  · subst hjk
    rw [if_pos rfl, hc]
    refine ⟨?_, ?_⟩
    · rintro ⟨hd, hq⟩
      obtain rfl := Option.some.inj hd
      exact ⟨c, ⟨rfl, hq⟩, (if_pos rfl).symm⟩
    · rintro ⟨d', ⟨hd', hq⟩, rfl⟩
      obtain rfl := Option.some.inj hd'
      rw [if_pos rfl]
      exact ⟨rfl, hq⟩
  · rw [if_neg (Ne.symm hjk)]
    simp only [if_neg hjk]
    exact ⟨fun h => ⟨d, h, rfl⟩, fun ⟨d', h, heq⟩ => heq ▸ h⟩

theorem outcome_resolve (ctx : JSContext) (p q : Nat) (v : JSValue) :
    (jsCall ctx (.resolve q) [v]).outcome p
      = (ctx.outcome p).or (if p = q then some (.resolved v) else none) := by
  unfold JSContext.outcome
  rw [settlementsOf_append (settlements_resolve ctx q v), List.head?_append]
  by_cases hpq : p = q
  · rw [if_pos hpq, hpq]
    simp
  · rw [if_neg hpq, List.filter_cons_of_neg (by simpa using Ne.symm hpq)]
    rfl

/-- A response resolves the promise of a call with its id, or changes nothing. -/
theorem respond_ctx (hI : RpcInv s) :
    ((outcome.success = true → s.client.handlers c.id = none) ∧
      (s.respond k c outcome).client = s.client) ∨
    ∃ j d q, outcome.success = true ∧ s.client.handlers c.id = some (.resolve q) ∧
      s.Registered j d q ∧ d.id = c.id ∧
      (s.respond k c outcome).client
        = { s.client with ctx := jsCall s.client.ctx (.resolve q) [outcome.result] } := by
  unfold RpcRun.respond
  rw [onmessage_spec]
  cases hs : outcome.success with
  | false => exact .inl ⟨nofun, rfl⟩
  | true =>
    cases hf : s.client.handlers c.id with
    | none => exact .inl ⟨fun _ => rfl, rfl⟩
    | some fn =>
      obtain ⟨j, d, q, hreg, hid, rfl⟩ := hI.handler c.id fn hf
      exact .inr ⟨j, d, q, rfl, rfl, hreg, hid, rfl⟩

/-! ## The invariant -/

theorem RpcInv.call (hI : RpcInv s) (msg : RpcMessage) :
    RpcInv ⟨s.client.makeId.1.sendMessage msg,
      s.calls ++ [⟨s.client.nextId, none, none⟩]⟩ where
  nextId := by
    show s.client.nextId + 1 = _
    rw [hI.nextId, List.length_append, List.length_singleton]
    exact (UInt32.ofNat_add ..).symm
  ids j d hd := by
    rcases concat_some.1 hd with hd | ⟨rfl, rfl⟩
    · exact hI.ids j d hd
    · exact hI.nextId
  fresh j d q h := hI.fresh j d q (call_registered.1 h)
  distinct i j d e q hd he := hI.distinct i j d e q (call_registered.1 hd) (call_registered.1 he)
  handler id fn h := by
    obtain ⟨j, d, q, hreg, hid, hfn⟩ := hI.handler id fn h
    exact ⟨j, d, q, call_registered.2 hreg, hid, hfn⟩
  stored j d q h := hI.stored j d q (call_registered.1 h)
  unsettled := hI.unsettled

theorem RpcInv.ids_set (hI : RpcInv s) (hc : s.calls[k]? = some c) {c' : RpcCall}
    (hid : c'.id = c.id) (j : Nat) (d : RpcCall) (hd : (s.calls.set k c')[j]? = some d) :
    d.id = UInt32.ofNat j := by
  rw [getElem?_set_of hc] at hd
  split at hd
  · next hkj =>
    obtain rfl := Option.some.inj hd
    exact hkj ▸ hid.trans (hI.ids k c hc)
  · exact hI.ids j d hd

theorem RpcInv.register (hI : RpcInv s) (hc : s.calls[k]? = some c) (hnone : c.promise = none) :
    RpcInv (s.register k c) where
  nextId := by
    rw [RpcRun.register, List.length_set]
    exact hI.nextId
  ids := hI.ids_set hc rfl
  fresh j d q h := by
    rcases (register_registered hc hnone).1 h with ⟨-, -, rfl⟩ | h
    · exact Nat.lt_succ_self _
    · exact Nat.lt_succ_of_lt (hI.fresh j d q h)
  distinct i j d e q hd he := by
    rcases (register_registered hc hnone).1 hd with ⟨rfl, -, rfl⟩ | hd'
    · rcases (register_registered hc hnone).1 he with ⟨rfl, -, -⟩ | he'
      · rfl
      · exact absurd (hI.fresh j e _ he') (Nat.lt_irrefl _)
    · rcases (register_registered hc hnone).1 he with ⟨rfl, -, rfl⟩ | he'
      · exact absurd (hI.fresh i d _ hd') (Nat.lt_irrefl _)
      · exact hI.distinct i j d e q hd' he'
  handler id fn h := by
    by_cases hid : id = c.id
    · subst hid
      have hfn : some (JSValue.resolve s.client.ctx.promises) = some fn :=
        (Function.update_self c.id _ s.client.handlers).symm.trans h
      exact ⟨k, _, _, (register_registered hc hnone).2 (.inl ⟨rfl, rfl, rfl⟩), rfl,
        (Option.some.inj hfn).symm⟩
    · obtain ⟨j, d, q, hreg, hd, hfn⟩ := hI.handler id fn
        ((Function.update_of_ne hid _ s.client.handlers).symm.trans h)
      exact ⟨j, d, q, (register_registered hc hnone).2 (.inr hreg), hd, hfn⟩
  stored j d q h := by
    show ∃ fn, Function.update s.client.handlers c.id _ d.id = some fn
    by_cases hid : d.id = c.id
    · rw [hid]
      exact ⟨_, Function.update_self ..⟩
    · rw [Function.update_of_ne hid]
      rcases (register_registered hc hnone).1 h with ⟨-, rfl, -⟩ | h
      · exact absurd rfl hid
      · exact hI.stored j d q h
  unsettled q hq := hI.unsettled q (Nat.le_of_succ_le hq)

theorem RpcInv.respond (hI : RpcInv s) (hc : s.calls[k]? = some c) (outcome : RpcOutcome) :
    RpcInv (s.respond k c outcome) := by
  have hclient : (s.respond k c outcome).client.nextId = s.client.nextId ∧
      (s.respond k c outcome).client.handlers = s.client.handlers ∧
      (s.respond k c outcome).client.ctx.promises = s.client.ctx.promises := by
    rcases respond_ctx hI with ⟨-, h⟩ | ⟨j, d, q, -, -, -, -, h⟩ <;> rw [h] <;> exact ⟨rfl, rfl, rfl⟩
  obtain ⟨hnextId, hhandlers, hpromises⟩ := hclient
  constructor
  case nextId =>
    rw [hnextId, hI.nextId, RpcRun.respond, List.length_set]
  case ids => exact hI.ids_set hc rfl
  case fresh =>
    intro j d q h
    obtain ⟨d', h, -⟩ := (respond_registered hc).1 h
    exact hpromises ▸ hI.fresh j d' q h
  case distinct =>
    intro i j d e q hd he
    obtain ⟨d', hd, -⟩ := (respond_registered hc).1 hd
    obtain ⟨e', he, -⟩ := (respond_registered hc).1 he
    exact hI.distinct i j d' e' q hd he
  case handler =>
    intro id fn h
    obtain ⟨j, d, q, hreg, hid, hfn⟩ := hI.handler id fn (hhandlers ▸ h)
    refine ⟨j, _, q, (respond_registered hc).2 ⟨d, hreg, rfl⟩, ?_, hfn⟩
    split <;> exact hid
  case stored =>
    intro j d q h
    obtain ⟨d', h', rfl⟩ := (respond_registered hc).1 h
    obtain ⟨fn, hfn⟩ := hI.stored j d' q h'
    refine ⟨fn, ?_⟩
    rw [hhandlers, ← hfn]
    split <;> rfl
  case unsettled =>
    intro p hp
    rw [hpromises] at hp
    rcases respond_ctx hI with ⟨-, h⟩ | ⟨j, d, q, -, -, hreg, -, h⟩ <;> rw [h]
    · exact hI.unsettled p hp
    · have hne : p ≠ q := Nat.ne_of_gt (Nat.lt_of_lt_of_le (hI.fresh j d q hreg) hp)
      rw [outcome_resolve, hI.unsettled p hp, if_neg hne]
      rfl

theorem rpcStep_inv (s : RpcRun) (e : RpcEvent) (s' : RpcRun) (hI : RpcInv s)
    (hstep : rpcStep s e = some s') : RpcInv s' := by
  cases e with
  | call method params =>
    obtain rfl := Option.some.inj hstep
    exact hI.call _
  | sent k =>
    obtain ⟨c, hc, hnone, rfl⟩ := rpcStep_sent hstep
    exact hI.register hc hnone
  | response k outcome =>
    obtain ⟨c, hc, -, rfl⟩ := rpcStep_response hstep
    exact hI.respond hc outcome

/-- Until the ids come round, every call finds its own handler. -/
theorem RpcInv.own_handler (hI : RpcInv s) (hlen : s.calls.length ≤ UInt32.size)
    (h : s.Registered k c p) : s.client.handlers c.id = some (.resolve p) := by
  obtain ⟨fn, hfn⟩ := hI.stored k c p h
  obtain ⟨j, d, q, hreg, hid, rfl⟩ := hI.handler c.id fn hfn
  have hk : k < s.calls.length := (List.getElem?_eq_some_iff.1 h.1).1
  have hj : j < s.calls.length := (List.getElem?_eq_some_iff.1 hreg.1).1
  rw [hI.ids j d hreg.1, hI.ids k c h.1] at hid
  have hjk : j = k := by
    have hnat := congrArg UInt32.toNat hid
    rwa [UInt32.toNat_ofNat_of_lt' (Nat.lt_of_lt_of_le hj hlen),
      UInt32.toNat_ofNat_of_lt' (Nat.lt_of_lt_of_le hk hlen)] at hnat
  subst hjk
  obtain rfl := Option.some.inj (h.1.symm.trans hreg.1)
  obtain rfl := Option.some.inj (h.2.symm.trans hreg.2)
  exact hfn

/-! ## Which responses settle their calls -/

/-- Before its response a call is not settled, and with one it is. -/
theorem settledBy_none_iff {settled : Option Settlement} {response : Option RpcOutcome}
    (h : SettledBy settled response) : settled = none ↔ response = none := by
  cases response with
  | none => exact iff_of_true h rfl
  | some outcome =>
    refine iff_of_false ?_ (Option.some_ne_none _)
    rintro rfl
    simp [SettledBy] at h

/-- The continuation makes a promise that nothing has settled. -/
theorem register_correlated_iff (hI : RpcInv s) (hP : Correlated s) (hc : s.calls[k]? = some c)
    (hnone : c.promise = none) : Correlated (s.register k c) ↔ c.response = none := by
  have hnew : s.client.ctx.outcome s.client.ctx.promises = none := hI.unsettled _ (Nat.le_refl _)
  refine ⟨?_, ?_⟩
  · intro h
    have hk := h k _ _ ((register_registered hc hnone).2 (.inl ⟨rfl, rfl, rfl⟩))
    exact (settledBy_none_iff hk).1 hnew
  · intro hresponse j d q hreg
    rcases (register_registered hc hnone).1 hreg with ⟨rfl, rfl, rfl⟩ | hreg
    · show SettledBy (s.client.ctx.outcome _) c.response
      rw [hresponse]
      exact hnew
    · exact hP j d q hreg

/-- What a response does to the calls: its own is to be settled by it, the others as before. -/
theorem respond_correlated_iff (hc : s.calls[k]? = some c) :
    Correlated (s.respond k c outcome) ↔
      (∀ p, c.promise = some p →
        SettledBy ((s.respond k c outcome).client.ctx.outcome p) (some outcome)) ∧
      ∀ j d q, j ≠ k → s.Registered j d q →
        SettledBy ((s.respond k c outcome).client.ctx.outcome q) d.response := by
  refine ⟨?_, ?_⟩
  · intro h
    refine ⟨?_, ?_⟩
    · intro p hp
      exact h k _ p ((respond_registered hc).2 ⟨c, ⟨hc, hp⟩, (if_pos rfl).symm⟩)
    · intro j d q hjk hreg
      exact h j d q ((respond_registered hc).2 ⟨d, hreg, (if_neg hjk).symm⟩)
  · rintro ⟨hown, hothers⟩ j d q hreg
    obtain ⟨d', hreg', rfl⟩ := (respond_registered hc).1 hreg
    by_cases hjk : j = k
    · subst hjk
      obtain rfl := Option.some.inj (hc.symm.trans hreg'.1)
      rw [if_pos rfl]
      exact hown q hreg'.2
    · rw [if_neg hjk]
      exact hothers j d' q hjk hreg'

/-- A response to a call whose continuation has run. -/
theorem respond_registered_iff (hI : RpcInv s) (hP : Correlated s) (hreg : s.Registered k c p)
    (hnone : c.response = none) :
    Correlated (s.respond k c outcome) ↔
      outcome.success = true ∧ s.client.handlers c.id = some (.resolve p) := by
  have hown : s.client.ctx.outcome p = none := (settledBy_none_iff (hP k c p hreg)).2 hnone
  rw [respond_correlated_iff hreg.1]
  rcases respond_ctx hI with ⟨hhandler, hclient⟩ | ⟨j, d, q, hsuccess, hhandler, hregd, -, hclient⟩ <;>
    rw [hclient]
  · refine iff_of_false ?_ ?_
    · intro h
      exact absurd ((settledBy_none_iff (h.1 p hreg.2)).1 hown) (Option.some_ne_none _)
    · intro h
      exact absurd ((hhandler h.1).symm.trans h.2) nofun
  · rw [and_iff_right hsuccess, hhandler]
    refine ⟨?_, ?_⟩
    · intro h
      by_contra hne
      have hpq : p ≠ q := fun heq => hne (heq ▸ rfl)
      have hstill : (jsCall s.client.ctx (.resolve q) [outcome.result]).outcome p = none := by
        rw [outcome_resolve, hown, if_neg hpq]
        rfl
      exact absurd ((settledBy_none_iff (h.1 p hreg.2)).1 hstill) (Option.some_ne_none _)
    · intro heq
      obtain rfl : q = p := JSValue.resolve.inj (Option.some.inj heq)
      refine ⟨?_, ?_⟩
      · intro p' hp'
        obtain rfl := Option.some.inj (hp'.symm.trans hreg.2)
        simp [SettledBy, outcome_resolve, hown, hsuccess]
      · intro i e r hik hrege
        have hne : r ≠ q := fun heq' => hik (hI.distinct i k e c q (heq' ▸ hrege) hreg)
        show SettledBy ((jsCall s.client.ctx (.resolve q) [outcome.result]).outcome r) e.response
        rw [outcome_resolve, if_neg hne, Option.or_none]
        exact hP i e r hrege

/-- A response to a call whose continuation has not run. -/
theorem respond_early_iff (hI : RpcInv s) (hP : Correlated s) (hc : s.calls[k]? = some c)
    (hnone : c.promise = none) :
    Correlated (s.respond k c outcome) ↔
      (outcome.success = true → ∀ p, s.client.handlers c.id = some (.resolve p) →
        s.client.ctx.outcome p ≠ none) := by
  have hvacuous : ∀ ctx : JSContext, ∀ p, c.promise = some p →
      SettledBy (ctx.outcome p) (some outcome) := fun _ p hp => nomatch hnone.symm.trans hp
  rw [respond_correlated_iff hc, and_iff_right (hvacuous _)]
  rcases respond_ctx hI with ⟨hhandler, hclient⟩ | ⟨j, d, q, hsuccess, hhandler, hregd, -, hclient⟩ <;>
    rw [hclient]
  · refine iff_of_true (fun j d q _ hreg => hP j d q hreg) ?_
    intro hsuccess p hp
    exact nomatch (hhandler hsuccess).symm.trans hp
  · have hjk : j ≠ k := by
      rintro rfl
      obtain rfl := Option.some.inj (hc.symm.trans hregd.1)
      exact nomatch hnone.symm.trans hregd.2
    refine ⟨?_, ?_⟩
    · intro h _ p hp hunsettled
      obtain rfl : q = p := JSValue.resolve.inj (Option.some.inj (hhandler.symm.trans hp))
      have hresponse : d.response = none := (settledBy_none_iff (hP j d q hregd)).1 hunsettled
      have hsettled := (settledBy_none_iff (h j d q hjk hregd)).2 hresponse
      rw [outcome_resolve, hunsettled, if_pos rfl] at hsettled
      cases hsettled
    · intro h i e r _ hrege
      -- a promise that is settled stays as it is
      have hsame : (jsCall s.client.ctx (.resolve q) [outcome.result]).outcome r
          = s.client.ctx.outcome r := by
        rw [outcome_resolve]
        split
        · next heq =>
          obtain ⟨x, hx⟩ := Option.ne_none_iff_exists'.1 (heq ▸ h hsuccess q hhandler)
          rw [hx]
          rfl
        · exact Option.or_none
      show SettledBy ((jsCall s.client.ctx (.resolve q) [outcome.result]).outcome r) e.response
      rw [hsame]
      exact hP i e r hrege

theorem rpcStep_correlated_iff (s : RpcRun) (e : RpcEvent) (s' : RpcRun) (hI : RpcInv s)
    (hP : Correlated s) (hstep : rpcStep s e = some s') : Correlated s' ↔ InStep s e := by
  cases e with
  | call method params =>
    obtain rfl := Option.some.inj hstep
    exact iff_of_true (fun k c p h => hP k c p (call_registered.1 h)) trivial
  | sent k =>
    obtain ⟨c, hc, hnone, rfl⟩ := rpcStep_sent hstep
    rw [register_correlated_iff hI hP hc hnone]
    refine ⟨?_, fun h => h c hc⟩
    intro h c' hc'
    obtain rfl := Option.some.inj (hc.symm.trans hc')
    exact h
  | response k outcome =>
    obtain ⟨c, hc, hnone, rfl⟩ := rpcStep_response hstep
    have hcall : InStep s (.response k outcome) ↔ (match c.promise with
        | some p => outcome.success = true ∧ s.client.handlers c.id = some (.resolve p)
        | none => outcome.success = true → ∀ p, s.client.handlers c.id = some (.resolve p) →
            s.client.ctx.outcome p ≠ none) := by
      refine ⟨fun h => h c hc, ?_⟩
      intro h c' hc'
      obtain rfl := Option.some.inj (hc.symm.trans hc')
      exact h
    rw [hcall]
    cases hp : c.promise with
    | some p => exact respond_registered_iff hI hP ⟨hc, hp⟩ hnone
    | none => exact respond_early_iff hI hP hc hp

/-- **When calls settle by their own responses.** In every state of a run each call whose
continuation has run is settled by its own response, as soon as that is there, exactly when every
continuation runs before its response comes, every response reports success and finds the handler of
its call, and none that is early finds that of another. -/
theorem rpc_correlates_iff (events : List RpcEvent) :
    PartialRun.Throughout rpcStep Correlated .new events ↔
      PartialRun.Meets rpcStep InStep .new events :=
  PartialRun.throughout_iff_meets rpcStep_inv rpcStep_correlated_iff events rpcInv_new nofun

/-- A failure that is reported leaves its call pending. -/
theorem rpc_failure_unsettled :
    ∃ s, PartialRun.run rpcStep .new [.call [108] [], .sent 0, .response 0 ⟨false, .undefined⟩]
        = some s ∧
      s.calls = [⟨0, some 0, some ⟨false, .undefined⟩⟩] ∧ s.client.ctx.settlements = [] ∧
      ¬ Correlated s := by
  refine ⟨_, rfl, rfl, rfl, ?_⟩
  intro h
  obtain ⟨error, herror⟩ := h 0 _ 0 ⟨rfl, rfl⟩
  cases herror

end QjsNet
