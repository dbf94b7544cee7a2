import QjsNet.Rpc
import QjsNet.RpcServer

/- An RPC client and an RPC server with the connection between them (`rpc.js`).

   The client numbers its calls and keeps what settles each one. The server takes the
   messages in the order they were sent; the endpoint and the program's objects have changed
   when a method returns, but `processMessage` is asynchronous and its replies are sent in any
   order. A call's continuation runs in any order with them. `rpc_local` says that all this
   cannot be told from calling the endpoint in place, and `rpc_complete` when every call gets
   its result.

   The program's objects have a state, which a constructor, a setter and a method change before
   they return (`RpcProgram`); reading a property changes nothing, and what a method returns is
   a value of its own. The codec and the socket between are a parameter (`RpcWire`); both keep
   the order of messages. What the server is asked for are its commands.

   Correspondence (JavaScript ↔ Lean):
     `RPCClient.call`                      ↔ `SystemEvent.call`, `SystemEvent.sent`
     `Connection.onmessage` of the server  ↔ `RpcService.onmessage`, `SystemEvent.take`
     `new classes[name](...args)`, `obj[property] = value`, `obj[method](...params)`
       ↔ `RpcProgram.construct`, `RpcProgram.setMember`, `RpcProgram.callMember`
     `response.then(r => this.sendMessage(r))` ↔ `SystemEvent.reply`
     `Connection.onmessage` of the client  ↔ `SystemEvent.deliver` -/
namespace QjsNet

/-- The program behind the endpoint: what its calls come to in a state of its objects, and the state
that those leave which change it. -/
structure RpcProgram where
  State : Type
  host : State → RpcHost
  construct : State → RpcValue → List RpcValue → State
  setMember : State → Nat → RpcValue → RpcValue → State
  callMember : State → Nat → RpcValue → List RpcValue → State
  callInherited : State → String → List RpcValue → State

/-- The endpoint and the objects of the program. -/
structure RpcService (prog : RpcProgram) where
  endpoint : FactoryEndpoint
  objects : prog.State

section
variable {prog : RpcProgram} (srv : RpcService prog) (args : List RpcValue)

def RpcService.host : RpcHost := prog.host srv.objects

/-- What a command that needs an object leaves. -/
def RpcService.instanceLeaves (fn : Nat → List RpcValue → prog.State) : prog.State :=
  match srv.host.propertyKey (arg args 0) with
  | .ok key =>
    match srv.endpoint.find srv.host key with
    | some obj => fn obj args.tail
    | none => srv.objects
  | .error _ => srv.objects

def RpcService.invokeLeaves (obj : Nat) (args : List RpcValue) : prog.State :=
  match srv.host.hasMember obj (arg args 0), srv.host.getMember obj (arg args 0),
      srv.host.spread (listArg args 1) with
  | .ok true, .ok method, .ok params =>
    if method.isFunction then prog.callMember srv.objects obj (arg args 0) params else srv.objects
  | _, _, _ => srv.objects

/-- What a command leaves of the objects; the others only read them. -/
def RpcService.commandLeaves : Command → prog.State
  | .new =>
    match srv.host.spread (listArg args 1) with
    | .ok params => prog.construct srv.objects (arg args 0) params
    | .error _ => srv.objects
  | .invoke => srv.instanceLeaves args srv.invokeLeaves
  | .set => srv.instanceLeaves args fun obj args =>
      prog.setMember srv.objects obj (arg args 0) (arg args 1)
  | .list | .delete | .describe _ | .get => srv.objects

/-- What a message with a method leaves. -/
def RpcService.callLeaves (method params : RpcValue) : prog.State :=
  match srv.host.propertyKey method, spreadParams srv.host params with
  | .ok key, .ok args =>
    match Command.named key with
    | some cmd => srv.commandLeaves args cmd
    | none =>
      if (srv.host.inheritedMethod key).isSome then prog.callInherited srv.objects key args
      else srv.objects
  | _, _ => srv.objects

def RpcService.leaves (codec : RpcCodec) (msg : RpcValue) : prog.State :=
  match (incoming srv.host codec msg).bind RpcValue.props with
  | none => srv.objects
  | some props =>
    match own props "method" with
    | none => srv.objects
    | some method => srv.callLeaves method (readOwn props "params")

/-- The server afterwards, and what is sent. -/
def RpcService.onmessage (codec : RpcCodec) (msg : RpcValue) : RpcService prog × List RpcProps :=
  let (endpoint, sent) := QjsNet.onmessage srv.host srv.endpoint codec msg
  (⟨endpoint, srv.leaves codec msg⟩, sent)

end

/-- What the server's `onmessage` is called with for a message of the client, and what the client's
codec makes of a reply. Of both, the id is what it was. -/
structure RpcWire (prog : RpcProgram) (codec : RpcCodec) where
  encode : RpcMessage → RpcValue
  decode : RpcProps → RpcResponse
  methodName : Bytes → String
  message : ∀ objects msg, ∃ props,
    incoming (prog.host objects) codec (encode msg) = some (.object props) ∧
    own props "method" = some (.string (methodName msg.method)) ∧
    own props "id" = some (.number (instanceKey msg.id))
  reply : ∀ props id, own props "id" = some (.number (instanceKey id)) →
    (decode props).id = some id

/-- A reply, and the number of the call that it answers. -/
structure RpcReply where
  call : Nat
  props : RpcProps

/-- The client with its calls, how many of its messages were taken, the server, and the replies
that are to be sent and those on their way. -/
structure RpcSystem (prog : RpcProgram) where
  run : RpcRun
  taken : Nat
  service : RpcService prog
  working : List RpcReply
  replies : List RpcReply

/-- A new endpoint. -/
def RpcService.new {prog : RpcProgram} (objects : prog.State) : RpcService prog :=
  ⟨⟨0, fun _ => none⟩, objects⟩

def RpcSystem.new {prog : RpcProgram} (objects : prog.State) : RpcSystem prog :=
  ⟨.new, 0, .new objects, [], []⟩

inductive SystemEvent where
  | call (method : Bytes) (params : List JSValue)
  | sent (k : Nat)
  | take
  /-- The promise of the reply at place `i` has resolved. -/
  | reply (i : Nat)
  | deliver
  deriving DecidableEq, Repr

variable {prog : RpcProgram} {codec : RpcCodec} (wire : RpcWire prog codec)

def systemStep (s : RpcSystem prog) : SystemEvent → Option (RpcSystem prog)
  | .call method params => (rpcStep s.run (.call method params)).map fun run => { s with run }
  | .sent k => (rpcStep s.run (.sent k)).map fun run => { s with run }
  | .take =>
    (s.run.client.sent[s.taken]?).map fun msg =>
      let r := s.service.onmessage codec (wire.encode msg)
      { s with
        service := r.1, taken := s.taken + 1, working := s.working ++ r.2.map (⟨s.taken, ·⟩) }
  | .reply i =>
    (s.working[i]?).map fun r =>
      { s with working := s.working.eraseIdx i, replies := s.replies ++ [r] }
  | .deliver =>
    match s.replies with
    | [] => none
    | r :: replies =>
      (s.run.calls[r.call]?).map fun c =>
        let msg := wire.decode r.props
        let call : RpcCall := { c with response := some ⟨msg.success, msg.result⟩ }
        { s with replies, run := ⟨s.run.client.onmessage msg, s.run.calls.set r.call call⟩ }

def systemRun (s : RpcSystem prog) (es : List SystemEvent) : Option (RpcSystem prog) :=
  PartialRun.run (systemStep wire) s es

/-- The server called in place, with one message after the other: what is left of it, and what it
answers. -/
def served (srv : RpcService prog) : List RpcMessage → RpcService prog × List (List RpcProps)
  | [] => (srv, [])
  | msg :: msgs =>
    let r := srv.onmessage codec (wire.encode msg)
    let rest := served r.1 msgs
    (rest.1, r.2 :: rest.2)

/-- The answers to the calls of the client, made in place. -/
def localAnswers (objects : prog.State) (run : RpcRun) : List (List RpcProps) :=
  (served wire (.new objects) run.client.sent).2

/-- The method is one of the commands. -/
def IsCommand (method : Bytes) : Prop := (Command.named (wire.methodName method)).isSome

/-- Every call asks for a command. -/
def CommandsOnly (es : List SystemEvent) : Prop :=
  ∀ method params, .call method params ∈ es → IsCommand wire method

/-- What a reply says. -/
def RpcResponse.outcome (msg : RpcResponse) : RpcOutcome := ⟨msg.success, msg.result⟩

variable {wire} {s t : RpcSystem prog} {objects : prog.State} {msg : RpcMessage} {msgs : List RpcMessage} {k : Nat}
  {props : RpcProps} {id : RpcValue}

/-! ## A reply has the id of its message -/

/-- Nothing that a command responds with hides the id. -/
theorem caught_id {o : Outcome} {ret : RpcProps} (h : caught o.completion = some ret) :
    own (spreadInto [("id", id)] ret) "id" = some id := by
  cases o with
  | success value =>
    rw [Outcome.completion, respond_success] at h
    cases h
    split <;> rfl
  | failure e =>
    cases h
    unfold respond
    split <;> rfl
  | exception e =>
    rw [Outcome.completion, caught] at h
    split at h
    · cases h
    · cases h
      rfl
  | pending => cases h

/-- What is sent for what a method came to. -/
theorem sendMessage_mem {r : Option RpcProps} (h : props ∈ r.elim [] (sendMessage codec)) :
    r = some props := by
  cases r with
  | none => cases h
  | some reply =>
    rw [Option.elim_some, sendMessage] at h
    split at h
    · rw [List.mem_singleton.1 h]
    · cases h

theorem sendMessage_length (r : Option RpcProps) : (r.elim [] (sendMessage codec)).length ≤ 1 := by
  cases r with
  | none => exact Nat.zero_le 1
  | some reply =>
    rw [Option.elim_some, sendMessage]
    split
    · exact Nat.le_refl 1
    · exact Nat.zero_le 1

/-- A command is answered at most once, and with the id of its message. -/
theorem onmessage_answer (srv : RpcService prog) (hcmd : IsCommand wire msg.method) :
    (srv.onmessage codec (wire.encode msg)).2 = [] ∨
      ∃ props, (srv.onmessage codec (wire.encode msg)).2 = [props] ∧
        own props "id" = some (.number (instanceKey msg.id)) := by
  obtain ⟨data, hdata, hmethod, hid⟩ := wire.message srv.objects msg
  have hserver : (srv.onmessage codec (wire.encode msg)).2 =
      (onmessage (prog.host srv.objects) srv.endpoint codec (wire.encode msg)).2 := rfl
  rw [hserver]
  generalize prog.host srv.objects = host at hdata
  obtain ⟨cmd, hcmd⟩ := Option.isSome_iff_exists.1 hcmd
  have hmethod' : readOwn data "method" = .string (wire.methodName msg.method) := by
    rw [readOwn, hmethod, Option.getD_some]
  have hid' : readOwn data "id" = .number (instanceKey msg.id) := by
    rw [readOwn, hid, Option.getD_some]
  rw [onmessage_sent hdata, processMessage_call hmethod, hmethod', hid']
  have hkey : host.propertyKey (.string (wire.methodName msg.method)) =
      .ok (wire.methodName msg.method) := by
    rw [RpcHost.propertyKey]
  cases hsent : ((processCall host srv.endpoint (.string (wire.methodName msg.method))
      (.number (instanceKey msg.id)) (readOwn data "params")).2.elim [] (sendMessage codec)) with
  | nil => exact Or.inl rfl
  | cons props rest =>
    have hlen := @sendMessage_length codec (processCall host srv.endpoint
      (.string (wire.methodName msg.method)) (.number (instanceKey msg.id))
      (readOwn data "params")).2
    rw [hsent, List.length_cons] at hlen
    have hrest : rest = [] := List.length_eq_zero_iff.1 (by omega)
    subst hrest
    refine Or.inr ⟨props, rfl, ?_⟩
    have hreply := @sendMessage_mem codec _ _ (hsent ▸ List.mem_singleton_self props)
    simp only [processCall, hkey] at hreply
    cases hargs : spreadParams host (readOwn data "params") with
    | error e =>
      rw [hargs] at hreply
      obtain ⟨ret, hret, rfl⟩ := Option.map_eq_some_iff.1 hreply
      exact caught_id (o := .exception e) hret
    | ok args =>
      rw [hargs] at hreply
      simp only [callMethod_command hcmd] at hreply
      obtain ⟨ret, hret, rfl⟩ := Option.map_eq_some_iff.1 hreply
      rw [call_eq] at hret
      exact caught_id hret

/-! ## The answers made in place -/

theorem served_append (srv : RpcService prog) (msgs : List RpcMessage) (msg : RpcMessage) :
    served wire srv (msgs ++ [msg]) =
      let done := served wire srv msgs
      let r := done.1.onmessage codec (wire.encode msg)
      (r.1, done.2 ++ [r.2]) := by
  induction msgs generalizing srv with
  | nil => rfl
  | cons m msgs ih =>
    simp only [List.cons_append, served, ih]

theorem served_length (srv : RpcService prog) :
    (served wire srv msgs).2.length = msgs.length := by
  induction msgs generalizing srv with
  | nil => rfl
  | cons m msgs ih =>
    rw [served, List.length_cons, List.length_cons]
    exact congrArg (· + 1) (ih _)

/-- The answers to the first messages do not depend on the others. -/
theorem served_take (srv : RpcService prog) (n : Nat) :
    (served wire srv (msgs.take n)).2 = (served wire srv msgs).2.take n := by
  induction msgs generalizing srv n with
  | nil => rw [List.take_nil, served, List.take_nil]
  | cons m msgs ih =>
    cases n with
    | zero => rfl
    | succ n =>
      rw [List.take_succ_cons, served, served, List.take_succ_cons]
      exact congrArg (_ :: ·) (ih _ n)

/-- Every answer has the id of its message. -/
theorem served_id (hcmd : ∀ m ∈ msgs, IsCommand wire m.method) (srv : RpcService prog)
    (h : (served wire srv msgs).2[k]? = some [props]) :
    ∃ m, msgs[k]? = some m ∧ own props "id" = some (.number (instanceKey m.id)) := by
  induction msgs generalizing srv k with
  | nil => cases h
  | cons m msgs ih =>
    cases k with
    | zero =>
      refine ⟨m, rfl, ?_⟩
      have hanswer : (srv.onmessage codec (wire.encode m)).2 = [props] := by
        simpa [served] using h
      rcases onmessage_answer srv (hcmd m List.mem_cons_self) with hnil | ⟨props', hsent, hid⟩
      · rw [hanswer] at hnil
        cases hnil
      · rw [hanswer] at hsent
        cases hsent
        exact hid
    | succ k =>
      have hrest : (served wire (srv.onmessage codec (wire.encode m)).1 msgs).2[k]? =
          some [props] := by simpa [served] using h
      obtain ⟨m', hm', hid⟩ := ih (fun m' hm' => hcmd m' (List.mem_cons_of_mem m hm')) _ hrest
      exact ⟨m', by simpa using hm', hid⟩

/-! ## The replies that are on their way -/

/-- `answers` are the answers to the messages that were taken. A reply is the one answer to its
call, and is outstanding until it is the call's response. -/
structure Accounts (decode : RpcProps → RpcResponse) (answers : List (List RpcProps))
    (outstanding : List RpcReply) (calls : List RpcCall) : Prop where
  nodup : (outstanding.map RpcReply.call).Nodup
  pending : ∀ r ∈ outstanding, answers[r.call]? = some [r.props] ∧
    ∀ c : RpcCall, calls[r.call]? = some c → c.response = none
  received : ∀ (k : Nat) (c : RpcCall) o, calls[k]? = some c → c.response = some o →
    ∃ props, answers[k]? = some [props] ∧ o = (decode props).outcome
  known : ∀ (k : Nat) props, answers[k]? = some [props] → ⟨k, props⟩ ∈ outstanding ∨
    ∃ c : RpcCall, calls[k]? = some c ∧ c.response = some (decode props).outcome

variable {c c' : RpcCall} {r : RpcReply}

section
variable {decode : RpcProps → RpcResponse} {answers : List (List RpcProps)}
  {outstanding outstanding' : List RpcReply} {calls : List RpcCall} {sent : List RpcProps}

/-- The order of the replies that have not arrived makes no difference. -/
theorem Accounts.perm (h : Accounts decode answers outstanding calls)
    (hperm : outstanding'.Perm outstanding) : Accounts decode answers outstanding' calls := by
  refine ⟨(hperm.map RpcReply.call).nodup_iff.2 h.nodup, ?_, h.received, ?_⟩
  · intro r hr
    exact h.pending r (hperm.mem_iff.1 hr)
  · intro k props hanswer
    rcases h.known k props hanswer with hr | hc
    · exact Or.inl (hperm.mem_iff.2 hr)
    · exact Or.inr hc

theorem Accounts.call (h : Accounts decode answers outstanding calls) (hnew : c.response = none) :
    Accounts decode answers outstanding (calls ++ [c]) := by
  refine ⟨h.nodup, ?_, ?_, ?_⟩
  · intro r hr
    obtain ⟨hanswer, hnone⟩ := h.pending r hr
    refine ⟨hanswer, ?_⟩
    intro d hd
    rcases concat_some.1 hd with hd | ⟨-, rfl⟩
    · exact hnone d hd
    · exact hnew
  · intro k d o hd ho
    rcases concat_some.1 hd with hd | ⟨-, rfl⟩
    · exact h.received k d o hd ho
    · rw [hnew] at ho
      cases ho
  · intro k props hanswer
    rcases h.known k props hanswer with hr | ⟨d, hd, ho⟩
    · exact Or.inl hr
    · exact Or.inr ⟨d, concat_some.2 (Or.inl hd), ho⟩

/-- Only the response of a call counts. -/
theorem Accounts.set (h : Accounts decode answers outstanding calls) (hc : calls[k]? = some c)
    (hsame : c'.response = c.response) :
    Accounts decode answers outstanding (calls.set k c') := by
  have hback : ∀ (j : Nat) (d : RpcCall), (calls.set k c')[j]? = some d →
      ∃ d' : RpcCall, calls[j]? = some d' ∧ d'.response = d.response := by
    intro j d hd
    rw [getElem?_set_of hc] at hd
    split at hd
    · next hkj =>
      cases hd
      exact ⟨c, hkj ▸ hc, hsame.symm⟩
    · exact ⟨d, hd, rfl⟩
  refine ⟨h.nodup, ?_, ?_, ?_⟩
  · intro r hr
    obtain ⟨hanswer, hnone⟩ := h.pending r hr
    refine ⟨hanswer, ?_⟩
    intro d hd
    obtain ⟨d', hd', ho⟩ := hback r.call d hd
    exact ho ▸ hnone d' hd'
  · intro j d o hd ho
    obtain ⟨d', hd', ho'⟩ := hback j d hd
    exact h.received j d' o hd' (ho'.trans ho)
  · intro j props hanswer
    rcases h.known j props hanswer with hr | ⟨d, hd, ho⟩
    · exact Or.inl hr
    · refine Or.inr ?_
      by_cases hkj : k = j
      · subst hkj
        obtain rfl := Option.some.inj (hc.symm.trans hd)
        exact ⟨c', (getElem?_set_of hc _ k).trans (if_pos rfl), hsame.trans ho⟩
      · exact ⟨d, (getElem?_set_of hc _ j).trans ((if_neg hkj).trans hd), ho⟩

/-- The answer to one more message, which is a reply to be sent or none. -/
theorem Accounts.answer (h : Accounts decode answers outstanding calls)
    (hone : sent = [] ∨ ∃ props, sent = [props]) :
    Accounts decode (answers ++ [sent])
      (sent.map (RpcReply.mk answers.length) ++ outstanding) calls := by
  have hkeep : ∀ (k : Nat) x,
      answers[k]? = some x → (answers ++ [sent])[k]? = some x := by
    intro k x hx
    rw [List.getElem?_append_left (List.getElem?_eq_some_iff.1 hx).1]
    exact hx
  have hnew : ∀ q ∈ sent.map (RpcReply.mk answers.length),
      sent = [q.props] ∧ q.call = answers.length := by
    intro q hq
    obtain ⟨props, hprops, rfl⟩ := List.mem_map.1 hq
    rcases hone with hnil | ⟨props', hone⟩
    · rw [hnil] at hprops
      cases hprops
    · rw [hone] at hprops
      rw [List.mem_singleton.1 hprops]
      exact ⟨hone, rfl⟩
  refine ⟨?_, ?_, ?_, ?_⟩
  · rw [List.map_append]
    refine List.nodup_append.2 ⟨?_, h.nodup, ?_⟩
    · rcases hone with hnil | ⟨props, hone⟩
      · rw [hnil]
        exact List.nodup_nil
      · rw [hone]
        exact List.nodup_cons.2 ⟨List.not_mem_nil, List.nodup_nil⟩
    · intro a ha b hb
      obtain ⟨q, hq, rfl⟩ := List.mem_map.1 ha
      obtain ⟨q', hq', rfl⟩ := List.mem_map.1 hb
      have hlt : q'.call < answers.length := (List.getElem?_eq_some_iff.1 (h.pending q' hq').1).1
      rw [(hnew q hq).2]
      exact Nat.ne_of_gt hlt
  · intro q hq
    rcases List.mem_append.1 hq with hq | hq
    · obtain ⟨hone, hcall⟩ := hnew q hq
      rw [hcall, List.getElem?_concat_length, hone]
      refine ⟨rfl, ?_⟩
      intro d hd
      -- A call whose message was not taken has no response.
      cases ho : d.response with
      | none => rfl
      | some o =>
        obtain ⟨props, hprops, -⟩ := h.received _ d o hd ho
        exact absurd (List.getElem?_eq_some_iff.1 hprops).1 (Nat.lt_irrefl _)
    · exact ⟨hkeep _ _ (h.pending q hq).1, (h.pending q hq).2⟩
  · intro k d o hd ho
    obtain ⟨props, hprops, heq⟩ := h.received k d o hd ho
    exact ⟨props, hkeep _ _ hprops, heq⟩
  · intro k props hanswer
    by_cases hk : k = answers.length
    · rw [hk, List.getElem?_concat_length, Option.some.injEq] at hanswer
      refine Or.inl (List.mem_append_left _ ?_)
      rw [hanswer, hk]
      exact List.mem_singleton_self _
    · have hlt := (List.getElem?_eq_some_iff.1 hanswer).1
      rw [List.length_append, List.length_singleton] at hlt
      rw [List.getElem?_append_left (by omega)] at hanswer
      rcases h.known k props hanswer with hr | hc
      · exact Or.inl (List.mem_append_right _ hr)
      · exact Or.inr hc

/-- A reply arrives, and is the response to its call. -/
theorem Accounts.deliver (h : Accounts decode answers (r :: outstanding) calls)
    (hc : calls[r.call]? = some c) (hresponse : c'.response = some (decode r.props).outcome) :
    Accounts decode answers outstanding (calls.set r.call c') := by
  obtain ⟨hnot, hnodup⟩ := List.nodup_cons.1 h.nodup
  obtain ⟨hanswer, -⟩ := h.pending r List.mem_cons_self
  have hcalls := getElem?_set_of hc c'
  refine ⟨hnodup, ?_, ?_, ?_⟩
  · intro q hq
    obtain ⟨hanswer', hnone⟩ := h.pending q (List.mem_cons_of_mem r hq)
    refine ⟨hanswer', ?_⟩
    intro d hd
    have hne : r.call ≠ q.call := by
      intro heq
      exact hnot (heq ▸ List.mem_map_of_mem hq)
    rw [hcalls, if_neg hne] at hd
    exact hnone d hd
  · intro j d o hd ho
    rw [hcalls] at hd
    split at hd
    · next hj =>
      cases hd
      exact ⟨r.props, hj ▸ hanswer, Option.some.inj (ho.symm.trans hresponse)⟩
    · exact h.received j d o hd ho
  · intro j props hprops
    by_cases hj : r.call = j
    · subst hj
      rw [hanswer] at hprops
      cases hprops
      exact Or.inr ⟨c', (hcalls r.call).trans (if_pos rfl), hresponse⟩
    · rcases h.known j props hprops with hq | ⟨d, hd, ho⟩
      · rcases List.mem_cons.1 hq with heq | hq
        · exact absurd (congrArg RpcReply.call heq).symm hj
        · exact Or.inl hq
      · exact Or.inr ⟨d, (hcalls j).trans ((if_neg hj).trans hd), ho⟩

end

/-! ## The invariant -/

/-- The answers to the messages that were taken. -/
def RpcSystem.answers (wire : RpcWire prog codec) (objects : prog.State) (s : RpcSystem prog) :
    List (List RpcProps) := (served wire (.new objects) (s.run.client.sent.take s.taken)).2

/-- The replies that have not arrived. -/
def RpcSystem.outstanding (s : RpcSystem prog) : List RpcReply := s.working ++ s.replies

/-- What was taken was answered as in place, by a program that started with `objects`; and a call
settles by its response. -/
structure SystemInv (wire : RpcWire prog codec) (objects : prog.State) (s : RpcSystem prog) :
    Prop where
  rpc : RpcInv s.run
  commands : ∀ m ∈ s.run.client.sent, IsCommand wire m.method
  calls : s.run.calls.length = s.run.client.sent.length
  ids : ∀ (k : Nat) (m : RpcMessage) (c : RpcCall),
    s.run.client.sent[k]? = some m → s.run.calls[k]? = some c → m.id = c.id
  service : s.service = (served wire (.new objects) (s.run.client.sent.take s.taken)).1
  taken : s.taken ≤ s.run.client.sent.length
  accounts : Accounts wire.decode (s.answers wire objects) s.outstanding s.run.calls
  settled : ∀ k c p, s.run.Registered k c p → s.run.client.ctx.outcome p = none ∨
    ∃ o, c.response = some o ∧ o.success = true ∧
      s.run.client.ctx.outcome p = some (.resolved o.result)

variable {method : Bytes} {params : List JSValue} {run : RpcRun} {es : List SystemEvent}

theorem systemInv_new (objects : prog.State) : SystemInv wire objects (.new objects) := by
  have haccounts : Accounts wire.decode [] [] [] := ⟨List.nodup_nil, nofun, nofun, nofun⟩
  exact ⟨rpcInv_new, nofun, rfl, nofun, rfl, Nat.le_refl 0, haccounts, nofun⟩

theorem SystemInv.answers_length (h : SystemInv wire objects s) :
    (s.answers wire objects).length = s.taken := by
  rw [RpcSystem.answers, served_length, List.length_take, Nat.min_eq_left h.taken]

theorem rpcStep_call {run run' : RpcRun} (h : rpcStep run (.call method params) = some run') :
    ∃ c : RpcCall, run'.client.sent = run.client.sent ++ [⟨method, params, c.id⟩] ∧
      run'.calls = run.calls ++ [c] ∧ c.promise = none ∧ c.response = none ∧
      run'.client.ctx = run.client.ctx := by
  obtain rfl := Option.some.inj h
  exact ⟨⟨run.client.nextId, none, none⟩, rfl, rfl, rfl, rfl, rfl⟩

theorem SystemInv.call (h : SystemInv wire objects s) (hcmd : IsCommand wire method)
    (hstep : rpcStep s.run (.call method params) = some run) :
    SystemInv wire objects { s with run } := by
  have hrpc := rpcStep_inv _ _ _ h.rpc hstep
  obtain ⟨c, hsent, hcalls, hpromise, hresponse, hctx⟩ := rpcStep_call hstep
  have hlen := h.calls
  have htake : run.client.sent.take s.taken = s.run.client.sent.take s.taken := by
    rw [hsent, List.take_append_of_le_length h.taken]
  have hanswers : RpcSystem.answers wire objects { s with run } = s.answers wire objects := by
    simp only [RpcSystem.answers, htake]
  refine ⟨hrpc, ?_, ?_, ?_, ?_, ?_, ?_, ?_⟩
  · intro m hm
    rcases List.mem_append.1 (hsent ▸ hm) with hm | hm
    · exact h.commands m hm
    · rw [List.mem_singleton.1 hm]
      exact hcmd
  · simp only [hsent, hcalls, List.length_append, List.length_singleton]
    omega
  · intro k m d hm hd
    simp only [hsent, hcalls] at hm hd
    rcases concat_some.1 hd with hd | ⟨rfl, rfl⟩
    · have hlt := (List.getElem?_eq_some_iff.1 hd).1
      rw [List.getElem?_append_left (by omega)] at hm
      exact h.ids k m d hm hd
    · rw [hlen, List.getElem?_concat_length, Option.some.injEq] at hm
      rw [← hm]
  · simp only [htake]
    exact h.service
  · have htaken := h.taken
    simp only [hsent, List.length_append]
    omega
  · rw [hanswers]
    simp only [hcalls]
    exact h.accounts.call hresponse
  · intro k d p hreg
    obtain ⟨hd, hp⟩ := hreg
    simp only [hcalls] at hd
    simp only [hctx]
    rcases concat_some.1 hd with hd | ⟨-, rfl⟩
    · exact h.settled k d p ⟨hd, hp⟩
    · rw [hpromise] at hp
      cases hp

theorem SystemInv.sent (h : SystemInv wire objects s)
    (hstep : rpcStep s.run (.sent k) = some run) : SystemInv wire objects { s with run } := by
  have hrpc := rpcStep_inv _ _ _ h.rpc hstep
  obtain ⟨c, hc, hnone, rfl⟩ := rpcStep_sent hstep
  refine ⟨hrpc, h.commands, ?_, ?_, h.service, h.taken, h.accounts.set hc rfl, ?_⟩
  · have hlen : (s.run.register k c).calls.length = s.run.calls.length := List.length_set
    exact hlen.trans h.calls
  · intro j m d hm hd
    have hd' : (s.run.calls.set k _)[j]? = some d := hd
    rw [getElem?_set_of hc] at hd'
    split at hd'
    · next hkj =>
      cases hd'
      exact h.ids j m c hm (hkj ▸ hc)
    · exact h.ids j m d hm hd'
  · intro j d p hreg
    rcases (register_registered hc hnone).1 hreg with ⟨-, -, rfl⟩ | hreg
    · exact Or.inl (h.rpc.unsettled _ (Nat.le_refl _))
    · exact h.settled j d p hreg

theorem id_inj {j : Nat} {d : RpcCall} (hI : RpcInv run) (hlen : run.calls.length ≤ UInt32.size)
    (hc : run.calls[k]? = some c) (hd : run.calls[j]? = some d) (hid : d.id = c.id) : j = k := by
  have hk : k < run.calls.length := (List.getElem?_eq_some_iff.1 hc).1
  have hj : j < run.calls.length := (List.getElem?_eq_some_iff.1 hd).1
  rw [hI.ids j d hd, hI.ids k c hc] at hid
  have hnat := congrArg UInt32.toNat hid
  rwa [UInt32.toNat_ofNat_of_lt' (Nat.lt_of_lt_of_le hj hlen),
    UInt32.toNat_ofNat_of_lt' (Nat.lt_of_lt_of_le hk hlen)] at hnat

theorem SystemInv.perm (h : SystemInv wire objects s) {working replies : List RpcReply}
    (hperm : (working ++ replies).Perm s.outstanding) :
    SystemInv wire objects { s with working, replies } :=
  ⟨h.rpc, h.commands, h.calls, h.ids, h.service, h.taken, h.accounts.perm hperm, h.settled⟩

theorem SystemInv.served_next (h : SystemInv wire objects s)
    (hmsg : s.run.client.sent[s.taken]? = some msg) :
    served wire (.new objects) (s.run.client.sent.take (s.taken + 1)) =
      ((s.service.onmessage codec (wire.encode msg)).1,
        s.answers wire objects ++ [(s.service.onmessage codec (wire.encode msg)).2]) := by
  have htake : s.run.client.sent.take (s.taken + 1) = s.run.client.sent.take s.taken ++ [msg] := by
    rw [List.take_add_one, hmsg]
    rfl
  rw [htake, served_append]
  simp only [← h.service]
  rfl

/-- The server takes the next message. -/
theorem SystemInv.take (h : SystemInv wire objects s)
    (hmsg : s.run.client.sent[s.taken]? = some msg) {r : RpcService prog × List RpcProps}
    (hr : r = s.service.onmessage codec (wire.encode msg)) :
    SystemInv wire objects { s with
      service := r.1, taken := s.taken + 1, working := s.working ++ r.2.map (⟨s.taken, ·⟩) } := by
  have hserved := h.served_next hmsg
  rw [← hr] at hserved
  have hone : r.2 = [] ∨ ∃ props, r.2 = [props] := by
    rw [hr]
    rcases @onmessage_answer _ _ wire _ s.service
        (h.commands msg (List.mem_of_getElem? hmsg)) with hnil | ⟨props, hone, -⟩
    · exact Or.inl hnil
    · exact Or.inr ⟨props, hone⟩
  have haccounts := h.accounts.answer hone
  rw [h.answers_length] at haccounts
  have hperm : (s.working ++ r.2.map (RpcReply.mk s.taken) ++ s.replies).Perm
      (r.2.map (RpcReply.mk s.taken) ++ s.outstanding) := by
    rw [RpcSystem.outstanding, ← List.append_assoc]
    exact (List.perm_append_comm).append_right _
  refine ⟨h.rpc, h.commands, h.calls, h.ids, (congrArg Prod.fst hserved).symm,
    (List.getElem?_eq_some_iff.1 hmsg).1, ?_, h.settled⟩
  rw [RpcSystem.answers, hserved]
  exact haccounts.perm hperm

/-- A reply that has not arrived has the id of its call. -/
theorem SystemInv.reply_id (h : SystemInv wire objects s) (hr : r ∈ s.outstanding)
    (hc : s.run.calls[r.call]? = some c) : (wire.decode r.props).id = some c.id := by
  obtain ⟨m, hm, hid⟩ := served_id
    (fun m hm => h.commands m (List.mem_of_mem_take hm)) _ (h.accounts.pending r hr).1
  have hm' : s.run.client.sent[r.call]? = some m := by
    rw [List.getElem?_take] at hm
    split at hm
    · exact hm
    · cases hm
  rw [h.ids r.call m c hm' hc] at hid
  exact wire.reply _ _ hid

/-- What the client makes of a reply is what it makes of the response to the call. -/
theorem deliver_respond (hid : (wire.decode props).id = some c.id) :
    (⟨run.client.onmessage (wire.decode props), run.calls.set k
        { c with response := some ⟨(wire.decode props).success, (wire.decode props).result⟩ }⟩ :
      RpcRun) = run.respond k c (wire.decode props).outcome := by
  unfold RpcRun.respond RpcResponse.outcome
  rw [← hid]

/-- Only the call that is answered may settle, with the result of the response. -/
theorem respond_outcome {o : RpcOutcome} (hI : RpcInv run)
    (hlen : run.calls.length ≤ UInt32.size) (hc : run.calls[k]? = some c) {j p : Nat} {d : RpcCall}
    (hreg : run.Registered j d p) :
    (run.respond k c o).client.ctx.outcome p = run.client.ctx.outcome p ∨
      j = k ∧ o.success = true ∧ (run.respond k c o).client.ctx.outcome p =
        (run.client.ctx.outcome p).or (some (.resolved o.result)) := by
  rcases respond_ctx hI with ⟨-, heq⟩ | ⟨i, e, q, hs, -, hreg', hid, heq⟩
  · rw [heq]
    exact Or.inl rfl
  · rw [heq, outcome_resolve]
    by_cases hpq : p = q
    · subst hpq
      rw [if_pos rfl]
      have hij : i = j := hI.distinct i j e d p hreg' hreg
      have hik : i = k := id_inj hI hlen hc hreg'.1 hid
      exact Or.inr ⟨hij.symm.trans hik, hs, rfl⟩
    · rw [if_neg hpq, Option.or_none]
      exact Or.inl rfl

/-- A registered call that is answered with a success settles. -/
theorem respond_settles {o : RpcOutcome} {p : Nat} (hI : RpcInv run)
    (hlen : run.calls.length ≤ UInt32.size) (hreg : run.Registered k c p)
    (hs : o.success = true) : (run.respond k c o).client.ctx.outcome p =
      (run.client.ctx.outcome p).or (some (.resolved o.result)) := by
  have hown := hI.own_handler hlen hreg
  rcases @respond_ctx _ k c o hI with ⟨hnone, -⟩ | ⟨i, e, q, -, hq, -, -, heq⟩
  · rw [hown] at hnone
    cases hnone hs
  · rw [hown] at hq
    cases hq
    rw [heq, outcome_resolve, if_pos rfl]

/-- After a reply a call is settled by its response. -/
theorem SystemInv.deliver_settled (h : SystemInv wire objects s)
    (hlen : s.run.calls.length ≤ UInt32.size) (hc : s.run.calls[k]? = some c)
    (hnone : c.response = none) (o : RpcOutcome) {j p : Nat} {d : RpcCall}
    (hreg : (s.run.respond k c o).Registered j d p) :
    (s.run.respond k c o).client.ctx.outcome p = none ∨ ∃ o', d.response = some o' ∧
      o'.success = true ∧
      (s.run.respond k c o).client.ctx.outcome p = some (.resolved o'.result) := by
  obtain ⟨d', hreg', rfl⟩ := (respond_registered hc).1 hreg
  have hold := h.settled j d' p hreg'
  by_cases hj : j = k
  · subst hj
    rw [if_pos rfl]
    obtain rfl := Option.some.inj (hc.symm.trans hreg'.1)
    have hunsettled : s.run.client.ctx.outcome p = none := by
      rcases hold with hold | ⟨o, ho, -⟩
      · exact hold
      · rw [hnone] at ho
        cases ho
    rcases respond_outcome (o := o) h.rpc hlen hc hreg' with heq | ⟨-, hs, heq⟩
    · exact Or.inl (heq.trans hunsettled)
    · refine Or.inr ⟨o, rfl, hs, ?_⟩
      rw [heq, hunsettled, Option.none_or]
  · rw [if_neg hj]
    rcases respond_outcome (o := o) h.rpc hlen hc hreg' with heq | ⟨hjk, -⟩
    · rw [heq]
      exact hold
    · exact absurd hjk hj

theorem SystemInv.deliver_outstanding {replies : List RpcReply} (hreplies : s.replies = r :: replies) :
    s.outstanding.Perm (r :: (s.working ++ replies)) := by
  rw [RpcSystem.outstanding, hreplies]
  exact List.perm_middle

theorem SystemInv.deliver (h : SystemInv wire objects s)
    (hlen : s.run.calls.length ≤ UInt32.size) {replies : List RpcReply}
    (hreplies : s.replies = r :: replies) (hc : s.run.calls[r.call]? = some c) :
    SystemInv wire objects
      { s with replies, run := s.run.respond r.call c (wire.decode r.props).outcome } := by
  have haccounts := h.accounts.perm (SystemInv.deliver_outstanding hreplies).symm
  obtain ⟨-, hresponse⟩ := haccounts.pending r List.mem_cons_self
  have hsent : (s.run.respond r.call c (wire.decode r.props).outcome).client.sent =
      s.run.client.sent := by
    rcases respond_ctx h.rpc with ⟨-, heq⟩ | ⟨i, e, q, -, -, -, -, heq⟩ <;> rw [heq]
  refine ⟨h.rpc.respond hc _, ?_, ?_, ?_, ?_, ?_, ?_, ?_⟩
  · simp only [hsent]
    exact h.commands
  · simp only [hsent]
    exact List.length_set.trans h.calls
  · intro j m d hm hd
    simp only [hsent] at hm
    have hd' : (s.run.calls.set r.call _)[j]? = some d := hd
    rw [getElem?_set_of hc] at hd'
    split at hd'
    · next hj =>
      cases hd'
      exact h.ids j m c hm (hj ▸ hc)
    · exact h.ids j m d hm hd'
  · simp only [hsent]
    exact h.service
  · simp only [hsent]
    exact h.taken
  · simp only [RpcSystem.answers, hsent]
    exact haccounts.deliver hc rfl
  · intro j d p hreg
    exact h.deliver_settled hlen hc (hresponse c hc) _ hreg

/-! ## A program, a codec, and calls whose replies overtake each other -/

def asciiText (chars : Bytes) : String := String.ofList (chars.map fun c => Char.ofNat c.toNat)

/-- What JSON keeps of an argument. -/
def JSValue.toRpc : JSValue → RpcValue
  | .bool b => .bool b
  | .int n => .number (toString n)
  | .string chars => .string (asciiText chars)
  | .undefined | .null => .null
  | _ => .object []

/-- What the client gets for a result; an object is a new one. -/
def RpcValue.toJS : RpcValue → JSValue
  | .undefined => .undefined
  | .null => .null
  | .bool b => .bool b
  | .number text => .int (Nat.ofDigitChars 10 text.toList 0)
  | .string chars => .string (chars.toList.map fun c => UInt8.ofNat c.toNat)
  | _ => .object 0

def messageProps (msg : RpcMessage) : RpcProps :=
  [("method", .string (asciiText msg.method)), ("params", .array (msg.params.map JSValue.toRpc)),
    ("id", .number (instanceKey msg.id))]

def replyResponse (props : RpcProps) : RpcResponse :=
  let id : Option UInt32 :=
    match own props "id" with
    | some (.number text) => some (UInt32.ofNat (Nat.ofDigitChars 10 text.toList 0))
    | _ => none
  ⟨id, (readOwn props "success").truthy, (readOwn props "result").toJS⟩

/-- Objects of one class with a member `x`, of which the program has one, and a method that returns
its value. -/
def oneObject : RpcProgram where
  State := RpcValue
  host x :=
    { oneClass with
      hasMember := fun _ _ => .ok true
      getMember := fun _ key => .ok (match key with
        | .string "x" => x
        | _ => .function 0)
      callMember := fun _ _ _ => .returned x }
  construct _ _ _ := .undefined
  setMember _ _ _ value := value
  callMember x _ _ _ := x
  callInherited x _ _ := x

def plainWire : RpcWire oneObject noCodec where
  encode msg := .object (messageProps msg)
  decode := replyResponse
  methodName := asciiText
  message objects msg := ⟨messageProps msg, rfl, rfl, rfl⟩
  reply props id h := by
    have hparse : Nat.ofDigitChars 10 (instanceKey id).toList 0 = id.toNat := by
      change Nat.ofDigitChars 10 id.toNat.repr.toList 0 = _
      rw [Nat.toList_repr]
      exact Nat.ofDigitChars_toDigits (by decide) (by decide)
    simp only [replyResponse, h, hparse, UInt32.ofNat_toNat]

/-- The calls `new('Map')`, `set(0, 'x', 7)` and `invoke(0, 'y')`; the last reply is sent first. -/
def overtaking : List SystemEvent :=
  [.call [110, 101, 119] [.string [77, 97, 112]],
    .call [115, 101, 116] [.int 0, .string [120], .int 7],
    .call [105, 110, 118, 111, 107, 101] [.int 0, .string [121]], .sent 0, .take, .take, .sent 1,
    .take, .reply 2, .sent 2, .reply 0, .reply 0, .deliver, .deliver, .deliver]

theorem overtaking_commands : CommandsOnly plainWire overtaking := by
  intro method params hmem
  simp only [overtaking, List.mem_cons, SystemEvent.call.injEq, reduceCtorEq, or_false,
    List.not_mem_nil] at hmem
  rcases hmem with ⟨rfl, -⟩ | ⟨rfl, -⟩ | ⟨rfl, -⟩
  · exact rfl
  · exact rfl
  · exact rfl

/-! ## Runs -/

theorem eraseIdx_perm {l : List RpcReply} {i : Nat} (h : l[i]? = some r) :
    (r :: l.eraseIdx i).Perm l := by
  obtain ⟨hi, heq⟩ := List.getElem?_eq_some_iff.1 h
  have hsplit : l = l.take i ++ r :: l.drop (i + 1) := by
    rw [← heq, List.getElem_cons_drop, List.take_append_drop]
  rw [List.eraseIdx_eq_take_drop_succ]
  exact (List.perm_middle.symm).trans (hsplit ▸ List.Perm.refl _)

theorem systemStep_call (hstep : systemStep wire s (.call method params) = some t) :
    ∃ run, rpcStep s.run (.call method params) = some run ∧ t = { s with run } := by
  cases hstep
  exact ⟨_, rfl, rfl⟩

/-- What a reply that arrives finds. -/
theorem systemStep_deliver (hstep : systemStep wire s .deliver = some t) :
    ∃ r replies c, s.replies = r :: replies ∧ s.run.calls[r.call]? = some c ∧
      let msg := wire.decode r.props
      let call : RpcCall := { c with response := some ⟨msg.success, msg.result⟩ }
      t = { s with replies, run := ⟨s.run.client.onmessage msg, s.run.calls.set r.call call⟩ } := by
  cases hreplies : s.replies with
  | nil => simp [systemStep, hreplies] at hstep
  | cons r replies =>
    simp only [systemStep, hreplies] at hstep
    obtain ⟨c, hc, rfl⟩ := Option.map_eq_some_iff.1 hstep
    exact ⟨r, replies, c, rfl, hc, rfl⟩

/-- A reply that arrives is the response to its call. -/
theorem SystemInv.deliver_cases (h : SystemInv wire objects s)
    (hstep : systemStep wire s .deliver = some t) :
    ∃ r replies c, s.replies = r :: replies ∧ s.run.calls[r.call]? = some c ∧
      t = { s with replies, run := s.run.respond r.call c (wire.decode r.props).outcome } := by
  obtain ⟨r, replies, c, hreplies, hc, rfl⟩ := systemStep_deliver hstep
  have hmem : r ∈ s.outstanding := by
    rw [RpcSystem.outstanding, hreplies]
    exact List.mem_append_right _ List.mem_cons_self
  refine ⟨r, replies, c, hreplies, hc, ?_⟩
  rw [deliver_respond (h.reply_id hmem hc)]

theorem SystemInv.step (h : SystemInv wire objects s) (hlen : s.run.calls.length ≤ UInt32.size)
    {e : SystemEvent} (hcmd : ∀ method params, e = .call method params → IsCommand wire method)
    (hstep : systemStep wire s e = some t) : SystemInv wire objects t := by
  cases e with
  | call method params =>
    obtain ⟨run, hrun, rfl⟩ := systemStep_call hstep
    exact h.call (hcmd method params rfl) hrun
  | sent k =>
    obtain ⟨run, hrun, rfl⟩ := Option.map_eq_some_iff.1 hstep
    exact h.sent hrun
  | take =>
    obtain ⟨msg, hmsg, heq⟩ := Option.map_eq_some_iff.1 hstep
    exact heq ▸ h.take hmsg rfl
  | reply i =>
    obtain ⟨r, hr, rfl⟩ := Option.map_eq_some_iff.1 hstep
    refine h.perm ?_
    unfold RpcSystem.outstanding
    have hlast : (s.working.eraseIdx i ++ (s.replies ++ [r])).Perm
        (r :: (s.working.eraseIdx i ++ s.replies)) := by
      rw [← List.append_assoc]
      exact List.perm_append_singleton r _
    exact hlast.trans ((eraseIdx_perm hr).append_right s.replies)
  | deliver =>
    obtain ⟨r, replies, c, hreplies, hc, ht⟩ := h.deliver_cases hstep
    exact ht ▸ h.deliver hlen hreplies hc

theorem calls_length_le {e : SystemEvent} (hstep : systemStep wire s e = some t) :
    s.run.calls.length ≤ t.run.calls.length := by
  cases e with
  | call method params =>
    obtain ⟨run, hrun, rfl⟩ := systemStep_call hstep
    obtain ⟨c, -, hcalls, -⟩ := rpcStep_call hrun
    simp only [hcalls, List.length_append]
    exact Nat.le_add_right _ _
  | sent k =>
    obtain ⟨run, hrun, rfl⟩ := Option.map_eq_some_iff.1 hstep
    obtain ⟨c, -, -, rfl⟩ := rpcStep_sent hrun
    exact Nat.le_of_eq List.length_set.symm
  | take =>
    obtain ⟨msg, -, rfl⟩ := Option.map_eq_some_iff.1 hstep
    exact Nat.le_refl _
  | reply i =>
    obtain ⟨r, -, rfl⟩ := Option.map_eq_some_iff.1 hstep
    exact Nat.le_refl _
  | deliver =>
    obtain ⟨r, replies, c, -, -, rfl⟩ := systemStep_deliver hstep
    exact Nat.le_of_eq List.length_set.symm

/-- The ids have not come round. -/
def Bounded (s : RpcSystem prog) : Prop := s.run.calls.length ≤ UInt32.size

theorem systemRun_inv (hcmd : CommandsOnly wire es) :
    ∀ {s t : RpcSystem prog}, (Bounded s → SystemInv wire objects s) → systemRun wire s es = some t →
      Bounded t → SystemInv wire objects t := by
  induction es with
  | nil =>
    intro s t h hrun hlen
    cases hrun
    exact h hlen
  | cons e es ih =>
    intro s t h hrun hlen
    obtain ⟨s', hstep, hrest⟩ := PartialRun.run_cons_iff.1 hrun
    refine ih (fun method params hmem => hcmd method params (List.mem_cons_of_mem e hmem)) ?_
      hrest hlen
    intro hlen'
    have hlen := Nat.le_trans (calls_length_le hstep) hlen'
    exact (h hlen).step hlen
      (fun method params heq => hcmd method params (heq ▸ List.mem_cons_self))
      hstep

/-- The answer to a message that was taken is the one it has in place. -/
theorem answers_local {x : List RpcProps} (hx : (s.answers wire objects)[k]? = some x) :
    (localAnswers wire objects s.run)[k]? = some x := by
  rw [RpcSystem.answers, served_take, List.getElem?_take] at hx
  split at hx
  · exact hx
  · cases hx

theorem SystemInv.settled_local (h : SystemInv wire objects t) {p : Nat} {outcome : Settlement}
    (hreg : t.run.Registered k c p) (hsettled : t.run.client.ctx.outcome p = some outcome) :
    ∃ props, (localAnswers wire objects t.run)[k]? = some [props] ∧
      (wire.decode props).success = true ∧ outcome = .resolved (wire.decode props).result := by
  rcases h.settled k c p hreg with hnone | ⟨o, ho, hs, heq⟩
  · rw [hnone] at hsettled
    cases hsettled
  · obtain ⟨props, hprops, rfl⟩ := h.accounts.received k c o hreg.1 ho
    rw [heq] at hsettled
    cases hsettled
    exact ⟨props, answers_local hprops, hs, rfl⟩

/-- **Calling the server cannot be told from calling the endpoint in place**: as long as the ids do
not come round, a call that settles is resolved with the result of the answer that the endpoint
gives in place, when the calls are made one after the other in the order of the client, on objects
that start alike; however calls, continuations, replies and responses are interleaved. -/
theorem rpc_local (wire : RpcWire prog codec) (objects : prog.State) {es : List SystemEvent}
    (hcmd : CommandsOnly wire es) (hrun : systemRun wire (.new objects) es = some t)
    (hlen : t.run.calls.length ≤ UInt32.size) {p : Nat} {outcome : Settlement}
    (hreg : t.run.Registered k c p) (hsettled : t.run.client.ctx.outcome p = some outcome) :
    ∃ props, (localAnswers wire objects t.run)[k]? = some [props] ∧
      (wire.decode props).success = true ∧ outcome = .resolved (wire.decode props).result :=
  (systemRun_inv hcmd (fun _ => systemInv_new objects) hrun hlen).settled_local hreg hsettled

/-- The state that `overtaking` leads to, and its last call. -/
def overtaken : RpcSystem oneObject :=
  (systemRun plainWire (.new .null) overtaking).get (by decide +kernel)

def overtakenCall : RpcCall := (overtaken.run.calls[2]?).get (by decide +kernel)

theorem overtaken_run : systemRun plainWire (.new .null) overtaking = some overtaken :=
  (Option.some_get _).symm

theorem overtaken_registered : overtaken.run.Registered 2 overtakenCall 2 :=
  ⟨(Option.some_get _).symm, by decide +kernel⟩

/-- The method returns what was set. -/
theorem rpc_local_overtaking : systemRun plainWire (.new .null) overtaking = some overtaken ∧
    ∃ props, (localAnswers plainWire .null overtaken.run)[2]? = some [props] ∧
      (plainWire.decode props).success = true ∧
      Settlement.resolved (.int 7) = .resolved (plainWire.decode props).result :=
  ⟨overtaken_run, rpc_local plainWire .null overtaking_commands overtaken_run (by decide +kernel)
    overtaken_registered (by decide +kernel)⟩

/-! ## When nothing is lost -/

/-- A response does not come before the continuation of its call. -/
def Prompt (s : RpcSystem prog) : SystemEvent → Prop
  | .deliver => ∀ r ∈ s.replies.head?, ∀ c ∈ s.run.calls[r.call]?, c.promise ≠ none
  | _ => True

instance instDecidablePrompt (s : RpcSystem prog) (e : SystemEvent) : Decidable (Prompt s e) :=
  match e with
  | .deliver => inferInstanceAs (Decidable (∀ r ∈ _, ∀ c ∈ _, _))
  | .call .. | .sent _ | .take | .reply _ => isTrue trivial

/-- All messages were taken, and all replies have arrived. -/
def RpcSystem.Quiet (s : RpcSystem prog) : Prop :=
  s.taken = s.run.client.sent.length ∧ s.outstanding = []

/-- A call with a response has a promise, which a success has resolved. -/
def ResponsesSettle (s : RpcSystem prog) : Prop :=
  ∀ (k : Nat) (c : RpcCall) o, s.run.calls[k]? = some c → c.response = some o →
    ∃ p, c.promise = some p ∧
      (o.success = true → s.run.client.ctx.outcome p = some (.resolved o.result))

theorem ResponsesSettle.deliver (hP : ResponsesSettle s) (h : SystemInv wire objects s)
    (hlen : s.run.calls.length ≤ UInt32.size) (hprompt : Prompt s .deliver)
    (hstep : systemStep wire s .deliver = some t) : ResponsesSettle t := by
  obtain ⟨r, replies, c, hreplies, hc, rfl⟩ := h.deliver_cases hstep
  have hmem : r ∈ s.outstanding := by
    rw [RpcSystem.outstanding, hreplies]
    exact List.mem_append_right _ List.mem_cons_self
  have hnone := (h.accounts.pending r hmem).2 c hc
  intro j d o hd ho
  have hd' : (s.run.calls.set r.call _)[j]? = some d := hd
  rw [getElem?_set_of hc] at hd'
  split at hd'
  · cases hd'
    cases ho
    obtain ⟨p, hp⟩ := Option.ne_none_iff_exists'.1
      (hprompt r (by rw [hreplies]; exact Option.mem_some_self r) c hc)
    refine ⟨p, hp, ?_⟩
    intro hs
    have hunsettled : s.run.client.ctx.outcome p = none := by
      rcases h.settled r.call c p ⟨hc, hp⟩ with hold | ⟨o, ho, -⟩
      · exact hold
      · rw [hnone] at ho
        cases ho
    have hsettles := respond_settles h.rpc hlen ⟨hc, hp⟩ hs
    rw [hunsettled, Option.none_or] at hsettles
    exact hsettles
  · next hj =>
    obtain ⟨p, hp, hs⟩ := hP j d o hd' ho
    refine ⟨p, hp, ?_⟩
    intro hsuccess
    rcases respond_outcome (o := (wire.decode r.props).outcome) h.rpc hlen hc ⟨hd', hp⟩ with
      heq | ⟨hjk, -⟩
    · exact heq.trans (hs hsuccess)
    · exact absurd hjk.symm hj

theorem ResponsesSettle.step (hP : ResponsesSettle s) (h : SystemInv wire objects s)
    (hlen : s.run.calls.length ≤ UInt32.size) {e : SystemEvent} (hprompt : Prompt s e)
    (hstep : systemStep wire s e = some t) : ResponsesSettle t := by
  cases e with
  | call method params =>
    obtain ⟨run, hrun, rfl⟩ := systemStep_call hstep
    obtain ⟨c, -, hcalls, -, hresponse, hctx⟩ := rpcStep_call hrun
    intro k d o hd ho
    simp only [hcalls] at hd
    simp only [hctx]
    rcases concat_some.1 hd with hd | ⟨-, rfl⟩
    · exact hP k d o hd ho
    · rw [hresponse] at ho
      cases ho
  | sent k =>
    obtain ⟨run, hrun, rfl⟩ := Option.map_eq_some_iff.1 hstep
    obtain ⟨c, hc, hnone, rfl⟩ := rpcStep_sent hrun
    intro j d o hd ho
    have hd' : (s.run.calls.set k _)[j]? = some d := hd
    rw [getElem?_set_of hc] at hd'
    split at hd'
    · -- A call with a response has run its continuation before.
      cases hd'
      obtain ⟨p, hp, -⟩ := hP k c o hc ho
      rw [hnone] at hp
      cases hp
    · exact hP j d o hd' ho
  | take =>
    obtain ⟨msg, -, rfl⟩ := Option.map_eq_some_iff.1 hstep
    exact hP
  | reply i =>
    obtain ⟨r, -, rfl⟩ := Option.map_eq_some_iff.1 hstep
    exact hP
  | deliver => exact hP.deliver h hlen hprompt hstep

theorem systemRun_settle {es : List SystemEvent} (hcmd : CommandsOnly wire es) :
    ∀ {s t : RpcSystem prog}, (Bounded s → SystemInv wire objects s) → (Bounded s → ResponsesSettle s) →
      PartialRun.Meets (systemStep wire) Prompt s es → systemRun wire s es = some t → Bounded t →
        ResponsesSettle t := by
  induction es with
  | nil =>
    intro s t _ hP _ hrun hlen
    cases hrun
    exact hP hlen
  | cons e es ih =>
    intro s t h hP hmeets hrun hlen
    obtain ⟨s', hstep, hrest⟩ := PartialRun.run_cons_iff.1 hrun
    obtain ⟨hprompt, hmeets⟩ := hmeets s' hstep
    have hbound : Bounded s' → Bounded s := Nat.le_trans (calls_length_le hstep)
    refine ih (fun method params hmem => hcmd method params (List.mem_cons_of_mem e hmem)) ?_ ?_
      hmeets hrest hlen
    · intro hlen'
      exact (h (hbound hlen')).step (hbound hlen')
        (fun method params heq => hcmd method params (heq ▸ List.mem_cons_self)) hstep
    · intro hlen'
      exact (hP (hbound hlen')).step (h (hbound hlen')) (hbound hlen') hprompt hstep

/-- **Nothing is lost**: if no response comes before the continuation of its call, then, once all
messages were taken and all replies have arrived, the calls that are resolved are the ones which
succeed in place, each with its result. -/
theorem rpc_complete (wire : RpcWire prog codec) (objects : prog.State) {es : List SystemEvent}
    (hcmd : CommandsOnly wire es) (hrun : systemRun wire (.new objects) es = some t)
    (hlen : t.run.calls.length ≤ UInt32.size)
    (hprompt : PartialRun.Meets (systemStep wire) Prompt (.new objects) es) (hquiet : t.Quiet)
    {p : Nat} (hreg : t.run.Registered k c p) (result : JSValue) :
    t.run.client.ctx.outcome p = some (.resolved result) ↔
      ∃ props, (localAnswers wire objects t.run)[k]? = some [props] ∧
        (wire.decode props).success = true ∧ (wire.decode props).result = result := by
  have h := systemRun_inv hcmd (fun _ => systemInv_new objects) hrun hlen
  have hP := systemRun_settle hcmd (fun _ => systemInv_new objects) (fun _ => nofun) hprompt hrun
    hlen
  obtain ⟨htaken, hout⟩ := hquiet
  constructor
  · intro hsettled
    obtain ⟨props, hprops, hs, heq⟩ := h.settled_local hreg hsettled
    cases heq
    exact ⟨props, hprops, hs, rfl⟩
  · rintro ⟨props, hprops, hs, rfl⟩
    have hanswer : (t.answers wire objects)[k]? = some [props] := by
      rw [RpcSystem.answers, htaken, List.take_length]
      exact hprops
    rcases h.accounts.known k props hanswer with hmem | ⟨d, hd, ho⟩
    · rw [hout] at hmem
      cases hmem
    · obtain rfl := Option.some.inj (hreg.1.symm.trans hd)
      obtain ⟨q, hq, hsettled⟩ := hP k c _ hd ho
      obtain rfl := Option.some.inj (hreg.2.symm.trans hq)
      exact hsettled hs

theorem rpc_complete_overtaking : overtaken.run.client.ctx.outcome 2 = some (.resolved (.int 7)) ↔
    ∃ props, (localAnswers plainWire .null overtaken.run)[2]? = some [props] ∧
      (plainWire.decode props).success = true ∧ (plainWire.decode props).result = .int 7 :=
  rpc_complete plainWire .null overtaking_commands overtaken_run (by decide +kernel)
    (by decide +kernel) ⟨by decide +kernel, by decide +kernel⟩ overtaken_registered (.int 7)

end QjsNet
