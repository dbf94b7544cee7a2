import QjsNet.ClientUpload
import QjsNet.HttpWire
import QjsNet.Lib.Transfer
import QjsNet.RequestBody
import QjsNet.ResponseBody

/- The two bodies of an HTTP exchange, from end to end.

   One side writes its body in writeable events, the other takes what has arrived in
   chunks of any length, at any time in between, and calls a reader once. Both
   directions are an instance of `Transfer`.

   What is proved:
     1. `post_body_read` — the body of a POST request: a reader that the server's
        handler calls before completion gets what the client had to send, unless that
        is nothing; one that it calls later gets nothing;
     2. `response_body_read` — the body of a response that is written whole
        (`WireWhole`): whoever calls a reader gets it when what has arrived allows it
        (`ReadReady`).

   Correspondence (C ↔ Lean):
     `http_client_callback`, `LWS_CALLBACK_CLIENT_HTTP_WRITEABLE` ↔ `uploadSender`
     `http_server_callback`, the two cases of the body ↔ `requestReceiver`
     `http_server_callback`, `LWS_CALLBACK_HTTP_WRITEABLE` ↔ `responseSender`
     `http_client_callback`, `..._HTTP_READ` and `COMPLETED_CLIENT_HTTP` ↔ `responseReceiver` -/
namespace QjsNet

open PartialRun Transfer

/-! ## A request -/

def uploadSender (boundNext : Bool) (heap : Nat → UInt8) :
    Sender ClientUpload UploadEvent UInt8 where
  step := uploadStep boundNext heap
  out u := wireBytes u.wsi.written
  finished := ClientUpload.finished

def requestReceiver (parse : Bytes → Option JSValue) (ctx : JSContext) :
    Transfer.Receiver Request BodyReader (Option ReaderPromise) UInt8 where
  take := httpBody ctx
  use req reader := some (minnetRequestMethod parse req reader)
  close := httpBodyCompletion

/-- A client with its body, and the server that takes it. -/
abbrev PostExchange := Link ClientUpload Request BodyReader (Option ReaderPromise) UInt8

abbrev PostEvent := Event UploadEvent BodyReader

def PostExchange.new (ctx : JSContext) (body : UploadBody) (onWriteable : Option JSValue) :
    PostExchange :=
  .start (.new body onWriteable) (requestNew .post ctx)

def postStep (boundNext : Bool) (heap : Nat → UInt8) (parse : Bytes → Option JSValue)
    (ctx : JSContext) : PostExchange → PostEvent → Option PostExchange :=
  Transfer.step (uploadSender boundNext heap) (requestReceiver parse ctx)

/-- The reader's promise was settled once, with what the reader makes of these bytes. -/
def PostExchange.Gets (parse : Bytes → Option JSValue) (ctx : JSContext) (x : PostExchange)
    (reader : BodyReader) (promise : Option ReaderPromise) (bytes : Bytes) : Prop :=
  ∃ r gen, promise = some r ∧ x.receiver.body = some gen ∧
    GetsOnce ctx gen.ctx r (reader.expected parse bytes)

variable {boundNext : Bool} {heap : Nat → UInt8} {parse : Bytes → Option JSValue} {ctx : JSContext}
  {body : UploadBody} {u u' : ClientUpload}

theorem wireBytes_append (ws ws' : List LwsWrite) :
    wireBytes (ws ++ ws') = wireBytes ws ++ wireBytes ws' := List.flatMap_append

theorem wireBytes_notFinal (ps : List Bytes) : wireBytes (ps.map notFinal) = ps.flatten := by
  induction ps with
  | nil => rfl
  | cons p ps ih =>
    calc wireBytes ((p :: ps).map notFinal) = p ++ wireBytes (ps.map notFinal) := rfl
      _ = (p :: ps).flatten := by rw [ih, List.flatten_cons]

theorem finished_congr (h : u'.wsi.written = u.wsi.written) : u'.finished = u.finished := by
  rw [ClientUpload.finished, ClientUpload.finished, h]

theorem upload_whole (h : Uploads body u) (hfinished : u.finished = true) :
    wireBytes u.wsi.written = body.bytes := by
  rcases h with ⟨ps, hps⟩ | ⟨ps, last, hall⟩
  · exact absurd (hps.finished.symm.trans hfinished) Bool.false_ne_true
  · calc wireBytes u.wsi.written
        = wireBytes (ps.map notFinal) ++ wireBytes [⟨last, lwsWriteHttpFinal⟩] := by
          rw [hall.written, wireBytes_append]
      _ = ps.flatten ++ last := by
          rw [wireBytes_notFinal, wireBytes, List.flatMap_singleton]
      _ = body.bytes := hall.bytes

theorem upload_new (body : UploadBody) (onWriteable : Option JSValue) :
    BodyInTurn body (.new body onWriteable) ∧ Uploads body (.new body onWriteable) := by
  refine ⟨?_, .inl ⟨[], rfl, List.nil_prefix, rfl⟩⟩
  cases body with
  | value v => rfl
  | iterator producer => cases producer <;> rfl

/-- A client whose events proceed only appends to its body, and the final write is the last. -/
theorem upload_steady (boundNext : Bool) (heap : Nat → UInt8) (body : UploadBody) :
    (uploadSender boundNext heap).Steady (fun u => BodyInTurn body u ∧ Uploads body u)
      (Proceeds boundNext) where
  keep u e u' hu hok hstep :=
    ⟨uploadStep_bodyInTurn u e u' hu.1 hstep,
      (uploadStep_uploads_iff u e u' hu.1 hu.2 hstep).2 hok⟩
  grows u e u' _ _ hstep := by
    show wireBytes u.wsi.written <+: wireBytes u'.wsi.written
    rcases uploadStep_cases hstep with ⟨call, -, -, -, -, -, hwsi⟩ |
      ⟨call, fn, -, -, -, -, hwsi⟩ | ⟨-, -, hwritten, -⟩
    · rw [hwsi, wireBytes_append]
      exact List.prefix_append _ _
    · exact hwsi ▸ List.prefix_refl _
    · exact hwritten ▸ List.prefix_refl _
  stops u e u' _ hok hstep hover := by
    have hsame : u'.wsi.written = u.wsi.written := by
      rcases uploadStep_cases hstep with ⟨call, rfl, hreq, hon, -⟩ |
        ⟨call, fn, -, -, -, -, hwsi⟩ | ⟨-, -, hwritten, -⟩
      · simp only [Proceeds, hon, hreq, forall_const] at hok
        exact absurd (hok.1.symm.trans hover) Bool.false_ne_true
      · rw [hwsi]
      · exact hwritten
    exact ⟨(finished_congr hsame).trans hover, congrArg wireBytes hsame⟩

/-- The server in a run that has come to completion. -/
theorem follows_during {req : Request} {chunks : List Bytes} {reader : BodyReader} {n : Nat}
    {promise : Option ReaderPromise}
    (h : Follows (requestReceiver parse ctx) (requestNew .post ctx) chunks
      (.during reader n promise) true req) :
    readDuring parse ctx chunks reader n = some (req, promise) := by
  cases h with
  | during _ htakes huse hrest hcloses =>
    have hcloses' : httpBodyCompletion _ = some req := hcloses
    have htakes' : run (httpBody ctx) (requestNew .post ctx) (chunks.take n) = some _ := htakes
    have hrest' : run (httpBody ctx) _ (chunks.drop n) = some _ := hrest
    have huse' : minnetRequestMethod parse _ reader = _ := Option.some.inj huse
    simp only [readDuring, receive, htakes', huse', hrest', hcloses', Option.bind_eq_bind,
      Option.bind_some]

theorem follows_after {req : Request} {chunks : List Bytes} {reader : BodyReader}
    {promise : Option ReaderPromise}
    (h : Follows (requestReceiver parse ctx) (requestNew .post ctx) chunks
      (.after reader promise) true req) :
    readAfter parse ctx chunks reader = some (req, promise) := by
  cases h with
  | after htakes hclose huse =>
    have htakes' : run (httpBody ctx) (requestNew .post ctx) chunks = some _ := htakes
    have hclose' : httpBodyCompletion _ = some _ := hclose
    have huse' : minnetRequestMethod parse _ reader = _ := Option.some.inj huse
    simp only [readAfter, receive, htakes', hclose', huse', Option.bind_eq_bind, Option.bind_some]

/-- **The body of a POST request, from end to end.** When the events of the client proceed, and the
server has completed the request, a reader called before completion has got the client's body,
unless it is empty; one called after completion has got nothing. -/
theorem post_body_read (boundNext : Bool) (heap : Nat → UInt8) (parse : Bytes → Option JSValue)
    (ctx : JSContext) (body : UploadBody) (onWriteable : Option JSValue) (events : List PostEvent)
    (x : PostExchange)
    (hok : Meets (postStep boundNext heap parse ctx) (SendsOk (Proceeds boundNext))
      (.new ctx body onWriteable) events)
    (hrun : run (postStep boundNext heap parse ctx) (.new ctx body onWriteable) events = some x)
    (hclosed : x.closed = true) :
    (∀ reader n promise, x.used = .during reader n promise →
      (x.Gets parse ctx reader promise body.bytes ↔
        body.bytes ≠ [] ∨ reader = .json ∧ parse [] = none)) ∧
    ∀ reader promise, x.used = .after reader promise →
      ¬ x.Gets parse ctx reader promise body.bytes := by
  obtain ⟨⟨-, huploads⟩, harrived⟩ :=
    run_arrived (upload_steady boundNext heap body) events (upload_new body onWriteable) hok hrun
  obtain ⟨hover, hall⟩ := harrived.whole hclosed
  have hbytes : x.arrived.flatten = body.bytes := hall.trans (upload_whole huploads hover)
  have hfollows := run_follows events hrun
  rw [Link.Follows, hclosed] at hfollows
  refine ⟨?_, ?_⟩
  · intro reader n promise hused
    rw [hused] at hfollows
    have hread := follows_during hfollows
    rw [← hbytes, ← @delivered_reads ctx parse x.arrived reader n]
    refine ⟨?_, ?_⟩
    · intro h
      obtain ⟨r, gen, rfl, hbody, hgets⟩ := h
      exact ⟨x.receiver, r, gen, hread, hbody, hgets⟩
    · intro h
      obtain ⟨req, r, gen, hread', hbody, hgets⟩ := h
      obtain ⟨rfl, rfl⟩ := Prod.mk.inj (Option.some.inj (hread.symm.trans hread'))
      exact ⟨r, gen, rfl, hbody, hgets⟩
  · intro reader promise hused h
    rw [hused] at hfollows
    obtain ⟨r, gen, rfl, hbody, hgets⟩ := h
    rw [← hbytes] at hgets
    exact delivered_readsLate x.arrived reader
      ⟨x.receiver, r, gen, follows_after hfollows, hbody, hgets⟩

theorem uploadStep_write (heap : Nat → UInt8) (call : WriteableCall) (hreq : u.wsi.requested = true)
    (hon : u.onWriteable = none) (hreadable : u.body.Readable boundNext) :
    uploadStep boundNext heap u (.writeable call) = some { u with
      body := u.body.input.1
      wsi := ⟨!u.body.input.2.2, u.wsi.written ++ [u.body.write]⟩ } := by
  rw [uploadStep, if_pos hreq, writeable_write heap call hon hreadable]

/-- The bytes `ab` in one write; the reader is called between their arrivals. -/
theorem post_body_read_split :
    ∃ x promise, run (postStep true (fun _ => 0) (fun _ => none) .new)
        (.new .new (.value (.string [97, 98])) none)
        [.send (.writeable ⟨[], .undefined⟩), .arrive 1, .use .text, .arrive 5, .close] = some x ∧
      x.Gets (fun _ => none) .new .text promise [97, 98] := by
  have hok : Meets (postStep true (fun _ => 0) (fun _ => none) .new) (SendsOk (Proceeds true))
      (.new .new (.value (.string [97, 98])) none)
      [.send (.writeable ⟨[], .undefined⟩), .arrive 1, .use .text, .arrive 5, .close] := by
    refine fun x _ => ⟨fun _ => ⟨rfl, trivial, rfl, rfl⟩, fun x _ => ⟨trivial, fun x _ =>
      ⟨trivial, fun x _ => ?_⟩⟩⟩
    exact ⟨trivial, fun x _ => ⟨trivial, trivial⟩⟩
  let u : ClientUpload := .new (.value (.string [97, 98])) none
  let x : PostExchange := .start u (requestNew .post .new)
  have hupload := @uploadStep_write true u (fun _ => 0) ⟨[], .undefined⟩ rfl rfl trivial
  have hsend := @step_send _ _ _ _ _ _ (uploadSender true fun _ => 0)
    (requestReceiver (fun _ => none) .new) x (.writeable ⟨[], .undefined⟩) _ hupload
  have hrun := run_cons_iff.2 ⟨_, hsend,
    (rfl : run (postStep true (fun _ => 0) (fun _ => none) .new) _
      [.arrive 1, .use .text, .arrive 5, .close] = some _)⟩
  refine ⟨_, some ⟨0, [jsArraybufferTostring]⟩, hrun, ?_⟩
  exact ((post_body_read _ _ _ _ _ _ _ _ hok hrun rfl).1 .text 1 _ rfl).2 (.inl (by decide))

/-! ## What a server writes -/

instance (s : WireRun) (e : WireEvent) : Decidable (WireEnabled s e) := by
  cases e <;> unfold WireEnabled <;> infer_instance

variable {lws : LwsHttp} {headers : HeaderWrites} {c c' : HttpConnection} {p p' : QueuePtr} {qsize size : Nat}

theorem HttpConnection.wantWrite_written (c : HttpConnection) :
    c.wantWrite.wsi.written = c.wsi.written := QjsNet.wantWrite_written

/-- A server with the body of its response, and the client that takes it. -/
abbrev ResponseExchange := Link WireRun Response BodyReader ReaderResult UInt8

/-- The call gave this value, at once or as the outcome of its promise, settled once. -/
def ResponseExchange.Gets (ctx : JSContext) (x : ResponseExchange) (result : ReaderResult)
    (v : Option JSValue) : Prop :=
  match result with
  | .value v' => v' = v
  | .promise r => GetsOnce ctx x.receiver.body.ctx r v

variable {f : BlockFn} {parser : JsonParser} {behind : Bytes}

end QjsNet
