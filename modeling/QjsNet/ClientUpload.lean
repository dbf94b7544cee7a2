import QjsNet.ByteBuffer
import QjsNet.HttpSession
import QjsNet.Lib.PartialRun

/- The body of a client's POST request (`http_client_callback`, the case
   `LWS_CALLBACK_CLIENT_HTTP_WRITEABLE`).

   Each writeable event makes one write: a value that an iterator yields, or the whole
   body when it is no object, which is then the final write. `client_uploads_iff` says
   when the writes are the body's bytes, with one final write behind them all.

   The request is a POST that no redirect has turned into a GET, and `lws_write` takes
   the whole buffer. A first event is asked for with the request's headers. The
   callbacks' return values are left out. `none` is a call of an iterator's `next` that
   reads what cannot be read (`jsIteratorNext`).

   Correspondence (C ↔ Lean):
     `LWS_CALLBACK_CLIENT_HTTP_WRITEABLE`  ↔ `httpClientWriteable`
     its `js_iterator_next` and the values ↔ `UploadBody.next`
     `LWS_CALLBACK_ESTABLISHED_CLIENT_HTTP` (the request for an event)
       ↔ `UploadEvent.established` -/
namespace QjsNet

/-- `JS_IsObject` -/
def JSValue.isObject : JSValue → Bool
  | .undefined | .null | .bool _ | .int _ | .string _ => false
  | _ => true

def JSValue.isTypedArray : JSValue → Bool
  | .typedArray .. => true
  | _ => false

/-- The bytes that a string or a buffer stands for; for a typed array those in view. -/
def JSValue.bytes : JSValue → Bytes
  | .string chars => chars
  | .arrayBuffer data => data
  | .typedArray buffer offset length => (buffer.drop offset).take length
  | _ => []

/-- `client->body`: an object with a method `next` or a function that returns one, or else a value
without. -/
inductive UploadBody where
  | value (v : JSValue)
  | iterator (producer : Producer)
  deriving DecidableEq, Repr

/-- What is appended to the buffer for a result of the iterator, and whether it is done. -/
def NextValue.input : NextValue → Option Bytes × Bool
  | .exception => (none, false)
  -- the promise itself is the value, and has no bytes
  | .promise => (some [], false)
  | .value v done => (if v.isNullish then none else some ((jsBufferNew v).getD []), done)

/-- What is appended to the buffer in an event, and whether the write is the final one. -/
def UploadBody.next (boundNext : Bool) : UploadBody → Option (UploadBody × Option Bytes × Bool)
  | .iterator producer => do
    let (producer, result) ← jsIteratorNext boundNext producer
    some (.iterator producer, result.input)
  | .value v =>
    -- an object without a method `next` throws, in every event
    if v.isObject || v.isNullish then some (.value v, none, false)
    else some (.value v, some (jsInputChars v), true)

structure ClientUpload where
  body : UploadBody
  /-- The function of the handler, when its context is set. -/
  onWriteable : Option JSValue
  wsi : Wsi
  deriving DecidableEq, Repr

/-- The headers of the request are out, and an event has been asked for. -/
def ClientUpload.new (body : UploadBody) (onWriteable : Option JSValue) : ClientUpload :=
  ⟨body, onWriteable, ⟨true, []⟩⟩

/-- The buffer of an event. -/
def uploadBuffer (heap : Nat → UInt8) : Option Bytes → Option ByteBuffer
  | none => some (bufferAlloc heap 1024)
  | some x => bufferAppend heap (bufferAlloc heap 1024) x

/-- An event that was asked for. `call` is what the handler does when there is one. -/
def httpClientWriteable (boundNext : Bool) (heap : Nat → UInt8) (u : ClientUpload)
    (call : WriteableCall) : Option ClientUpload :=
  let wsi := { u.wsi with requested := false }
  match u.onWriteable with
  | some fn =>
    -- the handler is called instead, and nothing of the body is written
    let (onWriteable, wsi) := emitWriteable fn wsi call
    some { u with wsi, onWriteable }
  | none => do
    let (body, input, done) ← u.body.next boundNext
    let buf ← uploadBuffer heap input
    let (wsi, _) := lwsWrite wsi buf.content (if done then lwsWriteHttpFinal else lwsWriteHttp)
    some { u with body, wsi := if done then wsi else lwsCallbackOnWritable wsi }

inductive UploadEvent where
  | writeable (call : WriteableCall)
  /-- The headers of the response are in. -/
  | established
  | setOnWriteable (value : JSValue)
  deriving DecidableEq, Repr

/-- A writeable event that nobody has asked for does not come. -/
def uploadStep (boundNext : Bool) (heap : Nat → UInt8) (u : ClientUpload) :
    UploadEvent → Option ClientUpload
  | .writeable call =>
    if u.wsi.requested then httpClientWriteable boundNext heap u call else some u
  | .established => some { u with wsi := lwsCallbackOnWritable u.wsi }
  | .setOnWriteable value =>
    let (onWriteable, wsi) := minnetClientSet (u.onWriteable, u.wsi) value
    some { u with onWriteable, wsi }

/-! ## What a body is -/

/-- The result is a value of the iteration, and not its end. -/
def yields : Option IterResult → Bool
  | none => true
  | some r => !r.done

/-- The bytes of a result; an exception has none. -/
def resultBytes : Option IterResult → Bytes
  | none => []
  | some r => r.value.bytes

/-- The values that an iterator yields. -/
def UploadBody.parts : UploadBody → List Bytes
  | .iterator (.sync results) => (results.takeWhile yields).map resultBytes
  | _ => []

/-- The bytes of a body that is no iterator. -/
def UploadBody.rest : UploadBody → Bytes
  | .value v => v.bytes
  | .iterator _ => []

def UploadBody.bytes (body : UploadBody) : Bytes := body.parts.flatten ++ body.rest

/-- The body without the first results of the iterator. -/
def UploadBody.drop : UploadBody → Nat → UploadBody
  | .iterator (.sync results), n => .iterator (.sync (results.drop n))
  | body, _ => body

def notFinal (data : Bytes) : LwsWrite := ⟨data, lwsWriteHttp⟩

/-- The upload is under way: the writes so far are the first values of the body, none of them is
final, and another event has been asked for. -/
structure Underway (body : UploadBody) (wsi : Wsi) (ps : List Bytes) : Prop where
  written : wsi.written = ps.map notFinal
  parts : ps <+: body.parts
  requested : wsi.requested = true

/-- The upload is over: there was one final write, behind all others, and together they are the
body. -/
structure UploadedAll (body : UploadBody) (wsi : Wsi) (ps : List Bytes) (last : Bytes) : Prop where
  written : wsi.written = ps.map notFinal ++ [⟨last, lwsWriteHttpFinal⟩]
  bytes : ps.flatten ++ last = body.bytes

/-- The writes are right so far. -/
def Uploads (body : UploadBody) (u : ClientUpload) : Prop :=
  (∃ ps, Underway body u.wsi ps) ∨ ∃ ps last, UploadedAll body u.wsi ps last

/-- The final write was made. -/
def ClientUpload.finished (u : ClientUpload) : Bool :=
  u.wsi.written.any fun w => w.protocol = lwsWriteHttpFinal

/-- The next write takes what it should: a value that is no object, or of an iterator a value that
has no bytes unless it is yielded, and is no typed array then. -/
def UploadBody.Carried : UploadBody → Prop
  | .value v => v.isObject = false ∧ v.isNullish = false
  | .iterator .async => False
  | .iterator (.sync []) => True
  | .iterator (.sync (none :: _)) => True
  | .iterator (.sync (some r :: _)) => r.value.bytes = [] ∨ r.value.isTypedArray = r.done

/-- A call of `next` survives what it reads. -/
def UploadBody.Readable (boundNext : Bool) : UploadBody → Prop
  | .value _ => True
  | .iterator _ => boundNext = true

/-- The event comes before the final write, and takes what it should, or calls a handler that has
another one asked for; or it comes after it, and calls a handler. One that does not come is no
event. -/
def Proceeds (boundNext : Bool) (u : ClientUpload) : UploadEvent → Prop
  | .writeable call => u.wsi.requested = true →
    match u.onWriteable with
    | some _ => u.finished = true ∨ call.asks = true
    | none => u.finished = false ∧ u.body.Readable boundNext ∧ u.body.Carried
  | _ => True

variable {boundNext : Bool} {heap : Nat → UInt8} {u u' : ClientUpload} {body : UploadBody} {wsi : Wsi}
  {ps : List Bytes} {last data : Bytes} {call : WriteableCall}

/-! ## One write -/

theorem uploadBuffer_content (heap : Nat → UInt8) (input : Option Bytes) :
    ∃ buf, uploadBuffer heap input = some buf ∧ buf.content = input.getD [] := by
  cases input with
  | none => exact ⟨_, rfl, bufferAlloc_content heap 1024⟩
  | some x =>
    obtain ⟨buf, hbuf, hcontent⟩ := bufferAppend_content heap (bufferAlloc heap 1024) x
    exact ⟨buf, hbuf, hcontent⟩

/-- What an event takes when the call of `next` survives. -/
def UploadBody.input : UploadBody → UploadBody × Option Bytes × Bool
  | .iterator producer => (.iterator producer.next.1, producer.next.2.input)
  | .value v =>
    if v.isObject || v.isNullish then (.value v, none, false)
    else (.value v, some (jsInputChars v), true)

theorem next_readable (h : body.Readable boundNext) : body.next boundNext = some body.input := by
  cases body with
  | value v =>
    simp only [UploadBody.next, UploadBody.input]
    split <;> rfl
  | iterator producer =>
    have hnext : jsIteratorNext boundNext producer = some producer.next :=
      jsIteratorNext_iff.2 ⟨h, rfl⟩
    simp only [UploadBody.next, UploadBody.input, hnext, Option.bind_eq_bind, Option.bind_some]

theorem next_unreadable (h : ¬ body.Readable boundNext) : body.next boundNext = none := by
  cases body with
  | value v => exact absurd trivial h
  | iterator producer =>
    have hnext : jsIteratorNext boundNext producer = none := if_neg h
    simp only [UploadBody.next, hnext, Option.bind_eq_bind, Option.bind_none]

/-- The write of an event, and whether it is the final one. -/
def UploadBody.write (body : UploadBody) : LwsWrite :=
  ⟨body.input.2.1.getD [], if body.input.2.2 then lwsWriteHttpFinal else lwsWriteHttp⟩

theorem writeable_write (heap : Nat → UInt8) (call : WriteableCall) (h : u.onWriteable = none)
    (hreadable : u.body.Readable boundNext) :
    httpClientWriteable boundNext heap u call = some { u with
      body := u.body.input.1
      wsi := ⟨!u.body.input.2.2, u.wsi.written ++ [u.body.write]⟩ } := by
  obtain ⟨buf, hbuf, hcontent⟩ := uploadBuffer_content heap u.body.input.2.1
  simp only [httpClientWriteable, h, next_readable hreadable, hbuf, lwsWrite, hcontent,
    Option.bind_eq_bind, Option.bind_some, UploadBody.write]
  cases u.body.input.2.2 <;> rfl

theorem writeable_lost (heap : Nat → UInt8) (call : WriteableCall) (h : u.onWriteable = none)
    (hreadable : ¬ u.body.Readable boundNext) :
    httpClientWriteable boundNext heap u call = none := by
  simp only [httpClientWriteable, h, next_unreadable hreadable, Option.bind_eq_bind,
    Option.bind_none]

theorem input_body (body : UploadBody) : body.input.1 = body.drop 1 := by
  cases body with
  | value v =>
    simp only [UploadBody.input]
    split <;> rfl
  | iterator producer =>
    cases producer with
    | async => rfl
    | sync results =>
      cases results with
      | nil => rfl
      | cons r results => cases r <;> rfl

theorem drop_drop (body : UploadBody) (n : Nat) : (body.drop n).drop 1 = body.drop (n + 1) := by
  cases body with
  | value v => rfl
  | iterator producer =>
    cases producer with
    | async => rfl
    | sync results => simp only [UploadBody.drop, List.drop_drop]

/-- The iterator is asked once in each event that writes. -/
def BodyInTurn (body : UploadBody) (u : ClientUpload) : Prop :=
  u.body = body.drop u.wsi.written.length

theorem handler_keeps {fn : JSValue} (h : u.onWriteable = some fn)
    (hstep : httpClientWriteable boundNext heap u call = some u') :
    u'.body = u.body ∧ u'.wsi = ⟨call.asks, u.wsi.written⟩ := by
  simp only [httpClientWriteable, h, Option.some.injEq] at hstep
  subst hstep
  refine ⟨rfl, ?_⟩
  let wsi : Wsi := ⟨false, u.wsi.written⟩
  have hwritten : (emitWriteable fn wsi call).2.written = u.wsi.written :=
    emitWriteable_written fn wsi call
  have hrequested : (emitWriteable fn wsi call).2.requested = call.asks := by
    rw [Bool.eq_iff_iff, emitWriteable_requested]
    exact or_iff_right Bool.false_ne_true
  show (emitWriteable fn wsi call).2 = _
  rw [← hwritten, ← hrequested]

/-- An event that writes, one that calls the handler instead, and one that only asks for another
or does not come. -/
theorem uploadStep_cases {e : UploadEvent} (hstep : uploadStep boundNext heap u e = some u') :
    (∃ call, e = .writeable call ∧ u.wsi.requested = true ∧ u.onWriteable = none ∧
      u.body.Readable boundNext ∧ u'.body = u.body.input.1 ∧
      u'.wsi = ⟨!u.body.input.2.2, u.wsi.written ++ [u.body.write]⟩) ∨
    (∃ call fn, e = .writeable call ∧ u.wsi.requested = true ∧ u.onWriteable = some fn ∧
      u'.body = u.body ∧ u'.wsi = ⟨call.asks, u.wsi.written⟩) ∨
    ((∀ call, e = .writeable call → u.wsi.requested = false) ∧ u'.body = u.body ∧
      u'.wsi.written = u.wsi.written ∧ (u.wsi.requested = true → u'.wsi.requested = true)) := by
  cases e with
  | writeable call =>
    simp only [uploadStep] at hstep
    split at hstep
    · next hreq =>
      cases hon : u.onWriteable with
      | none =>
        by_cases hreadable : u.body.Readable boundNext
        · rw [writeable_write heap call hon hreadable] at hstep
          obtain rfl := Option.some.inj hstep
          exact .inl ⟨call, rfl, hreq, rfl, hreadable, rfl, rfl⟩
        · rw [writeable_lost heap call hon hreadable] at hstep
          cases hstep
      | some fn =>
        obtain ⟨hbody, hwsi⟩ := handler_keeps hon hstep
        exact .inr (.inl ⟨call, fn, rfl, hreq, rfl, hbody, hwsi⟩)
    · next hreq =>
      obtain rfl := Option.some.inj hstep
      exact .inr (.inr ⟨fun _ _ => Bool.not_eq_true _ ▸ hreq, rfl, rfl, id⟩)
  | established =>
    obtain rfl := Option.some.inj hstep
    exact .inr (.inr ⟨nofun, rfl, rfl, fun _ => rfl⟩)
  | setOnWriteable value =>
    obtain rfl := Option.some.inj hstep
    refine .inr (.inr ⟨nofun, rfl, minnetClientSet_written (u.onWriteable, u.wsi) value, ?_⟩)
    intro hreq
    obtain ⟨hrequested, -⟩ := foldl_set_spec [value] (u.onWriteable, u.wsi)
    exact hrequested.2 (Or.inl hreq)

theorem uploadStep_bodyInTurn (u : ClientUpload) (e : UploadEvent) (u' : ClientUpload)
    (h : BodyInTurn body u) (hstep : uploadStep boundNext heap u e = some u') :
    BodyInTurn body u' := by
  unfold BodyInTurn at h ⊢
  rcases uploadStep_cases hstep with ⟨call, -, -, -, -, hbody, hwsi⟩ |
    ⟨call, fn, -, -, -, hbody, hwsi⟩ | ⟨-, hbody, hwritten, -⟩
  · rw [hbody, hwsi, List.length_append, List.length_singleton, ← drop_drop, ← h, input_body]
  · rw [hbody, hwsi, h]
  · rw [hbody, hwritten, h]

/-! ## What a write is worth -/

theorem notFinal_injective : Function.Injective notFinal := fun _ _ h => congrArg LwsWrite.data h

theorem final_not_mem (data : Bytes) (ps : List Bytes) :
    (⟨data, lwsWriteHttpFinal⟩ : LwsWrite) ∉ ps.map notFinal := by
  intro hmem
  obtain ⟨p, -, hp⟩ := List.mem_map.1 hmem
  exact absurd (congrArg LwsWrite.protocol hp) (by decide : lwsWriteHttp ≠ lwsWriteHttpFinal)

theorem Underway.finished (h : Underway body u.wsi ps) : u.finished = false := by
  rw [ClientUpload.finished, h.written, List.any_map, List.any_eq_false]
  intro p _
  simp [notFinal, lwsWriteHttp, lwsWriteHttpFinal]

theorem UploadedAll.finished (h : UploadedAll body u.wsi ps last) : u.finished = true := by
  rw [ClientUpload.finished, h.written, List.any_append]
  simp [lwsWriteHttpFinal]

theorem uploads_notFinal_iff (hreq : u.wsi.requested = true)
    (h : u.wsi.written = ps.map notFinal) : Uploads body u ↔ ps <+: body.parts := by
  refine ⟨?_, fun hparts => .inl ⟨ps, h, hparts, hreq⟩⟩
  rintro (⟨ps', hps'⟩ | ⟨ps', last, hall⟩)
  · have heq : ps' = ps := (List.map_injective_iff.2 notFinal_injective) (hps'.written.symm.trans h)
    exact heq ▸ hps'.parts
  · refine absurd ?_ (final_not_mem last ps)
    rw [← h, hall.written]
    exact List.mem_append_right _ List.mem_cons_self

theorem uploads_final_iff (h : u.wsi.written = ps.map notFinal ++ [⟨last, lwsWriteHttpFinal⟩]) :
    Uploads body u ↔ ps.flatten ++ last = body.bytes := by
  refine ⟨?_, fun hbytes => .inr ⟨ps, last, h, hbytes⟩⟩
  rintro (⟨ps', hps'⟩ | ⟨ps', last', hall⟩)
  · refine absurd ?_ (final_not_mem last ps')
    rw [← hps'.written, h]
    exact List.mem_append_right _ List.mem_cons_self
  · obtain ⟨hinit, hlast⟩ := List.append_inj' (hall.written.symm.trans h) rfl
    have hps : ps' = ps := (List.map_injective_iff.2 notFinal_injective) hinit
    have hdata : last' = last := congrArg LwsWrite.data (List.head_eq_of_cons_eq hlast)
    exact hps ▸ hdata ▸ hall.bytes

theorem not_uploads_behind {w : LwsWrite}
    (h : u.wsi.written = ps.map notFinal ++ [⟨last, lwsWriteHttpFinal⟩] ++ [w]) :
    ¬ Uploads body u := by
  have hmem : (⟨last, lwsWriteHttpFinal⟩ : LwsWrite)
      ∈ ps.map notFinal ++ [⟨last, lwsWriteHttpFinal⟩] := List.mem_append_right _ List.mem_cons_self
  rintro (⟨ps', hps'⟩ | ⟨ps', last', hall⟩)
  · refine final_not_mem last ps' ?_
    rw [← hps'.written, h]
    exact List.mem_append_left _ hmem
  · obtain ⟨hinit, -⟩ := List.append_inj' (hall.written.symm.trans h) rfl
    exact final_not_mem last ps' (hinit ▸ hmem)

/-! ## The body and its values -/

theorem bufferNew_bytes (v : JSValue) :
    (jsBufferNew v).getD [] = if v.isTypedArray then [] else v.bytes := by
  cases v <;> rfl

theorem result_input (v : JSValue) (done : Bool) :
    (NextValue.value v done).input.1.getD [] = if v.isTypedArray then [] else v.bytes := by
  rw [← bufferNew_bytes]
  cases v <;> rfl

theorem parts_split {n : Nat} (h : n ≤ body.parts.length) :
    body.parts = body.parts.take n ++ (body.drop n).parts := by
  cases body with
  | value v =>
    rw [Nat.le_zero.1 h]
    rfl
  | iterator producer =>
    cases producer with
    | async =>
      rw [Nat.le_zero.1 h]
      rfl
    | sync results =>
      induction results generalizing n with
      | nil =>
        rw [Nat.le_zero.1 h]
        rfl
      | cons r results ih =>
        cases n with
        | zero => rfl
        | succ n =>
          simp only [UploadBody.parts, UploadBody.drop, List.takeWhile_cons] at h ih ⊢
          split at h
          · next hyields =>
            rw [List.map_cons, List.length_cons] at h
            rw [if_pos hyields, List.map_cons, List.take_succ_cons, List.cons_append,
              List.drop_succ_cons, ← ih (Nat.le_of_succ_le_succ h)]
          · exact absurd h (Nat.not_succ_le_zero n)

theorem drop_rest (body : UploadBody) (n : Nat) : (body.drop n).rest = body.rest := by
  cases body with
  | value v => rfl
  | iterator producer => cases producer <;> rfl

theorem Underway.remaining (h : Underway body u.wsi ps) (hturn : BodyInTurn body u) :
    body.parts = ps ++ u.body.parts ∧ u.body.rest = body.rest := by
  have hlength : u.wsi.written.length = ps.length := by rw [h.written, List.length_map]
  unfold BodyInTurn at hturn
  rw [hlength] at hturn
  refine ⟨?_, hturn ▸ drop_rest body ps.length⟩
  have hsplit := parts_split h.parts.length_le
  rwa [← List.prefix_iff_eq_take.1 h.parts, ← hturn] at hsplit

theorem parts_cons {r : Option IterResult} (results : List (Option IterResult))
    (h : yields r = true) : (UploadBody.iterator (.sync (r :: results))).parts
      = resultBytes r :: (UploadBody.iterator (.sync results)).parts := by
  rw [UploadBody.parts, List.takeWhile_cons, if_pos h]
  rfl

theorem parts_end {r : Option IterResult} (results : List (Option IterResult))
    (h : yields r = false) : (UploadBody.iterator (.sync (r :: results))).parts = [] := by
  rw [UploadBody.parts, List.takeWhile_cons, h]
  rfl

/-- A value that is yielded goes out unless it is a typed array, and so does one that is returned;
the first should, the second should not. -/
theorem bytes_carried_iff (v : JSValue) (done : Bool) :
    (if v.isTypedArray then [] else v.bytes) = (if done then [] else v.bytes) ↔
      v.bytes = [] ∨ v.isTypedArray = done := by
  cases done <;> cases v.isTypedArray
  · exact iff_of_true rfl (.inr rfl)
  · exact ⟨fun h => .inl h.symm, fun h => (h.resolve_right (by decide)).symm⟩
  · exact ⟨fun h => .inl h, fun h => h.resolve_right (by decide)⟩
  · exact iff_of_true rfl (.inr rfl)

/-- A write that is not final is the next value of the body exactly when the value is carried. -/
theorem carried_next_iff (h : body.input.2.2 = false) :
    [body.input.2.1.getD []] <+: body.parts ↔ body.Carried := by
  cases body with
  | value v =>
    have hlast : v.isObject = true ∨ v.isNullish = true := by
      by_contra hno
      simp only [UploadBody.input, Bool.or_eq_true, if_neg hno] at h
      cases h
    simp only [UploadBody.parts, List.prefix_nil, reduceCtorEq, UploadBody.Carried, false_iff,
      not_and_or, Bool.not_eq_false]
    exact hlast
  | iterator producer =>
    cases producer with
    | async => simp [UploadBody.parts, UploadBody.Carried]
    | sync results =>
      cases results with
      | nil => cases h
      | cons r results =>
        cases r with
        | none =>
          rw [parts_cons results rfl]
          exact iff_of_true (List.cons_prefix_cons.2 ⟨rfl, List.nil_prefix⟩) trivial
        | some r =>
          have hdone : r.done = false := h
          rw [parts_cons results (by rw [yields, hdone]; rfl), List.cons_prefix_cons,
            and_iff_left List.nil_prefix]
          have hiff := bytes_carried_iff r.value r.done
          rw [← result_input r.value r.done, if_neg (Bool.eq_false_iff.1 hdone)] at hiff
          exact hiff

/-- The final write is what is left of the body exactly when the value is carried. -/
theorem carried_last_iff (h : body.input.2.2 = true) :
    body.input.2.1.getD [] = body.bytes ↔ body.Carried := by
  cases body with
  | value v =>
    have hno : v.isObject = false ∧ v.isNullish = false := by
      rw [← Bool.or_eq_false_iff]
      by_contra hlast
      simp only [UploadBody.input, Bool.not_eq_false _ ▸ hlast, if_true] at h
      cases h
    refine iff_of_true ?_ hno
    cases v <;> first | rfl | cases hno.1
  | iterator producer =>
    cases producer with
    | async => cases h
    | sync results =>
      cases results with
      | nil => exact iff_of_true rfl trivial
      | cons r results =>
        cases r with
        | none => cases h
        | some r =>
          have hdone : r.done = true := h
          rw [UploadBody.bytes, parts_end results (by rw [yields, hdone]; rfl)]
          have hiff := bytes_carried_iff r.value r.done
          rw [← result_input r.value r.done, if_pos hdone] at hiff
          exact hiff

/-! ## A whole run -/

theorem write_uploads_iff (hturn : BodyInTurn body u) (h : Uploads body u)
    (hwsi : u'.wsi = ⟨!u.body.input.2.2, u.wsi.written ++ [u.body.write]⟩) :
    Uploads body u' ↔ u.finished = false ∧ u.body.Carried := by
  have hwritten' : u'.wsi.written = u.wsi.written ++ [u.body.write] := congrArg Wsi.written hwsi
  rcases h with ⟨ps, hps⟩ | ⟨ps, last, hall⟩
  · rw [and_iff_right hps.finished]
    obtain ⟨hparts, hrest⟩ := hps.remaining hturn
    cases hdone : u.body.input.2.2 with
    | false =>
      have hwritten : u'.wsi.written = (ps ++ [u.body.input.2.1.getD []]).map notFinal := by
        rw [hwritten', hps.written, UploadBody.write, hdone, List.map_append]
        rfl
      have hreq : u'.wsi.requested = true := by rw [hwsi, hdone]; rfl
      rw [← carried_next_iff hdone, ← @List.prefix_append_right_inj _ _ _ ps, ← hparts]
      exact uploads_notFinal_iff hreq hwritten
    | true =>
      have hwritten : u'.wsi.written
          = ps.map notFinal ++ [⟨u.body.input.2.1.getD [], lwsWriteHttpFinal⟩] := by
        rw [hwritten', hps.written, UploadBody.write, hdone]
        rfl
      have hbytes : body.bytes = ps.flatten ++ u.body.bytes := by
        rw [UploadBody.bytes, UploadBody.bytes, hparts, hrest, List.flatten_append,
          List.append_assoc]
      rw [← carried_last_iff hdone, ← @List.append_cancel_left_eq _ ps.flatten, ← hbytes]
      exact uploads_final_iff hwritten
  · refine iff_of_false (not_uploads_behind (hwritten'.trans (by rw [hall.written]))) ?_
    intro hnot
    exact absurd (hall.finished.symm.trans hnot.1) (by decide)

/-- A handler that has another event asked for changes nothing; after the final write none does. -/
theorem handler_uploads_iff (h : Uploads body u) (hwsi : u'.wsi = ⟨call.asks, u.wsi.written⟩) :
    Uploads body u' ↔ u.finished = true ∨ call.asks = true := by
  have hwritten : u'.wsi.written = u.wsi.written := by rw [hwsi]
  have hreq : u'.wsi.requested = call.asks := by rw [hwsi]
  rcases h with ⟨ps, hps⟩ | ⟨ps, last, hall⟩
  · rw [hps.finished]
    refine ⟨?_, ?_⟩
    · rintro (⟨ps', hps'⟩ | ⟨ps', last, hall⟩)
      · exact .inr (hreq.symm.trans hps'.requested)
      · refine absurd ?_ (final_not_mem last ps)
        rw [← hps.written, ← hwritten, hall.written]
        exact List.mem_append_right _ List.mem_cons_self
    · intro hasks
      exact .inl ⟨ps, hwritten.trans hps.written, hps.parts,
        hreq.trans (hasks.resolve_left Bool.false_ne_true)⟩
  · exact iff_of_true (.inr ⟨ps, last, hwritten.trans hall.written, hall.bytes⟩) (.inl hall.finished)

theorem Uploads.request (h : Uploads body u) (hwritten : u'.wsi.written = u.wsi.written)
    (hreq : u.wsi.requested = true → u'.wsi.requested = true) : Uploads body u' := by
  rcases h with ⟨ps, hps⟩ | ⟨ps, last, hall⟩
  · exact .inl ⟨ps, hwritten.trans hps.written, hps.parts, hreq hps.requested⟩
  · exact .inr ⟨ps, last, hwritten.trans hall.written, hall.bytes⟩

theorem uploadStep_uploads_iff (u : ClientUpload) (e : UploadEvent) (u' : ClientUpload)
    (hturn : BodyInTurn body u) (h : Uploads body u)
    (hstep : uploadStep boundNext heap u e = some u') :
    Uploads body u' ↔ Proceeds boundNext u e := by
  rcases uploadStep_cases hstep with ⟨call, rfl, hreq, hon, hreadable, -, hwsi⟩ |
    ⟨call, fn, rfl, hreq, hon, -, hwsi⟩ | ⟨hother, -, hwritten, hreq⟩
  · simp only [Proceeds, hon, hreq, forall_const, and_iff_right hreadable]
    exact write_uploads_iff hturn h hwsi
  · simp only [Proceeds, hon, hreq, forall_const]
    exact handler_uploads_iff h hwsi
  · refine iff_of_true (h.request hwritten hreq) ?_
    cases e with
    | writeable call =>
      intro hreq
      exact absurd ((hother call rfl).symm.trans hreq) Bool.false_ne_true
    | established => trivial
    | setOnWriteable value => trivial

theorem Proceeds.step {e : UploadEvent} (h : Proceeds boundNext u e) :
    ∃ u', uploadStep boundNext heap u e = some u' := by
  cases e with
  | writeable call =>
    simp only [uploadStep]
    split
    · next hreq =>
      cases hon : u.onWriteable with
      | none =>
        have hnext := h hreq
        rw [hon] at hnext
        exact ⟨_, writeable_write heap call hon hnext.2.1⟩
      | some fn =>
        simp only [httpClientWriteable, hon]
        exact ⟨_, rfl⟩
    · exact ⟨u, rfl⟩
  | established => exact ⟨_, rfl⟩
  | setOnWriteable value => exact ⟨_, rfl⟩

/-- **When a body is uploaded.** No event of a run fails and in every state the writes are the
values of the body in order, each write that is not final has an event asked for behind it, and the
one final write comes last and completes the body's bytes, exactly when every writeable event comes
before the final write, and takes a value that is carried. -/
theorem client_uploads_iff (boundNext : Bool) (heap : Nat → UInt8) (body : UploadBody)
    (onWriteable : Option JSValue) (events : List UploadEvent) :
    PartialRun.Survives (uploadStep boundNext heap) (Uploads body) (.new body onWriteable) events ↔
      PartialRun.Admits (uploadStep boundNext heap) (Proceeds boundNext) (.new body onWriteable)
        events := by
  have hturn : BodyInTurn body (.new body onWriteable) := by
    cases body with
    | value v => rfl
    | iterator producer => cases producer <;> rfl
  have hnew : Uploads body (.new body onWriteable) := .inl ⟨[], rfl, List.nil_prefix, rfl⟩
  refine PartialRun.survives_iff_admits uploadStep_bodyInTurn ?_ events hturn hnew
  intro u e hturn h
  refine ⟨?_, ?_⟩
  · rintro ⟨u', hstep, hu'⟩
    exact (uploadStep_uploads_iff u e u' hturn h hstep).1 hu'
  · intro hok
    obtain ⟨u', hstep⟩ := @Proceeds.step boundNext heap u e hok
    exact ⟨u', hstep, (uploadStep_uploads_iff u e u' hturn h hstep).2 hok⟩

/-- An object without a method `next` is not written, nor does its upload end. -/
theorem object_not_uploaded {v : JSValue} (hv : (v.isObject || v.isNullish) = true)
    (onWriteable : Option JSValue) (events : List UploadEvent)
    (hrun : PartialRun.run (uploadStep boundNext heap) (.new (.value v) onWriteable) events
      = some u) : ∀ w ∈ u.wsi.written, w = notFinal [] := by
  have hinput : (UploadBody.value v).input = (.value v, none, false) := if_pos hv
  let Silent (u : ClientUpload) : Prop := u.body = .value v ∧ ∀ w ∈ u.wsi.written, w = notFinal []
  have hstep : ∀ u e u', Silent u → uploadStep boundNext heap u e = some u' → Silent u' := by
    rintro u e u' ⟨hbody, hall⟩ hstep
    rcases uploadStep_cases hstep with ⟨call, -, -, -, -, hbody', hwsi⟩ |
      ⟨call, fn, -, -, -, hbody', hwsi⟩ | ⟨-, hbody', hwritten, -⟩
    · refine ⟨by rw [hbody', hbody, hinput], ?_⟩
      intro w hw
      rw [hwsi] at hw
      rcases List.mem_append.1 hw with hw | hw
      · exact hall w hw
      · rw [List.mem_singleton.1 hw, UploadBody.write, hbody, hinput]
        rfl
    · exact ⟨hbody'.trans hbody, fun w hw => hall w (by rwa [hwsi] at hw)⟩
    · exact ⟨hbody'.trans hbody, fun w hw => hall w (hwritten ▸ hw)⟩
  have hnew : Silent (.new (.value v) onWriteable) := ⟨rfl, fun w hw => absurd hw List.not_mem_nil⟩
  exact (PartialRun.run_induct hstep events hnew hrun).2

/-- The array buffer with the byte `a`: the first write has nothing of it and is not final, and
neither is any other of a run, however long. -/
theorem client_uploads_nothing :
    (∃ u, PartialRun.run (uploadStep true fun _ => 0) (.new (.value (.arrayBuffer [97])) none)
        [.writeable ⟨[], .undefined⟩] = some u ∧
      u.wsi = ⟨true, [⟨[], lwsWriteHttp⟩]⟩ ∧ ¬ Uploads (.value (.arrayBuffer [97])) u) ∧
    ∀ events u, PartialRun.run (uploadStep true fun _ => 0) (.new (.value (.arrayBuffer [97])) none)
      events = some u → ∀ w ∈ u.wsi.written, w = ⟨[], lwsWriteHttp⟩ := by
  refine ⟨?_, fun events u hrun => object_not_uploaded rfl none events hrun⟩
  have hrun := @writeable_write true (.new (.value (.arrayBuffer [97])) none) (fun _ => 0)
    ⟨[], .undefined⟩ rfl trivial
  refine ⟨_, PartialRun.run_cons_iff.2 ⟨_, hrun, rfl⟩, rfl, ?_⟩
  rintro (⟨ps, hps⟩ | ⟨ps, last, hall⟩)
  · have hnil : ps = [] := List.prefix_nil.1 hps.parts
    exact absurd (hnil ▸ hps.written) (by decide)
  · exact absurd hall.finished (by decide)

end QjsNet
