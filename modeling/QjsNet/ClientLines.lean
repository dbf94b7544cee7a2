import QjsNet.ClientReceive
import QjsNet.QueueLines

/- A client with line buffering.

   Its receive queue holds the pieces of what it has not handed over: one item a line, and
   the beginning of the last one (`queuePutline_pieces`). An event with the final flag
   hands over every item, whether its line is complete or not, and an event without it
   hands over none (`clientStep_pieces`).

   So the messages are the lines of the stream exactly as long as every final event
   ends with the end of a line and no other event has one in it
   (`client_delivers_lines_iff`). Data of a raw connection is always final: the first event
   that stops inside a line breaks it up (`client_breaks_line`). -/
namespace QjsNet

/-! ## One event -/

/-- A client and the bytes it has received. -/
structure ReceivedStream where
  client : MinnetClient
  stream : Bytes
  deriving DecidableEq, Repr

def receivedStep (s : ReceivedStream) (ev : ClientEvent) : Option ReceivedStream :=
  (clientStep s.client ev).map fun client => ⟨client, s.stream ++ ev.data⟩

/-- What is handed over, followed by what the queue holds in pieces, is the stream. -/
structure Buffered (s : ReceivedStream) (handed : List Bytes) (held : Bytes) : Prop where
  lineBuffered : s.client.lineBuffered = true
  messages : s.client.messages = handed.map .string
  items : s.client.queue.items = (Lines.pieces isNewline held).map chunkItem
  stream : s.stream = handed.flatten ++ held

variable {s s' : ReceivedStream} {handed : List Bytes} {held data : Bytes}

theorem new_buffered (binary : Bool) (gen : Option Generator) (onMessage : Option JSValue)
    (wsObj : JSValue) (ctx : JSContext) :
    Buffered ⟨.new true binary gen onMessage wsObj ctx, []⟩ [] [] := ⟨rfl, rfl, rfl, rfl⟩

theorem Buffered.enqueued (h : Buffered s handed held) (first : Bool) (data : Bytes) :
    (s.client.enqueued first data).items = (Lines.pieces isNewline (held ++ data)).map chunkItem := by
  rw [MinnetClient.enqueued, h.lineBuffered, if_pos rfl]
  exact queuePutline_pieces h.items data

theorem Buffered.receive (h : Buffered s handed held) (raw first final : Bool) (data : Bytes) :
    clientReceive s.client raw first final data =
      if raw || final then
        drainRecvq (s.client.enqueued (raw || first) data).size
          (s.client.hold (s.client.enqueued (raw || first) data))
      else some (s.client.hold (s.client.enqueued (raw || first) data)) := by
  simp [clientReceive, h.lineBuffered]

theorem receive_final {raw first final : Bool} (h : Buffered s handed held)
    (hfinal : (raw || final) = true) (hstep : receivedStep s (.receive raw first final data) = some s') :
    Buffered s' (handed ++ Lines.pieces isNewline (held ++ data)) [] := by
  obtain ⟨client, hclient, rfl⟩ := Option.map_eq_some_iff.1 hstep
  rw [clientStep, h.receive, if_pos hfinal] at hclient
  have hitems := h.enqueued (raw || first) data
  obtain ⟨hhands, q, hq, hempty, -⟩ := drainRecvq_chunks _ rfl hitems
    (by rw [Queue.size_eq, hitems, List.length_map]) hclient
  have hmessages : client.messages = s.client.messages
      ++ (Lines.pieces isNewline (held ++ data)).map s.client.message := hhands.messages
  have hstring : s.client.message = .string := by
    funext d
    simp [MinnetClient.message, h.lineBuffered]
  refine ⟨hhands.lineBuffered.trans h.lineBuffered, ?_, ?_, ?_⟩
  · rw [hmessages, h.messages, hstring, List.map_append]
  · rw [MinnetClient.queue, hq]
    exact hempty
  · rw [h.stream, List.flatten_append, Lines.pieces_flatten, List.append_nil, List.append_assoc]
    rfl

theorem receive_more_to_come {raw first final : Bool} (h : Buffered s handed held)
    (hfinal : (raw || final) = false) (hstep : receivedStep s (.receive raw first final data) = some s') :
    Buffered s' handed (held ++ data) := by
  obtain ⟨client, hclient, rfl⟩ := Option.map_eq_some_iff.1 hstep
  rw [clientStep, h.receive, hfinal, if_neg Bool.false_ne_true] at hclient
  obtain rfl := Option.some.inj hclient
  refine ⟨h.lineBuffered, h.messages, h.enqueued (raw || first) data, ?_⟩
  rw [h.stream, List.append_assoc]
  rfl

theorem script_buffered {gen : Option Generator} {onMessage : Option JSValue}
    (h : Buffered s handed held) (hstep : receivedStep s (.script gen onMessage) = some s') :
    Buffered s' handed held := by
  obtain rfl := Option.some.inj hstep
  exact ⟨h.lineBuffered, h.messages, h.items, (List.append_nil _).trans h.stream⟩

theorem receivedStep_buffered (s : ReceivedStream) (ev : ClientEvent) (s' : ReceivedStream)
    (h : ∃ handed held, Buffered s handed held) (hstep : receivedStep s ev = some s') :
    ∃ handed held, Buffered s' handed held := by
  obtain ⟨handed, held, h⟩ := h
  cases ev with
  | script gen onMessage => exact ⟨_, _, script_buffered h hstep⟩
  | receive raw first final data =>
    cases hfinal : raw || final with
    | true => exact ⟨_, _, receive_final h hfinal hstep⟩
    | false => exact ⟨_, _, receive_more_to_come h hfinal hstep⟩

/-- The pieces go to the receiver at that time. -/
theorem receivedStep_hands {ev : ClientEvent} (h : ∃ handed held, Buffered s handed held)
    (hstep : receivedStep s ev = some s') : HandsOver s.client ev s'.client := by
  obtain ⟨handed, held, h⟩ := h
  obtain ⟨client, hclient, rfl⟩ := Option.map_eq_some_iff.1 hstep
  cases ev with
  | script gen onMessage =>
    obtain rfl := Option.some.inj hclient
    exact ⟨[], (List.append_nil _).symm, rfl, rfl⟩
  | receive raw first final data =>
    have hitems := h.enqueued (raw || first) data
    rw [clientStep, h.receive] at hclient
    cases hfinal : raw || final with
    | true =>
      rw [hfinal, if_pos rfl] at hclient
      obtain ⟨hhands, -⟩ := drainRecvq_chunks _ rfl hitems
        (by rw [Queue.size_eq, hitems, List.length_map]) hclient
      exact ⟨_, hhands.handed, hhands.taken⟩
    | false =>
      rw [hfinal, if_neg Bool.false_ne_true] at hclient
      obtain rfl := Option.some.inj hclient
      exact ⟨[], (List.append_nil _).symm, rfl⟩

/-! ## Lines -/

/-- The messages so far are the complete lines of the stream. -/
def DeliversLines (s : ReceivedStream) : Prop :=
  s.client.messages = (Lines.lines isNewline s.stream).map .string

/-- The stream stops between two lines after a final event, and an event that is not final has no
end of a line in it. -/
def StopsAtLine (s : ReceivedStream) : ClientEvent → Prop
  | .receive raw _ final data =>
    if raw || final then ∀ b ∈ (s.stream ++ data).getLast?, isNewline b = true
    else ∀ b ∈ data, isNewline b = false
  | .script .. => True

theorem Buffered.delivers_iff (h : Buffered s handed held) :
    DeliversLines s ↔ handed = Lines.lines isNewline s.stream := by
  unfold DeliversLines
  rw [h.messages]
  exact (List.map_injective_iff.2 fun _ _ heq => JSValue.string.inj heq).eq_iff

theorem Buffered.held_rest (h : Buffered s handed held)
    (hlines : handed = Lines.lines isNewline s.stream) : held = Lines.rest isNewline s.stream := by
  have hstream := (@Lines.flatten_rest _ isNewline s.stream).trans h.stream
  rw [hlines] at hstream
  exact (List.append_cancel_left hstream).symm

theorem delivers_step_iff (s : ReceivedStream) (ev : ClientEvent) (s' : ReceivedStream)
    (h : ∃ handed held, Buffered s handed held) (hlines : DeliversLines s)
    (hstep : receivedStep s ev = some s') : DeliversLines s' ↔ StopsAtLine s ev := by
  obtain ⟨handed, held, h⟩ := h
  have hhanded := h.delivers_iff.1 hlines
  have hheld := h.held_rest hhanded
  have hstream : s'.stream = s.stream ++ ev.data := by
    obtain ⟨client, -, rfl⟩ := Option.map_eq_some_iff.1 hstep
    rfl
  have hsplit := @Lines.lines_append _ isNewline s.stream ev.data
  rw [← hheld, ← hhanded] at hsplit
  cases ev with
  | script gen onMessage =>
    rw [(script_buffered h hstep).delivers_iff, hstream]
    exact iff_of_true (hhanded.trans (congrArg _ (List.append_nil _).symm)) trivial
  | receive raw first final data =>
    simp only [ClientEvent.data] at hstream hsplit
    simp only [StopsAtLine]
    cases hfinal : raw || final with
    | true =>
      rw [if_pos rfl, (receive_final h hfinal hstep).delivers_iff, hstream, hsplit.1,
        List.append_right_inj, Lines.pieces_eq_lines_iff, ← Lines.rest_eq_nil_iff, hsplit.2]
    | false =>
      have hfree : ∀ b ∈ held, isNewline b = false := hheld ▸ Lines.rest_free
      rw [if_neg Bool.false_ne_true, (receive_more_to_come h hfinal hstep).delivers_iff, hstream,
        hsplit.1, List.self_eq_append_right, Lines.lines_eq_nil_iff, List.forall_mem_append]
      exact and_iff_right hfree

/-- A client with line buffering delivers the lines of the stream in every state of a run exactly
when no event of it leaves a line broken or waiting. What it delivers it hands to the receiver of
the time. -/
theorem client_delivers_lines_iff (binary : Bool) (gen : Option Generator)
    (onMessage : Option JSValue) (wsObj : JSValue) (ctx : JSContext) (es : List ClientEvent) :
    (PartialRun.Throughout receivedStep DeliversLines
        ⟨.new true binary gen onMessage wsObj ctx, []⟩ es ↔
      PartialRun.Meets receivedStep StopsAtLine ⟨.new true binary gen onMessage wsObj ctx, []⟩ es) ∧
    ∀ pre ev post s₁ s₂, es = pre ++ ev :: post →
      PartialRun.run receivedStep ⟨.new true binary gen onMessage wsObj ctx, []⟩ pre = some s₁ →
      receivedStep s₁ ev = some s₂ → HandsOver s₁.client ev s₂.client := by
  have hnew : ∃ handed held, Buffered ⟨.new true binary gen onMessage wsObj ctx, []⟩ handed held :=
    ⟨[], [], new_buffered binary gen onMessage wsObj ctx⟩
  refine ⟨PartialRun.throughout_iff_meets receivedStep_buffered delivers_step_iff es hnew rfl, ?_⟩
  intro pre ev post s₁ s₂ _ hpre hstep
  exact receivedStep_hands (PartialRun.run_induct receivedStep_buffered pre hnew hpre) hstep

/-- `a` and then the rest of the line, from a raw connection: two messages instead of one. -/
theorem client_breaks_line :
    ∃ s, PartialRun.run receivedStep
        ⟨.new true false none (some (.function 1)) .undefined .new, []⟩
        [.receive true true true [97], .receive true true true [98, 10]] = some s ∧
      s.client.messages = [.string [97], .string [98, 10]] ∧
      Lines.lines isNewline s.stream = [[97, 98, 10]] ∧ ¬ DeliversLines s := by
  refine ⟨_, rfl, rfl, by decide, ?_⟩
  unfold DeliversLines
  decide

end QjsNet
