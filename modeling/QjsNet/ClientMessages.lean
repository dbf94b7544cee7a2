import QjsNet.ClientReceive

/- Reassembly of fragmented messages by a client without line buffering.

   Between two messages the receive queue is empty, and inside one it holds one
   item with the fragments so far (`RecvqHolds`). Each event either goes on with that item
   or hands the whole message over, so whatever the script does in between, a run
   hands over exactly the messages that were sent (`client_reassembles`). -/
namespace QjsNet

/-- The events of the fragments of a message of a WebSocket; `first` for the beginning of it. -/
def fragmentEvents : Bool → List Bytes → List ClientEvent
  | _, [] => []
  | first, [d] => [.receive false first true d]
  | first, d :: ds => .receive false first false d :: fragmentEvents false ds

/-- The receive queue holds these chunks, and is not in continuous mode. -/
structure RecvqHolds (c : MinnetClient) (chunks : List Bytes) : Prop where
  items : c.queue.items = chunks.map chunkItem
  separate : c.queue.continuous = false
  unbuffered : c.lineBuffered = false

variable {c c' : MinnetClient} {chunks : List Bytes} {d e : Bytes}

theorem RecvqHolds.hands {msgs : List JSValue} (h : RecvqHolds c chunks) (hhands : Hands c c' msgs) :
    RecvqHolds c' chunks := by
  have hqueue : c'.queue = c.queue := by
    rw [MinnetClient.queue, MinnetClient.queue, hhands.recvq]
  exact ⟨hqueue ▸ h.items, hqueue ▸ h.separate, hhands.lineBuffered.trans h.unbuffered⟩

theorem Emptied.holds (h : Emptied c c' chunks) (hc : c.queue.continuous = false)
    (hline : c.lineBuffered = false) : RecvqHolds c' [] := by
  obtain ⟨q, hq, hitems, hcont⟩ := h.empty
  have hqueue : c'.queue = q := by
    rw [MinnetClient.queue, hq]
    rfl
  exact ⟨by rw [hqueue, hitems]; rfl, by rw [hqueue, hcont]; exact hc,
    h.hands.lineBuffered.trans hline⟩

/-! ## One event -/

theorem receive_single (h : RecvqHolds c chunks) (d : Bytes) :
    clientReceive c false true true d = c.handOver (c.message d) := by
  simp [clientReceive, h.unbuffered]

theorem queueWrite_separate {q : Queue} (hopen : OpenItems q.items) (hc : q.continuous = false)
    (data : Bytes) : (queueWrite q data).1 = q.addTail (chunkItem data) := by
  unfold queueWrite
  rw [hc, if_neg Bool.false_ne_true]
  simp only [queueAdd_open hopen]
  rfl

theorem receive_first (h : RecvqHolds c []) (d : Bytes) : ∃ c', clientReceive c false true false d = some c' ∧
    RecvqHolds c' [d] ∧ c'.handed = c.handed ∧ c'.gen = c.gen ∧ c'.message = c.message := by
  have hopen : OpenItems c.queue.items := h.items ▸ openItems_nil
  refine ⟨c.hold (c.queue.addTail (chunkItem d)), ?_, ⟨?_, h.separate, h.unbuffered⟩, rfl, rfl, rfl⟩
  · simp [clientReceive, MinnetClient.enqueued, h.unbuffered,
      queueWrite_separate hopen h.separate]
  · show (c.queue.addTail (chunkItem d)).items = _
    rw [addTail_items, h.items]
    rfl

theorem queueAppend_held (h : RecvqHolds c [e]) (d : Bytes) :
    ((queueAppend c.queue d).1).items = [chunkItem (e ++ d)] ∧
      ((queueAppend c.queue d).1).continuous = false := by
  have hitems : c.queue.items = [chunkItem e] := h.items
  have hlast : queueLastChunk c.queue = some 0 := by
    rw [queueLastChunk, hitems]
    exact lastIdx?_snoc (by simp [QueueItem.isChunk, chunkItem]) []
  unfold queueAppend
  rw [hlast]
  refine ⟨?_, h.separate⟩
  rw [modify_items, hitems]
  rfl

theorem receive_more (h : RecvqHolds c [e]) (d : Bytes) : ∃ c', clientReceive c false false false d = some c' ∧
    RecvqHolds c' [e ++ d] ∧ c'.handed = c.handed ∧ c'.gen = c.gen ∧ c'.message = c.message := by
  obtain ⟨hitems, hcont⟩ := queueAppend_held h d
  refine ⟨c.hold (queueAppend c.queue d).1, ?_, ⟨hitems, hcont, h.unbuffered⟩, rfl, rfl, rfl⟩
  simp [clientReceive, MinnetClient.enqueued, h.unbuffered]

theorem receive_last (h : RecvqHolds c [e]) (d : Bytes) : clientReceive c false false true d
    = drainRecvq (queueAppend c.queue d).1.size (c.hold (queueAppend c.queue d).1) := by
  simp [clientReceive, MinnetClient.enqueued, h.unbuffered]

theorem receive_last_hands (h : RecvqHolds c [e]) (heq : clientReceive c false false true d = some c') :
    RecvqHolds c' [] ∧ c'.messages = c.messages ++ [c.message (e ++ d)] ∧ c'.message = c.message := by
  obtain ⟨hitems, hcont⟩ := queueAppend_held h d
  rw [receive_last h d] at heq
  have hempty := @drainRecvq_chunks [e ++ d] (c.hold (queueAppend c.queue d).1) c'
    (queueAppend c.queue d).1 _ rfl hitems (by rw [Queue.size_eq, hitems]; exact Nat.le_refl 1) heq
  exact ⟨hempty.holds hcont h.unbuffered, hempty.hands.messages, hempty.hands.message⟩

/-! ## Any order of events -/

/-- What is left to come: the rest of a message that has begun with `acc`, and then the messages. -/
def Remaining (acc : Option (Bytes × List Bytes)) (ms : List (List Bytes)) : List ClientEvent :=
  acc.elim [] (fun a => fragmentEvents false a.2) ++ ms.flatMap (fragmentEvents true)

/-- The messages that will be complete then. -/
def remainingMessages (acc : Option (Bytes × List Bytes)) (ms : List (List Bytes)) : List Bytes :=
  acc.toList.map (fun a => a.1 ++ a.2.flatten) ++ ms.map List.flatten

/-- Where a message has begun, its last fragment is still to come. -/
structure Pending (c : MinnetClient) (acc : Option (Bytes × List Bytes)) (ms : List (List Bytes)) :
    Prop where
  holding : RecvqHolds c (acc.toList.map (·.1))
  rest : ∀ a ∈ acc, a.2 ≠ []
  fragments : ∀ m ∈ ms, m ≠ []

variable {acc : Option (Bytes × List Bytes)} {ms : List (List Bytes)} {ev : ClientEvent}
  {evs : List ClientEvent}

theorem Pending.begun {ds : List Bytes} (hholding : RecvqHolds c [e]) (hds : ds ≠ [])
    (hms : ∀ m ∈ ms, m ≠ []) : Pending c (some (e, ds)) ms := by
  refine ⟨hholding, ?_, hms⟩
  intro a ha
  obtain rfl := Option.some.inj ha
  exact hds

theorem Pending.between (hholding : RecvqHolds c []) (hms : ∀ m ∈ ms, m ≠ []) :
    Pending c none ms := ⟨hholding, fun a ha => absurd ha (Option.not_mem_none a), hms⟩

theorem messages_of_handed (h : c'.handed = c.handed) :
    c'.messages = c.messages ++ ([] : List Bytes).map c.message := by
  rw [MinnetClient.messages, MinnetClient.messages, h, List.map_nil, List.append_nil]

/-- The event is the next fragment: the message goes on or is handed over. -/
theorem Pending.receive (h : Pending c acc ms) (hnext : Remaining acc ms = ev :: evs)
    (hstep : clientStep c ev = some c') : ∃ acc' ms' msgs, Pending c' acc' ms' ∧
      Remaining acc' ms' = evs ∧ c'.messages = c.messages ++ msgs.map c.message ∧
      c'.message = c.message ∧ remainingMessages acc ms = msgs ++ remainingMessages acc' ms' := by
  cases acc with
  | some a =>
    obtain ⟨e, ds⟩ := a
    have hholding : RecvqHolds c [e] := h.holding
    obtain ⟨d, ds, rfl⟩ := List.exists_cons_of_ne_nil (h.rest (e, ds) rfl)
    cases ds with
    | nil =>
      obtain ⟨rfl, rfl⟩ := List.cons.inj hnext
      obtain ⟨hholding', hmessages, hmessage⟩ := receive_last_hands hholding hstep
      exact ⟨none, ms, [e ++ d], .between hholding' h.fragments, rfl, hmessages, hmessage,
        by simp [remainingMessages]⟩
    | cons d' ds =>
      obtain ⟨rfl, rfl⟩ := List.cons.inj hnext
      obtain ⟨c₁, heq, hholding', hhanded, -, hmessage⟩ := receive_more hholding d
      obtain rfl : c₁ = c' := Option.some.inj (heq.symm.trans hstep)
      exact ⟨some (e ++ d, d' :: ds), ms, [], .begun hholding' (List.cons_ne_nil _ _) h.fragments,
        rfl, messages_of_handed hhanded, hmessage, by simp [remainingMessages]⟩
  | none =>
    have hholding : RecvqHolds c [] := h.holding
    cases ms with
    | nil => cases hnext
    | cons m ms =>
      obtain ⟨d, ds, rfl⟩ := List.exists_cons_of_ne_nil (h.fragments m List.mem_cons_self)
      have hrest : ∀ m ∈ ms, m ≠ [] := fun m hm => h.fragments m (List.mem_cons_of_mem _ hm)
      cases ds with
      | nil =>
        obtain ⟨rfl, rfl⟩ := List.cons.inj hnext
        have hhands := handOver_hands ((receive_single hholding d).symm.trans hstep)
        exact ⟨none, ms, [d], .between (hholding.hands hhands) hrest, rfl, hhands.messages,
          hhands.message, by simp [remainingMessages]⟩
      | cons d' ds =>
        obtain ⟨rfl, rfl⟩ := List.cons.inj hnext
        obtain ⟨c₁, heq, hholding', hhanded, -, hmessage⟩ := receive_first hholding d
        obtain rfl : c₁ = c' := Option.some.inj (heq.symm.trans hstep)
        exact ⟨some (d, d' :: ds), ms, [], .begun hholding' (List.cons_ne_nil _ _) hrest, rfl,
          messages_of_handed hhanded, hmessage, by simp [remainingMessages]⟩

theorem Pending.over (h : Pending c acc ms) (hnone : Remaining acc ms = []) :
    acc = none ∧ ms = [] := by
  cases acc with
  | some a =>
    obtain ⟨d, ds, hds⟩ := List.exists_cons_of_ne_nil (h.rest a rfl)
    simp only [Remaining, Option.elim_some, hds] at hnone
    cases ds <;> cases hnone
  | none =>
    cases ms with
    | nil => exact ⟨rfl, rfl⟩
    | cons m ms =>
      obtain ⟨d, ds, rfl⟩ := List.exists_cons_of_ne_nil (h.fragments m List.mem_cons_self)
      cases ds <;> cases hnone

theorem Pending.run (es : List ClientEvent) : ∀ {c : MinnetClient}
    {acc : Option (Bytes × List Bytes)} {ms : List (List Bytes)}, Pending c acc ms →
    es.filter ClientEvent.isReceive = Remaining acc ms → PartialRun.run clientStep c es = some c' →
    c'.messages = c.messages ++ (remainingMessages acc ms).map c.message ∧ c'.queue.items = [] := by
  induction es with
  | nil =>
    intro c acc ms h hes hrun
    obtain rfl := Option.some.inj hrun
    obtain ⟨rfl, rfl⟩ := h.over hes.symm
    exact ⟨(List.append_nil _).symm, h.holding.items⟩
  | cons ev es ih =>
    intro c acc ms h hes hrun
    obtain ⟨c₁, hstep, hrest⟩ := PartialRun.run_cons_iff.1 hrun
    cases ev with
    | script gen onMessage =>
      obtain rfl := Option.some.inj hstep
      have hpending : Pending { c with gen, onMessage } acc ms :=
        ⟨⟨h.holding.items, h.holding.separate, h.holding.unbuffered⟩, h.rest, h.fragments⟩
      obtain ⟨hall, hempty⟩ := ih hpending hes hrest
      exact ⟨hall, hempty⟩
    | receive raw first final data =>
      obtain ⟨acc', ms', msgs, hpending, hrem, hmessages, hmessage, hleft⟩ :=
        h.receive hes.symm hstep
      obtain ⟨hall, hempty⟩ := ih hpending hrem.symm hrest
      refine ⟨?_, hempty⟩
      rw [hall, hmessages, hmessage, hleft, List.map_append, List.append_assoc]

/-! ## The events return -/

def ClientEvent.Cuts : ClientEvent → Prop
  | .receive .. => True
  | .script gen _ => ∀ g ∈ gen, g.Cuts

/-- The receive queue holds chunks. -/
def MinnetClient.Chunked (client : MinnetClient) : Prop :=
  ∃ chunks, RecvqHolds client chunks

theorem enqueued_chunked (h : RecvqHolds c chunks) (first : Bool) (d : Bytes) :
    ∃ chunks' : List Bytes, (c.enqueued first d).items = chunks'.map chunkItem ∧
      (c.enqueued first d).continuous = false := by
  have hopen : OpenItems c.queue.items := h.items ▸ chunkItems_open chunks
  unfold MinnetClient.enqueued
  rw [h.unbuffered, if_neg Bool.false_ne_true]
  cases first with
  | true =>
    rw [if_pos rfl, queueWrite_separate hopen h.separate]
    exact ⟨chunks ++ [d], by rw [addTail_items, h.items, List.map_append]; rfl, h.separate⟩
  | false =>
    rw [if_neg Bool.false_ne_true]
    rcases List.eq_nil_or_concat' chunks with rfl | ⟨init, e, rfl⟩
    · have hlast : queueLastChunk c.queue = none := by
        rw [queueLastChunk, h.items]
        rfl
      rw [queueAppend, hlast]
      simp only [queueAdd_open hopen]
      exact ⟨[d], by rw [addTail_items, h.items]; rfl, h.separate⟩
    · have hitems : c.queue.items = init.map chunkItem ++ [chunkItem e] := by
        rw [h.items, List.map_append]
        rfl
      have hlast : queueLastChunk c.queue = some (init.map chunkItem).length := by
        rw [queueLastChunk, hitems]
        exact lastIdx?_snoc (by simp [QueueItem.isChunk, chunkItem]) _
      rw [queueAppend, hlast]
      refine ⟨init ++ [e ++ d], ?_, h.separate⟩
      rw [modify_items, hitems, modify_snoc, List.map_append]
      rfl

theorem clientStep_total (hcuts : c.Cuts) (hchunked : c.Chunked) (ev : ClientEvent) (hev : ev.Cuts) :
    ∃ c', clientStep c ev = some c' ∧ c'.Cuts ∧ c'.Chunked := by
  obtain ⟨chunks, h⟩ := hchunked
  cases ev with
  | script gen onMessage =>
    exact ⟨_, rfl, hev, chunks, h.items, h.separate, h.unbuffered⟩
  | receive raw first final d =>
    obtain ⟨chunks', hitems, hcont⟩ := enqueued_chunked h (raw || first) d
    have hhold : RecvqHolds (c.hold (c.enqueued (raw || first) d)) chunks' :=
      ⟨hitems, hcont, h.unbuffered⟩
    simp only [clientStep, clientReceive]
    split
    · obtain ⟨c', heq, hcuts'⟩ := handOver_total hcuts (c.message d)
      exact ⟨c', heq, hcuts', chunks, h.hands (handOver_hands heq)⟩
    · split
      · obtain ⟨c', heq, hcuts'⟩ := @drainRecvq_total chunks'
          (c.hold (c.enqueued (raw || first) d)) _ (c.enqueued (raw || first) d).size hcuts rfl hitems
        have hempty := drainRecvq_chunks chunks' rfl hitems
          (by rw [Queue.size_eq, hitems, List.length_map]) heq
        exact ⟨c', heq, hcuts', [], hempty.holds hcont h.unbuffered⟩
      · exact ⟨_, rfl, hcuts, chunks', hhold⟩

theorem clientStep_hands {ev : ClientEvent} (hchunked : c.Chunked) (h : clientStep c ev = some c') :
    c'.Chunked ∧ HandsOver c ev c' := by
  obtain ⟨chunks, hholds⟩ := hchunked
  cases ev with
  | script gen onMessage =>
    obtain rfl := Option.some.inj h
    exact ⟨⟨chunks, hholds.items, hholds.separate, hholds.unbuffered⟩, [],
      (List.append_nil _).symm, rfl, rfl⟩
  | receive raw first final d =>
    obtain ⟨chunks', hitems, hcont⟩ := enqueued_chunked hholds (raw || first) d
    simp only [clientStep, clientReceive] at h
    split at h
    · have hhands := handOver_hands h
      exact ⟨⟨chunks, hholds.hands hhands⟩, hhands.handsOver⟩
    · split at h
      · have hempty := drainRecvq_chunks chunks' rfl hitems
          (by rw [Queue.size_eq, hitems, List.length_map]) h
        exact ⟨⟨[], hempty.holds hcont hholds.unbuffered⟩, _, hempty.hands.handed,
          hempty.hands.taken⟩
      · obtain rfl := Option.some.inj h
        exact ⟨⟨chunks', hitems, hcont, hholds.unbuffered⟩, [], (List.append_nil _).symm, rfl⟩

theorem clientRun_total (es : List ClientEvent) : ∀ {c : MinnetClient}, c.Cuts → c.Chunked →
    (∀ ev ∈ es, ev.Cuts) → ∃ c', PartialRun.run clientStep c es = some c' := by
  induction es with
  | nil => exact fun {c} _ _ _ => ⟨c, rfl⟩
  | cons ev es ih =>
    intro c hcuts hchunked hes
    obtain ⟨c₁, hstep, hcuts₁, hchunked₁⟩ :=
      clientStep_total hcuts hchunked ev (hes ev List.mem_cons_self)
    obtain ⟨c', hrun⟩ := ih hcuts₁ hchunked₁ fun e he => hes e (List.mem_cons_of_mem _ he)
    exact ⟨c', PartialRun.run_cons_iff.2 ⟨c₁, hstep, hrun⟩⟩

/-- Whatever fragments the messages come in, the client hands over the messages, one after the
other, each to the receiver of the time, by the calls of `generator_yield` and of the handler that
it makes; the queue is empty afterwards, and every event returns unless the generator does not. -/
theorem client_reassembles (hline : c.lineBuffered = false) (hrecvq : c.recvq = none)
    (hms : ∀ m ∈ ms, m ≠ []) {es : List ClientEvent}
    (hes : es.filter ClientEvent.isReceive = ms.flatMap (fragmentEvents true)) :
    (∀ c', PartialRun.run clientStep c es = some c' →
      c'.messages = c.messages ++ ms.map (fun m => c.message m.flatten) ∧ c'.queue.items = []) ∧
    (∀ pre ev post c₁ c₂, es = pre ++ ev :: post → PartialRun.run clientStep c pre = some c₁ →
      clientStep c₁ ev = some c₂ → HandsOver c₁ ev c₂) ∧
    (c.Cuts → (∀ ev ∈ es, ev.Cuts) → ∃ c', PartialRun.run clientStep c es = some c') := by
  have hqueue : c.queue = queueNew := by
    rw [MinnetClient.queue, hrecvq]
    rfl
  have hholds : RecvqHolds c [] := ⟨by rw [hqueue]; rfl, by rw [hqueue]; rfl, hline⟩
  refine ⟨?_, ?_, ?_⟩
  · intro c' hrun
    obtain ⟨hmessages, hempty⟩ := Pending.run es (Pending.between hholds hms) hes hrun
    refine ⟨?_, hempty⟩
    rw [hmessages, remainingMessages, Option.toList_none, List.map_nil, List.nil_append, List.map_map]
    rfl
  · intro pre ev post c₁ c₂ _ hpre hstep
    have hchunked : c₁.Chunked := PartialRun.run_induct
      (fun s i s' hs hs' => (clientStep_hands hs hs').1) pre ⟨[], hholds⟩ hpre
    exact (clientStep_hands hchunked hstep).2
  · intro hcuts hall
    exact clientRun_total es hcuts ⟨[], hholds⟩ hall

/-- `ab` in three fragments, the middle one empty, and `c` in one. -/
theorem client_reassembles_two :
    ∃ c', PartialRun.run clientStep (.new false false none (some (.function 1)) .undefined .new)
        [.receive false true false [97], .receive false false false [],
          .receive false false true [98], .receive false true true [99]] = some c' ∧
      c'.messages = [.string [97, 98], .string [99]] := by
  obtain ⟨hmessages, -, hreturns⟩ := @client_reassembles
    (.new false false none (some (.function 1)) .undefined .new) [[[97], [], [98]], [[99]]] rfl rfl
    (by decide)
    [.receive false true false [97], .receive false false false [], .receive false false true [98],
      .receive false true true [99]] rfl
  obtain ⟨c', hrun⟩ := hreturns (fun gen hgen => nomatch hgen) (by simp [ClientEvent.Cuts])
  exact ⟨c', hrun, (hmessages c' hrun).1⟩

end QjsNet
