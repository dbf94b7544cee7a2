import QjsNet.HttpSends
import QjsNet.Lib.MaximalRuns

/- What an HTTP response puts on the wire.

   The chunks of the body come from a synchronous generator, from an asynchronous one,
   whose promises are settled one at a time, or stand in the queue of a Response's body
   with its end. What the functions that write the headers return is the same all along.
   Then writeable events and settled promises come in any order in which libwebsockets
   and the script can bring them, until nothing is asked for and no promise is pending.

   What is proved:
     1. `doomed_lost` — from a generator's state, some order of events ends badly: the end
        is queued alone, so no write is the final one, and a chunk without data is taken
        for the end;
     2. `body_written`, `body_unwritten` — the first event writes a body that is in one
        chunk or has no data, and of any other the first chunk only;
     3. `stopped_not_onWire` — nothing of a body is written when the first event returns
        after the headers;
     4. `http_wire_iff` — every order of events ends well exactly for the bodies whose
        first event writes everything. -/
namespace QjsNet

open MaximalRuns

/-- Where the chunks of a body come from. -/
inductive BodySource where
  | sync
  | async
  | body (head : ResponseHead)
  deriving DecidableEq, Repr

/-- A connection, and the chunks that the asynchronous generator has not given yet. -/
structure WireRun where
  conn : HttpConnection
  pending : List Bytes

inductive WireEvent where
  /-- `LWS_CALLBACK_HTTP_WRITEABLE`, and what its `qsize` holds before it is set. -/
  | writeable (qsize : Nat)
  /-- The promise of the asynchronous generator is settled. -/
  | settle

/-- A queue with chunks that have been put, and closed. -/
def closedQueue (chunks : List Bytes) : Option Queue := do
  let (q, _) ← queueClose (queuePuts queueNew chunks)
  some q

def wireStart (lws : LwsHttp) (ctx : JSContext) (chunks : List Bytes) :
    BodySource → Option WireRun
  | .sync => do
    let c ← serveCallback lws (.fresh ctx)
      (.generator (.sync (chunks.map fun c => some (chunkResult c))))
    some ⟨c, []⟩
  | .async => do
    let c ← serveCallback lws (.fresh ctx) (.generator .async)
    some ⟨c, chunks⟩
  | .body head => do
    let q ← closedQueue chunks
    some ⟨{ HttpConnection.fresh ctx with bodyq := some q, hasResp := true, head }.wantWrite, []⟩

def wireStep (lws : LwsHttp) (headers : HeaderWrites) (s : WireRun) : WireEvent → Option WireRun
  | .writeable qsize => do
    let c ← httpWriteable lws headers qsize s.conn.woken
    some { s with conn := c }
  | .settle =>
    match s.pending with
    | [] => do
      let c ← serveResolved s.conn endResult
      some ⟨c, []⟩
    | chunk :: chunks => do
      let c ← serveResolved s.conn (chunkResult chunk)
      some ⟨c, chunks⟩

/-- An event comes when it has been asked for, a promise is settled when it is pending. -/
def WireEnabled (s : WireRun) : WireEvent → Prop
  | .writeable _ => s.conn.wsi.requested = true
  | .settle => s.conn.waitResolve ≠ 0

/-- The transaction is not completed before all bytes were written. -/
def WireSafe (chunks : List Bytes) (s : WireRun) : Prop :=
  s.conn.completed ≠ 0 → wireBytes s.conn.wsi.written = chunks.flatten

/-- The body as it should be on the wire. -/
structure WireWritten (chunks : List Bytes) (s : WireRun) : Prop where
  bytes : wireBytes s.conn.wsi.written = chunks.flatten
  announced : ∀ n, s.conn.announced = some n → n = chunks.flatten.length
  final : FinalLast s.conn.wsi.written

/-- How the response should end. -/
structure WireFinal (chunks : List Bytes) (s : WireRun) : Prop extends WireWritten chunks s where
  completed : s.conn.completed = 1

/-- How it ends with what libwebsockets does at the end of a file. -/
structure WireEnded (lws : LwsHttp) (chunks : List Bytes) (s : WireRun) : Prop
    extends WireWritten chunks s where
  completed : s.conn.completed = 1 + lws.fileCompletion

/-- Every order of events brings the body to the wire. -/
def OnWire (lws : LwsHttp) (headers : HeaderWrites) (ctx : JSContext) (source : BodySource)
    (chunks : List Bytes) : Prop :=
  ∃ s, wireStart lws ctx chunks source = some s ∧
    AllEnd (wireStep lws headers) WireEnabled (WireSafe chunks) (WireFinal chunks) s

variable {lws : LwsHttp} {headers : HeaderWrites} {c c' : HttpConnection} {qsize : Nat} {g : Producer}
  {items : List QueueItem} {written : List LwsWrite} {asked : Bool}

/-! ## States from which a generator's body goes wrong -/

/-- No write so far is the final one. -/
def Unfinished (written : List LwsWrite) : Prop := ∀ w ∈ written, w.protocol = lwsWriteHttp

theorem Unfinished.append {ws : List LwsWrite} (h : Unfinished written) (hws : Unfinished ws) :
    Unfinished (written ++ ws) := by
  intro w hw
  rcases List.mem_append.1 hw with hw | hw
  · exact h w hw
  · exact hws w hw

theorem Unfinished.not_finalLast (h : Unfinished written) (hne : written ≠ []) :
    ¬ FinalLast written := by
  intro hfinal
  have hpos : 0 < written.length := List.length_pos_iff.2 hne
  have hlast : written[written.length - 1]? = some (written.getLast hne) := by
    rw [← List.getLast?_eq_getElem?, List.getLast?_eq_some_getLast hne]
  have hprotocol := (hfinal _ _ hlast).2 (by omega)
  rw [h _ (List.getLast_mem hne)] at hprotocol
  exact absurd hprotocol (by decide)

inductive Doomed (headers : HeaderWrites) : WireRun → Prop
  /-- The transaction has been completed twice. -/
  | twice {s : WireRun} : 2 ≤ s.conn.completed → Doomed headers s
  /-- Nothing more will happen, and it was not completed or has no final write. -/
  | quiet {s : WireRun} : s.conn.waitResolve = 0 → s.conn.wsi.requested = false →
      (s.conn.completed = 0 ∨ (s.conn.wsi.written ≠ [] ∧ Unfinished s.conn.wsi.written)) → Doomed headers s
  /-- A generator without a chunk asks for events for ever. -/
  | loop {s : WireRun} : s.conn.waitResolve = 0 → s.conn.completed = 0 →
      s.conn.Sends headers (.sync []) [] [] true → Doomed headers s
  | chunk {s : WireRun} {chunk : Bytes} {chunks : List Bytes} {written : List LwsWrite} :
      s.conn.waitResolve = 0 → s.conn.completed = 0 →
      s.conn.Sends headers (.sync (chunks.map fun c => some (chunkResult c))) [chunkItem chunk] written true →
      Unfinished written → chunk ≠ [] ∨ written ≠ [] → Doomed headers s
  /-- The end is queued after the last chunk has been written. -/
  | ended {s : WireRun} {g : Producer} {written : List LwsWrite} : s.conn.waitResolve = 0 →
      s.conn.completed = 0 → s.conn.Sends headers g [doneItem] written true → Unfinished written →
      written ≠ [] → Doomed headers s
  /-- The transaction has been completed, and the end asks for another event. -/
  | ending {s : WireRun} {g : Producer} {chunks : List Bytes} {written : List LwsWrite} :
      1 ≤ s.conn.completed → s.conn.Sends headers g (chunks.map chunkItem ++ [doneItem]) written true →
      chunks.length ≤ 1 → Doomed headers s
  /-- A promise is pending, and there is a chunk before or after it. -/
  | promised {s : WireRun} {written : List LwsWrite} : s.conn.waitResolve = 1 →
      s.conn.completed = 0 → s.conn.Sends headers .async [] written false → Unfinished written →
      s.pending ≠ [] ∨ written ≠ [] → Doomed headers s
  | asyncChunk {s : WireRun} {chunk : Bytes} {written : List LwsWrite} : s.conn.waitResolve = 0 →
      s.conn.completed = 0 → s.conn.Sends headers .async [chunkItem chunk] written true →
      Unfinished written → Doomed headers s
  /-- The transaction has been completed while a promise is pending. -/
  | overdue {s : WireRun} {chunk : Bytes} {written : List LwsWrite} : s.conn.waitResolve = 1 →
      1 ≤ s.conn.completed → s.conn.Sends headers .async [chunkItem chunk] written false → Doomed headers s
  | overdueChunk {s : WireRun} {chunk chunk' : Bytes} {written : List LwsWrite} :
      s.conn.waitResolve = 0 → 1 ≤ s.conn.completed →
      s.conn.Sends headers .async [chunkItem chunk, chunkItem chunk'] written true → Doomed headers s

/-- From a state that is not well some event leads to another that is not. -/
abbrev WireLost (lws : LwsHttp) (headers : HeaderWrites) (chunks : List Bytes) (s : WireRun) : Prop :=
  Lost (wireStep lws headers) WireEnabled (WireSafe chunks) (WireFinal chunks) (Doomed headers) s

variable {chunks : List Bytes} {s : WireRun}

theorem lost_writeable (hreq : s.conn.wsi.requested = true)
    (h : httpWriteable lws headers 0 s.conn.woken = some c') (hdoomed : Doomed headers ⟨c', s.pending⟩) :
    WireLost lws headers chunks s := by
  refine Or.inr (Or.inr ⟨.writeable 0, hreq, ?_⟩)
  intro s' hs'
  have hstep : wireStep lws headers s (.writeable 0) = some ⟨c', s.pending⟩ := by
    show (httpWriteable lws headers 0 s.conn.woken).bind _ = _
    rw [h]
    rfl
  rw [hstep] at hs'
  exact Option.some.inj hs' ▸ hdoomed

theorem lost_settle {s' : WireRun} (hwait : s.conn.waitResolve = 1)
    (h : wireStep lws headers s .settle = some s') (hdoomed : Doomed headers s') :
    WireLost lws headers chunks s := by
  refine Or.inr (Or.inr ⟨.settle, ?_, ?_⟩)
  · show s.conn.waitResolve ≠ 0
    rw [hwait]
    exact Nat.one_ne_zero
  · intro t ht
    rw [h] at ht
    exact Option.some.inj ht ▸ hdoomed

theorem at_rest (hwait : s.conn.waitResolve = 0) (hreq : s.conn.wsi.requested = false) :
    ∀ e, ¬ WireEnabled s e := by
  intro e he
  cases e with
  | writeable qsize =>
    rw [show s.conn.wsi.requested = true from he] at hreq
    cases hreq
  | settle => exact he hwait

theorem quiet_lost (hwait : s.conn.waitResolve = 0) (hreq : s.conn.wsi.requested = false)
    (hnot : s.conn.completed = 0 ∨ (s.conn.wsi.written ≠ [] ∧ Unfinished s.conn.wsi.written)) :
    WireLost lws headers chunks s := by
  refine Or.inr (Or.inl ⟨at_rest hwait hreq, ?_⟩)
  intro hfinal
  rcases hnot with hzero | ⟨hne, hun⟩
  · rw [hfinal.completed] at hzero
    cases hzero
  · exact hun.not_finalLast hne hfinal.final

theorem httpWriteable_completed (h : httpWriteable lws headers qsize c = some c') :
    c.completed ≤ c'.completed := by
  unfold httpWriteable at h
  simp only at h
  split at h
  · obtain rfl := Option.some.inj h
    exact Nat.le_refl _
  · obtain ⟨⟨c₂, p₂, ret⟩, hrespond⟩ :
        ∃ r, serveResponse headers c.wantWrite.clearWantWrite (sessionQueue c) = r := ⟨_, rfl⟩
    have hresponded := (serveResponse_spec headers c.wantWrite.clearWantWrite (sessionQueue c)).2.1
    rw [hrespond] at h hresponded
    by_cases hret : ret ≠ 0
    · rw [if_pos hret] at h
      exact Option.some.inj h ▸ Nat.le_of_eq hresponded.symm
    rw [if_neg hret] at h
    obtain ⟨⟨c₃, p₃, size⟩, hfill, h⟩ := Option.bind_eq_some_iff.1 h
    obtain ⟨c₄, hwrite, hrefill⟩ := Option.bind_eq_some_iff.1 h
    have hfilled : c₃.completed = c₂.completed := by
      -- Filling and refilling only queue something; completion is up to the write.
      by_cases hun : c₂.Unfilled p₂ ∨ c₂.waitResolve ≠ 0
      · rw [fillQueue_unfilled hun] at hfill
        obtain ⟨rfl, -⟩ := Prod.mk.inj (Option.some.inj hfill)
        rfl
      · rw [not_or, not_not] at hun
        exact (fillQueue_filled hun.1 hun.2 hfill).1
    have hwritten : c₃.completed ≤ c₄.completed := by
      obtain ⟨-, ⟨-, rfl⟩ | ⟨hlt, -⟩ | ⟨q, n, -, -, -, -, rfl⟩⟩ := writeBody_cases hwrite
      · exact Nat.le_refl _
      · exact Nat.le_of_lt hlt
      · exact Nat.le_of_eq (afterChunk_spec lws c₃ (sessionQueue c₃) q n).2.symm
    calc c.completed = c₃.completed := (hfilled.trans hresponded).symm
      _ ≤ c₄.completed := hwritten
      _ = c'.completed := (refill_completed hrefill).symm

theorem serveResolved_completed {r : IterResult} (h : serveResolved c r = some c') :
    c'.completed = c.completed := by
  unfold serveResolved at h
  split at h
  · cases h
  · cases hdone : r.done with
    | false =>
      simp only [hdone, Bool.false_eq_true, if_false, Option.some.injEq] at h
      subst h
      cases jsBufferNew r.value <;> rfl
    | true =>
      simp only [hdone, if_true] at h
      obtain ⟨⟨q, n⟩, -, h⟩ := Option.bind_eq_some_iff.1 h
      obtain rfl := Option.some.inj h
      cases jsBufferNew r.value <;> rfl

theorem twice_lost (h : 2 ≤ s.conn.completed) :
    WireLost lws headers chunks s := by
  by_cases hreq : s.conn.wsi.requested = true
  · refine Or.inr (Or.inr ⟨.writeable 0, hreq, ?_⟩)
    intro s' hs'
    obtain ⟨c', hc', hs'⟩ := Option.bind_eq_some_iff.1 hs'
    obtain rfl := Option.some.inj hs'
    exact .twice (Nat.le_trans h (@httpWriteable_completed lws headers s.conn.woken c' 0 hc'))
  · by_cases hwait : s.conn.waitResolve = 0
    · refine Or.inr (Or.inl ⟨at_rest hwait (Bool.not_eq_true _ ▸ hreq), ?_⟩)
      intro hfinal
      rw [hfinal.completed] at h
      exact absurd h (by decide)
    · refine Or.inr (Or.inr ⟨.settle, hwait, ?_⟩)
      intro s' hs'
      unfold wireStep at hs'
      simp only at hs'
      split at hs'
      · obtain ⟨c', hc', hs'⟩ := Option.bind_eq_some_iff.1 hs'
        obtain rfl := Option.some.inj hs'
        exact .twice (serveResolved_completed hc' ▸ h)
      · obtain ⟨c', hc', hs'⟩ := Option.bind_eq_some_iff.1 hs'
        obtain rfl := Option.some.inj hs'
        exact .twice (serveResolved_completed hc' ▸ h)

theorem itemsSize_ne_zero (h : itemsSize items ≠ 0) : itemsBytes items ≠ [] := by
  intro hnil
  rw [itemsSize, hnil] at h
  exact h rfl

theorem chunkItem_bytes (data : Bytes) : itemsBytes [chunkItem data] = data := by
  rw [itemsBytes_cons, itemsBytes_nil, List.append_nil]
  rfl

theorem openItems_chunk (data : Bytes) : OpenItems [chunkItem data] := chunkItems_open [data]

/-- The writes of a chunk that is not the last one known. -/
theorem unfinished_chunk (hun : Unfinished written) (h2 : Bool) (data : Bytes) :
    Unfinished (written ++ bodyWrites h2 false lwsWriteHttp data.length data) :=
  hun.append (bodyWrites_open h2 lwsWriteHttp data.length data)

theorem writes_ne_nil {data : Bytes} (h : data ≠ [] ∨ written ≠ []) (h2 complete : Bool) (n : Int) :
    written ++ bodyWrites h2 complete n data.length data ≠ [] := by
  intro hnil
  obtain ⟨hwritten, hwrites⟩ := List.append_eq_nil_iff.1 hnil
  rcases h with h | h
  · exact h ((bodyWrites_eq_nil h2 complete n (Nat.le_refl _)).1 hwrites)
  · exact h hwritten

/-- The event that writes the end alone. -/
theorem ended_event (hwait : c.waitResolve = 0) (h : c.Sends headers g [doneItem] written true) :
    ∃ c', httpWriteable lws headers qsize c.woken = some c' ∧
      c'.completed = c.completed + 1 + lws.fileCompletion ∧ c'.waitResolve = 0 ∧
      c'.Sends headers g [doneItem] written false := by
  obtain ⟨c₂, hcompleted₂, hwait₂, h₂, hrun⟩ :=
    httpWriteable_asked lws qsize h (List.cons_ne_nil _ _)
  obtain ⟨c₄, hwrite, hcompleted₄, hwait₄, h₄⟩ :=
    writeBody_none lws h₂ (List.cons_ne_nil _ _) rfl
  have hfill := @fillQueue_ended lws c₂ qsize headers g [] written false h₂
  refine ⟨c₄, hrun hfill hwrite (refill_idle h₄ (Or.inl rfl)), ?_, ?_, h₄⟩
  · rw [hcompleted₄, hcompleted₂]
  · rw [hwait₄, hwait₂, hwait]

theorem ended_lost (hwait : s.conn.waitResolve = 0)
    (h : s.conn.Sends headers g [doneItem] written true) (hun : Unfinished written) (hne : written ≠ []) :
    WireLost lws headers chunks s := by
  obtain ⟨c', hevent, -, hwait', h'⟩ := @ended_event lws headers s.conn 0 g written hwait h
  refine lost_writeable h.requested hevent (.quiet hwait' h'.requested (Or.inr ?_))
  show c'.wsi.written ≠ [] ∧ Unfinished c'.wsi.written
  rw [h'.written]
  exact ⟨hne, hun⟩

theorem ending_lost {rest : List Bytes} (hcompleted : 1 ≤ s.conn.completed)
    (h : s.conn.Sends headers g (rest.map chunkItem ++ [doneItem]) written true) (hrest : rest.length ≤ 1) :
    WireLost lws headers chunks s := by
  obtain ⟨c₂, hcompleted₂, -, h₂, hrun⟩ :=
    httpWriteable_asked lws 0 h (List.append_ne_nil_of_right_ne_nil _ (List.cons_ne_nil _ _))
  have hfill := @fillQueue_ended lws c₂ 0 headers g _ written false h₂
  -- What is left is written, or has no data: either way the transaction is completed again.
  by_cases hbytes : itemsBytes (rest.map chunkItem ++ [doneItem]) = []
  · obtain ⟨c₄, hwrite, hcompleted₄, -, h₄⟩ :=
      writeBody_none lws h₂ (List.append_ne_nil_of_right_ne_nil _ (List.cons_ne_nil _ _)) hbytes
    refine lost_writeable h.requested (hrun hfill hwrite (refill_ended h₄)) (.twice ?_)
    show 2 ≤ c₄.completed
    omega
  · -- the last chunk has data
    obtain ⟨data, rfl⟩ : ∃ data, rest = [data] := by
      cases rest with
      | nil => exact absurd rfl hbytes
      | cons data rest =>
        cases rest with
        | nil => exact ⟨data, rfl⟩
        | cons data' rest => exact absurd hrest (by simp)
    have hdata : data ≠ [] := by
      intro h'
      obtain rfl := h'
      exact hbytes rfl
    obtain ⟨c₄, hwrite, hcompleted₄, -, h₄⟩ := writeBody_last lws h₂ hdata
    have hrefill := @refill_ended lws c₄ (itemsSize ([data].map chunkItem ++ [doneItem])) headers g [] _ _ h₄
    refine lost_writeable h.requested (hrun hfill hwrite hrefill) (.twice ?_)
    show 2 ≤ c₄.completed
    omega

/-- The generator is done before the last chunk, whose size is zero, is written. -/
theorem lastUnsized_lost (hbound : lws.boundNext = true) {chunk : Bytes} (hwait : s.conn.waitResolve = 0)
    (h : s.conn.Sends headers (.sync []) [chunkItem chunk] written true)
    (hsize : itemsSize [chunkItem chunk] = 0) :
    WireLost lws headers chunks s := by
  obtain ⟨c₂, -, hwait₂, h₂, hrun⟩ := httpWriteable_asked lws 0 h (List.cons_ne_nil _ _)
  have hopen := openItems_chunk chunk
  have hwait₂ : c₂.waitResolve = 0 := hwait₂.trans hwait
  obtain ⟨c₃, hserve, -, -, h₃⟩ := serveGenerator_end hbound h₂ hopen hwait₂
  obtain ⟨c₄, hfill, -, -, h₄⟩ :=
    @fillQueue_done lws c₂ 0 headers _ _ _ _ c₃ _ _ h₂ hopen (List.cons_ne_nil _ _) hwait₂ hsize hserve h₃
  by_cases hchunk : chunk = []
  · subst hchunk
    obtain ⟨c₅, hwrite, hcompleted₅, -, h₅⟩ := writeBody_none lws h₄ (List.cons_ne_nil _ _) rfl
    refine lost_writeable h.requested (hrun hfill hwrite (refill_idle h₅ (Or.inl rfl)))
      (@Doomed.ending headers ⟨c₅, s.pending⟩ _ [[]] written ?_ h₅ (Nat.le_refl 1))
    show 1 ≤ c₅.completed
    omega
  · obtain ⟨c₅, hwrite, hcompleted₅, -, h₅⟩ := writeBody_last lws h₄ hchunk
    refine lost_writeable h.requested (hrun hfill hwrite (refill_idle h₅ (Or.inl rfl)))
      (@Doomed.ending headers ⟨c₅, s.pending⟩ _ [] _ ?_ h₅ (Nat.zero_le 1))
    show 1 ≤ c₅.completed
    omega

/-- The generator queues the next chunk before one whose size is zero is written. -/
theorem chunkUnsized_lost (hbound : lws.boundNext = true) {chunk next : Bytes} {rest : List Bytes} (hwait : s.conn.waitResolve = 0)
    (hcompleted : s.conn.completed = 0)
    (h : s.conn.Sends headers (.sync ((next :: rest).map fun c => some (chunkResult c))) [chunkItem chunk]
      written true)
    (hun : Unfinished written) (hdata : chunk ≠ [] ∨ written ≠ [])
    (hsize : itemsSize [chunkItem chunk] = 0) :
    WireLost lws headers chunks s := by
  obtain ⟨c₂, hcompleted₂, hwait₂, h₂, hrun⟩ :=
    httpWriteable_asked lws 0 h (List.cons_ne_nil _ _)
  have hopen := openItems_chunk chunk
  have hwait₂ : c₂.waitResolve = 0 := hwait₂.trans hwait
  obtain ⟨c₃, hserve, hcompleted₃, hwait₃, h₃⟩ := serveGenerator_chunk hbound h₂ hopen hwait₂
  have hfill := @fillQueue_more lws c₂ 0 headers _ _ _ _ c₃ h₂ hopen hwait₂ hsize hserve
  by_cases hbytes : itemsBytes ([chunkItem chunk] ++ [chunkItem next]) = []
  · -- both are taken for the end
    obtain ⟨c₄, hwrite, -, hwait₄, h₄⟩ :=
      writeBody_none lws h₃ (List.cons_ne_nil _ _) hbytes
    have hwritten : written ≠ [] := by
      refine hdata.resolve_left fun hne => hne ?_
      rw [itemsBytes_append, chunkItem_bytes, List.append_eq_nil_iff] at hbytes
      exact hbytes.1
    have hasked : c₄.wsi.requested = false := by
      rw [h₄.requested, hbytes]
      rfl
    refine lost_writeable h.requested (hrun hfill hwrite (refill_idle h₄ (Or.inl rfl)))
      (.quiet (hwait₄.trans hwait₃) hasked (Or.inr ?_))
    show c₄.wsi.written ≠ [] ∧ Unfinished c₄.wsi.written
    rw [h₄.written]
    exact ⟨hwritten, hun⟩
  · obtain ⟨c₄, hwrite, hcompleted₄, hwait₄, h₄⟩ :=
      writeBody_front lws h₃ (openItems_chunk next) hbytes
    rw [decide_eq_true hbytes, Bool.false_or] at h₄
    refine lost_writeable h.requested (hrun hfill hwrite (refill_idle h₄ (Or.inl rfl)))
      (@Doomed.chunk headers ⟨c₄, s.pending⟩ next rest _ (hwait₄.trans hwait₃) ?_ h₄
        (unfinished_chunk hun _ _) (Or.inr (writes_ne_nil hdata _ _ _)))
    show c₄.completed = 0
    omega

/-- A chunk with a size is written before the generator is asked for the next. -/
theorem chunkSized_lost (hbound : lws.boundNext = true) {chunk : Bytes} {rest : List Bytes} (hwait : s.conn.waitResolve = 0)
    (hcompleted : s.conn.completed = 0)
    (h : s.conn.Sends headers (.sync (rest.map fun c => some (chunkResult c))) [chunkItem chunk] written true)
    (hun : Unfinished written) (hsize : itemsSize [chunkItem chunk] ≠ 0) :
    WireLost lws headers chunks s := by
  obtain ⟨c₂, hcompleted₂, hwait₂, h₂, hrun⟩ :=
    httpWriteable_asked lws 0 h (List.cons_ne_nil _ _)
  have hfill := @fillQueue_sized lws c₂ 0 headers _ _ _ _ h₂ hsize
  have hchunk : chunk ≠ [] := chunkItem_bytes chunk ▸ itemsSize_ne_zero hsize
  obtain ⟨c₃, hwrite, hcompleted₃, hwait₃, h₃⟩ :=
    writeBody_front lws h₂ openItems_nil (itemsSize_ne_zero hsize)
  have hwait₃ : c₃.waitResolve = 0 := (hwait₃.trans hwait₂).trans hwait
  have hun₃ := unfinished_chunk hun lws.h2 chunk
  have hne₃ := writes_ne_nil (Or.inl hchunk : chunk ≠ [] ∨ written ≠ []) lws.h2 false lwsWriteHttp
  have hask := @refill_asks lws c₃ _ _ _ _ _ h₃ openItems_nil hwait₃ hsize
  cases rest with
  | nil =>
    obtain ⟨c₄, hserve, hcompleted₄, hwait₄, h₄⟩ := serveGenerator_end hbound h₃ openItems_nil hwait₃
    -- The generator is done after its last chunk is on the wire, so the end is queued alone.
    obtain ⟨c₅, hclose, hcompleted₅, hwait₅, h₅⟩ := closeAt_sendq h₄ openItems_nil
    have hrefill : refill lws c₃ .sendq (itemsSize [chunkItem chunk]) = some c₅ := by
      rw [hask, hserve]
      exact hclose
    refine lost_writeable h.requested (hrun hfill hwrite hrefill)
      (@Doomed.ended headers ⟨c₅, s.pending⟩ _ _ (hwait₅.trans hwait₄) ?_ h₅ hun₃ hne₃)
    show c₅.completed = 0
    omega
  | cons next rest =>
    obtain ⟨c₄, hserve, hcompleted₄, hwait₄, h₄⟩ := serveGenerator_chunk hbound h₃ openItems_nil hwait₃
    have hrefill : refill lws c₃ .sendq (itemsSize [chunkItem chunk]) = some c₄ := by
      rw [hask, hserve]
      rfl
    have hcompleted₄ : c₄.completed = 0 := by omega
    rw [List.nil_append, chunkItem_bytes, Bool.false_or] at h₄
    by_cases hnext : next = []
    · -- the next chunk asks for nothing
      have hasked : c₄.wsi.requested = false := by
        rw [h₄.requested, hnext]
        rfl
      exact lost_writeable h.requested (hrun hfill hwrite hrefill)
        (.quiet hwait₄ hasked (Or.inl hcompleted₄))
    · rw [decide_eq_true hnext] at h₄
      exact lost_writeable h.requested (hrun hfill hwrite hrefill)
        (@Doomed.chunk headers ⟨c₄, s.pending⟩ next rest _ hwait₄ hcompleted₄ h₄ hun₃ (Or.inl hnext))

theorem chunk_lost (hbound : lws.boundNext = true) {chunk : Bytes} {rest : List Bytes} (hwait : s.conn.waitResolve = 0)
    (hcompleted : s.conn.completed = 0)
    (h : s.conn.Sends headers (.sync (rest.map fun c => some (chunkResult c))) [chunkItem chunk] written true)
    (hun : Unfinished written) (hdata : chunk ≠ [] ∨ written ≠ []) :
    WireLost lws headers chunks s := by
  by_cases hsize : itemsSize [chunkItem chunk] = 0
  · cases rest with
    | nil => exact lastUnsized_lost hbound hwait h hsize
    | cons next rest => exact chunkUnsized_lost hbound hwait hcompleted h hun hdata hsize
  · exact chunkSized_lost hbound hwait hcompleted h hun hsize

theorem asyncChunk_lost (hbound : lws.boundNext = true) {chunk : Bytes} (hwait : s.conn.waitResolve = 0)
    (hcompleted : s.conn.completed = 0)
    (h : s.conn.Sends headers .async [chunkItem chunk] written true) (hun : Unfinished written) :
    WireLost lws headers chunks s := by
  obtain ⟨c₂, hcompleted₂, hwait₂, h₂, hrun⟩ :=
    httpWriteable_asked lws 0 h (List.cons_ne_nil _ _)
  have hopen := openItems_chunk chunk
  have hwait₂ : c₂.waitResolve = 0 := hwait₂.trans hwait
  have hun' := unfinished_chunk hun lws.h2 chunk
  by_cases hsize : itemsSize [chunkItem chunk] = 0
  · obtain ⟨c₃, hserve, hcompleted₃, hwait₃, h₃⟩ := serveGenerator_promise hbound h₂ hopen hwait₂
    have hfill := @fillQueue_more lws c₂ 0 headers _ _ _ _ c₃ h₂ hopen hwait₂ hsize hserve
    by_cases hchunk : chunk = []
    · -- the chunk is taken for the end
      obtain ⟨c₄, hwrite, hcompleted₄, hwait₄, h₄⟩ :=
        writeBody_none lws h₃ (List.cons_ne_nil _ _) (by rw [chunkItem_bytes, hchunk])
      refine lost_writeable h.requested (hrun hfill hwrite (refill_idle h₄ (Or.inl rfl)))
        (@Doomed.overdue headers ⟨c₄, s.pending⟩ chunk _ (hwait₄.trans hwait₃) ?_ h₄)
      show 1 ≤ c₄.completed
      omega
    · obtain ⟨c₄, hwrite, hcompleted₄, hwait₄, h₄⟩ :=
        writeBody_front lws h₃ openItems_nil (by rwa [chunkItem_bytes])
      refine lost_writeable h.requested (hrun hfill hwrite (refill_idle h₄ (Or.inl rfl)))
        (@Doomed.promised headers ⟨c₄, s.pending⟩ _ (hwait₄.trans hwait₃) ?_ h₄ hun'
          (Or.inr (writes_ne_nil (Or.inl hchunk) _ _ _)))
      show c₄.completed = 0
      omega
  · have hfill := @fillQueue_sized lws c₂ 0 headers _ _ _ _ h₂ hsize
    have hchunk : chunk ≠ [] := chunkItem_bytes chunk ▸ itemsSize_ne_zero hsize
    obtain ⟨c₃, hwrite, hcompleted₃, hwait₃, h₃⟩ :=
      writeBody_front lws h₂ openItems_nil (itemsSize_ne_zero hsize)
    have hwait₃ : c₃.waitResolve = 0 := hwait₃.trans hwait₂
    obtain ⟨c₄, hserve, hcompleted₄, hwait₄, h₄⟩ := serveGenerator_promise hbound h₃ openItems_nil hwait₃
    have hrefill : refill lws c₃ .sendq (itemsSize [chunkItem chunk]) = some c₄ := by
      rw [refill_asks h₃ openItems_nil hwait₃ hsize, hserve]
      rfl
    refine lost_writeable h.requested (hrun hfill hwrite hrefill)
      (@Doomed.promised headers ⟨c₄, s.pending⟩ _ hwait₄ ?_ h₄ hun'
        (Or.inr (writes_ne_nil (Or.inl hchunk) _ _ _)))
    show c₄.completed = 0
    omega

/-- A chunk that comes after the transaction has been completed. -/
theorem overdueChunk_lost (hbound : lws.boundNext = true) {chunk chunk' : Bytes} (hwait : s.conn.waitResolve = 0)
    (hcompleted : 1 ≤ s.conn.completed)
    (h : s.conn.Sends headers .async [chunkItem chunk, chunkItem chunk'] written true) :
    WireLost lws headers chunks s := by
  obtain ⟨c₂, hcompleted₂, hwait₂, h₂, hrun⟩ :=
    httpWriteable_asked lws 0 h (List.cons_ne_nil _ _)
  have hopen : OpenItems [chunkItem chunk, chunkItem chunk'] := chunkItems_open [chunk, chunk']
  have hopen' := openItems_chunk chunk'
  have hwait₂ : c₂.waitResolve = 0 := hwait₂.trans hwait
  by_cases hsize : itemsSize [chunkItem chunk, chunkItem chunk'] = 0
  · obtain ⟨c₃, hserve, hcompleted₃, hwait₃, h₃⟩ := serveGenerator_promise hbound h₂ hopen hwait₂
    have hfill := @fillQueue_more lws c₂ 0 headers _ _ _ _ c₃ h₂ hopen hwait₂ hsize hserve
    by_cases hbytes : itemsBytes [chunkItem chunk, chunkItem chunk'] = []
    · obtain ⟨c₄, hwrite, hcompleted₄, -, h₄⟩ :=
        writeBody_none lws h₃ (List.cons_ne_nil _ _) hbytes
      refine lost_writeable h.requested (hrun hfill hwrite (refill_idle h₄ (Or.inl rfl))) (.twice ?_)
      show 2 ≤ c₄.completed
      omega
    · obtain ⟨c₄, hwrite, hcompleted₄, hwait₄, h₄⟩ := writeBody_front lws h₃ hopen' hbytes
      refine lost_writeable h.requested (hrun hfill hwrite (refill_idle h₄ (Or.inl rfl)))
        (@Doomed.overdue headers ⟨c₄, s.pending⟩ chunk' _ (hwait₄.trans hwait₃) ?_ h₄)
      show 1 ≤ c₄.completed
      omega
  · have hfill := @fillQueue_sized lws c₂ 0 headers _ _ _ _ h₂ hsize
    obtain ⟨c₃, hwrite, hcompleted₃, hwait₃, h₃⟩ :=
      writeBody_front lws h₂ hopen' (itemsSize_ne_zero hsize)
    have hwait₃ : c₃.waitResolve = 0 := hwait₃.trans hwait₂
    obtain ⟨c₄, hserve, hcompleted₄, hwait₄, h₄⟩ := serveGenerator_promise hbound h₃ hopen' hwait₃
    have hrefill : refill lws c₃ .sendq (itemsSize [chunkItem chunk, chunkItem chunk']) = some c₄ := by
      rw [refill_asks h₃ hopen' hwait₃ hsize, hserve]
      rfl
    refine lost_writeable h.requested (hrun hfill hwrite hrefill)
      (@Doomed.overdue headers ⟨c₄, s.pending⟩ chunk' _ hwait₄ ?_ h₄)
    show 1 ≤ c₄.completed
    omega

theorem promised_lost (hwait : s.conn.waitResolve = 1) (hcompleted : s.conn.completed = 0)
    (h : s.conn.Sends headers .async [] written false) (hun : Unfinished written)
    (hmore : s.pending ≠ [] ∨ written ≠ []) :
    WireLost lws headers chunks s := by
  cases hpending : s.pending with
  | nil =>
    obtain ⟨c', hserve, hcompleted', hwait', h'⟩ := serveResolved_end h openItems_nil hwait
    have hstep : wireStep lws headers s .settle = some ⟨c', []⟩ := by
      simp only [wireStep, hpending, hserve]
      rfl
    exact lost_settle hwait hstep (@Doomed.ended headers ⟨c', []⟩ _ _ hwait' (hcompleted'.trans hcompleted)
      h' hun (hmore.resolve_left fun hne => hne hpending))
  | cons chunk rest =>
    obtain ⟨c', hserve, hcompleted', hwait', h'⟩ := serveResolved_chunk h openItems_nil hwait chunk
    have hstep : wireStep lws headers s .settle = some ⟨c', rest⟩ := by
      simp only [wireStep, hpending, hserve]
      rfl
    exact lost_settle hwait hstep
      (@Doomed.asyncChunk headers ⟨c', rest⟩ chunk _ hwait' (hcompleted'.trans hcompleted) h' hun)

theorem overdue_lost {chunk : Bytes} (hwait : s.conn.waitResolve = 1)
    (hcompleted : 1 ≤ s.conn.completed)
    (h : s.conn.Sends headers .async [chunkItem chunk] written false) :
    WireLost lws headers chunks s := by
  have hopen := openItems_chunk chunk
  cases hpending : s.pending with
  | nil =>
    obtain ⟨c', hserve, hcompleted', -, h'⟩ := serveResolved_end h hopen hwait
    have hstep : wireStep lws headers s .settle = some ⟨c', []⟩ := by
      simp only [wireStep, hpending, hserve]
      rfl
    refine lost_settle hwait hstep
      (@Doomed.ending headers ⟨c', []⟩ _ [chunk] _ ?_ h' (Nat.le_refl 1))
    exact hcompleted'.symm ▸ hcompleted
  | cons chunk' rest =>
    obtain ⟨c', hserve, hcompleted', hwait', h'⟩ := serveResolved_chunk h hopen hwait chunk'
    have hstep : wireStep lws headers s .settle = some ⟨c', rest⟩ := by
      simp only [wireStep, hpending, hserve]
      rfl
    refine lost_settle hwait hstep (@Doomed.overdueChunk headers ⟨c', rest⟩ chunk chunk' _ hwait' ?_ h')
    exact hcompleted'.symm ▸ hcompleted

theorem loop_lost (hbound : lws.boundNext = true) (hwait : s.conn.waitResolve = 0) (hcompleted : s.conn.completed = 0)
    (h : s.conn.Sends headers (.sync []) [] [] true) :
    WireLost lws headers chunks s := by
  obtain ⟨c₂, hcompleted₂, hwait₂, h₂, hrun⟩ :=
    httpWriteable_from lws 0 h (sessionQueue_none h) nofun
  have hwait₂ : c₂.waitResolve = 0 := hwait₂.trans hwait
  obtain ⟨c₃, hserve, hcompleted₃, hwait₃, h₃⟩ := serveGenerator_end hbound h₂ openItems_nil hwait₂
  have hfill : fillQueue lws c₂ .null 0 = some (c₃, .null, 0) := by
    have hnull : c₂.deref .null = none := rfl
    unfold fillQueue
    simp only [hnull, hwait₂, hserve, sessionQueue_none h₃, Option.all_none, Option.elim_none,
      Option.bind_eq_bind, Option.bind_some, decide_true, Bool.and_self, if_true, Bool.true_and]
    rfl
  exact lost_writeable h.requested (hrun hfill rfl (refill_idle h₃ (Or.inl rfl)))
    (.loop hwait₃ ((hcompleted₃.trans hcompleted₂).trans hcompleted) h₃)

theorem doomed_lost (hbound : lws.boundNext = true) (chunks : List Bytes) (s : WireRun) (h : Doomed headers s) :
    WireLost lws headers chunks s := by
  cases h with
  | twice h => exact twice_lost h
  | quiet hwait hreq hnot => exact quiet_lost hwait hreq hnot
  | loop hwait hcompleted h => exact loop_lost hbound hwait hcompleted h
  | chunk hwait hcompleted h hun hdata => exact chunk_lost hbound hwait hcompleted h hun hdata
  | ended hwait _ h hun hne => exact ended_lost hwait h hun hne
  | ending hcompleted h hrest => exact ending_lost hcompleted h hrest
  | promised hwait hcompleted h hun hmore => exact promised_lost hwait hcompleted h hun hmore
  | asyncChunk hwait hcompleted h hun => exact asyncChunk_lost hbound hwait hcompleted h hun
  | overdue hwait hcompleted h => exact overdue_lost hwait hcompleted h
  | overdueChunk hwait hcompleted h => exact overdueChunk_lost hbound hwait hcompleted h

theorem doomed_not_allEnd (hbound : lws.boundNext = true) (h : Doomed headers s) :
    ¬ AllEnd (wireStep lws headers) WireEnabled (WireSafe chunks) (WireFinal chunks) s :=
  not_allEnd (doomed_lost hbound chunks) h

/-! ## Headers that stop the event -/

/-- The response has not begun, and its first event returns after the headers. -/
structure HeadersStopped (headers : HeaderWrites) (s : WireRun) : Prop where
  waitResolve : s.conn.waitResolve = 0
  completed : s.conn.completed = 0
  leaves : s.conn.Leaves headers
  asked : s.conn.session.wantWrite = s.conn.wsi.requested

theorem stopped_not_allEnd (h : HeadersStopped headers s) :
    ¬ AllEnd (wireStep lws headers) WireEnabled (WireSafe chunks) (WireFinal chunks) s := by
  intro hend
  by_cases hreq : s.conn.wsi.requested = true
  · obtain ⟨c', hevent, hcompleted, hwait, hwsi⟩ :=
      httpWriteable_left lws 0 h.leaves (h.asked.trans hreq)
    have hstep : wireStep lws headers s (.writeable 0) = some ⟨c', s.pending⟩ := by
      show (httpWriteable lws headers 0 s.conn.woken).bind _ = _
      rw [hevent]
      rfl
    have hrest : ∀ e, ¬ WireEnabled ⟨c', s.pending⟩ e :=
      @at_rest ⟨c', s.pending⟩ (hwait.trans h.waitResolve) (congrArg Wsi.requested hwsi)
    have hfinal := allEnd_rest (allEnd_step (WireEvent.writeable 0) hend hreq hstep) hrest
    exact absurd ((hcompleted.trans h.completed).symm.trans hfinal.completed) (by decide)
  · have hrest := at_rest h.waitResolve (Bool.not_eq_true _ ▸ hreq)
    exact absurd (h.completed.symm.trans (allEnd_rest hend hrest).completed) (by decide)

/-! ## The generators -/

theorem fresh_leaves (ctx : JSContext) :
    (HttpConnection.fresh ctx).Leaves headers ↔ headers.Stops ⟨200, false⟩ :=
  and_iff_right rfl

theorem fresh_sends (ctx : JSContext) (g : Producer) (hstops : ¬ headers.Stops ⟨200, false⟩) :
    ({ HttpConnection.fresh ctx with generator := some g } : HttpConnection).Sends headers g [] []
      false :=
  ⟨rfl, rfl, rfl, rfl, rfl, rfl, rfl, fun h => hstops ((fresh_leaves ctx).1 h)⟩

theorem wireStart_unbound {ctx : JSContext} {source : BodySource} (hbound : lws.boundNext = false)
    (hsource : source = .sync ∨ source = .async) : wireStart lws ctx chunks source = none := by
  have hturn : ∀ (c : HttpConnection) (p : Producer),
      generatorTurn lws { c with generator := some p } = none := by
    intro c p
    simp only [generatorTurn, jsIteratorNext, hbound, Bool.false_eq_true, if_false,
      Option.bind_eq_bind, Option.bind_none]
  have hserve : ∀ (c : HttpConnection) (p : Producer),
      serveGenerator lws { c with generator := some p } = none := by
    intro c p
    unfold serveGenerator
    rw [hturn]
    split <;> rfl
  rcases hsource with rfl | rfl <;>
    simp only [wireStart, serveCallback, hserve, Option.bind_eq_bind, Option.bind_none]

theorem wireStart_sync {ctx : JSContext} {chunks : List Bytes} {done : Bool}
    (h : serveGenerator lws { HttpConnection.fresh ctx with
      generator := some (.sync (chunks.map fun c => some (chunkResult c))) } = some (c', done)) :
    wireStart lws ctx chunks .sync = some ⟨c', []⟩ := by
  simp only [wireStart, serveCallback, h, Option.bind_eq_bind, Option.bind_some]

theorem sync_start (hbound : lws.boundNext = true) (ctx : JSContext) (chunks : List Bytes)
    (hstops : ¬ headers.Stops ⟨200, false⟩) :
    ∃ s, wireStart lws ctx chunks .sync = some s ∧ Doomed headers s := by
  have hfresh := fresh_sends ctx (.sync (chunks.map fun c => some (chunkResult c))) hstops
  cases chunks with
  | nil =>
    obtain ⟨c', hserve, hcompleted, hwait, h'⟩ := serveGenerator_end hbound hfresh openItems_nil rfl
    exact ⟨⟨c', []⟩, wireStart_sync hserve, .loop hwait hcompleted h'⟩
  | cons chunk rest =>
    obtain ⟨c', hserve, hcompleted, hwait, h'⟩ :=
      serveGenerator_chunk hbound hfresh openItems_nil rfl
    refine ⟨⟨c', []⟩, wireStart_sync hserve, ?_⟩
    rw [List.nil_append, chunkItem_bytes, Bool.false_or] at h'
    by_cases hchunk : chunk = []
    · have hasked : c'.wsi.requested = false := by
        rw [h'.requested, hchunk]
        rfl
      exact .quiet hwait hasked (Or.inl hcompleted)
    · rw [decide_eq_true hchunk] at h'
      exact @Doomed.chunk headers ⟨c', []⟩ chunk rest [] hwait hcompleted h' nofun (Or.inl hchunk)

theorem good_goes : ¬ HeaderWrites.good.Stops ⟨200, false⟩ := by
  unfold HeaderWrites.Stops
  decide

theorem sync_stopped {ctx : JSContext} (hbound : lws.boundNext = true)
    (hs : wireStart lws ctx chunks .sync = some s) (hstops : headers.Stops ⟨200, false⟩) :
    HeadersStopped headers s := by
  obtain ⟨c', done, hserve, hcompleted, hwait, hasked⟩ : ∃ c' done,
      serveGenerator lws { HttpConnection.fresh ctx with
        generator := some (.sync (chunks.map fun c => some (chunkResult c))) } = some (c', done) ∧
      c'.completed = 0 ∧ c'.waitResolve = 0 ∧ c'.session.wantWrite = c'.wsi.requested := by
    -- what is asked for does not depend on the headers
    have hfresh := @fresh_sends .good ctx (.sync (chunks.map fun c => some (chunkResult c))) good_goes
    cases chunks with
    | nil =>
      obtain ⟨c', hserve, hcompleted, hwait, h'⟩ := serveGenerator_end hbound hfresh openItems_nil rfl
      exact ⟨c', true, hserve, hcompleted, hwait, h'.wantWrite.trans h'.requested.symm⟩
    | cons chunk rest =>
      obtain ⟨c', hserve, hcompleted, hwait, h'⟩ :=
        serveGenerator_chunk hbound hfresh openItems_nil rfl
      exact ⟨c', false, hserve, hcompleted, hwait, h'.wantWrite.trans h'.requested.symm⟩
  obtain ⟨hsent, hresp, hhead⟩ := serveGenerator_headers hserve
  obtain rfl := Option.some.inj (hs.symm.trans (wireStart_sync hserve))
  exact ⟨hwait, hcompleted,
    (@leaves_congr (.fresh ctx) c' headers hsent hresp hhead).2 ((fresh_leaves ctx).2 hstops), hasked⟩

theorem onWire_sync (lws : LwsHttp) (headers : HeaderWrites) (ctx : JSContext)
    (chunks : List Bytes) : ¬ OnWire lws headers ctx .sync chunks := by
  rintro ⟨s, hs, hend⟩
  cases hbound : lws.boundNext with
  | false =>
    rw [wireStart_unbound hbound (Or.inl rfl)] at hs
    cases hs
  | true =>
    by_cases hstops : headers.Stops ⟨200, false⟩
    · exact stopped_not_allEnd (sync_stopped hbound hs hstops) hend
    · obtain ⟨s', hs', hdoomed⟩ := sync_start hbound ctx chunks hstops
      obtain rfl := Option.some.inj (hs.symm.trans hs')
      exact doomed_not_allEnd hbound hdoomed hend

/-- The first promise. -/
def asyncStart (ctx : JSContext) : HttpConnection :=
  { HttpConnection.fresh ctx with generator := some .async, waitResolve := 1 }

theorem wireStart_async (hbound : lws.boundNext = true) (ctx : JSContext) (chunks : List Bytes) :
    wireStart lws ctx chunks .async = some ⟨asyncStart ctx, chunks⟩ := by
  have hserve : serveGenerator lws { HttpConnection.fresh ctx with generator := some .async }
      = some (asyncStart ctx, false) := by
    unfold serveGenerator generatorTurn jsIteratorNext
    rw [hbound]
    rfl
  simp only [wireStart, serveCallback, hserve, Option.bind_eq_bind, Option.bind_some]

theorem asyncStart_sends (ctx : JSContext) (hstops : ¬ headers.Stops ⟨200, false⟩) :
    (asyncStart ctx).Sends headers .async [] [] false :=
  ⟨rfl, rfl, rfl, rfl, rfl, rfl, rfl, fun h => hstops ((fresh_leaves ctx).1 h)⟩

theorem async_stopped (ctx : JSContext) (hstops : headers.Stops ⟨200, false⟩) :
    ∃ s, wireStep lws headers ⟨asyncStart ctx, chunks⟩ .settle = some s ∧ HeadersStopped headers s := by
  have hleaves : ∀ c : HttpConnection, c.responseSent = false → c.hasResp = false →
      c.head = ⟨200, false⟩ → c.Leaves headers := by
    intro c hsent hresp hhead
    exact (@leaves_congr (.fresh ctx) c headers hsent hresp hhead).2 ((fresh_leaves ctx).2 hstops)
  cases chunks with
  | nil => exact ⟨_, rfl, rfl, rfl, hleaves _ rfl rfl rfl, rfl⟩
  | cons chunk chunks => exact ⟨_, rfl, rfl, rfl, hleaves _ rfl rfl rfl, rfl⟩

theorem async_nil_run (lws : LwsHttp) (ctx : JSContext) (hstops : ¬ headers.Stops ⟨200, false⟩) :
    ∃ s s', wireStep lws headers ⟨asyncStart ctx, []⟩ .settle = some s ∧
      s.conn.wsi.requested = true ∧ s.conn.waitResolve = 0 ∧ s.conn.completed = 0 ∧
      (∀ qsize, wireStep lws headers s (.writeable qsize) = some s') ∧
      s'.conn.wsi = ⟨false, []⟩ ∧ s'.conn.waitResolve = 0 ∧ s'.conn.announced = some 0 ∧
      s'.conn.completed = 1 + lws.fileCompletion := by
  obtain ⟨redirect, commonFails, finalizeFails⟩ := headers
  obtain rfl : commonFails = false := by
    cases commonFails with
    | false => rfl
    | true => exact absurd (Or.inr (Or.inl ⟨rfl, rfl⟩)) hstops
  obtain rfl : finalizeFails = false := by
    cases finalizeFails with
    | false => rfl
    | true => exact absurd (Or.inr (Or.inr rfl)) hstops
  exact ⟨_, _, rfl, rfl, rfl, rfl, fun qsize => rfl, rfl, rfl, rfl, rfl⟩

theorem WireEnded.final_of (h : WireEnded lws chunks s) (hfile : lws.fileCompletion = 0) :
    WireFinal chunks s :=
  ⟨h.toWireWritten, by rw [h.completed, hfile]⟩

/-- An asynchronous generator that gives nothing ends well. -/
theorem async_nil_allEnd (lws : LwsHttp) (ctx : JSContext) (hstops : ¬ headers.Stops ⟨200, false⟩) :
    AllEnd (wireStep lws headers) WireEnabled (WireSafe []) (WireEnded lws [])
      ⟨asyncStart ctx, []⟩ := by
  obtain ⟨s, s', hsettle, hreq, hwait, hzero, hevent, hwsi, hwait', hannounced, hcompleted⟩ :=
    async_nil_run lws ctx hstops
  have hwritten : s'.conn.wsi.written = [] := by rw [hwsi]
  have hrest : AllEnd (wireStep lws headers) WireEnabled (WireSafe []) (WireEnded lws []) s' := by
    refine .rest (fun _ => by rw [hwritten]; rfl) (at_rest hwait' (by rw [hwsi])) ?_
    refine ⟨⟨by rw [hwritten]; rfl, ?_, by rw [hwritten]; exact finalLast_nil⟩, hcompleted⟩
    intro n hn
    rw [hannounced] at hn
    exact (Option.some.inj hn).symm
  have hnext : AllEnd (wireStep lws headers) WireEnabled (WireSafe []) (WireEnded lws []) s := by
    refine allEnd_next (WireEvent.writeable 0) (fun hne => absurd hzero hne) hreq ?_
    intro e he
    cases e with
    | writeable qsize => exact ⟨s', hevent qsize, hrest⟩
    | settle => exact absurd hwait he
  refine allEnd_next WireEvent.settle (fun hne => absurd rfl hne) Nat.one_ne_zero ?_
  intro e he
  cases e with
  | writeable qsize => cases he
  | settle => exact ⟨s, hsettle, hnext⟩

theorem onWire_async (lws : LwsHttp) (headers : HeaderWrites) (ctx : JSContext)
    (chunks : List Bytes) :
    OnWire lws headers ctx .async chunks ↔ lws.boundNext = true ∧ ¬ headers.Stops ⟨200, false⟩ ∧
      lws.fileCompletion = 0 ∧ chunks = [] := by
  refine ⟨?_, ?_⟩
  · rintro ⟨s, hs, hend⟩
    cases hbound : lws.boundNext with
    | false =>
      rw [wireStart_unbound hbound (Or.inr rfl)] at hs
      cases hs
    | true =>
      obtain rfl := Option.some.inj (hs.symm.trans (wireStart_async hbound ctx chunks))
      by_cases hstops : headers.Stops ⟨200, false⟩
      · obtain ⟨s, hsettle, hstopped⟩ := @async_stopped lws headers chunks ctx hstops
        exact absurd (allEnd_step WireEvent.settle hend Nat.one_ne_zero hsettle)
          (stopped_not_allEnd hstopped)
      · refine ⟨rfl, hstops, ?_⟩
        cases chunks with
        | cons chunk chunks =>
          exact absurd hend (doomed_not_allEnd hbound
            (@Doomed.promised headers ⟨asyncStart ctx, chunk :: chunks⟩ [] rfl rfl
              (asyncStart_sends ctx hstops) nofun (Or.inl (List.cons_ne_nil _ _))))
        | nil =>
          obtain ⟨s, s', hsettle, hreq, -, -, hevent, -, -, -, hcompleted⟩ :=
            async_nil_run lws ctx hstops
          have hsettled := allEnd_step WireEvent.settle hend Nat.one_ne_zero hsettle
          have hended := allEnd_step (WireEvent.writeable 0) hsettled hreq (hevent 0)
          refine ⟨?_, rfl⟩
          by_contra hne
          exact doomed_not_allEnd hbound (.twice (by omega)) hended
  · rintro ⟨hbound, hstops, hfile, rfl⟩
    exact ⟨_, wireStart_async hbound ctx [],
      MaximalRuns.allEnd_mono (fun s h => h.final_of hfile) (async_nil_allEnd lws ctx hstops)⟩

/-! ## The body's queue -/

theorem closedQueue_spec (chunks : List Bytes) :
    ∃ q, closedQueue chunks = some q ∧ q.items = chunks.map chunkItem ++ [doneItem] := by
  have hnew : OpenItems queueNew.items := openItems_nil
  obtain ⟨hitems, -⟩ := queuePuts_separate chunks hnew rfl
  have hopen : OpenItems (queuePuts queueNew chunks).items := by
    rw [hitems]
    exact openItems_append.2 ⟨openItems_nil, chunkItems_open chunks⟩
  refine ⟨(queuePuts queueNew chunks).addTail doneItem, ?_, ?_⟩
  · unfold closedQueue
    rw [queueClose_open hopen]
    rfl
  · rw [addTail_items, hitems]
    rfl

/-- A session that has been given a Response, and has asked for an event. -/
def bodyStart (ctx : JSContext) (head : ResponseHead) (q : Queue) : HttpConnection :=
  { HttpConnection.fresh ctx with bodyq := some q, hasResp := true, head }.wantWrite

/-- The same after its headers. -/
def bodyAnswered (ctx : JSContext) (head : ResponseHead) (q : Queue) : HttpConnection :=
  { HttpConnection.fresh ctx with
    bodyq := some q
    hasResp := true
    head
    responseSent := true
    announced := if head.redirects then none else some (queueBytes q) }

theorem bodyStart_leaves (ctx : JSContext) (head : ResponseHead) (q : Queue) :
    (bodyStart ctx head q).Leaves headers ↔ headers.Stops head := and_iff_right rfl

theorem body_event (lws : LwsHttp) (ctx : JSContext) {head : ResponseHead} {q : Queue} (qsize : Nat)
    (hstops : ¬ headers.Stops head) (hcomplete : queueComplete q = true) :
    httpWriteable lws headers qsize (bodyStart ctx head q).woken =
      (writeBody lws (bodyAnswered ctx head q) .body).bind fun c =>
        refill lws c .body (queueBytes q % 2 ^ 32) := by
  have hp : sessionQueue (bodyStart ctx head q).woken = .body := rfl
  have hwant : (bodyStart ctx head q).woken.session.wantWrite = true := rfl
  have hrespond : serveResponse headers (bodyStart ctx head q).woken.wantWrite.clearWantWrite .body
      = (bodyAnswered ctx head q, .body, 0) := by
    have hstays : (bodyStart ctx head q).woken.wantWrite.clearWantWrite.Stays headers :=
      fun h => hstops ((bodyStart_leaves ctx head q).1 h)
    rw [serveResponse_stays rfl hstays]
    show ({ bodyAnswered ctx head q with
      announced := if head.redirects then none else
        if queueComplete q then some (queueBytes q) else none }, QueuePtr.body, 0) = _
    rw [hcomplete]
    rfl
  have hun : (bodyAnswered ctx head q).Unfilled .body := by
    refine ⟨q, rfl, Or.inr ?_⟩
    rw [hcomplete, Bool.or_true]
  unfold httpWriteable
  simp only [hp, hwant, hrespond, Bool.not_true, Bool.false_and, Bool.false_eq_true, if_false, ne_eq,
    not_true_eq_false, fillQueue_unfilled (Or.inl hun), Option.bind_eq_bind, Option.bind_some]
  rfl

theorem bodyBytes {q : Queue} {chunks : List Bytes}
    (hitems : q.items = chunks.map chunkItem ++ [doneItem]) :
    queueBytes q = chunks.flatten.length := by
  calc queueBytes q = (itemsBytes (chunks.map chunkItem) ++ itemsBytes [doneItem]).length := by
        rw [queueBytes_eq, hitems, itemsBytes_append]
    _ = (chunks.flatten ++ []).length := by rw [itemsBytes_chunkItems]; rfl
    _ = chunks.flatten.length := by rw [List.append_nil]

/-- Of a redirect no length is announced. -/
theorem bodyAnswered_announced {ctx : JSContext} {head : ResponseHead} {q : Queue} (n : Nat)
    (h : (bodyAnswered ctx head q).announced = some n) : n = queueBytes q := by
  have h' : (if head.redirects then none else some (queueBytes q)) = some n := h
  split at h'
  · cases h'
  · exact (Option.some.inj h').symm

theorem body_front (lws : LwsHttp) (ctx : JSContext) (head : ResponseHead) {q : Queue} {data : Bytes}
    {rest : List QueueItem} (hitems : q.items = chunkItem data :: rest)
    (hbytes : queueBytes q ≠ 0) :
    httpServerWriteable lws (bodyAnswered ctx head q) (queueClosed q) =
      let c' := afterChunk lws (bodyAnswered ctx head q) .body q lwsWriteHttp
      some (if queueClosed q.delHead then (c'.complete 1, true) else (c', false)) := by
  have hclosed : queueClosed q = false := by
    rw [queueClosed, queueFront, hitems]
    rfl
  have hq : (bodyAnswered ctx head q).deref (sessionQueue (bodyAnswered ctx head q)) = some q := rfl
  rw [hclosed, httpServerWriteable_front hq hbytes hclosed]
  rfl

/-- A body with no data, or in one chunk, is written by the first event. -/
theorem body_written (lws : LwsHttp) (ctx : JSContext) (head : ResponseHead) {q : Queue} {chunks : List Bytes}
    (hitems : q.items = chunks.map chunkItem ++ [doneItem])
    (hone : chunks.flatten = [] ∨ chunks.length = 1) :
    ∃ c' q', writeBody lws (bodyAnswered ctx head q) .body = some c' ∧ c'.deref .body = some q' ∧
      queueComplete q' = true ∧ c'.waitResolve = 0 ∧ c'.wsi.requested = false ∧
      c'.completed = 1 + lws.fileCompletion ∧
      (∀ n, c'.announced = some n → n = queueBytes q) ∧
      wireBytes c'.wsi.written = chunks.flatten ∧ FinalLast c'.wsi.written := by
  by_cases hflat : chunks.flatten = []
  · have hzero : queueBytes q = 0 := by
      rw [bodyBytes hitems, hflat]
      rfl
    have hsize : ¬ q.size = 0 := by
      rw [q.size_eq, hitems, List.length_append]
      exact Nat.succ_ne_zero _
    have hq : (bodyAnswered ctx head q).deref (sessionQueue (bodyAnswered ctx head q)) = some q := rfl
    refine ⟨((bodyAnswered ctx head q).complete 1).complete lws.fileCompletion, q, ?_, rfl,
      queueComplete_ended hitems, rfl, rfl, rfl, @bodyAnswered_announced ctx head q, hflat.symm, finalLast_nil⟩
    show (httpServerWriteable lws (bodyAnswered ctx head q) (queueClosed q)).bind _ = _
    rw [httpServerWriteable_zero hq hzero]
    show some (if q.size = 0 then _ else _) = _
    rw [if_neg hsize]
  · obtain ⟨data, rfl⟩ := List.length_eq_one_iff.1 (hone.resolve_left hflat)
    have hbytes : queueBytes q ≠ 0 := by
      rw [bodyBytes hitems]
      exact fun h0 => hflat (List.length_eq_zero_iff.1 h0)
    have hrest : q.delHead.items = [doneItem] := by
      rw [delHead_items, hitems]
      rfl
    have hclosed : queueClosed q.delHead = true := by
      rw [queueClosed, queueFront, hrest]
      rfl
    have hcomplete : queueComplete q.delHead = true := @queueComplete_ended [] _ hrest
    have hsize : ¬ q.delHead.size = 0 := by
      rw [q.delHead.size_eq, hrest]
      exact Nat.one_ne_zero
    have hnext := queueNext_cons hitems rfl (bodyAnswered ctx head q).ctx
    have hwritten : (afterChunk lws (bodyAnswered ctx head q) .body q lwsWriteHttp).wsi.written
        = bodyWrites lws.h2 true lwsWriteHttp data.length data := by
      unfold afterChunk
      rw [hnext, hcomplete]
      exact List.nil_append _
    refine ⟨((afterChunk lws (bodyAnswered ctx head q) .body q lwsWriteHttp).complete 1).complete
      lws.fileCompletion, q.delHead, ?_, rfl, hcomplete, rfl, rfl, rfl, @bodyAnswered_announced ctx head q, ?_, ?_⟩
    · show (httpServerWriteable lws (bodyAnswered ctx head q) (queueClosed q)).bind _ = _
      rw [body_front lws ctx head hitems hbytes, hclosed]
      show some (if q.delHead.size = 0 then _ else _) = _
      rw [if_neg hsize]
    · refine (congrArg wireBytes hwritten).trans ?_
      rw [bodyWrites_data lws.h2 true lwsWriteHttp data.length data (Nat.le_refl _),
        List.flatten_singleton]
    · exact hwritten ▸ bodyWrites_final lws.h2 data.length data (Nat.le_refl _)

/-- Of any other body only the first chunk is written. -/
theorem body_unwritten (lws : LwsHttp) (ctx : JSContext) (head : ResponseHead) {q : Queue} {chunks : List Bytes}
    (hitems : q.items = chunks.map chunkItem ++ [doneItem])
    (hmore : ¬ (chunks.flatten = [] ∨ chunks.length = 1)) :
    ∃ c' q', writeBody lws (bodyAnswered ctx head q) .body = some c' ∧ c'.deref .body = some q' ∧
      queueComplete q' = true ∧ c'.waitResolve = 0 ∧ c'.wsi.requested = false ∧
      c'.completed = 0 := by
  obtain ⟨hflat, hlength⟩ := not_or.1 hmore
  obtain ⟨data, next, rest, rfl⟩ : ∃ data next rest, chunks = data :: next :: rest := by
    match chunks, hflat, hlength with
    | [], hflat, _ => exact absurd rfl hflat
    | [_], _, hlength => exact absurd rfl hlength
    | data :: next :: rest, _, _ => exact ⟨data, next, rest, rfl⟩
  have hbytes : queueBytes q ≠ 0 := by
    rw [bodyBytes hitems]
    exact fun h0 => hflat (List.length_eq_zero_iff.1 h0)
  have hrest : q.delHead.items = (next :: rest).map chunkItem ++ [doneItem] := by
    rw [delHead_items, hitems]
    rfl
  -- Another chunk stands in front, so the write does not complete the transaction.
  have hclosed : queueClosed q.delHead = false := by
    rw [queueClosed, queueFront, hrest]
    rfl
  refine ⟨afterChunk lws (bodyAnswered ctx head q) .body q lwsWriteHttp, q.delHead, ?_, rfl,
    queueComplete_ended hrest, rfl, rfl, rfl⟩
  show (httpServerWriteable lws (bodyAnswered ctx head q) (queueClosed q)).bind _ = _
  rw [body_front lws ctx head hitems hbytes, hclosed]
  rfl

/-- The first event of a Response's body is stopped. -/
theorem body_stopped {ctx : JSContext} {head : ResponseHead} {q : Queue}
    (hstops : headers.Stops head) : HeadersStopped headers ⟨bodyStart ctx head q, []⟩ :=
  ⟨rfl, rfl, (bodyStart_leaves ctx head q).2 hstops, rfl⟩

theorem wireStart_body {ctx : JSContext} {head : ResponseHead} {q : Queue}
    (hclose : closedQueue chunks = some q) :
    wireStart lws ctx chunks (.body head) = some ⟨bodyStart ctx head q, []⟩ := by
  simp only [wireStart, hclose, Option.bind_eq_bind, Option.bind_some]
  rfl

theorem body_step {ctx : JSContext} {head : ResponseHead} {q q' : Queue}
    (hstops : ¬ headers.Stops head) (hcomplete : queueComplete q = true)
    (hwrite : writeBody lws (bodyAnswered ctx head q) .body = some c')
    (hq' : c'.deref .body = some q') (hcomplete' : queueComplete q' = true) (qsize : Nat) :
    wireStep lws headers ⟨bodyStart ctx head q, []⟩ (.writeable qsize) = some ⟨c', []⟩ := by
  show (httpWriteable lws headers qsize (bodyStart ctx head q).woken).bind _ = _
  rw [body_event lws ctx qsize hstops hcomplete, hwrite]
  show (refill lws c' .body (queueBytes q % 2 ^ 32)).bind _ = _
  rw [refill_complete hq' hcomplete']
  rfl

/-- A body that the first event writes ends well. -/
theorem body_allEnd (lws : LwsHttp) (ctx : JSContext) {head : ResponseHead} {q : Queue}
    (hstops : ¬ headers.Stops head) (hitems : q.items = chunks.map chunkItem ++ [doneItem])
    (hone : chunks.flatten = [] ∨ chunks.length = 1) :
    AllEnd (wireStep lws headers) WireEnabled (WireSafe chunks) (WireEnded lws chunks)
      ⟨bodyStart ctx head q, []⟩ := by
  obtain ⟨c', q', hwrite, hq', hcomplete', hwait, hrequested, hcompleted, hannounced, hbytes,
    hfinal⟩ := body_written lws ctx head hitems hone
  have hreq : WireEnabled ⟨bodyStart ctx head q, []⟩ (.writeable 0) := rfl
  refine allEnd_next (WireEvent.writeable 0) (fun hne => absurd rfl hne) hreq ?_
  intro e he
  cases e with
  | settle => exact absurd rfl he
  | writeable qsize =>
    refine ⟨⟨c', []⟩,
      body_step hstops (queueComplete_ended hitems) hwrite hq' hcomplete' qsize,
      .rest (fun _ => hbytes) (at_rest hwait hrequested) ⟨⟨hbytes, ?_, hfinal⟩, hcompleted⟩⟩
    intro n hn
    rw [hannounced n hn, bodyBytes hitems]

theorem onWire_body (lws : LwsHttp) (headers : HeaderWrites) (ctx : JSContext)
    (head : ResponseHead) (chunks : List Bytes) :
    OnWire lws headers ctx (.body head) chunks ↔ ¬ headers.Stops head ∧ lws.fileCompletion = 0 ∧
      (chunks.flatten = [] ∨ chunks.length = 1) := by
  obtain ⟨q, hclose, hitems⟩ := closedQueue_spec chunks
  have hcomplete := queueComplete_ended hitems
  have hstart := @wireStart_body lws chunks ctx head q hclose
  have hreq : WireEnabled ⟨bodyStart ctx head q, []⟩ (.writeable 0) := rfl
  refine ⟨?_, ?_⟩
  · rintro ⟨s, hs, hend⟩
    obtain rfl := Option.some.inj (hs.symm.trans hstart)
    have hstops : ¬ headers.Stops head :=
      fun hstops => stopped_not_allEnd (body_stopped hstops) hend
    refine ⟨hstops, ?_⟩
    by_cases hone : chunks.flatten = [] ∨ chunks.length = 1
    · obtain ⟨c', q', hwrite, hq', hcomplete', hwait, hrequested, hcompleted, -⟩ :=
        body_written lws ctx head hitems hone
      have hfinal := allEnd_rest
        (allEnd_step (WireEvent.writeable 0) hend hreq
          (body_step hstops hcomplete hwrite hq' hcomplete' 0))
        (@at_rest ⟨c', []⟩ hwait hrequested)
      have hcompleted' : c'.completed = 1 := hfinal.completed
      exact ⟨by omega, hone⟩
    · obtain ⟨c', q', hwrite, hq', hcomplete', hwait, hrequested, hcompleted⟩ :=
        body_unwritten lws ctx head hitems hone
      have hfinal := allEnd_rest
        (allEnd_step (WireEvent.writeable 0) hend hreq
          (body_step hstops hcomplete hwrite hq' hcomplete' 0))
        (@at_rest ⟨c', []⟩ hwait hrequested)
      exact absurd (hcompleted.symm.trans hfinal.completed) (by decide)
  · rintro ⟨hstops, hfile, hone⟩
    exact ⟨_, hstart,
      MaximalRuns.allEnd_mono (fun s h => h.final_of hfile) (body_allEnd lws ctx hstops hitems hone)⟩

/-- When a response comes to the wire as it should. -/
def WireReady (lws : LwsHttp) (headers : HeaderWrites) (chunks : List Bytes) : BodySource → Prop
  | .sync => False
  | .async => lws.boundNext = true ∧ ¬ headers.Stops ⟨200, false⟩ ∧ lws.fileCompletion = 0 ∧
      chunks = []
  | .body head => ¬ headers.Stops head ∧ lws.fileCompletion = 0 ∧
      (chunks.flatten = [] ∨ chunks.length = 1)

/-- **When every order of events brings the body to the wire.** Never for a synchronous
generator; for an asynchronous one when it gives nothing; for the body's queue when the first
event writes all of it. In each case the headers must be written and the response be no redirect,
and libwebsockets must not complete the transaction once more at the end of a file. -/
theorem http_wire_iff (lws : LwsHttp) (headers : HeaderWrites) (ctx : JSContext)
    (source : BodySource) (chunks : List Bytes) :
    OnWire lws headers ctx source chunks ↔ WireReady lws headers chunks source := by
  cases source with
  | sync => exact iff_of_false (onWire_sync lws headers ctx chunks) id
  | async => exact onWire_async lws headers ctx chunks
  | body head => exact onWire_body lws headers ctx head chunks

/-- Two chunks in the body's queue: only the first is ever written. -/
theorem http_wire_loses_chunk :
    ¬ OnWire ⟨false, 1, true⟩ .good .new (.body ⟨200, false⟩) [[97], [98]] := by
  intro h
  exact absurd ((onWire_body ⟨false, 1, true⟩ .good .new ⟨200, false⟩ [[97], [98]]).1 h).2
    (by decide)

end QjsNet
