import QjsNet.HttpEvent

/- A session that sends what a generator gives it.

   `Sends` says what such a session has queued and written, and what its generator has
   left; there is no queue of a body. Each part of a writeable event takes one such state
   to another, and so does a promise that is settled. The values of the generator are
   buffers.

   What is proved:
     1. `bodyWrites_data`, `bodyWrites_final` — the pieces of a chunk are the chunk, and
        the last piece of a complete queue's last chunk is the final one;
     2. `serveGenerator_chunk`, `_end`, `_promise` — the turns of the generator, when the
        call of its `next` survives;
     3. `httpWriteable_asked` and the lemmas after it — a writeable event, part by part;
     4. `serveResolved_chunk`, `serveResolved_end` — a promise. -/
namespace QjsNet

/-- The bytes of the body on the wire. -/
def wireBytes (written : List LwsWrite) : Bytes := written.flatMap LwsWrite.data

/-- The final flag is on the last write and on no other. -/
def FinalLast (written : List LwsWrite) : Prop :=
  ∀ i w, written[i]? = some w → (w.protocol = lwsWriteHttpFinal ↔ i + 1 = written.length)

/-! ## The pieces of a chunk -/

theorem bodyWrites_data (h2 complete : Bool) (n : Int) : ∀ (fuel : Nat) (rest : Bytes),
    rest.length ≤ fuel → wireBytes (bodyWrites h2 complete n fuel rest) = rest := by
  intro fuel
  induction fuel with
  | zero =>
    intro rest h
    rw [List.length_eq_zero_iff.1 (Nat.le_zero.1 h)]
    rfl
  | succ fuel ih =>
    intro rest h
    unfold bodyWrites
    split
    · next hpos =>
      have hl : ∀ l, 0 < l → (rest.drop l).length ≤ fuel := by
        intro l hl
        rw [List.length_drop]
        omega
      -- Each piece has at least one byte, so the fuel suffices for the rest.
      simp only [wireBytes, List.flatMap_cons]
      have hrest : ∀ l, 0 < l → wireBytes (bodyWrites h2 complete n fuel (rest.drop l)) = rest.drop l :=
        fun l hpos => ih _ (hl l hpos)
      unfold wireBytes at hrest
      rw [hrest]
      · exact List.take_append_drop _ rest
      · split
        · split <;> omega
        · exact hpos
    · next hzero =>
      have hnil : rest = [] := List.length_eq_zero_iff.1 (Nat.le_zero.1 (Nat.not_lt.1 hzero))
      rw [hnil]
      rfl

theorem bodyWrites_open (h2 : Bool) (n : Int) : ∀ (fuel : Nat) (rest : Bytes),
    ∀ w ∈ bodyWrites h2 false n fuel rest, w.protocol = n := by
  intro fuel
  induction fuel with
  | zero =>
    intro _ w hw
    cases hw
  | succ fuel ih =>
    intro rest w hw
    unfold bodyWrites at hw
    split at hw
    · rcases List.mem_cons.1 hw with rfl | hw
      · rfl
      · exact ih _ w hw
    · cases hw

theorem bodyWrites_nil (h2 complete : Bool) (n : Int) : ∀ fuel : Nat,
    bodyWrites h2 complete n fuel [] = []
  | 0 => rfl
  | _ + 1 => rfl

theorem bodyWrites_eq_nil (h2 complete : Bool) (n : Int) {fuel : Nat} {rest : Bytes}
    (h : rest.length ≤ fuel) : bodyWrites h2 complete n fuel rest = [] ↔ rest = [] := by
  refine ⟨?_, ?_⟩
  · intro hnil
    have hdata := bodyWrites_data h2 complete n fuel rest h
    rw [hnil] at hdata
    exact hdata.symm
  · intro h'
    obtain rfl := h'
    exact bodyWrites_nil h2 complete n fuel

theorem finalLast_nil : FinalLast [] := nofun

theorem finalLast_cons {w : LwsWrite} {ws : List LwsWrite} :
    FinalLast (w :: ws) ↔ (w.protocol = lwsWriteHttpFinal ↔ ws = []) ∧ FinalLast ws := by
  refine ⟨?_, ?_⟩
  · intro h
    refine ⟨?_, ?_⟩
    · rw [h 0 w rfl, List.length_cons, Nat.add_right_cancel_iff, eq_comm, List.length_eq_zero_iff]
    · intro i v hv
      rw [h (i + 1) v hv, List.length_cons, Nat.add_right_cancel_iff]
  · intro h' i v hv
    obtain ⟨hw, hws⟩ := h'
    cases i with
    | zero =>
      obtain rfl := Option.some.inj hv
      rw [hw, List.length_cons, Nat.add_right_cancel_iff, ← List.length_eq_zero_iff]
      exact eq_comm
    | succ i => rw [hws i v hv, List.length_cons, Nat.add_right_cancel_iff]

theorem bodyWrites_final (h2 : Bool) : ∀ (fuel : Nat) (rest : Bytes), rest.length ≤ fuel →
    FinalLast (bodyWrites h2 true lwsWriteHttp fuel rest) := by
  intro fuel
  induction fuel with
  | zero =>
    intro _ _
    exact nofun
  | succ fuel ih =>
    intro rest h
    unfold bodyWrites
    split
    · next hpos =>
      obtain ⟨l, hl⟩ : ∃ l, (if h2 then (if rest.length > 1024 then 1024 else rest.length)
          else rest.length) = l := ⟨_, rfl⟩
      have hl0 : 0 < l := by
        rw [← hl]
        split
        · split <;> omega
        · exact hpos
      have hdrop : (rest.drop l).length ≤ fuel := by
        rw [List.length_drop]
        omega
      have hl1 : l ≤ rest.length := by
        rw [← hl]
        split
        · split <;> omega
        · exact Nat.le_refl _
      simp only [hl, Bool.true_and]
      rw [finalLast_cons, bodyWrites_eq_nil h2 true lwsWriteHttp hdrop, List.drop_eq_nil_iff]
      refine ⟨?_, ih _ hdrop⟩
      -- The piece is the last one exactly when it takes the whole rest.
      by_cases heq : rest.length = l
      · simp [heq]
      · have hlt : ¬ rest.length ≤ l := by omega
        simp [heq, hlt, lwsWriteHttp, lwsWriteHttpFinal]
    · exact nofun

/-! ## Sessions that send from a generator -/

variable {lws : LwsHttp} {c c' : HttpConnection} {qsize : Nat}

/-- What a session sends: the values the generator gives, the items that are queued, the
writes so far, and whether an event has been asked for. -/
structure HttpConnection.Sends (c : HttpConnection) (headers : HeaderWrites) (g : Producer)
    (items : List QueueItem) (written : List LwsWrite) (asked : Bool) : Prop where
  generator : c.generator = some g
  items : c.session.sendq.items = items
  separate : c.session.sendq.continuous = false
  noBody : c.bodyq = none
  written : c.wsi.written = written
  wantWrite : c.session.wantWrite = asked
  requested : c.wsi.requested = asked
  stays : c.Stays headers

variable {headers : HeaderWrites} {g : Producer} {items : List QueueItem} {written : List LwsWrite} {asked : Bool}

theorem HttpConnection.Sends.wantWrite' (h : c.Sends headers g items written asked) :
    c.wantWrite.Sends headers g items written true := by
  obtain ⟨hg, hitems, hsep, hbody, hwritten, hwant, hreq, hstays⟩ := h
  refine ⟨hg, ?_, ?_, hbody, ?_, wantWrite_set', ?_, hstays.congr rfl rfl rfl⟩
  · rw [wantWrite_sendq', hitems]
  · rw [wantWrite_sendq', hsep]
  · exact wantWrite_written.trans hwritten
  · show (sessionWantWrite c.toConnection).wsi.requested = true
    unfold sessionWantWrite
    split
    · next h => rw [hreq, ← hwant, h]
    · rfl

theorem HttpConnection.Sends.complete (h : c.Sends headers g items written asked) (n : Nat) :
    (c.complete n).Sends headers g items written asked :=
  ⟨h.generator, h.items, h.separate, h.noBody, h.written, h.wantWrite, h.requested,
    h.stays.congr rfl rfl rfl⟩

theorem HttpConnection.Sends.addTail (h : c.Sends headers g items written asked) {q : Queue} {i : QueueItem}
    (hq : q = c.session.sendq.addTail i) :
    (c.setSendq q).Sends headers g (items ++ [i]) written asked := by
  obtain ⟨hg, hitems, hsep, hbody, hwritten, hwant, hreq, hstays⟩ := h
  subst hq
  exact ⟨hg, congrArg (· ++ [i]) hitems, hsep, hbody, hwritten, hwant, hreq,
    hstays.congr rfl rfl rfl⟩

theorem queueWrite_sends (h : c.Sends headers g items written asked) (hopen : OpenItems items)
    (data : Bytes) :
    (queueWrite c.session.sendq data).1 = c.session.sendq.addTail (chunkItem data) := by
  have hopen' : OpenItems c.session.sendq.items := h.items ▸ hopen
  unfold queueWrite
  rw [h.separate]
  simp only [Bool.false_eq_true, if_false, queueAdd_open hopen']
  rfl

/-! ## The producers -/

/-- The result of an iterator that gives a chunk. -/
def chunkResult (chunk : Bytes) : IterResult := ⟨.arrayBuffer chunk, false⟩

/-- The result of an iterator that is done. -/
def endResult : IterResult := ⟨.undefined, true⟩

theorem serveGenerator_turn {c₁ : HttpConnection} {done : Bool}
    (h : c.Sends headers g items written asked) (hopen : OpenItems items) (hwait : c.waitResolve = 0)
    (hturn : generatorTurn lws c = some (c₁, done)) :
    serveGenerator lws c = some (if c₁.waitResolve = 0 &&
      (queueBytes c₁.session.sendq ≠ 0 || done) then c₁.wantWrite else c₁, done) := by
  have hcomplete : queueComplete c.session.sendq = false :=
    queueComplete_of_open (h.items ▸ hopen)
  unfold serveGenerator
  rw [hcomplete, hwait, hturn]
  rfl

theorem HttpConnection.Sends.next (h : c.Sends headers g items written asked) (g' : Producer) :
    ({ c with generator := some g' } : HttpConnection).Sends headers g' items written asked :=
  ⟨rfl, h.items, h.separate, h.noBody, h.written, h.wantWrite, h.requested,
    h.stays.congr rfl rfl rfl⟩

theorem serveGenerator_chunk (hbound : lws.boundNext = true) {chunk : Bytes} {results : List (Option IterResult)}
    (h : c.Sends headers (.sync (some (chunkResult chunk) :: results)) items written asked)
    (hopen : OpenItems items) (hwait : c.waitResolve = 0) :
    ∃ c', serveGenerator lws c = some (c', false) ∧ c'.completed = c.completed ∧ c'.waitResolve = 0 ∧
      c'.Sends headers (.sync results) (items ++ [chunkItem chunk]) written
        (asked || decide (itemsBytes (items ++ [chunkItem chunk]) ≠ [])) := by
  obtain ⟨c₁, hc₁⟩ : ∃ c₁, ({ c with generator := some (.sync results) } : HttpConnection).setSendq
      (queueWrite c.session.sendq chunk).1 = c₁ := ⟨_, rfl⟩
  have hturn : generatorTurn lws c = some (c₁, false) := by
    rw [← hc₁]
    simp only [generatorTurn, h.generator, jsIteratorNext, hbound, if_true, Producer.next, chunkResult,
      jsBufferFrom, Option.bind_eq_bind, Option.bind_some]
  have hsends : c₁.Sends headers (.sync results) (items ++ [chunkItem chunk]) written asked :=
    hc₁ ▸ (h.next _).addTail (queueWrite_sends h hopen chunk)
  have hwait₁ : c₁.waitResolve = 0 := hc₁ ▸ hwait
  have hcompleted : c₁.completed = c.completed := hc₁ ▸ rfl
  refine ⟨_, serveGenerator_turn h hopen hwait hturn, ?_⟩
  rw [queueBytes_eq, hsends.items, hwait₁]
  -- `serve_generator` asks for an event when the queue has bytes, not when it has items.
  by_cases hbytes : itemsBytes (items ++ [chunkItem chunk]) = []
  · rw [hbytes]
    exact ⟨hcompleted, hwait₁, by simpa using hsends⟩
  · have hlen : (itemsBytes (items ++ [chunkItem chunk])).length ≠ 0 :=
      fun h0 => hbytes (List.length_eq_zero_iff.1 h0)
    simp only [hlen, hbytes, ne_eq, not_false_eq_true, decide_true, Bool.or_false, Bool.and_self,
      if_true, Bool.or_true]
    exact ⟨hcompleted, hwait₁, hsends.wantWrite'⟩

theorem serveGenerator_end (hbound : lws.boundNext = true)
    (h : c.Sends headers (.sync []) items written asked) (hopen : OpenItems items) (hwait : c.waitResolve = 0) :
    ∃ c', serveGenerator lws c = some (c', true) ∧ c'.completed = c.completed ∧ c'.waitResolve = 0 ∧
      c'.Sends headers (.sync []) items written true := by
  obtain ⟨c₁, hc₁⟩ : ∃ c₁, ({ c with generator := some (.sync []) } : HttpConnection) = c₁ := ⟨_, rfl⟩
  have hturn : generatorTurn lws c = some (c₁, true) := by
    rw [← hc₁]
    simp only [generatorTurn, h.generator, jsIteratorNext, hbound, if_true, Producer.next,
      jsBufferFrom, Option.bind_eq_bind, Option.bind_some]
  have hsends : c₁.Sends headers (.sync []) items written asked := hc₁ ▸ h.next _
  have hwait₁ : c₁.waitResolve = 0 := hc₁ ▸ hwait
  have hcompleted : c₁.completed = c.completed := hc₁ ▸ rfl
  refine ⟨_, serveGenerator_turn h hopen hwait hturn, ?_⟩
  simp only [hwait₁, decide_true, Bool.or_true, Bool.and_self, if_true]
  exact ⟨hcompleted, hwait₁, hsends.wantWrite'⟩

theorem serveGenerator_promise (hbound : lws.boundNext = true)
    (h : c.Sends headers .async items written asked) (hopen : OpenItems items) (hwait : c.waitResolve = 0) :
    ∃ c', serveGenerator lws c = some (c', false) ∧ c'.completed = c.completed ∧ c'.waitResolve = 1 ∧
      c'.Sends headers .async items written asked := by
  obtain ⟨c₁, hc₁⟩ : ∃ c₁, servePromise { c with generator := some .async } = c₁ := ⟨_, rfl⟩
  have hturn : generatorTurn lws c = some (c₁, false) := by
    rw [← hc₁]
    simp only [generatorTurn, h.generator, jsIteratorNext, hbound, if_true, Producer.next,
      Option.bind_eq_bind, Option.bind_some]
  have hsends : c₁.Sends headers .async items written asked :=
    hc₁ ▸ ⟨rfl, h.items, h.separate, h.noBody, h.written, h.wantWrite, h.requested,
    h.stays.congr rfl rfl rfl⟩
  have hwait₁ : c₁.waitResolve = 1 := by
    rw [← hc₁]
    exact congrArg (· + 1) hwait
  have hcompleted : c₁.completed = c.completed := hc₁ ▸ rfl
  refine ⟨_, serveGenerator_turn h hopen hwait hturn, ?_⟩
  have hskip : ¬ (decide (c₁.waitResolve = 0) && (decide (queueBytes c₁.session.sendq ≠ 0) || false))
      = true := by
    simp [hwait₁]
  rw [if_neg hskip]
  exact ⟨hcompleted, hwait₁, hsends⟩

theorem closeAt_sendq (h : c.Sends headers g items written asked) (hopen : OpenItems items) :
    ∃ c', c.closeAt .sendq = some c' ∧ c'.completed = c.completed ∧
      c'.waitResolve = c.waitResolve ∧ c'.Sends headers g (items ++ [doneItem]) written asked := by
  have hopen' : OpenItems c.session.sendq.items := h.items ▸ hopen
  refine ⟨c.setSendq (c.session.sendq.addTail doneItem), ?_, rfl, rfl, h.addTail rfl⟩
  show (queueClose c.session.sendq).bind _ = _
  rw [queueClose_open hopen']
  rfl

/-! ## The parts of an event -/

theorem serveResponse_same (c : HttpConnection) {p : QueuePtr} (hp : p ≠ .body) :
    (serveResponse headers c p).2.1 = p := by
  rw [serveResponse_pointer]
  cases p with
  | body => exact absurd rfl hp
  | _ => split <;> rfl

/-- An event that has been asked for, up to the point where it fills the queue. -/
theorem httpWriteable_from (lws : LwsHttp) (qsize : Nat) {p : QueuePtr}
    (h : c.Sends headers g items written true) (hp : sessionQueue c = p) (hbody : p ≠ .body) :
    ∃ c₂, c₂.completed = c.completed ∧ c₂.waitResolve = c.waitResolve ∧
      c₂.Sends headers g items written false ∧
      ∀ {c₃ c₄ c₅ p₃ size}, fillQueue lws c₂ p qsize = some (c₃, p₃, size) →
        writeBody lws c₃ p₃ = some c₄ → refill lws c₄ p₃ size = some c₅ →
        httpWriteable lws headers qsize c.woken = some c₅ := by
  have hwant : c.woken.session.wantWrite = true := h.wantWrite
  have hp' : sessionQueue c.woken = p := hp
  have hwoken : c.woken.wantWrite = c.woken := by
    show { c.woken with toConnection := sessionWantWrite c.woken.toConnection } = c.woken
    unfold sessionWantWrite
    rw [if_pos hwant]
  have hstays : c.woken.clearWantWrite.Stays headers := h.stays.congr rfl rfl rfl
  obtain ⟨⟨c₂, p₂, ret⟩, hrespond⟩ :
      ∃ r, serveResponse headers c.woken.clearWantWrite p = r := ⟨_, rfl⟩
  have hspec := serveResponse_spec headers c.woken.clearWantWrite p
  have hptr := @serveResponse_same headers c.woken.clearWantWrite p hbody
  have hsent := serveResponse_sent hstays p
  have hret := not_not.1 fun hne => hstays ((serveResponse_leaves headers _ p).1 hne)
  rw [hrespond] at hspec hptr hsent hret
  obtain ⟨⟨hwait, -, hgenerator⟩, hcompleted, hconn, hbodyq⟩ := hspec
  have hbehind : c.woken.clearWantWrite.bodyBehind = none := by
    unfold HttpConnection.bodyBehind
    rw [show c.woken.clearWantWrite.bodyq = none from h.noBody, ite_self]
  refine ⟨c₂, hcompleted, hwait, ?_, ?_⟩
  · have hc₂ : c₂.toConnection = c.woken.clearWantWrite.toConnection := hconn
    refine ⟨hgenerator.trans h.generator, ?_, ?_, hbodyq.trans hbehind, ?_, ?_, ?_,
      sent_stays headers hsent⟩
    · rw [hc₂]
      exact h.items
    · rw [hc₂]
      exact h.separate
    · rw [hc₂]
      exact h.written
    · rw [hc₂]
      rfl
    · rw [hc₂]
      rfl
  · intro c₃ c₄ c₅ p₃ size hfill hwrite hrefill
    obtain rfl : p₂ = p := hptr
    obtain rfl : ret = 0 := hret
    unfold httpWriteable
    simp only [hp', hwant, hwoken, hrespond, Bool.not_true, Bool.false_and, Bool.false_eq_true,
      if_false, ne_eq, not_true_eq_false, hfill, hwrite, hrefill, Option.bind_eq_bind,
      Option.bind_some]

theorem httpWriteable_asked (lws : LwsHttp) (qsize : Nat) (h : c.Sends headers g items written true)
    (hne : items ≠ []) :
    ∃ c₂, c₂.completed = c.completed ∧ c₂.waitResolve = c.waitResolve ∧
      c₂.Sends headers g items written false ∧
      ∀ {c₃ c₄ c₅ p₃ size}, fillQueue lws c₂ .sendq qsize = some (c₃, p₃, size) →
        writeBody lws c₃ p₃ = some c₄ → refill lws c₄ p₃ size = some c₅ →
        httpWriteable lws headers qsize c.woken = some c₅ :=
  httpWriteable_from lws qsize h (sessionQueue_sendq (h.items ▸ hne)) nofun

/-- An event that returns after the headers. -/
theorem httpWriteable_left (lws : LwsHttp) (qsize : Nat) (h : c.Leaves headers)
    (hwant : c.session.wantWrite = true) :
    ∃ c', httpWriteable lws headers qsize c.woken = some c' ∧ c'.completed = c.completed ∧
      c'.waitResolve = c.waitResolve ∧ c'.wsi = c.woken.wsi := by
  have hwant' : c.woken.session.wantWrite = true := hwant
  have hwoken : c.woken.wantWrite = c.woken := by
    show { c.woken with toConnection := sessionWantWrite c.woken.toConnection } = c.woken
    unfold sessionWantWrite
    rw [if_pos hwant']
  obtain ⟨⟨c₂, p₂, ret⟩, hrespond⟩ :
      ∃ r, serveResponse headers c.woken.clearWantWrite (sessionQueue c.woken) = r := ⟨_, rfl⟩
  obtain ⟨⟨hwait, -, -⟩, hcompleted, hconn, -⟩ :=
    serveResponse_spec headers c.woken.clearWantWrite (sessionQueue c.woken)
  have hleaves := (@leaves_congr c c.woken.clearWantWrite headers rfl rfl rfl).2 h
  have hret := (serveResponse_leaves headers _ (sessionQueue c.woken)).2 hleaves
  rw [hrespond] at hwait hcompleted hconn hret
  have hwsi : c₂.wsi = c.woken.clearWantWrite.wsi := congrArg Connection.wsi hconn
  refine ⟨c₂, ?_, hcompleted, hwait, hwsi⟩
  unfold httpWriteable
  simp only [hwant', hwoken, hrespond, Bool.not_true, Bool.false_and, Bool.false_eq_true, if_false,
    if_pos hret]

theorem sessionQueue_none (h : c.Sends headers g [] written asked) : sessionQueue c = .null := by
  rw [sessionQueue_empty h.items, h.noBody, Option.isSome_none, if_neg Bool.false_ne_true]

theorem deref_sends (h : c.Sends headers g items written asked) (hne : items ≠ []) :
    c.deref (sessionQueue c) = some c.session.sendq := by
  rw [sessionQueue_sendq (h.items ▸ hne)]
  rfl

theorem writeBody_none (lws : LwsHttp) (h : c.Sends headers g items written asked) (hne : items ≠ [])
    (hbytes : itemsBytes items = []) :
    ∃ c', writeBody lws c .sendq = some c' ∧
      c'.completed = c.completed + 1 + lws.fileCompletion ∧ c'.waitResolve = c.waitResolve ∧
      c'.Sends headers g items written asked := by
  have hzero : queueBytes c.session.sendq = 0 := by
    rw [queueBytes_eq, h.items, hbytes]
    rfl
  have hsize : c.session.sendq.size ≠ 0 := by
    rw [c.session.sendq.size_eq, h.items]
    exact fun hlen => hne (List.length_eq_zero_iff.1 hlen)
  have hwrite := @httpServerWriteable_zero lws c _ (deref_sends h hne) hzero
    (queueClosed c.session.sendq)
  refine ⟨(c.complete 1).complete lws.fileCompletion, ?_, rfl, rfl, (h.complete 1).complete _⟩
  show (httpServerWriteable lws c (queueClosed c.session.sendq)).bind _ = _
  rw [hwrite]
  show some (if c.session.sendq.size = 0 then _ else _) = _
  rw [if_neg hsize]

theorem afterChunk_sends (lws : LwsHttp) {data : Bytes} (n : Int)
    (h : c.Sends headers g (chunkItem data :: items) written asked) :
    (afterChunk lws c .sendq c.session.sendq n).Sends headers g items
      (written ++ bodyWrites lws.h2 (queueComplete c.session.sendq.delHead) n data.length data)
      asked := by
  have hnext := queueNext_cons h.items rfl c.ctx
  obtain ⟨hg, hitems, hsep, hbody, hwritten, hwant, hreq, hstays⟩ := h
  unfold afterChunk
  rw [hnext]
  refine ⟨hg, ?_, hsep, hbody, ?_, hwant, hreq, hstays.congr rfl rfl rfl⟩
  · show c.session.sendq.delHead.items = items
    rw [delHead_items, hitems, List.tail_cons]
  · show c.wsi.written ++ _ = _
    rw [hwritten]
    rfl

theorem httpServerWriteable_chunk (lws : LwsHttp) {data : Bytes}
    (h : c.Sends headers g (chunkItem data :: items) written asked)
    (hbytes : itemsBytes (chunkItem data :: items) ≠ []) :
    httpServerWriteable lws c (queueClosed c.session.sendq) =
      let c' := afterChunk lws c .sendq c.session.sendq lwsWriteHttp
      some (if queueClosed c.session.sendq.delHead then (c'.complete 1, true) else (c', false)) := by
  have hne : queueBytes c.session.sendq ≠ 0 := by
    rw [queueBytes_eq, h.items]
    exact fun h0 => hbytes (List.length_eq_zero_iff.1 h0)
  have hclosed : queueClosed c.session.sendq = false := by
    simp [queueClosed, queueFront, h.items, chunkItem]
  have hp : sessionQueue c = .sendq := sessionQueue_sendq (by simp [h.items])
  have hfront := @httpServerWriteable_front lws c _ (deref_sends h (List.cons_ne_nil _ _)) hne hclosed
    false
  rw [hclosed, hfront, hp]
  rfl

/-- A chunk is written, and more may come. -/
theorem writeBody_front (lws : LwsHttp) {data : Bytes}
    (h : c.Sends headers g (chunkItem data :: items) written asked) (hopen : OpenItems items)
    (hbytes : itemsBytes (chunkItem data :: items) ≠ []) :
    ∃ c', writeBody lws c .sendq = some c' ∧ c'.completed = c.completed ∧
      c'.waitResolve = c.waitResolve ∧
      c'.Sends headers g items (written ++ bodyWrites lws.h2 false lwsWriteHttp data.length data) asked := by
  have hopen' : OpenItems c.session.sendq.delHead.items := by
    rw [delHead_items, h.items, List.tail_cons]
    exact hopen
  have hsends := afterChunk_sends lws lwsWriteHttp h
  rw [queueComplete_of_open hopen'] at hsends
  obtain ⟨hsame, hcompleted⟩ := afterChunk_spec lws c .sendq c.session.sendq lwsWriteHttp
  refine ⟨afterChunk lws c .sendq c.session.sendq lwsWriteHttp, ?_, hcompleted, hsame.waitResolve,
    hsends⟩
  show (httpServerWriteable lws c (queueClosed c.session.sendq)).bind _ = _
  rw [httpServerWriteable_chunk lws h hbytes]
  simp only [queueClosed_of_open hopen', Bool.false_eq_true, if_false, Option.bind_some]

/-- The last chunk is written, and the end follows. -/
theorem writeBody_last (lws : LwsHttp) {data : Bytes}
    (h : c.Sends headers g [chunkItem data, doneItem] written asked) (hdata : data ≠ []) :
    ∃ c', writeBody lws c .sendq = some c' ∧
      c'.completed = c.completed + 1 + lws.fileCompletion ∧ c'.waitResolve = c.waitResolve ∧
      c'.Sends headers g [doneItem] (written ++ bodyWrites lws.h2 true lwsWriteHttp data.length data)
        asked := by
  have hitems : c.session.sendq.delHead.items = [doneItem] := by
    rw [delHead_items, h.items, List.tail_cons]
  have hclosed : queueClosed c.session.sendq.delHead = true := by
    rw [queueClosed, queueFront, hitems]
    rfl
  have hsends := afterChunk_sends lws lwsWriteHttp h
  rw [show queueComplete c.session.sendq.delHead = true by
    rw [queueComplete, queueBack, hitems]; rfl] at hsends
  obtain ⟨hsame, hcompleted⟩ := afterChunk_spec lws c .sendq c.session.sendq lwsWriteHttp
  obtain ⟨c', hc'⟩ : ∃ c', afterChunk lws c .sendq c.session.sendq lwsWriteHttp = c' := ⟨_, rfl⟩
  rw [hc'] at hsends hsame hcompleted
  refine ⟨(c'.complete 1).complete lws.fileCompletion, ?_, ?_, hsame.waitResolve,
    (hsends.complete 1).complete _⟩
  · have hbytes : itemsBytes [chunkItem data, doneItem] ≠ [] := by
      simpa [chunkItem, doneItem, ByteBlock.data] using hdata
    have hsize : ¬ c'.session.sendq.size = 0 := by
      rw [c'.session.sendq.size_eq, hsends.items]
      exact Nat.one_ne_zero
    show (httpServerWriteable lws c (queueClosed c.session.sendq)).bind _ = _
    rw [httpServerWriteable_chunk lws h hbytes, hclosed, hc']
    show some (if c'.session.sendq.size = 0 then _ else _) = _
    rw [if_neg hsize]
  · show c'.completed + 1 + lws.fileCompletion = _
    rw [hcompleted]

/-- The size of what is queued, as a `uint32_t`. -/
def itemsSize (items : List QueueItem) : Nat := (itemsBytes items).length % 2 ^ 32

theorem sizeAt_sends (h : c.Sends headers g items written asked) :
    c.sizeAt .sendq qsize = itemsSize items := by
  show queueBytes c.session.sendq % 2 ^ 32 = _
  rw [queueBytes_eq, h.items]
  rfl

theorem queueComplete_ended {q : Queue} (h : q.items = items ++ [doneItem]) :
    queueComplete q = true := by
  rw [queueComplete, queueBack, h, List.getLast?_concat]
  rfl

/-- A queue whose size is not zero needs no filling. -/
theorem fillQueue_sized (h : c.Sends headers g items written asked) (hsize : itemsSize items ≠ 0) :
    fillQueue lws c .sendq qsize = some (c, .sendq, itemsSize items) := by
  have hun : c.Unfilled .sendq := by
    refine ⟨c.session.sendq, rfl, Or.inl ?_⟩
    rw [queueBytes_eq, h.items]
    exact hsize
  rw [fillQueue_unfilled (Or.inl hun), sizeAt_sends h]

theorem fillQueue_ended (h : c.Sends headers g (items ++ [doneItem]) written asked) :
    fillQueue lws c .sendq qsize = some (c, .sendq, itemsSize (items ++ [doneItem])) := by
  have hun : c.Unfilled .sendq := by
    refine ⟨c.session.sendq, rfl, Or.inr ?_⟩
    rw [queueComplete_ended h.items, Bool.or_true]
  rw [fillQueue_unfilled (Or.inl hun), sizeAt_sends h]

theorem fillQueue_asks (h : c.Sends headers g items written asked) (hopen : OpenItems items)
    (hwait : c.waitResolve = 0) (hsize : itemsSize items = 0) :
    fillQueue lws c .sendq qsize = (do
      let (c, done) ← serveGenerator lws c
      let p := if done then sessionQueue c else .sendq
      if done && (c.deref p).isSome then
        let c ← c.closeAt p
        some (c, p, 0)
      else some (c, p, 0)) := by
  have hopen' : OpenItems c.session.sendq.items := h.items ▸ hopen
  have hzero : queueBytes c.session.sendq % 2 ^ 32 = 0 := by
    rw [queueBytes_eq, h.items]
    exact hsize
  have hderef : c.deref .sendq = some c.session.sendq := rfl
  unfold fillQueue
  simp only [hderef, Option.elim_some, Option.all_some, hzero, hwait,
    queueClosed_of_open hopen', queueComplete_of_open hopen', Bool.or_false, Bool.not_false,
    decide_true, Bool.and_self, if_true]

theorem fillQueue_more {c₁ : HttpConnection} (h : c.Sends headers g items written asked)
    (hopen : OpenItems items) (hwait : c.waitResolve = 0) (hsize : itemsSize items = 0)
    (hserve : serveGenerator lws c = some (c₁, false)) :
    fillQueue lws c .sendq qsize = some (c₁, .sendq, 0) := by
  rw [fillQueue_asks h hopen hwait hsize, hserve]
  simp only [Option.bind_eq_bind, Option.bind_some, Bool.false_eq_true, if_false, Bool.false_and]

theorem fillQueue_done {c₁ : HttpConnection} {g₁ : Producer} {asked₁ : Bool}
    (h : c.Sends headers g items written asked) (hopen : OpenItems items) (hne : items ≠ [])
    (hwait : c.waitResolve = 0) (hsize : itemsSize items = 0)
    (hserve : serveGenerator lws c = some (c₁, true)) (h₁ : c₁.Sends headers g₁ items written asked₁) :
    ∃ c₂, fillQueue lws c .sendq qsize = some (c₂, .sendq, 0) ∧ c₂.completed = c₁.completed ∧
      c₂.waitResolve = c₁.waitResolve ∧ c₂.Sends headers g₁ (items ++ [doneItem]) written asked₁ := by
  obtain ⟨c₂, hclose, hcompleted, hwait₂, h₂⟩ := closeAt_sendq h₁ hopen
  have hp : sessionQueue c₁ = .sendq := sessionQueue_sendq (h₁.items ▸ hne)
  refine ⟨c₂, ?_, hcompleted, hwait₂, h₂⟩
  rw [fillQueue_asks h hopen hwait hsize, hserve]
  simp only [Option.bind_eq_bind, Option.bind_some, if_true, Bool.true_and, hp, hclose]
  rfl

/-- Nothing was written, or somebody has asked for an event. -/
theorem refill_idle {p : QueuePtr} (h : c.Sends headers g items written asked)
    (hidle : qsize = 0 ∨ asked = true) : refill lws c p qsize = some c := by
  unfold refill
  rw [h.wantWrite]
  rcases hidle with rfl | rfl
  · simp
  · simp

/-- A complete queue is not refilled. -/
theorem refill_complete {p : QueuePtr} {q : Queue} (hq : c.deref p = some q)
    (hcomplete : queueComplete q = true) : refill lws c p qsize = some c := by
  unfold refill
  simp only [hq, hcomplete, Option.bind_eq_bind, Option.bind_some, Bool.or_true, Bool.not_true,
    Bool.false_and, Bool.false_eq_true, if_false, ite_self]

theorem refill_ended (h : c.Sends headers g (items ++ [doneItem]) written asked) :
    refill lws c .sendq qsize = some c :=
  refill_complete rfl (queueComplete_ended h.items)

theorem refill_asks (h : c.Sends headers g items written false) (hopen : OpenItems items)
    (hwait : c.waitResolve = 0) (hsize : qsize ≠ 0) :
    refill lws c .sendq qsize = (do
      let (c, done) ← serveGenerator lws c
      if done then c.closeAt .sendq else some c) := by
  have hopen' : OpenItems c.session.sendq.items := h.items ▸ hopen
  have hderef : c.deref .sendq = some c.session.sendq := rfl
  unfold refill
  simp only [h.wantWrite, hsize, ne_eq, not_false_eq_true, decide_true, Bool.not_false,
    Bool.and_self, if_true, hderef, Option.bind_eq_bind, Option.bind_some,
    queueClosed_of_open hopen', queueComplete_of_open hopen', Bool.or_false, hwait]

/-! ## A promise is settled -/

theorem HttpConnection.Sends.settle (h : c.Sends headers g items written asked) (n : Nat) :
    ({ c with waitResolve := n } : HttpConnection).Sends headers g items written asked :=
  ⟨h.generator, h.items, h.separate, h.noBody, h.written, h.wantWrite, h.requested,
    h.stays.congr rfl rfl rfl⟩

theorem serveResolved_chunk (h : c.Sends headers g items written asked) (hopen : OpenItems items)
    (hwait : c.waitResolve = 1) (chunk : Bytes) :
    ∃ c', serveResolved c (chunkResult chunk) = some c' ∧ c'.completed = c.completed ∧
      c'.waitResolve = 0 ∧ c'.Sends headers g (items ++ [chunkItem chunk]) written true := by
  have hsends := (h.settle 0).addTail (queueWrite_sends h hopen chunk)
  refine ⟨(({ c with waitResolve := 0 } : HttpConnection).setSendq
    (queueWrite c.session.sendq chunk).1).wantWrite, ?_, rfl, rfl, hsends.wantWrite'⟩
  unfold serveResolved
  rw [hwait]
  rfl

theorem serveResolved_end (h : c.Sends headers g items written asked) (hopen : OpenItems items)
    (hwait : c.waitResolve = 1) :
    ∃ c', serveResolved c endResult = some c' ∧ c'.completed = c.completed ∧
      c'.waitResolve = 0 ∧ c'.Sends headers g (items ++ [doneItem]) written true := by
  have hopen' : OpenItems c.session.sendq.items := h.items ▸ hopen
  have hsends := (h.settle 0).addTail (rfl : c.session.sendq.addTail doneItem = _)
  refine ⟨(({ c with waitResolve := 0 } : HttpConnection).setSendq
    (c.session.sendq.addTail doneItem)).wantWrite, ?_, rfl, rfl, hsends.wantWrite'⟩
  unfold serveResolved
  rw [hwait]
  show (queueClose c.session.sendq).bind _ = _
  rw [queueClose_open hopen']
  rfl

end QjsNet
