import QjsNet.HttpSession

/- What the parts of a writeable event do (`LWS_CALLBACK_HTTP_WRITEABLE`).

   One lemma for each part, from which the properties of whole events follow:
     1. `serveGenerator_cases`, `serveGenerator_silent` — the turn of the generator;
     2. `httpServerWriteable_zero`, `_closed`, `_front` and `writeBody_cases` — the write;
     3. `fillQueue_unfilled`, `fillQueue_filled`, `refill_completed` — what comes before and
        after it;
     4. `serveResponse_spec`, `serveResponse_ptr` — the headers. -/
namespace QjsNet

/-- A promise is pending, or a writeable event has been asked for. -/
def HttpConnection.Awake (c : HttpConnection) : Prop :=
  c.waitResolve ≠ 0 ∨ c.session.wantWrite = true

/-- The send queue is not empty, and has neither data nor an end. -/
def HttpConnection.Blank (c : HttpConnection) : Prop :=
  c.session.sendq.items ≠ [] ∧ queueBytes c.session.sendq = 0 ∧
    queueComplete c.session.sendq = false

variable {lws : LwsHttp} {c c' : HttpConnection} {p : QueuePtr} {q : Queue} {qsize : Nat}

/-! ## Queues -/

theorem queueComplete_modify (q : Queue) (n : Nat) {f : QueueItem → QueueItem}
    (hf : ∀ i, (f i).done = i.done) : queueComplete (q.modify n f) = queueComplete q := by
  unfold queueComplete queueBack
  rw [modify_items, List.getLast?_eq_getElem?, List.getLast?_eq_getElem?, List.length_modify,
    List.getElem?_modify]
  cases q.items[q.items.length - 1]? with
  | none => simp
  | some i =>
    simp only [Option.map_eq_map, Option.map_some, Option.elim_some]
    split
    · exact hf i
    · rfl

/-- Something is in the queue then, and it does not end the stream. -/
theorem queueWrite_incomplete (h : queueComplete q = false) (data : Bytes) :
    (queueWrite q data).1.items ≠ [] ∧ queueComplete (queueWrite q data).1 = false := by
  unfold queueWrite
  split
  · next n hn =>
    have hlast : lastIdx? QueueItem.isChunk q.items = some n := by
      split at hn
      · exact hn
      · cases hn
    refine ⟨?_, ?_⟩
    · intro hnil
      rw [modify_items] at hnil
      have hlen := congrArg List.length hnil
      rw [List.length_modify, List.length_nil, List.length_eq_zero_iff] at hlen
      rw [hlen] at hlast
      cases hlast
    -- A merge changes the block of an item, never whether it ends the stream.
    · refine Eq.trans ?_ h
      exact queueComplete_modify q n fun _ => rfl
  · have hadd : queueAdd q (blockCopy data)
        = (q.addTail ⟨blockCopy data, none, false, none⟩, some q.items.length) := by
      simp only [queueAdd, h, Bool.false_eq_true, if_false]
    rw [hadd]
    simp [queueComplete, queueBack]

theorem queueNext_front (h : queueClosed q = false) (hne : q.items ≠ []) (ctx : JSContext) :
    ∃ i is, q.items = i :: is ∧
      queueNext q ctx = (q.delHead, callUnref ctx i.unref, i.block, false, i.binary) := by
  cases hitems : q.items with
  | nil => exact absurd hitems hne
  | cons i is =>
    have hdone : i.done = false := by simpa [queueClosed, queueFront, hitems] using h
    exact ⟨i, is, rfl, queueNext_cons hitems hdone ctx⟩

/-! ## The generator's turn -/

theorem serveGenerator_cases {done : Bool} (h : serveGenerator lws c = some (c', done)) :
    c.waitResolve = 0 ∧ c'.completed = c.completed ∧ c'.bodyq = c.bodyq ∧
      (done = true → c'.Awake) ∧
      (done = false → c'.Awake ∨ c'.Blank ∨
        (c.Silent ∧ queueBytes c.session.sendq = 0 ∧ ∃ g, c' = { c with generator := g })) := by
  simp only [serveGenerator] at h
  split at h
  · cases h
  · next hassert =>
    rw [Bool.or_eq_true, not_or, decide_eq_true_eq, not_not, Bool.not_eq_true] at hassert
    obtain ⟨hwait, hopen⟩ := hassert
    obtain ⟨⟨c₁, done₁⟩, hgenerator, h⟩ := Option.bind_eq_some_iff.1 h
    obtain ⟨rfl, rfl⟩ := Prod.mk.inj (Option.some.inj h)
    refine ⟨hwait, ?_⟩
    obtain ⟨g, hturn | ⟨q, hturn⟩ | ⟨data, hturn⟩ | ⟨hturn, hsilent⟩⟩ :=
      generatorTurn_cases hgenerator
    · -- a promise
      obtain ⟨rfl, rfl⟩ := Prod.mk.inj hturn
      have hpending : ¬ (servePromise { c with generator := g }).waitResolve = 0 :=
        Nat.succ_ne_zero _
      simp only [hpending, decide_false, Bool.false_and, Bool.false_eq_true, if_false]
      exact ⟨rfl, rfl, nofun, fun _ => Or.inl (Or.inl hpending)⟩
    · -- the iterator is done
      obtain ⟨rfl, rfl⟩ := Prod.mk.inj hturn
      have hset : ({ c with generator := g }.setSendq q).waitResolve = 0 := hwait
      simp only [hset, decide_true, Bool.or_true, Bool.and_true, if_true]
      exact ⟨rfl, rfl, fun _ => Or.inr wantWrite_set', nofun⟩
    · -- a value with data
      obtain ⟨rfl, rfl⟩ := Prod.mk.inj hturn
      have hset : ({ c with generator := g }.setSendq (queueWrite c.session.sendq data).1).waitResolve
          = 0 := hwait
      obtain ⟨hne, hincomplete⟩ := queueWrite_incomplete hopen data
      simp only [hset, decide_true, Bool.or_false, Bool.true_and]
      split
      · exact ⟨rfl, rfl, nofun, fun _ => Or.inl (Or.inr wantWrite_set')⟩
      · next hbytes =>
        rw [decide_eq_true_eq, not_not] at hbytes
        exact ⟨rfl, rfl, nofun, fun _ => Or.inr (Or.inl ⟨hne, hbytes, hincomplete⟩)⟩
    · -- a value without
      obtain ⟨rfl, rfl⟩ := Prod.mk.inj hturn
      simp only [hwait, decide_true, Bool.or_false, Bool.true_and]
      split
      · exact ⟨rfl, rfl, nofun, fun _ => Or.inl (Or.inr wantWrite_set')⟩
      · next hbytes =>
        rw [decide_eq_true_eq, not_not] at hbytes
        exact ⟨rfl, rfl, nofun, fun _ => Or.inr (Or.inr ⟨hsilent, hbytes, g, rfl⟩)⟩

/-- The headers have no part in the generator's turn. -/
theorem serveGenerator_headers {done : Bool} (h : serveGenerator lws c = some (c', done)) :
    c'.responseSent = c.responseSent ∧ c'.hasResp = c.hasResp ∧ c'.head = c.head := by
  simp only [serveGenerator] at h
  split at h
  · cases h
  · obtain ⟨⟨c₁, done₁⟩, hturn, h⟩ := Option.bind_eq_some_iff.1 h
    have hturned : c₁.responseSent = c.responseSent ∧ c₁.hasResp = c.hasResp ∧ c₁.head = c.head := by
      obtain ⟨g, hr | ⟨q, hr⟩ | ⟨data, hr⟩ | ⟨hr, -⟩⟩ := generatorTurn_cases hturn
      · obtain ⟨rfl, -⟩ := Prod.mk.inj hr
        exact ⟨rfl, rfl, rfl⟩
      · obtain ⟨rfl, -⟩ := Prod.mk.inj hr
        exact ⟨rfl, rfl, rfl⟩
      · obtain ⟨rfl, -⟩ := Prod.mk.inj hr
        exact ⟨rfl, rfl, rfl⟩
      · obtain ⟨rfl, -⟩ := Prod.mk.inj hr
        exact ⟨rfl, rfl, rfl⟩
    obtain ⟨rfl, -⟩ := Prod.mk.inj (Option.some.inj h)
    split
    · exact hturned
    · exact hturned

theorem serveGenerator_silent (h : c.Silent) (hwait : c.waitResolve = 0)
    (hbytes : queueBytes c.session.sendq = 0) {done : Bool}
    (hserve : serveGenerator lws c = some (c', done)) :
    done = false ∧ ∃ g, c' = { c with generator := g } := by
  obtain ⟨v, results, hg, hv⟩ := h
  simp only [serveGenerator, hwait] at hserve
  split at hserve
  · cases hserve
  · obtain ⟨⟨c₁, done₁⟩, hturn, hserve⟩ := Option.bind_eq_some_iff.1 hserve
    have hc₁ : c₁ = { c with generator := some (.sync results) } ∧ done₁ = false := by
      simp only [generatorTurn, hg] at hturn
      obtain ⟨⟨p, ret⟩, hnext, hturn⟩ := Option.bind_eq_some_iff.1 hturn
      obtain ⟨-, hret⟩ := jsIteratorNext_iff.1 hnext
      obtain ⟨rfl, rfl⟩ := Prod.mk.inj hret
      simp only [hv, Option.some.injEq, Prod.mk.injEq] at hturn
      exact ⟨hturn.1.symm, hturn.2.symm⟩
    obtain ⟨rfl, rfl⟩ := hc₁
    obtain ⟨rfl, rfl⟩ := Prod.mk.inj (Option.some.inj hserve)
    refine ⟨rfl, some (.sync results), ?_⟩
    simp [hwait, hbytes]

/-! ## The write -/

/-- The state after the front of the queue `q` behind `p` has been written. -/
def afterChunk (lws : LwsHttp) (c : HttpConnection) (p : QueuePtr) (q : Queue) (n : Int) :
    HttpConnection :=
  let (_, ctx, buf, _, _) := queueNext q c.ctx
  writeChunk lws { c.store p q.delHead with ctx } (queueComplete q.delHead) n buf.data

/-- What is not a queue stays as it is. -/
structure HttpConnection.SameFlags (c c' : HttpConnection) : Prop where
  waitResolve : c'.waitResolve = c.waitResolve
  wantWrite : c'.session.wantWrite = c.session.wantWrite
  generator : c'.generator = c.generator

theorem HttpConnection.SameFlags.awake (h : c.SameFlags c') (hc : c.Awake) : c'.Awake := by
  unfold HttpConnection.Awake at *
  rwa [h.waitResolve, h.wantWrite]

theorem store_sameFlags (c : HttpConnection) (p : QueuePtr) (q : Queue) : c.SameFlags (c.store p q) := by
  cases p <;> exact ⟨rfl, rfl, rfl⟩

theorem store_completed (c : HttpConnection) (p : QueuePtr) (q : Queue) :
    (c.store p q).completed = c.completed := by
  cases p <;> rfl

theorem closeAt_spec (h : c.closeAt p = some c') :
    c.SameFlags c' ∧ c'.completed = c.completed := by
  obtain ⟨q, -, h⟩ := Option.bind_eq_some_iff.1 h
  obtain ⟨⟨q', n⟩, -, h⟩ := Option.bind_eq_some_iff.1 h
  obtain rfl := Option.some.inj h
  exact ⟨store_sameFlags c p q', store_completed c p q'⟩

theorem deref_afterChunk (h : c.deref (sessionQueue c) = some q) (n : Int) :
    (afterChunk lws c (sessionQueue c) q n).deref (sessionQueue c) = some q.delHead := by
  rcases deref_sessionQueue h with ⟨hp, -, -⟩ | ⟨hp, -, -⟩ <;> rw [hp] <;> rfl

theorem afterChunk_spec (lws : LwsHttp) (c : HttpConnection) (p : QueuePtr) (q : Queue) (n : Int) :
    c.SameFlags (afterChunk lws c p q n) ∧ (afterChunk lws c p q n).completed = c.completed := by
  cases p <;> exact ⟨⟨rfl, rfl, rfl⟩, rfl⟩

theorem httpServerWriteable_zero (hq : c.deref (sessionQueue c) = some q) (hbytes : queueBytes q = 0)
    (done : Bool) : httpServerWriteable lws c done = some (c.complete 1, true) := by
  simp only [httpServerWriteable, hq, Option.bind_eq_bind, Option.bind_some, hbytes, ne_eq,
    not_true_eq_false, if_false, Bool.true_or, if_true]

theorem httpServerWriteable_closed (hq : c.deref (sessionQueue c) = some q)
    (hbytes : queueBytes q ≠ 0) (hclosed : queueClosed q = true) (done : Bool) :
    ∃ c', httpServerWriteable lws c done = some (c', true) ∧ c.SameFlags c' ∧
      c.completed < c'.completed := by
  obtain ⟨i, is, hitems⟩ := queueBytes_ne_zero hbytes
  have hdone : i.done = true := by simpa [queueClosed, queueFront, hitems] using hclosed
  have hnext : queueNext q c.ctx = (q, callUnref c.ctx i.unref, i.block, true, i.binary) := by
    simp [queueNext, queueFront, hitems, hdone]
  let c₁ : HttpConnection := { c.store (sessionQueue c) q with ctx := callUnref c.ctx i.unref }
  have hderef : ∀ n, (writeChunk lws c₁ (queueComplete q) n i.block.data).deref (sessionQueue c)
      = some q := by
    intro n
    rcases deref_sessionQueue hq with ⟨hp, -, -⟩ | ⟨hp, -, -⟩ <;> simp only [c₁, hp] <;> rfl
  refine ⟨(writeChunk lws c₁ (queueComplete q) (if done then lwsWriteHttpFinal else lwsWriteHttp)
    i.block.data).complete 1, ?_, ?_⟩
  · simp only [httpServerWriteable, hq, Option.bind_eq_bind, Option.bind_some, hbytes, ne_eq,
      not_false_eq_true, if_true, hnext, Bool.true_or]
    exact Option.bind_eq_some_iff.2 ⟨q, hderef _, rfl⟩
  · obtain ⟨h1, h2, h3⟩ := store_sameFlags c (sessionQueue c) q
    exact ⟨⟨h1, h2, h3⟩,
      Nat.lt_succ_of_le (Nat.le_of_eq (store_completed c (sessionQueue c) q).symm)⟩

theorem httpServerWriteable_front (hq : c.deref (sessionQueue c) = some q)
    (hbytes : queueBytes q ≠ 0) (hclosed : queueClosed q = false) (done : Bool) :
    httpServerWriteable lws c done =
      let c' := afterChunk lws c (sessionQueue c) q
        (if done then lwsWriteHttpFinal else lwsWriteHttp)
      some (if queueClosed q.delHead then (c'.complete 1, true) else (c', false)) := by
  obtain ⟨i, is, hitems⟩ := queueBytes_ne_zero hbytes
  obtain ⟨j, js, -, hnext⟩ := queueNext_front hclosed (by simp [hitems]) c.ctx
  have hafter : ∀ n, writeChunk lws { c.store (sessionQueue c) q.delHead with
        ctx := callUnref c.ctx j.unref } (queueComplete q.delHead) n j.block.data
      = afterChunk lws c (sessionQueue c) q n := by
    intro n
    simp only [afterChunk, hnext]
  simp only [httpServerWriteable, hq, Option.bind_eq_bind, Option.bind_some, hbytes, ne_eq,
    not_false_eq_true, if_true, hnext, hafter, deref_afterChunk hq, Bool.false_or]

theorem httpServerWriteable_cases {done r : Bool}
    (h : httpServerWriteable lws c done = some (c', r)) :
    ∃ q, c.deref (sessionQueue c) = some q ∧ c.SameFlags c' ∧
      ((r = true ∧ c.completed < c'.completed ∧
          (queueBytes q = 0 ∨ queueClosed q = true ∨ queueClosed q.delHead = true)) ∨
        (r = false ∧ queueBytes q ≠ 0 ∧ queueClosed q = false ∧ queueClosed q.delHead = false ∧
          ∃ n, c' = afterChunk lws c (sessionQueue c) q n)) := by
  obtain ⟨q, hq, -⟩ := Option.bind_eq_some_iff.1 h
  refine ⟨q, hq, ?_⟩
  by_cases hbytes : queueBytes q = 0
  · rw [httpServerWriteable_zero hq hbytes] at h
    obtain ⟨rfl, rfl⟩ := Prod.mk.inj (Option.some.inj h)
    exact ⟨⟨rfl, rfl, rfl⟩, Or.inl ⟨rfl, Nat.lt_succ_self _, Or.inl hbytes⟩⟩
  · cases hclosed : queueClosed q with
    | true =>
      obtain ⟨c₁, hc₁, hsame, hlt⟩ := @httpServerWriteable_closed lws c q hq hbytes hclosed done
      rw [hc₁] at h
      obtain ⟨rfl, rfl⟩ := Prod.mk.inj (Option.some.inj h)
      exact ⟨hsame, Or.inl ⟨rfl, hlt, Or.inr (Or.inl rfl)⟩⟩
    | false =>
      rw [httpServerWriteable_front hq hbytes hclosed] at h
      obtain ⟨hsame, hcompleted⟩ := afterChunk_spec lws c (sessionQueue c) q
        (if done then lwsWriteHttpFinal else lwsWriteHttp)
      simp only [Option.some.injEq] at h
      split at h
      · next hclosed' =>
        obtain ⟨rfl, rfl⟩ := Prod.mk.inj h
        exact ⟨⟨hsame.waitResolve, hsame.wantWrite, hsame.generator⟩,
          Or.inl ⟨rfl, Nat.lt_succ_of_le (Nat.le_of_eq hcompleted.symm), Or.inr (Or.inr hclosed')⟩⟩
      · next hclosed' =>
        obtain ⟨rfl, rfl⟩ := Prod.mk.inj h
        rw [Bool.not_eq_true] at hclosed'
        exact ⟨hsame, Or.inr ⟨rfl, hbytes, rfl, hclosed', _, rfl⟩⟩

theorem writeBody_cases (h : writeBody lws c p = some c') :
    c.SameFlags c' ∧
      ((c.deref p = none ∧ c' = c) ∨
        (c.completed < c'.completed ∧ ∃ q, c.deref (sessionQueue c) = some q ∧
          (queueBytes q = 0 ∨ queueClosed q = true ∨ queueClosed q.delHead = true)) ∨
        ∃ q n, c.deref (sessionQueue c) = some q ∧ queueBytes q ≠ 0 ∧ queueClosed q = false ∧
          queueClosed q.delHead = false ∧ c' = afterChunk lws c (sessionQueue c) q n) := by
  unfold writeBody at h
  split at h
  · next hnull =>
    obtain rfl := Option.some.inj h
    exact ⟨⟨rfl, rfl, rfl⟩, Or.inl ⟨hnull, rfl⟩⟩
  · obtain ⟨⟨c₁, r⟩, hwrite, h⟩ := Option.bind_eq_some_iff.1 h
    obtain ⟨q, hq, hsame, ⟨rfl, hlt, hlast⟩ | ⟨rfl, hbytes, hclosed, hclosed', n, rfl⟩⟩ :=
      httpServerWriteable_cases hwrite
    · simp only [if_true] at h
      obtain ⟨q', -, h⟩ := Option.bind_eq_some_iff.1 h
      obtain rfl := Option.some.inj h
      have hcomplete : ∀ n, c.SameFlags (c₁.complete n) := fun n =>
        ⟨hsame.waitResolve, hsame.wantWrite, hsame.generator⟩
      split
      · refine ⟨hcomplete (lws.fileCompletion + 1), Or.inr (Or.inl ⟨?_, q, hq, hlast⟩)⟩
        exact Nat.lt_add_right 1 (Nat.lt_add_right lws.fileCompletion hlt)
      · refine ⟨hcomplete lws.fileCompletion, Or.inr (Or.inl ⟨?_, q, hq, hlast⟩)⟩
        exact Nat.lt_add_right _ hlt
    · simp only [Bool.false_eq_true, if_false, Option.some.injEq] at h
      subst h
      exact ⟨hsame, Or.inr (Or.inr ⟨q, n, hq, hbytes, hclosed, hclosed', rfl⟩)⟩

/-! ## Before and after the write -/

/-- The generator is not asked to fill the queue. -/
def HttpConnection.Unfilled (c : HttpConnection) (p : QueuePtr) : Prop :=
  ∃ q, c.deref p = some q ∧
    (queueBytes q % 2 ^ 32 ≠ 0 ∨ (queueClosed q || queueComplete q) = true)

theorem unfilled_iff : ((c.deref p).all fun q =>
    queueBytes q % 2 ^ 32 = 0 && !(queueClosed q || queueComplete q)) = true ↔ ¬ c.Unfilled p := by
  unfold HttpConnection.Unfilled
  cases c.deref p with
  | none => simp
  | some q =>
    rw [Option.all_some, Bool.and_eq_true, decide_eq_true_eq, Bool.not_eq_true']
    simp only [Option.some.injEq, exists_eq_left', not_or, ne_eq, not_not, Bool.not_eq_true]

/-- The size the event goes on with. -/
def HttpConnection.sizeAt (c : HttpConnection) (p : QueuePtr) (qsize : Nat) : Nat :=
  (c.deref p).elim qsize fun q => queueBytes q % 2 ^ 32

theorem fillQueue_unfilled (h : c.Unfilled p ∨ c.waitResolve ≠ 0) :
    fillQueue lws c p qsize = some (c, p, c.sizeAt p qsize) := by
  unfold fillQueue
  have hskip : ¬ (((c.deref p).all fun q =>
      queueBytes q % 2 ^ 32 = 0 && !(queueClosed q || queueComplete q)) && c.waitResolve = 0)
        = true := by
    rw [Bool.and_eq_true, unfilled_iff, decide_eq_true_eq]
    intro h'
    obtain ⟨hfill, hwait⟩ := h'
    exact h.elim hfill fun hne => hne hwait
  rw [if_neg hskip]
  rfl

theorem fillQueue_filled {p' : QueuePtr} {size : Nat} (hfill : ¬ c.Unfilled p)
    (hwait : c.waitResolve = 0) (h : fillQueue lws c p qsize = some (c', p', size)) :
    c'.completed = c.completed ∧
      ((¬ (c.Silent ∧ queueBytes c.session.sendq = 0) ∧ (c'.Awake ∨ c'.Blank)) ∨
        (c.Silent ∧ queueBytes c.session.sendq = 0 ∧ p' = p ∧ size = c.sizeAt p qsize ∧
          ∃ g, c' = { c with generator := g })) := by
  have hask : (((c.deref p).all fun q =>
      queueBytes q % 2 ^ 32 = 0 && !(queueClosed q || queueComplete q)) && c.waitResolve = 0)
        = true := by
    rw [Bool.and_eq_true, unfilled_iff, decide_eq_true_eq]
    exact ⟨hfill, hwait⟩
  unfold fillQueue at h
  rw [if_pos hask] at h
  obtain ⟨⟨c₁, done⟩, hserve, h⟩ := Option.bind_eq_some_iff.1 h
  obtain ⟨-, hcompleted, -, hdone, hmore⟩ := serveGenerator_cases hserve
  -- Either the iterator's value leaves everything as it was, or somebody will ask for an event.
  by_cases hsilent : c.Silent ∧ queueBytes c.session.sendq = 0
  · obtain ⟨rfl, g, rfl⟩ := serveGenerator_silent hsilent.1 hwait hsilent.2 hserve
    simp only [Bool.false_eq_true, if_false, Bool.false_and, Option.some.injEq,
      Prod.mk.injEq] at h
    obtain ⟨rfl, rfl, rfl⟩ := h
    exact ⟨rfl, Or.inr ⟨hsilent.1, hsilent.2, rfl, rfl, g, rfl⟩⟩
  · cases done with
    | true =>
      simp only [if_true, Bool.true_and] at h
      split at h
      · obtain ⟨c₂, hclose, h⟩ := Option.bind_eq_some_iff.1 h
        obtain ⟨rfl, -⟩ := Prod.mk.inj (Option.some.inj h)
        obtain ⟨hsame, hcompleted'⟩ := closeAt_spec hclose
        exact ⟨hcompleted'.trans hcompleted, Or.inl ⟨hsilent, Or.inl (hsame.awake (hdone rfl))⟩⟩
      · obtain ⟨rfl, -⟩ := Prod.mk.inj (Option.some.inj h)
        exact ⟨hcompleted, Or.inl ⟨hsilent, Or.inl (hdone rfl)⟩⟩
    | false =>
      simp only [Bool.false_eq_true, if_false, Bool.false_and, Option.some.injEq,
        Prod.mk.injEq] at h
      obtain ⟨rfl, -⟩ := h
      refine ⟨hcompleted, Or.inl ⟨hsilent, ?_⟩⟩
      rcases hmore rfl with hawake | hblank | ⟨hs, hbytes, -⟩
      · exact Or.inl hawake
      · exact Or.inr hblank
      · exact absurd ⟨hs, hbytes⟩ hsilent

theorem refill_completed (h : refill lws c p qsize = some c') : c'.completed = c.completed := by
  unfold refill at h
  split at h
  · obtain ⟨q, -, h⟩ := Option.bind_eq_some_iff.1 h
    split at h
    · obtain ⟨⟨c₁, done⟩, hserve, h⟩ := Option.bind_eq_some_iff.1 h
      obtain ⟨-, hcompleted, -⟩ := serveGenerator_cases hserve
      cases done with
      | true => exact (closeAt_spec h).2.trans hcompleted
      | false =>
        simp only [Bool.false_eq_true, if_false, Option.some.injEq] at h
        exact h ▸ hcompleted
    · exact Option.some.inj h ▸ rfl
  · exact Option.some.inj h ▸ rfl

/-! ## The headers -/

/-- The headers have been sent, or there is a response whose headers will be. -/
def HttpConnection.answered (c : HttpConnection) : Bool := c.responseSent || c.hasResp

/-- The body's queue once the headers are sent: a response made for them has none. -/
def HttpConnection.bodyBehind (c : HttpConnection) : Option Queue :=
  if c.answered then c.bodyq else none

/-- What a writeable event goes on with after the headers. -/
theorem serveResponse_spec (headers : HeaderWrites) (c : HttpConnection) (p : QueuePtr) :
    c.SameFlags (serveResponse headers c p).1 ∧
      (serveResponse headers c p).1.completed = c.completed ∧
      (serveResponse headers c p).1.toConnection = c.toConnection ∧
      (serveResponse headers c p).1.bodyq = c.bodyBehind := by
  have hresponse : c.SameFlags c.withResponse ∧ c.withResponse.completed = c.completed ∧
      c.withResponse.toConnection = c.toConnection ∧
      (c.responseSent = false → c.withResponse.bodyq = c.bodyBehind) := by
    unfold HttpConnection.withResponse HttpConnection.bodyBehind HttpConnection.answered
    cases hresp : c.hasResp with
    | false => exact ⟨⟨rfl, rfl, rfl⟩, rfl, rfl, fun hsent => by simp [hsent]⟩
    | true => exact ⟨⟨rfl, rfl, rfl⟩, rfl, rfl, fun _ => by simp⟩
  obtain ⟨⟨hwait, hwant, hgenerator⟩, hcompleted, hconn, hbody⟩ := hresponse
  unfold serveResponse
  split
  · next hsent =>
    refine ⟨⟨rfl, rfl, rfl⟩, rfl, rfl, ?_⟩
    rw [HttpConnection.bodyBehind, HttpConnection.answered, hsent]
    rfl
  · next hsent =>
    have hbody' := hbody (Bool.not_eq_true _ ▸ hsent)
    dsimp only
    split
    · exact ⟨⟨hwait, hwant, hgenerator⟩, hcompleted, hconn, hbody'⟩
    · split
      · exact ⟨⟨hwait, hwant, hgenerator⟩, hcompleted, hconn, hbody'⟩
      · split
        · exact ⟨⟨hwait, hwant, hgenerator⟩, hcompleted, hconn, hbody'⟩
        · exact ⟨⟨hwait, hwant, hgenerator⟩, hcompleted, hconn, hbody'⟩

/-- The pointer that a writeable event goes on with. -/
theorem serveResponse_pointer (headers : HeaderWrites) (c : HttpConnection) (p : QueuePtr) :
    (serveResponse headers c p).2.1 = if c.responseSent then p else c.pointer p := by
  unfold serveResponse
  split
  · rfl
  · dsimp only
    split
    · rfl
    · split
      · rfl
      · split <;> rfl

/-- The response is a redirect, or its headers cannot be written. -/
def HeaderWrites.Stops (headers : HeaderWrites) (head : ResponseHead) : Prop :=
  (head.redirects = true ∧ head.location = true ∧ headers.redirect ≠ 0) ∨
    (head.redirects = false ∧ headers.commonFails = true) ∨ headers.finalizeFails = true

/-- The event returns before it writes anything of the body. -/
def HttpConnection.Leaves (c : HttpConnection) (headers : HeaderWrites) : Prop :=
  c.responseSent = false ∧ headers.Stops c.withResponse.head

theorem leaves_congr {headers : HeaderWrites} (hsent : c'.responseSent = c.responseSent)
    (hresp : c'.hasResp = c.hasResp) (hhead : c'.head = c.head) :
    c'.Leaves headers ↔ c.Leaves headers := by
  have hresponse : c'.withResponse.head = c.withResponse.head := by
    unfold HttpConnection.withResponse
    rw [hresp]
    split
    · exact hhead
    · rfl
  unfold HttpConnection.Leaves
  rw [hsent, hresponse]

/-- The event does not return after the headers. -/
abbrev HttpConnection.Stays (c : HttpConnection) (headers : HeaderWrites) : Prop := ¬ c.Leaves headers

theorem HttpConnection.Stays.congr {headers : HeaderWrites} (h : c.Stays headers)
    (hsent : c'.responseSent = c.responseSent) (hresp : c'.hasResp = c.hasResp)
    (hhead : c'.head = c.head) : c'.Stays headers :=
  fun h' => h ((leaves_congr hsent hresp hhead).1 h')

theorem sent_stays (headers : HeaderWrites) (h : c.responseSent = true) : c.Stays headers := by
  intro h'
  exact absurd (h.symm.trans h'.1) (by decide)

theorem serveResponse_stays {headers : HeaderWrites} (hsent : c.responseSent = false)
    (h : c.Stays headers) (p : QueuePtr) :
    serveResponse headers c p =
      ({ c.withResponse with
          responseSent := true
          announced := if c.withResponse.head.redirects then none
            else (c.withResponse.deref (sessionQueue c.withResponse)).bind fun q =>
              if queueComplete q then some (queueBytes q) else none }, c.pointer p, 0) := by
  obtain ⟨hredirect, hcommon, hfinalize⟩ : ¬ _ ∧ ¬ _ ∧ ¬ _ :=
    ⟨fun h' => h ⟨hsent, Or.inl h'⟩, fun h' => h ⟨hsent, Or.inr (Or.inl h')⟩,
      fun h' => h ⟨hsent, Or.inr (Or.inr h')⟩⟩
  have hredirect' : ¬ (c.withResponse.head.redirects && c.withResponse.head.location &&
      decide (headers.redirect ≠ 0)) = true := by
    simpa [and_assoc] using hredirect
  have hcommon' : ¬ (!c.withResponse.head.redirects && headers.commonFails) = true := by
    simpa using hcommon
  have hunsent : ¬ c.responseSent = true := by
    rw [hsent]
    exact Bool.false_ne_true
  unfold serveResponse
  rw [if_neg hunsent]
  dsimp only
  rw [if_neg hredirect', if_neg hcommon', if_neg hfinalize]

theorem serveResponse_sent {headers : HeaderWrites} (h : c.Stays headers) (p : QueuePtr) :
    (serveResponse headers c p).1.responseSent = true := by
  cases hsent : c.responseSent with
  | false => rw [serveResponse_stays hsent h]
  | true =>
    unfold serveResponse
    rw [if_pos hsent]
    exact hsent

theorem serveResponse_leaves (headers : HeaderWrites) (c : HttpConnection) (p : QueuePtr) :
    (serveResponse headers c p).2.2 ≠ 0 ↔ c.Leaves headers := by
  unfold serveResponse HttpConnection.Leaves HeaderWrites.Stops
  split
  · next hsent => simp [hsent]
  · next hsent =>
    rw [Bool.not_eq_true] at hsent
    dsimp only
    rw [hsent, eq_self, true_and]
    split
    · next h =>
      refine iff_of_true Nat.one_ne_zero (Or.inl ?_)
      simpa [and_assoc] using h
    · next hredirect =>
      split
      · next h =>
        refine iff_of_true Nat.one_ne_zero (Or.inr (Or.inl ?_))
        simpa using h
      · next hcommon =>
        have hcommon' : ¬ (c.withResponse.head.redirects = false ∧ headers.commonFails = true) := by
          simpa using hcommon
        have hredirect' : ¬ (c.withResponse.head.redirects = true ∧
            c.withResponse.head.location = true ∧ headers.redirect ≠ 0) := by
          simpa [and_assoc] using hredirect
        split
        · next h => exact iff_of_true (Nat.succ_ne_zero 1) (Or.inr (Or.inr h))
        · next h =>
          refine iff_of_false (fun hne => hne rfl) ?_
          rintro (h' | h' | h')
          · exact hredirect' h'
          · exact hcommon' h'
          · exact h h'

end QjsNet
