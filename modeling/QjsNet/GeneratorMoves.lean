import QjsNet.GeneratorSizes

/- What becomes of the bytes of a generator, as numbers.

   A generator that was stopped may still be written to. A put behind the end of its
   queue is refused, except that a buffering generator merges it into the chunk before
   the end and then keeps no more than the chunk size of this chunk (`PutInto`). The
   loops move bytes from the queue to the reads (`Moves`). Both keep `ByteInv`, which
   unlike `ApiInv` allows for reads that a finish has left without an item. -/
namespace QjsNet

/-- A buffering generator merges into this chunk even behind the end of the queue. -/
def Generator.mergeChunk (gen : Generator) : Option QueueItem :=
  if gen.buffering then (queueLastChunk gen.queue).bind (gen.queue.items[·]?) else none

def Generator.mergeSize (gen : Generator) : Nat := gen.mergeChunk.elim 0 (·.block.size)

/-- How many of `n` bytes the queue takes. Behind its end it takes what fits into the chunk that is
merged into. -/
def Generator.takes (gen : Generator) (n : Nat) : Nat :=
  if queueComplete gen.queue then
    if gen.mergeChunk.isSome then min n (gen.chunkSize - gen.mergeSize) else 0
  else n

/-- How many bytes it loses then. -/
def Generator.loses (gen : Generator) : Nat :=
  if queueComplete gen.queue && gen.mergeChunk.isSome then gen.mergeSize - gen.chunkSize else 0

/-- The bytes of the items that go to reads. -/
def Generator.leavingBytes (gen : Generator) (reads : Nat) (sizes : List Nat) : Nat :=
  (sizes.take (gen.leaving reads sizes)).sum

variable {gen gen' gen'' : Generator} {m n : Nat}

/-! ## Moving bytes from the queue to the reads -/

structure Moves (given : Nat) (gen gen' : Generator) : Prop where
  frame : ∃ it q ctx n, gen' = { gen with iterator := it, q := q, ctx := ctx, chunksRead := n }
  serves : Serves 0 gen gen'
  settled : (settledBytes gen'.ctx.settlements).length
    = (settledBytes gen.ctx.settlements).length + given
  queued : queueBytes gen'.queue + given = queueBytes gen.queue

theorem Moves.refl (gen : Generator) : Moves 0 gen gen :=
  ⟨⟨_, _, _, _, rfl⟩, .refl gen, rfl, rfl⟩

theorem Moves.trans (h1 : Moves m gen gen') (h2 : Moves n gen' gen'') :
    Moves (m + n) gen gen'' := by
  refine ⟨?_, h1.serves.trans h2.serves, ?_, ?_⟩
  · obtain ⟨it, q, ctx, k, rfl⟩ := h1.frame
    obtain ⟨it', q', ctx', k', rfl⟩ := h2.frame
    exact ⟨it', q', ctx', k', rfl⟩
  · rw [h2.settled, h1.settled, Nat.add_assoc]
  · rw [← h1.queued, ← h2.queued]
    omega

theorem sum_itemsSizes (items : List QueueItem) :
    (itemsSizes items).sum = (itemsBytes items).length := by
  unfold itemsSizes itemsBytes
  rw [List.length_flatMap]
  rfl

theorem Delivers.moves {fns : Nat → Prop} {k : Nat} (hk : Delivers fns gen gen' k) :
    Moves ((itemsSizes gen.queue.items).take k).sum gen gen' := by
  have hlen : (gen.queue.items.take k).length ≤ (gen.iterator.reads.take k).length := by
    have hreads := hk.reads
    have hcount := hk.count
    simp only [List.length_take]
    omega
  have htake : ((itemsSizes gen.queue.items).take k).sum
      = (itemsBytes (gen.queue.items.take k)).length := by
    rw [← sum_itemsSizes]
    unfold itemsSizes
    rw [List.map_take]
  refine ⟨?_, hk.serves, ?_, ?_⟩
  · have hbytesRead := hk.bytesRead
    obtain ⟨q, ctx, n, m, rfl⟩ := hk.frame
    exact ⟨_, q, ctx, m, by rw [← show n = gen.bytesRead from hbytesRead]⟩
  · rw [hk.settlements, settledBytes_append, List.length_append,
      settledBytes_deliveries gen _ _ hlen, htake]
  · rw [queueBytes_eq, queueBytes_eq, hk.items, htake, ← itemsBytes_take_drop gen.queue.items k,
      List.length_append, Nat.add_comm]

theorem moves_stop (gen : Generator) (v : JSValue) : Moves 0 gen (iteratorStop gen v) := by
  refine ⟨⟨_, _, _, _, rfl⟩, serves_stop gen v, ?_, rfl⟩
  cases hreads : gen.iterator.reads with
  | nil => rw [iteratorStop_nil hreads]; rfl
  | cons rd reads =>
    rw [iteratorStop_cons hreads]
    have hrejected : ∀ reads : List AsyncRead, settledBytes
        (reads.map fun rd => (rd.capability, Settlement.rejected .null)) = [] := by
      intro reads
      induction reads with
      | nil => rfl
      | cons rd reads ih => rw [List.map_cons, settledBytes_cons, ih]; rfl
    simp only [(rejectReads_spec ..).1, settlements_resolve, settledBytes_append, hrejected]
    simp [Settlement.bytes]

/-! ## What every call keeps -/

/-- Reads wait on a stopped generator only when a finish found too few items for them. -/
structure ByteInv (gen : Generator) : Prop where
  marked : EndMarked gen.queue.items
  separate : gen.queue.continuous = false
  ended : queueComplete gen.queue = true → Stopped gen
  drained : Stopped gen → gen.iterator.reads = [] ∨ gen.queue.items = [doneItem]
  unrefs : UserCallbacks (fun _ => True) gen.queue.items
  size : gen.buffering = false → gen.chunkSize = 0

theorem ByteInv.isOpen (h : ByteInv gen) (hs : ¬ Stopped gen) : OpenItems gen.queue.items := by
  rcases complete_or_open h.marked with ⟨hopen, _⟩ | ⟨_, hc⟩
  · exact hopen
  · exact absurd (h.ended hc) hs

theorem ByteInv.congr (h : ByteInv gen) (hit : gen'.iterator = gen.iterator)
    (hq : gen'.queue = gen.queue) (hsize : gen'.buffering = false → gen'.chunkSize = 0) :
    ByteInv gen' := by
  refine ⟨hq ▸ h.marked, by rw [hq]; exact h.separate, ?_, ?_, by rw [hq]; exact h.unrefs, hsize⟩
  · unfold Stopped
    rw [hit, hq]
    exact h.ended
  · unfold Stopped
    rw [hit, hq]
    exact h.drained

theorem Moves.setting (h : Moves n gen gen') (hsize : gen.buffering = false → gen.chunkSize = 0) :
    gen'.buffering = false → gen'.chunkSize = 0 := by
  obtain ⟨it, q, ctx, k, rfl⟩ := h.frame
  exact hsize

theorem ByteInv.delivers {fns : Nat → Prop} {k : Nat} (h : ByteInv gen) (hs : ¬ Stopped gen)
    (hk : Delivers fns gen gen' k) : ByteInv gen' := by
  have hopen : OpenItems gen'.queue.items := hk.items ▸ (h.isOpen hs).drop k
  refine ⟨.of_open hopen, hk.continuous.trans h.separate, ?_, ?_, hk.items ▸ h.unrefs.drop k,
    hk.moves.setting h.size⟩
  · intro hc
    rw [queueComplete_of_open hopen] at hc
    cases hc
  · intro hs'
    refine absurd ?_ hs
    unfold Stopped at hs' ⊢
    rw [hk.iterator] at hs'
    exact hs'

/-- A turn of a loop on a queue that holds nothing but its end. -/
theorem deliverFront_done {q : Queue} {rd : AsyncRead} {reads : List AsyncRead}
    (hitems : q.items = [doneItem]) (hreads : gen.iterator.reads = rd :: reads) :
    deliverFront gen q = ({ gen with
      iterator := { gen.iterator with reads }
      q := some q
      ctx := jsCall gen.ctx (.resolve rd.capability) [.iteratorResult .undefined true] }, true) := by
  simp [deliverFront, dequeueValue, queueNext, queueFront, hitems, doneItem, callUnref,
    emplace_cons hreads, ByteBlock.size, ByteBlock.data]

theorem moves_done {q : Queue} {rd : AsyncRead} {reads : List AsyncRead} (hq : gen.q = some q)
    (hreads : gen.iterator.reads = rd :: reads) (closed : Bool)
    (hclosed : gen.iterator.closed = true → closed = true) : Moves 0 gen { gen with
      iterator := { gen.iterator with reads, closed }
      q := some q
      ctx := jsCall gen.ctx (.resolve rd.capability) [.iteratorResult .undefined true] } := by
  have hqueue := queue_of_q hq
  refine ⟨⟨_, _, _, _, rfl⟩, ?_, ?_, ?_⟩
  · refine ⟨rfl, rfl, rfl, rfl, rfl, ⟨_, settlements_resolve .., ?_⟩, ?_, ?_⟩
    · simp [AsyncIterator.waiting, hreads]
    · rw [hqueue]
      exact id
    · intro hs
      rcases hs with hs | hs
      · exact Or.inl hs
      · exact Or.inr (hclosed hs)
  · rw [settlements_resolve, settledBytes_append, List.length_append]
    rfl
  · rw [hqueue]
    rfl

theorem updateLoop_done : ∀ (fuel : Nat) (gen : Generator), gen.queue.items = [doneItem] →
    Moves 0 gen (updateLoop fuel gen).1 ∧ (updateLoop fuel gen).1.queue.items = [doneItem] := by
  intro fuel
  induction fuel with
  | zero => exact fun gen hitems => ⟨.refl gen, hitems⟩
  | succ fuel ih =>
    intro gen hitems
    obtain ⟨q, hq, hqi⟩ := q_of_items hitems
    unfold updateLoop
    simp only [hq, hitems]
    split
    · exact ⟨.refl gen, hitems⟩
    · next hreads =>
      split
      · exact ⟨.refl gen, hitems⟩
      · obtain ⟨rd, reads, hreads⟩ := List.exists_cons_of_ne_nil
          (show gen.iterator.reads ≠ [] by simpa using hreads)
        rw [deliverFront_done hqi hreads]
        obtain ⟨hrest, hdone⟩ := ih { gen with
          iterator := { gen.iterator with reads, closed := true }
          q := some q
          ctx := jsCall gen.ctx (.resolve rd.capability) [.iteratorResult .undefined true] } hqi
        exact ⟨(moves_done hq hreads true fun _ => rfl).trans hrest, hdone⟩

theorem writeLoop_done : ∀ (fuel : Nat) (gen : Generator), gen.queue.items = [doneItem] →
    Moves 0 gen (writeLoop fuel gen) ∧ (writeLoop fuel gen).queue.items = [doneItem] := by
  intro fuel
  induction fuel with
  | zero => exact fun gen hitems => ⟨.refl gen, hitems⟩
  | succ fuel ih =>
    intro gen hitems
    obtain ⟨q, hq, hqi⟩ := q_of_items hitems
    unfold writeLoop
    simp only [hq, hitems]
    split
    · next hpending =>
      obtain ⟨rd, reads, hreads⟩ := List.exists_cons_of_ne_nil
        (show gen.iterator.reads ≠ [] by
          simp only [Bool.and_eq_true] at hpending
          exact pending_eq_true.1 hpending.1)
      rw [deliverFront_done hqi hreads]
      obtain ⟨hrest, hdone⟩ := ih { gen with
        iterator := { gen.iterator with reads }
        q := some q
        ctx := jsCall gen.ctx (.resolve rd.capability) [.iteratorResult .undefined true] } hqi
      exact ⟨(moves_done hq hreads gen.iterator.closed id).trans hrest, hdone⟩
    · exact ⟨.refl gen, hitems⟩

/-- The end alone stays the only item of a stopped generator. -/
theorem ByteInv.idle (h : ByteInv gen) (hs : Stopped gen) (hmoves : Moves 0 gen gen')
    (hitems : gen'.queue.items = [doneItem]) : ByteInv gen' := by
  have hs' := hmoves.serves.stopped hs
  refine ⟨?_, hmoves.serves.separate h.separate, fun _ => hs', fun _ => Or.inr hitems, ?_,
    hmoves.setting h.size⟩
  · rw [hitems]
    exact EndMarked.snoc openItems_nil rfl
  · rw [hitems]
    exact userCallbacks_doneItem userCallbacks_nil

theorem leavingBytes_done (hitems : gen.queue.items = [doneItem]) (reads : Nat) :
    gen.leavingBytes reads (itemsSizes gen.queue.items) = 0 := by
  have hsizes : itemsSizes gen.queue.items = [0] := by rw [hitems]; rfl
  unfold Generator.leavingBytes
  rw [hsizes]
  cases gen.leaving reads [0] with
  | zero => rfl
  | succ n => rw [List.take_succ_cons, List.take_nil]; rfl

theorem leavingBytes_nil (sizes : List Nat) : gen.leavingBytes 0 sizes = 0 := by
  unfold Generator.leavingBytes Generator.leaving
  rw [Nat.zero_min]
  rfl

theorem ByteInv.leaving_stopped (h : ByteInv gen) (hs : Stopped gen) :
    gen.leavingBytes gen.iterator.reads.length (itemsSizes gen.queue.items) = 0 := by
  rcases h.drained hs with hreads | hitems
  · rw [hreads]
    exact leavingBytes_nil _
  · exact leavingBytes_done hitems _

/-- What a loop does that gives the front of the queue to the reads: without a read nothing, on an
ended queue nothing with bytes, and otherwise it delivers. -/
theorem ByteInv.served (h : ByteInv gen) (hidle : gen.iterator.reads = [] → gen' = gen)
    (hdone : gen.queue.items = [doneItem] → Moves 0 gen gen' ∧ gen'.queue.items = [doneItem])
    (hdeliver : ¬ Stopped gen → Delivers (fun _ => True) gen gen'
      (gen.leaving gen.iterator.reads.length (itemsSizes gen.queue.items))) :
    ByteInv gen' ∧
      Moves (gen.leavingBytes gen.iterator.reads.length (itemsSizes gen.queue.items)) gen gen' := by
  by_cases hs : Stopped gen
  · rcases h.drained hs with hreads | hitems
    · rw [hidle hreads, hreads, List.length_nil, leavingBytes_nil]
      exact ⟨h, .refl gen⟩
    · obtain ⟨hmoves, hitems'⟩ := hdone hitems
      rw [leavingBytes_done hitems]
      exact ⟨h.idle hs hmoves hitems', hmoves⟩
  · exact ⟨h.delivers hs (hdeliver hs), (hdeliver hs).moves⟩

theorem ByteInv.updateLoop (h : ByteInv gen) :
    ByteInv (QjsNet.updateLoop gen.iterator.reads.length gen).1 ∧
      Moves (gen.leavingBytes gen.iterator.reads.length (itemsSizes gen.queue.items)) gen
        (QjsNet.updateLoop gen.iterator.reads.length gen).1 := by
  refine h.served ?_ (updateLoop_done _ gen) ?_
  · intro hreads
    rw [hreads]
    rfl
  · intro hs
    obtain ⟨hk, _⟩ := updateLoop_ready _ gen (h.isOpen hs) h.unrefs rfl
    have hclosing : gen.iterator.closing = false := by
      simp only [Stopped, not_or, Bool.not_eq_true] at hs
      exact hs.1
    rwa [ready_eq_full hclosing h.size, ← leaving_full] at hk

theorem ByteInv.writeLoop (h : ByteInv gen) :
    ByteInv (QjsNet.writeLoop gen.iterator.reads.length gen) ∧
      Moves (gen.leavingBytes gen.iterator.reads.length (itemsSizes gen.queue.items)) gen
        (QjsNet.writeLoop gen.iterator.reads.length gen) := by
  refine h.served ?_ (writeLoop_done _ gen) ?_
  · intro hreads
    rw [hreads]
    rfl
  · intro hs
    rw [leaving_full]
    exact writeLoop_full _ gen (h.isOpen hs) h.unrefs rfl

theorem byteInv_stop (hmarked : EndMarked gen.queue.items)
    (hseparate : gen.queue.continuous = false)
    (hunrefs : UserCallbacks (fun _ => True) gen.queue.items)
    (hsize : gen.buffering = false → gen.chunkSize = 0) (v : JSValue) :
    ByteInv (iteratorStop gen v) :=
  ⟨hmarked, hseparate, fun _ => iteratorStop_stopped gen v,
    fun _ => Or.inl (iteratorStop_reads gen v), hunrefs, hsize⟩

theorem ByteInv.nextEnd (h : ByteInv gen) :
    ByteInv (generatorNextEnd gen) ∧
      Moves (gen.leavingBytes gen.iterator.reads.length (itemsSizes gen.queue.items)) gen
        (generatorNextEnd gen) := by
  have hupdate : ∃ gen' n, (if gen.q.isSome then generatorUpdate gen else (gen, 0)) = (gen', n) ∧
      ByteInv gen' ∧
      Moves (gen.leavingBytes gen.iterator.reads.length (itemsSizes gen.queue.items)) gen gen' := by
    cases hq : gen.q with
    | some q => exact ⟨_, _, rfl, h.updateLoop⟩
    | none =>
      -- Without a queue there is nothing to give away.
      have hitems : gen.queue.items = [] := by
        unfold Generator.queue
        rw [hq]
        rfl
      have hnone : gen.leavingBytes gen.iterator.reads.length (itemsSizes gen.queue.items) = 0 := by
        unfold Generator.leavingBytes
        rw [hitems]
        exact congrArg List.sum List.take_nil
      rw [hnone]
      exact ⟨gen, 0, rfl, h, .refl gen⟩
  obtain ⟨gen₁, n, heq, h₁, hmoves⟩ := hupdate
  rw [generatorNextEnd_eq heq]
  split
  · exact ⟨byteInv_stop h₁.marked h₁.separate h₁.unrefs h₁.size .undefined,
      hmoves.trans (moves_stop gen₁ .undefined)⟩
  · exact ⟨h₁, hmoves⟩

theorem moves_setQueue {q : Queue} (hcont : gen.queue.continuous = false → q.continuous = false)
    (hbytes : queueBytes q = queueBytes gen.queue) : Moves 0 gen (gen.setQueue q) :=
  ⟨⟨_, _, _, _, rfl⟩, serves_setQueue hcont, rfl, hbytes⟩

theorem moves_setClosing (gen : Generator) : Moves 0 gen gen.setClosing :=
  ⟨⟨_, _, _, _, rfl⟩, ⟨rfl, rfl, rfl, rfl, rfl, (Serves.refl gen).answers, id, fun _ => Or.inl rfl⟩,
    rfl, rfl⟩

theorem queueClose_bytes {q q' : Queue} {n : Nat} (h : queueClose q = some (q', n)) :
    queueBytes q' = queueBytes q := by
  unfold queueClose at h
  split at h
  · obtain ⟨rfl, -⟩ := Prod.mk.inj (Option.some.inj h)
    rfl
  · split at h
    · cases h
    · obtain ⟨rfl, -⟩ := Prod.mk.inj (Option.some.inj h)
      rw [queueBytes_eq, queueBytes_eq, addTail_items, itemsBytes_append]
      simp [doneItem]

theorem ByteInv.stopQueue (h : ByteInv gen) (heq : QjsNet.stopQueue gen = some gen') :
    Moves 0 gen gen' ∧ EndMarked gen'.queue.items ∧
      UserCallbacks (fun _ => True) gen'.queue.items := by
  cases hq : gen.q with
  | none =>
    rw [QjsNet.stopQueue, hq] at heq
    obtain rfl := Option.some.inj heq
    exact ⟨.refl gen, h.marked, h.unrefs⟩
  | some q =>
    have hqueue := queue_of_q hq
    obtain ⟨q', n, hclose, hmarked, hunrefs, hcont⟩ :=
      @queueClose_marked (fun _ => True) q (hqueue ▸ h.marked)
    have hseparate : q'.continuous = false := by rw [hcont, ← hqueue, h.separate]
    simp only [QjsNet.stopQueue, hq, hclose, Option.bind_eq_bind, Option.bind_some, hseparate,
      Bool.false_eq_true, if_false] at heq
    obtain rfl := Option.some.inj heq
    refine ⟨moves_setQueue (fun _ => hseparate) ?_, hmarked, hunrefs (hqueue ▸ h.unrefs)⟩
    rw [queueClose_bytes hclose, hqueue]

theorem queueClose_done {q q' : Queue} {n : Nat} (h : queueClose q = some (q', n))
    (hitems : q.items = [] ∨ q.items = [doneItem]) : q'.items = [doneItem] := by
  rcases hitems with hnil | hdone
  · rw [queueClose_open (hnil ▸ openItems_nil)] at h
    obtain ⟨rfl, -⟩ := Prod.mk.inj (Option.some.inj h)
    rw [addTail_items, hnil]
    rfl
  · have hc : queueComplete q = true := by simp [queueComplete, queueBack, hdone, doneItem]
    rw [queueClose, if_pos hc] at h
    obtain ⟨rfl, -⟩ := Prod.mk.inj (Option.some.inj h)
    exact hdone

/-- What `generator_finish` does before it closes the queue: every read that waits is given an
item, as far as there are items. -/
structure Finishing (gen gen' : Generator) : Prop where
  moves : Moves ((itemsSizes gen.queue.items).take gen.iterator.reads.length).sum gen.setClosing gen'
  marked : EndMarked gen'.queue.items
  unrefs : UserCallbacks (fun _ => True) gen'.queue.items
  idle : gen'.iterator.reads = [] ∨ gen'.queue.items = [] ∨ gen'.queue.items = [doneItem]

theorem ByteInv.finishing_stopped (h : ByteInv gen) (hs : Stopped gen) :
    Finishing gen (QjsNet.updateLoop gen.iterator.reads.length gen.setClosing).1 := by
  rcases h.drained hs with hreads | hitems
  · rw [hreads]
    refine ⟨?_, h.marked, h.unrefs, Or.inl hreads⟩
    rw [hreads]
    exact .refl _
  · obtain ⟨hmoves, hdone⟩ := updateLoop_done gen.iterator.reads.length gen.setClosing hitems
    refine ⟨?_, ?_, ?_, Or.inr (Or.inr hdone)⟩
    · have hsum : ((itemsSizes gen.queue.items).take gen.iterator.reads.length).sum = 0 := by
        rw [hitems]
        cases gen.iterator.reads.length with
        | zero => rfl
        | succ n => simp [itemsSizes, doneItem]
      rw [hsum]
      exact hmoves
    · rw [hdone]
      exact EndMarked.snoc openItems_nil rfl
    · rw [hdone]
      exact userCallbacks_doneItem userCallbacks_nil

theorem ByteInv.finishing_open (h : ByteInv gen) (hs : ¬ Stopped gen) :
    Finishing gen (QjsNet.updateLoop gen.iterator.reads.length gen.setClosing).1 := by
  have hopen := h.isOpen hs
  obtain ⟨k, hk, _, hcount⟩ := @updateLoop_open (fun _ => True) _ gen.setClosing hopen h.unrefs rfl
  rw [setClosing_reads] at hk
  have hcount : k = min gen.iterator.reads.length gen.queue.items.length := hcount rfl
  have hlen : (itemsSizes gen.queue.items).length = gen.queue.items.length := List.length_map ..
  refine ⟨?_, hk.items ▸ .of_open (hopen.drop k), hk.items ▸ h.unrefs.drop k, ?_⟩
  · have htake : (itemsSizes gen.queue.items).take k
        = (itemsSizes gen.queue.items).take gen.iterator.reads.length := by
      rw [hcount, ← hlen, ← List.take_eq_take_min]
    rw [← htake]
    exact hk.moves
  -- The reads are used up, or the items are.
  · rcases Nat.le_total gen.iterator.reads.length gen.queue.items.length with hle | hle
    · refine Or.inl ?_
      have hreads : gen.iterator.reads.length ≤ k := by omega
      rw [hk.iterator]
      exact List.drop_eq_nil_of_le hreads
    · refine Or.inr (Or.inl ?_)
      have hitems : gen.queue.items.length ≤ k := by omega
      rw [hk.items]
      exact List.drop_eq_nil_of_le hitems

theorem ByteInv.finish {b : Bool} (h : ByteInv gen) (heq : generatorFinish gen = some (gen', b)) :
    ByteInv gen' ∧
      Moves ((itemsSizes gen.queue.items).take gen.iterator.reads.length).sum gen gen' := by
  have hfinishing : Finishing gen (generatorUpdate gen.setClosing).1 := by
    by_cases hs : Stopped gen
    · exact h.finishing_stopped hs
    · exact h.finishing_open hs
  cases hq : gen.q with
  | none => simp [generatorFinish, hq] at heq
  | some q =>
    have hcont : q.continuous = false := queue_of_q hq ▸ h.separate
    simp only [generatorFinish, setClosing_q, hq, hcont, Bool.false_and, Bool.false_eq_true,
      if_false] at heq
    obtain ⟨⟨q', n⟩, hclose, heq⟩ := Option.bind_eq_some_iff.1 heq
    obtain ⟨rfl, -⟩ := Prod.mk.inj (Option.some.inj heq)
    obtain ⟨q'', m, hclose', hmarked, hunrefs, hcont'⟩ :=
      @queueClose_marked (fun _ => True) _ hfinishing.marked
    obtain ⟨rfl, -⟩ := Prod.mk.inj (Option.some.inj (hclose.symm.trans hclose'))
    have hmoves := (moves_setClosing gen).trans hfinishing.moves
    rw [Nat.zero_add] at hmoves
    have hseparate : q'.continuous = false := by
      rw [hcont']
      exact hmoves.serves.separate h.separate
    have hs : Stopped (generatorUpdate gen.setClosing).1 :=
      hfinishing.moves.serves.stopped (Or.inl rfl)
    refine ⟨⟨hmarked, hseparate, fun _ => hs, ?_, hunrefs hfinishing.unrefs,
      hmoves.setting h.size⟩, ?_⟩
    · intro _
      rcases hfinishing.idle with hreads | hitems
      · exact Or.inl hreads
      · exact Or.inr (queueClose_done hclose hitems)
    · exact hmoves.trans (moves_setQueue (fun _ => hseparate) (queueClose_bytes hclose))

/-! ## Putting bytes into the queue -/

theorem queueLastChunk_snoc {q : Queue} {init : List QueueItem} {chunk : QueueItem}
    (hitems : q.items = init ++ [chunk]) (hchunk : chunk.done = false) :
    queueLastChunk q = some init.length := by
  unfold queueLastChunk
  rw [hitems]
  exact lastIdx?_snoc (by simp [QueueItem.isChunk, hchunk]) init

theorem mergeChunk_open (h : OpenItems gen.queue.items) :
    gen.mergeChunk = if gen.buffering then gen.queue.items.getLast? else none := by
  unfold Generator.mergeChunk
  rcases List.eq_nil_or_concat' gen.queue.items with hnil | ⟨init, last, hsnoc⟩
  · rw [queueLastChunk, hnil]
    rfl
  · rw [queueLastChunk_snoc hsnoc (h last (by simp [hsnoc])), Option.bind_some, hsnoc,
      List.getElem?_concat_length, List.getLast?_concat]

theorem mergeChunk_complete {chunks : List QueueItem} {last : QueueItem}
    (h : Complete gen.queue chunks last) :
    gen.mergeChunk = if gen.buffering then chunks.getLast? else none := by
  unfold Generator.mergeChunk
  cases hn : queueLastChunk gen.queue with
  | none =>
    rcases List.eq_nil_or_concat' chunks with rfl | ⟨init, chunk, rfl⟩
    · rfl
    · -- It would be found.
      have hchunk : chunk.isChunk = true := by
        simp [QueueItem.isChunk, h.isOpen chunk (by simp)]
      have hnot := lastIdx?_eq_none.1 hn chunk (by simp [h.items])
      rw [hchunk] at hnot
      cases hnot
  | some n =>
    obtain ⟨init, chunk, rfl, rfl⟩ := h.lastChunk hn
    rw [Option.bind_some, h.items, List.append_assoc, List.getElem?_append_right (Nat.le_refl _),
      Nat.sub_self, List.getLast?_concat]
    rfl

theorem mergeSize_open (h : OpenItems gen.queue.items) :
    gen.mergeSize = if gen.buffering then (lastData gen.queue.items).length else 0 := by
  unfold Generator.mergeSize lastData
  rw [mergeChunk_open h]
  cases gen.buffering with
  | false => rfl
  | true => cases gen.queue.items.getLast? <;> rfl

/-- The loop of `enqueue_block` cannot add to a complete queue. -/
theorem rechunk_complete (blk : ByteBlock) (chunkSize fuel pos : Nat) {q q' : Queue}
    (hq : queueComplete q = true) (h : rechunk blk chunkSize fuel pos q = some q') : q' = q := by
  refine @rechunk_induct blk chunkSize (fun _ q q' => queueComplete q = true → q' = q)
    ?_ ?_ fuel pos q q' h hq
  · intro _ _ _ _
    rfl
  · intro pos q q' _ hrest hq
    have hrefused : (queueAdd q (blockSlice blk pos (min blk.size (pos + chunkSize)))).1 = q := by
      simp [queueAdd, hq]
    rw [hrefused] at hrest
    exact hrest hq

/-- Without a chunk to merge into, a complete queue refuses the block, and its size is reported
all the same. -/
theorem enqueueBlock_refused {blk : ByteBlock} {callback : JSValue}
    {chunks : List QueueItem} {last : QueueItem} (h : Complete gen.queue chunks last)
    (hcont : gen.queue.continuous = false) (hnone : gen.mergeChunk = none) :
    enqueueBlock gen blk callback = some (gen.setQueue gen.queue, blk.size) := by
  have hqueue : (createQueue gen).queue = gen.queue := rfl
  have hset : (createQueue gen).setQueue gen.queue = gen.setQueue gen.queue := rfl
  cases hbuf : gen.buffering with
  | true =>
    have hchunks : chunks.getLast? = none := by
      rw [mergeChunk_complete h, hbuf] at hnone
      exact hnone
    have hlast : queueLastChunk (gen.queue.setContinuous true) = none := by
      cases hn : queueLastChunk (gen.queue.setContinuous true) with
      | none => rfl
      | some n =>
        obtain ⟨init, chunk, rfl, _⟩ := h.lastChunk hn
        simp at hchunks
    have hput : queuePut (gen.queue.setContinuous true) blk
        = (gen.queue.setContinuous true, none) := by
      unfold queuePut
      rw [hlast, ite_self]
      simp [queueAdd, show queueComplete (gen.queue.setContinuous true) = true from h.complete]
    have hsame : (gen.queue.setContinuous true).setContinuous false = gen.queue :=
      Queue.ext_items rfl hcont.symm
    simp only [enqueueBlock, hqueue, show (createQueue gen).buffering = true from hbuf, if_true,
      hput, hsame, hset]
  | false =>
    have hput : queuePut gen.queue blk = (gen.queue, none) := by
      unfold queuePut
      rw [hcont]
      exact h.refuses blk
    simp only [enqueueBlock, hqueue, show (createQueue gen).buffering = false from hbuf,
      Bool.false_eq_true, if_false, hput, hset]

/-- In front of the end a chunk is cut, and what is cut off is refused. -/
theorem splitItem_complete {q q' : Queue} {init : List QueueItem} {chunk last : QueueItem}
    {chunkSize : Nat} (hitems : q.items = init ++ chunk :: [last]) (hdone : last.done = true)
    (h : splitItem q init.length chunk.block chunkSize = some q') :
    ∃ block, q'.items = init ++ { chunk with block } :: [last] ∧ q'.continuous = q.continuous ∧
      block.data = chunk.block.data.take chunkSize := by
  unfold splitItem at h
  split at h
  · have hcomplete : queueComplete (q.modify init.length
        fun i => { i with block := blockSlice chunk.block 0 chunkSize }) = true := by
      simp [queueComplete, queueBack, hitems, modify_middle, hdone]
    obtain rfl := rechunk_complete _ _ _ _ hcomplete h
    refine ⟨blockSlice chunk.block 0 chunkSize, ?_, rfl, ?_⟩
    · simp only [modify_items, hitems, modify_middle]
    · rw [data_blockSlice, List.drop_zero]
  · next hle =>
    obtain rfl := Option.some.inj h
    exact ⟨chunk.block, hitems, rfl, (List.take_of_length_le (Nat.le_of_not_lt hle)).symm⟩

/-- With one, the block is merged into it, of which the first bytes stay. -/
theorem enqueueBlock_merged {blk : ByteBlock} {callback : JSValue} {ret : Nat}
    {chunks : List QueueItem} {last chunk : QueueItem} (h : Complete gen.queue chunks last)
    (hchunk : gen.mergeChunk = some chunk)
    (heq : enqueueBlock gen blk callback = some (gen', ret)) :
    ∃ q init block, gen' = gen.setQueue q ∧ chunks = init ++ [chunk] ∧
      q.items = init ++ { chunk with block } :: [last] ∧ q.continuous = false ∧
      block.data = (chunk.block.data ++ blk.data).take gen.chunkSize ∧
      ret = (chunk.block.data ++ blk.data).length := by
  obtain ⟨hbuf, hlast⟩ : gen.buffering = true ∧ chunks.getLast? = some chunk := by
    rw [mergeChunk_complete h] at hchunk
    cases hbuf : gen.buffering with
    | true => exact ⟨rfl, by rw [hbuf] at hchunk; exact hchunk⟩
    | false =>
      rw [hbuf] at hchunk
      cases hchunk
  obtain ⟨init, rfl⟩ : ∃ init, chunks = init ++ [chunk] := List.getLast?_eq_some_iff.1 hlast
  let merged : ByteBlock := some (chunk.block.data ++ blk.data)
  let q := (gen.queue.modify init.length fun i => { i with block := merged }).setContinuous false
  have hitems : gen.queue.items = init ++ chunk :: [last] := by
    rw [h.items, List.append_assoc]
    rfl
  have hn : queueLastChunk (gen.queue.setContinuous true) = some init.length := by
    have hopen := h.isOpen chunk (by simp)
    have hend : last.isChunk = false := by
      simp [QueueItem.isChunk, h.done, ByteBlock.size, h.empty]
    unfold queueLastChunk
    rw [setContinuous_items, h.items, lastIdx?_snoc_not hend]
    exact lastIdx?_snoc (by simp [QueueItem.isChunk, hopen]) init
  have hput : (queuePut (gen.queue.setContinuous true) blk).1.setContinuous false = q ∧
      (queuePut (gen.queue.setContinuous true) blk).2 = some init.length := by
    unfold queuePut
    rw [setContinuous_continuous, if_pos rfl, hn]
    refine ⟨Queue.ext_items ?_ rfl, rfl⟩
    simp only [q, setContinuous_items, modify_items, hitems, modify_middle, merge_block, merged]
  have hqi : q.items = init ++ { chunk with block := merged } :: [last] := by
    simp only [q, setContinuous_items, modify_items, hitems, modify_middle]
  have hget : q.items[init.length]? = some { chunk with block := merged } := by
    rw [hqi, List.getElem?_append_right (Nat.le_refl _), Nat.sub_self]
    rfl
  have hqueue : (createQueue gen).queue = gen.queue := rfl
  simp only [enqueueBlock, hqueue, show (createQueue gen).buffering = true from hbuf, if_true,
    hput.1, hput.2, hget, Option.elim_some] at heq
  obtain ⟨q', hsplit, heq⟩ := Option.bind_eq_some_iff.1 heq
  obtain ⟨rfl, rfl⟩ := Prod.mk.inj (Option.some.inj heq)
  obtain ⟨block, hcut, hcont, hdata⟩ :=
    @splitItem_complete q _ init { chunk with block := merged } last _ hqi h.done hsplit
  exact ⟨_, init, block, rfl, rfl, hcut, hcont, hdata, rfl⟩

theorem takes_open (h : queueComplete gen.queue = false) (n : Nat) : gen.takes n = n := by
  unfold Generator.takes
  rw [h, if_neg Bool.false_ne_true]

theorem loses_open (h : queueComplete gen.queue = false) : gen.loses = 0 := by
  unfold Generator.loses
  rw [h]
  rfl

/-- What the queue of a generator becomes by a put of `n` bytes, and what is reported. -/
structure PutInto (gen : Generator) (q : Queue) (n ret : Nat) : Prop where
  ret : ret = gen.mergeSize + n
  bytes : queueBytes q + gen.loses = queueBytes gen.queue + gen.takes n
  idle : gen.queue.items = [doneItem] → q.items = [doneItem]

theorem putInto_open {q : Queue} {d : Bytes} {callback : JSValue} {ret : Nat} (h : ByteInv gen)
    (hopen : OpenItems gen.queue.items)
    (hcb : callback.isFunction = true → ∃ f, True ∧ callback = .function f)
    (heq : enqueueBlock gen (blockCopy d) callback = some (gen.setQueue q, ret)) :
    PutInto gen q d.length ret := by
  have hc := queueComplete_of_open hopen
  obtain ⟨q', hq', _, _, hbytes, _⟩ := enqueueBlock_open hopen h.unrefs hcb heq
  obtain rfl : q = q' := congrArg Generator.queue hq'
  refine ⟨?_, ?_, ?_⟩
  · rw [mergeSize_open hopen]
    cases hbuf : gen.buffering with
    | true =>
      obtain ⟨_, _, _, _, _, _, _, _, _, _, _, _, _, hret⟩ := enqueueBlock_cut hopen hbuf heq
      rw [hret, if_pos rfl, List.length_append]
      rfl
    | false =>
      obtain ⟨_, _, _, _, _, _, _, _, hret⟩ := enqueueBlock_plain hopen hbuf heq
      rw [hret, if_neg Bool.false_ne_true, Nat.zero_add]
      rfl
  · rw [loses_open hc, takes_open hc, queueBytes_eq, queueBytes_eq, hbytes, List.length_append]
    rfl
  · intro hitems
    rw [hitems] at hopen
    have hdone := hopen doneItem (List.mem_singleton_self _)
    cases hdone

theorem putInto_refused (hc : queueComplete gen.queue = true) (hnone : gen.mergeChunk = none)
    (n : Nat) : PutInto gen gen.queue n n := by
  refine ⟨?_, ?_, id⟩
  · unfold Generator.mergeSize
    rw [hnone]
    exact (Nat.zero_add _).symm
  · unfold Generator.loses Generator.takes
    rw [hnone, hc]
    rfl

/-- A merge in front of the end takes what fits into the chunk, and cuts off what did not fit
before. -/
theorem putInto_merged {q : Queue} {init : List QueueItem} {last chunk : QueueItem}
    {block : ByteBlock} {d : Bytes} (h : Complete gen.queue (init ++ [chunk]) last)
    (hchunk : gen.mergeChunk = some chunk) (hitems : q.items = init ++ { chunk with block } :: [last])
    (hdata : block.data = (chunk.block.data ++ d).take gen.chunkSize) :
    PutInto gen q d.length (chunk.block.data ++ d).length := by
  have hsize : gen.mergeSize = chunk.block.data.length := by
    unfold Generator.mergeSize
    rw [hchunk]
    rfl
  refine ⟨?_, ?_, ?_⟩
  · rw [hsize, List.length_append]
  · have htaken := congrArg List.length hdata
    rw [List.length_take, List.length_append] at htaken
    have hold : queueBytes gen.queue
        = (itemsBytes init).length + chunk.block.data.length + last.block.data.length := by
      rw [queueBytes_eq, h.items]
      simp [Nat.add_assoc]
    have hnew : queueBytes q
        = (itemsBytes init).length + block.data.length + last.block.data.length := by
      rw [queueBytes_eq, hitems]
      simp [Nat.add_assoc]
    have htakes : gen.takes d.length = min d.length (gen.chunkSize - gen.mergeSize) := by
      unfold Generator.takes
      rw [hchunk, h.complete]
      rfl
    have hloses : gen.loses = gen.mergeSize - gen.chunkSize := by
      unfold Generator.loses
      rw [hchunk, h.complete]
      rfl
    rw [hold, hnew, htakes, hloses, hsize, htaken]
    omega
  · intro hdone
    have hlen := congrArg List.length (h.items.symm.trans hdone)
    simp at hlen

theorem ByteInv.putInto {q : Queue} {d : Bytes} {callback : JSValue} {ret : Nat} (h : ByteInv gen)
    (hcb : callback.isFunction = true → ∃ f, True ∧ callback = .function f)
    (heq : enqueueBlock gen (blockCopy d) callback = some (gen.setQueue q, ret)) :
    PutInto gen q d.length ret := by
  rcases complete_or_open h.marked with ⟨hopen, _⟩ | ⟨⟨chunks, last, hcomplete⟩, hc⟩
  · exact putInto_open h hopen hcb heq
  · cases hchunk : gen.mergeChunk with
    | none =>
      have hrefused := (enqueueBlock_refused hcomplete h.separate hchunk).symm.trans heq
      obtain ⟨hgen, rfl⟩ := Prod.mk.inj (Option.some.inj hrefused)
      obtain rfl : gen.queue = q := congrArg Generator.queue hgen
      exact putInto_refused hc hchunk d.length
    | some chunk =>
      obtain ⟨q', init, block, hq', rfl, hitems, _, hdata, rfl⟩ :=
        enqueueBlock_merged hcomplete hchunk heq
      obtain rfl : q = q' := congrArg Generator.queue hq'
      exact putInto_merged hcomplete hchunk hitems hdata

theorem ByteInv.put {d : Bytes} {callback : JSValue} {ret : Nat} (h : ByteInv gen)
    (hcb : callback.isFunction = true → ∃ f, callback = .function f)
    (heq : enqueueBlock gen (blockCopy d) callback = some (gen', ret)) :
    ∃ q, gen' = gen.setQueue q ∧ ByteInv gen' ∧ (q.continuous = false) ∧
      PutInto gen q d.length ret := by
  have hcb' : callback.isFunction = true → ∃ f, True ∧ callback = .function f := by
    intro hfn
    obtain ⟨f, hf⟩ := hcb hfn
    exact ⟨f, trivial, hf⟩
  obtain ⟨q, rfl, hext⟩ := @enqueueBlock_extends (fun _ => True) _ _ _ _ _ h.marked hcb' heq
  have hput := h.putInto hcb' heq
  have hcont := hext.separate h.separate
  refine ⟨q, rfl, ⟨hext.marked, hcont, ?_, ?_, hext.unrefs h.unrefs, h.size⟩, hcont, hput⟩
  · intro hc
    exact h.ended (hext.complete ▸ hc)
  · intro hs
    rcases h.drained hs with hreads | hitems
    · exact Or.inl hreads
    · exact Or.inr (hput.idle hitems)

end QjsNet
