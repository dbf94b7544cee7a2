import QjsNet.GeneratorMoves
import QjsNet.Lib.PartialRun

/- The byte counters of a generator.

   `bytes_written` is to count the bytes that were accepted and `bytes_read` those
   that reads were given, so that their difference is in the queue. A run is any
   sequence of writes, pushes, enqueues, reads, changes of the chunk size and closes.

   Five things go wrong. A value from the queue, and a chunk that is written straight to
   a read, is counted as read after its memory was moved into the value, as 0 bytes.
   An enqueue counts nothing. A buffering generator reports the bytes of the item it
   has merged into along with the new ones. A put after the end of the queue is
   refused and reported; and in a buffering generator it is merged into the chunk
   before the end, of which the bytes beyond the chunk size are lost.
   `bytes_counted_iff` says that the counters are right as long as none of this
   happens, and that they are wrong afterwards. -/
namespace QjsNet

inductive ByteCall where
  | next (arg : JSValue)
  | executorReturns
  | write (data : Bytes) (callback : Option Nat)
  | push (value : JSValue)
  | enqueue (value : JSValue)
  | buffering (chunkSize : Nat)
  | stop (arg : JSValue)
  | finish
  | iteratorReturn (arg : JSValue)
  deriving DecidableEq, Repr

def ByteCall.toApi : ByteCall → ApiCall
  | .next arg => .next arg
  | .executorReturns => .executorReturns
  | .write data callback => .write data callback
  | .push value => .push value
  | .enqueue value => .enqueue value
  | .buffering chunkSize => .buffering chunkSize
  | .stop arg => .stop arg
  | .finish => .finish
  | .iteratorReturn arg => .iteratorReturn arg

/-- How many bytes a call makes the generator accept. -/
def Generator.accepts (gen : Generator) : ByteCall → Nat
  | .write data _ => gen.takes data.length
  | .push value =>
    if gen.iterator.reads = [] then gen.takes (jsInputChars value).length
    else (jsInputChars value).length
  | .enqueue value => gen.takes (jsInputChars value).length
  | _ => 0

/-- A generator and the number of bytes it has accepted. -/
structure ByteState where
  api : ApiState
  accepted : Nat
  deriving DecidableEq, Repr

def byteStep (s : ByteState) (c : ByteCall) : Option ByteState := do
  let api ← apiStep s.api c.toApi
  some ⟨api, s.accepted + s.api.gen.accepts c⟩

/-- The number of bytes the promises in `asked` were given. -/
def JSContext.deliveredTo (ctx : JSContext) (asked : List Nat) : Nat :=
  (settledBytes (ctx.settlements.filter fun e => e.1 ∈ asked)).length

def ApiState.delivered (s : ApiState) : Nat := s.gen.ctx.deliveredTo s.asked

def Accounted (s : ByteState) : Prop :=
  s.api.gen.bytesWritten = s.accepted ∧ s.api.gen.bytesRead = s.api.delivered ∧
    (s.api.gen.bytesWritten : Int) - s.api.gen.bytesRead = queueBytes s.api.gen.queue

instance (s : ByteState) : Decidable (Accounted s) := inferInstanceAs (Decidable (_ ∧ _ ∧ _))

/-- A write returns how many bytes of its argument were accepted. -/
def ReturnsAccepted (s : ByteState) : ByteCall → Prop
  | .write data callback => ∀ gen ret,
    generatorWrite s.api.gen data (callbackArg callback) = some (gen, ret) →
      ret = s.api.gen.takes data.length
  | _ => True

/-- Nothing with bytes leaves the queue or goes from a write to a read, and what is put into the
queue is taken, merged into no other bytes and, by an enqueue, has none. -/
def Countable (s : ByteState) : ByteCall → Prop
  | .next _ => s.api.gen.executor.isFunction = true ∨ Stopped s.api.gen ∨
    s.api.gen.leavingBytes (s.api.gen.iterator.reads.length + 1)
      (itemsSizes s.api.gen.queue.items) = 0
  | .executorReturns =>
    s.api.gen.leavingBytes s.api.gen.iterator.reads.length (itemsSizes s.api.gen.queue.items) = 0
  | .write data _ => s.api.gen.mergeSize + data.length = s.api.gen.takes data.length ∧
    (queueComplete s.api.gen.queue = true ∨
      s.api.gen.leavingBytes s.api.gen.iterator.reads.length
        (s.api.gen.sizesAfter data.length) = 0)
  | .push value => s.api.gen.iterator.reads ≠ [] ∨
    s.api.gen.mergeSize + (jsInputChars value).length
      = s.api.gen.takes (jsInputChars value).length
  | .enqueue value =>
    s.api.gen.takes (jsInputChars value).length = 0 ∧ s.api.gen.loses = 0
  | .finish =>
    ((itemsSizes s.api.gen.queue.items).take s.api.gen.iterator.reads.length).sum = 0
  | _ => True

variable {gen gen' gen'' : Generator} {asked asked' asked'' : List Nat} {k n : Nat}

/-! ## The promises of reads and of pushes -/

/-- The promises of the reads are told apart from that of the last push. -/
structure Apart (gen : Generator) (asked : List Nat) : Prop where
  waiting : ∀ p ∈ gen.iterator.waiting, p ∈ asked
  made : ∀ p ∈ asked, p < gen.ctx.promises
  settled : ∀ e ∈ gen.ctx.settlements, e.1 < gen.ctx.promises
  slot : gen.callback.isFunction = true →
    ∃ p, gen.callback = .resolve p ∧ p < gen.ctx.promises ∧ p ∉ asked
  executor : gen.executor.isFunction = true → ∃ f, gen.executor = .function f

theorem Apart.congr (h : Apart gen asked) (hit : gen'.iterator.waiting = gen.iterator.waiting)
    (hctx : gen'.ctx = gen.ctx) (hslot : gen'.callback = gen.callback)
    (hexec : gen'.executor = gen.executor) : Apart gen' asked := by
  refine ⟨hit ▸ h.waiting, ?_, ?_, ?_, ?_⟩
  · rw [hctx]
    exact h.made
  · rw [hctx]
    exact h.settled
  · rw [hctx, hslot]
    exact h.slot
  · rw [hexec]
    exact h.executor

/-- The promises that are settled by serving reads, and those that wait, are those of reads. -/
theorem Apart.served {new : List (Nat × Settlement)} (h : Apart gen asked)
    (hids : new.map Prod.fst ++ gen'.iterator.waiting
      = gen.iterator.waiting ++ List.range' gen.ctx.promises k)
    {p : Nat} (hp : p ∈ new.map Prod.fst ∨ p ∈ gen'.iterator.waiting) :
    p ∈ asked ++ List.range' gen.ctx.promises k := by
  rw [← List.mem_append, hids] at hp
  rcases List.mem_append.1 hp with hp | hp
  · exact List.mem_append_left _ (h.waiting p hp)
  · exact List.mem_append_right _ hp

/-- The new promises are given nothing before they are asked with. -/
theorem Apart.deliveredTo_range (h : Apart gen asked) {ctx : JSContext}
    {new : List (Nat × Settlement)} (hnew : ctx.settlements = gen.ctx.settlements ++ new)
    (hserved : ∀ p ∈ new.map Prod.fst, p ∈ asked ++ List.range' gen.ctx.promises k) :
    ctx.deliveredTo (asked ++ List.range' gen.ctx.promises k)
      = gen.ctx.deliveredTo asked + (settledBytes new).length := by
  have hold : gen.ctx.settlements.filter
        (fun e => e.1 ∈ asked ++ List.range' gen.ctx.promises k)
      = gen.ctx.settlements.filter fun e => e.1 ∈ asked := by
    refine List.filter_congr fun e he => decide_eq_decide.2 ?_
    have hlt := h.settled e he
    rw [List.mem_append, List.mem_range'_1]
    refine ⟨?_, Or.inl⟩
    intro hmem
    rcases hmem with hmem | hmem
    · exact hmem
    · omega
  have hall : new.filter (fun e => e.1 ∈ asked ++ List.range' gen.ctx.promises k) = new :=
    List.filter_eq_self.2 fun e he =>
      decide_eq_true (hserved e.1 (List.mem_map.2 ⟨e, he, rfl⟩))
  unfold JSContext.deliveredTo
  rw [hnew, List.filter_append, hold, hall, settledBytes_append, List.length_append]

/-- Serving reads settles promises of reads, and no others. -/
theorem Apart.serves (h : Apart gen asked) (hserves : Serves k gen gen')
    (hgiven : (settledBytes gen'.ctx.settlements).length
      = (settledBytes gen.ctx.settlements).length + n) :
    Apart gen' (asked ++ List.range' gen.ctx.promises k) ∧
      gen'.ctx.deliveredTo (asked ++ List.range' gen.ctx.promises k)
        = gen.ctx.deliveredTo asked + n := by
  obtain ⟨new, hnew, hids⟩ := hserves.answers
  have hlt : ∀ p ∈ asked ++ List.range' gen.ctx.promises k, p < gen'.ctx.promises := by
    intro p hp
    rw [hserves.promises]
    rcases List.mem_append.1 hp with hp | hp
    · have hlt := h.made p hp
      omega
    · exact (List.mem_range'_1.1 hp).2
  refine ⟨⟨fun p hp => h.served hids (Or.inr hp), hlt, ?_, ?_, ?_⟩, ?_⟩
  · intro e he
    rw [hnew] at he
    rcases List.mem_append.1 he with he | he
    · have hlt := h.settled e he
      rw [hserves.promises]
      omega
    · exact hlt e.1 (h.served hids (Or.inl (List.mem_map.2 ⟨e, he, rfl⟩)))
  · intro hfn
    have hcallback : gen'.callback = gen.callback := congrArg (·.resolve) hserves.slot
    rw [hcallback] at hfn ⊢
    obtain ⟨p, hp, hlt, hnot⟩ := h.slot hfn
    refine ⟨p, hp, ?_, ?_⟩
    · rw [hserves.promises]
      omega
    · rw [List.mem_append, List.mem_range'_1]
      intro hmem
      rcases hmem with hmem | hmem
      · exact hnot hmem
      · omega
  · rw [hserves.executor]
    exact h.executor
  · rw [hnew, settledBytes_append, List.length_append] at hgiven
    rw [h.deliveredTo_range hnew fun p hp => h.served hids (Or.inl hp), Nat.add_left_cancel hgiven]

theorem Apart.settle {ctx : JSContext} {p : Nat} {x : Settlement} (h : Apart gen asked)
    (hpromises : ctx.promises = gen.ctx.promises)
    (hctx : ctx.settlements = gen.ctx.settlements ++ [(p, x)]) (hlt : p < gen.ctx.promises)
    (hp : p ∉ asked) :
    Apart { gen with ctx } asked ∧ ctx.deliveredTo asked = gen.ctx.deliveredTo asked := by
  refine ⟨⟨h.waiting, hpromises ▸ h.made, ?_, hpromises ▸ h.slot, h.executor⟩, ?_⟩
  · intro e he
    rw [hpromises]
    rcases List.mem_append.1 (hctx ▸ he) with he | he
    · exact h.settled e he
    · rw [List.mem_singleton.1 he]
      exact hlt
  · unfold JSContext.deliveredTo
    rw [hctx, List.filter_append, List.filter_cons_of_neg (by simpa using hp), List.filter_nil,
      List.append_nil]

/-- The executor and the slot settle no promise of a read. -/
theorem Apart.resume (h : Apart gen asked) (arg : JSValue) :
    Apart (gen.resume arg) asked ∧
      (gen.resume arg).ctx.deliveredTo asked = gen.ctx.deliveredTo asked := by
  unfold Generator.resume startExecutor
  cases hexec : gen.executor.isFunction with
  | true =>
    obtain ⟨f, hf⟩ := h.executor hexec
    have hctx : (jsCall gen.ctx gen.executor []).settlements = gen.ctx.settlements := by
      rw [hf, settlements_function]
    refine ⟨⟨h.waiting, h.made, ?_, h.slot, fun hfn => by cases hfn⟩, ?_⟩
    · simp only [if_true]
      rw [hctx]
      exact h.settled
    · unfold JSContext.deliveredTo
      simp only [if_true]
      rw [hctx]
  | false =>
    cases gen.started with
    | true => exact ⟨h, rfl⟩
    | false =>
      cases hslot : gen.callback.isFunction with
      | false =>
        rw [generatorCallback_idle hslot]
        exact ⟨h.congr rfl rfl rfl rfl, rfl⟩
      | true =>
        obtain ⟨p, hp, hlt, hnot⟩ := h.slot hslot
        simp only [generatorCallback, hslot, if_true, Generator.setCallback]
        rw [hp]
        obtain ⟨happ, hdelivered⟩ :=
          @Apart.settle _ _ (jsCall gen.ctx (.resolve p) [arg]) p _ h rfl
            (settlements_resolve gen.ctx p arg) hlt hnot
        exact ⟨⟨happ.waiting, happ.made, happ.settled, (fun hfn => by cases hfn), happ.executor⟩,
          hdelivered⟩

/-! ## What each call does to the counts -/

/-- What a call accepts, what it adds to the counters, what it gives to reads, and what is lost. -/
structure Charge where
  accepted : Nat
  written : Nat
  read : Nat
  given : Nat
  lost : Nat

def Charge.Even (c : Charge) : Prop := c.written = c.accepted ∧ c.read = c.given ∧ c.lost = 0

structure Charges (gen : Generator) (asked : List Nat) (gen' : Generator) (asked' : List Nat)
    (c : Charge) : Prop where
  inv : ByteInv gen'
  apart : Apart gen' asked'
  written : gen'.bytesWritten = gen.bytesWritten + c.written
  read : gen'.bytesRead = gen.bytesRead + c.read
  delivered : gen'.ctx.deliveredTo asked' = gen.ctx.deliveredTo asked + c.given
  queued : queueBytes gen'.queue + c.given + c.lost = queueBytes gen.queue + c.accepted

theorem Charges.accounted {s s' : ByteState} {c : Charge}
    (h : Charges s.api.gen s.api.asked s'.api.gen s'.api.asked c)
    (haccepted : s'.accepted = s.accepted + c.accepted) (hs : Accounted s) :
    Accounted s' ↔ c.Even := by
  obtain ⟨hwritten, hread, hqueued⟩ := hs
  have h1 := h.written
  have h2 := h.read
  have h3 : s'.api.delivered = s.api.delivered + c.given := h.delivered
  have h4 := h.queued
  unfold Accounted Charge.Even
  omega

theorem Charges.trans {c c' : Charge} (h1 : Charges gen asked gen' asked' c)
    (h2 : Charges gen' asked' gen'' asked'' c') : Charges gen asked gen'' asked''
      ⟨c.accepted + c'.accepted, c.written + c'.written, c.read + c'.read, c.given + c'.given,
        c.lost + c'.lost⟩ := by
  have hqueued := h1.queued
  have hqueued' := h2.queued
  refine ⟨h2.inv, h2.apart, ?_, ?_, ?_, ?_⟩
  · rw [h2.written, h1.written, Nat.add_assoc]
  · rw [h2.read, h1.read, Nat.add_assoc]
  · rw [h2.delivered, h1.delivered, Nat.add_assoc]
  · simp only
    omega

theorem Charges.addWritten {a w r g l : Nat} (h : Charges gen asked gen' asked' ⟨a, w, r, g, l⟩)
    (m : Nat) : Charges gen asked (gen'.addWritten m) asked' ⟨a, w + m, r, g, l⟩ := by
  refine ⟨h.inv.congr rfl rfl h.inv.size, h.apart.congr rfl rfl rfl rfl, ?_, h.read, h.delivered,
    h.queued⟩
  have hwritten := h.written
  show gen'.bytesWritten + m = _
  rw [hwritten, Nat.add_assoc]

theorem charges_serves (hinv : ByteInv gen') (h : Apart gen asked) (hserves : Serves k gen gen')
    (hgiven : (settledBytes gen'.ctx.settlements).length
      = (settledBytes gen.ctx.settlements).length)
    (hcount : gen'.bytesWritten = gen.bytesWritten ∧ gen'.bytesRead = gen.bytesRead)
    (hq : queueBytes gen'.queue = queueBytes gen.queue) :
    Charges gen asked gen' (asked ++ List.range' gen.ctx.promises k) ⟨0, 0, 0, 0, 0⟩ := by
  obtain ⟨hapart, hdelivered⟩ := @Apart.serves _ _ _ _ 0 h hserves hgiven
  exact ⟨hinv, hapart, hcount.1, hcount.2, hdelivered, hq⟩

theorem Moves.charges (hmoves : Moves n gen gen') (hinv : ByteInv gen') (h : Apart gen asked) :
    Charges gen asked gen' asked ⟨0, 0, 0, n, 0⟩ := by
  obtain ⟨hapart, hdelivered⟩ := h.serves hmoves.serves hmoves.settled
  rw [List.range'_zero, List.append_nil] at hapart hdelivered
  have hqueued := hmoves.queued
  obtain ⟨it, q, ctx, k, rfl⟩ := hmoves.frame
  exact ⟨hinv, hapart, rfl, rfl, hdelivered, hqueued⟩

theorem ByteInv.iteratorYield (h : ByteInv gen) (v : JSValue) :
    ByteInv (iteratorYield gen v).1 := by
  cases hreads : gen.iterator.reads with
  | nil =>
    rw [iteratorYield_nil hreads]
    exact h
  | cons rd reads =>
    simp only [iteratorYield_cons hreads]
    refine ⟨h.marked, h.separate, h.ended, ?_, h.unrefs, h.size⟩
    intro hs
    rcases h.drained hs with hnil | hitems
    · rw [hreads] at hnil
      cases hnil
    · exact Or.inr hitems

theorem Apart.iteratorYield (h : Apart gen asked) (hreads : gen.iterator.reads ≠ [])
    (v : JSValue) : Apart (iteratorYield gen v).1 asked ∧
      (iteratorYield gen v).1.ctx.deliveredTo asked
        = gen.ctx.deliveredTo asked + (jsInputChars v).length := by
  have hgiven : (settledBytes (QjsNet.iteratorYield gen v).1.ctx.settlements).length
      = (settledBytes gen.ctx.settlements).length + (jsInputChars v).length := by
    obtain ⟨rd, reads, hreads⟩ := List.exists_cons_of_ne_nil hreads
    simp only [iteratorYield_cons hreads, settlements_resolve, settledBytes_append,
      List.length_append]
    simp [Settlement.bytes]
  obtain ⟨hapart, hdelivered⟩ := h.serves (serves_iteratorYield gen v) hgiven
  rw [List.range'_zero, List.append_nil] at hapart hdelivered
  exact ⟨hapart, hdelivered⟩

theorem charges_direct {d : Bytes} (hinv : ByteInv gen) (h : Apart gen asked)
    (hdirect : gen.direct = true) :
    Charges gen asked
      (((iteratorYield gen (gen.blockFn.apply d)).1.addRead 0).addWritten d.length) asked
      ⟨d.length, d.length, 0, d.length, 0⟩ := by
  obtain ⟨_, _, hitems, hreads⟩ := direct_iff.1 hdirect
  obtain ⟨hapart, hdelivered⟩ := h.iteratorYield hreads (gen.blockFn.apply d)
  rw [jsInputChars_apply] at hdelivered
  refine ⟨(hinv.iteratorYield _).congr rfl rfl hinv.size, hapart.congr rfl rfl rfl rfl, rfl, rfl,
    hdelivered, ?_⟩
  rfl

theorem charges_put {d : Bytes} {callback : JSValue} {ret : Nat} (hinv : ByteInv gen)
    (h : Apart gen asked) (hcb : callback.isFunction = true → ∃ f, callback = .function f)
    (heq : enqueueBlock gen (blockCopy d) callback = some (gen', ret)) :
    Charges gen asked gen' asked ⟨gen.takes d.length, 0, 0, 0, gen.loses⟩ ∧
      ret = gen.mergeSize + d.length := by
  obtain ⟨q, rfl, hinv', _, hput⟩ := hinv.put hcb heq
  exact ⟨⟨hinv', h.congr rfl rfl rfl rfl, rfl, rfl, rfl, hput.bytes⟩, hput.ret⟩

theorem leaving_put {q : Queue} {d : Bytes} {callback : JSValue} {ret : Nat} (hinv : ByteInv gen)
    (hinv' : ByteInv (gen.setQueue q))
    (heq : enqueueBlock gen (blockCopy d) callback = some (gen.setQueue q, ret)) :
    (gen.setQueue q).leavingBytes gen.iterator.reads.length (itemsSizes q.items)
      = if queueComplete gen.queue then 0
        else gen.leavingBytes gen.iterator.reads.length (gen.sizesAfter d.length) := by
  rcases complete_or_open hinv.marked with ⟨hopen, hc⟩ | ⟨_, hc⟩
  · have hsizes := enqueueBlock_sizes hopen heq
    rw [setQueue_queue] at hsizes
    rw [hc, if_neg Bool.false_ne_true, hsizes]
    rfl
  · rw [hc, if_pos rfl]
    exact hinv'.leaving_stopped (hinv.ended hc)

theorem charges_write {d : Bytes} {callback : Option Nat} {ret : Nat} (hinv : ByteInv gen)
    (h : Apart gen asked)
    (heq : generatorWrite gen d (callbackArg callback) = some (gen', ret)) :
    Charges gen asked gen' asked ⟨gen.takes d.length, gen.mergeSize + d.length, 0,
        if queueComplete gen.queue then 0
        else gen.leavingBytes gen.iterator.reads.length (gen.sizesAfter d.length), gen.loses⟩ ∧
      ret = gen.mergeSize + d.length := by
  unfold generatorWrite at heq
  split at heq
  · next hdirect =>
    obtain ⟨rfl, rfl⟩ := Prod.mk.inj (Option.some.inj heq)
    obtain ⟨hbuf, hcont, hitems, hreads⟩ := direct_iff.1 hdirect
    have hopen : OpenItems gen.queue.items := hitems ▸ openItems_nil
    have hc := queueComplete_of_open hopen
    have hmerge : gen.mergeSize = 0 := by
      rw [mergeSize_open hopen, hbuf, if_neg Bool.false_ne_true]
    have hleaving : gen.leavingBytes gen.iterator.reads.length (gen.sizesAfter d.length)
        = d.length := by
      obtain ⟨rd, reads, hreads⟩ := List.exists_cons_of_ne_nil hreads
      simp [Generator.leavingBytes, Generator.leaving, Generator.sizesAfter, hbuf, hcont, hitems,
        hreads, hinv.size hbuf, itemsSizes]
    rw [hc, if_neg Bool.false_ne_true, hmerge, loses_open hc, takes_open hc, hleaving, Nat.zero_add]
    exact ⟨charges_direct hinv h hdirect, rfl⟩
  · obtain ⟨⟨gen₁, ret₁⟩, h1, h2⟩ := Option.bind_eq_some_iff.1 heq
    obtain ⟨rfl, rfl⟩ := Prod.mk.inj (Option.some.inj h2)
    obtain ⟨q, rfl, hinv₁, _, _⟩ := hinv.put callbackArg_function h1
    obtain ⟨hput, hret⟩ := charges_put hinv h callbackArg_function h1
    obtain ⟨hinv₂, hmoves⟩ := hinv₁.writeLoop
    have hloop := hmoves.charges hinv₂ hput.apart
    have hboth := (hput.trans hloop).addWritten ret₁
    simp only [Nat.add_zero, Nat.zero_add] at hboth
    rw [setQueue_iterator, setQueue_queue, leaving_put hinv hinv₁ h1] at hboth
    rw [hret] at hboth ⊢
    exact ⟨hboth, rfl⟩

/-- A yield to a waiting read is counted twice, and rightly so. -/
theorem charges_yield {v callback : JSValue} {b : Bool} (hinv : ByteInv gen) (h : Apart gen asked)
    (hcb : callback.isFunction = true → ∃ f, callback = .function f)
    (heq : generatorYield gen v callback = some (gen', b)) :
    Charges gen asked gen' asked
        (if gen.iterator.reads = [] then
          ⟨gen.takes (jsInputChars v).length, gen.mergeSize + (jsInputChars v).length, 0, 0,
            gen.loses⟩
        else ⟨(jsInputChars v).length, (jsInputChars v).length, (jsInputChars v).length,
          (jsInputChars v).length, 0⟩) ∧ b = true := by
  unfold generatorYield at heq
  cases hreads : gen.iterator.reads with
  | nil =>
    simp only [iteratorYield_nil hreads, Bool.false_eq_true, if_false] at heq
    obtain ⟨⟨gen₁, ret⟩, h1, h2⟩ := Option.bind_eq_some_iff.1 heq
    obtain ⟨rfl, rfl⟩ := Prod.mk.inj (Option.some.inj h2)
    obtain ⟨hput, hret⟩ := charges_put hinv h hcb h1
    have hcount := hput.addWritten ret
    rw [Nat.zero_add, hret] at hcount
    rw [if_pos rfl, hret]
    exact ⟨hcount, rfl⟩
  | cons rd reads =>
    have hne : gen.iterator.reads ≠ [] := by simp [hreads]
    have hyields : iteratorYield gen v = ((iteratorYield gen v).1, true) := by
      simp [iteratorYield_cons hreads]
    rw [hyields] at heq
    obtain ⟨rfl, rfl⟩ := Prod.mk.inj (Option.some.inj heq)
    obtain ⟨hapart, hdelivered⟩ := h.iteratorYield hne v
    rw [if_neg (List.cons_ne_nil _ _)]
    exact ⟨⟨(hinv.iteratorYield v).congr rfl rfl hinv.size, hapart.congr rfl rfl rfl rfl, rfl, rfl,
      hdelivered, rfl⟩, rfl⟩

theorem charges_push {v ret : JSValue} (hinv : ByteInv gen) (h : Apart gen asked)
    (heq : generatorPush gen v = some (gen', ret)) :
    Charges gen asked gen' asked
      (if gen.iterator.reads = [] then
        ⟨gen.takes (jsInputChars v).length, gen.mergeSize + (jsInputChars v).length, 0, 0,
          gen.loses⟩
      else ⟨(jsInputChars v).length, (jsInputChars v).length, (jsInputChars v).length,
        (jsInputChars v).length, 0⟩) := by
  unfold generatorPush at heq
  obtain ⟨⟨gen₁, b⟩, h1, h2⟩ := Option.bind_eq_some_iff.1 heq
  have hcreated : ByteInv gen.createPush := hinv.congr rfl rfl hinv.size
  have hapart : Apart gen.createPush asked := by
    refine ⟨h.waiting, ?_, ?_, ?_, h.executor⟩
    · exact fun p hp => Nat.lt_succ_of_lt (h.made p hp)
    · exact fun e he => Nat.lt_succ_of_lt (h.settled e he)
    · intro _
      exact ⟨gen.ctx.promises, rfl, Nat.lt_succ_self _, fun hp => Nat.lt_irrefl _ (h.made _ hp)⟩
  obtain ⟨hyield, rfl⟩ := charges_yield hcreated hapart (fun hfn => by cases hfn) h1
  obtain ⟨rfl, -⟩ := Prod.mk.inj (Option.some.inj h2)
  exact ⟨hyield.inv.congr rfl rfl hyield.inv.size, hyield.apart.congr rfl rfl rfl rfl,
    hyield.written, hyield.read, hyield.delivered, hyield.queued⟩

theorem charges_enqueue {v : JSValue} {ret : Nat} (hinv : ByteInv gen) (h : Apart gen asked)
    (heq : generatorEnqueue gen v = some (gen', ret)) :
    Charges gen asked gen' asked ⟨gen.takes (jsInputChars v).length, 0, 0, 0, gen.loses⟩ := by
  have hcreated : ByteInv (createQueue gen) := hinv.congr rfl rfl hinv.size
  have hapart : Apart (createQueue gen) asked := h.congr rfl rfl rfl rfl
  obtain ⟨hput, _⟩ := charges_put hcreated hapart (fun hfn => by cases hfn) heq
  exact ⟨hput.inv, hput.apart, hput.written, hput.read, hput.delivered, hput.queued⟩

theorem charges_resume (hinv : ByteInv gen) (h : Apart gen asked) (arg : JSValue) :
    Charges gen asked (gen.resume arg) asked ⟨0, 0, 0, 0, 0⟩ := by
  obtain ⟨hapart, hdelivered⟩ := h.resume arg
  obtain ⟨ctx, executor, funcs, started, heq⟩ := resume_frame gen arg
  rw [heq] at hapart hdelivered ⊢
  exact ⟨hinv.congr rfl rfl hinv.size, hapart, rfl, rfl, hdelivered, rfl⟩

theorem charges_ask (hinv : ByteInv gen) (h : Apart gen asked) (hs : ¬ Stopped gen)
    (arg : JSValue) :
    Charges gen asked (gen.ask arg) (asked ++ [gen.ctx.promises]) ⟨0, 0, 0, 0, 0⟩ := by
  refine charges_serves ?_ h (serves_ask gen arg) rfl ⟨rfl, rfl⟩ rfl
  exact ⟨hinv.marked, hinv.separate, hinv.ended, fun hs' => absurd hs' hs, hinv.unrefs, hinv.size⟩

theorem charges_answerDone (hinv : ByteInv gen) (h : Apart gen asked)
    (hreads : gen.iterator.reads = []) :
    Charges gen asked gen.answerDone (asked ++ [gen.ctx.promises]) ⟨0, 0, 0, 0, 0⟩ := by
  refine charges_serves ?_ h (serves_answerDone hreads) ?_ ⟨rfl, rfl⟩ rfl
  · exact ⟨hinv.marked, hinv.separate, fun _ => Or.inl rfl, fun _ => Or.inl rfl, hinv.unrefs,
      hinv.size⟩
  · rw [answerDone_settlements, settledBytes_append, List.length_append]
    rfl

theorem charges_nextBegin {arg ret : JSValue} (hinv : ByteInv gen) (h : Apart gen asked)
    (heq : generatorNextBegin gen arg = some (gen', ret)) :
    Charges gen asked gen' (asked ++ [gen.ctx.promises]) ⟨0, 0, 0, 0, 0⟩ ∧
      gen'.leavingBytes gen'.iterator.reads.length (itemsSizes gen'.queue.items)
        = if gen.iterator.closing || gen.iterator.closed then 0
          else gen.leavingBytes (gen.iterator.reads.length + 1) (itemsSizes gen.queue.items) := by
  by_cases hs : Stopped gen
  · have hend : (gen.iterator.closing || gen.iterator.closed) = true := by
      simpa [Stopped] using hs
    cases hreads : gen.iterator.reads with
    | nil =>
      rw [nextBegin_answerDone hs hreads] at heq
      obtain ⟨rfl, -⟩ := Prod.mk.inj (Option.some.inj heq)
      have hdone := charges_answerDone hinv h hreads
      refine ⟨hdone.trans (charges_resume hdone.inv hdone.apart arg), ?_⟩
      rw [hend, if_pos rfl, (resume_iterator _ arg).1]
      exact leavingBytes_nil _
    | cons rd reads =>
      have hnext : asynciteratorNext gen.iterator arg gen.ctx = none := by
        simp [asynciteratorNext, hend, hreads]
      simp [generatorNextBegin, hnext] at heq
  · have hend : (gen.iterator.closing || gen.iterator.closed) = false := by
      simpa [Stopped] using hs
    rw [nextBegin_ask hs arg] at heq
    obtain ⟨rfl, -⟩ := Prod.mk.inj (Option.some.inj heq)
    have hask := charges_ask hinv h hs arg
    refine ⟨hask.trans (charges_resume hask.inv hask.apart arg), ?_⟩
    obtain ⟨ctx, executor, funcs, started, heq⟩ := resume_frame (gen.ask arg) arg
    rw [heq, hend, if_neg Bool.false_ne_true]
    rw [show (Generator.iterator _).reads.length = gen.iterator.reads.length + 1 from
      List.length_append]
    rfl

theorem charges_nextEnd (hinv : ByteInv gen) (h : Apart gen asked) :
    Charges gen asked (generatorNextEnd gen) asked ⟨0, 0, 0,
      gen.leavingBytes gen.iterator.reads.length (itemsSizes gen.queue.items), 0⟩ :=
  hinv.nextEnd.2.charges hinv.nextEnd.1 h

theorem charges_stop {arg : JSValue} {b : Bool} (hinv : ByteInv gen) (h : Apart gen asked)
    (heq : generatorStop gen arg = some (gen', b)) :
    Charges gen asked gen' asked ⟨0, 0, 0, 0, 0⟩ := by
  unfold generatorStop at heq
  split at heq
  · obtain ⟨rfl, -⟩ := Prod.mk.inj (Option.some.inj heq)
    exact (Moves.refl gen).charges hinv h
  · obtain ⟨gen₁, hqueue, hgen⟩ := Option.bind_eq_some_iff.1 heq
    obtain ⟨hmoves, hmarked, hunrefs⟩ := hinv.stopQueue hqueue
    obtain ⟨rfl, -⟩ := Prod.mk.inj ((stopIterator_eq gen₁ arg).symm.trans (Option.some.inj hgen))
    refine (hmoves.trans (moves_stop gen₁ arg)).charges ?_ h
    exact byteInv_stop hmarked (hmoves.serves.separate hinv.separate) hunrefs
      (hmoves.setting hinv.size) arg

theorem charges_finish {b : Bool} (hinv : ByteInv gen) (h : Apart gen asked)
    (heq : generatorFinish gen = some (gen', b)) :
    Charges gen asked gen' asked ⟨0, 0, 0,
      ((itemsSizes gen.queue.items).take gen.iterator.reads.length).sum, 0⟩ := by
  obtain ⟨hinv', hmoves⟩ := hinv.finish heq
  exact hmoves.charges hinv' h

theorem charges_buffering (hinv : ByteInv gen) (h : Apart gen asked) (chunkSize : Nat) :
    Charges gen asked (generatorBuffering gen chunkSize).1 asked ⟨0, 0, 0, 0, 0⟩ :=
  ⟨hinv.congr rfl rfl (fun hbuf => by cases hbuf), h.congr rfl rfl rfl rfl, rfl, rfl, rfl, rfl⟩

/-- The promise of the call itself is not one of a read. -/
theorem charges_return (hinv : ByteInv gen) (h : Apart gen asked) (arg : JSValue) :
    Charges gen asked (generatorReturn gen arg).1 asked ⟨0, 0, 0, 0, 0⟩ := by
  let gen₁ : Generator := { gen with ctx := { gen.ctx with promises := gen.ctx.promises + 1 } }
  have hapart₁ : Apart gen₁ asked := by
    refine ⟨h.waiting, fun p hp => Nat.lt_succ_of_lt (h.made p hp),
      fun e he => Nat.lt_succ_of_lt (h.settled e he), ?_, h.executor⟩
    intro hfn
    obtain ⟨p, hp, hlt, hnot⟩ := h.slot hfn
    exact ⟨p, hp, Nat.lt_succ_of_lt hlt, hnot⟩
  have hmoves := moves_stop gen₁ arg
  have hstop := hmoves.charges
    (@byteInv_stop gen₁ hinv.marked hinv.separate hinv.unrefs hinv.size arg) hapart₁
  have hpromises := hmoves.serves.promises
  obtain ⟨hapart, hdelivered⟩ := @Apart.settle _ _
    (jsCall (asynciteratorStop gen₁.iterator arg gen₁.ctx).2.1 (.resolve gen.ctx.promises)
      [.iteratorResult arg true]) gen.ctx.promises _ hstop.apart rfl (settlements_resolve ..)
    (by rw [hpromises]; exact Nat.lt_succ_self _) (fun hp => Nat.lt_irrefl _ (h.made _ hp))
  exact ⟨hstop.inv.congr rfl rfl hinv.size, hapart, rfl, rfl, hdelivered.trans hstop.delivered, rfl⟩

/-! ## Runs -/

theorem takes_le (gen : Generator) (n : Nat) : gen.takes n ≤ n := by
  unfold Generator.takes
  split
  · split
    · exact Nat.min_le_left _ _
    · exact Nat.zero_le _
  · exact Nat.le_refl _

theorem loses_eq_zero (h : gen.mergeSize + n = gen.takes n) : gen.loses = 0 := by
  have hle := takes_le gen n
  unfold Generator.loses
  split
  · omega
  · rfl

structure BytesInv (s : ByteState) : Prop where
  bytes : ByteInv s.api.gen
  apart : Apart s.api.gen s.api.asked

theorem Charges.step {s s' : ByteState} {c : Charge} {ok : Prop}
    (h : Charges s.api.gen s.api.asked s'.api.gen s'.api.asked c)
    (haccepted : s'.accepted = s.accepted + c.accepted) (hiff : c.Even ↔ ok) :
    BytesInv s' ∧ (Accounted s → (Accounted s' ↔ ok)) :=
  ⟨⟨h.inv, h.apart⟩, fun hs => (h.accounted haccepted hs).trans hiff⟩

theorem even_zero : Charge.Even ⟨0, 0, 0, 0, 0⟩ := ⟨rfl, rfl, rfl⟩

theorem even_given : Charge.Even ⟨0, 0, 0, n, 0⟩ ↔ n = 0 := by
  simp [Charge.Even, eq_comm]

theorem even_put {m a l : Nat} : Charge.Even ⟨a, m, 0, n, l⟩ ↔ m = a ∧ n = 0 ∧ l = 0 := by
  unfold Charge.Even
  simp only
  omega

/-- Without an executor a read is counted when it takes no bytes with it. -/
theorem countable_next {s : ByteState} {arg : JSValue}
    (hexec : s.api.gen.executor.isFunction ≠ true) :
    (if s.api.gen.iterator.closing || s.api.gen.iterator.closed then 0
      else s.api.gen.leavingBytes (s.api.gen.iterator.reads.length + 1)
        (itemsSizes s.api.gen.queue.items)) = 0 ↔ Countable s (.next arg) := by
  unfold Countable Stopped
  by_cases hs : (s.api.gen.iterator.closing || s.api.gen.iterator.closed) = true
  · rw [if_pos hs]
    refine iff_of_true rfl (Or.inr (Or.inl ?_))
    simpa using hs
  · rw [if_neg hs]
    simp only [Bool.or_eq_true] at hs
    simp [hexec, hs]

/-- A write that is taken whole loses nothing, so what counts is that nothing leaves. -/
theorem countable_write {s : ByteState} {data : Bytes} {callback : Option Nat} :
    Charge.Even ⟨s.api.gen.takes data.length, s.api.gen.mergeSize + data.length, 0,
        if queueComplete s.api.gen.queue then 0
        else s.api.gen.leavingBytes s.api.gen.iterator.reads.length
          (s.api.gen.sizesAfter data.length), s.api.gen.loses⟩ ↔
      Countable s (.write data callback) := by
  rw [even_put]
  unfold Countable
  refine and_congr_right fun htakes => ?_
  rw [loses_eq_zero htakes]
  cases queueComplete s.api.gen.queue <;> simp

/-- A push to a read that waits is counted, and one that is taken whole. -/
theorem countable_push {s : ByteState} {value : JSValue} (hreads : s.api.gen.iterator.reads = []) :
    Charge.Even ⟨s.api.gen.takes (jsInputChars value).length,
        s.api.gen.mergeSize + (jsInputChars value).length, 0, 0, s.api.gen.loses⟩ ↔
      Countable s (.push value) := by
  rw [even_put]
  refine ⟨fun heven => Or.inr heven.1, fun hc => ?_⟩
  rcases hc with hne | htakes
  · exact absurd hreads hne
  · exact ⟨htakes, rfl, loses_eq_zero htakes⟩

theorem byteStep_iff {s s' : ByteState} {c : ByteCall} (h : BytesInv s)
    (hstep : byteStep s c = some s') :
    BytesInv s' ∧ (Accounted s → (Accounted s' ↔ Countable s c)) := by
  obtain ⟨hinv, hapart⟩ := h
  obtain ⟨api', hapi, hs'⟩ := Option.bind_eq_some_iff.1 hstep
  obtain rfl := Option.some.inj hs'
  cases c with
  | next arg =>
    obtain ⟨⟨gen₁, ret⟩, hbegin, hnext⟩ := Option.bind_eq_some_iff.1 hapi
    obtain ⟨hcharge, hleaving⟩ := charges_nextBegin hinv hapart hbegin
    simp only at hnext
    split at hnext
    · next hexec =>
      obtain rfl := Option.some.inj hnext
      exact Charges.step hcharge rfl (iff_of_true even_zero (Or.inl hexec))
    · next hexec =>
      obtain rfl := Option.some.inj hnext
      have hend := hcharge.trans (charges_nextEnd hcharge.inv hcharge.apart)
      simp only [Nat.zero_add] at hend
      rw [hleaving] at hend
      exact Charges.step hend rfl (even_given.trans (countable_next hexec))
  | executorReturns =>
    simp only [ByteCall.toApi, apiStep] at hapi
    split at hapi
    · obtain rfl := Option.some.inj hapi
      exact Charges.step (charges_nextEnd hinv hapart) rfl even_given
    · cases hapi
  | write data callback =>
    obtain ⟨⟨gen₁, ret⟩, heq, hgen⟩ := Option.bind_eq_some_iff.1 hapi
    obtain rfl := Option.some.inj hgen
    exact Charges.step (charges_write hinv hapart heq).1 rfl countable_write
  | push value =>
    obtain ⟨⟨gen₁, ret⟩, heq, hgen⟩ := Option.bind_eq_some_iff.1 hapi
    obtain rfl := Option.some.inj hgen
    have hcharge := charges_push hinv hapart heq
    by_cases hreads : s.api.gen.iterator.reads = []
    · rw [if_pos hreads] at hcharge
      exact Charges.step hcharge (by simp [Generator.accepts, hreads])
        (countable_push hreads)
    · rw [if_neg hreads] at hcharge
      refine Charges.step hcharge (by simp [Generator.accepts, hreads]) ?_
      exact iff_of_true ⟨rfl, rfl, rfl⟩ (Or.inl hreads)
  | enqueue value =>
    obtain ⟨⟨gen₁, ret⟩, heq, hgen⟩ := Option.bind_eq_some_iff.1 hapi
    obtain rfl := Option.some.inj hgen
    refine Charges.step (charges_enqueue hinv hapart heq) rfl (even_put.trans ?_)
    unfold Countable
    omega
  | buffering chunkSize =>
    obtain rfl := Option.some.inj hapi
    exact Charges.step (charges_buffering hinv hapart chunkSize) rfl (iff_of_true even_zero trivial)
  | stop arg =>
    obtain ⟨⟨gen₁, b⟩, heq, hgen⟩ := Option.bind_eq_some_iff.1 hapi
    obtain rfl := Option.some.inj hgen
    exact Charges.step (charges_stop hinv hapart heq) rfl (iff_of_true even_zero trivial)
  | finish =>
    obtain ⟨⟨gen₁, b⟩, heq, hgen⟩ := Option.bind_eq_some_iff.1 hapi
    obtain rfl := Option.some.inj hgen
    exact Charges.step (charges_finish hinv hapart heq) rfl even_given
  | iteratorReturn arg =>
    obtain rfl := Option.some.inj hapi
    exact Charges.step (charges_return hinv hapart arg) rfl (iff_of_true even_zero trivial)

/-- A write that is countable reports what was accepted. -/
theorem returnsAccepted {s : ByteState} {c : ByteCall} (h : BytesInv s) (hc : Countable s c) :
    ReturnsAccepted s c := by
  cases c with
  | write data callback =>
    intro gen ret heq
    rw [(charges_write h.bytes h.apart heq).2]
    exact hc.1
  | _ => trivial

def ByteState.new (gen : Generator) : ByteState := ⟨.new gen, 0⟩

theorem bytesInv_new (blockFn : BlockFn) (executor chunkSize : Option Nat) :
    BytesInv (.new (.new blockFn (executor.elim .undefined .function) chunkSize)) := by
  have hexecutor := @callbackArg_function executor
  cases chunkSize with
  | none =>
    refine ⟨⟨.of_open openItems_nil, rfl, (fun hc => by cases hc), fun _ => Or.inl rfl,
      userCallbacks_nil, fun _ => rfl⟩, ?_⟩
    exact ⟨fun _ hp => absurd hp List.not_mem_nil, fun _ hp => absurd hp List.not_mem_nil,
      fun _ he => absurd he List.not_mem_nil, (fun hfn => by cases hfn), hexecutor⟩
  | some n =>
    refine ⟨⟨.of_open openItems_nil, rfl, (fun hc => by cases hc), fun _ => Or.inl rfl,
      userCallbacks_nil, fun hbuf => by cases hbuf⟩, ?_⟩
    exact ⟨fun _ hp => absurd hp List.not_mem_nil, fun _ hp => absurd hp List.not_mem_nil,
      fun _ he => absurd he List.not_mem_nil, (fun hfn => by cases hfn), hexecutor⟩

/-- **When the bytes are counted.** In every state of a run the counters agree with what was
accepted, delivered and queued, and every write returns what it accepted, if and only if every call
is countable. -/
theorem bytes_counted_iff (blockFn : BlockFn) (executor chunkSize : Option Nat)
    (calls : List ByteCall) :
    (PartialRun.Throughout byteStep Accounted
        (.new (.new blockFn (executor.elim .undefined .function) chunkSize)) calls ∧
      PartialRun.Meets byteStep ReturnsAccepted
        (.new (.new blockFn (executor.elim .undefined .function) chunkSize)) calls) ↔
      PartialRun.Meets byteStep Countable
        (.new (.new blockFn (executor.elim .undefined .function) chunkSize)) calls := by
  have hinv := bytesInv_new blockFn executor chunkSize
  have hnew : Accounted (.new (.new blockFn (executor.elim .undefined .function) chunkSize)) := by
    cases chunkSize <;> exact ⟨rfl, rfl, rfl⟩
  have hcounted := @PartialRun.throughout_iff_meets _ _ byteStep BytesInv Accounted Countable
    (fun _ _ _ h hstep => (byteStep_iff h hstep).1)
    (fun _ _ _ h hs hstep => (byteStep_iff h hstep).2 hs) calls _ hinv hnew
  refine ⟨fun h => hcounted.1 h.1, fun h => ⟨hcounted.2 h, ?_⟩⟩
  refine @PartialRun.meets_mono _ _ byteStep BytesInv Countable ReturnsAccepted ?_ calls _ hinv h
  intro s c s' hs hc hstep
  exact ⟨returnsAccepted hs hc, (byteStep_iff hs hstep).1⟩

/-- A byte that was queued and then read is not counted as read. -/
theorem queued_bytes_miscounted :
    ¬ ∀ (blockFn : BlockFn) (executor chunkSize : Option Nat) (calls : List ByteCall),
      PartialRun.Throughout byteStep Accounted
          (.new (.new blockFn (executor.elim .undefined .function) chunkSize)) calls ∧
        PartialRun.Meets byteStep ReturnsAccepted
          (.new (.new blockFn (executor.elim .undefined .function) chunkSize)) calls := by
  intro h
  have hread := (h .toarraybuffer none none [.write [1] none, .next .undefined]).1 _
    (List.prefix_refl _) _ rfl
  exact absurd hread (by decide)

end QjsNet
