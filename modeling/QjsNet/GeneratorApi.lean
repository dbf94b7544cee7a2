import QjsNet.GeneratorEndings
import QjsNet.QueueStream

/- The calls a script can make on a generator, in any order.

   A run is any sequence of calls on a new generator. The executor is called by the
   first `next`, before the queue is looked at; the calls it makes before it returns
   are the next steps of the run, and `executorReturns` goes on with the rest of that
   `next`. It is called once, so at most one `next` is in that state (`running`).

   `ApiInv` is what every call keeps that is made in a ready state
   (`GeneratorSafety`): a generator that is stopped has no waiting read, the end of its
   queue is the last item, and a queue that has an end belongs to a stopped generator.

   Correspondence (C ↔ Lean):
     `minnet_generator_function`, `_method`, `_push`, `_stop` ↔ `apiStep`
     `GENERATOR_RETURN` ↔ `generatorReturn`
     the constructor ↔ `Generator.new` -/
namespace QjsNet

/-- `GENERATOR_RETURN`: the iterator is stopped, whatever the queue holds. -/
def generatorReturn (gen : Generator) (arg : JSValue) : Generator × JSValue :=
  let (ctx, async, ret) := jsAsyncCreate gen.ctx
  let (it, ctx, _) := asynciteratorStop gen.iterator arg ctx
  let (ctx, _, _) := jsAsyncResolve ctx async (.iteratorResult arg true)
  ({ gen with iterator := it, ctx }, ret)

/-- A generator with an executor, buffering when the constructor got a size. -/
def Generator.new (blockFn : BlockFn) (executor : JSValue) (chunkSize : Option Nat) : Generator :=
  let gen := { generatorNew .new with blockFn, executor }
  chunkSize.elim gen fun n => (generatorBuffering gen n).1

inductive ApiCall where
  | next (arg : JSValue)
  | executorReturns
  | write (data : Bytes) (callback : Option Nat)
  | push (value : JSValue)
  | enqueue (value : JSValue)
  | stop (arg : JSValue)
  | finish
  | continuous (callback : JSValue)
  | buffering (chunkSize : Nat)
  | iteratorReturn (arg : JSValue)
  | throw (error : JSValue)
  /-- `then()` and `catch()` of the promise the last push returned. -/
  | thenPush (argc : Nat)
  | catchPush
  deriving DecidableEq, Repr

/-- A generator, whether its executor is running inside `next`, and the promises that reads and
pushes were given. -/
structure ApiState where
  gen : Generator
  running : Bool
  asked : List Nat
  pushed : List Nat
  deriving DecidableEq, Repr

def ApiState.new (gen : Generator) : ApiState := ⟨gen, false, [], []⟩

def apiStep (s : ApiState) : ApiCall → Option ApiState
  | .next arg => do
    let (gen, _) ← generatorNextBegin s.gen arg
    let asked := s.asked ++ [s.gen.ctx.promises]
    if s.gen.executor.isFunction then some { s with gen, running := true, asked }
    else some { s with gen := generatorNextEnd gen, asked }
  | .executorReturns =>
    if s.running then some { s with gen := generatorNextEnd s.gen, running := false } else none
  | .write data callback => do
    let (gen, _) ← generatorWrite s.gen data (callbackArg callback)
    some { s with gen }
  | .push value => do
    let (gen, _) ← generatorPush s.gen value
    some { s with gen, pushed := s.pushed ++ [s.gen.ctx.promises] }
  | .enqueue value => do
    let (gen, _) ← generatorEnqueue s.gen value
    some { s with gen }
  | .stop arg => do
    let (gen, _) ← generatorStop s.gen arg
    some { s with gen }
  | .finish => do
    let (gen, _) ← generatorFinish s.gen
    some { s with gen }
  | .continuous callback => some { s with gen := (generatorContinuous s.gen callback).1 }
  | .buffering chunkSize => some { s with gen := (generatorBuffering s.gen chunkSize).1 }
  | .iteratorReturn arg => some { s with gen := (generatorReturn s.gen arg).1 }
  | .throw error => do
    let (gen, _) ← generatorThrow s.gen error
    some { s with gen }
  | .thenPush argc =>
    some { s with gen := { s.gen with promise := s.gen.promise.map (·.then argc) } }
  | .catchPush => some { s with gen := { s.gen with promise := s.gen.promise.map (·.catch) } }

/-! ## What keeps the end of a queue -/

variable {fns : Nat → Prop} {gen gen' : Generator} {q q' q'' : Queue}

theorem endMarked_iff {items : List QueueItem} : EndMarked items ↔
    ∀ n i, items[n]? = some i → i.done = true → n + 1 = items.length ∧ i.block.data = [] := by
  refine ⟨?_, ?_⟩
  · intro h n i hn hdone
    obtain ⟨hlt, hi⟩ := List.getElem?_eq_some_iff.1 hn
    have hsplit : items = items.take n ++ i :: items.drop (n + 1) := by
      rw [← hi, List.getElem_cons_drop, List.take_append_drop]
    obtain ⟨hafter, hdata⟩ := h _ i _ hsplit hdone
    have hlen := congrArg List.length hafter
    rw [List.length_drop, List.length_nil] at hlen
    exact ⟨by omega, hdata⟩
  · intro h before i after heq hdone
    obtain ⟨hlen, hdata⟩ := h before.length i (by simp [heq]) hdone
    rw [heq] at hlen
    simp only [List.length_append, List.length_cons] at hlen
    exact ⟨List.length_eq_zero_iff.1 (by omega), hdata⟩

theorem EndMarked.drop {items : List QueueItem} (h : EndMarked items) (k : Nat) :
    EndMarked (items.drop k) := by
  rw [endMarked_iff] at h ⊢
  intro n i hn hdone
  rw [List.getElem?_drop] at hn
  obtain ⟨hlen, hdata⟩ := h (k + n) i hn hdone
  rw [List.length_drop]
  exact ⟨by omega, hdata⟩

/-- `q'` is `q` with more data: its end is where it was, it collects only if `q` did, and there are
no other callbacks. -/
structure Extends (fns : Nat → Prop) (q q' : Queue) : Prop where
  marked : EndMarked q'.items
  complete : queueComplete q' = queueComplete q
  separate : q.continuous = false → q'.continuous = false
  unrefs : UserCallbacks fns q.items → UserCallbacks fns q'.items

theorem Extends.refl (h : EndMarked q.items) : Extends fns q q := ⟨h, rfl, id, id⟩

theorem Extends.trans (h1 : Extends fns q q') (h2 : Extends fns q' q'') : Extends fns q q'' :=
  ⟨h2.marked, h2.complete.trans h1.complete, fun h => h2.separate (h1.separate h),
    fun h => h2.unrefs (h1.unrefs h)⟩

theorem queueAdd_extends (h : EndMarked q.items) (chunk : ByteBlock) :
    Extends fns q (queueAdd q chunk).1 := by
  rcases complete_or_open h with ⟨hopen, hc⟩ | ⟨_, hc⟩
  · have happ := queueAdd_appends hopen chunk
    refine ⟨.of_open happ.isOpen, ?_, ?_, ?_⟩
    · rw [queueComplete_of_open happ.isOpen, hc]
    · rw [queueAdd_open hopen]
      exact id
    · intro huser
      rw [queueAdd_open hopen]
      exact userCallbacks_append.2 ⟨huser, userCallbacks_singleton.2 fun fn hfn => by cases hfn⟩
  · have hsame : (queueAdd q chunk).1 = q := by simp [queueAdd, hc]
    rw [hsame]
    exact .refl h

theorem modify_extends (h : EndMarked q.items) {n : Nat} {f : QueueItem → QueueItem}
    (hn : ∀ i, q.items[n]? = some i → i.done = false) (hdone : ∀ i, (f i).done = i.done)
    (hunref : ∀ i fn, (f i).unref = some fn →
      i.unref = some fn ∨ ∃ g, fns g ∧ fn = .function g) :
    Extends fns q (q.modify n f) := by
  have hmarked : EndMarked (q.modify n f).items := by
    rw [endMarked_iff] at h ⊢
    intro m i hi hd
    rw [modify_items, List.getElem?_modify] at hi
    rw [modify_items, List.length_modify]
    obtain ⟨j, hj, rfl⟩ := Option.map_eq_some_iff.1 hi
    by_cases hnm : n = m
    · rw [if_pos hnm, hdone, hn j (hnm ▸ hj)] at hd
      cases hd
    · rw [if_neg hnm] at hd ⊢
      exact h m j hj hd
  refine ⟨hmarked, ?_, id, ?_⟩
  · -- The flags of the items are the same.
    have hflags : (q.modify n f).items.map (·.done) = q.items.map (·.done) :=
      map_modify hdone n q.items
    have hlast := congrArg List.getLast? hflags
    rw [List.getLast?_map, List.getLast?_map] at hlast
    unfold queueComplete queueBack
    cases h1 : (q.modify n f).items.getLast? <;> cases h2 : q.items.getLast? <;>
      simp_all only [Option.map_some, Option.map_none, Option.some.injEq, reduceCtorEq,
        Option.elim_some, Option.elim_none]
  · intro huser i hi fn hfn
    obtain ⟨m, hm⟩ := List.getElem?_of_mem hi
    rw [modify_items, List.getElem?_modify] at hm
    obtain ⟨j, hj, hji⟩ := Option.map_eq_some_iff.1 hm
    have hmem : j ∈ q.items := List.mem_of_getElem? hj
    rw [← hji] at hfn
    split at hfn
    · rcases hunref j fn hfn with hold | hnew
      · exact huser j hmem fn hold
      · exact hnew
    · exact huser j hmem fn hfn

theorem lastChunk_not_done (h : EndMarked q.items) {n : Nat} (hn : queueLastChunk q = some n) :
    ∀ i, q.items[n]? = some i → i.done = false := by
  intro i hi
  obtain ⟨j, hj, hchunk⟩ := getElem?_lastIdx? hn
  obtain rfl := Option.some.inj (hi.symm.trans hj)
  by_contra hdone
  have hempty := (endMarked_iff.1 h n i hi (by simpa using hdone)).2
  simp [QueueItem.isChunk, ByteBlock.size, hempty] at hchunk
  exact hdone hchunk

/-- Where a put leaves its bytes, the stream does not end. -/
theorem queuePut_extends (h : EndMarked q.items) (chunk : ByteBlock) :
    Extends fns q (queuePut q chunk).1 ∧
      ∀ n, (queuePut q chunk).2 = some n →
        ∀ i, (queuePut q chunk).1.items[n]? = some i → i.done = false := by
  unfold queuePut
  split
  · next n hn =>
    have hlast := lastChunk_not_done h (mergeTarget hn)
    refine ⟨modify_extends h hlast (fun _ => rfl) (fun _ _ hfn => Or.inl hfn), ?_⟩
    intro m hm i hi
    obtain rfl := Option.some.inj hm
    rw [modify_items, List.getElem?_modify_eq] at hi
    obtain ⟨j, hj, rfl⟩ := Option.map_eq_some_iff.1 hi
    exact hlast j hj
  · refine ⟨queueAdd_extends h chunk, ?_⟩
    intro n hn i hi
    unfold queueAdd at hn hi
    split at hn
    · cases hn
    · next hc =>
      obtain rfl := Option.some.inj hn
      rw [if_neg hc, addTail_items, List.getElem?_concat_length] at hi
      obtain rfl := Option.some.inj hi
      rfl

theorem rechunk_extends (blk : ByteBlock) (chunkSize fuel pos : Nat) {q q' : Queue}
    (hq : EndMarked q.items) (h : rechunk blk chunkSize fuel pos q = some q') : Extends fns q q' := by
  refine @rechunk_induct blk chunkSize (fun _ q q' => EndMarked q.items → Extends fns q q')
    ?_ ?_ fuel pos q q' h hq
  · intro _ q _ hq
    exact .refl hq
  · intro pos q q' _ hrest hq
    have hadd : Extends fns q _ :=
      queueAdd_extends hq (blockSlice blk pos (min blk.size (pos + chunkSize)))
    exact hadd.trans (hrest hadd.marked)

theorem splitItem_extends {blk : ByteBlock} {chunkSize n : Nat} (h : EndMarked q.items)
    (hn : ∀ i, q.items[n]? = some i → i.done = false)
    (heq : splitItem q n blk chunkSize = some q') : Extends fns q q' := by
  unfold splitItem at heq
  split at heq
  · -- The item keeps the first piece, and the others are added behind it.
    have hmod := @modify_extends fns q h n
      (fun i => { i with block := blockSlice blk 0 chunkSize }) hn (fun _ => rfl)
      (fun _ _ hfn => Or.inl hfn)
    exact hmod.trans (rechunk_extends _ _ _ _ hmod.marked heq)
  · obtain rfl := Option.some.inj heq
    exact .refl h

theorem enqueueBlock_extends {blk : ByteBlock} {callback : JSValue} {ret : Nat}
    (h : EndMarked gen.queue.items)
    (hcb : callback.isFunction = true → ∃ f, fns f ∧ callback = .function f)
    (heq : enqueueBlock gen blk callback = some (gen', ret)) :
    ∃ q, gen' = gen.setQueue q ∧ Extends fns gen.queue q := by
  have hqueue : (createQueue gen).queue = gen.queue := rfl
  simp only [enqueueBlock, hqueue] at heq
  split at heq
  · obtain ⟨hput, hitem⟩ :=
      @queuePut_extends fns (gen.queue.setContinuous true) h blk
    have hput' : Extends fns gen.queue
        ((queuePut (gen.queue.setContinuous true) blk).1.setContinuous false) :=
      ⟨hput.marked, hput.complete, fun _ => rfl, hput.unrefs⟩
    split at heq
    · simp only [Option.some.injEq, Prod.mk.injEq] at heq
      exact ⟨_, heq.1.symm, hput'⟩
    · next n hn =>
      obtain ⟨q', hsplit, heq⟩ := Option.bind_eq_some_iff.1 heq
      simp only [Option.some.injEq, Prod.mk.injEq] at heq
      exact ⟨q', heq.1.symm, hput'.trans (splitItem_extends hput'.marked (hitem n hn) hsplit)⟩
  · obtain ⟨hput, hitem⟩ := @queuePut_extends fns gen.queue h blk
    split at heq
    · simp only [Option.some.injEq, Prod.mk.injEq] at heq
      exact ⟨_, heq.1.symm, hput⟩
    · next n hn =>
      simp only [Option.some.injEq, Prod.mk.injEq] at heq
      refine ⟨_, heq.1.symm, ?_⟩
      split
      · next hfn =>
        refine hput.trans (modify_extends hput.marked (hitem n hn) (fun _ => rfl) ?_)
        intro i fn hfn'
        obtain rfl := Option.some.inj hfn'
        exact Or.inr (hcb hfn)
      · exact hput

/-! ## The invariant -/

def Stopped (gen : Generator) : Prop := gen.iterator.closing = true ∨ gen.iterator.closed = true

structure ApiInv (gen : Generator) : Prop where
  drained : Stopped gen → gen.iterator.reads = []
  marked : EndMarked gen.queue.items
  ended : queueComplete gen.queue = true → Stopped gen
  unrefs : UserCallbacks (fun _ => True) gen.queue.items

theorem ApiInv.congr (h : ApiInv gen) (hit : gen'.iterator = gen.iterator)
    (hq : gen'.queue = gen.queue) : ApiInv gen' := by
  refine ⟨?_, by rw [hq]; exact h.marked, ?_, by rw [hq]; exact h.unrefs⟩
  · unfold Stopped
    rw [hit]
    exact h.drained
  · unfold Stopped
    rw [hit, hq]
    exact h.ended

theorem apiInv_new (blockFn : BlockFn) (executor : JSValue) (chunkSize : Option Nat) :
    ApiInv (.new blockFn executor chunkSize) := by
  have hnew : ApiInv { generatorNew .new with blockFn, executor } :=
    ⟨fun _ => rfl, .of_open openItems_nil, (fun hc => by cases hc), userCallbacks_nil⟩
  cases chunkSize with
  | none => exact hnew
  | some n => exact hnew.congr rfl rfl

/-- A generator that is not stopped has an open queue. -/
theorem ApiInv.isOpen (h : ApiInv gen) (hs : ¬ Stopped gen) : OpenItems gen.queue.items := by
  rcases complete_or_open h.marked with ⟨hopen, _⟩ | ⟨_, hc⟩
  · exact hopen
  · exact absurd (h.ended hc) hs

theorem ApiInv.withQueue (h : ApiInv gen) (hmarked : EndMarked q.items)
    (hcomplete : queueComplete q = queueComplete gen.queue)
    (hunrefs : UserCallbacks (fun _ => True) gen.queue.items →
      UserCallbacks (fun _ => True) q.items) : ApiInv (gen.setQueue q) :=
  ⟨h.drained, hmarked, fun hc => h.ended (hcomplete ▸ hc), hunrefs h.unrefs⟩

theorem ApiInv.delivers {k : Nat} (h : ApiInv gen) (hk : Delivers fns gen gen' k) :
    ApiInv gen' := by
  have hstopped : Stopped gen' ↔ Stopped gen := by
    unfold Stopped
    rw [hk.iterator]
  refine ⟨?_, ?_, ?_, ?_⟩
  · intro hs
    rw [hk.iterator, h.drained (hstopped.1 hs)]
    exact List.drop_nil
  · rw [hk.items]
    exact h.marked.drop k
  · intro hc
    refine hstopped.2 (h.ended ?_)
    unfold queueComplete queueBack at hc ⊢
    rw [hk.items, List.getLast?_drop] at hc
    split at hc
    · cases hc
    · exact hc
  · rw [hk.items]
    exact h.unrefs.drop k

/-- The loops deliver from an open queue, or find no read. -/
theorem ApiInv.updateLoop (h : ApiInv gen) : ∃ k,
    Delivers (fun _ => True) gen (updateLoop gen.iterator.reads.length gen).1 k ∧
      (updateLoop gen.iterator.reads.length gen).2 = k := by
  by_cases hs : Stopped gen
  · refine ⟨0, ?_⟩
    rw [h.drained hs]
    exact ⟨.zero _ gen, rfl⟩
  · obtain ⟨k, hk, hcount, _⟩ := updateLoop_open _ gen (h.isOpen hs) h.unrefs rfl
    exact ⟨k, hk, hcount⟩

theorem ApiInv.writeLoop (h : ApiInv gen) : ∃ k,
    Delivers (fun _ => True) gen (writeLoop gen.iterator.reads.length gen) k := by
  by_cases hs : Stopped gen
  · refine ⟨0, ?_⟩
    rw [h.drained hs]
    exact .zero _ gen
  · exact ⟨_, writeLoop_full _ gen (h.isOpen hs) h.unrefs rfl⟩

/-! ## Serving reads -/

/-- What `gen'` has done more than `gen` is to take in `k` new reads and settle the oldest ones. -/
structure Serves (k : Nat) (gen gen' : Generator) : Prop where
  slot : gen'.resolveReject = gen.resolveReject
  promise : gen'.promise = gen.promise
  executor : gen'.executor = gen.executor
  started : gen'.started = gen.started
  promises : gen'.ctx.promises = gen.ctx.promises + k
  answers : ∃ new, gen'.ctx.settlements = gen.ctx.settlements ++ new ∧
    new.map Prod.fst ++ gen'.iterator.waiting
      = gen.iterator.waiting ++ List.range' gen.ctx.promises k
  separate : gen.queue.continuous = false → gen'.queue.continuous = false
  stopped : Stopped gen → Stopped gen'

variable {gen'' : Generator} {j k : Nat}

theorem Serves.refl (gen : Generator) : Serves 0 gen gen where
  slot := rfl
  promise := rfl
  executor := rfl
  started := rfl
  promises := rfl
  answers := ⟨[], (List.append_nil _).symm, (List.append_nil _).symm⟩
  separate := id
  stopped := id

theorem Serves.trans (h1 : Serves j gen gen') (h2 : Serves k gen' gen'') :
    Serves (j + k) gen gen'' where
  slot := h2.slot.trans h1.slot
  promise := h2.promise.trans h1.promise
  executor := h2.executor.trans h1.executor
  started := h2.started.trans h1.started
  promises := by rw [h2.promises, h1.promises, Nat.add_assoc]
  answers := by
    obtain ⟨new, hs, hw⟩ := h1.answers
    obtain ⟨new', hs', hw'⟩ := h2.answers
    refine ⟨new ++ new', by rw [hs', hs, List.append_assoc], ?_⟩
    calc (new ++ new').map Prod.fst ++ gen''.iterator.waiting
        = new.map Prod.fst ++ (gen'.iterator.waiting ++ List.range' gen'.ctx.promises k) := by
          rw [List.map_append, List.append_assoc, hw']
      _ = gen.iterator.waiting ++ (List.range' gen.ctx.promises j
            ++ List.range' (gen.ctx.promises + j) k) := by
          rw [← List.append_assoc, hw, List.append_assoc, h1.promises]
      _ = gen.iterator.waiting ++ List.range' gen.ctx.promises (j + k) := by
          rw [List.range'_append_1]
  separate := fun h => h2.separate (h1.separate h)
  stopped := fun h => h2.stopped (h1.stopped h)

theorem Serves.count (h : Serves k gen gen') (hq : gen''.queue = gen'.queue)
    (hgen : ∃ q n m a b, gen'' = { gen' with
      q, bytesRead := n, chunksRead := m, bytesWritten := a, chunksWritten := b }) :
    Serves k gen gen'' := by
  obtain ⟨q, n, m, a, b, rfl⟩ := hgen
  refine ⟨h.slot, h.promise, h.executor, h.started, h.promises, h.answers, ?_, h.stopped⟩
  rw [hq]
  exact h.separate

theorem serves_setQueue (hq : gen.queue.continuous = false → q.continuous = false) :
    Serves 0 gen (gen.setQueue q) :=
  ⟨rfl, rfl, rfl, rfl, rfl, (Serves.refl gen).answers, hq, id⟩

theorem deliveries_fst (gen : Generator) : ∀ (reads : List AsyncRead) (items : List QueueItem),
    reads.length = items.length → (deliveries gen reads items).map Prod.fst
      = reads.map (·.capability)
  | [], _, _ => rfl
  | _ :: _, [], h => by cases h
  | rd :: reads, i :: is, h => by
    have ih := deliveries_fst gen reads is (Nat.succ.inj h)
    unfold deliveries at ih ⊢
    rw [List.zipWith_cons_cons, List.map_cons, List.map_cons, ih]

theorem Delivers.serves (h : Delivers fns gen gen' k) : Serves 0 gen gen' := by
  have hit := h.iterator
  have hpromises := h.promises
  have hsettlements := h.settlements
  have hcont := h.continuous
  obtain ⟨q, ctx, n, m, rfl⟩ := h.frame
  refine ⟨rfl, rfl, rfl, rfl, hpromises, ⟨_, hsettlements, ?_⟩, ?_, id⟩
  · have hlen : (gen.iterator.reads.take k).length = (gen.queue.items.take k).length := by
      have hreads := h.reads
      have hcount := h.count
      simp only [List.length_take]
      omega
    rw [deliveries_fst gen _ _ hlen]
    simp only [AsyncIterator.waiting, List.range'_zero, List.append_nil]
    rw [← List.map_append, List.take_append_drop]
  · rw [hcont]
    exact id

theorem serves_iteratorYield (gen : Generator) (v : JSValue) :
    Serves 0 gen (iteratorYield gen v).1 := by
  cases hreads : gen.iterator.reads with
  | nil =>
    rw [iteratorYield_nil hreads]
    exact .refl gen
  | cons rd reads =>
    simp only [iteratorYield_cons hreads]
    refine ⟨rfl, rfl, rfl, rfl, rfl, ⟨_, settlements_resolve .., ?_⟩, id, id⟩
    simp [AsyncIterator.waiting, hreads]

theorem rejectReads_answers (error : JSValue) (reads : List AsyncRead) (ctx : JSContext) :
    ∃ new, (rejectReads error reads ctx).1.settlements = ctx.settlements ++ new ∧
      new.map Prod.fst = reads.map (·.capability) := by
  refine ⟨_, (rejectReads_spec error reads ctx).1, ?_⟩
  rw [List.map_map]
  rfl

theorem iteratorStop_stopped (gen : Generator) (v : JSValue) : Stopped (iteratorStop gen v) := by
  cases hreads : gen.iterator.reads with
  | nil =>
    rw [iteratorStop_nil hreads]
    exact Or.inl rfl
  | cons rd reads =>
    rw [iteratorStop_cons hreads]
    exact Or.inr rfl

theorem serves_stop (gen : Generator) (v : JSValue) : Serves 0 gen (iteratorStop gen v) := by
  cases hreads : gen.iterator.reads with
  | nil =>
    rw [iteratorStop_nil hreads]
    exact ⟨rfl, rfl, rfl, rfl, rfl, (Serves.refl gen).answers, id, fun _ => Or.inl rfl⟩
  | cons rd reads =>
    rw [iteratorStop_cons hreads]
    obtain ⟨new, hnew, hfst⟩ := rejectReads_answers .null reads
      (jsCall gen.ctx (.resolve rd.capability) [.iteratorResult v true])
    have hpromises := (rejectReads_spec .null reads
      (jsCall gen.ctx (.resolve rd.capability) [.iteratorResult v true])).2
    refine ⟨rfl, rfl, rfl, rfl, hpromises,
      ⟨(rd.capability, .resolved (.iteratorResult v true)) :: new, ?_, ?_⟩, id, fun _ => Or.inr rfl⟩
    · rw [hnew, settlements_resolve, List.append_assoc, List.singleton_append]
    · simp [AsyncIterator.waiting, hreads, hfst]

/-! ## What each call does to it -/

theorem apiInv_stop (hmarked : EndMarked gen.queue.items)
    (hunrefs : UserCallbacks (fun _ => True) gen.queue.items) (v : JSValue) :
    ApiInv (iteratorStop gen v) :=
  ⟨fun _ => iteratorStop_reads gen v, hmarked, fun _ => iteratorStop_stopped gen v, hunrefs⟩

theorem ApiInv.enqueueBlock {blk : ByteBlock} {callback : JSValue} {ret : Nat} (h : ApiInv gen)
    (hcb : callback.isFunction = true → ∃ f, callback = .function f)
    (heq : enqueueBlock gen blk callback = some (gen', ret)) : ApiInv gen' ∧ Serves 0 gen gen' := by
  have hcb' : callback.isFunction = true → ∃ f, True ∧ callback = .function f := by
    intro hfn
    obtain ⟨f, hf⟩ := hcb hfn
    exact ⟨f, trivial, hf⟩
  obtain ⟨q, rfl, hq⟩ := @enqueueBlock_extends (fun _ => True) _ _ _ _ _ h.marked hcb' heq
  exact ⟨h.withQueue hq.marked hq.complete hq.unrefs, serves_setQueue hq.separate⟩

theorem ApiInv.iteratorYield (h : ApiInv gen) (v : JSValue) : ApiInv (iteratorYield gen v).1 := by
  cases hreads : gen.iterator.reads with
  | nil =>
    rw [iteratorYield_nil hreads]
    exact h
  | cons rd reads =>
    simp only [iteratorYield_cons hreads]
    refine ⟨?_, h.marked, h.ended, h.unrefs⟩
    intro hs
    have hnil := h.drained hs
    rw [hreads] at hnil
    cases hnil

theorem callbackArg_function {callback : Option Nat} :
    (callbackArg callback).isFunction = true → ∃ f, callbackArg callback = .function f := by
  intro hfn
  obtain ⟨f, _, hf⟩ := @callbackArg_user (fun _ => True) callback (fun _ _ => trivial) hfn
  exact ⟨f, hf⟩

theorem ApiInv.write {data : Bytes} {callback : Option Nat} {ret : Nat} (h : ApiInv gen)
    (heq : generatorWrite gen data (callbackArg callback) = some (gen', ret)) :
    ApiInv gen' ∧ Serves 0 gen gen' := by
  unfold generatorWrite at heq
  split at heq
  · obtain ⟨rfl, -⟩ := Prod.mk.inj (Option.some.inj heq)
    refine ⟨(h.iteratorYield _).congr rfl rfl, ?_⟩
    exact (serves_iteratorYield gen _).count rfl ⟨_, _, _, _, _, rfl⟩
  · obtain ⟨⟨gen₁, ret₁⟩, h1, h2⟩ := Option.bind_eq_some_iff.1 heq
    obtain ⟨rfl, -⟩ := Prod.mk.inj (Option.some.inj h2)
    obtain ⟨h₁, hserves⟩ := h.enqueueBlock callbackArg_function h1
    obtain ⟨k, hk⟩ := h₁.writeLoop
    refine ⟨(h₁.delivers hk).congr rfl rfl, ?_⟩
    exact (hserves.trans hk.serves).count rfl ⟨_, _, _, _, _, rfl⟩

theorem ApiInv.yield {v : JSValue} {callback : JSValue} {b : Bool} (h : ApiInv gen)
    (hcb : callback.isFunction = true → ∃ f, callback = .function f)
    (heq : generatorYield gen v callback = some (gen', b)) :
    ApiInv gen' ∧ Serves 0 gen gen' ∧ b = true := by
  have h₁ := h.iteratorYield v
  have hserves := serves_iteratorYield gen v
  unfold generatorYield at heq
  cases hy : QjsNet.iteratorYield gen v with
  | mk gen₁ yielded =>
    rw [hy] at h₁ hserves
    simp only [hy] at heq
    split at heq
    · obtain ⟨rfl, rfl⟩ := Prod.mk.inj (Option.some.inj heq)
      exact ⟨h₁.congr rfl rfl, hserves.count rfl ⟨_, _, _, _, _, rfl⟩, rfl⟩
    · obtain ⟨⟨gen₂, ret₂⟩, h2, h3⟩ := Option.bind_eq_some_iff.1 heq
      obtain ⟨rfl, rfl⟩ := Prod.mk.inj (Option.some.inj h3)
      obtain ⟨h₂, henq⟩ := h₁.enqueueBlock hcb h2
      exact ⟨h₂.congr rfl rfl, (hserves.trans henq).count rfl ⟨_, _, _, _, _, rfl⟩, rfl⟩

/-- A generator with the capability of a new promise in its slot. -/
def Generator.createPush (gen : Generator) : Generator :=
  { gen with ctx := { gen.ctx with promises := gen.ctx.promises + 1 },
             resolveReject := .ofPromise gen.ctx.promises }

/-- A push yields with a new promise in the slot, and never rejects it. -/
theorem ApiInv.push {v : JSValue} {ret : JSValue} (h : ApiInv gen)
    (heq : generatorPush gen v = some (gen', ret)) :
    ApiInv gen' ∧ ∃ gen₁, Serves 0 gen.createPush gen₁ ∧
      gen' = { gen₁ with promise := some (jsPromiseWrap gen.ctx.promises) } := by
  unfold generatorPush at heq
  obtain ⟨⟨gen₁, b⟩, h1, h2⟩ := Option.bind_eq_some_iff.1 heq
  have hcreated : ApiInv gen.createPush := h.congr rfl rfl
  obtain ⟨h₁, hserves, rfl⟩ := hcreated.yield (fun hfn => by cases hfn) h1
  obtain ⟨rfl, -⟩ := Prod.mk.inj (Option.some.inj h2)
  exact ⟨h₁.congr rfl rfl, gen₁, hserves, rfl⟩

theorem ApiInv.enqueue {v : JSValue} {ret : Nat} (h : ApiInv gen)
    (heq : generatorEnqueue gen v = some (gen', ret)) : ApiInv gen' ∧ Serves 0 gen gen' := by
  have hcreated : ApiInv (createQueue gen) := h.congr rfl rfl
  obtain ⟨h', hserves⟩ := hcreated.enqueueBlock (fun hfn => by cases hfn) heq
  exact ⟨h', (serves_setQueue id).trans hserves⟩

theorem generatorCallback_idle {arg : JSValue} (h : gen.callback.isFunction = false) :
    generatorCallback gen arg = gen := by
  simp [generatorCallback, h]

/-- What `generator_next` does between taking in the read and looking at the queue. -/
def Generator.resume (gen : Generator) (arg : JSValue) : Generator :=
  if (startExecutor gen).2 then (startExecutor gen).1
  else if gen.started then gen
  else { generatorCallback gen arg with started := true }

theorem nextBegin_eq {arg ret : JSValue} {it : AsyncIterator} {ctx : JSContext}
    (hnext : asynciteratorNext gen.iterator arg gen.ctx = some (it, ctx, ret)) :
    generatorNextBegin gen arg
      = some (Generator.resume { gen with iterator := it, ctx } arg, ret) := by
  unfold generatorNextBegin Generator.resume
  rw [hnext]
  simp only [Option.bind_eq_bind, Option.bind_some]
  unfold startExecutor
  cases hexec : gen.executor.isFunction with
  | true => rfl
  | false => cases gen.started <;> simp

theorem resume_frame (gen : Generator) (arg : JSValue) : ∃ ctx executor funcs started,
    gen.resume arg = { gen with
      ctx := ctx
      executor := executor
      resolveReject := funcs
      started := started } := by
  unfold Generator.resume
  split
  · unfold startExecutor
    split
    · exact ⟨_, _, _, _, rfl⟩
    · exact ⟨_, _, _, _, rfl⟩
  · split
    · exact ⟨_, _, _, _, rfl⟩
    · unfold generatorCallback
      split
      · exact ⟨_, _, _, _, rfl⟩
      · exact ⟨_, _, _, _, rfl⟩

theorem resume_iterator (gen : Generator) (arg : JSValue) :
    (gen.resume arg).iterator = gen.iterator ∧ (gen.resume arg).q = gen.q := by
  obtain ⟨ctx, executor, funcs, started, heq⟩ := resume_frame gen arg
  rw [heq]
  exact ⟨rfl, rfl⟩

theorem resume_promises (gen : Generator) (arg : JSValue) :
    (gen.resume arg).ctx.promises = gen.ctx.promises := by
  unfold Generator.resume startExecutor generatorCallback
  cases gen.executor.isFunction <;> cases gen.started <;> cases gen.callback.isFunction <;> rfl

theorem ApiInv.resume (h : ApiInv gen) (arg : JSValue) : ApiInv (gen.resume arg) := by
  obtain ⟨ctx, executor, funcs, started, heq⟩ := resume_frame gen arg
  rw [heq]
  exact h.congr rfl rfl

/-- A generator that is not stopped after `asynciterator_next`: the read waits behind the others. -/
def Generator.ask (gen : Generator) (arg : JSValue) : Generator :=
  { gen with
    iterator := { gen.iterator with
      reads := gen.iterator.reads ++ [⟨gen.ctx.promises, .ofPromise gen.ctx.promises, arg, rfl⟩] }
    ctx := { gen.ctx with promises := gen.ctx.promises + 1 } }

theorem serves_ask (gen : Generator) (arg : JSValue) : Serves 1 gen (gen.ask arg) := by
  refine ⟨rfl, rfl, rfl, rfl, rfl, ⟨[], (List.append_nil _).symm, ?_⟩, id, id⟩
  simp [AsyncIterator.waiting, Generator.ask]

theorem ApiInv.ask (h : ApiInv gen) (hs : ¬ Stopped gen) (arg : JSValue) : ApiInv (gen.ask arg) :=
  ⟨fun hs' => absurd hs' hs, h.marked, fun hc => absurd (h.ended hc) hs, h.unrefs⟩

theorem nextBegin_ask (hs : ¬ Stopped gen) (arg : JSValue) :
    generatorNextBegin gen arg = some ((gen.ask arg).resume arg, .promise gen.ctx.promises) := by
  have hopen : gen.iterator.closing = false ∧ gen.iterator.closed = false := by
    simpa [Stopped] using hs
  exact nextBegin_eq (next_open hopen.1 hopen.2)

/-- A stopped generator after `asynciterator_next`: the read is answered with the last result. -/
def Generator.answerDone (gen : Generator) : Generator :=
  { gen with
    iterator := ⟨[], true, true⟩
    ctx := jsCall { promises := gen.ctx.promises + 1, log := gen.ctx.log }
      (.resolve gen.ctx.promises) [.iteratorResult .undefined true] }

theorem answerDone_settlements (gen : Generator) : gen.answerDone.ctx.settlements
    = gen.ctx.settlements ++ [(gen.ctx.promises, .resolved (.iteratorResult .undefined true))] :=
  settlements_resolve ..

theorem serves_answerDone (hreads : gen.iterator.reads = []) : Serves 1 gen gen.answerDone := by
  refine ⟨rfl, rfl, rfl, rfl, rfl, ⟨_, answerDone_settlements gen, ?_⟩, id, fun _ => Or.inl rfl⟩
  simp [AsyncIterator.waiting, Generator.answerDone, hreads]

theorem ApiInv.answerDone (h : ApiInv gen) : ApiInv gen.answerDone :=
  ⟨fun _ => rfl, h.marked, fun _ => Or.inl rfl, h.unrefs⟩

theorem nextBegin_answerDone (hs : Stopped gen) (hreads : gen.iterator.reads = [])
    (arg : JSValue) :
    generatorNextBegin gen arg
      = some (gen.answerDone.resume arg, .promise gen.ctx.promises) :=
  nextBegin_eq (next_ended hs hreads)

/-- A read is taken in, and answered at once when the generator is stopped. -/
theorem ApiInv.nextBegin (h : ApiInv gen) (arg : JSValue) : ∃ gen₁,
    generatorNextBegin gen arg = some (gen₁.resume arg, .promise gen.ctx.promises) ∧
      ApiInv gen₁ ∧ Serves 1 gen gen₁ := by
  by_cases hs : Stopped gen
  · have hreads := h.drained hs
    exact ⟨_, nextBegin_answerDone hs hreads arg, h.answerDone, serves_answerDone hreads⟩
  · exact ⟨gen.ask arg, nextBegin_ask hs arg, h.ask hs arg, serves_ask gen arg⟩

theorem apiStep_next_starts {s : ApiState} {arg ret : JSValue}
    (hbegin : generatorNextBegin s.gen arg = some (gen, ret))
    (hexec : s.gen.executor.isFunction = true) :
    apiStep s (.next arg) = some { s with
      gen := gen
      running := true
      asked := s.asked ++ [s.gen.ctx.promises] } := by
  simp [apiStep, hbegin, hexec]

theorem apiStep_next {s : ApiState} {arg ret : JSValue}
    (hbegin : generatorNextBegin s.gen arg = some (gen, ret))
    (hexec : s.gen.executor.isFunction = false) :
    apiStep s (.next arg) = some { s with
      gen := generatorNextEnd gen
      asked := s.asked ++ [s.gen.ctx.promises] } := by
  simp [apiStep, hbegin, hexec]

theorem ApiInv.nextEnd (h : ApiInv gen) :
    ApiInv (generatorNextEnd gen) ∧ Serves 0 gen (generatorNextEnd gen) := by
  have hupdate : ∃ gen' n, (if gen.q.isSome then generatorUpdate gen else (gen, 0)) = (gen', n) ∧
      ApiInv gen' ∧ Serves 0 gen gen' := by
    split
    · obtain ⟨k, hk, _⟩ := h.updateLoop
      exact ⟨_, _, rfl, h.delivers hk, hk.serves⟩
    · exact ⟨gen, 0, rfl, h, .refl gen⟩
  obtain ⟨gen₁, n, heq, h₁, hserves⟩ := hupdate
  rw [generatorNextEnd_eq heq]
  split
  · exact ⟨apiInv_stop h₁.marked h₁.unrefs .undefined, hserves.trans (serves_stop gen₁ .undefined)⟩
  · exact ⟨h₁, hserves⟩

/-- Unless it is stopped, the rest of a `next` is the loop. -/
theorem ApiInv.nextEnd_going (h : ApiInv gen) (hs : ¬ Stopped gen) :
    generatorNextEnd gen = (QjsNet.updateLoop gen.iterator.reads.length gen).1 := by
  obtain ⟨hk, _⟩ := @updateLoop_ready (fun _ => True) _ gen (h.isOpen hs) h.unrefs rfl
  have hend : ((QjsNet.updateLoop gen.iterator.reads.length gen).1.iterator.closing ||
      (QjsNet.updateLoop gen.iterator.reads.length gen).1.iterator.closed) = false := by
    rw [hk.iterator]
    simpa [Stopped] using hs
  cases hq : gen.q with
  | none =>
    have hloop : QjsNet.updateLoop gen.iterator.reads.length gen = (gen, 0) := by
      cases gen.iterator.reads.length <;> simp [QjsNet.updateLoop, hq]
    rw [hloop] at hend ⊢
    simp only [generatorNextEnd, hq, Option.isSome_none, Bool.false_eq_true, if_false, hend,
      Bool.and_false]
  | some q =>
    simp only [generatorNextEnd, hq, Option.isSome_some, if_true, generatorUpdate, hend,
      Bool.and_false, Bool.false_eq_true, if_false]

theorem ApiInv.next (h : ApiInv gen) (arg : JSValue) : ∃ gen₁,
    generatorNext gen arg
        = some (generatorNextEnd (gen₁.resume arg), .promise gen.ctx.promises) ∧
      ApiInv gen₁ ∧ Serves 1 gen gen₁ := by
  obtain ⟨gen₁, hbegin, h₁, hserves⟩ := h.nextBegin arg
  refine ⟨gen₁, ?_, h₁, hserves⟩
  simp only [generatorNext, hbegin, Option.bind_eq_bind, Option.bind_some]

theorem queueClose_marked (h : EndMarked q.items) : ∃ q' n, queueClose q = some (q', n) ∧
    EndMarked q'.items ∧ (UserCallbacks fns q.items → UserCallbacks fns q'.items) ∧
    q'.continuous = q.continuous := by
  rcases complete_or_open h with ⟨hopen, _⟩ | ⟨_, hc⟩
  · refine ⟨q.addTail doneItem, q.items.length, queueClose_open hopen, ?_, userCallbacks_doneItem, rfl⟩
    exact EndMarked.snoc hopen rfl
  · exact ⟨q, q.items.length - 1, by simp [queueClose, hc], h, id, rfl⟩

theorem stopContinuous_extends (h : EndMarked q.items) :
    ∃ q' ctx, stopContinuous gen q = { gen.setQueue q' with ctx } ∧ Extends fns q q' := by
  unfold stopContinuous
  split
  · exact ⟨q, gen.ctx, rfl, .refl h⟩
  · next n hn =>
    split
    · exact ⟨q, gen.ctx, rfl, .refl h⟩
    · refine ⟨_, _, rfl, ?_⟩
      split
      · refine modify_extends h (lastChunk_not_done h hn) (fun _ => rfl) ?_
        exact fun _ _ hfn => Or.inl hfn
      · exact .refl h

/-- What `generator_stop` does to the queue leaves the iterator alone; only a generator that
collects calls its callbacks. -/
theorem stopQueue_spec (h : ApiInv gen) : ∃ gen', stopQueue gen = some gen' ∧
    gen'.iterator = gen.iterator ∧ EndMarked gen'.queue.items ∧
    UserCallbacks (fun _ => True) gen'.queue.items ∧
    (gen.queue.continuous = false → Serves 0 gen gen') := by
  cases hq : gen.q with
  | none => exact ⟨gen, by rw [stopQueue, hq], rfl, h.marked, h.unrefs, fun _ => .refl gen⟩
  | some q =>
    have hqueue := queue_of_q hq
    obtain ⟨q', n, hclose, hmarked, hunrefs, hcont⟩ :=
      @queueClose_marked (fun _ => True) q (hqueue ▸ h.marked)
    have huser := hunrefs (hqueue ▸ h.unrefs)
    obtain ⟨q'', ctx, hstop, hext⟩ := @stopContinuous_extends (fun _ => True) gen q' hmarked
    refine ⟨if q'.continuous then stopContinuous gen q' else gen.setQueue q', ?_, ?_⟩
    · simp only [stopQueue, hq, hclose, Option.bind_eq_bind, Option.bind_some]
    · split
      · next hcontinuous =>
        rw [hstop]
        refine ⟨rfl, hext.marked, hext.unrefs huser, ?_⟩
        intro hseparate
        rw [hqueue, ← hcont, hcontinuous] at hseparate
        cases hseparate
      · refine ⟨rfl, hmarked, huser, fun _ => serves_setQueue ?_⟩
        rw [hqueue, hcont]
        exact id

/-- A stop never fails, and it stops. -/
theorem ApiInv.stop (h : ApiInv gen) (arg : JSValue) :
    ∃ gen' b, generatorStop gen arg = some (gen', b) ∧ ApiInv gen' ∧ Stopped gen' ∧
      (gen.queue.continuous = false → Serves 0 gen gen') := by
  unfold generatorStop
  by_cases hclosed : gen.iterator.closed = true
  · rw [if_pos hclosed]
    exact ⟨gen, false, rfl, h, Or.inr hclosed, fun _ => .refl gen⟩
  · obtain ⟨gen₁, hqueue, hit, hmarked, hunrefs, hserves⟩ := stopQueue_spec h
    rw [if_neg hclosed, hqueue]
    refine ⟨iteratorStop gen₁ arg, true, congrArg some (stopIterator_eq gen₁ arg), ?_,
      iteratorStop_stopped gen₁ arg, ?_⟩
    · exact apiInv_stop hmarked hunrefs arg
    · exact fun hseparate => (hserves hseparate).trans (serves_stop gen₁ arg)

theorem ApiInv.iteratorReturn (h : ApiInv gen) (arg : JSValue) :
    ApiInv (generatorReturn gen arg).1 := by
  let gen₁ : Generator := { gen with ctx := { gen.ctx with promises := gen.ctx.promises + 1 } }
  have hstop := @apiInv_stop gen₁ h.marked h.unrefs arg
  exact hstop.congr rfl rfl

/-- A generator that has made a promise and rejected it. -/
def Generator.rejectNew (gen : Generator) (error : JSValue) : Generator :=
  let ctx : JSContext := { gen.ctx with promises := gen.ctx.promises + 1 }
  { gen with ctx := jsCall ctx (.reject gen.ctx.promises) [error] }

/-- An unhandled error comes back in a rejected promise, and the generator is stopped. -/
theorem ApiInv.throw_unhandled (h : ApiInv gen) (error : JSValue) (hu : gen.unhandled = true) :
    ∃ gen₁, generatorThrow gen error = some (gen₁, .promise gen.ctx.promises) ∧ ApiInv gen₁ ∧
      Stopped gen₁ ∧ (gen.queue.continuous = false → Serves 0 (gen.rejectNew error) gen₁) := by
  have hnew : ApiInv (gen.rejectNew error) := h.congr rfl rfl
  obtain ⟨gen₁, b, hstop, h₁, hs, hserves⟩ := hnew.stop .undefined
  refine ⟨gen₁, ?_, h₁, hs, hserves⟩
  unfold generatorThrow
  rw [if_pos hu]
  exact Option.bind_eq_some_iff.2 ⟨(gen₁, b), hstop, rfl⟩

theorem rejectPush_promises (gen : Generator) (error : JSValue) :
    (gen.rejectPush error).ctx.promises = gen.ctx.promises := by
  cases hnull : gen.resolveReject.reject.isNullish <;>
    simp [Generator.rejectPush, jsAsyncReject, hnull]

/-- A handled one goes to the push, and a read follows. -/
theorem ApiInv.throw_handled (h : ApiInv gen) (error : JSValue) (hu : gen.unhandled = false) :
    ∃ gen₁, generatorThrow gen error
        = some (generatorNextEnd (gen₁.resume .undefined), .promise gen.ctx.promises) ∧
      ApiInv gen₁ ∧ Serves 1 (gen.rejectPush error) gen₁ := by
  have hreject : ApiInv (gen.rejectPush error) := h.congr rfl rfl
  obtain ⟨gen₁, hnext, h₁, hserves⟩ := hreject.next .undefined
  refine ⟨gen₁, ?_, h₁, hserves⟩
  unfold generatorThrow
  rw [if_neg (by rw [hu]; exact Bool.false_ne_true), hnext, rejectPush_promises]

theorem ApiInv.throw (h : ApiInv gen) (error : JSValue) :
    ∃ gen' ret, generatorThrow gen error = some (gen', ret) ∧ ApiInv gen' := by
  cases hu : gen.unhandled with
  | true =>
    obtain ⟨gen₁, hthrow, h₁, _⟩ := h.throw_unhandled error hu
    exact ⟨gen₁, _, hthrow, h₁⟩
  | false =>
    obtain ⟨gen₁, hthrow, h₁, _⟩ := h.throw_handled error hu
    exact ⟨_, _, hthrow, (h₁.resume .undefined).nextEnd.1⟩

end QjsNet
