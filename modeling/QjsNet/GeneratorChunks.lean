import QjsNet.GeneratorPush

/- What the reads of a generator get, chunk by chunk.

   A chunk is delivered as `BlockFn.value`. What the reads were answered with
   (`Generator.answers`, without the settlements of pushes) are the values of some
   chunks, and the queue holds others; `Fits` says how the two are made of the chunks
   that were accepted. Without buffering they are the same chunks in the same order.
   With buffering they are the same bytes in the same order, cut into pieces of the
   size that was set.

   `ChunkInv` is kept by every producer and every read. A value that goes past the
   queue to a read that waits keeps it when it is what the queue would have delivered
   (`ChunkInv.bypass`). -/
namespace QjsNet

variable {fns : Nat → Prop} {gen gen' : Generator} {pushed asked : List Nat} {k : Nat}

/-! ## Answers -/

/-- What a read gets for a chunk. -/
def BlockFn.value (f : BlockFn) (d : Bytes) : JSValue := if d = [] then .undefined else f.apply d

def BlockFn.answer (f : BlockFn) (d : Bytes) : Settlement := .resolved (.iteratorResult (f.value d) false)

theorem chunkOf_eq (gen : Generator) (i : QueueItem) :
    gen.chunkOf i = gen.blockFn.value i.block.data := by
  unfold Generator.chunkOf BlockFn.value
  by_cases hd : i.block.data = []
  · rw [if_pos hd, if_neg (by simpa using ByteBlock.size_eq_zero.2 hd)]
  · rw [if_neg hd, if_pos (by simpa using mt ByteBlock.size_eq_zero.1 hd)]

/-- The settlements of the reads. -/
def Generator.answers (gen : Generator) (pushed : List Nat) : List (Nat × Settlement) :=
  gen.ctx.settlements.filter fun e => e.1 ∉ pushed

theorem answers_append {new : List (Nat × Settlement)}
    (h : gen'.ctx.settlements = gen.ctx.settlements ++ new) (hnew : ∀ e ∈ new, e.1 ∉ pushed) :
    gen'.answers pushed = gen.answers pushed ++ new := by
  have hall : new.filter (fun e => e.1 ∉ pushed) = new := by
    rw [List.filter_eq_self]
    intro e he
    simpa using hnew e he
  unfold Generator.answers
  rw [h, List.filter_append, hall]

theorem answers_pushed {new : List (Nat × Settlement)}
    (h : gen'.ctx.settlements = gen.ctx.settlements ++ new) (hnew : ∀ e ∈ new, e.1 ∈ pushed) :
    gen'.answers pushed = gen.answers pushed := by
  have hnone : new.filter (fun e => e.1 ∉ pushed) = [] := by
    rw [List.filter_eq_nil_iff]
    intro e he
    simpa using hnew e he
  unfold Generator.answers
  rw [h, List.filter_append, hnone, List.append_nil]

theorem deliveries_snd (gen : Generator) : ∀ (reads : List AsyncRead) (items : List QueueItem),
    reads.length = items.length → (deliveries gen reads items).map (·.2)
      = (itemsData items).map gen.blockFn.answer
  | [], [], _ => rfl
  | rd :: reads, i :: is, h => by
    have ih := deliveries_snd gen reads is (Nat.succ.inj h)
    unfold deliveries at ih ⊢
    rw [List.zipWith_cons_cons, List.map_cons, ih, chunkOf_eq]
    rfl

/-- The reads that are answered have got the chunks `delivered`; the others wait. -/
structure Holds (gen : Generator) (pushed asked : List Nat) (delivered : List Bytes) : Prop where
  answers : (gen.answers pushed).map (·.2) = delivered.map gen.blockFn.answer
  asked : (gen.answers pushed).map (·.1) ++ gen.iterator.waiting = asked

theorem Holds.delivers {delivered : List Bytes} (h : Holds gen pushed asked delivered)
    (hapart : ∀ p ∈ pushed, p ∉ gen.iterator.waiting) (hk : Delivers fns gen gen' k) :
    Holds gen' pushed asked (delivered ++ (itemsData gen.queue.items).take k) := by
  have hlen : (gen.iterator.reads.take k).length = (gen.queue.items.take k).length := by
    have hreads := hk.reads
    have hcount := hk.count
    simp only [List.length_take]
    omega
  have hfst := deliveries_fst gen _ _ hlen
  have hsnd := deliveries_snd gen _ _ hlen
  have hnew : ∀ e ∈ deliveries gen (gen.iterator.reads.take k) (gen.queue.items.take k),
      e.1 ∉ pushed := by
    intro e he hp
    have hmem : e.1 ∈ (gen.iterator.reads.take k).map (·.capability) := by
      rw [← hfst]
      exact List.mem_map.2 ⟨e, he, rfl⟩
    refine hapart e.1 hp ?_
    unfold AsyncIterator.waiting
    rw [← List.take_append_drop k gen.iterator.reads, List.map_append]
    exact List.mem_append_left _ hmem
  have hanswers := answers_append hk.settlements hnew
  have hblockFn : gen'.blockFn = gen.blockFn := by
    obtain ⟨q, ctx, n, m, rfl⟩ := hk.frame
    rfl
  refine ⟨?_, ?_⟩
  · rw [hanswers, List.map_append, h.answers, hsnd, hblockFn, List.map_append]
    unfold itemsData
    rw [List.map_take]
  · rw [hanswers, List.map_append, List.append_assoc, ← h.asked]
    congr 1
    rw [show (deliveries gen (gen.iterator.reads.take k) (gen.queue.items.take k)).map (·.1)
      = _ from hfst, hk.iterator]
    unfold AsyncIterator.waiting
    rw [← List.map_append, List.take_append_drop]

/-! ## How chunks are kept -/

/-- The mode: without buffering, or buffering with a size. -/
def InMode (gen : Generator) : Option Nat → Prop
  | none => gen.buffering = false ∧ gen.chunkSize = 0
  | some c => gen.buffering = true ∧ gen.chunkSize = c

/-- How what was delivered and what is queued are made of what was accepted. -/
def Fits : Option Nat → List Bytes → List Bytes → List Bytes → Prop
  | none, accepted, delivered, queued => delivered ++ queued = accepted
  | some c, accepted, delivered, queued =>
    (∀ d ∈ delivered, d.length = c) ∧ Cut.Pieces c queued ∧
      delivered.flatten ++ queued.flatten = accepted.flatten

variable {f : BlockFn} {mode : Option Nat} {accepted delivered queued : List Bytes} {d : Bytes}

theorem Fits.deliver (h : Fits mode accepted delivered queued)
    (hfull : ∀ c, mode = some c → ∀ d ∈ queued.take k, c ≤ d.length) :
    Fits mode accepted (delivered ++ queued.take k) (queued.drop k) := by
  cases mode with
  | none =>
    show delivered ++ queued.take k ++ queued.drop k = accepted
    rw [List.append_assoc, List.take_append_drop]
    exact h
  | some c =>
    obtain ⟨hdelivered, hpieces, hbytes⟩ := h
    refine ⟨?_, hpieces.drop k, ?_⟩
    · intro d hd
      rcases List.mem_append.1 hd with hd | hd
      · exact hdelivered d hd
      · exact hpieces.full_of_le (List.mem_of_mem_take hd) (hfull c rfl d hd)
    · rw [List.flatten_append, List.append_assoc, ← List.flatten_append, List.take_append_drop,
        hbytes]

/-- A chunk goes past the queue, which does not change the whole. -/
def Passes : Option Nat → List Bytes → Bytes → Prop
  | none, queued, d => [d] ++ queued = queued ++ [d]
  | some c, queued, d => d.length = c ∧ d ++ queued.flatten = queued.flatten ++ d

instance (queued : List Bytes) (d : Bytes) : (mode : Option Nat) → Decidable (Passes mode queued d)
  | none => inferInstanceAs (Decidable (_ = _))
  | some _ => inferInstanceAs (Decidable (_ ∧ _))

theorem Fits.bypass (h : Fits mode accepted delivered queued) (hd : Passes mode queued d) :
    Fits mode (accepted ++ [d]) (delivered ++ [d]) queued := by
  cases mode with
  | none =>
    show delivered ++ [d] ++ queued = accepted ++ [d]
    rw [List.append_assoc, show [d] ++ queued = queued ++ [d] from hd, ← List.append_assoc,
      show delivered ++ queued = accepted from h]
  | some c =>
    obtain ⟨hdelivered, hpieces, hbytes⟩ := h
    obtain ⟨hlen, hcomm⟩ := hd
    refine ⟨?_, hpieces, ?_⟩
    · intro d' hd'
      rcases List.mem_append.1 hd' with hd' | hd'
      · exact hdelivered d' hd'
      · exact List.mem_singleton.1 hd' ▸ hlen
    · simp only [List.flatten_append, List.flatten_singleton]
      rw [List.append_assoc, hcomm, ← List.append_assoc, hbytes]

/-- A buffering generator merges into the last item and cuts it. -/
theorem Fits.recut {c : Nat} {cut : List Bytes} (h : Fits (some c) accepted delivered queued)
    (hcut : Cut.Pieces c cut) (hbytes : cut.flatten = queued.getLast?.getD [] ++ d) :
    Fits (some c) (accepted ++ [d]) delivered (queued.dropLast ++ cut) := by
  obtain ⟨hdelivered, hpieces, hall⟩ := h
  refine ⟨hdelivered, hcut.append hpieces.full, ?_⟩
  have hlast : queued.dropLast.flatten ++ queued.getLast?.getD [] = queued.flatten := by
    rcases List.eq_nil_or_concat' queued with rfl | ⟨init, last, rfl⟩
    · rfl
    · simp
  calc delivered.flatten ++ (queued.dropLast ++ cut).flatten
      = delivered.flatten ++ (queued.dropLast.flatten ++ queued.getLast?.getD []) ++ d := by
        rw [List.flatten_append, hbytes]
        simp only [List.append_assoc]
    _ = (accepted ++ [d]).flatten := by
        rw [hlast, hall, List.flatten_append, List.flatten_singleton]

structure ChunkInv (f : BlockFn) (mode : Option Nat) (gen : Generator) (pushed asked : List Nat)
    (accepted : List Bytes) : Prop where
  api : ApiInv gen
  going : ¬ Stopped gen
  separate : gen.queue.continuous = false
  blockFn : gen.blockFn = f
  setting : InMode gen mode
  apart : ∀ p ∈ pushed, p ∉ gen.iterator.waiting
  chunks : ∃ delivered, Holds gen pushed asked delivered ∧
    Fits mode accepted delivered (itemsData gen.queue.items)

theorem ChunkInv.isOpen (h : ChunkInv f mode gen pushed asked accepted) : OpenItems gen.queue.items :=
  h.api.isOpen h.going

theorem chunkInv_new (f : BlockFn) (executor : JSValue) (chunkSize : Option Nat) :
    ChunkInv f (chunkSize.map (· % 2 ^ 32)) (.new f executor chunkSize) [] [] [] := by
  have hapi := apiInv_new f executor chunkSize
  cases chunkSize with
  | none =>
    exact ⟨hapi, by simp [Stopped, Generator.new, generatorNew, asynciteratorZero], rfl, rfl, ⟨rfl, rfl⟩,
      fun _ hp => absurd hp List.not_mem_nil, [], ⟨rfl, rfl⟩, rfl⟩
  | some n =>
    exact ⟨hapi, by simp [Stopped, Generator.new, generatorNew, generatorBuffering, createQueue,
      Generator.setQueue, asynciteratorZero], rfl, rfl, ⟨rfl, rfl⟩,
      fun _ hp => absurd hp List.not_mem_nil, [], ⟨rfl, rfl⟩,
      ⟨fun _ hd => absurd hd List.not_mem_nil, Cut.pieces_nil, rfl⟩⟩

theorem ChunkInv.congr (h : ChunkInv f mode gen pushed asked accepted)
    (hit : gen'.iterator = gen.iterator) (hs : gen'.ctx.settlements = gen.ctx.settlements)
    (hq : gen'.queue = gen.queue) (hblockFn : gen'.blockFn = gen.blockFn)
    (hbuffering : gen'.buffering = gen.buffering) (hsize : gen'.chunkSize = gen.chunkSize) :
    ChunkInv f mode gen' pushed asked accepted := by
  obtain ⟨delivered, hholds, hfits⟩ := h.chunks
  have hanswers : gen'.answers pushed = gen.answers pushed := by
    unfold Generator.answers
    rw [hs]
  refine ⟨h.api.congr hit hq, ?_, by rw [hq]; exact h.separate, hblockFn.trans h.blockFn, ?_,
    by rw [hit]; exact h.apart, delivered, ⟨?_, ?_⟩, by rw [hq]; exact hfits⟩
  · unfold Stopped
    rw [hit]
    exact h.going
  · have hmode := h.setting
    cases mode with
    | none => exact ⟨hbuffering.trans hmode.1, hsize.trans hmode.2⟩
    | some c => exact ⟨hbuffering.trans hmode.1, hsize.trans hmode.2⟩
  · rw [hanswers, hblockFn]
    exact hholds.answers
  · rw [hanswers, hit]
    exact hholds.asked

/-! ## What keeps it -/

theorem mem_take_takeWhile {α : Type} {p : α → Bool} {x : α} {xs : List α} {k : Nat}
    (hk : k ≤ (xs.takeWhile p).length) (hx : x ∈ xs.take k) : p x = true := by
  have htake : xs.take k = (xs.takeWhile p).take k := by
    conv_lhs => rw [← List.takeWhile_append_dropWhile (p := p) (l := xs)]
    exact List.take_append_of_le_length hk
  rw [htake] at hx
  exact List.mem_takeWhile_imp (List.mem_of_mem_take hx)

theorem ChunkInv.delivers (h : ChunkInv f mode gen pushed asked accepted)
    (hk : Delivers fns gen gen' k)
    (hfull : ∀ c, mode = some c → ∀ i ∈ gen.queue.items.take k, c ≤ i.block.size) :
    ChunkInv f mode gen' pushed asked accepted := by
  obtain ⟨delivered, hholds, hfits⟩ := h.chunks
  have hitems : itemsData gen'.queue.items = (itemsData gen.queue.items).drop k := by
    unfold itemsData
    rw [hk.items, List.map_drop]
  have hblockFn : gen'.blockFn = gen.blockFn := by
    obtain ⟨q, ctx, n, m, rfl⟩ := hk.frame
    rfl
  refine ⟨h.api.delivers hk, ?_, hk.continuous.trans h.separate, hblockFn.trans h.blockFn, ?_, ?_, _,
    hholds.delivers h.apart hk, ?_⟩
  · unfold Stopped
    rw [hk.iterator]
    exact h.going
  · have hmode := h.setting
    obtain ⟨q, ctx, n, m, rfl⟩ := hk.frame
    exact hmode
  · intro p hp hwaiting
    refine h.apart p hp ?_
    rw [hk.iterator] at hwaiting
    obtain ⟨rd, hrd, rfl⟩ := List.mem_map.1 hwaiting
    exact List.mem_map.2 ⟨rd, List.mem_of_mem_drop hrd, rfl⟩
  · rw [hitems]
    refine hfits.deliver ?_
    intro c hc d hd
    unfold itemsData at hd
    rw [← List.map_take] at hd
    obtain ⟨i, hi, rfl⟩ := List.mem_map.1 hd
    exact hfull c hc i hi

theorem ChunkInv.bypass {v : JSValue} {rd : AsyncRead} {reads : List AsyncRead}
    (h : ChunkInv f mode gen pushed asked accepted) (hreads : gen.iterator.reads = rd :: reads)
    (hv : v = gen.blockFn.value d) (hd : Passes mode (itemsData gen.queue.items) d) :
    ChunkInv f mode (iteratorYield gen v).1 pushed asked (accepted ++ [d]) := by
  obtain ⟨delivered, hholds, hfits⟩ := h.chunks
  have hapi := h.api.iteratorYield v
  simp only [iteratorYield_cons hreads] at hapi ⊢
  have hrd : rd.capability ∉ pushed := by
    intro hp
    refine h.apart _ hp ?_
    simp [AsyncIterator.waiting, hreads]
  have hanswers := @answers_append gen { gen with
      iterator := { gen.iterator with reads }
      ctx := jsCall gen.ctx (.resolve rd.capability) [.iteratorResult v false] } pushed
    [(rd.capability, .resolved (.iteratorResult v false))] (settlements_resolve ..)
    (fun e he => List.mem_singleton.1 he ▸ hrd)
  refine ⟨hapi, h.going, h.separate, h.blockFn, h.setting, ?_, delivered ++ [d], ⟨?_, ?_⟩,
    hfits.bypass hd⟩
  · intro p hp hwaiting
    refine h.apart p hp ?_
    unfold AsyncIterator.waiting at hwaiting ⊢
    rw [hreads]
    exact List.mem_cons_of_mem _ hwaiting
  · rw [hanswers, List.map_append, List.map_append, hholds.answers, hv]
    rfl
  · rw [hanswers, List.map_append, List.append_assoc, ← hholds.asked]
    simp [AsyncIterator.waiting, hreads]

/-! ## Putting a chunk into the queue -/

theorem lastData_eq (items : List QueueItem) :
    lastData items = (itemsData items).getLast?.getD [] := by
  unfold lastData itemsData
  rw [List.getLast?_map]

theorem itemsData_append (is js : List QueueItem) :
    itemsData (is ++ js) = itemsData is ++ itemsData js := List.map_append ..

/-- Without buffering the chunk becomes an item; with buffering it is merged into the last one,
which is cut. -/
theorem enqueueBlock_data {callback : JSValue} {ret : Nat} (hopen : OpenItems gen.queue.items)
    (hseparate : gen.queue.continuous = false)
    (heq : enqueueBlock gen (blockCopy d) callback = some (gen', ret)) :
    ∃ q, gen' = gen.setQueue q ∧
      (gen.buffering = false → itemsData q.items = itemsData gen.queue.items ++ [d]) ∧
      (gen.buffering = true → ∃ cut, itemsData q.items = (itemsData gen.queue.items).dropLast ++ cut ∧
        Cut.Pieces gen.chunkSize cut ∧
        cut.flatten = (itemsData gen.queue.items).getLast?.getD [] ++ d ∧
        (d ≠ [] → ∀ b ∈ cut, b ≠ [])) := by
  cases hbuf : gen.buffering with
  | true =>
    obtain ⟨q, first, extra, rfl, _, hitems, _, _, _, hbytes, hpieces, _, hne, _⟩ :=
      enqueueBlock_cut hopen hbuf heq
    refine ⟨q, rfl, (fun hn => by cases hn), fun _ => ⟨itemsData (first :: extra), ?_, hpieces, ?_, ?_⟩⟩
    · rw [hitems, itemsData_append]
      congr 1
      exact List.map_dropLast ..
    · rw [← itemsBytes_eq_flatten, hbytes, lastData_eq, data_blockCopy]
    · intro hd
      exact hne (List.append_ne_nil_of_right_ne_nil _ hd)
  | false =>
    obtain ⟨q, item, rfl, _, hitems, _, hdata, _⟩ := enqueueBlock_plain hopen hbuf heq
    refine ⟨q, rfl, fun _ => ?_, (fun hn => by cases hn)⟩
    rw [hseparate, if_neg Bool.false_ne_true] at hitems hdata
    rw [hitems, itemsData_append]
    show itemsData gen.queue.items ++ [item.block.data] = _
    rw [hdata]
    rfl

/-- A put comes to its end unless it cuts into empty pieces. -/
theorem enqueueBlock_total (hc : gen.buffering = true → 0 < gen.chunkSize) (blk : ByteBlock)
    (callback : JSValue) : ∃ gen' ret, enqueueBlock gen blk callback = some (gen', ret) := by
  simp only [enqueueBlock]
  split
  · next hbuf =>
    split
    · exact ⟨_, _, rfl⟩
    · next n hn =>
      obtain ⟨q', hsplit⟩ := splitItem_total
        ((queuePut ((createQueue gen).queue.setContinuous true) blk).1.setContinuous false) n
        ((((queuePut ((createQueue gen).queue.setContinuous true) blk).1.setContinuous
          false).items[n]?).elim none (·.block)) (hc hbuf)
      exact ⟨_, _, Option.bind_eq_some_iff.2 ⟨q', hsplit, rfl⟩⟩
  · split
    · exact ⟨_, _, rfl⟩
    · exact ⟨_, _, rfl⟩

theorem ChunkInv.enqueueBlock {callback : JSValue} {ret : Nat}
    (h : ChunkInv f mode gen pushed asked accepted)
    (hcb : callback.isFunction = true → ∃ f, callback = .function f)
    (heq : enqueueBlock gen (blockCopy d) callback = some (gen', ret)) :
    ChunkInv f mode gen' pushed asked (accepted ++ [d]) := by
  obtain ⟨hapi, hserves⟩ := h.api.enqueueBlock hcb heq
  obtain ⟨q, rfl, hseparate, hbuffered⟩ := enqueueBlock_data h.isOpen h.separate heq
  obtain ⟨delivered, hholds, hfits⟩ := h.chunks
  refine ⟨hapi, h.going, hserves.separate h.separate, h.blockFn, h.setting, h.apart, delivered,
    ⟨hholds.answers, hholds.asked⟩, ?_⟩
  have hsetting := h.setting
  cases mode with
  | none =>
    show delivered ++ itemsData q.items = accepted ++ [d]
    rw [hseparate hsetting.1, ← List.append_assoc,
      show delivered ++ itemsData gen.queue.items = accepted from hfits]
  | some c =>
    obtain ⟨cut, hq, hpieces, hbytes, _⟩ := hbuffered hsetting.1
    rw [hsetting.2] at hpieces
    rw [setQueue_queue, hq]
    exact hfits.recut hpieces hbytes

/-! ## The calls -/

/-- Both loops deliver items that have the size. -/
theorem ChunkInv.updateLoop (h : ChunkInv f mode gen pushed asked accepted) :
    ChunkInv f mode (updateLoop gen.iterator.reads.length gen).1 pushed asked accepted := by
  obtain ⟨hk, _⟩ := updateLoop_ready _ gen h.isOpen h.api.unrefs rfl
  refine h.delivers hk ?_
  intro c hc i hi
  have hclosing : gen.iterator.closing = false := by
    have hgoing := h.going
    simp only [Stopped, not_or, Bool.not_eq_true] at hgoing
    exact hgoing.1
  have hready := mem_take_takeWhile (Nat.min_le_right _ _) hi
  have hsetting := h.setting
  rw [hc] at hsetting
  simpa [Generator.ready, hclosing, hsetting.1, hsetting.2] using hready

theorem ChunkInv.writeLoop (h : ChunkInv f mode gen pushed asked accepted) :
    ChunkInv f mode (writeLoop gen.iterator.reads.length gen) pushed asked accepted := by
  refine h.delivers (writeLoop_full _ gen h.isOpen h.api.unrefs rfl) ?_
  intro c hc i hi
  have hfull := mem_take_takeWhile (Nat.min_le_right _ _) hi
  have hsetting := h.setting
  rw [hc] at hsetting
  simpa [Generator.full, hsetting.2] using hfull

theorem ChunkInv.write {callback : Option Nat} {ret : Nat}
    (h : ChunkInv f mode gen pushed asked accepted) (hd : gen.direct = true → d ≠ [])
    (heq : generatorWrite gen d (callbackArg callback) = some (gen', ret)) :
    ChunkInv f mode gen' pushed asked (accepted ++ [d]) := by
  unfold generatorWrite at heq
  split at heq
  · next hdirect =>
    obtain ⟨rfl, -⟩ := Prod.mk.inj (Option.some.inj heq)
    obtain ⟨hbuf, _, hitems, hne⟩ := direct_iff.1 hdirect
    obtain ⟨rd, reads, hreads⟩ := List.exists_cons_of_ne_nil hne
    have hvalue : gen.blockFn.apply d = gen.blockFn.value d := by
      rw [BlockFn.value, if_neg (hd hdirect)]
    have hpasses : Passes mode (itemsData gen.queue.items) d := by
      have hsetting := h.setting
      cases mode with
      | none =>
        rw [hitems]
        rfl
      | some c =>
        rw [hsetting.1] at hbuf
        cases hbuf
    exact (h.bypass hreads hvalue hpasses).congr rfl rfl rfl rfl rfl rfl
  · obtain ⟨⟨gen₁, ret₁⟩, h1, h2⟩ := Option.bind_eq_some_iff.1 heq
    obtain ⟨rfl, -⟩ := Prod.mk.inj (Option.some.inj h2)
    exact (h.enqueueBlock callbackArg_function h1).writeLoop.congr rfl rfl rfl rfl rfl rfl

theorem ChunkInv.yield {v callback : JSValue} {b : Bool}
    (h : ChunkInv f mode gen pushed asked accepted)
    (hcb : callback.isFunction = true → ∃ f, callback = .function f)
    (hv : gen.iterator.reads ≠ [] → v = gen.blockFn.value (jsInputChars v) ∧
      Passes mode (itemsData gen.queue.items) (jsInputChars v))
    (heq : generatorYield gen v callback = some (gen', b)) :
    ChunkInv f mode gen' pushed asked (accepted ++ [jsInputChars v]) := by
  unfold generatorYield at heq
  cases hreads : gen.iterator.reads with
  | nil =>
    simp only [iteratorYield_nil hreads, Bool.false_eq_true, if_false, Option.bind_eq_bind] at heq
    obtain ⟨⟨gen₁, ret₁⟩, h1, h2⟩ := Option.bind_eq_some_iff.1 heq
    obtain ⟨rfl, -⟩ := Prod.mk.inj (Option.some.inj h2)
    exact (h.enqueueBlock hcb h1).congr rfl rfl rfl rfl rfl rfl
  | cons rd reads =>
    have hyielded : (iteratorYield gen v).2 = true := by
      simp [iteratorYield_cons hreads]
    obtain ⟨hvalue, hpasses⟩ := hv (by rw [hreads]; exact List.cons_ne_nil _ _)
    have h₁ := h.bypass hreads hvalue hpasses
    cases hy : iteratorYield gen v with
    | mk gen₁ yielded =>
      rw [hy] at hyielded h₁
      simp only [hy, hyielded, if_true, Option.bind_eq_bind, Option.bind_some] at heq
      obtain ⟨rfl, -⟩ := Prod.mk.inj (Option.some.inj heq)
      exact h₁.congr rfl rfl rfl rfl rfl rfl

theorem ChunkInv.enqueue {v : JSValue} {ret : Nat} (h : ChunkInv f mode gen pushed asked accepted)
    (heq : generatorEnqueue gen v = some (gen', ret)) :
    ChunkInv f mode gen' pushed asked (accepted ++ [jsInputChars v]) := by
  have hcreated : ChunkInv f mode (createQueue gen) pushed asked accepted :=
    h.congr rfl rfl rfl rfl rfl rfl
  exact hcreated.enqueueBlock (fun hfn => by cases hfn) heq

theorem ChunkInv.ask (h : ChunkInv f mode gen pushed asked accepted)
    (hfresh : gen.ctx.promises ∉ pushed) (arg : JSValue) :
    ChunkInv f mode (gen.ask arg) pushed (asked ++ [gen.ctx.promises]) accepted := by
  obtain ⟨delivered, hholds, hfits⟩ := h.chunks
  have hwaiting : (gen.ask arg).iterator.waiting = gen.iterator.waiting ++ [gen.ctx.promises] := by
    simp [Generator.ask, AsyncIterator.waiting]
  refine ⟨h.api.ask h.going arg, h.going, h.separate, h.blockFn, h.setting, ?_, delivered,
    ⟨hholds.answers, ?_⟩, hfits⟩
  · intro p hp hw
    rw [hwaiting] at hw
    rcases List.mem_append.1 hw with hw | hw
    · exact h.apart p hp hw
    · exact hfresh (List.mem_singleton.1 hw ▸ hp)
  · rw [hwaiting, ← List.append_assoc]
    exact congrArg (· ++ [gen.ctx.promises]) hholds.asked

theorem ChunkInv.resume (h : ChunkInv f mode gen pushed asked accepted) (hpush : PushInv gen pushed)
    (arg : JSValue) : ChunkInv f mode (gen.resume arg) pushed asked accepted := by
  obtain ⟨delivered, hholds, hfits⟩ := h.chunks
  obtain ⟨_, hsettlements⟩ := hpush.resume arg
  obtain ⟨hit, hq⟩ := resume_iterator gen arg
  obtain ⟨hblockFn, hbuffering, hsize⟩ : (gen.resume arg).blockFn = gen.blockFn ∧
      (gen.resume arg).buffering = gen.buffering ∧ (gen.resume arg).chunkSize = gen.chunkSize := by
    obtain ⟨ctx, executor, funcs, started, heq⟩ := resume_frame gen arg
    rw [heq]
    exact ⟨rfl, rfl, rfl⟩
  have hanswers : (gen.resume arg).answers pushed = gen.answers pushed := by
    refine answers_pushed hsettlements ?_
    intro e he
    split at he
    · cases he
    · obtain ⟨p, hp, rfl⟩ := List.mem_map.1 he
      exact outstanding_mem (by simpa using hp)
  have hqueue : (gen.resume arg).queue = gen.queue := by
    unfold Generator.queue
    rw [hq]
  refine ⟨h.api.resume arg, ?_, by rw [hqueue]; exact h.separate, hblockFn.trans h.blockFn, ?_,
    by rw [hit]; exact h.apart, delivered, ⟨?_, ?_⟩, by rw [hqueue]; exact hfits⟩
  · unfold Stopped
    rw [hit]
    exact h.going
  · have hsetting := h.setting
    cases mode with
    | none => exact ⟨hbuffering.trans hsetting.1, hsize.trans hsetting.2⟩
    | some c => exact ⟨hbuffering.trans hsetting.1, hsize.trans hsetting.2⟩
  · rw [hanswers, hblockFn]
    exact hholds.answers
  · rw [hanswers, hit]
    exact hholds.asked

theorem ChunkInv.nextEnd (h : ChunkInv f mode gen pushed asked accepted) :
    ChunkInv f mode (generatorNextEnd gen) pushed asked accepted := by
  rw [h.api.nextEnd_going h.going]
  exact h.updateLoop

/-! ## Drained generators -/

/-- No read waits, or nothing can be delivered. -/
def Drained (gen : Generator) : Prop :=
  gen.iterator.reads = [] ∨ ∀ i, gen.queue.items.head? = some i → gen.ready i = false

/-- A generator that has delivered as much as it can is drained. -/
theorem Delivers.drained {p : QueueItem → Bool}
    (hk : Delivers fns gen gen'
      (min gen.iterator.reads.length (gen.queue.items.takeWhile p).length))
    (hp : gen.ready = p) : Drained gen' := by
  rcases Nat.le_total gen.iterator.reads.length (gen.queue.items.takeWhile p).length with hle | hle
  · rw [Nat.min_eq_left hle] at hk
    refine Or.inl ?_
    rw [hk.iterator]
    exact List.drop_length
  · rw [Nat.min_eq_right hle] at hk
    refine Or.inr ?_
    intro i hi
    have hrest : gen'.queue.items = gen.queue.items.dropWhile p := by
      have hsplit := List.takeWhile_append_dropWhile (p := p) (l := gen.queue.items)
      calc gen'.queue.items
          = (gen.queue.items.takeWhile p ++ gen.queue.items.dropWhile p).drop
              (gen.queue.items.takeWhile p).length := by rw [hsplit, hk.items]
        _ = gen.queue.items.dropWhile p := List.drop_left
    have hhead := List.head?_dropWhile_not p gen.queue.items
    rw [hrest] at hi
    rw [hi] at hhead
    rw [hk.ready, hp]
    simpa using hhead

/-- While the generator goes on, both loops deliver the same items. -/
theorem ChunkInv.ready_eq (h : ChunkInv f mode gen pushed asked accepted) : gen.ready = gen.full := by
  have hclosing : gen.iterator.closing = false := by
    have hgoing := h.going
    simp only [Stopped, not_or, Bool.not_eq_true] at hgoing
    exact hgoing.1
  refine ready_eq_full hclosing ?_
  intro hbuf
  have hsetting := h.setting
  cases mode with
  | none => exact hsetting.2
  | some c =>
    rw [hsetting.1] at hbuf
    cases hbuf

theorem ChunkInv.nextEnd_drained (h : ChunkInv f mode gen pushed asked accepted) :
    Drained (generatorNextEnd gen) := by
  rw [h.api.nextEnd_going h.going]
  exact (updateLoop_ready _ gen h.isOpen h.api.unrefs rfl).1.drained rfl

theorem ChunkInv.writeLoop_drained (h : ChunkInv f mode gen pushed asked accepted) :
    Drained (QjsNet.writeLoop gen.iterator.reads.length gen) :=
  (writeLoop_full _ gen h.isOpen h.api.unrefs rfl).drained h.ready_eq

end QjsNet
