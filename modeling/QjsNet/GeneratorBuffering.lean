import QjsNet.GeneratorLedger

/- The re-chunking loop of a buffering generator (`enqueue_block` in `generator.c`).

   The chunk size is a `size_t` that `generator_buffering` stores in a `uint32_t`, so what
   the loop adds to `pos` is its remainder. When that is 0, no turn takes a byte, and a loop
   that has a byte to cut goes on forever (`rechunk_stuck`). What it cuts is the written
   block behind the bytes of the chunk that it is merged into (`mergedBytes`).

   Any other chunk size brings the loop to its end, with every byte in the queue unless the
   queue was complete (`buffering_consumes_iff`). -/
namespace QjsNet

/-- The bytes that a buffering generator cuts after a write of `data`: nothing when the queue
refuses the block. -/
def mergedBytes (q : Queue) (data : Bytes) : Bytes :=
  match queueLastChunk q with
  | some n => ByteBlock.data ((q.items[n]?).elim none (·.block)) ++ data
  | none => if queueComplete q then [] else data

/-- The write comes to its end, with the block behind the bytes of a queue that is not complete. -/
def Consumes (gen : Generator) (blk : ByteBlock) (callback : JSValue) : Prop :=
  ∃ gen' ret, enqueueBlock gen blk callback = some (gen', ret) ∧
    (queueComplete gen.queue = false →
      itemsBytes gen'.queue.items = itemsBytes gen.queue.items ++ blk.data)

variable {q q' : Queue} {gen : Generator} {blk : ByteBlock} {init : List QueueItem}
  {last : QueueItem} {chunkSize n : Nat}

/-! ## A loop that takes no byte -/

theorem rechunk_stuck : ∀ (fuel : Nat) {pos : Nat} (q : Queue), pos < blk.size →
    rechunk blk 0 fuel pos q = none := by
  intro fuel
  induction fuel with
  | zero =>
    intro pos q _
    rfl
  | succ fuel ih =>
    intro pos q hpos
    have hstop : min blk.size (pos + 0) = pos := by omega
    rw [rechunk, if_pos hpos, hstop]
    exact ih _ hpos

theorem splitItem_iff (q : Queue) (n : Nat) (blk : ByteBlock) (chunkSize : Nat) :
    (∃ q', splitItem q n blk chunkSize = some q') ↔ (chunkSize = 0 → blk.data = []) := by
  by_cases hc : chunkSize = 0
  · subst hc
    unfold splitItem
    by_cases hsize : blk.size > 0
    · rw [if_pos hsize, rechunk_stuck _ _ hsize]
      refine iff_of_false (fun h => by cases h.choose_spec) ?_
      intro h
      rw [ByteBlock.size_eq_zero.2 (h rfl)] at hsize
      exact Nat.lt_irrefl 0 hsize
    · rw [if_neg hsize]
      exact iff_of_true ⟨q, rfl⟩ fun _ => ByteBlock.size_eq_zero.1 (by omega)
  · exact iff_of_true (splitItem_total q n blk (Nat.pos_of_ne_zero hc)) (absurd · hc)

/-! ## What is merged -/

/-- In continuous mode a put that is not refused leaves the merged bytes in the item it returns. -/
theorem queuePut_merged (hc : q.continuous = true) (blk : ByteBlock) :
    ((queuePut q blk).2 = none ∧ mergedBytes q blk.data = []) ∨
    ∃ n item, (queuePut q blk).2 = some n ∧ (queuePut q blk).1.items[n]? = some item ∧
      item.block.data = mergedBytes q blk.data := by
  have hmode : (if q.continuous then queueLastChunk q else none) = queueLastChunk q := by
    rw [hc, if_pos rfl]
  unfold queuePut mergedBytes
  rw [hmode]
  cases hlast : queueLastChunk q with
  | none =>
    cases hcomplete : queueComplete q with
    | true =>
      refine Or.inl ⟨?_, rfl⟩
      simp only [queueAdd, hcomplete, if_true]
    | false =>
      refine Or.inr ⟨q.items.length, ⟨blk, none, false, none⟩, ?_, ?_, rfl⟩
      · rw [queueAdd_incomplete hcomplete]
      · rw [queueAdd_incomplete hcomplete, addTail_items, List.getElem?_concat_length]
  | some n =>
    obtain ⟨item, hitem, -⟩ := getElem?_lastIdx? hlast
    refine Or.inr ⟨n, { item with block := some (item.block.data ++ blk.data) }, rfl, ?_, ?_⟩
    · simp only [modify_items, List.getElem?_modify_eq, hitem, merge_block]
      rfl
    · dsimp only
      rw [hitem]
      rfl

/-- In a queue that is not complete this item is the last one, behind everything else. -/
theorem queuePut_last (hc : q.continuous = true) (hopen : queueComplete q = false) (blk : ByteBlock) :
    ∃ init last, (queuePut q blk).1.items = init ++ [last] ∧ (queuePut q blk).2 = some init.length ∧
      last.done = false ∧ itemsBytes (init ++ [last]) = itemsBytes q.items ++ blk.data := by
  rcases List.eq_nil_or_concat' q.items with hnil | ⟨init, last, hsnoc⟩
  · have hput := queuePut_continuous_nil hnil blk
    refine ⟨[], ⟨blk, none, false, none⟩, ?_, ?_, rfl, ?_⟩
    · rw [hput, addTail_items, hnil]
    · rw [hput]
      rfl
    · rw [hnil]
      simp
  · have hdone : last.done = false := (queueComplete_snoc hsnoc).symm.trans hopen
    obtain ⟨hitems, -, hn⟩ := queuePut_continuous_snoc hsnoc hdone hc blk
    refine ⟨init, _, hitems, hn, hdone, ?_⟩
    rw [hsnoc]
    simp

/-! ## A write -/

theorem enqueueBlock_buffering (hbuf : gen.buffering = true) (blk : ByteBlock) (callback : JSValue) :
    ((queuePut (gen.queue.setContinuous true) blk).2 = none →
      ∃ gen' ret, enqueueBlock gen blk callback = some (gen', ret)) ∧
    ∀ n item, (queuePut (gen.queue.setContinuous true) blk).2 = some n →
      (queuePut (gen.queue.setContinuous true) blk).1.items[n]? = some item →
      enqueueBlock gen blk callback =
        (splitItem ((queuePut (gen.queue.setContinuous true) blk).1.setContinuous false) n item.block
          gen.chunkSize).map fun q => (gen.setQueue q, item.block.size) := by
  have hqueue : (createQueue gen).queue = gen.queue := rfl
  have hbuf' : (createQueue gen).buffering = true := hbuf
  refine ⟨?_, ?_⟩
  · intro hn
    simp only [enqueueBlock, hqueue, hbuf', if_true, hn]
    exact ⟨_, _, rfl⟩
  · intro n item hn hitem
    simp only [enqueueBlock, hqueue, hbuf', if_true, hn, setContinuous_items, hitem, Option.elim_some]
    exact Option.map_eq_bind.symm

theorem enqueueBlock_iff (hbuf : gen.buffering = true) (blk : ByteBlock) (callback : JSValue) :
    (∃ gen' ret, enqueueBlock gen blk callback = some (gen', ret)) ↔
      (gen.chunkSize = 0 → mergedBytes gen.queue blk.data = []) := by
  have hmerged : mergedBytes (gen.queue.setContinuous true) blk.data = mergedBytes gen.queue blk.data :=
    rfl
  obtain ⟨hrefused, hcut⟩ := enqueueBlock_buffering hbuf blk callback
  rcases @queuePut_merged (gen.queue.setContinuous true) rfl blk with
    ⟨hn, hnil⟩ | ⟨n, item, hn, hitem, hdata⟩
  · exact iff_of_true (hrefused hn) fun _ => hmerged ▸ hnil
  · rw [← hmerged, ← hdata, hcut n item hn hitem,
      ← splitItem_iff ((queuePut (gen.queue.setContinuous true) blk).1.setContinuous false) n]
    refine ⟨?_, ?_⟩
    · rintro ⟨gen', ret, hmap⟩
      obtain ⟨q, hq, -⟩ := Option.map_eq_some_iff.1 hmap
      exact ⟨q, hq⟩
    · rintro ⟨q, hq⟩
      exact ⟨_, _, by rw [hq]; rfl⟩

/-- What a write that comes to its end leaves in a queue that is not complete. -/
theorem enqueueBlock_bytes {callback : JSValue} {gen' : Generator} {ret : Nat}
    (hbuf : gen.buffering = true) (hopen : queueComplete gen.queue = false)
    (h : enqueueBlock gen blk callback = some (gen', ret)) :
    itemsBytes gen'.queue.items = itemsBytes gen.queue.items ++ blk.data := by
  obtain ⟨init, last, hitems, hn, hdone, hbytes⟩ :=
    @queuePut_last (gen.queue.setContinuous true) rfl hopen blk
  have hitem : (queuePut (gen.queue.setContinuous true) blk).1.items[init.length]? = some last := by
    rw [hitems, List.getElem?_concat_length]
  rw [(enqueueBlock_buffering hbuf blk callback).2 _ _ hn hitem] at h
  obtain ⟨q, hsplit, heq⟩ := Option.map_eq_some_iff.1 h
  cases heq
  have hitems' : ((queuePut (gen.queue.setContinuous true) blk).1.setContinuous false).items
      = init ++ [last] := hitems
  obtain ⟨first, extra, hq, -, -, hcut, -⟩ := splitItem_open hitems' hdone hsplit
  calc itemsBytes q.items
      = itemsBytes init ++ (first.data ++ itemsBytes extra) := by
        rw [hq, itemsBytes_append, itemsBytes_append, itemsBytes_cons, itemsBytes_nil,
          List.append_nil, List.append_assoc]
    _ = itemsBytes (init ++ [last]) := by
        rw [hcut, itemsBytes_append, itemsBytes_cons, itemsBytes_nil, List.append_nil]
    _ = itemsBytes gen.queue.items ++ blk.data := hbytes

/-- **When buffering terminates.** After `generator_buffering` with any chunk size, a write comes to
its end with the whole block in the queue if and only if the chunk size is no multiple of 4294967296
or there is no byte to cut. Otherwise no number of turns ends the loop. -/
theorem buffering_consumes_iff (gen : Generator) (chunkSize : Nat) (blk : ByteBlock)
    (callback : JSValue) :
    (Consumes (generatorBuffering gen chunkSize).1 blk callback ↔
      (chunkSize % 4294967296 = 0 → mergedBytes gen.queue blk.data = [])) ∧
    (chunkSize % 4294967296 = 0 → ∀ (merged : ByteBlock) (fuel pos : Nat) (q : Queue),
      pos < merged.size →
      rechunk merged (generatorBuffering gen chunkSize).1.chunkSize fuel pos q = none) := by
  have hsize : (generatorBuffering gen chunkSize).1.chunkSize = chunkSize % 4294967296 := rfl
  have hqueue : (generatorBuffering gen chunkSize).1.queue = gen.queue := rfl
  have hbuf : (generatorBuffering gen chunkSize).1.buffering = true := rfl
  refine ⟨?_, ?_⟩
  · rw [← hsize, ← hqueue, ← enqueueBlock_iff hbuf blk callback]
    refine ⟨?_, ?_⟩
    · rintro ⟨gen', ret, h, -⟩
      exact ⟨gen', ret, h⟩
    · rintro ⟨gen', ret, h⟩
      exact ⟨gen', ret, h, fun hopen => enqueueBlock_bytes hbuf hopen h⟩
  · intro hzero merged fuel pos q hpos
    rw [hsize, hzero]
    exact rechunk_stuck fuel q hpos

/-- A chunk size of 0, and one that becomes 0 in its field. -/
theorem buffering_stuck :
    ¬ Consumes (generatorBuffering (generatorNew .new) 0).1 (some [1]) .undefined ∧
    ¬ Consumes (generatorBuffering (generatorNew .new) 4294967296).1 (some [1]) .undefined := by
  refine ⟨?_, ?_⟩
  · rintro ⟨gen', ret, h, -⟩
    cases h
  · rintro ⟨gen', ret, h, -⟩
    cases h

end QjsNet
