import QjsNet.GeneratorApi

/- The sizes of the items in the queue of a generator.

   How many items a call lets out depends on the sizes alone: those of the items before
   it and, for a write, the number of its bytes (`sizesAfter`, `leaving`). -/
namespace QjsNet

def itemsSizes (items : List QueueItem) : List Nat := items.map (·.block.size)

/-- The sizes after `n` bytes are put into the queue. -/
def Generator.sizesAfter (gen : Generator) (n : Nat) : List Nat :=
  let sizes := itemsSizes gen.queue.items
  let merged := sizes.getLast?.getD 0 + n
  if gen.buffering then sizes.dropLast ++ Cut.lengths gen.chunkSize merged
  else if gen.queue.continuous then sizes.dropLast ++ [merged]
  else sizes ++ [n]

/-- How many items go to the reads that wait: from the front, those that have the chunk size. -/
def Generator.leaving (gen : Generator) (reads : Nat) (sizes : List Nat) : Nat :=
  min reads (sizes.takeWhile (gen.chunkSize ≤ ·)).length

variable {gen gen' : Generator}

theorem itemsSizes_eq (items : List QueueItem) :
    itemsSizes items = (itemsData items).map List.length := by
  unfold itemsSizes itemsData
  rw [List.map_map]
  rfl

theorem itemsSizes_lastData (items : List QueueItem) :
    (itemsSizes items).getLast?.getD 0 = (lastData items).length := by
  unfold itemsSizes lastData
  rw [List.getLast?_map]
  cases items.getLast? <;> rfl

theorem enqueueBlock_sizes {blk : ByteBlock} {callback : JSValue} {ret : Nat}
    (hopen : OpenItems gen.queue.items) (h : enqueueBlock gen blk callback = some (gen', ret)) :
    itemsSizes gen'.queue.items = gen.sizesAfter blk.size := by
  unfold Generator.sizesAfter
  have hmerged : (itemsSizes gen.queue.items).getLast?.getD 0 + blk.size
      = (lastData gen.queue.items ++ blk.data).length := by
    rw [itemsSizes_lastData, List.length_append]
    rfl
  have hinit : itemsSizes gen.queue.items.dropLast = (itemsSizes gen.queue.items).dropLast :=
    List.map_dropLast ..
  simp only [hmerged]
  cases hbuf : gen.buffering with
  | true =>
    obtain ⟨q, first, extra, rfl, _, hitems, _, _, _, hbytes, hpieces, hnil, hne, _⟩ :=
      enqueueBlock_cut hopen hbuf h
    have hlengths : itemsSizes (first :: extra)
        = Cut.lengths gen.chunkSize (lastData gen.queue.items ++ blk.data).length := by
      rw [itemsBytes_eq_flatten] at hbytes
      by_cases hmerge : lastData gen.queue.items ++ blk.data = []
      · -- Nothing is cut, and the item is empty.
        rw [hmerge] at hbytes ⊢
        rw [hnil hmerge] at hbytes ⊢
        rw [List.length_nil, Cut.lengths_of_le (Nat.zero_le _)]
        have hfirst : first.block.data = [] := by simpa [itemsData] using hbytes
        exact congrArg ([·]) (ByteBlock.size_eq_zero.2 hfirst)
      · rw [itemsSizes_eq, Cut.pieces_lengths hpieces (List.cons_ne_nil _ _) (hne hmerge), hbytes]
    rw [if_pos rfl, setQueue_queue, hitems, ← hlengths, ← hinit]
    exact List.map_append ..
  | false =>
    obtain ⟨q, item, rfl, _, hitems, _, hdata, _⟩ := enqueueBlock_plain hopen hbuf h
    rw [if_neg Bool.false_ne_true, setQueue_queue, hitems]
    have hsize : item.block.size = item.block.data.length := rfl
    cases hc : gen.queue.continuous with
    | true =>
      rw [hc, if_pos rfl] at hdata
      rw [if_pos rfl, if_pos rfl, ← hinit, ← hdata]
      exact List.map_append ..
    | false =>
      rw [hc, if_neg Bool.false_ne_true, List.nil_append] at hdata
      rw [if_neg Bool.false_ne_true, if_neg Bool.false_ne_true,
        show blk.size = item.block.size by rw [hsize, hdata]; rfl]
      exact List.map_append ..

theorem sizesAfter_pos (gen : Generator) (n : Nat) : 0 < (gen.sizesAfter n).length := by
  unfold Generator.sizesAfter Cut.lengths
  simp only
  split
  · simp only [List.length_append, List.length_singleton]
    omega
  · split <;> simp

/-- The loop of `generator_write`. -/
theorem leaving_full (gen : Generator) (reads : Nat) (items : List QueueItem) :
    gen.leaving reads (itemsSizes items) = min reads (items.takeWhile gen.full).length := by
  unfold Generator.leaving itemsSizes
  rw [List.takeWhile_map, List.length_map]
  rfl

end QjsNet
